import CSLiS.Head.Rput
import CSLiS.Head.Carried
import CSLiS.Lib.Exec

/-!
# The byte counts of the stream head read queue (head/head.c, head/queue.c)

Arrivals from below, the service procedure, readers and the writers that ask
for `lis_bcanput` in any order. The service procedure holds one message between
`lis_get_rput_q` and `lis_process_rput`.
-/

namespace CSLiS.Head
open Queue Lib.Exec

structure ReadSide where
  hd : Stdata
  hand : Option Msg
  deriving DecidableEq, Repr

inductive ReadAct where
  | strrput (mp : Msg) (alloc : Msg → Bool)
  | getRput (alloc : Bool)
  | process (alloc : Msg → Bool)
  | checkMSig (alloc : Msg → Bool)
  | getq (alloc : Msg → Bool)
  | bcanput (band : Uchar) (alloc : Bool)
  | flags (qFlag : Qflag) (sdFlag : SdFlag)

namespace ReadSide

def addrs (s : ReadSide) : List ℕ := (s.hd.sdRq.msgs ++ s.hd.sdRput ++ s.hand.toList).map Msg.addr

/-- A message that arrives is not one that the stream head has. With `flags`
other parts of the stream head change flags: readers, closing, the scheduler. -/
def step (so : Msg → Stroptions) (s : ReadSide) : ReadAct → Option ReadSide
  | .strrput mp alloc =>
      if mp.addr ∈ s.addrs then none else some { s with hd := s.hd.lisStrrput alloc mp }
  | .getRput alloc =>
      match s.hand, s.hd.sdRput with
      | none, mp :: l => some ⟨s.hd.getRput alloc mp l,some mp⟩
      | _, _ => none
  | .process alloc => s.hand.map fun mp => ⟨s.hd.processMsg so alloc mp,none⟩
  | .checkMSig alloc => some { s with hd := s.hd.lisCheckMSig alloc }
  | .getq alloc => some { s with hd := s.hd.lisGetq alloc }
  | .bcanput band alloc =>
      some { s with hd := { s.hd with sdRq := (s.hd.sdRq.lisBcanput alloc band).1 } }
  | .flags qFlag sdFlag =>
      some { s with hd := { s.hd with
        sdRq := { s.hd.sdRq with core := { s.hd.sdRq.core with qFlag := qFlag } }, sdFlag := sdFlag } }

/-- The band of a message has a message on the read queue, if it needs one. -/
def Backed (q : ListQueue) (mp : Msg) : Prop :=
  mp.info.inQCount = true ∨ mp.info.size = 0 ∨ bandMsgs Msg.info mp.info.bBand q.msgs ≠ []

/-- The first message of the read queue can leave it: `sd_rput` holds no bytes
of its band, or another one of the band follows. -/
def Leavable (hd : Stdata) (mp : Msg) : Prop :=
  mp.info.inQCount = true ∨ bandMsgs Msg.info mp.info.bBand hd.sdRq.msgs.tail ≠ [] ∨
    ∀ x ∈ hd.sdRput, x.info.inBand mp.info.bBand = true → x.info.size = 0

/-- Every band with bytes on `sd_rput` has a message on the read queue before and
after the step, a message put there finds a band structure, and when a deferred
`M_FLUSH` is served there are no bytes on `sd_rput`. -/
def Guard (s : ReadSide) : ReadAct → Prop
  | .strrput mp _ => s.hd.sdRq.core.qFlag.qprocsoff = true ∨ Backed s.hd.sdRq mp
  | .process alloc => ∀ mp ∈ s.hand,
      (s.hd.sdFlag.strclose || s.hd.sdRq.core.qFlag.shut) = false →
      (queued mp.dbType = true → mp.info.inQCount = false →
        (findQband Msg.info (alloc mp) s.hd.sdRq.core mp.info.bBand).isSome = true) ∧
      (mp.dbType = M_FLUSH → s.hd.sdFlag.strflushwt = false → s.hd.sdRq.core.qFlag.qreading = false →
        flushr (flushByte mp) = true → ∀ x ∈ s.hd.sdRput, x.info.size = 0)
  | .checkMSig _ => ∀ mp ∈ s.hd.sdRq.msgs.head?, s.hd.sdRq.core.qFlag.shut = false →
      mp.dbType = M_SIG → Leavable s.hd mp
  | .getq _ => ∀ mp ∈ s.hd.sdRq.msgs.head?, s.hd.sdRq.core.qFlag.shut = false → Leavable s.hd mp
  | _ => True

instance Backed.decidable (q : ListQueue) (mp : Msg) : Decidable (Backed q mp) :=
  inferInstanceAs (Decidable (_ ∨ _ ∨ _))

instance Leavable.decidable (hd : Stdata) (mp : Msg) : Decidable (Leavable hd mp) :=
  inferInstanceAs (Decidable (_ ∨ _ ∨ _))

instance Guard.decidable (s : ReadSide) : ∀ act, Decidable (Guard s act)
  | .strrput _ _ => inferInstanceAs (Decidable (_ ∨ _))
  | .process _ | .checkMSig _ | .getq _ => by
      unfold Guard
      infer_instance
  | .getRput _ | .bcanput _ _ | .flags _ _ => .isTrue trivial

/- The stream head while the messages `out` are with the service procedure. -/
structure Sound (hd : Stdata) (out : List Msg) : Prop where
  carries : Carries hd.sdRq.core hd.sdRq.msgs hd.sdRput
  addrs : ((hd.sdRq.msgs ++ hd.sdRput ++ out).map Msg.addr).Nodup
  defer : hd.sdRq.defer = []

variable {hd hd' : Stdata} {mp : Msg} {out l : List Msg} {alloc : Msg → Bool} {a : Bool}

theorem Sound.of_eq (h : Sound hd out) (hq : hd'.sdRq = hd.sdRq) (hr : hd'.sdRput = hd.sdRput) :
    Sound hd' out := by
  constructor <;> rw [hq]
  · rw [hr]
    exact h.carries
  · rw [hr]
    exact h.addrs
  · exact h.defer

/- Only flags and marks of the read queue change. -/
theorem Sound.marks {c : Core Msg} (h : Sound hd out) (hc : Carries c hd.sdRq.msgs hd.sdRput) :
    Sound { hd with sdRq := { hd.sdRq with core := c } } out := ⟨hc,h.addrs,h.defer⟩

theorem Sound.drop (h : Sound hd (mp :: out)) : Sound hd out :=
  ⟨h.carries,h.addrs.sublist (((List.sublist_cons_self ..).append_left _).map _),h.defer⟩

theorem Sound.put (h : Sound hd (mp :: out)) (hg : Backed hd.sdRq mp) :
    Sound (hd.lisPutRputQ a mp) out := by
  have hhold := h.carries.hold a true hg
  refine ⟨?_,?_,h.defer⟩
  · show Carries (if hd.sdRput.isEmpty = true then _ else _) _ _
    split_ifs
    · exact hhold.of_eq rfl rfl
    · exact hhold
  · simpa [Stdata.lisPutRputQ] using h.addrs

theorem Sound.get (h : Sound hd out) (hl : hd.sdRput = mp :: l) : Sound (hd.getRput a mp l) (mp :: out) := by
  have hc := h.carries
  rw [hl] at hc
  refine ⟨?_,?_,h.defer⟩
  · show Carries (lisBackenable _ _).1 _ _
    refine (hc.release a).of_eq ?_ ?_ <;>
      simp only [lisBackenable] <;> split_ifs <;> rfl
  · have ha := h.addrs
    rw [hl] at ha
    refine (List.Perm.nodup_iff ?_).mp ha
    simp only [Stdata.getRput,ListQueue.lisBackenable,List.map_append,List.map_cons,List.append_assoc,
      List.cons_append]
    exact (List.perm_middle.symm).append_left _

theorem Sound.freeRput (alloc : Msg → Bool) (h : Sound hd out) (hl : hd.sdRput = l) :
    Sound (hd.freeRput alloc l) out ∧ (hd.freeRput alloc l).sdRput = [] := by
  induction l generalizing hd with
  | nil => exact ⟨h,hl⟩
  | cons mp l ih => exact ih (h.get hl).drop rfl

theorem Sound.putq (h : Sound hd (mp :: out)) (ha : mp.info.inQCount = false →
    (findQband Msg.info (alloc mp) hd.sdRq.core mp.info.bBand).isSome = true) :
    Sound { hd with sdRq := hd.sdRq.lisPutq alloc mp } out := by
  cases hs : hd.sdRq.core.qFlag.shut with
  | true => exact h.drop.of_eq (by simp [ListQueue.lisPutq,hs]) rfl
  | false =>
    obtain ⟨k,m,hkm,hmsgs,hdef,hcore,hrank⟩ := ListQueue.lisPutq_open alloc mp hs
    obtain ⟨hc,hnd,hnone⟩ := h
    obtain ⟨c0,ht,-⟩ := hc.own
    obtain ⟨hk,hm⟩ := hrank ht.ordered
    rw [← (ListQueue.entry_alike (q := hd.sdRq) mp).rank] at hk hm
    rw [← hkm] at hc
    refine ⟨?_,?_,hdef.trans hnone⟩
    · show Carries (hd.sdRq.lisPutq alloc mp).core (hd.sdRq.lisPutq alloc mp).msgs hd.sdRput
      rw [hcore,hmsgs]
      refine hc.linkIn (fun hmem => ?_) hk hm fun hq => ?_
      · rw [hkm] at hmem
        simp only [List.append_assoc,List.map_append,List.map_cons] at hnd
        have hdis := (List.nodup_append.mp hnd).2.2 _ (List.mem_map_of_mem hmem) mp.addr (by simp)
        exact hdis ListQueue.entry_addr
      · rw [(ListQueue.entry_alike mp).inQCount] at hq
        rw [ListQueue.entry_ordinary hq]
        exact ha hq
    · show ((( hd.sdRq.lisPutq alloc mp).msgs ++ hd.sdRput ++ out).map Msg.addr).Nodup
      rw [hmsgs]
      rw [← hkm] at hnd
      simp only [List.map_append,List.map_cons,ListQueue.entry_addr,List.append_assoc,
        List.cons_append] at hnd ⊢
      refine (List.Perm.nodup_iff ?_).mp hnd
      refine List.Perm.append_left _ ?_
      rw [← List.append_assoc,← List.append_assoc]
      exact List.perm_middle

theorem Sound.rmvFirst (alloc : Msg → Bool) (h : Sound hd out)
    (hg : ∀ mp ∈ hd.sdRq.msgs.head?, Leavable hd mp) :
    Sound { hd with sdRq := hd.sdRq.rmvFirst alloc } out := by
  obtain ⟨hc,hnd,hdef⟩ := h
  cases hm : hd.sdRq.msgs with
  | nil =>
    have he : hd.sdRq.rmvFirst alloc = hd.sdRq.rmvNone := by simp [ListQueue.rmvFirst,hm]
    rw [he]
    exact ⟨hc.of_eq rfl rfl,hnd,hdef⟩
  | cons mp m =>
    have he : hd.sdRq.rmvFirst alloc = hd.sdRq.rmvMsg alloc [] mp m := by simp [ListQueue.rmvFirst,hm]
    have hleave := hg mp (by simp [hm])
    rw [he]
    rw [hm] at hc
    refine ⟨hc.linkOut (l := []) fun hq => ?_,?_,hdef⟩
    · simpa [Leavable,hq,hm] using hleave
    · rw [hm] at hnd
      exact hnd.sublist (((List.sublist_cons_self ..).append_right _).map _)

theorem Sound.backenable (h : Sound hd out) (back : List BackQ) :
    Sound { hd with sdRq := (hd.sdRq.lisBackenable hd.back).1, back := back } out := by
  refine ⟨?_,h.addrs,h.defer⟩
  show Carries (lisBackenable _ _).1 _ _
  simp only [lisBackenable]
  split_ifs
  · exact h.carries.of_eq rfl rfl
  · exact h.carries

theorem Sound.getq (h : Sound hd out) (hg : ∀ mp ∈ hd.sdRq.msgs.head?,
    hd.sdRq.core.qFlag.shut = false → Leavable hd mp) : Sound (hd.lisGetq alloc) out := by
  cases hs : hd.sdRq.core.qFlag.shut with
  | true => exact h.of_eq (by simp [Stdata.lisGetq,ListQueue.lisGetq,hs]) rfl
  | false =>
    have hr := (h.rmvFirst alloc fun mp hm => hg mp hm hs).backenable
      ((hd.sdRq.rmvFirst alloc).lisBackenable hd.back).2.1
    refine hr.of_eq ?_ rfl
    simp [Stdata.lisGetq,ListQueue.lisGetq,hs]

/-- A flush of the read queue keeps its counters right if there is nothing on
`sd_rput` that they count. -/
theorem Sound.flush (h : Sound hd out) (hr : ∀ x ∈ hd.sdRput, x.info.size = 0) {band : ℤ}
    {flushAll : Bool} : Sound { hd with
      sdRq := (hd.sdRq.flushWorker alloc band flushAll hd.back).1
      back := (hd.sdRq.flushWorker alloc band flushAll hd.back).2.1 } out := by
  obtain ⟨c0,ht,hover⟩ := h.carries.own
  have hroom : (Flow.bandSet hd.sdRq.msgs).card ≤ hd.sdRq.core.qBandp.length := by
    rw [hover.bands.length_eq]
    exact Flow.bandSet_card_le ht
  have hnd := h.addrs
  simp only [List.map_append,List.append_assoc] at hnd
  obtain ⟨hn1,hn2,hdis⟩ := List.nodup_append.mp hnd
  obtain ⟨htidy,hnew,hdef,haddr⟩ := flushWorker_tidy alloc band flushAll hd.back h.defer hn1 hroom
  refine ⟨.of_tidy htidy hr,?_,hdef⟩
  simp only [List.map_append,List.append_assoc]
  refine List.nodup_append.mpr ⟨hnew,hn2,fun x hx y hy => ?_⟩
  obtain ⟨m,hm,rfl⟩ := List.mem_map.mp hx
  exact hdis _ (haddr m hm) y hy

theorem Sound.flushRead {flushRputq : Bool} (h : Sound hd out)
    (hr : flushRputq = false → ∀ x ∈ hd.sdRput, x.info.size = 0) :
    Sound (hd.flushRead alloc mp flushRputq) out := by
  have hfree : ∃ hd', (if flushRputq then hd.freeRput alloc hd.sdRput else hd) = hd' ∧ Sound hd' out ∧
      ∀ x ∈ hd'.sdRput, x.info.size = 0 := by
    cases flushRputq with
    | true =>
      obtain ⟨hs,hnil⟩ := h.freeRput alloc rfl
      exact ⟨_,rfl,hs,by simp [hnil]⟩
    | false => exact ⟨hd,rfl,h,hr rfl⟩
  obtain ⟨hd',he,hs,hz⟩ := hfree
  simp only [Stdata.flushRead]
  rw [he]
  split_ifs
  · exact (hs.flush hz).of_eq rfl rfl
  · exact (hs.flush hz).of_eq rfl rfl

theorem Sound.lisHeadFlush {flushRputq : Bool} (h : Sound hd out)
    (hr : flushRputq = false → hd.sdFlag.strflushwt = false → hd.sdRq.core.qFlag.qreading = false →
      flushr (flushByte mp) = true → ∀ x ∈ hd.sdRput, x.info.size = 0)
    (hf : hd.lisHeadFlush alloc mp flushRputq = some hd') : Sound hd' out := by
  unfold Stdata.lisHeadFlush at hf
  cases h1 : hd.sdFlag.strflushwt with
  | true =>
    rw [if_pos h1] at hf
    exact Option.some.inj hf ▸ h.of_eq rfl rfl
  | false =>
    cases h2 : hd.sdRq.core.qFlag.qreading with
    | true => simp [h1,h2] at hf
    | false =>
      have hread : Sound (if flushr (flushByte mp) then hd.flushRead alloc mp flushRputq else hd) out := by
        split_ifs with h3
        · exact h.flushRead fun hq => hr hq h1 h2 h3
        · exact h
      simp only [h1,h2,Bool.false_eq_true,if_false,Option.some.injEq] at hf
      cases h4 : flushw (flushByte mp) with
      | true => exact hf ▸ hread.of_eq (by simp [h4,Stdata.flushWrite]) (by simp [h4,Stdata.flushWrite])
      | false => exact hf ▸ by simpa [h4] using hread

theorem Sound.lisStrrput (h : Sound hd (mp :: out))
    (hg : hd.sdRq.core.qFlag.qprocsoff = true ∨ Backed hd.sdRq mp) :
    Sound (hd.lisStrrput alloc mp) out := by
  unfold Stdata.lisStrrput
  split_ifs with h1 h2 h3 h4 h5
  · exact h.drop
  · exact h.drop
  · exact Sound.put (h.of_eq rfl rfl) (hg.resolve_left h1)
  · cases hf : hd.lisHeadFlush alloc mp true with
    | none => exact h.put (hg.resolve_left h1)
    | some hd' => exact h.drop.lisHeadFlush (fun hq => by cases hq) hf
  · exact h.drop
  · exact h.put (hg.resolve_left h1)

/- Another water mark of the queue or of a band. -/
theorem carries_lisStrqset {c : Core Msg} {r : List Msg} (h : Carries c l r) {what : Water}
    {band : Uchar} {val : Ulong} : Carries (lisStrqset a c what band val) l r := by
  unfold lisStrqset
  split_ifs with hb
  · cases hz : findQband Msg.info a c band with
    | none => exact h
    | some z =>
      cases what with
      | hiwat =>
        exact h.touch hb hz { z.qp with qbHiwat := val } (d := 0) rfl rfl (by simp) (by simp)
          (fun _ _ _ => rfl) rfl h.linked rfl rfl
      | lowat =>
        exact h.touch hb hz { z.qp with qbLowat := val } (d := 0) rfl rfl (by simp) (by simp)
          (fun _ _ _ => rfl) rfl h.linked rfl rfl
  · cases what <;> exact h.of_eq rfl rfl

theorem carries_setOptions {c : Core Msg} {r : List Msg} (h : Carries c l r) {so : Stroptions} :
    Carries (setOptions a c so) l r := by
  obtain ⟨band,hi,lo⟩ := so
  cases hi with
  | none =>
    cases lo with
    | none => exact h
    | some l =>
      simp only [setOptions]
      exact carries_lisStrqset h
  | some val =>
    cases lo with
    | none =>
      simp only [setOptions]
      exact carries_lisStrqset h
    | some l =>
      simp only [setOptions]
      exact carries_lisStrqset (carries_lisStrqset h)

theorem Sound.processMsg {so : Msg → Stroptions} (h : Sound hd (mp :: out))
    (hg : (hd.sdFlag.strclose || hd.sdRq.core.qFlag.shut) = false →
      (queued mp.dbType = true → mp.info.inQCount = false →
        (findQband Msg.info (alloc mp) hd.sdRq.core mp.info.bBand).isSome = true) ∧
      (mp.dbType = M_FLUSH → hd.sdFlag.strflushwt = false → hd.sdRq.core.qFlag.qreading = false →
        flushr (flushByte mp) = true → ∀ x ∈ hd.sdRput, x.info.size = 0)) :
    Sound (hd.processMsg so alloc mp) out := by
  unfold Stdata.processMsg
  split_ifs with h1 h2 h3 h4 h5 h6 h7 h8
  · exact h.drop.of_eq rfl rfl
  · exact h.drop
  · exact h.putq ((hg (by simpa using h1)).1 h3)
  · exact h.drop.of_eq rfl rfl
  · exact h.drop.of_eq rfl rfl
  · cases hf : hd.lisHeadFlush alloc mp false with
    | none => exact h.drop
    | some hd' => exact h.drop.lisHeadFlush (fun _ => (hg (by simpa using h1)).2 h6) hf
  · exact h.drop.marks (carries_setOptions h.carries)
  · exact h.drop.of_eq rfl rfl
  · exact h.drop

theorem Sound.lisBcanput (h : Sound hd out) {band : Uchar} :
    Sound { hd with sdRq := (hd.sdRq.lisBcanput a band).1 } out := by
  unfold ListQueue.lisBcanput
  split_ifs with hb hf
  · cases hz : findQband Msg.info a hd.sdRq.core band with
    | none => exact h
    | some z =>
      refine h.marks (h.carries.touch hb hz (if z.qp.qbFull = true then
        { z.qp with qbWantw := true } else z.qp) (d := 0) ?_ ?_ ?_ (by simp) (fun _ _ _ => rfl) rfl
        h.carries.linked rfl rfl) <;> split_ifs <;> simp
  · exact h.marks (h.carries.of_eq rfl rfl)
  · exact h

variable {so : Msg → Stroptions} {s t : ReadSide} {act : ReadAct}

theorem step_sound (h : Sound s.hd s.hand.toList) (hg : Guard s act) (hs : s.step so act = some t) :
    Sound t.hd t.hand.toList := by
  cases act with
  | strrput mp alloc =>
    simp only [step] at hs
    split_ifs at hs with hfresh
    obtain rfl := Option.some.inj hs
    refine Sound.lisStrrput ⟨h.carries,?_,h.defer⟩ hg
    rw [List.map_append,List.map_cons]
    refine List.nodup_middle.mpr (List.nodup_cons.mpr ⟨?_,?_⟩) <;> rw [← List.map_append]
    · exact hfresh
    · exact h.addrs
  | getRput alloc =>
    simp only [step] at hs
    split at hs
    · next mp l hh hl =>
      rw [← Option.some.inj hs]
      rw [hh] at h
      exact h.get hl
    · cases hs
  | process alloc =>
    obtain ⟨mp,hh,rfl⟩ := Option.map_eq_some_iff.mp hs
    rw [hh] at h
    exact h.processMsg (hg mp hh)
  | checkMSig alloc =>
    obtain rfl := Option.some.inj hs
    show Sound (s.hd.lisCheckMSig alloc) s.hand.toList
    unfold Stdata.lisCheckMSig
    split_ifs with hsig
    · refine h.getq fun mp hm hopen => hg mp hm hopen ?_
      rw [Option.mem_def.mp hm] at hsig
      simpa using hsig
    · exact h
  | getq alloc =>
    obtain rfl := Option.some.inj hs
    exact h.getq hg
  | bcanput band alloc =>
    obtain rfl := Option.some.inj hs
    exact h.lisBcanput
  | flags qFlag sdFlag =>
    obtain rfl := Option.some.inj hs
    exact ⟨h.carries.of_eq rfl rfl,h.addrs,h.defer⟩

/- A service run without interruption is a run of these steps. -/
theorem process_steps (so : Msg → Stroptions) (alloc : Msg → Bool) (hd : Stdata) (mp : Msg) :
    ∃ acts, exec (step so) ⟨hd,some mp⟩ acts =
    some ⟨hd.lisProcessRput so alloc mp,none⟩ := by
  unfold Stdata.lisProcessRput
  split_ifs
  · exact ⟨[.process alloc,.checkMSig alloc],rfl⟩
  · exact ⟨[.process alloc],rfl⟩

theorem lisStrrsrv_steps {hd : Stdata} : ∃ acts, exec (step so) ⟨hd,none⟩ acts =
    some ⟨hd.lisStrrsrv so alloc,none⟩ := by
  have hloop : ∀ l hd, hd.sdRput = l → ∃ acts, exec (step so) ⟨hd,none⟩ acts =
      some ⟨Stdata.strrsrvLoop so alloc l hd,none⟩ := by
    intro l
    induction l with
    | nil => exact fun hd _ => ⟨[],rfl⟩
    | cons mp l ih =>
      intro hd hl
      obtain ⟨acts,ha⟩ := process_steps so alloc (hd.getRput (alloc mp) mp l) mp
      obtain ⟨rest,hr⟩ := ih ((hd.getRput (alloc mp) mp l).lisProcessRput so alloc mp)
        Stdata.lisProcessRput_rput
      have hget : step so ⟨hd,none⟩ (.getRput (alloc mp)) = some ⟨hd.getRput (alloc mp) mp l,some mp⟩ := by
        simp only [step,hl]
      refine ⟨.getRput (alloc mp) :: acts ++ rest,?_⟩
      rw [exec_append,exec_cons,hget,Option.bind_some,ha]
      exact hr
  obtain ⟨acts,ha⟩ := hloop hd.sdRput hd rfl
  refine ⟨acts ++ [.flags (hd.lisStrrsrv so alloc).sdRq.core.qFlag (hd.lisStrrsrv so alloc).sdFlag],?_⟩
  rw [exec_append,ha]
  simp only [Option.bind_some,exec_cons,step,exec_nil,Option.some.injEq]
  simp only [Stdata.lisStrrsrv]
  split_ifs <;> rfl

/-- The stream head as opened, with any flags and marks. -/
def Opened (s : ReadSide) : Prop :=
  s.hd.sdRq.core.qCount = 0 ∧ s.hd.sdRq.core.qBandp = [] ∧ s.hd.sdRq.msgs = [] ∧
    s.hd.sdRq.defer = [] ∧ s.hd.sdRput = [] ∧ s.hand = none

/-- In a run whose steps meet the condition the counters of the read queue are
those of its own messages and the messages on `sd_rput`. -/
theorem read_counted {acts : List ReadAct} (ho : Opened s) (hm : Meets (step so) Guard s acts)
    (h : exec (step so) s acts = some t) :
    Exact Msg.info t.hd.sdRq.core.qCount (qMsgs Msg.info (t.hd.sdRq.msgs ++ t.hd.sdRput)) ∧
      ∀ b, b ≠ 0 → ∀ alloc z, findQband Msg.info alloc t.hd.sdRq.core b = some z →
        Exact Msg.info z.qp.qbCount (bandMsgs Msg.info b (t.hd.sdRq.msgs ++ t.hd.sdRput)) := by
  obtain ⟨hc,hb,hmsgs,hd,hr,hh⟩ := ho
  have hstart : Sound s.hd s.hand.toList := by
    refine ⟨?_,by simp [hmsgs,hr,hh],hd⟩
    rw [hmsgs,hr]
    exact .of_tidy (.of_nil hc fun qp hq => by simp [hb] at hq) fun _ hx => by cases hx
  have hs := exec_preserves (I := fun s => Sound s.hd s.hand.toList)
    (fun _ _ _ hI hg hs => step_sound hI hg hs) hstart hm h
  obtain ⟨hq,hband⟩ := hs.carries.shows
  exact ⟨.of_sizes hq,fun b hb alloc z hz => .of_sizes (hband b hb alloc z hz)⟩

def opened : ReadSide :=
  ⟨⟨.empty {} 100 20 true,.empty {} 100 20 true,[],{},⟨0,0,false,false⟩,[],[]⟩,none⟩
def arrival (addr : ℕ) (dbType band : Uchar) (size : ℕ) (data : List Uchar) : Msg :=
  ⟨⟨band,false,⟨dbType,size,data⟩,[]⟩,addr⟩
def noOptions (_ : Msg) : Stroptions := ⟨none,none,none⟩
def found (_ : Msg) : Bool := true

/- An empty message of band 3 is on the read queue when one with bytes arrives. -/
theorem read_counted_run : ∃ t, exec (step noOptions) opened
      [.strrput (arrival 0 M_DATA 0 8 []) found,.strrput (arrival 1 M_DATA 3 0 []) found,
        .getRput true,.process found,.getRput true,.process found,
        .strrput (arrival 2 M_DATA 3 16 []) found,.getRput true,.process found,.getq found] = some t ∧
    Exact Msg.info t.hd.sdRq.core.qCount (qMsgs Msg.info (t.hd.sdRq.msgs ++ t.hd.sdRput)) := by
  obtain ⟨t,ht⟩ := Option.isSome_iff_exists.mp (show (exec (step noOptions) opened
      [.strrput (arrival 0 M_DATA 0 8 []) found,.strrput (arrival 1 M_DATA 3 0 []) found,
        .getRput true,.process found,.getRput true,.process found,
        .strrput (arrival 2 M_DATA 3 16 []) found,.getRput true,.process found,.getq found]).isSome = true by decide +kernel)
  exact ⟨t,ht,(read_counted ⟨rfl,rfl,rfl,rfl,rfl,rfl⟩ (by decide +kernel) ht).1⟩

/- An `M_FLUSH` deferred by a reader clears `q_count` while a message that came
after it is on `sd_rput`; taking that one off wraps the counter. And a message of
band 1 is counted in a structure that `find_qband` resets, because no message of
the band is linked. -/
theorem read_miscounts :
    (∃ t, exec (step noOptions) opened [.flags { qreading := true } {},
        .strrput (arrival 0 M_FLUSH 0 8 [1]) found,.strrput (arrival 1 M_DATA 0 16 []) found,
        .flags {} {},.getRput true,.process found,.getRput true] = some t ∧
      ¬Exact Msg.info t.hd.sdRq.core.qCount (qMsgs Msg.info (t.hd.sdRq.msgs ++ t.hd.sdRput))) ∧
    ∃ t, exec (step noOptions) opened [.strrput (arrival 0 M_DATA 1 8 []) found] = some t ∧
      ¬∀ z, findQband Msg.info true t.hd.sdRq.core 1 = some z →
        Exact Msg.info z.qp.qbCount (bandMsgs Msg.info 1 (t.hd.sdRq.msgs ++ t.hd.sdRput)) := by
  constructor
  · obtain ⟨t,ht,hp⟩ := (Option.any_eq_true _ _).mp (show (exec (step noOptions) opened
        [.flags { qreading := true } {},.strrput (arrival 0 M_FLUSH 0 8 [1]) found,
          .strrput (arrival 1 M_DATA 0 16 []) found,.flags {} {},.getRput true,.process found,
          .getRput true]).any
      (fun t => t.hd.sdRq.core.qCount != qBytes (t.hd.sdRq.msgs ++ t.hd.sdRput)) = true by
        decide +kernel)
    exact ⟨t,ht,fun h => by simp [h.1,qBytes] at hp⟩
  · obtain ⟨t,ht,hp⟩ := (Option.any_eq_true _ _).mp (show (exec (step noOptions) opened
        [.strrput (arrival 0 M_DATA 1 8 []) found]).any
      (fun t => (findQband Msg.info true t.hd.sdRq.core 1).any fun z =>
        z.qp.qbCount != bandBytes 1 (t.hd.sdRq.msgs ++ t.hd.sdRput)) = true by decide +kernel)
    obtain ⟨z,hz,hne⟩ := (Option.any_eq_true _ _).mp hp
    exact ⟨t,ht,fun h => by simp [(h z hz).1,bandBytes] at hne⟩

end ReadSide

end CSLiS.Head
