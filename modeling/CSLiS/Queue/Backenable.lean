import CSLiS.Queue.Wishes
import CSLiS.Lib.Exec

/-!
# Flow control of a queue over runs (head/queue.c)

The queue, the queues behind it, and the bands for which a `lis_bcanput` was
refused because of flow control since `lis_backenable` last enabled a queue
behind. `lis_backenable` forgets the recorded wishes when it searches back, so
the search has to find a queue that it can enable.
-/

namespace CSLiS.Queue
open Lib.Exec

structure Flow where
  q : ListQueue
  back : List BackQ
  wish : List Uchar
  deriving DecidableEq, Repr

inductive FlowOp where
  | bcanput (band : Uchar) (alloc : Bool)
  | putq (mp : Msg) (alloc : Bool)
  | getq (alloc : Bool)
  | rmvq (addr : ℕ) (alloc : Bool)
  | flushq (flushAll : Bool) (alloc : Msg → Bool)
  | flushband (band : Uchar) (flushAll : Bool) (alloc : Msg → Bool)

namespace Flow

/-- After a call that ends with `lis_backenable`. -/
def served (s : Flow) (r : ListQueue × List BackQ × Bool) : Flow :=
  ⟨r.1,r.2.1,if r.2.2 then [] else s.wish⟩

/-- A message that is put is not one that is on the queue. -/
def step (s : Flow) : FlowOp → Option Flow
  | .bcanput band alloc =>
      let r := s.q.lisBcanput alloc band
      some { s with q := r.1, wish := if r.2 = .full then band :: s.wish else s.wish }
  | .putq mp alloc =>
      if mp.addr ∈ s.q.msgs.map Msg.addr then none
      else some { s with q := s.q.lisPutq (fun _ => alloc) mp }
  | .getq alloc => some (s.served (s.q.lisGetq (fun _ => alloc) s.back))
  | .rmvq addr alloc => some (s.served (s.q.lisRmvq (fun _ => alloc) addr s.back))
  | .flushq flushAll alloc => some (s.served (s.q.lisFlushq alloc flushAll s.back))
  | .flushband band flushAll alloc => some (s.served (s.q.lisFlushband alloc band flushAll s.back))

/-- The wish for a band is on record. -/
def Recorded (q : ListQueue) (b : Uchar) : Prop :=
  q.core.qFlag.qwantw = true ∨ Wanted Msg.info q.core.qBandp q.msgs b

/-- The first queue behind with a service procedure that may be enabled comes
before any queue that is closing. -/
def feeder : List BackQ → Bool
  | [] => false
  | q :: qs => if q.qFlag.shut then false else if q.qiSrvp && !q.qFlag.qnoenb then true else feeder qs

/-- The messages that a flush keeps. -/
def kept (band : ℤ) (flushAll : Bool) (l : List Msg) : List Msg :=
  l.filter fun mp => !flushes band flushAll mp.info

/-- The bands with ordinary messages. -/
def bandSet (l : List Msg) : Finset Uchar :=
  ((l.filter fun mp => !mp.info.inQCount).map fun mp => mp.info.bBand).toFinset

/- A flush clears QWANTW and reuses the band structures from the first one on,
one for each band that it keeps messages of. A wish outlasts it if the queue
itself was full and what is kept drains it, or if it is recorded in a band
structure that is not reused. -/
def FlushSafe (s : Flow) (band : ℤ) (flushAll : Bool) : Prop :=
  s.wish = [] ∨
    (s.q.core.qFlag.qwasfull = true ∧
      sizes Msg.info (qMsgs Msg.info (kept band flushAll s.q.msgs)) ≤ s.q.core.qLowat) ∨
    ∃ qp ∈ s.q.core.qBandp.drop (bandSet (kept band flushAll s.q.msgs)).card,
      qp.qbWantw = true ∧ qp.qbWasfull = true

def Guard (s : Flow) : FlowOp → Prop
  | .putq mp alloc => mp.info.inQCount = true ∨ alloc = true ∨
      ∃ qp ∈ s.q.core.qBandp, qp.qbFirst = none ∨ qp.isBand Msg.info mp.info.bBand = true
  | .flushq flushAll _ => s.FlushSafe (-1) flushAll
  | .flushband band flushAll _ => s.FlushSafe band flushAll
  | _ => True

instance FlushSafe.decidable (s : Flow) (band : ℤ) (flushAll : Bool) :
    Decidable (s.FlushSafe band flushAll) := inferInstanceAs (Decidable (_ ∨ _ ∨ _))

instance Guard.decidable (s : Flow) : ∀ o, Decidable (Guard s o)
  | .putq _ _ => inferInstanceAs (Decidable (_ ∨ _ ∨ _))
  | .flushq flushAll _ => inferInstanceAs (Decidable (s.FlushSafe (-1) flushAll))
  | .flushband band flushAll _ => inferInstanceAs (Decidable (s.FlushSafe band flushAll))
  | .bcanput _ _ | .getq _ | .rmvq _ _ => inferInstanceAs (Decidable True)

/-- What the code keeps: the queue is consistent, a full queue or band is marked
as having been full, and `QWANTW` waits for `QBACK` or for the queue to drain. -/
structure Sound (q : ListQueue) : Prop where
  tidy : Tidy Msg.info q.core q.msgs
  addrs : (q.msgs.map Msg.addr).Nodup
  water : q.core.qLowat < q.core.qHiwat
  full : q.core.qFlag.qfull = true → q.core.qFlag.qwasfull = true
  wasfull : q.core.qFlag.qwasfull = true → qMsgs Msg.info q.msgs ≠ []
  sane : ∀ qp ∈ q.core.qBandp, qp.Sane
  closed : q.core.qFlag.shut = true → q.msgs = []

structure Ready (q : ListQueue) (wish : List Uchar) : Prop where
  sound : Sound q
  wantw : q.core.qFlag.qwantw = true → q.core.qFlag.qback = true ∨ q.core.qFlag.qwasfull = true
  quiet : ∀ qp ∈ q.core.qBandp, qp.Quiet
  recorded : ∀ b ∈ wish, Recorded q b
  deferred : q.defer = []

variable {s t : Flow} {q : ListQueue} {wish : List Uchar} {mp : Msg} {alloc : Msg → Bool}

theorem lisPutq_sound (h : Sound q) (hs : q.core.qFlag.shut = false)
    (hmp : mp.addr ∉ q.msgs.map Msg.addr)
    (ha : mp.info.inQCount = false →
      (findQband Msg.info (alloc mp) q.core mp.info.bBand).isSome = true) :
    Sound (q.lisPutq alloc mp) := by
  have hmem : ∀ x ∈ q.msgs, x.addr ≠ mp.addr := fun x hx he => hmp (he ▸ List.mem_map_of_mem hx)
  have htidy := ListQueue.lisPutq_tidy h.tidy hs hmem ha
  obtain ⟨k,m,hkm,hmsgs,-,hcore,-⟩ := ListQueue.lisPutq_open alloc mp hs
  obtain ⟨a,x,w,he,ha'⟩ := updatequeue_eq true Msg.info (alloc (q.entry mp)) false q.core
    (q.entry mp) k.getLast? m.head?
  have hb := countIn_sane (v := Msg.info) (alloc (q.entry mp)) (q.entry mp) h.sane
    (BitVec.le_of_lt h.water) k.getLast? m.head?
  rw [he] at hcore
  refine ⟨htidy,?_,?_,?_,?_,?_,?_⟩
  · rw [hmsgs,List.map_append,List.map_cons,ListQueue.entry_addr]
    refine List.nodup_middle.mpr (List.nodup_cons.mpr ⟨?_,?_⟩) <;> rw [← List.map_append,hkm]
    · exact hmp
    · exact h.addrs
  · rw [hcore]
    exact h.water
  · rw [hcore]
    intro hf
    simp only [Bool.or_eq_true] at hf ⊢
    exact hf.imp_left h.full
  · rw [hcore,hmsgs]
    intro hw hnil
    rw [Bool.or_eq_true] at hw
    rcases hw with hw | hw
    · refine h.wasfull hw (List.eq_nil_iff_forall_not_mem.mpr fun y hy => ?_)
      obtain ⟨hy,hyq⟩ := List.mem_filter.mp hy
      have : y ∈ qMsgs Msg.info (k ++ q.entry mp :: m) := by
        refine List.mem_filter.mpr ⟨?_,hyq⟩
        rw [← hkm] at hy
        simp only [List.mem_append,List.mem_cons] at hy ⊢
        exact hy.imp_right .inr
      simp [hnil] at this
    · have : q.entry mp ∈ qMsgs Msg.info (k ++ q.entry mp :: m) :=
        List.mem_filter.mpr ⟨by simp,ha' hw⟩
      simp [hnil] at this
  · rw [hcore]
    exact hb
  · rw [hcore]
    intro hsh
    rw [show q.core.qFlag.shut = true from hsh] at hs
    cases hs

theorem lisPutq_ready (h : Ready q wish) (hs : q.core.qFlag.shut = false)
    (hmp : mp.addr ∉ q.msgs.map Msg.addr)
    (ha : mp.info.inQCount = false →
      (findQband Msg.info (alloc mp) q.core mp.info.bBand).isSome = true) :
    Ready (q.lisPutq alloc mp) wish := by
  have hsound := lisPutq_sound h.sound hs hmp ha
  obtain ⟨k,m,hkm,hmsgs,hdef,hcore,hrank⟩ := ListQueue.lisPutq_open alloc mp hs
  obtain ⟨hk,hm⟩ := hrank h.sound.tidy.ordered
  rw [← (ListQueue.entry_alike (q := q) mp).rank] at hk hm
  have ha' : (q.entry mp).info.inQCount = false →
      (findQband Msg.info (alloc (q.entry mp)) q.core (q.entry mp).info.bBand).isSome = true := by
    intro hq
    rw [(ListQueue.entry_alike mp).inQCount] at hq
    rw [ListQueue.entry_ordinary hq]
    exact ha hq
  obtain ⟨a,x,w,he,-⟩ := updatequeue_eq true Msg.info (alloc (q.entry mp)) false q.core
    (q.entry mp) k.getLast? m.head?
  have hb := countIn_quiet (v := Msg.info) (alloc (q.entry mp)) (q.entry mp) h.quiet
    k.getLast? m.head?
  rw [he] at hcore
  refine ⟨hsound,?_,?_,fun b hbw => ?_,hdef.trans h.deferred⟩
  · rw [hcore]
    intro hw
    simp only [Bool.or_eq_true]
    exact (h.wantw hw).imp_right .inl
  · rw [hcore]
    exact hb
  · unfold Recorded
    rw [hcore,hmsgs]
    refine (h.recorded b hbw).imp_right fun hw => ?_
    exact countIn_wanted (hkm ▸ h.sound.tidy) hk hm ha' (hkm ▸ hw)

theorem rmvMsg_ready {k m : List Msg} (alloc : Msg → Bool) (h : Ready q wish) (hq : q.msgs = k ++ mp :: m) :
    Ready (q.rmvMsg alloc k mp m) wish := by
  have ht := hq ▸ h.sound.tidy
  have htidy : Tidy Msg.info (q.rmvMsg alloc k mp m).core (k ++ m) := adjustQCount_tidy _ ht
  have hrec : ∀ b ∈ wish, Recorded (q.rmvMsg alloc k mp m) b := fun b hb =>
    adjustQCount_recorded ht (hq ▸ h.recorded b hb)
  have hsane : ∀ qp ∈ (q.rmvMsg alloc k mp m).core.qBandp, qp.Sane := adjustQCount_sane ht h.sound.sane
  have hquiet : ∀ qp ∈ (q.rmvMsg alloc k mp m).core.qBandp, qp.Quiet :=
    adjustQCount_quiet ht h.sound.sane h.quiet
  have haddr : ((q.rmvMsg alloc k mp m).msgs.map Msg.addr).Nodup := by
    refine h.sound.addrs.sublist (List.Sublist.map _ ?_)
    rw [hq]
    exact (List.sublist_cons_self ..).append_left k
  have hclosed : q.core.qFlag.shut = false := by
    cases hs : q.core.qFlag.shut with
    | false => rfl
    | true => simp [h.sound.closed hs] at hq
  cases hin : mp.info.inQCount with
  | true =>
    have hc : (q.rmvMsg alloc k mp m).core = _ := adjustQCount_queue true hin
    have hcnt : q.core.qCount - mp.info.size = sizes Msg.info (qMsgs Msg.info (k ++ m)) := by
      have := htidy.count
      rw [hc] at this
      exact this
    refine ⟨⟨htidy,haddr,?_,?_,?_,hsane,?_⟩,?_,hquiet,hrec,h.deferred⟩ <;> rw [hc]
    · exact h.sound.water
    · simp only [Bool.and_eq_true,Bool.not_eq_true',decide_eq_false_iff_not]
      exact fun ⟨hf,hn⟩ => ⟨h.sound.full hf,fun hle => hn (ulong_lt_of_le_of_lt hle h.sound.water)⟩
    · simp only [Bool.and_eq_true,Bool.not_eq_true',decide_eq_false_iff_not]
      rintro ⟨-,hn⟩ hnil
      rw [hcnt,show qMsgs Msg.info (k ++ m) = [] from hnil] at hn
      exact hn (ulong_zero_le _)
    · intro hs
      rw [show q.core.qFlag.shut = true from hs] at hclosed
      cases hclosed
    · intro hw
      rcases h.wantw hw with hb | hb
      · simp [hb]
      · by_cases hle : q.core.qCount - mp.info.size ≤ q.core.qLowat <;> simp [hb,hle]
  | false =>
    obtain ⟨-,hb0,hr⟩ := Info.inQCount_false hin
    have hne : bandMsgs Msg.info mp.info.bBand (k ++ mp :: m) ≠ [] := by
      simp [bandMsgs_append,bandMsgs_cons_in (v := Msg.info) (Info.inBand_iff.mpr hr)]
    obtain ⟨z,hz,-,-⟩ := findQband_owned (alloc mp) ht.banded hb0 hne
    have hc : (q.rmvMsg alloc k mp m).core = _ :=
      adjustQCount_band true k.getLast? m.head? hin hz
    simp only [chkBand_eq] at hc
    refine ⟨⟨htidy,haddr,?_,?_,?_,hsane,?_⟩,?_,hquiet,hrec,h.deferred⟩ <;> rw [hc]
    · exact h.sound.water
    · exact h.sound.full
    · have := h.sound.wasfull
      rw [hq,qMsgs_middle_out (v := Msg.info) hin] at this
      exact this
    · intro hs
      rw [show q.core.qFlag.shut = true from hs] at hclosed
      cases hclosed
    · simp only [Bool.or_eq_true,Bool.and_eq_true]
      rintro (hw | ⟨hd,-⟩)
      · exact (h.wantw hw).imp_left .inl
      · exact .inl (.inr hd)

/- The search enables the queue that feeds this one, and leaves behind the same
queues as far as a later search can tell. -/
theorem backSearch_feeder (back : List BackQ) : feeder back = true →
    (backSearch back).2 = true ∧ feeder (backSearch back).1 = true := by
  induction back with
  | nil => simp [feeder]
  | cons x xs ih =>
    intro hf
    have hflags : ∀ f : Qflag, (qenableFlags x.qiSrvp f).shut = f.shut ∧
        (qenableFlags x.qiSrvp f).qnoenb = f.qnoenb := by
      intro f
      obtain ⟨a,b,h⟩ := qenableFlags_eq x.qiSrvp f
      rw [h]
      exact ⟨rfl,rfl⟩
    unfold feeder at hf
    split_ifs at hf with h1 h2
    · have hx : ∀ ys, feeder ({ x with qFlag := qenableFlags x.qiSrvp x.qFlag } :: ys) = true := by
        intro ys
        simp [feeder,hflags,h1,h2]
      unfold backSearch
      rw [if_neg h1,if_pos h2]
      dsimp only
      split_ifs <;> exact ⟨rfl,hx _⟩
    · obtain ⟨hs,hf'⟩ := ih hf
      unfold backSearch
      rw [if_neg h1,if_neg h2]
      exact ⟨hs,by simp [feeder,h1,h2,hf']⟩

theorem lisBackenable_feeder {back : List BackQ} (h : feeder back = true) :
    feeder (q.lisBackenable back).2.1 = true := by
  simp only [ListQueue.lisBackenable,lisBackenable]
  split_ifs
  · exact (backSearch_feeder back h).2
  · exact h

/- The wishes that lis_backenable forgets are served by its search. -/
theorem lisBackenable_ready {back : List BackQ} (h : Ready q wish) (hf : feeder back = true) :
    Ready (q.lisBackenable back).1 (if (q.lisBackenable back).2.2 then [] else wish) := by
  cases hw : q.core.wantsBack with
  | false => simpa [ListQueue.lisBackenable,lisBackenable,hw] using h
  | true =>
    simp only [ListQueue.lisBackenable,lisBackenable,hw,if_true,(backSearch_feeder back hf).1]
    refine ⟨⟨h.sound.tidy.of_eq rfl rfl,h.sound.addrs,h.sound.water,h.sound.full,h.sound.wasfull,
      h.sound.sane,h.sound.closed⟩,fun hw => ?_,h.quiet,fun b hb => ?_,h.deferred⟩
    · cases hw
    · cases hb

/- In an empty queue every recorded wish stands in QWANTW together with QBACK, so
that lis_backenable searches. -/
theorem lisBackenable_empty {back : List BackQ} (h : Ready q wish) (hf : feeder back = true)
    (he : q.msgs = []) : (if (q.lisBackenable back).2.2 then [] else wish) = [] := by
  cases hwish : wish with
  | nil => simp
  | cons b bs =>
    have hw : q.core.qFlag.qwantw = true := by
      rcases h.recorded b (hwish ▸ List.mem_cons_self ..) with hw | ⟨qp,-,ho,-⟩
      · exact hw
      · exact absurd (by rw [he]; rfl) ho.2.1
    have hb : q.core.qFlag.qback = true := by
      refine (h.wantw hw).resolve_right fun hwas => h.sound.wasfull hwas ?_
      rw [he]
      rfl
    have hcnt : q.core.qCount = 0#64 := by
      rw [h.sound.tidy.count,he]
      rfl
    have hwant : q.core.wantsBack = true := by
      simp [Core.wantsBack,hw,hb,hcnt,ulong_zero_le]
    simp [ListQueue.lisBackenable,lisBackenable,hwant,(backSearch_feeder back hf).1]

/- Only a band with messages can be full: a structure that was reset is not. -/
theorem findQband_full {a : Bool} {b : Uchar} {z : BandAt Msg} (h : Sound q) (hb : b ≠ 0)
    (hz : findQband Msg.info a q.core b = some z) (hf : z.qp.qbFull = true) :
    z.qp.Owns Msg.info q.msgs b := by
  refine ((findQband_spec h.tidy.banded hb hz).2.cases hb).resolve_right fun hfree => ?_
  rcases findQband_cases hz with ⟨hi,-⟩ | ⟨-,⟨qp,-,-,hr,-⟩ | ⟨rfl,-,-⟩⟩
  · simp [hfree.1.isBand] at hi
  · simp [hr,Core.resetBand] at hf
  · simp [Core.newBand] at hf

theorem lisBcanput_ready {a : Bool} {b : Uchar} (h : Ready q wish) :
    Ready (q.lisBcanput a b).1 (if (q.lisBcanput a b).2 = .full then b :: wish else wish) ∧
      (q.lisBcanput a b).1.msgs = q.msgs ∧
      ((q.lisBcanput a b).2 = .full → q.msgs ≠ []) := by
  by_cases hb : b = 0
  · subst hb
    cases hf : q.core.qFlag.qfull with
    | false => simpa [ListQueue.lisBcanput,hf] using h
    | true =>
      have hwas := h.sound.full hf
      have hne : q.msgs ≠ [] := fun he => h.sound.wasfull hwas (by rw [he]; rfl)
      simp only [ListQueue.lisBcanput,hf,ne_eq,not_true_eq_false,if_false,if_true]
      refine ⟨⟨⟨h.sound.tidy.of_eq rfl rfl,h.sound.addrs,h.sound.water,fun _ => hwas,h.sound.wasfull,
        h.sound.sane,h.sound.closed⟩,fun _ => .inr hwas,h.quiet,fun b _ => .inl rfl,h.deferred⟩,?_⟩
      exact ⟨trivial,fun _ => hne⟩
  · cases hz : findQband Msg.info a q.core b with
    | none => simpa [ListQueue.lisBcanput,hb,hz] using h
    | some z =>
      obtain ⟨hrest,hhold⟩ := findQband_spec h.sound.tidy.banded hb hz
      have hlow := BitVec.le_of_lt h.sound.water
      have hsane := findQband_forall h.sound.sane (fun _ _ => resetBand_sane hlow) (newBand_sane hlow) hz
      have hquiet := findQband_forall h.quiet (fun _ _ _ => rfl) (fun _ => rfl) hz
      have hwant : ∀ b' ∈ wish, q.core.qFlag.qwantw = true ∨
          (b' ≠ b ∧ Wanted Msg.info (z.pre ++ z.post) q.msgs b') ∨
          (b' = b ∧ z.qp.Owns Msg.info q.msgs b ∧ z.qp.qbWantw = true ∧ z.qp.qbWasfull = true) :=
        fun b' hb' => (h.recorded b' hb').imp_right fun hw => hw.find h.sound.tidy.banded hb hz
      simp only [ListQueue.lisBcanput,hb,hz,ne_eq,not_false_eq_true,if_true]
      -- the structure found, with QB_WANTW set if the band is full
      have hready : ∀ qp : Qband Msg, qp.Holds Msg.info q.msgs b → qp.Sane → qp.Quiet →
          (z.qp.qbWantw = true → qp.qbWantw = true) → (z.qp.qbWasfull = true → qp.qbWasfull = true) →
          ∀ w ⊆ wish, Ready { q with core := { q.core with qBandp := z.pre ++ qp :: z.post } } w := by
        intro qp hq hqs hqq hw hwas w hsub
        have hmem : ∀ x ∈ z.pre ++ qp :: z.post, x = qp ∨ x ∈ z.chain := by
          intro x hx
          simp only [BandAt.chain,List.mem_append,List.mem_cons] at hx ⊢
          tauto
        refine ⟨⟨⟨h.sound.tidy.nodup,h.sound.tidy.ordered,h.sound.tidy.count,hrest.fill (hq.cases hb)⟩,
          h.sound.addrs,h.sound.water,h.sound.full,h.sound.wasfull,fun x hx => ?_,h.sound.closed⟩,
          h.wantw,fun x hx => ?_,fun b' hb' => ?_,h.deferred⟩
        · exact (hmem x hx).elim (fun he => he ▸ hqs) (hsane x)
        · exact (hmem x hx).elim (fun he => he ▸ hqq) (hquiet x)
        · rcases hwant b' (hsub hb') with hq' | ⟨-,hw'⟩ | ⟨rfl,ho,h1,h2⟩
          · exact .inl hq'
          · exact .inr hw'.fill
          · exact .inr ⟨qp,by simp,⟨hb,ho.2.1,hq⟩,hw h1,hwas h2⟩
      cases hf : z.qp.qbFull with
      | false =>
        simp only [Bool.false_eq_true,if_false,BandAt.chain]
        refine ⟨?_,trivial,by simp⟩
        have := hready z.qp hhold (hsane z.qp (by simp [BandAt.chain])) (hquiet z.qp (by simp [BandAt.chain]))
          id id wish (List.Subset.refl _)
        simpa using this
      | true =>
        have ho := findQband_full h.sound hb hz hf
        obtain ⟨hs1,hs2,hs3⟩ := hsane z.qp (by simp [BandAt.chain])
        have hr := hready { z.qp with qbFull := true, qbWantw := true } (hhold.of_eq rfl rfl rfl)
          ⟨hs1,fun _ => hs2 hf,fun _ => hs2 hf⟩ (fun hn => absurd ho.first_ne (by simp [show z.qp.qbFirst = none from hn]))
          (fun _ => rfl) id wish (List.Subset.refl _)
        simp only [if_true,BandAt.chain]
        refine ⟨⟨hr.sound,hr.wantw,hr.quiet,fun b' hb' => ?_,hr.deferred⟩,trivial,fun _ he => ?_⟩
        · rcases List.mem_cons.mp hb' with rfl | hb'
          · exact .inr ⟨_,List.mem_append_right _ (List.mem_cons_self ..),
              ⟨hb,ho.2.1,hhold.of_eq rfl rfl rfl⟩,rfl,hs2 hf⟩
          · exact hr.recorded b' hb'
        · exact ho.2.1 (by rw [he]; rfl)

end Flow

end CSLiS.Queue
