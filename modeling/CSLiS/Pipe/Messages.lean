import CSLiS.Head.Drained
import CSLiS.Head.Reassembly
import CSLiS.Lib.Channel
import CSLiS.Pipe.Bytes

/-!
# The messages that go through

Putmsgs and writes on one end and getmsgs on the other, in any order. Among the messages of one band, and among those
of high priority, a message that was sent before another one is taken before it, in as many pieces as the calls make
of it.
-/

namespace CSLiS.Pipe
open Lib.Channel Lib.Exec Queue Head

/- The bytes of the control part, and of the data part. -/
abbrev Content := FreeMonoid Uchar × FreeMonoid Uchar

def parts (m : Mesg) : Content :=
  (FreeMonoid.ofList (blockBytes (m.blocks.filter fun b => b.dbType != M_DATA)),
    FreeMonoid.ofList (blockBytes (m.blocks.filter fun b => b.dbType == M_DATA)))

def Answer.more (a : Answer) : Bool := a.moreCtl || a.moreDat
def Answer.content (a : Answer) : Content := (FreeMonoid.ofList a.ctl,FreeMonoid.ofList a.dat)

/- The rank of the message that a call has answered with. -/
def Answer.rank (a : Answer) : ℕ := if a.flags = MSG_HIPRI then 256 else a.band

variable {m mp mp' : Mesg} {l : List Mesg} {t : Uchar} {ctl dat ctl' dat' : List Mblk} {hd hd' : Rdq} {c : Call}
  {a : Answer}

theorem parts_shape (h : Shape m t ctl dat) (ht : CtlType t) :
    parts m = (FreeMonoid.ofList (blockBytes ctl),FreeMonoid.ofList (blockBytes dat)) := by
  have hne := ht.ne_data
  have hc : (m.blocks.filter fun b => b.dbType != M_DATA) = ctl := by
    rw [h.blocks,List.filter_append,List.filter_eq_self.mpr fun b hb => by simp [h.ctl b hb,hne],
      List.filter_eq_nil_iff.mpr fun b hb => by simp [h.dat b hb],List.append_nil]
  have hd : (m.blocks.filter fun b => b.dbType == M_DATA) = dat := by
    rw [h.blocks,List.filter_append,List.filter_eq_nil_iff.mpr fun b hb => by simp [h.ctl b hb,hne],
      List.filter_eq_self.mpr fun b hb => by simp [h.dat b hb],List.nil_append]
  rw [parts,hc,hd]

/- A message that a getmsg can take. -/
def Sound (m : Mesg) : Prop := ∃ t ctl dat, CtlType t ∧ Shape m t ctl dat

theorem parts_cleared (m : Mesg) : parts m.cleared = parts m := by
  unfold Mesg.cleared
  split_ifs
  · simp only [parts,Mesg.blocks,List.filter_cons]
    split_ifs <;> rfl
  · rfl

theorem Sound.cleared (h : Sound m) : Sound m.cleared := by
  obtain ⟨t,ctl,dat,ht,hs⟩ := h
  obtain ⟨ctl',hs',-,-⟩ := hs.cleared
  exact ⟨t,ctl',dat,ht,hs'⟩

/- A queue may clear the flags of a message. The rest it keeps. -/
theorem same_of_cleared {x : Mesg} (hx : x = m ∨ x = m.cleared) : parts x = parts m ∧ x.info.rank = m.info.rank ∧
    x.isPcproto = m.isPcproto ∧ (Sound m → Sound x) := by
  rcases hx with rfl | rfl
  · exact ⟨rfl,rfl,rfl,id⟩
  · exact ⟨parts_cleared m,cleared_rank,congrArg (· == M_PCPROTO) (dbType_of_types cleared_types),Sound.cleared⟩

theorem Sound.hipri (h : Sound m) : m.info.hipri = m.isPcproto := by
  obtain ⟨t,ctl,dat,ht,hs⟩ := h
  show lisHipri m.dbType = (m.dbType == M_PCPROTO)
  rcases hs.readable ht with hd | hd | hd <;> rw [hd] <;> rfl

theorem Sound.not_sig (h : Sound m) : m.dbType ≠ M_SIG := by
  obtain ⟨t,ctl,dat,ht,hs⟩ := h
  rcases hs.readable ht with hd | hd | hd <;> rw [hd] <;> decide

theorem isPcproto_left (h : mp.Left mp') : mp'.isPcproto = mp.isPcproto := congrArg (· == M_PCPROTO) h.dbType

/-! ### A getmsg -/

/- What is left of the first message stays in front, when no other one is a M_PCPROTO like it. -/
theorem requeue_exact (hd : Rdq) (h : mp.Left mp') (ho : Ordered Mesg.info (mp :: l)) (hl : hd.msgs = l)
    (hone : mp.isPcproto = true → ∀ x ∈ l, x.isPcproto = false) :
    ∃ x, (x = mp' ∨ x = mp'.cleared) ∧ hd.lisRequeue mp' = ⟨x :: l,hd.strpri || mp.isPcproto⟩ := by
  have hrank : ∀ y ∈ l, y.info.rank ≤ mp'.info.rank := fun y hy =>
    (rank_left h).symm ▸ (List.pairwise_cons.mp ho).1 y hy
  refine ⟨if l.isEmpty then mp' else mp'.cleared,ite_eq_or_eq .. ,?_⟩
  have hput : Rdq.lisPutbq l mp' = (if l.isEmpty then mp' else mp'.cleared) :: l := Rdq.lisPutbq_top hrank
  unfold Rdq.lisRequeue
  rw [h.dbType]
  by_cases hp : mp.dbType = M_PCPROTO
  · have hpc : mp.isPcproto = true := beq_iff_eq.mpr hp
    rw [if_pos hp,hpc,Bool.or_true]
    cases l with
    | nil => simp only [hl,hput]
    | cons y k =>
      have hy : y.dbType ≠ M_PCPROTO := fun he => by
        have := hone hpc y (List.mem_cons_self ..)
        rw [Mesg.isPcproto,he] at this
        exact Bool.noConfusion this
      simp only [hl,if_neg hy,hput]
  · have hpc : mp.isPcproto = false := beq_eq_false_iff_ne.mpr hp
    rw [if_neg hp,hpc,Bool.or_false,hl,hput]

/- A call takes nothing, a piece that is not the last one, or the last piece. -/
inductive Outcome (hd : Rdq) (mp : Mesg) (l : List Mesg) (hd' : Rdq) (a : Answer) : Prop
  | refused (herr : a.err ≠ none) (hsame : hd' = hd)
  | piece (herr : a.err = none) (hrank : Answer.rank a = mp.info.rank) (hmore : Answer.more a = true) (x : Mesg)
      (hx : Sound x) (hr : x.info.rank = mp.info.rank) (hp : parts mp = Answer.content a * parts x)
      (hpc : x.isPcproto = mp.isPcproto) (hhd : hd' = ⟨x :: l,hd.strpri || mp.isPcproto⟩)
  | last (herr : a.err = none) (hrank : Answer.rank a = mp.info.rank) (hmore : Answer.more a = false)
      (hp : parts mp = Answer.content a) (hhd : hd' = ⟨l,hd.strpri && !mp.isPcproto⟩)

/- The parts that a call copies. -/
theorem copyout_parts (h : Shape mp t ctl dat) (ht : CtlType t) (hf : ∀ u, c.fault u = false) :
    CopiedPart [] ctl dat (copyoutMsgpart true c.fault c.ctl mp.blocks) ∧ ∀ ctl', List.Forall₂ Trim ctl ctl' →
      CopiedPart ctl' dat [] (copyoutMsgpart false c.fault c.dat (ctl' ++ dat)) := by
  have hne := ht.ne_data
  have hup := h.upright
  rw [h.blocks] at hup ⊢
  constructor
  · refine copyoutMsgpart_ok hf (fun b hb => absurd hb List.not_mem_nil)
      (fun b hb => ⟨?_,hup b (List.mem_append_left _ hb)⟩) h.ctl (fun b hb => ⟨?_,?_⟩) fun hb => Bool.noConfusion hb
    · simp [ofPart,h.ctl b hb,hne]
    · simp [ofPart,h.dat b hb]
    · exact fun he => hne (he.symm.trans (h.dat b hb))
  · intro ctl' htrim
    have hdat : CopiedPart ctl' dat [] (copyoutMsgpart false c.fault c.dat (ctl' ++ (dat ++ []))) := by
      refine copyoutMsgpart_ok hf (fun b hb => ?_) (fun b hb => ⟨?_,hup b (List.mem_append_right _ hb)⟩) h.dat
        (fun b hb => absurd hb List.not_mem_nil) fun _ => rfl
      · simp [ofPart,trim_dbType htrim h.ctl b hb,hne]
      · simp [ofPart,h.dat b hb]
    rwa [List.append_nil] at hdat

/- A part of which nothing is left was copied. -/
theorem copied_all {bs rest : List Mblk} {k : List Mblk} {r : Part} (h : CopiedPart k bs rest r) (hm : r.more = false) :
    r.bytes = blockBytes bs := by
  obtain ⟨bs',-,-,hb⟩ := h.left
  have hle : ¬r.bytes.length < (blockBytes bs).length := fun hlt => by
    rw [h.more.mpr hlt] at hm
    exact Bool.noConfusion hm
  have hnil : blockBytes bs' = [] := List.eq_nil_of_length_eq_zero (by
    have := congrArg List.length hb
    rw [List.length_append] at this
    omega)
  rw [hnil,List.append_nil] at hb
  exact hb

/- The flags and the band that a call gives back tell the rank. -/
theorem rank_flagsBack {flags : ℤ} (h : c.selects mp = .ok flags) :
    (if c.flagsBack flags = MSG_HIPRI then 256 else ((if lisHipri mp.dbType then 0 else mp.blk.bBand : Uchar) : ℕ)) =
      mp.info.rank := by
  cases hh : lisHipri mp.dbType with
  | true =>
    simp only [Call.selects,hh,if_true] at h
    obtain rfl := Except.ok.inj h
    have hback : c.flagsBack MSG_HIPRI = MSG_HIPRI := by simp [Call.flagsBack]
    rw [if_pos hback]
    exact (rank_hipri (i := mp.info) hh).symm
  | false =>
    have hback : c.flagsBack flags ≠ MSG_HIPRI := by
      have hflags : flags = MSG_BAND ∨ flags = 0 := by
        simp only [Call.selects,hh,Bool.false_eq_true,if_false] at h
        split_ifs at h with h1 h2 h3 h4 h5
        · cases hb : c.band with
          | none => simp [hb] at h
          | some band =>
            simp only [hb] at h
            split_ifs at h
            exact Or.inl (Except.ok.inj h).symm
        · exact Or.inl (Except.ok.inj h).symm
        · exact Or.inr (Except.ok.inj h).symm
      rcases hflags with rfl | rfl <;> unfold Call.flagsBack <;> split_ifs <;> simp_all [MSG_BAND,MSG_HIPRI]
    rw [if_neg hback]
    exact (rank_ordinary (i := mp.info) hh).symm

theorem getpmsg_outcome (h : Sound mp) (hsig : ∀ x ∈ l, Sound x) (ho : Ordered Mesg.info (mp :: l))
    (hone : mp.isPcproto = true → ∀ x ∈ l, x.isPcproto = false) (hf : ∀ u, c.fault u = false) (hl : hd.msgs = mp :: l)
    (hg : lisStrgetpmsg hd c = some (hd',a)) : Outcome hd mp l hd' a := by
  have hcheck (g : Rdq) (hs : ∀ x ∈ g.msgs, Sound x) : g.lisCheckMSig = g := by
    cases hm : g.msgs with
    | nil => rw [Rdq.lisCheckMSig,hm]
    | cons x k => exact checkMSig_top hm (hs x (hm ▸ List.mem_cons_self ..)).not_sig
  have hall : ∀ x ∈ mp :: l, Sound x := fun x hx => (List.mem_cons.mp hx).elim (fun he => he ▸ h) (hsig x)
  have hhi := h.hipri
  have hnsig := h.not_sig
  obtain ⟨t,ctl,dat,ht,hs⟩ := h
  have htype := hs.readable ht
  have hfp : mp.dbType ≠ M_PASSFP := by rcases htype with h | h | h <;> rw [h] <;> decide
  have hin : mp.dbType ∈ [M_DATA,M_PROTO,M_PCPROTO,M_SIG] := by rcases htype with h | h | h <;> rw [h] <;> decide
  unfold lisStrgetpmsg at hg
  simp only [hf,Bool.false_eq_true,if_false,hl,hfp,hin,not_true_eq_false,hnsig] at hg
  have hhip : lisHipri mp.dbType = mp.isPcproto := hhi
  cases hsel : c.selects mp with
  | error e =>
    have hlo : mp.isPcproto = false := by
      by_contra hn
      rw [Bool.not_eq_false] at hn
      simp [Call.selects,hhip,hn] at hsel
    simp only [hsel,hhip,hlo,Bool.false_eq_true,if_false] at hg
    obtain ⟨rfl,rfl⟩ := Prod.mk.inj (Option.some.inj hg)
    refine .refused (fun he => by cases he) (hcheck hd ?_)
    rw [hl]
    exact hall
  | ok flags =>
    obtain ⟨hctl,hdat⟩ := copyout_parts (c := c) hs ht hf
    simp only [hsel,hctl.err,Bool.false_eq_true,if_false,or_false,and_false] at hg
    obtain ⟨ctl',hleft,htrim,hbytes⟩ := hctl.left
    have hdat := hdat ctl' htrim
    rw [List.nil_append] at hleft
    rw [hleft] at hg
    obtain ⟨dat',hleft',htrim',hbytes'⟩ := hdat.left
    rw [List.append_nil] at hleft'
    simp only [hdat.err,Bool.false_eq_true,if_false,hleft'] at hg
    have hrank : (if c.flagsBack flags = MSG_HIPRI then 256 else
        ((if lisHipri mp.dbType then 0 else mp.blk.bBand : Uchar) : ℕ)) = mp.info.rank := rank_flagsBack hsel
    have hparts := parts_shape hs ht
    generalize copyoutMsgpart true c.fault c.ctl mp.blocks = kctl at hg hctl hbytes
    generalize copyoutMsgpart false c.fault c.dat (ctl' ++ dat) = kdat at hg hdat hbytes'
    cases hmore : kctl.more || kdat.more with
    | true =>
      simp only [hmore,if_true] at hg
      have htr : List.Forall₂ Trim mp.blocks (ctl' ++ dat') := by
        rw [hs.blocks]
        exact List.rel_append htrim htrim'
      cases hbs : ctl' ++ dat' with
      | nil =>
        rw [hbs] at htr
        cases htr
      | cons b bs =>
        rw [hbs] at htr hg
        have hleft : mp.Left ⟨b,bs⟩ := .of_trim htr
        have hshape : Shape ⟨b,bs⟩ t ctl' dat' :=
          ⟨hbs.symm,trim_dbType htrim hs.ctl,trim_dbType htrim' hs.dat,trim_upright htr⟩
        have hsound : Sound ⟨b,bs⟩ := ⟨t,ctl',dat',ht,hshape⟩
        obtain ⟨x,hx,hreq⟩ := requeue_exact ⟨l,(if mp.isPcproto then (⟨mp :: l,false⟩ : Rdq) else hd).strpri⟩ hleft ho
          rfl hone
        simp only [Rdq.requeueLeft,hhip,hreq] at hg
        obtain ⟨hxp,hxr,hxc,hxs⟩ := same_of_cleared hx
        obtain ⟨rfl,rfl⟩ := Prod.mk.inj (Option.some.inj hg)
        refine .piece rfl (hhip ▸ hrank) hmore x (hxs hsound) (hxr.trans (rank_left hleft)) ?_
          (hxc.trans (isPcproto_left hleft)) ?_
        · rw [hxp,hparts,parts_shape hshape ht,← hbytes,← hbytes']
          rfl
        · rw [hcheck]
          · cases mp.isPcproto <;> simp
          · intro y hy
            rcases List.mem_cons.mp hy with rfl | hy
            · exact hxs hsound
            · exact hsig y hy
    | false =>
      obtain ⟨hc,hd⟩ := Bool.or_eq_false_iff.mp hmore
      simp only [hmore,Bool.false_eq_true,if_false] at hg
      obtain ⟨rfl,rfl⟩ := Prod.mk.inj (Option.some.inj hg)
      refine .last rfl hrank hmore ?_ ?_
      · rw [hparts,Answer.content,copied_all hctl hc,copied_all hdat hd]
      · rw [hcheck _ hsig,hhip]
        cases mp.isPcproto <;> simp

/-! ### A stream head -/

/- The contents of the messages of a rank, in the order in which they will be taken. -/
def ofRank (r : ℕ) (l : List Mesg) : List Content := (l.filter fun m => m.info.rank == r).map parts

structure Orderly (hd : Shead) : Prop where
  sound : ∀ m ∈ hd.queued, Sound m
  ordered : Ordered Mesg.info hd.rd.msgs
  one : hd.queued.countP Mesg.isPcproto ≤ hd.rd.strpri.toNat

variable {r : ℕ} {sh : Shead}

theorem ofRank_append (l l' : List Mesg) : ofRank r (l ++ l') = ofRank r l ++ ofRank r l' := by
  simp only [ofRank,List.filter_append,List.map_append]

/- A message is put behind all those of its rank. -/
theorem tailSplit_strict {P : Type} {v : P → Info} {l : List P} {i : Info} (ho : Ordered v l) :
    ∀ x ∈ (tailSplit v l i).2, (v x).rank < i.rank := by
  unfold tailSplit
  split
  · exact fun x hx => absurd hx List.not_mem_nil
  · split_ifs with h1 h2 h3
    · exact fun x hx => absurd hx List.not_mem_nil
    · exact fun x hx => absurd hx List.not_mem_nil
    · intro x hx
      rw [rank_hipri h3,rank_ordinary (ordered_hipri ho x hx)]
      exact (v x).bBand.isLt
    · intro x hx
      have hi : i.hipri = false := by simpa using h3
      obtain ⟨-,hm⟩ := skipBands_spec (t := fun b => i.bBand ≤ b) ho
        fun a b hab hb => by simpa using le_trans (by simpa using hb) hab
      obtain ⟨hxo,hxb⟩ := hm x hx
      rw [rank_ordinary hi,rank_ordinary hxo]
      simpa using hxb

theorem putq_spec (ho : Ordered Mesg.info l) (m : Mesg) : Ordered Mesg.info (lisPutq l m) ∧
    ofRank r (lisPutq l m) = ofRank r (l ++ [m]) ∧
    (lisPutq l m).countP Mesg.isPcproto = (l ++ [m]).countP Mesg.isPcproto ∧
    ∀ x ∈ lisPutq l m, x ∈ l ∨ x = m ∨ x = m.cleared := by
  have happ := tailSplit_append (v := Mesg.info) (l := l) (i := m.info)
  have hstrict := tailSplit_strict (i := m.info) ho
  obtain ⟨-,-,-,-,-,-,hord⟩ := lisPutq_spec l m
  have hput : lisPutq l m = (tailSplit Mesg.info l m.info).1 ++ (if l.isEmpty then m else m.cleared) ::
      (tailSplit Mesg.info l m.info).2 := rfl
  generalize (tailSplit Mesg.info l m.info).1 = k at *
  generalize (tailSplit Mesg.info l m.info).2 = k' at *
  generalize he : (if l.isEmpty then m else m.cleared) = x at hput
  have hx : x = m ∨ x = m.cleared := he ▸ ite_eq_or_eq ..
  obtain ⟨hparts,hrank,hpc,-⟩ := same_of_cleared hx
  refine ⟨hord ho,?_,?_,fun y hy => ?_⟩
  · rw [hput,← happ]
    simp only [ofRank,List.filter_append,List.filter_cons,hrank,List.map_append,List.filter_nil]
    split_ifs with hr
    · have hnil : (k'.filter fun m => m.info.rank == r) = [] := by
        refine List.filter_eq_nil_iff.mpr fun y hy hyr => ?_
        have := hstrict y hy
        rw [beq_iff_eq.mp hyr,beq_iff_eq.mp hr] at this
        exact Nat.lt_irrefl _ this
      simp [hnil,hparts]
    · simp
  · rw [hput,← happ]
    simp only [List.countP_append,List.countP_cons,hpc,List.countP_nil]
    omega
  · rw [hput] at hy
    rw [← happ]
    rcases List.mem_append.mp hy with hy | hy
    · exact Or.inl (List.mem_append_left _ hy)
    · rcases List.mem_cons.mp hy with rfl | hy
      · exact Or.inr hx
      · exact Or.inl (List.mem_append_right _ hy)

/- What `lis_strrput` does with a message that a getmsg can take. -/
theorem strrput_sound (h : Sound m) (sh : Shead) : sh.lisStrrput m =
    if takes sh m then { sh with rd := { sh.rd with strpri := sh.rd.strpri || m.isPcproto }, rput := sh.rput ++ [m] }
    else sh := by
  obtain ⟨t,ctl,dat,ht,hs⟩ := h
  by_cases hp : m.dbType = M_PCPROTO
  · have hpc : m.isPcproto = true := beq_iff_eq.mpr hp
    rw [Shead.lisStrrput,if_pos hp,takes,hpc,Bool.true_and,Bool.or_true]
    cases sh.rd.strpri <;> rfl
  · have hpc : m.isPcproto = false := beq_eq_false_iff_ne.mpr hp
    have hft : m.dbType ≠ M_FLUSH ∧ answersIoctl m.dbType = false := by
      rcases hs.readable ht with hd | hd | hd <;> rw [hd] <;> decide
    rw [Shead.lisStrrput,if_neg hp,if_neg hft.1,hft.2,takes,hpc,Bool.false_and,Bool.or_false]
    rfl

theorem Orderly.put (h : Orderly sh) (hm : Sound m) (ht : takes sh m = true) : Orderly (sh.lisStrrput m) ∧
    (sh.lisStrrput m).queued = sh.queued ++ [m] := by
  have hput := strrput_sound hm sh
  rw [if_pos ht] at hput
  have hq : (sh.lisStrrput m).queued = sh.queued ++ [m] := by
    rw [hput]
    exact (List.append_assoc ..).symm
  refine ⟨⟨fun x hx => ?_,?_,?_⟩,hq⟩
  · rw [hq] at hx
    rcases List.mem_append.mp hx with hx | hx
    · exact h.sound x hx
    · exact List.mem_singleton.mp hx ▸ hm
  · rw [hput]
    exact h.ordered
  · have hone := h.one
    rw [hq,hput,List.countP_append]
    simp only [List.countP_cons,List.countP_nil]
    cases hpc : m.isPcproto with
    | false => simpa using hone
    | true =>
      rw [takes,hpc,Bool.true_and,Bool.not_eq_true'] at ht
      simp only [ht,Bool.toNat_false,Nat.le_zero] at hone
      simp [hone,ht]

theorem Orderly.rsrv (h : Orderly sh) (so : Mesg → StroptionsT) : Orderly (sh.rsrvRound so) ∧
    ∀ r, ofRank r (sh.rsrvRound so).queued = ofRank r sh.queued := by
  cases hl : sh.rput with
  | nil =>
    have hsame : sh.rsrvRound so = sh := by rw [Shead.rsrvRound,hl]
    rw [hsame]
    exact ⟨h,fun _ => rfl⟩
  | cons m l =>
    have hq : sh.queued = sh.rd.msgs ++ m :: l := by rw [Shead.queued,hl]
    have hm : Sound m := h.sound m (by rw [hq]; exact List.mem_append_right _ (List.mem_cons_self ..))
    have hround : sh.rsrvRound so = { sh with rput := l }.putq m := by
      obtain ⟨t,ctl,dat,ht,hs⟩ := hm
      rw [Shead.rsrvRound,hl]
      refine if_pos ?_
      rcases hs.readable ht with hd | hd | hd <;> simp [hd]
    have hq' : (sh.rsrvRound so).queued = lisPutq sh.rd.msgs m ++ l := by
      rw [hround]
      rfl
    refine ⟨⟨fun x hx => ?_,?_,?_⟩,fun r => ?_⟩
    · rw [hq'] at hx
      rcases List.mem_append.mp hx with hx | hx
      · rcases (putq_spec (r := 0) h.ordered m).2.2.2 x hx with hx | hx
        · exact h.sound x (by rw [hq]; exact List.mem_append_left _ hx)
        · exact (same_of_cleared hx).2.2.2 hm
      · exact h.sound x (by rw [hq]; exact List.mem_append_right _ (List.mem_cons_of_mem _ hx))
    · rw [hround]
      exact (putq_spec (r := 0) h.ordered m).1
    · have hone := h.one
      have hpri : (sh.rsrvRound so).rd.strpri = sh.rd.strpri := by rw [hround]; rfl
      rw [hq,List.countP_append,List.countP_cons] at hone
      rw [hq',hpri,List.countP_append,(putq_spec (r := 0) h.ordered m).2.2.1,List.countP_append,List.countP_singleton]
      omega
    · rw [hq',hq,ofRank_append,(putq_spec h.ordered m).2.1,← ofRank_append,List.append_assoc]
      rfl

/-! ### The ends -/

variable {ι : Type} [DecidableEq ι] {peer : ι → ι} {p q : Ends ι} {i j : ι} {n : ℕ}

/- The messages of a rank that were sent, and the pieces of such messages that getmsgs have returned. -/
def sentOf (r : ℕ) (l : List (Option ℕ × Mesg)) : List Content := ofRank r (l.map Prod.snd)

def pieces (r : ℕ) (as : List Answer) : List (Content × Bool) :=
  as.filterMap fun a => if a.err = none ∧ Answer.rank a = r then some (Answer.content a,!Answer.more a) else none

/- For every rank the pieces, put together, and what is left are the messages that were sent, in this order. -/
def Exchanged (peer : ι → ι) (p : Ends ι) : Prop :=
  ∀ i r, Conserves (sentOf r (p.sent i)) (pieces r (p.answers (peer i))) (ofRank r (p.hd (peer i)).queued)

structure Talks (peer : ι → ι) (p : Ends ι) : Prop where
  orderly : ∀ j, Orderly (p.hd j)
  exchanged : Exchanged peer p

theorem Talks.put (hpeer : Function.Injective peer) (h : Talks peer p) (hm : Sound m) (i : ι) (tag : Option ℕ) :
    Talks peer (p.lisPutnext peer i tag m) := by
  cases ht : takes (p.hd (peer i)) m with
  | false =>
    have hsame : p.lisPutnext peer i tag m = p := by
      rw [Ends.lisPutnext,strrput_sound hm,ht]
      simp only [Bool.false_eq_true,if_false,Ends.setHd,Function.update_eq_self]
    rwa [hsame]
  | true =>
    obtain ⟨hord,hq⟩ := (h.orderly (peer i)).put hm ht
    rw [Ends.lisPutnext,if_pos ht]
    refine ⟨forall_update hord h.orderly,fun k r => ?_⟩
    have hk := h.exchanged k r
    by_cases hki : k = i
    · subst hki
      simp only [Ends.setHd,Function.update_self,hq,sentOf,List.map_append,List.map_cons,List.map_nil,ofRank_append]
        at hk ⊢
      by_cases hr : m.info.rank = r
      · have hof : ofRank r [m] = [parts m] := by simp [ofRank,hr]
        rw [hof]
        exact hk.send _
      · have hof : ofRank r [m] = [] := by simp [ofRank,hr]
        rw [hof,List.append_nil,List.append_nil]
        exact hk
    · simp only [Ends.setHd,Function.update_of_ne hki,Function.update_of_ne (hpeer.ne hki)]
      exact hk

theorem Talks.putAll {ms : List Mesg} (hpeer : Function.Injective peer) (h : Talks peer p) (hm : ∀ m ∈ ms, Sound m)
    (i : ι) (tag : Option ℕ) : Talks peer (p.putAll peer i tag ms) := by
  induction ms generalizing p with
  | nil => exact h
  | cons m ms ih =>
    exact ih (h.put hpeer (hm m (List.mem_cons_self ..)) i tag) fun x hx => hm x (List.mem_cons_of_mem _ hx)

theorem sound_blocks {b : Mblk} {bs : List Mblk} (hb : b.dbType = M_DATA ∨ CtlType b.dbType) (hup : b.bRptr ≤ b.bWptr)
    (hbs : ∀ x ∈ bs, x.dbType = M_DATA ∧ x.bRptr ≤ x.bWptr) : Sound ⟨b,bs⟩ := by
  have hups : ∀ x ∈ b :: bs, x.bRptr ≤ x.bWptr := fun x hx =>
    (List.mem_cons.mp hx).elim (fun he => he ▸ hup) fun hx => (hbs x hx).2
  rcases hb with hb | hb
  · refine ⟨M_PROTO,[],b :: bs,Or.inl rfl,rfl,fun x hx => absurd hx List.not_mem_nil,fun x hx => ?_,hups⟩
    exact (List.mem_cons.mp hx).elim (fun he => he ▸ hb) fun hx => (hbs x hx).1
  · exact ⟨b.dbType,[b],bs,hb,rfl,fun x hx => congrArg _ (List.mem_singleton.mp hx),fun x hx => (hbs x hx).1,hups⟩

theorem sentBlk_upright (type band : Uchar) (wroff : ℕ) (bytes : List Uchar) :
    (sentBlk type band wroff bytes).bRptr ≤ (sentBlk type band wroff bytes).bWptr := Nat.le_add_right _ _

theorem sound_write (wroff : BitVec 16) (bytes : List Uchar) : Sound (writeMesg wroff bytes) :=
  sound_blocks (Or.inl rfl) (sentBlk_upright ..) fun _ hx => absurd hx List.not_mem_nil

theorem prepare_btype {c : Write.Putreq} {x y : Write.Smsg} (h : c.prepare x = some y) :
    y.btype = x.btype ∨ (x.btype = M_PROTO ∧ y.btype = M_PCPROTO) := by
  unfold Write.Putreq.prepare at h
  split_ifs at h with h1 h2 h3 h4
  · obtain rfl := Option.some.inj h
    exact Or.inr ⟨h2,rfl⟩
  · obtain rfl := Option.some.inj h
    exact Or.inl rfl
  · obtain rfl := Option.some.inj h
    exact Or.inl rfl

theorem sound_message {c : Putcall} (h : c.message = some m) : Sound m := by
  obtain ⟨⟨b,bs⟩,hfirst,h⟩ := Option.bind_eq_some_iff.mp h
  obtain ⟨hdr,hprep,rfl⟩ := Option.map_eq_some_iff.mp h
  have hdat : ∀ x ∈ (if c.copied c.req.dat then [sentBlk M_DATA 0 c.wroff.toNat c.dat] else []),
      x.dbType = M_DATA ∧ x.bRptr ≤ x.bWptr := by
    intro x hx
    split_ifs at hx
    · obtain rfl := List.mem_singleton.mp hx
      exact ⟨rfl,sentBlk_upright ..⟩
    · cases hx
  have hcases : (b.dbType = M_PROTO ∨ b.dbType = M_DATA) ∧ b.bRptr ≤ b.bWptr ∧
      ∀ x ∈ bs, x.dbType = M_DATA ∧ x.bRptr ≤ x.bWptr := by
    generalize hdl : (if c.copied c.req.dat then [sentBlk M_DATA 0 c.wroff.toNat c.dat] else []) = dl at hdat
    have hfirst : (if c.copied c.req.ctl then some (sentBlk M_PROTO 0 0 c.ctl,dl) else dl.head?.map fun b => (b,[])) =
        some (b,bs) := hdl ▸ hfirst
    split_ifs at hfirst
    · obtain ⟨rfl,rfl⟩ := Prod.mk.inj (Option.some.inj hfirst)
      exact ⟨Or.inl rfl,sentBlk_upright ..,hdat⟩
    · obtain ⟨x,hx,hxb⟩ := Option.map_eq_some_iff.mp hfirst
      obtain ⟨rfl,rfl⟩ := Prod.mk.inj hxb
      obtain ⟨h1,h2⟩ := hdat x (List.mem_of_mem_head? hx)
      exact ⟨Or.inr h1,h2,fun _ hy => absurd hy List.not_mem_nil⟩
  obtain ⟨htype,hup,hbs⟩ := hcases
  refine sound_blocks ?_ hup hbs
  rcases prepare_btype hprep with he | ⟨-,he⟩
  · rcases htype with hb | hb
    · exact Or.inr (Or.inl (he.trans hb))
    · exact Or.inl (he.trans hb)
  · exact Or.inr (Or.inr he)

theorem pieces_append (r : ℕ) (as : List Answer) (a : Answer) : pieces r (as ++ [a]) =
    pieces r as ++ if a.err = none ∧ Answer.rank a = r then [(Answer.content a,!Answer.more a)] else [] := by
  rw [pieces,List.filterMap_append,pieces]
  refine congrArg _ ?_
  by_cases hc : a.err = none ∧ Answer.rank a = r
  · rw [List.filterMap_cons,if_pos hc,if_pos hc]
    rfl
  · rw [List.filterMap_cons,if_neg hc,if_neg hc]
    rfl

theorem ofRank_cons (m : Mesg) (l : List Mesg) :
    ofRank r (m :: l) = (if m.info.rank = r then [parts m] else []) ++ ofRank r l := by
  unfold ofRank
  by_cases hr : m.info.rank = r
  · simp [hr]
  · simp [hr]

/- An answer is a piece of the first message, of which `new` is left. -/
theorem conserves_answer {sent : List Content} {as : List Answer} {rest : List Mesg} (new : List Content)
    (hrank : Answer.rank a = mp.info.rank) (herr : a.err = none)
    (hstep : Conserves sent (pieces r as) (parts mp :: ofRank r rest) →
      Conserves sent (pieces r as ++ [(Answer.content a,!Answer.more a)]) (new ++ ofRank r rest))
    (hc : Conserves sent (pieces r as) (ofRank r (mp :: rest))) :
    Conserves sent (pieces r (as ++ [a])) ((if mp.info.rank = r then new else []) ++ ofRank r rest) := by
  rw [ofRank_cons] at hc
  rw [pieces_append,hrank]
  by_cases hr : mp.info.rank = r
  · rw [if_pos hr] at hc ⊢
    rw [if_pos ⟨herr,hr⟩]
    exact hstep hc
  · rw [if_neg hr] at hc ⊢
    rw [if_neg fun h => hr h.2,List.append_nil]
    exact hc

/- A getmsg on an end. -/
theorem Orderly.getmsg {c : Call} {rd : Rdq} {a : Answer} {sent : ℕ → List Content} {as : List Answer} (h : Orderly sh)
    (hf : ∀ u, c.fault u = false) (hg : lisStrgetpmsg sh.rd c = some (rd,a))
    (hc : ∀ r, Conserves (sent r) (pieces r as) (ofRank r sh.queued)) :
    Orderly { sh with rd := rd } ∧
      ∀ r, Conserves (sent r) (pieces r (as ++ [a])) (ofRank r ({ sh with rd := rd } : Shead).queued) := by
  cases hl : sh.rd.msgs with
  | nil =>
    simp [lisStrgetpmsg,hf,hl] at hg
  | cons mp l =>
    have hq : sh.queued = mp :: (l ++ sh.rput) := by rw [Shead.queued,hl]; rfl
    have hsound := h.sound
    have hone := h.one
    rw [hq] at hsound hone
    rw [hq] at hc
    have hord := h.ordered
    rw [hl] at hord
    have hrest : (l ++ sh.rput).countP Mesg.isPcproto ≤ (sh.rd.strpri && !mp.isPcproto).toNat := by
      rw [List.countP_cons] at hone
      have := Bool.toNat_le sh.rd.strpri
      cases hp : mp.isPcproto with
      | false => simpa [hp] using hone
      | true =>
        simp only [hp,if_true,Bool.not_true,Bool.and_false,Bool.toNat_false] at hone ⊢
        omega
    have halone : mp.isPcproto = true → ∀ x ∈ l ++ sh.rput, x.isPcproto = false := by
      intro hp x hx
      rw [hp,Bool.not_true,Bool.and_false] at hrest
      simpa using List.countP_eq_zero.mp (Nat.le_zero.mp hrest) x hx
    have hout := getpmsg_outcome (hsound mp (List.mem_cons_self ..))
      (fun x hx => hsound x (List.mem_cons_of_mem _ (List.mem_append_left _ hx))) hord
      (fun hp x hx => halone hp x (List.mem_append_left _ hx)) hf hl hg
    cases hout with
    | refused herr hsame =>
      subst hsame
      refine ⟨h,fun r => ?_⟩
      rw [pieces_append,if_neg fun hr => herr hr.1,List.append_nil,hq]
      exact hc r
    | piece herr hrank hmore x hx hr hp hpc hhd =>
      subst hhd
      refine ⟨⟨fun y hy => ?_,?_,?_⟩,fun r => ?_⟩
      · rcases List.mem_cons.mp hy with rfl | hy
        · exact hx
        · exact hsound y (List.mem_cons_of_mem _ hy)
      · obtain ⟨hge,hpair⟩ := List.pairwise_cons.mp hord
        exact List.pairwise_cons.mpr ⟨fun y hy => hr ▸ hge y hy,hpair⟩
      · show (x :: (l ++ sh.rput)).countP _ ≤ _
        rw [List.countP_cons,hpc]
        rw [List.countP_cons] at hone
        cases hp : mp.isPcproto <;> simp [hp] at hone hrest ⊢
        · exact hone
        · omega
      · show Conserves _ _ (ofRank r (x :: (l ++ sh.rput)))
        rw [ofRank_cons,hr]
        refine conserves_answer [parts x] hrank herr (fun hcons => ?_) (hc r)
        rw [hp] at hcons
        rw [hmore]
        exact hcons.piece
    | last herr hrank hmore hp hhd =>
      subst hhd
      refine ⟨⟨fun y hy => hsound y (List.mem_cons_of_mem _ hy),(List.pairwise_cons.mp hord).2,hrest⟩,fun r => ?_⟩
      have hlast := conserves_answer [] hrank herr (fun hcons => ?_) (hc r)
      · rw [ite_self,List.nil_append] at hlast
        exact hlast
      · rw [hp] at hcons
        rw [hmore]
        exact hcons.last

/- No read, and no copy of a getmsg to the user that fails. -/
def Talking : Act ι → Prop
  | .write _ _ | .pass _ _ | .putmsg _ _ | .rsrv _ _ => True
  | .read _ _ _ _ => False
  | .getmsg _ c => ∀ u, c.fault u = false

theorem Talks.step {act : Act ι} (hinv : Function.Involutive peer) (h : Talks peer p) (hc : Talking act)
    (hq : p.step peer act = some q) : Talks peer q := by
  cases act with
  | write i c =>
    obtain rfl := Option.some.inj hq
    exact ⟨h.orderly,h.exchanged⟩
  | pass n a =>
    obtain ⟨w,-,hq⟩ := Option.bind_eq_some_iff.mp hq
    split_ifs at hq
    obtain ⟨next,-,rfl⟩ := Option.map_eq_some_iff.mp hq
    have hset : Talks peer { p with
        calls := p.calls.set n { w with loc := locOf next, ret := retOf w.req next }
        wmsg := Function.update p.wmsg w.side (locOf next).wmsg } := ⟨h.orderly,h.exchanged⟩
    refine hset.putAll hinv.injective (fun m hm => ?_) _ _
    obtain ⟨d,-,rfl⟩ := List.mem_map.mp hm
    exact sound_write _ d
  | putmsg i c =>
    obtain ⟨⟨err,msg⟩,hput,rfl⟩ := Option.map_eq_some_iff.mp hq
    cases msg with
    | none => exact h
    | some m =>
      obtain ⟨r,-,hr⟩ := Option.map_eq_some_iff.mp hput
      have hm : (if r.2.passed = [] then none else c.message) = some m := (Prod.mk.inj hr).2
      split_ifs at hm
      exact h.put hinv.injective (sound_message hm) i none
  | rsrv i so =>
    obtain rfl := Option.some.inj hq
    obtain ⟨hord,hof⟩ := (h.orderly i).rsrv so
    refine ⟨forall_update hord h.orderly,fun k r => ?_⟩
    have hk := h.exchanged k r
    by_cases hki : peer k = i
    · subst hki
      simp only [Ends.setHd,Function.update_self,hof]
      exact hk
    · simp only [Ends.setHd,Function.update_of_ne hki]
      exact hk
  | read i opt fault ulen => exact hc.elim
  | getmsg i c =>
    obtain ⟨⟨rd,a⟩,hg,rfl⟩ := Option.map_eq_some_iff.mp hq
    obtain ⟨k,rfl⟩ := hinv.surjective i
    obtain ⟨hord,hcons⟩ := (h.orderly (peer k)).getmsg hc hg (h.exchanged k)
    refine ⟨forall_update hord h.orderly,fun k' r => ?_⟩
    by_cases hk : k' = k
    · subst hk
      simp only [Ends.setHd,Function.update_self]
      exact hcons r
    · simp only [Ends.setHd,Function.update_of_ne (hinv.injective.ne hk)]
      exact h.exchanged k' r

end CSLiS.Pipe
