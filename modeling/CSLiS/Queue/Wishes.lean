import CSLiS.Queue.ListQueue
import CSLiS.Queue.Marks

/-!
# Wishes to write (head/queue.c)

A `lis_bcanput` that finds a queue or a band full leaves a wish: `QWANTW` in
the queue, or `QB_WANTW` with `QB_WASFULL` in the structure that serves the
band. Here is what keeps a wish recorded while messages come and go.
-/

namespace CSLiS.Queue
open Lib.Split

section Bands
variable {P : Type} {v : P → Info} {alloc : Bool} {c : Core P} {l m : List P} {b b' : Uchar}
  {mp : P} {qp : Qband P} {z : BandAt P} {qps : List (Qband P)}

/-- Full or wanted bands were full, and the marks of the band are in order. -/
def Qband.Sane (qp : Qband P) : Prop :=
  qp.qbLowat ≤ qp.qbHiwat ∧ (qp.qbFull = true → qp.qbWasfull = true) ∧
    (qp.qbWantw = true → qp.qbWasfull = true)

/-- A wish for the band is recorded in the structure that serves it. -/
def Wanted (v : P → Info) (qps : List (Qband P)) (l : List P) (b : Uchar) : Prop :=
  ∃ qp ∈ qps, qp.Owns v l b ∧ qp.qbWantw = true ∧ qp.qbWasfull = true

theorem Qband.Sane.countIn (h : qp.Sane) (size : Ulong) : (qp.countIn size).Sane := by
  obtain ⟨h1,h2,h3⟩ := h
  refine ⟨h1,fun hf => ?_,fun hw => ?_⟩
  · simp only [Qband.countIn,Bool.or_eq_true] at hf ⊢
    exact hf.imp_left h2
  · simp only [Qband.countIn,Bool.or_eq_true] at hw ⊢
    exact .inl (h3 hw)

/- A band that has drained is not full any more: its low-water mark is not
above its high-water mark. -/
theorem Qband.Sane.chkBand (h : qp.Sane) (f : Qflag) : (chkBand f qp).2.Sane := by
  obtain ⟨h1,h2,h3⟩ := h
  rw [chkBand_eq]
  refine ⟨h1,?_,?_⟩
  · simp only [Bool.and_eq_true,Bool.not_eq_true',decide_eq_false_iff_not,Qband.drained,
      Bool.and_eq_false_iff]
    rintro ⟨hf,hn⟩
    exact ⟨h2 hf,.inr fun hl => hn (BitVec.le_trans hl h1)⟩
  · simp only [Bool.and_eq_true]
    rintro ⟨hw,hd⟩
    exact ⟨h3 hw,hd⟩

theorem resetBand_sane (h : c.qLowat ≤ c.qHiwat) : (c.resetBand qp).Sane :=
  ⟨h,fun hf => hf,fun hw => absurd hw (by simp [Core.resetBand])⟩
theorem newBand_sane (h : c.qLowat ≤ c.qHiwat) : c.newBand.Sane :=
  ⟨h,fun hf => hf,fun hw => absurd hw (by simp [Core.newBand])⟩

/- What holds of all structures, and of a reset and a new one, holds of all of
them after find_qband. -/
theorem findQband_forall {S : Qband P → Prop} (hS : ∀ qp ∈ c.qBandp, S qp)
    (hr : ∀ qp, qp.qbFirst = none → S (c.resetBand qp)) (hn : S c.newBand)
    (hz : findQband v alloc c b = some z) : ∀ qp ∈ z.chain, S qp := by
  rcases findQband_cases hz with ⟨-,he⟩ | ⟨-,⟨qp,hf,he,hq,-⟩ | ⟨rfl,-,-⟩⟩
  · exact he ▸ hS
  · intro x hx
    rw [he] at hS
    simp only [BandAt.chain,List.mem_append,List.mem_cons] at hx hS
    rcases hx with hx | rfl | hx
    · exact hS x (.inl hx)
    · exact hq ▸ hr qp hf
    · exact hS x (.inr (.inr hx))
  · intro x hx
    rcases List.mem_cons.mp hx with rfl | hx
    · exact hn
    · exact hS x hx

/- Looking a band up loses no wish: the structure found keeps its own, and only
an unused one is reset. -/
theorem Wanted.find (h : Banded v (fun _ => True) c.qBandp l) (hb : b ≠ 0)
    (hz : findQband v alloc c b = some z) (hw : Wanted v c.qBandp l b') :
    (b' ≠ b ∧ Wanted v (z.pre ++ z.post) l b') ∨
      (b' = b ∧ z.qp.Owns v l b ∧ z.qp.qbWantw = true ∧ z.qp.qbWasfull = true) := by
  obtain ⟨qp,hq,ho,hf⟩ := hw
  obtain ⟨hrest,-⟩ := findQband_spec h hb hz
  have hother : qp ∈ z.pre ++ z.post → b' ≠ b := by
    rintro hm rfl
    rcases hrest.each qp hm with hfree | ⟨b'',hne,ho'⟩
    · have := ho.first_ne
      simp [hfree.1] at this
    · exact hne (ho'.unique ho)
  have hin : qp ∈ z.pre ++ z.post → b' ≠ b ∧ Wanted v (z.pre ++ z.post) l b' :=
    fun hm => ⟨hother hm,qp,hm,ho,hf⟩
  rcases findQband_cases hz with ⟨hi,he⟩ | ⟨-,⟨qp0,hf0,he,-,-⟩ | ⟨rfl,-,-⟩⟩
  · rw [he] at hq
    simp only [BandAt.chain,List.mem_append,List.mem_cons] at hq hin
    rcases hq with hq | rfl | hq
    · exact .inl (hin (.inl hq))
    · obtain rfl := ho.isBand.mp hi
      exact .inr ⟨rfl,ho,hf⟩
    · exact .inl (hin (.inr hq))
  · rw [he] at hq
    simp only [List.mem_append,List.mem_cons] at hq hin
    rcases hq with hq | rfl | hq
    · exact .inl (hin (.inl hq))
    · have := ho.first_ne
      simp [hf0] at this
    · exact .inl (hin (.inr hq))
  · exact .inl (hin hq)

theorem Wanted.congr (hw : Wanted v qps l b) (hm : bandMsgs v b m = bandMsgs v b l) :
    Wanted v qps m b := by
  obtain ⟨qp,hq,ho,hf⟩ := hw
  exact ⟨qp,hq,ho.congr hm rfl,hf⟩

theorem Wanted.fill {pre post : List (Qband P)} (hw : Wanted v (pre ++ post) l b) :
    Wanted v (pre ++ qp :: post) l b := by
  obtain ⟨x,hx,h⟩ := hw
  refine ⟨x,?_,h⟩
  simp only [List.mem_append,List.mem_cons] at hx ⊢
  exact hx.imp_right .inr

/-- No wish is kept in an unused structure. -/
def Qband.Quiet (qp : Qband P) : Prop := qp.qbFirst = none → qp.qbWantw = false

section Moves
variable [DecidableEq P]

theorem countIn_sane (alloc : Bool) (mp : P) (hs : ∀ qp ∈ c.qBandp, qp.Sane) (hw : c.qLowat ≤ c.qHiwat)
    (prev next : Option P) :
    ∀ qp ∈ (countIn v alloc true c mp prev next).qBandp, qp.Sane := by
  cases hq : (v mp).inQCount with
  | true =>
    rw [countIn_queue true hq]
    exact hs
  | false =>
    cases hz : findQband v alloc c (v mp).bBand with
    | none =>
      simp only [countIn,hq,hz,Bool.false_eq_true,if_false]
      exact hs
    | some z =>
      have hall := findQband_forall hs (fun _ _ => resetBand_sane hw) (newBand_sane hw) hz
      rw [countIn_band true hq hz]
      intro qp hm
      simp only [BandAt.chain,List.mem_append,List.mem_cons,if_true] at hm hall
      rcases hm with hm | rfl | hm
      · exact hall qp (.inl hm)
      · exact (hall z.qp (.inr (.inl rfl))).countIn _
      · exact hall qp (.inr (.inr hm))

theorem countIn_wanted (h : Tidy v c (l ++ m)) (hl : ∀ x ∈ l, (v mp).rank ≤ (v x).rank)
    (hm : ∀ x ∈ m, (v x).rank ≤ (v mp).rank)
    (ha : (v mp).inQCount = false → (findQband v alloc c (v mp).bBand).isSome = true)
    (hw : Wanted v c.qBandp (l ++ m) b) :
    Wanted v (countIn v alloc true c mp l.getLast? m.head?).qBandp (l ++ mp :: m) b := by
  cases hq : (v mp).inQCount with
  | true =>
    rw [countIn_queue true hq]
    obtain ⟨qp,hqp,ho,hf⟩ := hw
    exact ⟨qp,hqp,ho.congr (bandMsgs_middle_out (Info.inQCount_true hq ho.1)) rfl,hf⟩
  | false =>
    obtain ⟨z,hz⟩ := Option.isSome_iff_exists.mp (ha hq)
    obtain ⟨hhi,hb0,hr⟩ := Info.inQCount_false hq
    have hin : (v mp).inBand (v mp).bBand = true := Info.inBand_iff.mpr hr
    rw [countIn_band true hq hz]
    simp only [if_true]
    rcases hw.find h.banded hb0 hz with ⟨hne,hw⟩ | ⟨rfl,ho,hwant,hwas⟩
    · exact (hw.congr (bandMsgs_middle_out (Info.inBand_other hin hne))).fill
    · rw [hr] at hl hm
      have hhold := bandLinkIn_holds h.nodup h.ordered hl hm hin ho.2.2
      refine ⟨_,List.mem_append_right _ (List.mem_cons_self ..),⟨hb0,?_,hhold.of_eq rfl rfl rfl⟩,
        hwant,?_⟩
      · simp [bandMsgs_append,bandMsgs_cons_in hin]
      · simp [bandLinkIn,Qband.countIn,hwas]

theorem countIn_quiet (alloc : Bool) (mp : P) (hs : ∀ qp ∈ c.qBandp, qp.Quiet) (prev next : Option P) :
    ∀ qp ∈ (countIn v alloc true c mp prev next).qBandp, qp.Quiet := by
  cases hq : (v mp).inQCount with
  | true =>
    rw [countIn_queue true hq]
    exact hs
  | false =>
    cases hz : findQband v alloc c (v mp).bBand with
    | none =>
      simp only [countIn,hq,hz,Bool.false_eq_true,if_false]
      exact hs
    | some z =>
      have hall := findQband_forall hs (fun _ _ _ => rfl) (fun _ => rfl) hz
      rw [countIn_band true hq hz]
      intro qp hm
      simp only [BandAt.chain,List.mem_append,List.mem_cons,if_true] at hm hall
      rcases hm with hm | rfl | hm
      · exact hall qp (.inl hm)
      · intro hn
        simp only [bandLinkIn] at hn
        split at hn
        · cases hn
        · split at hn <;> cases hn
      · exact hall qp (.inr (.inr hm))

/- A removal hands the wish of a drained band over to the queue. -/
theorem adjustQCount_recorded (h : Tidy v c (l ++ mp :: m))
    (hw : c.qFlag.qwantw = true ∨ Wanted v c.qBandp (l ++ mp :: m) b) :
    (adjustQCount v alloc true c mp l.getLast? m.head?).qFlag.qwantw = true ∨
      Wanted v (adjustQCount v alloc true c mp l.getLast? m.head?).qBandp (l ++ m) b := by
  cases hq : (v mp).inQCount with
  | true =>
    rw [adjustQCount_queue true hq]
    refine hw.imp_right fun ⟨qp,hqp,ho,hf⟩ => ⟨qp,hqp,ho.congr ?_ rfl,hf⟩
    exact (bandMsgs_middle_out (Info.inQCount_true hq ho.1)).symm
  | false =>
    obtain ⟨hhi,hb0,hr⟩ := Info.inQCount_false hq
    have hin : (v mp).inBand (v mp).bBand = true := Info.inBand_iff.mpr hr
    have hne : bandMsgs v (v mp).bBand (l ++ mp :: m) ≠ [] := by
      simp [bandMsgs_append,bandMsgs_cons_in hin]
    obtain ⟨z,hz,ho,-⟩ := findQband_owned alloc h.banded hb0 hne
    rw [adjustQCount_band true _ _ hq hz]
    simp only [if_true,chkBand_eq]
    rcases hw with hw | hw
    · exact .inl (by simp [hw])
    rcases hw.find h.banded hb0 hz with ⟨hne,hw⟩ | ⟨rfl,-,hwant,hwas⟩
    · exact .inr (hw.congr (bandMsgs_middle_out (Info.inBand_other hin hne)).symm).fill
    · have hhold := bandLinkOut_holds h.nodup h.ordered hin ho.2.2
      obtain ⟨f,la,he⟩ := bandLinkOut_eq v mp l.getLast? m.head?
        { z.qp with qbCount := z.qp.qbCount - (v mp).size }
      rw [he] at hhold ⊢
      by_cases hd : z.qp.qbCount - (v mp).size ≤ z.qp.qbLowat
      · exact .inl (by simp [Qband.drained,hwas,hwant,hd])
      · refine .inr ⟨_,List.mem_append_right _ (List.mem_cons_self ..),⟨hb0,fun hnil => ?_,
          hhold.of_eq rfl rfl rfl⟩,by simp [Qband.drained,hwant,hd],by simp [Qband.drained,hwas,hd]⟩
        have hc : z.qp.qbCount - (v mp).size = sizes v (bandMsgs v (v mp).bBand (l ++ m)) :=
          hhold.count
        rw [hnil] at hc
        rw [hc] at hd
        exact hd (ulong_zero_le _)

/- After a removal every structure is an old one, or the checked one of the band. -/
theorem adjustQCount_mem (h : Tidy v c (l ++ mp :: m)) {qp : Qband P}
    (hqp : qp ∈ (adjustQCount v alloc true c mp l.getLast? m.head?).qBandp) :
    qp ∈ c.qBandp ∨ ∃ qp0 ∈ c.qBandp, ∃ n f la g,
      qp = (chkBand g { qp0 with qbCount := n, qbFirst := f, qbLast := la }).2 ∧
      Qband.Holds v (l ++ m) (v mp).bBand { qp0 with qbCount := n, qbFirst := f, qbLast := la } := by
  cases hq : (v mp).inQCount with
  | true =>
    rw [adjustQCount_queue true hq] at hqp
    exact .inl hqp
  | false =>
    obtain ⟨hhi,hb0,hr⟩ := Info.inQCount_false hq
    have hin : (v mp).inBand (v mp).bBand = true := Info.inBand_iff.mpr hr
    have hne : bandMsgs v (v mp).bBand (l ++ mp :: m) ≠ [] := by
      simp [bandMsgs_append,bandMsgs_cons_in hin]
    obtain ⟨z,hz,ho,hch⟩ := findQband_owned alloc h.banded hb0 hne
    rw [adjustQCount_band true _ _ hq hz] at hqp
    rw [hch]
    simp only [if_true,List.mem_append,List.mem_cons,BandAt.chain] at hqp ⊢
    rcases hqp with hm | rfl | hm
    · exact .inl (.inl hm)
    · have hhold := bandLinkOut_holds h.nodup h.ordered hin ho.2.2
      obtain ⟨f,la,he⟩ := bandLinkOut_eq v mp l.getLast? m.head?
        { z.qp with qbCount := z.qp.qbCount - (v mp).size }
      rw [he] at hhold ⊢
      exact .inr ⟨z.qp,.inr (.inl rfl),_,f,la,_,rfl,hhold⟩
    · exact .inl (.inr (.inr hm))

theorem adjustQCount_sane (h : Tidy v c (l ++ mp :: m)) (hs : ∀ qp ∈ c.qBandp, qp.Sane) :
    ∀ qp ∈ (adjustQCount v alloc true c mp l.getLast? m.head?).qBandp, qp.Sane := by
  intro qp hqp
  rcases adjustQCount_mem h hqp with hm | ⟨qp0,hm,n,f,la,g,rfl,-⟩
  · exact hs qp hm
  · have hs0 : ({ qp0 with qbCount := n, qbFirst := f, qbLast := la } : Qband P).Sane := hs qp0 hm
    exact hs0.chkBand g

theorem adjustQCount_quiet (h : Tidy v c (l ++ mp :: m)) (hs : ∀ qp ∈ c.qBandp, qp.Sane)
    (hu : ∀ qp ∈ c.qBandp, qp.Quiet) :
    ∀ qp ∈ (adjustQCount v alloc true c mp l.getLast? m.head?).qBandp, qp.Quiet := by
  intro qp hqp
  rcases adjustQCount_mem h hqp with hm | ⟨qp0,hm,n,f,la,g,rfl,hhold⟩
  · exact hu qp hm
  · intro hn
    rw [chkBand_first] at hn
    have hc := hhold.count
    rw [List.head?_eq_none_iff.mp (hhold.first.symm.trans hn)] at hc
    have hc : n = 0#64 := hc
    rw [chkBand_eq]
    cases hw : qp0.qbWantw with
    | false => simp
    | true => simp [Qband.drained,hc,(hs qp0 hm).2.2 hw,ulong_zero_le]

end Moves

end Bands

end CSLiS.Queue
