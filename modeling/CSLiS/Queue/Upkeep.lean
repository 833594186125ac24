import CSLiS.Queue.Bands

/-!
# The routines that keep counters and bands (head/queue.c)

`find_qband` returns the structure that serves a band or an unused one, and with
it `updatequeue` and `adjust_q_count` carry `Tidy` over an insertion and a
removal at any place that respects the order.
-/

namespace CSLiS.Queue
open Lib.Split

variable {P : Type} {v : P → Info} {l m : List P} {b : Uchar} {c : Core P} {qp : Qband P}
  {qps pre post : List (Qband P)} {mp : P} {alloc fromInsq : Bool} {z : BandAt P}

theorem Banded.perm {B : Uchar → Prop} {qps' : List (Qband P)} (h : Banded v B qps l)
    (hp : qps.Perm qps') : Banded v B qps' l := by
  refine ⟨fun qp hq => h.each qp (hp.mem_iff.mpr hq),?_,fun b hB hb hne => ?_⟩
  · exact (hp.pairwise_iff fun hd b ho hn => hd b hn ho).mp h.distinct
  · obtain ⟨qp,hq,ho⟩ := h.covered b hB hb hne
    exact ⟨qp,hp.mem_iff.mp hq,ho⟩

/- Setting aside the structure of band b, or an unused one, leaves the other
bands served. -/
theorem Banded.rest (h : Banded v (fun _ => True) (pre ++ qp :: post) l)
    (hq : qp.Owns v l b ∨ qp.Free ∧ bandMsgs v b l = []) :
    Banded v (· ≠ b) (pre ++ post) l := by
  obtain ⟨he,hd,hc⟩ := h.perm List.perm_middle
  obtain ⟨hqd,hd⟩ := List.pairwise_cons.mp hd
  refine ⟨fun x hx => ?_,hd,fun b' hB hb hne => ?_⟩
  · refine (he x (List.mem_cons_of_mem _ hx)).imp_right fun ⟨b',_,ho⟩ => ⟨b',?_,ho⟩
    rintro rfl
    cases hq with
    | inl hq => exact hqd x hx _ hq ho
    | inr hq => exact ho.2.1 hq.2
  · obtain ⟨x,hx,ho⟩ := hc b' trivial hb hne
    rcases List.mem_cons.mp hx with rfl | hx
    · cases hq with
      | inl hq => exact absurd (ho.unique hq) hB
      | inr hq =>
        have hn := ho.first_ne
        simp [hq.1.1] at hn
    · exact ⟨x,hx,ho⟩

theorem Banded.weaken (h : Banded v (fun _ => True) qps l) (hnil : bandMsgs v b l = []) :
    Banded v (· ≠ b) qps l := by
  refine ⟨fun x hx => ?_,h.distinct,fun b' _ => h.covered b' trivial⟩
  refine (h.each x hx).imp_right fun ⟨b',_,ho⟩ => ⟨b',?_,ho⟩
  rintro rfl
  exact ho.2.1 hnil

theorem Banded.fill (h : Banded v (· ≠ b) (pre ++ post) l)
    (hq : qp.Owns v l b ∨ qp.Free ∧ bandMsgs v b l = []) :
    Banded v (fun _ => True) (pre ++ qp :: post) l := by
  refine Banded.perm ?_ List.perm_middle.symm
  refine ⟨fun x hx => ?_,List.pairwise_cons.mpr ⟨fun x hx b' ho ho' => ?_,h.distinct⟩,
    fun b' _ hb hne => ?_⟩
  · rcases List.mem_cons.mp hx with rfl | hx
    · exact hq.elim (fun ho => .inr ⟨b,trivial,ho⟩) fun hf => .inl hf.1
    · exact (h.each x hx).imp_right fun ⟨b',_,ho⟩ => ⟨b',trivial,ho⟩
  · rcases h.each x hx with hf | ⟨b'',hB,ho''⟩
    · have hn := ho'.first_ne
      simp [hf.1] at hn
    · cases hq with
      | inl hq => exact hB (ho''.unique (ho.unique hq ▸ ho'))
      | inr hq =>
        have hn := ho.first_ne
        simp [hq.1.1] at hn
  · by_cases hbb : b' = b
    · subst hbb
      exact ⟨qp,List.mem_cons_self ..,hq.resolve_right fun hf => hne hf.2⟩
    · obtain ⟨x,hx,ho⟩ := h.covered b' hbb hb hne
      exact ⟨x,List.mem_cons_of_mem _ hx,ho⟩

/- The three outcomes of find_qband. -/
theorem findQband_cases (hz : findQband v alloc c b = some z) :
    (z.qp.isBand v b = true ∧ c.qBandp = z.chain) ∨
    ((∀ qp ∈ c.qBandp, qp.isBand v b = false) ∧
      ((∃ qp, qp.qbFirst = none ∧ c.qBandp = z.pre ++ qp :: z.post ∧ z.qp = c.resetBand qp ∧
        ∀ x ∈ z.pre, x.qbFirst.isSome = true) ∨
      (z = ⟨[],c.newBand,c.qBandp⟩ ∧ alloc = true ∧ ∀ qp ∈ c.qBandp, qp.qbFirst.isSome = true))) := by
  unfold findQband at hz
  split at hz
  · next y hy =>
    obtain ⟨he,hp,-⟩ := splitFirst_some hy
    obtain rfl := Option.some.inj hz
    exact .inl ⟨hp,he⟩
  · next hn =>
    refine .inr ⟨splitFirst_none.mp hn,?_⟩
    split at hz
    · next y hy =>
      obtain ⟨he,hp,hpre⟩ := splitFirst_some hy
      obtain rfl := Option.some.inj hz
      exact .inl ⟨y.2.1,by simpa using hp,he,rfl,fun x hx => by simpa using hpre x hx⟩
    · next hf =>
      split at hz
      · next ha =>
        refine .inr ⟨(Option.some.inj hz).symm,ha,fun qp hq => ?_⟩
        have := splitFirst_none.mp hf qp hq
        simpa using this
      · cases hz

/-- A structure is found unless all are in use by other bands and none can be allocated. -/
theorem findQband_isSome_iff : (findQband v alloc c b).isSome = true ↔
    alloc = true ∨ ∃ qp ∈ c.qBandp, qp.qbFirst = none ∨ qp.isBand v b = true := by
  unfold findQband
  split
  · next z hz =>
    obtain ⟨he,hp,-⟩ := splitFirst_some hz
    exact ⟨fun _ => .inr ⟨z.2.1,he ▸ by simp,.inr hp⟩,fun _ => rfl⟩
  · next hn =>
    split
    · next z hz =>
      obtain ⟨he,hp,-⟩ := splitFirst_some hz
      exact ⟨fun _ => .inr ⟨z.2.1,he ▸ by simp,.inl (by simpa using hp)⟩,fun _ => rfl⟩
    · next hf =>
      constructor
      · intro h
        cases alloc
        · cases h
        · exact .inl rfl
      · rintro (ha | ⟨qp,hq,h | h⟩)
        · simp [ha]
        · simpa [h] using splitFirst_none.mp hf qp hq
        · simpa [h] using splitFirst_none.mp hn qp hq

theorem findQband_isSome : (findQband v true c b).isSome = true :=
  findQband_isSome_iff.mpr (.inl rfl)

theorem Banded.isBand_iff (h : Banded v (fun _ => True) qps l) (hq : qp ∈ qps) :
    qp.isBand v b = true ↔ qp.Owns v l b := by
  rcases h.each qp hq with hf | ⟨b',_,ho⟩
  · simp only [hf.isBand,Bool.false_eq_true,false_iff]
    intro ho
    have hn := ho.first_ne
    simp [hf.1] at hn
  · rw [ho.isBand]
    exact ⟨fun he => he ▸ ho,fun h' => ho.unique h'⟩

/-- A band that has messages: its own structure is found and the chain stays as it is. -/
theorem findQband_owned (alloc : Bool) (h : Banded v (fun _ => True) c.qBandp l) (hb : b ≠ 0)
    (hne : bandMsgs v b l ≠ []) :
    ∃ z, findQband v alloc c b = some z ∧ z.qp.Owns v l b ∧ c.qBandp = z.chain := by
  obtain ⟨qp,hq,ho⟩ := h.covered b trivial hb hne
  obtain ⟨x,y,w,hs,hp⟩ := splitFirst_of_mem hq ((h.isBand_iff hq).mpr ho)
  have he := (splitFirst_some hs).1
  have hy : y ∈ c.qBandp := he ▸ by simp
  exact ⟨⟨x,y,w⟩,by simp [findQband,hs],(h.isBand_iff hy).mp hp,he⟩

theorem Qband.Holds.of_empty (hnil : bandMsgs v b l = []) (hf : qp.Free) (hc : qp.qbCount = 0) :
    qp.Holds v l b := ⟨by rw [hf.1,hnil]; rfl,by rw [hf.2,hnil]; rfl,by rw [hc,hnil]; rfl⟩

theorem Qband.Holds.cases (h : qp.Holds v l b) (hb : b ≠ 0) :
    qp.Owns v l b ∨ qp.Free ∧ bandMsgs v b l = [] := by
  by_cases hnil : bandMsgs v b l = []
  · exact .inr ⟨⟨by rw [h.first,hnil]; rfl,by rw [h.last,hnil]; rfl⟩,hnil⟩
  · exact .inl ⟨hb,hnil,h⟩

/-- What is found describes the band, and the other structures serve the other bands. -/
theorem findQband_spec (h : Banded v (fun _ => True) c.qBandp l)
    (hb0 : b ≠ 0) (hz : findQband v alloc c b = some z) :
    Banded v (· ≠ b) (z.pre ++ z.post) l ∧ z.qp.Holds v l b := by
  have hnil : ∀ qps, Banded v (fun _ => True) qps l → (∀ qp ∈ qps, qp.isBand v b = false) →
      bandMsgs v b l = [] := by
    intro qps h hn
    by_contra hne
    obtain ⟨qp,hq,ho⟩ := h.covered b trivial hb0 hne
    exact absurd ((h.isBand_iff hq).mpr ho) (by simp [hn qp hq])
  rcases findQband_cases hz with ⟨hi,he⟩ | ⟨hn,⟨qp,hf,he,hr,-⟩ | ⟨he,-,-⟩⟩
  · have hq : z.qp ∈ c.qBandp := by rw [he]; simp [BandAt.chain]
    have ho := (h.isBand_iff hq).mp hi
    rw [he] at h
    exact ⟨h.rest (.inl ho),ho.2.2⟩
  · have hb := hnil _ h hn
    rw [he] at h
    have hfree : qp.Free := (h.each qp (by simp)).elim id fun ⟨_,_,ho⟩ => by
      have := ho.first_ne
      simp [hf] at this
    exact ⟨h.rest (.inr ⟨hfree,hb⟩),.of_empty hb (by rw [hr]; exact hfree) (by rw [hr]; rfl)⟩
  · have hb := hnil _ h hn
    subst he
    exact ⟨h.weaken hb,.of_empty hb ⟨rfl,rfl⟩ rfl⟩

/- What a structure describes does not depend on its flags and marks. -/
theorem Qband.Holds.of_eq {qp' : Qband P} (h : qp.Holds v l b) (hf : qp'.qbFirst = qp.qbFirst)
    (hl : qp'.qbLast = qp.qbLast) (hc : qp'.qbCount = qp.qbCount) : qp'.Holds v l b :=
  ⟨hf.trans h.first,hl.trans h.last,hc.trans h.count⟩

@[simp] theorem chkBand_first (f : Qflag) : (chkBand f qp).2.qbFirst = qp.qbFirst := by
  simp only [chkBand]
  split_ifs <;> rfl
@[simp] theorem chkBand_last (f : Qflag) : (chkBand f qp).2.qbLast = qp.qbLast := by
  simp only [chkBand]
  split_ifs <;> rfl
@[simp] theorem chkBand_count (f : Qflag) : (chkBand f qp).2.qbCount = qp.qbCount := by
  simp only [chkBand]
  split_ifs <;> rfl

theorem chkBand_holds (f : Qflag) (h : qp.Holds v l b) : (chkBand f qp).2.Holds v l b :=
  h.of_eq (chkBand_first f) (chkBand_last f) (chkBand_count f)

theorem chkBand_snd (f : Qflag) : (chkBand f qp).2 = (chkBand {} qp).2 := by
  simp only [chkBand]
  split_ifs <;> rfl

theorem chkBands_snd (f : Qflag) : (chkBands f qps).2 = qps.map fun qp => (chkBand {} qp).2 := by
  induction qps generalizing f with
  | nil => rfl
  | cons qp qps ih =>
    show (chkBand f qp).2 :: (chkBands (chkBand f qp).1 qps).2 = _
    rw [ih,chkBand_snd]
    rfl

theorem Banded.map {B : Uchar → Prop} {F : Qband P → Qband P} (h : Banded v B qps l)
    (hf : ∀ qp, (F qp).qbFirst = qp.qbFirst) (hl : ∀ qp, (F qp).qbLast = qp.qbLast)
    (hc : ∀ qp, (F qp).qbCount = qp.qbCount) : Banded v B (qps.map F) l := by
  have howns : ∀ qp b, (F qp).Owns v l b ↔ qp.Owns v l b := fun qp b =>
    ⟨fun h => ⟨h.1,h.2.1,h.2.2.of_eq (hf qp).symm (hl qp).symm (hc qp).symm⟩,
      fun h => ⟨h.1,h.2.1,h.2.2.of_eq (hf qp) (hl qp) (hc qp)⟩⟩
  refine ⟨fun x hx => ?_,?_,fun b hB hb hne => ?_⟩
  · obtain ⟨qp,hq,rfl⟩ := List.mem_map.mp hx
    refine (h.each qp hq).imp (fun hfree => ⟨(hf qp).trans hfree.1,(hl qp).trans hfree.2⟩) ?_
    exact fun ⟨b,hB,ho⟩ => ⟨b,hB,(howns qp b).mpr ho⟩
  · refine List.pairwise_map.mpr (h.distinct.imp fun hd b hp hq => ?_)
    exact hd b ((howns _ b).mp hp) ((howns _ b).mp hq)
  · obtain ⟨qp,hq,ho⟩ := h.covered b hB hb hne
    exact ⟨F qp,List.mem_map_of_mem hq,(howns qp b).mpr ho⟩

section Links
variable [DecidableEq P]

/- An insertion behind messages of at least and before messages of at most the
rank of the band. The neighbours tell whether the new message is at an end. -/
theorem bandLinkIn_holds (hnd : (l ++ m).Nodup) (ho : Ordered v (l ++ m))
    (hl : ∀ x ∈ l, b ≤ (v x).rank) (hm : ∀ x ∈ m, (v x).rank ≤ b)
    (hmp : (v mp).inBand b = true) (hq : qp.Holds v (l ++ m) b) :
    (bandLinkIn mp l.getLast? m.head? { qp with qbCount := qp.qbCount + (v mp).size }).Holds v
      (l ++ mp :: m) b := by
  obtain ⟨hol,hom,-⟩ := List.pairwise_append.mp ho
  have hdis := (List.nodup_append.mp hnd).2.2
  have hmem : ∀ {k : List P} {x}, x ∈ bandMsgs v b k → x ∈ k := fun h => (List.mem_filter.mp h).1
  have hh := bandMsgs_head hom hm
  have ht := bandMsgs_last hol hl
  obtain ⟨hf,hla,hc⟩ := hq
  rw [bandMsgs_append] at hf hla hc
  constructor
  · rw [bandMsgs_append,bandMsgs_cons_in hmp]
    simp only [bandLinkIn,hf]
    cases hA : bandMsgs v b l with
    | nil =>
      cases hB : bandMsgs v b m with
      | nil => rfl
      | cons y B =>
        have hy : m.head? = some y := by rw [← hh (by simp [hB]),hB]; rfl
        simp [hy]
    | cons x A =>
      have hx : x ∈ l := hmem (hA ▸ List.mem_cons_self ..)
      have hne : m.head? ≠ some x := fun h => hdis x hx x (List.mem_of_head? h) rfl
      simp [hne]
  · rw [bandMsgs_append,bandMsgs_cons_in hmp]
    simp only [bandLinkIn,hla]
    rcases List.eq_nil_or_concat (bandMsgs v b m) with hB | ⟨B,y,hB⟩
    · rcases List.eq_nil_or_concat (bandMsgs v b l) with hA | ⟨A,x,hA⟩
      · simp [hA,hB]
      · have hx : l.getLast? = some x := by rw [← ht (by simp [hA]),hA]; simp
        simp [hA,hB,hx]
    · have hy : y ∈ m := hmem (hB ▸ by simp)
      have hne : l.getLast? ≠ some y := fun h => hdis y (List.mem_of_getLast? h) y hy rfl
      simp [hB,hne,List.getLast?_append,List.getLast?_cons]
  · rw [bandMsgs_append,bandMsgs_cons_in hmp,sizes_middle,← hc]
    rfl

omit [DecidableEq P] in
theorem bBand_of_mem (h : mp ∈ bandMsgs v b l) : (v mp).bBand = b := by
  have hi := (List.mem_filter.mp h).2
  simp only [Info.inBand,Bool.and_eq_true,beq_iff_eq] at hi
  exact hi.2

omit [DecidableEq P] in
theorem outside_band (hm : ∀ x ∈ m, (v x).rank ≤ b) (hB : bandMsgs v b m = []) (h : mp ∈ m) :
    (v mp).bBand ≠ b := by
  intro he
  have hr := hm mp h
  have hb := b.isLt
  have hi : (v mp).hipri = false := by
    cases hh : (v mp).hipri with
    | false => rfl
    | true =>
      simp only [Info.rank,hh,if_true] at hr
      omega
  have : mp ∈ bandMsgs v b m := List.mem_filter.mpr ⟨h,by simp [Info.inBand,hi,he]⟩
  simp [hB] at this

/- Only a message at an end of its band moves an end, to its neighbour if that
is of the band, too. A neighbour behind is never of high priority. -/
theorem bandLinkOut_holds (hnd : (l ++ mp :: m).Nodup) (ho : Ordered v (l ++ mp :: m))
    (hmp : (v mp).inBand b = true) (hq : qp.Holds v (l ++ mp :: m) b) :
    (bandLinkOut v mp l.getLast? m.head? { qp with qbCount := qp.qbCount - (v mp).size }).Holds v
      (l ++ m) b := by
  obtain ⟨hol,hom,hoc⟩ := List.pairwise_append.mp ho
  obtain ⟨hoh,hom⟩ := List.pairwise_cons.mp hom
  have hr : (v mp).rank = b := Info.inBand_iff.mp hmp
  have hbb : (v mp).bBand = b := by
    simp only [Info.inBand,Bool.and_eq_true,beq_iff_eq] at hmp
    exact hmp.2
  have hl : ∀ x ∈ l, b ≤ (v x).rank := fun x hx => hr ▸ hoc x hx mp (List.mem_cons_self ..)
  have hm : ∀ x ∈ m, (v x).rank ≤ b := fun x hx => hr ▸ hoh x hx
  have hmem : ∀ {k : List P} {x}, x ∈ bandMsgs v b k → x ∈ k := fun h => (List.mem_filter.mp h).1
  have hh := bandMsgs_head hom hm
  have ht := bandMsgs_last hol hl
  have hmnot : mp ∉ l ∧ mp ∉ m := by
    simpa using (List.nodup_middle.mp hnd).notMem
  obtain ⟨hf,hla,hc⟩ := hq
  rw [bandMsgs_append,bandMsgs_cons_in hmp] at hf hla hc
  have hcnt : qp.qbCount - (v mp).size = sizes v (bandMsgs v b l ++ bandMsgs v b m) := by
    rw [hc,sizes_middle]
    exact BitVec.add_sub_cancel ..
  rcases List.eq_nil_or_concat (bandMsgs v b l) with hA | ⟨A,x,hA⟩
  · rw [hA,List.nil_append] at hf hla hcnt
    cases hB : bandMsgs v b m with
    | nil =>
      rw [hB] at hf hla hcnt
      have hfree : bandLinkOut v mp l.getLast? m.head?
          { qp with qbCount := qp.qbCount - (v mp).size } =
          { qp with qbCount := qp.qbCount - (v mp).size, qbFirst := none, qbLast := none } := by
        cases hy : m.head? with
        | none => simp [bandLinkOut,hf]
        | some y =>
          have := outside_band hm hB (List.mem_of_head? hy)
          simp [bandLinkOut,hf,hbb,this]
      rw [hfree]
      exact .of_empty (by rw [bandMsgs_append,hA,hB]; rfl) ⟨rfl,rfl⟩ hcnt
    | cons y B =>
      rw [hB] at hf hla hcnt
      have hy : m.head? = some y := by rw [← hh (by simp [hB]),hB]; rfl
      have hyb : (v y).bBand = b := bBand_of_mem (hB ▸ List.mem_cons_self ..)
      have hne : (y :: B).getLast? ≠ some mp := fun h =>
        hmnot.2 (hmem (hB ▸ List.mem_of_getLast? h))
      rw [List.getLast?_cons_cons] at hla
      have hout : bandLinkOut v mp l.getLast? m.head?
          { qp with qbCount := qp.qbCount - (v mp).size } =
          { qp with qbCount := qp.qbCount - (v mp).size, qbFirst := some y } := by
        simp only [bandLinkOut,hf,hla,hy,List.head?_cons,hyb,hbb,beq_self_eq_true,if_true,hne,
          if_false]
      rw [hout]
      exact ⟨by rw [bandMsgs_append,hA,hB]; rfl,by rw [bandMsgs_append,hA,hB]; exact hla,
        by rw [bandMsgs_append,hA,hB]; exact hcnt⟩
  · have hx : l.getLast? = some x := by rw [← ht (by simp [hA]),hA]; simp
    have hxb : (v x).bBand = b := bBand_of_mem (l := l) (by simp [hA])
    have hnf : qp.qbFirst ≠ some mp := by
      intro h
      rw [hf] at h
      refine hmnot.1 (hmem ?_)
      rw [List.head?_append_of_ne_nil _ (by simp [hA])] at h
      exact List.mem_of_head? h
    have hfirst : qp.qbFirst = (bandMsgs v b (l ++ m)).head? := by
      rw [hf,bandMsgs_append,List.head?_append_of_ne_nil _ (by simp [hA]),
        List.head?_append_of_ne_nil _ (by simp [hA])]
    rcases List.eq_nil_or_concat (bandMsgs v b m) with hB | ⟨B,y,hB⟩
    · rw [hB,List.getLast?_append] at hla
      have hout : bandLinkOut v mp l.getLast? m.head?
          { qp with qbCount := qp.qbCount - (v mp).size } =
          { qp with qbCount := qp.qbCount - (v mp).size, qbLast := some x } := by
        simp [bandLinkOut,hnf,hla,hx,hxb,hbb]
      rw [hout]
      exact ⟨hfirst,by rw [bandMsgs_append,hA,hB]; simp,by rw [bandMsgs_append]; exact hcnt⟩
    · have hlast : qp.qbLast = (bandMsgs v b (l ++ m)).getLast? := by
        rw [hla,bandMsgs_append,hB]
        simp [List.getLast?_append,List.getLast?_cons]
      have hnl : qp.qbLast ≠ some mp := by
        intro h
        rw [hla,hB] at h
        have : y = mp := by simpa [List.getLast?_append,List.getLast?_cons] using h
        exact hmnot.2 (this ▸ hmem (hB ▸ by simp))
      have hout : bandLinkOut v mp l.getLast? m.head?
          { qp with qbCount := qp.qbCount - (v mp).size } =
          { qp with qbCount := qp.qbCount - (v mp).size } := by
        simp [bandLinkOut,hnf,hnl]
      rw [hout]
      exact ⟨hfirst,hlast,by rw [bandMsgs_append]; exact hcnt⟩

omit [DecidableEq P] in
theorem Tidy.of_eq {c' : Core P} (h : Tidy v c l) (hc : c'.qCount = c.qCount)
    (hb : c'.qBandp = c.qBandp) : Tidy v c' l :=
  ⟨h.nodup,h.ordered,hc.trans h.count,hb ▸ h.banded⟩

/- Two messages that order, bands and counters do not tell apart. The band of a
high-priority message does not matter to them. -/
def Info.Alike (i j : Info) : Prop :=
  i.dbType = j.dbType ∧ i.size = j.size ∧ (j.hipri = false → i.bBand = j.bBand)

theorem Info.Alike.trans {i j k : Info} (h : i.Alike j) (h' : j.Alike k) : i.Alike k := by
  have hh : j.hipri = k.hipri := by
    unfold Info.hipri
    rw [h'.1]
  exact ⟨h.1.trans h'.1,h.2.1.trans h'.2.1,fun hk => (h.2.2 (hh.trans hk)).trans (h'.2.2 hk)⟩
theorem Info.Alike.hipri {i j : Info} (h : i.Alike j) : i.hipri = j.hipri := by
  unfold Info.hipri
  rw [h.1]
theorem Info.Alike.rank {i j : Info} (h : i.Alike j) : i.rank = j.rank := by
  unfold Info.rank
  rw [h.hipri]
  split
  · rfl
  · next hh => rw [h.2.2 (by simpa using hh)]
theorem Info.Alike.inBand {i j : Info} (h : i.Alike j) : i.inBand b = j.inBand b := by
  rw [Bool.eq_iff_iff,Info.inBand_iff,Info.inBand_iff,h.rank]
theorem Info.Alike.inQCount {i j : Info} (h : i.Alike j) : i.inQCount = j.inQCount := by
  unfold Info.inQCount
  rw [h.hipri]
  cases hh : j.hipri with
  | false => rw [h.2.2 hh]
  | true => rfl

omit [DecidableEq P] in
theorem Tidy.congr {v' : P → Info} (h : Tidy v c l) (hv : ∀ p ∈ l, (v' p).Alike (v p)) :
    Tidy v' c l := by
  have hb : ∀ b, bandMsgs v' b l = bandMsgs v b l := fun b =>
    List.filter_congr fun p hp => (hv p hp).inBand
  have hq : qMsgs v' l = qMsgs v l := List.filter_congr fun p hp => (hv p hp).inQCount
  have hs : ∀ k ⊆ l, sizes v' k = sizes v k := fun k hk =>
    congrArg List.sum (List.map_congr_left fun p hp => (hv p (hk hp)).2.1)
  refine ⟨h.nodup,h.ordered.imp_of_mem fun hx hy hr => ?_,?_,?_⟩
  · rw [(hv _ hx).rank,(hv _ hy).rank]
    exact hr
  · rw [hq,hs (qMsgs v l) (List.filter_subset_self l),h.count]
  · exact h.banded.congr (fun b _ _ => hb b) fun b _ _ => hs (bandMsgs v b l) (List.filter_subset_self l)

omit [DecidableEq P] in
theorem Tidy.of_nil (hc : c.qCount = 0) (hb : ∀ qp ∈ c.qBandp, qp.Free) : Tidy v c [] := by
  refine ⟨.nil,.nil,hc,fun qp hq => .inl (hb qp hq),?_,fun b _ _ hne => absurd rfl hne⟩
  exact List.pairwise_of_forall_mem_list fun p _ q _ b ho => absurd rfl ho.2.1

omit [DecidableEq P] in
/- A search that skips what ranks high stops where everything left ranks low. -/
theorem Ordered.dropWhile {t : P → Bool} (h : Ordered v l)
    (ht : ∀ x ∈ l, ∀ y ∈ l, (v y).rank ≤ (v x).rank → t y = true → t x = true) :
    ∀ x ∈ l.dropWhile t, t x = false := by
  induction l with
  | nil => simp
  | cons a l ih =>
    obtain ⟨ha,hl⟩ := List.pairwise_cons.mp h
    rw [List.dropWhile_cons]
    split_ifs with hta
    · exact ih hl fun x hx y hy => ht x (List.mem_cons_of_mem _ hx) y (List.mem_cons_of_mem _ hy)
    · intro x hx
      by_contra htx
      rw [Bool.not_eq_false] at htx
      rcases List.mem_cons.mp hx with rfl | hx
      · exact hta htx
      · exact hta (ht a (List.mem_cons_self ..) x (List.mem_cons_of_mem _ hx) (ha x hx) htx)

omit [DecidableEq P] in
theorem Ordered.insert (h : Ordered v (l ++ m)) (hl : ∀ x ∈ l, (v mp).rank ≤ (v x).rank)
    (hm : ∀ x ∈ m, (v x).rank ≤ (v mp).rank) : Ordered v (l ++ mp :: m) := by
  obtain ⟨hol,hom,hlm⟩ := List.pairwise_append.mp h
  refine List.pairwise_append.mpr ⟨hol,List.pairwise_cons.mpr ⟨hm,hom⟩,fun x hx y hy => ?_⟩
  rcases List.mem_cons.mp hy with rfl | hy
  · exact hl x hx
  · exact hlm x hx y hy

omit [DecidableEq P] in
theorem Ordered.remove (h : Ordered v (l ++ mp :: m)) : Ordered v (l ++ m) :=
  h.sublist ((List.sublist_cons_self ..).append_left l)

omit [DecidableEq P] in
theorem qMsgs_middle_in (h : (v mp).inQCount = true) :
    sizes v (qMsgs v (l ++ mp :: m)) = sizes v (qMsgs v (l ++ m)) + (v mp).size := by
  rw [qMsgs_append,qMsgs_append,← sizes_middle]
  simp [qMsgs,h]

omit [DecidableEq P] in
theorem qMsgs_middle_out (h : (v mp).inQCount = false) :
    qMsgs v (l ++ mp :: m) = qMsgs v (l ++ m) := by
  rw [qMsgs_append,qMsgs_append]
  simp [qMsgs,h]

omit [DecidableEq P] in
theorem Info.inQCount_true (h : (v mp).inQCount = true) (hb : b ≠ 0) :
    (v mp).inBand b = false := by
  simp only [Info.inQCount,Bool.or_eq_true,beq_iff_eq] at h
  rcases h with h | h
  · simp [Info.inBand,h]
  · simp [Info.inBand,h,Ne.symm hb]

theorem Info.inBand_other {i : Info} {b' : Uchar} (h : i.inBand b = true) (hb : b' ≠ b) :
    i.inBand b' = false := by
  cases hi : i.inBand b' with
  | false => rfl
  | true => exact absurd (Info.inBand_unique hi h) hb

omit [DecidableEq P] in
/-- A message that no band counts makes no difference to the bands. -/
theorem Banded.middle_out (hq : (v mp).inQCount = true) :
    Banded v (fun _ => True) qps (l ++ mp :: m) ↔ Banded v (fun _ => True) qps (l ++ m) := by
  have hm : ∀ b, b ≠ 0 → bandMsgs v b (l ++ mp :: m) = bandMsgs v b (l ++ m) :=
    fun b hb => bandMsgs_middle_out (Info.inQCount_true hq hb)
  exact ⟨fun h => h.congr (fun b _ hb => (hm b hb).symm) fun _ _ _ => rfl,
    fun h => h.congr (fun b _ hb => hm b hb) fun _ _ _ => rfl⟩

theorem countIn_tidy (h : Tidy v c (l ++ m)) (hmp : mp ∉ l ++ m)
    (hl : ∀ x ∈ l, (v mp).rank ≤ (v x).rank) (hm : ∀ x ∈ m, (v x).rank ≤ (v mp).rank)
    (ha : (v mp).inQCount = false → (findQband v alloc c (v mp).bBand).isSome = true) :
    Tidy v (countIn v alloc true c mp l.getLast? m.head?) (l ++ mp :: m) := by
  have hnd := List.nodup_middle.mpr (List.nodup_cons.mpr ⟨hmp,h.nodup⟩)
  have hord := h.ordered.insert hl hm
  cases hq : (v mp).inQCount with
  | true =>
    have hb := (Banded.middle_out hq).mpr h.banded
    refine ⟨hnd,hord,?_,?_⟩
    · rw [qMsgs_middle_in hq,← h.count]
      simp only [countIn,hq,if_true]
      split_ifs <;> rfl
    · simp only [countIn,hq,if_true]
      split_ifs <;> exact hb
  | false =>
    obtain ⟨z,hz⟩ := Option.isSome_iff_exists.mp (ha hq)
    obtain ⟨hhi,hb0,hr⟩ := Info.inQCount_false hq
    have hin : (v mp).inBand (v mp).bBand = true := Info.inBand_iff.mpr hr
    rw [hr] at hl hm
    obtain ⟨hrest,hhold⟩ := findQband_spec h.banded hb0 hz
    have hnew := bandLinkIn_holds h.nodup h.ordered hl hm hin hhold
    have hrest : Banded v (· ≠ (v mp).bBand) (z.pre ++ z.post) (l ++ mp :: m) :=
      hrest.congr (fun b hb _ => bandMsgs_middle_out (Info.inBand_other hin hb)) fun _ _ _ => rfl
    refine ⟨hnd,hord,?_,?_⟩
    · rw [qMsgs_middle_out hq,← h.count]
      simp [countIn,hq,hz]
    · simp only [countIn,hq,hz,Bool.false_eq_true,if_false,if_true,BandAt.chain]
      refine hrest.fill (Qband.Holds.cases ?_ hb0)
      split_ifs
      · exact hnew.of_eq rfl rfl rfl
      · exact hnew

omit [DecidableEq P] in
theorem schedule_fields : (schedule v fromInsq c mp).qCount = c.qCount ∧
    (schedule v fromInsq c mp).qBandp = c.qBandp := by
  unfold schedule
  split_ifs <;> exact ⟨rfl,rfl⟩

theorem updatequeue_tidy (alloc fromInsq : Bool) (h : Tidy v c (l ++ m)) (hmp : mp ∉ l ++ m)
    (hl : ∀ x ∈ l, (v mp).rank ≤ (v x).rank) (hm : ∀ x ∈ m, (v x).rank ≤ (v mp).rank)
    (ha : (v mp).inQCount = false → (findQband v alloc c (v mp).bBand).isSome = true) :
    Tidy v (updatequeue v alloc fromInsq true c mp l.getLast? m.head?) (l ++ mp :: m) :=
  (countIn_tidy h hmp hl hm ha).of_eq schedule_fields.1 schedule_fields.2

theorem adjustQCount_tidy (alloc : Bool) (h : Tidy v c (l ++ mp :: m)) :
    Tidy v (adjustQCount v alloc true c mp l.getLast? m.head?) (l ++ m) := by
  have hnd := (List.nodup_cons.mp (List.nodup_middle.mp h.nodup)).2
  have hord := h.ordered.remove
  cases hq : (v mp).inQCount with
  | true =>
    have hcnt : c.qCount - (v mp).size = sizes v (qMsgs v (l ++ m)) := by
      rw [h.count,qMsgs_middle_in hq]
      exact BitVec.add_sub_cancel ..
    exact ⟨hnd,hord,by simpa [adjustQCount,hq] using hcnt,
      by simpa [adjustQCount,hq] using (Banded.middle_out hq).mp h.banded⟩
  | false =>
    obtain ⟨hhi,hb0,hr⟩ := Info.inQCount_false hq
    have hin : (v mp).inBand (v mp).bBand = true := Info.inBand_iff.mpr hr
    have hne : bandMsgs v (v mp).bBand (l ++ mp :: m) ≠ [] := by
      simp [bandMsgs_append,bandMsgs_cons_in hin]
    obtain ⟨z,hz,-,-⟩ := findQband_owned alloc
      (c := { c with qFlag := { c.qFlag with qwantr := false } }) h.banded hb0 hne
    obtain ⟨hrest,hhold⟩ := findQband_spec (by exact h.banded) hb0 hz
    have hnew := bandLinkOut_holds h.nodup h.ordered hin hhold
    have hrest : Banded v (· ≠ (v mp).bBand) (z.pre ++ z.post) (l ++ m) :=
      hrest.congr (fun b hb _ => (bandMsgs_middle_out (Info.inBand_other hin hb)).symm)
        fun _ _ _ => rfl
    refine ⟨hnd,hord,?_,?_⟩
    · rw [← qMsgs_middle_out hq,← h.count]
      simp [adjustQCount,hq,hz]
    · simp only [adjustQCount,hq,hz,Bool.not_false,if_true,BandAt.chain]
      exact hrest.fill ((chkBand_holds _ hnew).cases hb0)

end Links

theorem lisBackenable_tidy (back : List BackQ) (h : Tidy v c l) :
    Tidy v (lisBackenable c back).1 l := by
  unfold lisBackenable
  split_ifs
  · exact h.of_eq rfl rfl
  · exact h

theorem flushStart_tidy : Tidy v c.flushStart [] := by
  refine .of_nil rfl fun qp hq => ?_
  obtain ⟨x,-,rfl⟩ := List.mem_map.mp hq
  exact ⟨rfl,rfl⟩

theorem flushCheck_tidy (wasfull : Bool) (h : Tidy v c l) : Tidy v (c.flushCheck wasfull) l := by
  refine ⟨h.nodup,h.ordered,h.count,?_⟩
  show Banded v _ (chkBands _ c.qBandp).2 l
  rw [chkBands_snd]
  exact h.banded.map (fun _ => chkBand_first {}) (fun _ => chkBand_last {}) fun _ => chkBand_count {}

theorem flushEnd_tidy {nonempty : Bool} {back : List BackQ} (h : Tidy v c l) :
    Tidy v (c.flushEnd nonempty back).1 l := by
  simp only [Core.flushEnd]
  split_ifs
  · exact h
  · exact (lisBackenable_tidy back h).of_eq rfl rfl
  · exact lisBackenable_tidy _ h

end CSLiS.Queue
