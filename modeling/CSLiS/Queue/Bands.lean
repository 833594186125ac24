import CSLiS.Queue.Flow

/-!
# Order, bands and counters of a message list (head/queue.c)

What `ins_before` and `rmv_msg` keep true between the message list of a queue
and its counters: high-priority messages first and then falling bands, one band
structure for each band that has messages, and both kinds of counters equal to
the sizes of what they count. The messages are given by pointers, so that the
linked and the listed queue share these facts.
-/

namespace CSLiS.Queue
open Lib.Split

variable {P : Type} (v : P → Info)

/-- The place of a message in the order of a queue: high priority is above every band. -/
def Info.rank (i : Info) : ℕ := if i.hipri then 256 else i.bBand

def Ordered (l : List P) : Prop := l.Pairwise fun x y => (v y).rank ≤ (v x).rank
def bandMsgs (b : Uchar) (l : List P) : List P := l.filter fun p => (v p).inBand b
def qMsgs (l : List P) : List P := l.filter fun p => (v p).inQCount
def sizes (l : List P) : Ulong := (l.map fun p => (v p).size).sum

/-- The bytes as a number without a bound. -/
def byteSum (l : List P) : ℕ := (l.map fun p => (v p).size.toNat).sum

/-- The counter is the sum of these sizes. As long as they fit it has not wrapped,
and the size of each can be taken off it. -/
def Exact (n : Ulong) (l : List P) : Prop :=
  n = sizes v l ∧ (byteSum v l < 2 ^ 64 → n.toNat = byteSum v l ∧ ∀ p ∈ l, (v p).size ≤ n)

/-- The structure describes the messages of this band. -/
structure Qband.Holds (l : List P) (b : Uchar) (qp : Qband P) : Prop where
  first : qp.qbFirst = (bandMsgs v b l).head?
  last : qp.qbLast = (bandMsgs v b l).getLast?
  count : qp.qbCount = sizes v (bandMsgs v b l)

/-- The structure serves this band, which has messages. -/
def Qband.Owns (l : List P) (b : Uchar) (qp : Qband P) : Prop :=
  b ≠ 0 ∧ bandMsgs v b l ≠ [] ∧ qp.Holds v l b

def Qband.Free (qp : Qband P) : Prop := qp.qbFirst = none ∧ qp.qbLast = none

/- The bands for which `B` holds are served by exactly one structure each, and
every other structure is unused. While a message of band b is linked in or out,
this is kept for the bands other than b. -/
structure Banded (B : Uchar → Prop) (qps : List (Qband P)) (l : List P) : Prop where
  each : ∀ qp ∈ qps, qp.Free ∨ ∃ b, B b ∧ qp.Owns v l b
  distinct : qps.Pairwise fun p q => ∀ b, p.Owns v l b → ¬q.Owns v l b
  covered : ∀ b, B b → b ≠ 0 → bandMsgs v b l ≠ [] → ∃ qp ∈ qps, qp.Owns v l b

/-- The invariant of a queue with the messages `l`. -/
structure Tidy (c : Core P) (l : List P) : Prop where
  nodup : l.Nodup
  ordered : Ordered v l
  count : c.qCount = sizes v (qMsgs v l)
  banded : Banded v (fun _ => True) c.qBandp l

variable {v} {v' : P → Info} {l m : List P} {b b' : Uchar} {c : Core P} {qp : Qband P} {mp : P}

theorem Info.inBand_iff {i : Info} : i.inBand b = true ↔ i.rank = b := by
  have hb := b.isLt
  unfold Info.inBand Info.rank
  cases hh : i.hipri
  · simpa using Fin.ext_iff
  · simp
    omega

theorem Info.rank_le (i : Info) : i.rank ≤ 256 := by
  have := i.bBand.isLt
  unfold Info.rank
  split <;> omega

theorem Info.inQCount_false {i : Info} (h : i.inQCount = false) :
    i.hipri = false ∧ i.bBand ≠ 0 ∧ i.rank = i.bBand := by
  simp only [Info.inQCount,Bool.or_eq_false_iff,beq_eq_false_iff_ne] at h
  exact ⟨h.1,h.2,by simp [Info.rank,h.1]⟩

theorem Info.inBand_unique {i : Info} (h : i.inBand b = true) (h' : i.inBand b' = true) : b = b' := by
  rw [Info.inBand_iff] at h h'
  exact Fin.ext (h.symm.trans h')

@[simp] theorem bandMsgs_nil : bandMsgs v b [] = [] := rfl
@[simp] theorem qMsgs_nil : qMsgs v [] = [] := rfl
@[simp] theorem sizes_nil : sizes v [] = 0 := rfl
theorem sizes_cons : sizes v (mp :: l) = (v mp).size + sizes v l := by simp [sizes]
theorem bandMsgs_append : bandMsgs v b (l ++ m) = bandMsgs v b l ++ bandMsgs v b m :=
  List.filter_append ..
theorem qMsgs_append : qMsgs v (l ++ m) = qMsgs v l ++ qMsgs v m := List.filter_append ..
theorem sizes_append : sizes v (l ++ m) = sizes v l + sizes v m := by simp [sizes]
theorem sizes_middle : sizes v (l ++ mp :: m) = sizes v (l ++ m) + (v mp).size := by
  simp only [sizes_append,sizes_cons]
  ac_rfl

theorem Exact.of_sizes {n : Ulong} (h : n = sizes v l) : Exact v n l := by
  have hsum : ∀ l : List P, byteSum v l < 2 ^ 64 → (sizes v l).toNat = byteSum v l := by
    intro l hl
    induction l with
    | nil => rfl
    | cons p l ih =>
      simp only [byteSum,List.map_cons,List.sum_cons] at hl ih ⊢
      rw [sizes_cons,BitVec.toNat_add,ih (by omega)]
      exact Nat.mod_eq_of_lt hl
  refine ⟨h,fun hl => ⟨h ▸ hsum l hl,fun p hp => ?_⟩⟩
  rw [BitVec.le_def,h,hsum l hl]
  exact List.single_le_sum (fun _ _ => Nat.zero_le _) _ (List.mem_map_of_mem hp)

theorem bandMsgs_cons_in (h : (v mp).inBand b = true) :
    bandMsgs v b (mp :: m) = mp :: bandMsgs v b m := by simp [bandMsgs,h]
theorem bandMsgs_cons_out (h : (v mp).inBand b = false) :
    bandMsgs v b (mp :: m) = bandMsgs v b m := by simp [bandMsgs,h]
theorem bandMsgs_middle_out (h : (v mp).inBand b = false) :
    bandMsgs v b (l ++ mp :: m) = bandMsgs v b (l ++ m) := by
  simp only [bandMsgs_append,bandMsgs_cons_out h]

/- In a list in order, the messages of a band stand together: behind a part of
higher or equal rank they come first, before a part of lower or equal rank last. -/
theorem bandMsgs_head (ho : Ordered v m) (hb : ∀ x ∈ m, (v x).rank ≤ b)
    (hne : bandMsgs v b m ≠ []) : (bandMsgs v b m).head? = m.head? := by
  cases m with
  | nil => rfl
  | cons x m =>
    obtain ⟨y,hy⟩ := List.exists_mem_of_ne_nil _ hne
    obtain ⟨hm,hi⟩ := List.mem_filter.mp hy
    have hxb : (v x).inBand b = true := by
      have hx := hb x (List.mem_cons_self ..)
      rw [Info.inBand_iff] at hi ⊢
      rcases List.mem_cons.mp hm with rfl | hm
      · exact hi
      · have := (List.pairwise_cons.mp ho).1 y hm
        omega
    rw [bandMsgs_cons_in hxb]
    rfl

theorem bandMsgs_last (ho : Ordered v l) (hb : ∀ x ∈ l, b ≤ (v x).rank)
    (hne : bandMsgs v b l ≠ []) : (bandMsgs v b l).getLast? = l.getLast? := by
  rcases List.eq_nil_or_concat l with rfl | ⟨l,x,rfl⟩
  · rfl
  · rw [List.concat_eq_append] at *
    obtain ⟨y,hy⟩ := List.exists_mem_of_ne_nil _ hne
    obtain ⟨hm,hi⟩ := List.mem_filter.mp hy
    have hxb : (v x).inBand b = true := by
      have hx := hb x (by simp)
      rw [Info.inBand_iff] at hi ⊢
      rcases List.mem_append.mp hm with hm | hm
      · have := (List.pairwise_append.mp ho).2.2 y hm x (by simp)
        omega
      · obtain rfl := List.mem_singleton.mp hm
        exact hi
    simp [bandMsgs_append,bandMsgs_cons_in hxb]

theorem Qband.Owns.head_mem (h : qp.Owns v l b) : ∃ x ∈ l, qp.qbFirst = some x ∧ (v x).inBand b = true := by
  obtain ⟨-,hne,⟨hf,-⟩⟩ := h
  cases hl : bandMsgs v b l with
  | nil => exact absurd hl hne
  | cons x t =>
    have hx : x ∈ bandMsgs v b l := hl ▸ List.mem_cons_self ..
    obtain ⟨hm,hi⟩ := List.mem_filter.mp hx
    exact ⟨x,hm,by rw [hf,hl]; rfl,hi⟩

theorem Qband.Owns.isBand (h : qp.Owns v l b) : qp.isBand v b' = true ↔ b = b' := by
  obtain ⟨x,-,hf,hi⟩ := h.head_mem
  simp only [Info.inBand,Bool.and_eq_true,beq_iff_eq] at hi
  simp [Qband.isBand,hf,hi.2]

theorem Qband.Free.isBand (h : qp.Free) : qp.isBand v b = false := by
  simp [Qband.isBand,h.1]

theorem Qband.Owns.first_ne (h : qp.Owns v l b) : qp.qbFirst.isNone = false := by
  obtain ⟨x,-,hf,-⟩ := h.head_mem
  simp [hf]

theorem Qband.Owns.unique (h : qp.Owns v l b) (h' : qp.Owns v l b') : b = b' :=
  h.isBand.mp (h'.isBand.mpr rfl)

/-- What a structure serves depends on the messages of its band alone. -/
theorem Qband.Owns.congr (h : qp.Owns v l b) (hm : bandMsgs v' b m = bandMsgs v b l)
    (hs : sizes v' (bandMsgs v b l) = sizes v (bandMsgs v b l)) : qp.Owns v' m b := by
  obtain ⟨hb,hne,⟨hf,hl,hc⟩⟩ := h
  exact ⟨hb,hm.symm ▸ hne,⟨hm.symm ▸ hf,hm.symm ▸ hl,by rw [hm,hs,hc]⟩⟩

theorem Banded.congr {B : Uchar → Prop} {qps : List (Qband P)} (h : Banded v B qps l)
    (hm : ∀ b, B b → b ≠ 0 → bandMsgs v' b m = bandMsgs v b l)
    (hs : ∀ b, B b → b ≠ 0 → sizes v' (bandMsgs v b l) = sizes v (bandMsgs v b l)) :
    Banded v' B qps m := by
  have hto : ∀ qp ∈ qps, ∀ b, qp.Owns v' m b → qp.Owns v l b := by
    intro qp hq b ho
    rcases h.each qp hq with hf | ⟨b',hB,ho'⟩
    · have hn := ho.first_ne
      simp [hf.1] at hn
    · have := (ho'.congr (hm b' hB ho'.1) (hs b' hB ho'.1)).unique ho
      exact this ▸ ho'
  refine ⟨fun qp hq => ?_,?_,fun b hB hb hne => ?_⟩
  · exact (h.each qp hq).imp_right fun ⟨b,hB,ho⟩ => ⟨b,hB,ho.congr (hm b hB ho.1) (hs b hB ho.1)⟩
  · exact h.distinct.imp_of_mem fun hp hq hd b hop hoq => hd b (hto _ hp b hop) (hto _ hq b hoq)
  · obtain ⟨qp,hq,ho⟩ := h.covered b hB hb (hm b hB hb ▸ hne)
    exact ⟨qp,hq,ho.congr (hm b hB hb) (hs b hB hb)⟩

end CSLiS.Queue
