import Mathlib
import CSLiS.Queue.Upkeep

/-!
# The place of a message in a list of messages (head/queue.c)

`find_q_spot_head` and `find_q_spot_tail` on the list of the messages of a
queue: the list is split, and the message goes between the two parts.
-/

namespace CSLiS.Queue

variable {P : Type}

/-- The loops over the high-priority messages and then over bands that pass the test. -/
def skipBands (v : P → Info) (t : Uchar → Bool) (l : List P) : List P × List P :=
  let hi := l.takeWhile fun p => (v p).hipri
  let rest := l.dropWhile fun p => (v p).hipri
  (hi ++ rest.takeWhile fun p => t (v p).bBand,rest.dropWhile fun p => t (v p).bBand)

/-- `find_q_spot_head` (`queue.c:534-576`) for a message `i`. -/
def headSplit (v : P → Info) (l : List P) (i : Info) : List P × List P :=
  match l.head? with
  | none => ([],[])
  | some firstp =>
      if i.hipri then ([],l)
      else if !(v firstp).hipri && (v firstp).bBand ≤ i.bBand then ([],l)
      else skipBands v (fun b => i.bBand < b) l

/-- `find_q_spot_tail` (`queue.c:578-631`) for a message `i`. -/
def tailSplit (v : P → Info) (l : List P) (i : Info) : List P × List P :=
  match l.getLast? with
  | none => ([],[])
  | some lastp =>
      if (v lastp).hipri then (l,[])
      else if !i.hipri && i.bBand ≤ (v lastp).bBand then (l,[])
      else if i.hipri then
        (l.takeWhile fun p => (v p).hipri,l.dropWhile fun p => (v p).hipri)
      else skipBands v (fun b => i.bBand ≤ b) l

variable {v : P → Info} {l : List P} {i : Info} {t : Uchar → Bool}

theorem skipBands_append : (skipBands v t l).1 ++ (skipBands v t l).2 = l := by
  simp [skipBands,List.append_assoc,List.takeWhile_append_dropWhile]

theorem headSplit_append : (headSplit v l i).1 ++ (headSplit v l i).2 = l := by
  unfold headSplit
  split
  · next h => rw [List.head?_eq_none_iff.mp h]; rfl
  · split_ifs
    · rfl
    · rfl
    · exact skipBands_append

theorem tailSplit_append : (tailSplit v l i).1 ++ (tailSplit v l i).2 = l := by
  unfold tailSplit
  split
  · next h => rw [List.getLast?_eq_none_iff.mp h]; rfl
  · split_ifs
    · exact List.append_nil l
    · exact List.append_nil l
    · exact List.takeWhile_append_dropWhile
    · exact skipBands_append

theorem rank_hipri (h : i.hipri = true) : i.rank = 256 := by simp [Info.rank,h]
theorem rank_ordinary (h : i.hipri = false) : i.rank = i.bBand := by simp [Info.rank,h]

theorem ordered_hipri (ho : Ordered v l) :
    ∀ x ∈ l.dropWhile fun p => (v p).hipri, (v x).hipri = false := by
  refine ho.dropWhile fun x _ y _ hr hy => ?_
  by_contra hx
  rw [Bool.not_eq_true] at hx
  rw [rank_hipri hy,rank_ordinary hx] at hr
  have := (v x).bBand.isLt
  omega

/- In a queue in order, a test that holds for the higher bands ends the search
with every message of a lower band behind the place. -/
theorem skipBands_spec (ho : Ordered v l) (ht : ∀ a b, b ≤ a → t b = true → t a = true) :
    (∀ x ∈ (skipBands v t l).1, (v x).hipri = true ∨ t (v x).bBand = true) ∧
      ∀ x ∈ (skipBands v t l).2, (v x).hipri = false ∧ t (v x).bBand = false := by
  have hord := ordered_hipri ho
  have hs : Ordered v (l.dropWhile fun p => (v p).hipri) := ho.sublist (List.dropWhile_sublist _)
  have hlow := hs.dropWhile (t := fun p => t (v p).bBand) fun x hx y hy hr hty => by
    rw [rank_ordinary (hord x hx),rank_ordinary (hord y hy)] at hr
    exact ht _ _ hr hty
  constructor
  · intro x hx
    rcases List.mem_append.mp hx with hx | hx
    · exact .inl (List.mem_takeWhile_imp (p := fun p => (v p).hipri) hx)
    · exact .inr (List.mem_takeWhile_imp (p := fun p => t (v p).bBand) hx)
  · exact fun x hx => ⟨hord x ((List.dropWhile_sublist _).subset hx),hlow x hx⟩

theorem behind_rank {j : Info} (hi : i.hipri = false) (hj : j.hipri = false → i.bBand ≤ j.bBand) :
    i.rank ≤ j.rank := by
  cases hh : j.hipri with
  | true => exact rank_hipri hh ▸ Info.rank_le i
  | false =>
    rw [rank_ordinary hi,rank_ordinary hh]
    exact hj hh

/- Both places lie behind messages of at least, before messages of at most the
rank of the new one. -/
theorem tailSplit_spec (ho : Ordered v l) :
    (∀ x ∈ (tailSplit v l i).1, i.rank ≤ (v x).rank) ∧
      ∀ x ∈ (tailSplit v l i).2, (v x).rank ≤ i.rank := by
  unfold tailSplit
  split
  · exact ⟨by simp,by simp⟩
  · next lastp hl =>
    have hlast : ∀ x ∈ l, (v lastp).rank ≤ (v x).rank := by
      obtain ⟨k,rfl⟩ := List.getLast?_eq_some_iff.mp hl
      intro x hx
      rcases List.mem_append.mp hx with hx | hx
      · exact (List.pairwise_append.mp ho).2.2 x hx lastp (by simp)
      · rw [List.mem_singleton.mp hx]
    split_ifs with h1 h2 h3
    · refine ⟨fun x hx => ?_,by simp⟩
      exact (Info.rank_le i).trans (rank_hipri h1 ▸ hlast x hx)
    · simp only [Bool.and_eq_true,Bool.not_eq_true',decide_eq_true_eq] at h2
      refine ⟨fun x hx => le_trans ?_ (hlast x hx),by simp⟩
      exact behind_rank h2.1 fun _ => h2.2
    · refine ⟨fun x hx => ?_,fun x _ => rank_hipri h3 ▸ Info.rank_le (v x)⟩
      have hx := List.mem_takeWhile_imp (p := fun p => (v p).hipri) hx
      exact rank_hipri hx ▸ Info.rank_le i
    · have hi : i.hipri = false := by simpa using h3
      obtain ⟨hk,hm⟩ := skipBands_spec (t := fun b => i.bBand ≤ b) ho
        fun a b hab hb => by simpa using le_trans (by simpa using hb) hab
      constructor
      · intro x hx
        refine behind_rank hi fun hxo => ?_
        simpa [hxo] using hk x hx
      · intro x hx
        obtain ⟨hxo,hxb⟩ := hm x hx
        rw [rank_ordinary hi,rank_ordinary hxo]
        exact le_of_lt (by simpa using hxb)

theorem headSplit_spec (ho : Ordered v l) :
    (∀ x ∈ (headSplit v l i).1, i.rank ≤ (v x).rank) ∧
      ∀ x ∈ (headSplit v l i).2, (v x).rank ≤ i.rank := by
  unfold headSplit
  split
  · exact ⟨by simp,by simp⟩
  · next firstp hf =>
    have hfirst : ∀ x ∈ l, (v x).rank ≤ (v firstp).rank := by
      obtain ⟨k,rfl⟩ := List.head?_eq_some_iff.mp hf
      intro x hx
      rcases List.mem_cons.mp hx with rfl | hx
      · exact le_rfl
      · exact (List.pairwise_cons.mp ho).1 x hx
    split_ifs with h1 h2
    · exact ⟨by simp,fun x _ => rank_hipri h1 ▸ Info.rank_le (v x)⟩
    · simp only [Bool.and_eq_true,Bool.not_eq_true',decide_eq_true_eq] at h2
      refine ⟨by simp,fun x hx => (hfirst x hx).trans ?_⟩
      rw [rank_ordinary h2.1,rank_ordinary (by simpa using h1)]
      exact h2.2
    · have hi : i.hipri = false := by simpa using h1
      obtain ⟨hk,hm⟩ := skipBands_spec (t := fun b => i.bBand < b) ho
        fun a b hab hb => by simpa using lt_of_lt_of_le (by simpa using hb) hab
      constructor
      · intro x hx
        refine behind_rank hi fun hxo => le_of_lt ?_
        simpa [hxo] using hk x hx
      · intro x hx
        obtain ⟨hxo,hxb⟩ := hm x hx
        rw [rank_ordinary hi,rank_ordinary hxo]
        simpa using hxb

end CSLiS.Queue
