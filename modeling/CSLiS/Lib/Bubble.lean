import Mathlib

/-!
# Bubble sort of a linked list

A pass walks the list once and exchanges neighbours that are out of order; it
also says whether there were none. Passes are made until one finds none. Each
exchange takes one inversion away, so that `n ^ 2 + 1` passes are enough.
-/

namespace CSLiS.Lib.Bubble

variable {α : Type*} (key : α → ℤ)

/-- A pass that stands on `a`, with the rest of the list before it. -/
def carry : α → List α → List α × Bool
  | a, [] => ([a], true)
  | a, b :: l =>
      if key b < key a then (b :: (carry a l).1, false)
      else (a :: (carry b l).1, (carry b l).2)

/-- One pass: the list after it, and whether nothing was exchanged. -/
def pass : List α → List α × Bool
  | [] => ([], true)
  | a :: l => carry key a l

/-- Passes until one is done, `none` when `fuel` of them are not enough. -/
def passes : ℕ → List α → Option (List α)
  | 0, _ => none
  | fuel + 1, l => if (pass key l).2 then some (pass key l).1 else passes fuel (pass key l).1

/-- The number of pairs that are out of order. -/
def inversions : List α → ℕ
  | [] => 0
  | a :: l => l.countP (fun b => key b < key a) + inversions l

variable {key}

theorem carry_swap {a b : α} (l : List α) (h : key b < key a) :
    carry key a (b :: l) = (b :: (carry key a l).1, false) := if_pos h

theorem carry_keep {a b : α} (l : List α) (h : ¬ key b < key a) :
    carry key a (b :: l) = (a :: (carry key b l).1, (carry key b l).2) := if_neg h

theorem carry_perm (a : α) (l : List α) : (carry key a l).1.Perm (a :: l) := by
  induction l generalizing a with
  | nil => exact .refl _
  | cons b l ih =>
    by_cases h : key b < key a
    · rw [carry_swap l h]
      exact ((ih a).cons b).trans (.swap a b l)
    · rw [carry_keep l h]
      exact (ih b).cons a

theorem pass_perm (l : List α) : (pass key l).1.Perm l := by
  cases l with
  | nil => exact .refl _
  | cons a l => exact carry_perm a l

theorem carry_done (a : α) (l : List α) (h : (carry key a l).2 = true) :
    (carry key a l).1 = a :: l ∧ (a :: l).Pairwise fun x y => key x ≤ key y := by
  induction l generalizing a with
  | nil => exact ⟨rfl, List.pairwise_singleton _ _⟩
  | cons b l ih =>
    by_cases hlt : key b < key a
    · simp [carry_swap l hlt] at h
    · rw [carry_keep l hlt] at h ⊢
      obtain ⟨heq, hs⟩ := ih b h
      refine ⟨by rw [heq], List.pairwise_cons.mpr ⟨fun x hx => ?_, hs⟩⟩
      have hab : key a ≤ key b := not_lt.mp hlt
      rcases List.mem_cons.mp hx with rfl | hx
      · exact hab
      · exact hab.trans (List.rel_of_pairwise_cons hs hx)

/-- A pass that exchanges nothing has found the list sorted. -/
theorem pass_done (l : List α) (h : (pass key l).2 = true) :
    (pass key l).1 = l ∧ l.Pairwise fun x y => key x ≤ key y := by
  cases l with
  | nil => exact ⟨rfl, .nil⟩
  | cons a l => exact carry_done a l h

theorem inversions_carry (a : α) (l : List α) :
    inversions key (carry key a l).1 ≤ inversions key (a :: l) ∧
      ((carry key a l).2 = false → inversions key (carry key a l).1 < inversions key (a :: l)) := by
  induction l generalizing a with
  | nil => exact ⟨le_rfl, fun h => by simp [carry] at h⟩
  | cons b l ih =>
    by_cases hlt : key b < key a
    · -- the pair is put in order, the others stand as before
      have hcount := (carry_perm a l : (carry key a l).1.Perm _).countP_eq fun x => decide (key x < key b)
      have hle : ¬ key a < key b := not_lt.mpr hlt.le
      have hi := (ih a).1
      rw [carry_swap l hlt]
      simp only [inversions, hcount, List.countP_cons, hlt, hle, decide_true, decide_false, if_true,
        Bool.false_eq_true, if_false] at hi ⊢
      omega
    · have hcount := (carry_perm b l : (carry key b l).1.Perm _).countP_eq fun x => decide (key x < key a)
      have hi := ih b
      rw [carry_keep l hlt]
      simp only [inversions, hcount] at hi ⊢
      exact ⟨by omega, fun h => by have := hi.2 h; omega⟩

theorem inversions_pass (l : List α) (h : (pass key l).2 = false) :
    inversions key (pass key l).1 < inversions key l := by
  cases l with
  | nil => cases h
  | cons a l => exact (inversions_carry a l).2 h

theorem inversions_le (l : List α) : inversions key l ≤ l.length ^ 2 := by
  induction l with
  | nil => simp [inversions]
  | cons a l ih =>
    have hc : l.countP (fun b => key b < key a) ≤ l.length := List.countP_le_length
    simp only [inversions, List.length_cons]
    nlinarith

theorem passes_sorts (fuel : ℕ) (l : List α) (h : inversions key l < fuel) :
    ∃ r, passes key fuel l = some r ∧ r.Perm l ∧ r.Pairwise fun a b => key a ≤ key b := by
  induction fuel generalizing l with
  | zero => omega
  | succ fuel ih =>
    rw [passes]
    cases hd : (pass key l).2 with
    | true =>
      obtain ⟨heq, hs⟩ := pass_done l hd
      exact ⟨_, if_pos rfl, pass_perm l, heq.symm ▸ hs⟩
    | false =>
      have hlt := inversions_pass l hd
      obtain ⟨r, hr, hp, hs⟩ := ih (pass key l).1 (by omega)
      exact ⟨r, hr, hp.trans (pass_perm l), hs⟩

/-- The square of the length bounds the number of passes. -/
theorem passes_length (l : List α) :
    ∃ r, passes key (l.length ^ 2 + 1) l = some r ∧ r.Perm l ∧ r.Pairwise fun a b => key a ≤ key b :=
  passes_sorts _ l (Nat.lt_succ_of_le (inversions_le l))

end CSLiS.Lib.Bubble
