import Mathlib

/-!
# Doubly linked lists

Two link functions over a type of addresses, and the list of addresses that
they connect. The rules say which links an insertion and a removal have to set;
every other link is left as it was.
-/

namespace CSLiS.Lib

variable {α : Type*}

/-- The addresses of the list are linked forwards by `next` and backwards by
`prev`. The first one is linked back to `p`, the last one forwards to `n`. -/
def Linked (next prev : α → Option α) : Option α → List α → Option α → Prop
  | _, [], _ => True
  | p, a :: l, n => prev a = p ∧ next a = l.head?.or n ∧ Linked next prev (some a) l n

/-- The links after the one out of `o`, if there is such an element, was set to `y`. -/
def relink [DecidableEq α] (f : α → Option α) (o y : Option α) : α → Option α :=
  match o with
  | none => f
  | some x => Function.update f x y

namespace Linked

variable {next prev next' prev' : α → Option α} {p p' n n' : Option α} {l m : List α} {a : α}

theorem congr (hn : ∀ a ∈ l, next' a = next a) (hp : ∀ a ∈ l, prev' a = prev a)
    (h : Linked next prev p l n) : Linked next' prev' p l n := by
  induction l generalizing p with
  | nil => trivial
  | cons a l ih =>
    obtain ⟨h1,h2,h3⟩ := h
    refine ⟨(hp a (List.mem_cons_self ..)).trans h1,(hn a (List.mem_cons_self ..)).trans h2,?_⟩
    exact ih (fun x hx => hn x (List.mem_cons_of_mem _ hx))
      (fun x hx => hp x (List.mem_cons_of_mem _ hx)) h3

theorem getLast?_cons_or (a : α) (l : List α) (p : Option α) :
    (a :: l).getLast?.or p = l.getLast?.or (some a) := by
  cases l with
  | nil => rfl
  | cons b l =>
    rw [List.getLast?_cons_cons]
    cases h : (b :: l).getLast? with
    | none => simp at h
    | some c => rfl

theorem append : Linked next prev p (l ++ m) n ↔
    Linked next prev p l (m.head?.or n) ∧ Linked next prev (l.getLast?.or p) m n := by
  induction l generalizing p with
  | nil => simp [Linked]
  | cons a l ih =>
    rw [getLast?_cons_or]
    simp only [List.cons_append,Linked,ih,List.head?_append,Option.or_assoc]
    tauto

/-- Setting the forward link of the last element. -/
theorem relinkLast (hnd : l.Nodup) (hp : ∀ x ∈ l, prev' x = prev x)
    (hn : ∀ x ∈ l, l.getLast? ≠ some x → next' x = next x)
    (hl : ∀ x, l.getLast? = some x → next' x = n')
    (h : Linked next prev p l n) : Linked next' prev' p l n' := by
  induction l generalizing p with
  | nil => trivial
  | cons a l ih =>
    obtain ⟨h1,h2,h3⟩ := h
    refine ⟨(hp a (List.mem_cons_self ..)).trans h1,?_,?_⟩
    · cases l with
      | nil => exact hl a rfl
      | cons b l =>
        have hne : (a :: b :: l).getLast? ≠ some a := by
          intro he
          rw [List.getLast?_cons_cons] at he
          exact (List.nodup_cons.mp hnd).1 (List.mem_of_getLast? he)
        exact (hn a (List.mem_cons_self ..) hne).trans h2
    · cases l with
      | nil => trivial
      | cons b l =>
        rw [List.getLast?_cons_cons] at hn hl
        exact ih (List.nodup_cons.mp hnd).2 (fun x hx => hp x (List.mem_cons_of_mem _ hx))
          (fun x hx => hn x (List.mem_cons_of_mem _ hx)) hl h3

/-- Setting the backward link of the first element. -/
theorem relinkHead (hnd : l.Nodup) (hn : ∀ x ∈ l, next' x = next x)
    (hp : ∀ x ∈ l, l.head? ≠ some x → prev' x = prev x)
    (hh : ∀ x, l.head? = some x → prev' x = p')
    (h : Linked next prev p l n) : Linked next' prev' p' l n := by
  cases l with
  | nil => trivial
  | cons a l =>
    obtain ⟨h1,h2,h3⟩ := h
    refine ⟨hh a rfl,(hn a (List.mem_cons_self ..)).trans h2,?_⟩
    refine h3.congr (fun x hx => hn x (List.mem_cons_of_mem _ hx)) (fun x hx => ?_)
    refine hp x (List.mem_cons_of_mem _ hx) fun he => ?_
    rw [List.head?_cons,Option.some.injEq] at he
    exact (List.nodup_cons.mp hnd).1 (he ▸ hx)

theorem getLast?_mem_ne (hnd : (l ++ m).Nodup) {x : α} (hx : x ∈ m) : l.getLast? ≠ some x :=
  fun h => (List.nodup_append.mp hnd).2.2 x (List.mem_of_getLast? h) x hx rfl

theorem head?_mem_ne (hnd : (l ++ m).Nodup) {x : α} (hx : x ∈ l) : m.head? ≠ some x :=
  fun h => (List.nodup_append.mp hnd).2.2 x hx x (List.mem_of_head? h) rfl

section Update
variable [DecidableEq α]

/- The first and the last element when one is removed. -/
theorem head?_remove (ha : a ∉ l ++ m) :
    (if (l ++ a :: m).head? = some a then m.head? else (l ++ a :: m).head?) = (l ++ m).head? := by
  cases l with
  | nil => simp
  | cons b l =>
    have hne : b ≠ a := fun h => ha (h ▸ List.mem_cons_self ..)
    simp [hne]

theorem getLast?_remove (ha : a ∉ l ++ m) :
    (if (l ++ a :: m).getLast? = some a then l.getLast? else (l ++ a :: m).getLast?) = (l ++ m).getLast? := by
  rcases List.eq_nil_or_concat m with rfl | ⟨n,b,rfl⟩
  · simp
  · have hne : b ≠ a := by
      rintro rfl
      exact ha (List.mem_append_right _ (by simp))
    rw [List.concat_eq_append,← List.cons_append,← List.append_assoc,← List.append_assoc,List.getLast?_concat,
      List.getLast?_concat,if_neg fun h => hne (Option.some.inj h)]

theorem relink_self {f : α → Option α} {o y : Option α} {x : α} (h : o = some x) :
    relink f o y x = y := by
  subst h
  exact Function.update_self ..

theorem relink_of_ne {f : α → Option α} {o y : Option α} {x : α} (h : o ≠ some x) :
    relink f o y x = f x := by
  cases o with
  | none => rfl
  | some z => exact Function.update_of_ne (fun he => h (congrArg some he.symm)) ..

/-- An insertion sets the two links of the new element and one link of each
neighbour. -/
theorem insert (hnd : (l ++ m).Nodup) (ha : a ∉ l ++ m)
    (h : Linked next prev none (l ++ m) none) :
    Linked (Function.update (relink next l.getLast? (some a)) a m.head?)
      (Function.update (relink prev m.head? (some a)) a l.getLast?) none (l ++ a :: m) none := by
  obtain ⟨hl,hm⟩ := append.mp h
  obtain ⟨hndl,hndm,_⟩ := List.nodup_append.mp hnd
  have hal : ∀ x ∈ l, x ≠ a := fun x hx he => ha (he ▸ List.mem_append_left _ hx)
  have ham : ∀ x ∈ m, x ≠ a := fun x hx he => ha (he ▸ List.mem_append_right _ hx)
  refine append.mpr ⟨relinkLast hndl ?_ ?_ ?_ hl,?_,?_,?_⟩
  · intro x hx
    rw [Function.update_of_ne (hal x hx),relink_of_ne (head?_mem_ne hnd hx)]
  · intro x hx hne
    rw [Function.update_of_ne (hal x hx),relink_of_ne hne]
  · intro x hx
    rw [Function.update_of_ne (hal x (List.mem_of_getLast? hx)),relink_self hx]
    rfl
  · rw [Function.update_self,Option.or_none]
  · rw [Function.update_self,Option.or_none]
  · refine relinkHead hndm ?_ ?_ ?_ hm
    · intro x hx
      rw [Function.update_of_ne (ham x hx),relink_of_ne (getLast?_mem_ne hnd hx)]
    · intro x hx hne
      rw [Function.update_of_ne (ham x hx),relink_of_ne hne]
    · intro x hx
      rw [Function.update_of_ne (ham x (List.mem_of_head? hx)),relink_self hx]

/-- A removal sets one link of each neighbour, and clears the links of the
element. -/
theorem remove (hnd : (l ++ a :: m).Nodup) (h : Linked next prev none (l ++ a :: m) none) :
    Linked (Function.update (relink next l.getLast? m.head?) a none)
      (Function.update (relink prev m.head? l.getLast?) a none) none (l ++ m) none := by
  obtain ⟨hl,_,_,hm⟩ := append.mp h
  obtain ⟨ha,hndlm⟩ := List.nodup_cons.mp (List.nodup_middle.mp hnd)
  obtain ⟨hndl,hndm,_⟩ := List.nodup_append.mp hndlm
  have hal : ∀ x ∈ l, x ≠ a := fun x hx he => ha (he ▸ List.mem_append_left _ hx)
  have ham : ∀ x ∈ m, x ≠ a := fun x hx he => ha (he ▸ List.mem_append_right _ hx)
  refine append.mpr ⟨relinkLast hndl ?_ ?_ ?_ hl,relinkHead hndm ?_ ?_ ?_ hm⟩
  · intro x hx
    rw [Function.update_of_ne (hal x hx),relink_of_ne (head?_mem_ne hndlm hx)]
  · intro x hx hne
    rw [Function.update_of_ne (hal x hx),relink_of_ne hne]
  · intro x hx
    rw [Function.update_of_ne (hal x (List.mem_of_getLast? hx)),relink_self hx,Option.or_none]
  · intro x hx
    rw [Function.update_of_ne (ham x hx),relink_of_ne (getLast?_mem_ne hndlm hx)]
  · intro x hx hne
    rw [Function.update_of_ne (ham x hx),relink_of_ne hne]
  · intro x hx
    rw [Function.update_of_ne (ham x (List.mem_of_head? hx)),relink_self hx,Option.or_none]

end Update

/-- The links of a linked list lead through it element by element. -/
theorem next_eq (h : Linked next prev p (l ++ a :: m) n) : next a = m.head?.or n :=
  (append.mp h).2.2.1

theorem prev_eq (h : Linked next prev p (l ++ a :: m) n) : prev a = l.getLast?.or p :=
  (append.mp h).2.1

end Linked

end CSLiS.Lib
