import Mathlib

/-!
# Singly linked lists

A link function over a type of addresses and the list of addresses that it leads through
from a first one. Pushing, popping and appending set the links that the lemmas name.
-/

namespace CSLiS.Lib

variable {α : Type*}

/-- From `o` the links lead through the list and end. -/
def Threaded (next : α → Option α) : Option α → List α → Prop
  | o, [] => o = none
  | o, a :: l => o = some a ∧ Threaded next (next a) l

/-- The links after `a` was put behind the last element of the list. -/
def relinkLast [DecidableEq α] (next : α → Option α) (l : List α) (a : α) (x : α) : Option α :=
  if l.getLast? = some x then some a else if x = a then none else next x

namespace Threaded

variable {next next' : α → Option α} {o : Option α} {l m : List α} {a : α}

theorem congr (hn : ∀ a ∈ l, next' a = next a) (h : Threaded next o l) : Threaded next' o l := by
  induction l generalizing o with
  | nil => exact h
  | cons a l ih =>
    obtain ⟨h1,h2⟩ := h
    refine ⟨h1,?_⟩
    rw [hn a (List.mem_cons_self ..)]
    exact ih (fun x hx => hn x (List.mem_cons_of_mem _ hx)) h2

theorem head (h : Threaded next o l) : o = l.head? := by
  cases l with
  | nil => exact h
  | cons a l => exact h.1

theorem unique (h : Threaded next o l) (h' : Threaded next o m) : l = m := by
  induction l generalizing o m with
  | nil =>
    cases m with
    | nil => rfl
    | cons b m => exact absurd (h.symm.trans h'.1) nofun
  | cons a l ih =>
    cases m with
    | nil => exact absurd (h'.symm.trans h.1) nofun
    | cons b m =>
      obtain rfl := Option.some.inj (h.1.symm.trans h'.1)
      rw [ih h.2 h'.2]

/- A link of an element to itself has no end. -/
theorem not_cycle (ha : next a = some a) (h : Threaded next (some a) l) : False := by
  induction l with
  | nil => cases h
  | cons b l ih =>
    obtain rfl := Option.some.inj h.1
    exact ih (ha ▸ h.2)

theorem suffix (h : Threaded next o (l ++ m)) : Threaded next m.head? m := by
  induction l generalizing o with
  | nil =>
    have h' : Threaded next o m := h
    exact h'.head ▸ h'
  | cons a l ih => exact ih h.2

/- Nothing is met twice on the way to an end. -/
theorem nodup (h : Threaded next o l) : l.Nodup := by
  induction l generalizing o with
  | nil => exact List.nodup_nil
  | cons a l ih =>
    refine List.nodup_cons.mpr ⟨fun ha => ?_,ih h.2⟩
    obtain ⟨k,m,rfl⟩ := List.append_of_mem ha
    have hself : Threaded next (some a) (a :: (k ++ a :: m)) := ⟨rfl,h.2⟩
    have hlen := congrArg List.length (hself.unique h.2.suffix)
    simp only [List.length_cons,List.length_append] at hlen
    omega

/-- The link to an element is led around it: that of the one before, or the first one. -/
theorem remove {o' : Option α} (h : Threaded next o (l ++ a :: m)) (hfirst : l = [] → o' = next a)
    (hrest : l ≠ [] → o' = o) (hlast : ∀ p, l.getLast? = some p → next' p = next a)
    (hn : ∀ x ∈ l ++ m, l.getLast? ≠ some x → next' x = next x) : Threaded next' o' (l ++ m) := by
  have hnd := h.nodup
  induction l generalizing o o' with
  | nil =>
    rw [hfirst rfl]
    exact h.2.congr fun x hx => hn x hx (by simp)
  | cons b l ih =>
    obtain ⟨hb,hnd'⟩ := List.nodup_cons.mp hnd
    refine ⟨(hrest (List.cons_ne_nil _ _)).trans h.1,ih h.2 (fun hl => ?_) (fun hl => ?_) (fun p hp => ?_)
      (fun x hx hp => ?_) hnd'⟩
    · exact hlast b (by rw [hl]; rfl)
    · refine hn b (List.mem_cons_self ..) fun hp => ?_
      rw [List.getLast?_cons,List.getLast?_eq_some_getLast hl,Option.getD_some,Option.some.injEq] at hp
      exact hb (List.mem_append_left _ (hp ▸ List.getLast_mem hl))
    · exact hlast p (by rw [List.getLast?_cons,hp,Option.getD_some])
    · refine hn x (List.mem_cons_of_mem _ hx) fun hc => ?_
      cases l with
      | nil =>
        obtain rfl := Option.some.inj hc
        exact hb (List.mem_cons_of_mem _ hx)
      | cons c l =>
        rw [List.getLast?_cons_cons] at hc
        exact hp hc

variable [DecidableEq α]

theorem push (ha : a ∉ l) (h : Threaded next o l) :
    Threaded (Function.update next a o) (some a) (a :: l) := by
  refine ⟨rfl,?_⟩
  rw [Function.update_self]
  refine h.congr fun x hx => Function.update_of_ne ?_ ..
  rintro rfl
  exact ha hx

theorem pop (ha : a ∉ l) (h : Threaded next o (a :: l)) : Threaded (Function.update next a none) (next a) l := by
  refine h.2.congr fun x hx => Function.update_of_ne ?_ ..
  rintro rfl
  exact ha hx

theorem append (ha : a ∉ l) (hnd : l.Nodup) (h : Threaded next o l) :
    Threaded (relinkLast next l a) (l.head?.or (some a)) (l ++ [a]) := by
  induction l generalizing o with
  | nil => exact ⟨rfl,by simp [relinkLast,Threaded]⟩
  | cons b l ih =>
    simp only [List.mem_cons,not_or] at ha
    obtain ⟨hbl,hl⟩ := List.nodup_cons.mp hnd
    refine ⟨rfl,?_⟩
    cases l with
    | nil => exact ⟨by simp [relinkLast],by simp [relinkLast,Ne.symm ha.1,Threaded]⟩
    | cons c l =>
      have hlast : (c :: l).getLast? ≠ some b := fun he => hbl (List.mem_of_getLast? he)
      have hb : relinkLast next (b :: c :: l) a b = some c := by
        simp only [relinkLast,List.getLast?_cons_cons,if_neg hlast,if_neg (Ne.symm ha.1)]
        exact h.2.1
      have hrest : relinkLast next (b :: c :: l) a = relinkLast next (c :: l) a := by
        funext x
        simp only [relinkLast,List.getLast?_cons_cons]
      rw [hb,hrest]
      exact ih ha.2 hl h.2

end Threaded

end CSLiS.Lib
