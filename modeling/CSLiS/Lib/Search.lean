import CSLiS.Lib.Split
import CSLiS.Lib.Threaded

/-!
# Searching a linked list

A walk along the links that stops at the first element which passes a test and says which one was before it. Reading
an element may fail. On a list that is threaded the walk finds what `splitFirst` finds.
-/

namespace CSLiS.Lib
open CSLiS.Lib.Split

variable {α : Type*}

/-- `read` gives the result of the test and the link, if the element can be read. -/
def search (read : α → Option (Bool × Option α)) : ℕ → Option α → Option α → Option (Option (Option α × α))
  | 0, _, _ => none
  | _ + 1, none, _ => some none
  | n + 1, some a, prev =>
      (read a).bind fun r => if r.1 then some (some (prev,a)) else search read n r.2 (some a)

variable {read : α → Option (Bool × Option α)} {next : α → Option α} {p : α → Bool} {o prev : Option α} {l : List α}
  {n : ℕ}

theorem search_threaded (h : Threaded next o l) (hr : ∀ a ∈ l, read a = some (p a,next a)) (hn : l.length < n) :
    search read n o prev = some ((splitFirst p l).map fun s => (s.1.getLast?.or prev,s.2.1)) := by
  induction l generalizing n o prev with
  | nil =>
    obtain ⟨n,rfl⟩ := Nat.exists_eq_succ_of_ne_zero (Nat.ne_of_gt hn)
    have ho : o = none := h
    rw [ho]
    rfl
  | cons a l ih =>
    obtain ⟨n,rfl⟩ := Nat.exists_eq_succ_of_ne_zero (Nat.ne_of_gt (Nat.zero_lt_of_lt hn))
    obtain ⟨rfl,ht⟩ := h
    rw [search,hr a (List.mem_cons_self ..),Option.bind_some]
    cases hp : p a with
    | true => simp [splitFirst,hp]
    | false =>
      simp only [Bool.false_eq_true,if_false]
      rw [ih ht (fun x hx => hr x (List.mem_cons_of_mem _ hx)) (by rw [List.length_cons] at hn; omega)]
      simp only [splitFirst,hp,Bool.false_eq_true,if_false]
      cases hs : splitFirst p l with
      | none => rfl
      | some s =>
        rw [Option.map_some,Option.map_some,Option.map_some,List.getLast?_cons]
        cases s.1.getLast? <;> rfl

end CSLiS.Lib
