import Mathlib

/-!
# Counting references

Handles refer to at most one object each. How many live handles refer to an
object, and how that changes when a handle is dropped or redirected.
-/

namespace CSLiS.Lib.Refs

variable {H X : Type*} [DecidableEq H] [DecidableEq X] {f : H → Option X} {live : List H} {h : H}
  {x : X} {y : Option X}

def refs (f : H → Option X) (live : List H) (x : X) : ℕ :=
  live.countP fun h => decide (f h = some x)

omit [DecidableEq H] in
@[simp] theorem refs_nil : refs f [] x = 0 := rfl

omit [DecidableEq H] in
theorem refs_cons : refs f (h :: live) x = refs f live x + if f h = some x then 1 else 0 := by
  simp [refs,List.countP_cons]

omit [DecidableEq H] in
theorem refs_congr {f' : H → Option X} (he : ∀ h ∈ live, f' h = f h) :
    refs f' live x = refs f live x :=
  List.countP_congr fun h hm => by rw [he h hm]

omit [DecidableEq H] in
theorem refs_pos_iff : 0 < refs f live x ↔ ∃ h ∈ live, f h = some x := by
  simp [refs,List.countP_pos_iff]

omit [DecidableEq H] in
theorem refs_zero_iff : refs f live x = 0 ↔ ∀ h ∈ live, f h ≠ some x := by
  simp [refs,List.countP_eq_zero]

/-- A live handle is dropped. -/
theorem refs_erase (hm : h ∈ live) :
    refs f live x = refs f (live.erase h) x + if f h = some x then 1 else 0 := by
  rw [← refs_cons]
  exact (List.perm_cons_erase hm).countP_eq _

/-- A live handle is redirected. -/
theorem refs_update (hm : h ∈ live) (hn : live.Nodup) :
    refs (Function.update f h y) live x + (if f h = some x then 1 else 0) =
      refs f live x + if y = some x then 1 else 0 := by
  have hrest : refs (Function.update f h y) (live.erase h) x = refs f (live.erase h) x := by
    refine refs_congr fun h' hm' => ?_
    rw [Function.update_of_ne]
    rintro rfl
    exact hn.not_mem_erase hm'
  rw [refs_erase hm,refs_erase hm,hrest,Function.update_self]
  omega

end CSLiS.Lib.Refs
