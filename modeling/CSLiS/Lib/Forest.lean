import Mathlib.Logic.Relation
import Mathlib.Logic.Function.Basic
import Mathlib.Tactic

/-!
# Forests by the owner of each node

Every node has at most one owner. A forest is graded: an owner is above what it owns, so that nobody is below itself.
-/

namespace CSLiS.Lib.Forest

variable {α : Type*} {owner owner' : α → Option α} {x y h top : α}

def Graded (owner : α → Option α) : Prop := ∃ rank : α → ℕ, ∀ x h, owner x = some h → rank x < rank h

/-- `x` is `top`, or is owned by something below it. -/
def Below (owner : α → Option α) (x top : α) : Prop := Relation.ReflTransGen (fun a b => owner a = some b) x top

theorem Below.refl (owner : α → Option α) (x : α) : Below owner x x := Relation.ReflTransGen.refl

theorem Below.trans (h : Below owner x y) (h' : Below owner y top) : Below owner x top := Relation.ReflTransGen.trans h h'

theorem Below.owned (ho : owner x = some h) : Below owner x h := Relation.ReflTransGen.single ho

theorem Below.mono (hsub : ∀ x h, owner' x = some h → owner x = some h) (hb : Below owner' x top) :
    Below owner x top := Relation.ReflTransGen.mono hsub _ _ hb

theorem Below.cases (hb : Below owner x top) : x = top ∨ ∃ h, owner x = some h ∧ Below owner h top := by
  rcases Relation.ReflTransGen.cases_head hb with he | ⟨h,ho,hb'⟩
  · exact Or.inl he
  · exact Or.inr ⟨h,ho,hb'⟩

theorem Graded.mono (hsub : ∀ x h, owner' x = some h → owner x = some h) (hg : Graded owner) : Graded owner' := by
  obtain ⟨rank,hr⟩ := hg
  exact ⟨rank,fun x h ho => hr x h (hsub x h ho)⟩

theorem Graded.rank_le {rank : α → ℕ} (hr : ∀ x h, owner x = some h → rank x < rank h) (hb : Below owner x top) :
    rank x ≤ rank top := by
  induction hb with
  | refl => exact le_rfl
  | tail _ ho ih => exact ih.trans (hr _ _ ho).le

/- An owner is not below what it owns. -/
theorem Graded.not_below (hg : Graded owner) (ho : owner x = some h) : ¬Below owner h x := by
  obtain ⟨rank,hr⟩ := hg
  intro hb
  exact absurd (Graded.rank_le hr hb) (Nat.not_le.mpr (hr x h ho))

theorem Graded.ne (hg : Graded owner) (ho : owner x = some h) : x ≠ h := by
  rintro rfl
  exact hg.not_below ho (Below.refl ..)

/- Neither of two that have one owner is below the other. -/
theorem Graded.siblings (hg : Graded owner) (hx : owner x = some h) (hy : owner y = some h) (hne : x ≠ y) :
    ¬Below owner x y := by
  intro hb
  rcases hb.cases with he | ⟨k,hk,hb'⟩
  · exact hne he
  · obtain rfl := Option.some.inj (hx.symm.trans hk)
    exact hg.not_below hy hb'

variable [DecidableEq α]

/- A tree becomes one of the trees of another root. -/
theorem Graded.link (hg : Graded owner) (hne : x ≠ h) (hh : owner h = none) :
    Graded (Function.update owner x (some h)) := by
  obtain ⟨rank,hr⟩ := hg
  refine ⟨Function.update rank h (max (rank h) (rank x) + 1),fun y k hk => ?_⟩
  have hyh : y ≠ h := by
    rintro rfl
    rw [Function.update_of_ne hne.symm,hh] at hk
    cases hk
  rw [Function.update_of_ne hyh]
  by_cases hyx : y = x
  · subst hyx
    rw [Function.update_self] at hk
    obtain rfl := Option.some.inj hk
    rw [Function.update_self]
    omega
  · rw [Function.update_of_ne hyx] at hk
    have hlt := hr y k hk
    by_cases hkh : k = h
    · subst hkh
      rw [Function.update_self]
      omega
    · rw [Function.update_of_ne hkh]
      exact hlt

end CSLiS.Lib.Forest
