import Mathlib

/-!
# Runs of a partial step function

A system is a step function `step : σ → α → Option σ`: an action is taken in a
state, or is not possible there. A run is a list of actions. `Meets` says that
every action of a run satisfies a condition in the state in which it is taken.
-/

namespace CSLiS.Lib.Exec

variable {σ τ α : Type*}

/-- The state after a list of actions, when each of them is possible. -/
def exec (step : σ → α → Option σ) : σ → List α → Option σ
  | s, [] => some s
  | s, a :: as => (step s a).bind fun t => exec step t as

/-- Every action of the run satisfies `cond` in the state where it is taken. -/
def Meets (step : σ → α → Option σ) (cond : σ → α → Prop) : σ → List α → Prop
  | _, [] => True
  | s, a :: as => cond s a ∧ ∀ t, step s a = some t → Meets step cond t as

instance Meets.decidable (step : σ → α → Option σ) (cond : σ → α → Prop)
    [∀ s a, Decidable (cond s a)] : ∀ s as, Decidable (Meets step cond s as)
  | _, [] => inferInstanceAs (Decidable True)
  | s, a :: as =>
      match h : step s a with
      | none => decidable_of_iff (cond s a) (by simp [Meets, h])
      | some t =>
          have := Meets.decidable step cond t as
          decidable_of_iff (cond s a ∧ Meets step cond t as) (by simp [Meets, h])

variable {step : σ → α → Option σ} {cond : σ → α → Prop}

@[simp] theorem exec_nil (s : σ) : exec step s [] = some s := rfl

theorem exec_cons (s : σ) (a : α) (as : List α) :
    exec step s (a :: as) = (step s a).bind fun t => exec step t as := rfl

theorem exec_cons_eq_some {s t : σ} {a : α} {as : List α}
    (h : exec step s (a :: as) = some t) :
    ∃ u, step s a = some u ∧ exec step u as = some t :=
  Option.bind_eq_some_iff.mp h

theorem exec_append (s : σ) (as bs : List α) :
    exec step s (as ++ bs) = (exec step s as).bind fun t => exec step t bs := by
  induction as generalizing s with
  | nil => rfl
  | cons a as ih =>
    simp only [List.cons_append, exec_cons, Option.bind_assoc]
    exact congrArg _ (funext ih)

/-- The run rule: what every step that meets the condition preserves holds
after every run whose steps all meet it. -/
theorem exec_preserves {I : σ → Prop}
    (hstep : ∀ s a t, I s → cond s a → step s a = some t → I t)
    {s t : σ} {as : List α} (hs : I s) (hm : Meets step cond s as)
    (h : exec step s as = some t) : I t := by
  induction as generalizing s with
  | nil => exact Option.some.inj h ▸ hs
  | cons a as ih =>
    obtain ⟨u, hu, hr⟩ := exec_cons_eq_some h
    exact ih (hstep s a u hs hm.1 hu) (hm.2 u hu) hr

theorem meets_of_forall {s : σ} {as : List α} (h : ∀ a ∈ as, ∀ s, cond s a) : Meets step cond s as := by
  induction as generalizing s with
  | nil => trivial
  | cons a as ih =>
    exact ⟨h a (List.mem_cons_self ..) s, fun _ _ => ih fun b hb => h b (List.mem_cons_of_mem _ hb)⟩

/-- The run rule without a condition on the steps. -/
theorem exec_invariant {I : σ → Prop}
    (hstep : ∀ s a t, I s → step s a = some t → I t)
    {s t : σ} {as : List α} (hs : I s) (h : exec step s as = some t) : I t := by
  induction as generalizing s with
  | nil => exact Option.some.inj h ▸ hs
  | cons a as ih =>
    obtain ⟨u, hu, hr⟩ := exec_cons_eq_some h
    exact ih (hstep s a u hs hu) hr

/-- A run keeps `S` exactly when its steps meet the condition, if each step
does; `I` is what holds anyway. -/
theorem exec_keeps_iff {I S : σ → Prop}
    (hstep : ∀ s a t, I s → step s a = some t → I t ∧ (S t ↔ S s ∧ cond s a))
    {s t : σ} {as : List α} (hs : I s) (h : exec step s as = some t) :
    S t ↔ S s ∧ Meets step cond s as := by
  induction as generalizing s with
  | nil => exact Option.some.inj h ▸ (and_iff_left trivial).symm
  | cons a as ih =>
    obtain ⟨u, hu, hr⟩ := exec_cons_eq_some h
    obtain ⟨hiu, hsu⟩ := hstep s a u hs hu
    have hm : (∀ v, step s a = some v → Meets step cond v as) ↔ Meets step cond u as :=
      ⟨fun h => h u hu, fun h v hv => Option.some.inj (hu.symm.trans hv) ▸ h⟩
    rw [ih hiu hr, hsu, Meets, hm, and_assoc]

/-- Two conditions on the steps say the same of a run, if they do in every
state that is reached under the first one. -/
theorem meets_congr {I : σ → Prop} {cond' : σ → α → Prop}
    (hstep : ∀ s a t, I s → step s a = some t → (cond s a ↔ cond' s a) ∧ (cond s a → I t))
    {s t : σ} {as : List α} (hs : I s) (h : exec step s as = some t) :
    Meets step cond s as ↔ Meets step cond' s as := by
  induction as generalizing s with
  | nil => exact Iff.rfl
  | cons a as ih =>
    obtain ⟨u, hu, hr⟩ := exec_cons_eq_some h
    obtain ⟨hiff, hi⟩ := hstep s a u hs hu
    constructor
    · rintro ⟨hc, hm⟩
      refine ⟨hiff.mp hc, fun v hv => ?_⟩
      obtain rfl := Option.some.inj (hu.symm.trans hv)
      exact (ih (hi hc) hr).mp (hm u hu)
    · rintro ⟨hc, hm⟩
      refine ⟨hiff.mpr hc, fun v hv => ?_⟩
      obtain rfl := Option.some.inj (hu.symm.trans hv)
      exact (ih (hi (hiff.mpr hc)) hr).mpr (hm u hu)

/-- The same for every list of actions, also where an action is not possible. -/
theorem meets_iff {I : σ → Prop} {cond' : σ → α → Prop}
    (hstep : ∀ s a, I s → (cond s a ↔ cond' s a) ∧ ∀ t, cond s a → step s a = some t → I t)
    {s : σ} (as : List α) (hs : I s) : Meets step cond s as ↔ Meets step cond' s as := by
  induction as generalizing s with
  | nil => exact Iff.rfl
  | cons a as ih =>
    obtain ⟨hiff, hi⟩ := hstep s a hs
    rw [Meets, Meets, ← hiff]
    exact and_congr_right fun hc => forall₂_congr fun t ht => ih (hi t hc ht)

/-- Forward simulation: a relation that every concrete step carries over to an
abstract step carries every concrete run over to an abstract run. -/
theorem exec_simulates {astep : τ → α → Option τ} {R : σ → τ → Prop}
    (hstep : ∀ s u a s', R s u → step s a = some s' → ∃ u', astep u a = some u' ∧ R s' u')
    {s s' : σ} {u : τ} {as : List α} (hR : R s u) (h : exec step s as = some s') :
    ∃ u', exec astep u as = some u' ∧ R s' u' := by
  induction as generalizing s u with
  | nil => exact ⟨u, rfl, Option.some.inj h ▸ hR⟩
  | cons a as ih =>
    obtain ⟨m, hm, hr⟩ := exec_cons_eq_some h
    obtain ⟨v, hv, hRv⟩ := hstep s u a m hR hm
    obtain ⟨w, hw, hRw⟩ := ih hRv hr
    exact ⟨w, by rw [exec_cons, hv]; exact hw, hRw⟩

end CSLiS.Lib.Exec
