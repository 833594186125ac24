import Mathlib

/-!
# Tasks and where they stand

A list says for each task at which place of its code it is. A step moves one
task; the tallies of the tasks at places of a kind change accordingly. In the
second part a task stands at a list of sections that it has still to run.
-/

namespace CSLiS.Lib.Crew

variable {π : Type*} {p : π → Bool} {l : List π} {i : ℕ} {a b : π}

/-- How many tasks are at a place of the kind. -/
def tally (p : π → Bool) (l : List π) : ℕ := l.countP p

theorem tally_pos (h : l[i]? = some a) (ha : p a = true) : 0 < tally p l :=
  List.countP_pos_iff.mpr ⟨a,List.mem_of_getElem? h,ha⟩

theorem tally_set (h : l[i]? = some a) (b : π) (p : π → Bool) :
    tally p (l.set i b) + (p a).toNat = tally p l + (p b).toNat := by
  have hpos : (p a).toNat ≤ tally p l := by
    cases ha : p a with
    | false => exact Nat.zero_le _
    | true => exact tally_pos h ha
  obtain ⟨hi,rfl⟩ := List.getElem?_eq_some_iff.mp h
  have hset : tally p (l.set i b) = tally p l - (p l[i]).toNat + (p b).toNat := by
    rw [tally,List.countP_set hi]
    cases p l[i] <;> cases p b <;> rfl
  omega

/- At most one task is at a place of the kind: the others are not. -/
theorem tally_alone (hl : tally p l ≤ 1) (h : l[i]? = some a) (ha : p a = true) (b : π) :
    ∀ x ∈ l.set i b, x = b ∨ p x = false := by
  induction l generalizing i with
  | nil => cases h
  | cons c l ih =>
    rw [tally,List.countP_cons] at hl
    intro x hx
    cases i with
    | zero =>
      obtain rfl := Option.some.inj h
      rw [if_pos ha] at hl
      have hnone : ∀ y ∈ l, ¬ p y = true := List.countP_eq_zero.mp (by omega)
      rcases List.mem_cons.mp hx with rfl | hx
      · exact Or.inl rfl
      · exact Or.inr (eq_false_of_ne_true (hnone x hx))
    | succ i =>
      have hpos : 0 < l.countP p := tally_pos (p := p) (i := i) h ha
      rcases List.mem_cons.mp hx with rfl | hx
      · refine Or.inr (eq_false_of_ne_true fun hc => ?_)
        rw [if_pos hc] at hl
        omega
      · exact ih (by rw [tally]; omega) h x hx

theorem tally_zero_of_alone {q : π → Bool} (hl : tally p l ≤ 1) (h : l[i]? = some a) (ha : p a = true)
    (hq : ∀ x, q x = true → p x = true) (hqa : q a = false) : tally q l = 0 := by
  refine List.countP_eq_zero.mpr fun x hx hqx => ?_
  have hset : l.set i a = l := by
    obtain ⟨hi,rfl⟩ := List.getElem?_eq_some_iff.mp h
    exact List.set_getElem_self hi
  rcases tally_alone hl h ha a x (hset.symm ▸ hx) with rfl | hx
  · exact Bool.noConfusion (hqa.symm.trans hqx)
  · exact Bool.noConfusion (hx.symm.trans (hq x hqx))

/-- A task is the one that has moved, or is where it was. -/
theorem set_cases {k : ℕ} {x : π} (h : (l.set i b)[k]? = some x) : (k = i ∧ x = b) ∨ (k ≠ i ∧ l[k]? = some x) := by
  by_cases hk : k = i
  · subst hk
    rw [List.getElem?_set_self'] at h
    cases hl : l[k]? with
    | none =>
      rw [hl] at h
      cases h
    | some y =>
      rw [hl] at h
      exact Or.inl ⟨rfl,(Option.some.inj h).symm⟩
  · rw [List.getElem?_set_ne (Ne.symm hk)] at h
    exact Or.inr ⟨hk,h⟩

theorem tally_replicate (n : ℕ) (ha : p a = false) : tally p (List.replicate n a) = 0 := by
  simp [tally,List.countP_replicate,ha]

section Roles

variable {ρ : Type*} [DecidableEq ρ] {role : π → Option ρ} {r : ρ}

/-- How many tasks have the role. -/
def standing (role : π → Option ρ) (l : List π) (r : ρ) : ℕ := tally (fun o => decide (role o = some r)) l

/-- The counts after one task has gone from a role to another one. -/
def Moves (x y : Option ρ) (c c' : ρ → ℕ) : Prop :=
  ∀ r, c' r + (if x = some r then 1 else 0) = c r + if y = some r then 1 else 0

theorem standing_moves (h : l[i]? = some a) (b : π) (role : π → Option ρ) :
    Moves (role a) (role b) (standing role l) (standing role (l.set i b)) := by
  intro r
  have hs := tally_set h b fun o => decide (role o = some r)
  simp only [Bool.toNat,Bool.cond_decide] at hs
  exact hs

theorem standing_pos (h : l[i]? = some a) (ha : role a = some r) : 0 < standing role l r :=
  tally_pos h (decide_eq_true ha)

theorem standing_zero (h : standing role l r = 0) (ha : a ∈ l) : role a ≠ some r := by
  have hn := List.countP_eq_zero.mp h a ha
  exact fun hc => hn (decide_eq_true hc)

theorem standing_replicate (n : ℕ) (ha : role a = none) : standing role (List.replicate n a) r = 0 :=
  tally_replicate n (by rw [ha]; rfl)

theorem Moves.same {c c' : ρ → ℕ} (h : Moves none none c c') : c' = c := funext fun r => h r

end Roles

section Total

variable {f : π → ℕ}

/-- What the tasks have together. -/
def total (f : π → ℕ) (l : List π) : ℕ := (l.map f).sum

theorem total_set (h : l[i]? = some a) (b : π) (f : π → ℕ) :
    total f (l.set i b) + f a = total f l + f b := by
  induction l generalizing i with
  | nil => cases h
  | cons c l ih =>
    cases i with
    | zero =>
      obtain rfl := Option.some.inj h
      simp only [total,List.set_cons_zero,List.map_cons,List.sum_cons]
      omega
    | succ i =>
      have hi := ih (i := i) h
      simp only [total] at hi
      simp only [total,List.set_cons_succ,List.map_cons,List.sum_cons]
      omega

theorem le_total (h : l[i]? = some a) : f a ≤ total f l :=
  List.single_le_sum (fun _ _ => Nat.zero_le _) _ (List.mem_map_of_mem (List.mem_of_getElem? h))

theorem add_le_total {j : ℕ} (ha : l[i]? = some a) (hb : l[j]? = some b) (hne : i ≠ j) :
    f a + f b ≤ total f l := by
  induction l generalizing i j with
  | nil => cases ha
  | cons c l ih =>
    have hcons : total f (c :: l) = f c + total f l := by simp [total]
    rw [hcons]
    cases i with
    | zero =>
      cases j with
      | zero => exact absurd rfl hne
      | succ j =>
        obtain rfl := Option.some.inj ha
        exact Nat.add_le_add_left (le_total (i := j) hb) _
    | succ i =>
      cases j with
      | zero =>
        obtain rfl := Option.some.inj hb
        have := le_total (i := i) (f := f) ha
        omega
      | succ j =>
        have := ih (i := i) (j := j) ha hb (by omega)
        omega

theorem total_add (f g : π → ℕ) (l : List π) : total (fun a => f a + g a) l = total f l + total g l :=
  List.sum_map_add ..

theorem total_congr {g : π → ℕ} (h : ∀ a ∈ l, f a = g a) : total f l = total g l :=
  congrArg List.sum (List.map_congr_left h)

theorem total_map {κ : Type*} (g : κ → π) (f : π → ℕ) (l : List κ) :
    total f (l.map g) = total (fun k => f (g k)) l := by
  simp [total,Function.comp_def]

theorem total_zero (h : ∀ a ∈ l, f a = 0) : total f l = 0 :=
  (total_congr h).trans (by simp [total])

end Total

section Pending

variable {ο : Type*} [DecidableEq ο] {tasks : List (List ο)} {o : ο} {os : List ο}

/-- How often the section is still to be run. -/
def pending (tasks : List (List ο)) (x : ο) : ℕ := tasks.flatten.count x

theorem pending_set (h : tasks[i]? = some os) (os' : List ο) (x : ο) :
    pending (tasks.set i os') x + os.count x = pending tasks x + os'.count x := by
  induction tasks generalizing i with
  | nil => cases h
  | cons c tasks ih =>
    cases i with
    | zero =>
      obtain rfl := Option.some.inj h
      simp only [pending,List.set_cons_zero,List.flatten_cons,List.count_append]
      omega
    | succ i =>
      have hi := ih (i := i) h
      simp only [pending] at hi
      simp only [pending,List.set_cons_succ,List.flatten_cons,List.count_append]
      omega

/-- A task runs its next section, which makes it run others before the rest. -/
theorem pending_run (h : tasks[i]? = some (o :: os)) (ns : List ο) (x : ο) :
    pending (tasks.set i (ns ++ os)) x + (if o = x then 1 else 0) = pending tasks x + ns.count x := by
  have hs := pending_set h (ns ++ os) x
  simp only [List.count_append,List.count_cons,beq_iff_eq] at hs
  omega

theorem pending_pos (h : tasks[i]? = some (o :: os)) : 0 < pending tasks o :=
  List.count_pos_iff.mpr (List.mem_flatten.mpr ⟨_,List.mem_of_getElem? h,List.mem_cons_self ..⟩)

theorem pending_idle (n : ℕ) (x : ο) : pending (List.replicate n []) x = 0 := by
  simp [pending]

end Pending

end CSLiS.Lib.Crew
