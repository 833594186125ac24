import CSLiS.Queue.Lockq

/-!
# The queue lock excludes (head/queue.c)

`lis_lockq` passes the lock by while `QOPENING` is set, and `lis_unlockq` does not know of
it: it raises a semaphore that was not taken, or gives up a level that was not counted. As
long as no caller of `lis_lockq` finds the flag set, the lock is a lock. Either it is free
and no task is in a bracket, or one task has it and where that task is says what
`qs_taskp`, `qs_nest` and the semaphore hold.
-/

namespace CSLiS.Queue.QSync
open Lib.Exec

variable {s u : QSync} {t o : ℕ} {pc : LockPc} {d : ℕ}

/-- At most one task has brackets open, `qs_nest` is the number of them, the semaphore is
raised at most once. -/
structure Exclusive (s : QSync) : Prop where
  one : ∀ t o, 0 < (s.tasks t).depth → 0 < (s.tasks o).depth → t = o
  sem : s.qsSem ≤ 1
  nest : ∀ t, 0 < (s.tasks t).depth → s.qsNest = (s.tasks t).depth
  idle : (∀ t, (s.tasks t).depth = 0) → s.qsNest = 0

/-- The caller of `lis_lockq` finds `QOPENING` clear. -/
def Guard (s : QSync) : LockAct → Prop
  | .lockq _ q => s.opening q = false
  | _ => True

instance decGuard (s : QSync) : ∀ a, Decidable (s.Guard a)
  | .lockq _ q => inferInstanceAs (Decidable (s.opening q = false))
  | .unlockq _ | .run _ | .setOpening .. => inferInstanceAs (Decidable True)

/- A task that does not have the lock. -/
def Outside (l : Locker) : Prop := l.depth = 0 ∧ (l.pc = .out ∨ l.pc = .flagged ∨ l.pc = .waiting)

/- What the lock holds when task `o` has it and is here. -/
def Owned (o : ℕ) (l : Locker) (taskp : Option ℕ) (nest : ℤ) : Prop :=
  nest = l.depth ∧
  match l.pc with
  | .out | .flagged | .nested | .leaving => taskp = some o ∧ 0 < l.depth
  | .waiting => False
  | .locked => taskp = none ∧ l.depth = 0
  | .owning => taskp = none ∧ l.depth = 1
  | .testing => taskp = some o
  | .clearing => taskp = some o ∧ l.depth = 0
  | .posting => taskp = none ∧ l.depth = 0

inductive Inv (s : QSync) : Prop
  | free (hs : s.qsSem = 1) (hp : s.qsTaskp = none) (hn : s.qsNest = 0) (hout : ∀ t, Outside (s.tasks t))
  | held (o : ℕ) (hs : s.qsSem = 0) (ho : Owned o (s.tasks o) s.qsTaskp s.qsNest)
      (hout : ∀ t, t ≠ o → Outside (s.tasks t))

theorem Inv.exclusive (hi : s.Inv) : s.Exclusive := by
  cases hi with
  | free hs hp hn hout =>
    refine ⟨fun t o ht => ?_,by omega,fun t ht => ?_,fun _ => hn⟩
    all_goals have := (hout t).1
    all_goals omega
  | held o hs ho hout =>
    have hone : ∀ t, 0 < (s.tasks t).depth → t = o := by
      intro t ht
      by_contra hne
      have := (hout t hne).1
      omega
    refine ⟨fun t v ht hv => (hone t ht).trans (hone v hv).symm,by omega,fun t ht => ?_,fun h => ?_⟩
    · rw [hone t ht]
      exact ho.1
    · have := h o
      have := ho.1
      omega

theorem init_inv (f : ℕ → Bool) : (init f).Inv := .free rfl rfl rfl fun _ => ⟨rfl,.inl rfl⟩

theorem goto_self : (s.goto t pc d).tasks t = ⟨pc,d⟩ := Function.update_self ..
theorem goto_other (h : o ≠ t) : (s.goto t pc d).tasks o = s.tasks o := Function.update_of_ne h ..

theorem Owned.inside {l : Locker} {p : Option ℕ} {n : ℤ} (h : Owned o l p n) : ¬ Outside l := by
  rintro ⟨hd,hp | hp | hp⟩
  all_goals
    have hl := h.2
    simp only [hp] at hl
  · omega
  · omega

/- A task is outside, or it is the one that has the lock. -/
theorem Inv.task (hi : s.Inv) (t : ℕ) :
    (Outside (s.tasks t) ∧ s.isCurrent t = false) ∨
      (s.qsSem = 0 ∧ Owned t (s.tasks t) s.qsTaskp s.qsNest ∧ ∀ v, v ≠ t → Outside (s.tasks v)) := by
  cases hi with
  | free hs hp hn hout => exact .inl ⟨hout t,by simp [isCurrent,hp]⟩
  | held o hs ho hout =>
    by_cases ht : t = o
    · subst ht
      exact .inr ⟨hs,ho,hout⟩
    · refine .inl ⟨hout t ht,?_⟩
      have hp : s.qsTaskp = none ∨ s.qsTaskp = some o := by
        have hl := ho.2
        cases hpc : (s.tasks o).pc <;> simp only [hpc] at hl
        case testing => exact .inr hl
        case locked | owning | posting => exact .inl hl.1
        all_goals exact .inr hl.1
      rcases hp with hp | hp
      · simp [isCurrent,hp]
      · simp [isCurrent,hp,Ne.symm ht]

/- A step of a task that does not have the lock and does not get it. -/
theorem Inv.outside (hi : s.Inv) (ht : Outside (s.tasks t)) (hout : Outside ⟨pc,d⟩) :
    (s.goto t pc d).Inv := by
  have hall : ∀ v, Outside (s.tasks v) → Outside ((s.goto t pc d).tasks v) := by
    intro v hv
    by_cases h : v = t
    · rw [h,goto_self]
      exact hout
    · rw [goto_other h]
      exact hv
  cases hi with
  | free hs hp hn h => exact .free hs hp hn fun v => hall v (h v)
  | held o hs ho h =>
    refine .held o hs ?_ fun v hv => hall v (h v hv)
    rw [goto_other fun (he : o = t) => ho.inside (he ▸ ht)]
    exact ho

/- A step of the task that has the lock and keeps it. -/
theorem Inv.inside (hs : s.qsSem = 0) (ho : Owned o ⟨pc,d⟩ s.qsTaskp s.qsNest)
    (hout : ∀ v, v ≠ o → Outside (s.tasks v)) : (s.goto o pc d).Inv := by
  refine .held o hs ?_ fun v hv => ?_
  · rw [goto_self]
    exact ho
  · rw [goto_other hv]
    exact hout v hv

/- A task that gets the lock. -/
theorem Inv.enter (hi : s.Inv) (ht : Outside (s.tasks t)) (hs : 0 < s.qsSem) :
    ({ s with qsSem := s.qsSem - 1 }.goto t .locked (s.tasks t).depth).Inv := by
  cases hi with
  | free h1 hp hn hout =>
    refine .inside (s := { s with qsSem := s.qsSem - 1 }) (by simp [h1]) ?_ fun v _ => hout v
    exact ⟨by simp [hn,ht.1],hp,ht.1⟩
  | held o h0 ho hout => omega

theorem run_inv (hi : s.Inv) (h : s.run t = some u) : u.Inv := by
  rcases hi.task t with ⟨⟨hd,hp⟩,hc⟩ | ⟨hs,ho,hout⟩
  · -- the two places at which a task outside can go on
    rcases hp with hp | hp | hp <;> simp only [run,hp] at h
    · cases h
    · obtain rfl := Option.some.inj h
      exact hi.outside ⟨hd,.inr (.inl hp)⟩ ⟨hd,.inr (.inr (by simp [hc]))⟩
    · simp only [Option.ite_none_right_eq_some,Option.some.injEq] at h
      obtain ⟨hs,rfl⟩ := h
      exact hi.enter ⟨hd,.inr (.inr hp)⟩ hs
  · obtain ⟨hn,hl⟩ := ho
    cases hp : (s.tasks t).pc <;> simp only [run,hp] at h hl
    case out => cases h
    all_goals obtain rfl := Option.some.inj h
    case flagged =>
      refine .inside hs ⟨hn,?_⟩ hout
      simpa [isCurrent,hl.1] using hl.2
    case nested =>
      refine .inside (s := { s with qsNest := s.qsNest + 1 }) hs ⟨?_,hl.1,Nat.succ_pos _⟩ hout
      simp only [hn,Nat.cast_add,Nat.cast_one]
    case locked =>
      refine .inside (s := { s with qsNest := s.qsNest + 1 }) hs ⟨?_,hl.1,by simp [hl.2]⟩ hout
      simp only [hn,Nat.cast_add,Nat.cast_one]
    case owning =>
      refine .inside (s := { s with qsTaskp := some t }) hs ⟨hn,rfl,?_⟩ hout
      exact hl.2 ▸ Nat.one_pos
    case leaving =>
      refine .inside (s := { s with qsNest := s.qsNest - 1 }) hs ⟨?_,hl.1⟩ hout
      simp only [hn]
      omega
    case testing =>
      by_cases h0 : s.qsNest = 0
      · rw [if_pos h0]
        exact .inside hs ⟨hn,hl,by simp only; omega⟩ hout
      · rw [if_neg h0]
        exact .inside hs ⟨hn,hl,by simp only; omega⟩ hout
    case clearing => exact .inside (s := { s with qsTaskp := none }) hs ⟨hn,rfl,hl.2⟩ hout
    case posting =>
      refine .free (by simp [goto,hs]) hl.1 (by simp [goto,hn,hl.2]) fun v => ?_
      by_cases hv : v = t
      · rw [hv,goto_self]
        exact ⟨hl.2,.inl rfl⟩
      · rw [goto_other hv]
        exact hout v hv

theorem step_inv {a : LockAct} (hi : s.Inv) (hg : s.Guard a) (h : s.step a = some u) : u.Inv := by
  cases a with
  | lockq t q =>
    have hg : s.opening q = false := hg
    simp only [step,hg,Bool.false_eq_true,if_false,Option.ite_none_right_eq_some,Option.some.injEq] at h
    obtain ⟨hp,rfl⟩ := h
    rcases hi.task t with ⟨hout,-⟩ | ⟨hs,ho,hout⟩
    · exact hi.outside hout ⟨hout.1,.inr (.inl rfl)⟩
    · have hl := ho.2
      simp only [hp] at hl
      exact .inside hs ⟨ho.1,hl⟩ hout
  | unlockq t =>
    simp only [step,Option.ite_none_right_eq_some,Option.some.injEq] at h
    obtain ⟨⟨hp,hd⟩,rfl⟩ := h
    rcases hi.task t with ⟨hout,-⟩ | ⟨hs,ho,hout⟩
    · have := hout.1
      omega
    · have hl := ho.2
      simp only [hp] at hl
      rw [if_pos (by simp [isCurrent,hl.1])]
      exact .inside hs ⟨ho.1,hl⟩ hout
  | run t => exact run_inv hi h
  | setOpening q b =>
    obtain rfl := Option.some.inj h
    cases hi with
    | free hs hp hn hout => exact .free hs hp hn hout
    | held o hs ho hout => exact .held o hs ho hout

/-- As long as no caller of `lis_lockq` finds `QOPENING` set, the queue lock excludes. -/
theorem run_exclusive {f : ℕ → Bool} {as : List LockAct} (hm : Meets step Guard (init f) as)
    (h : exec step (init f) as = some u) : u.Exclusive := by
  have hi : u.Inv := exec_preserves (fun _ _ _ => step_inv) (init_inv f) hm h
  exact hi.exclusive

/- Task 0 locks two queues, one inside the other, while task 1 waits for the lock. -/
theorem run_exclusive_nested : ∃ u, exec step (init fun _ => false) [.lockq 0 0,.run 0,.run 0,.run 0,.run 0,
    .lockq 1 0,.run 1,.lockq 0 1,.run 0,.run 0,.setOpening 1 true,.unlockq 0,.run 0,.run 0,.unlockq 0,.run 0,
    .run 0,.run 0,.run 0,.run 1,.run 1,.run 1] = some u ∧ u.Exclusive := by
  refine Exists.imp (fun u hu => ⟨hu,run_exclusive ?_ hu⟩) (Option.isSome_iff_exists.mp rfl)
  decide

/- Task 0 comes and goes while `QOPENING` is set. The semaphore is up twice from then on,
and tasks 1 and 2 both get in. -/
theorem opening_breaks_lock : ¬ ∀ f as u, exec step (init f) as = some u → u.Exclusive := by
  intro h
  have hone := (h (fun _ => true) [.lockq 0 0,.unlockq 0,.run 0,.run 0,.run 0,.setOpening 0 false,.lockq 1 0,
    .run 1,.run 1,.run 1,.run 1,.lockq 2 0,.run 2,.run 2,.run 2] _ rfl).one 1 2
  exact absurd (hone (by decide) (by decide)) (by decide)

end CSLiS.Queue.QSync
