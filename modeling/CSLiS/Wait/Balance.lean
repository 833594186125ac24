import CSLiS.Wait.Sleep

/-!
# The counters of sleepers (head/wait.c)

As long as every decrement takes a sleeper off the count that no other decrement has
taken off already, a counter is the number of tasks that wait. Nothing in the code sees
to that: two wakers may both see the last sleeper, a sleeper may be signalled after a
waker counted it off. A wait on the read semaphore that fails takes one off the count of
another semaphore.
-/

namespace CSLiS.Wait.SleepHead
open Lib.Crew Lib.Exec

variable {s t : SleepHead} {i : ℕ} {a b : Place} {c d : Chan}

/-- What wakers rely on. -/
structure Balanced (s : SleepHead) (c : Chan) : Prop where
  nonneg : 0 ≤ s.cnt c
  equal : s.wakings c = 0 → s.cnt c = s.waiting c
  wakes : s.wakings c < s.waiting c → 0 < s.cnt c

/- The semaphore for whose sleeper the next decrement of a task stands. -/
def takes : Place → Option Chan
  | .failed c | .relock c | .positive c _ => some c
  | _ => none

/- There is a sleeper left that is not being woken. -/
def Unclaimed (s : SleepHead) (i : ℕ) : Prop :=
  ∀ c ∈ s.tasks[i]?.bind takes, c ≠ .readSem → s.wakings c < s.waiting c

def Guard (s : SleepHead) : Act → Prop
  | .signal i => s.tasks[i]? ≠ some (.counted .readSem)
  | .giveBack i | .dec i => s.Unclaimed i
  | .relock i ret => ret < 0 → s.Unclaimed i
  | _ => True

instance decUnclaimed (s : SleepHead) (i : ℕ) : Decidable (s.Unclaimed i) :=
  inferInstanceAs (Decidable (∀ c ∈ s.tasks[i]?.bind takes, c ≠ .readSem → s.wakings c < s.waiting c))

instance decGuard (s : SleepHead) : ∀ a, Decidable (s.Guard a)
  | .signal i => inferInstanceAs (Decidable (s.tasks[i]? ≠ some (.counted .readSem)))
  | .giveBack i | .dec i => inferInstanceAs (Decidable (s.Unclaimed i))
  | .relock i ret => inferInstanceAs (Decidable (ret < 0 → s.Unclaimed i))
  | .sleep .. | .down .. | .wake .. | .read .. | .up .. => inferInstanceAs (Decidable True)

structure Inv (s : SleepHead) : Prop where
  balance : ∀ c, c ≠ .readSem → s.cnt c + s.wakings c = s.waiting c ∧ 0 ≤ s.cnt c
  unfailed : Place.failed .readSem ∉ s.tasks

theorem addCnt_cnt (s : SleepHead) (d : Chan) (n : ℤ) (c : Chan) :
    (s.addCnt d n).cnt c = s.cnt c + n * (d == c).toNat := by
  by_cases h : d = c
  · subst h
    simp [addCnt]
  · simp [addCnt,Function.update_of_ne (Ne.symm h),h]

theorem lisUp_sem (s : SleepHead) (d c : Chan) : (s.lisUp d).sem c = s.sem c + (d == c).toNat := by
  by_cases h : d = c
  · subst h
    simp [lisUp]
  · simp [lisUp,Function.update_of_ne (Ne.symm h),h]

theorem wakings_set (ha : s.tasks[i]? = some a) (ht : t.tasks = s.tasks.set i b) (c : Chan) :
    t.wakings c + (a.isWaking c).toNat = s.wakings c + (b.isWaking c).toNat := by
  rw [wakings,ht]
  exact tally_set ha b _

theorem waiting_set (ha : s.tasks[i]? = some a) (ht : t.tasks = s.tasks.set i b) (c : Chan) :
    t.waiting c + t.sem c + (a.isAsleep c).toNat = s.waiting c + s.sem c + (b.isAsleep c).toNat := by
  have h := tally_set ha b (Place.isAsleep c)
  simp only [waiting,ht]
  omega

theorem unfailed_set (hi : s.Inv) (hb : b ≠ .failed .readSem) (ht : t.tasks = s.tasks.set i b) :
    Place.failed .readSem ∉ t.tasks := by
  rw [ht]
  intro h
  rcases List.mem_or_eq_of_mem_set h with h | h
  · exact hi.unfailed h
  · exact hb h.symm

/- The invariant after a step of one task, from what the step did to the counters. -/
theorem Inv.moved (hi : s.Inv) (ha : s.tasks[i]? = some a) (ht : t.tasks = s.tasks.set i b)
    (hb : b ≠ .failed .readSem)
    (hc : ∀ c, c ≠ .readSem → (t.cnt c : ℤ) + (b.isWaking c).toNat + t.sem c + (a.isAsleep c).toNat =
      s.cnt c + (a.isWaking c).toNat + s.sem c + (b.isAsleep c).toNat)
    (hn : ∀ c, c ≠ .readSem → 0 ≤ t.cnt c) : t.Inv := by
  refine ⟨fun c hr => ⟨?_,hn c hr⟩,unfailed_set hi hb ht⟩
  have h1 := wakings_set ha ht c
  have h2 := waiting_set ha ht c
  have h3 := hc c hr
  have h4 := (hi.balance c hr).1
  omega

theorem init_inv (n : ℕ) : (init n).Inv := by
  refine ⟨fun c hr => ?_,?_⟩
  · have h1 : (init n).wakings c = 0 := tally_replicate n rfl
    have h2 : tally (Place.isAsleep c) (init n).tasks = 0 := tally_replicate n rfl
    have h3 : (init n).sem c = 0 := if_neg hr
    simp only [waiting,h1,h2,h3]
    exact ⟨rfl,le_rfl⟩
  · intro h
    exact Place.noConfusion (List.eq_of_mem_replicate h)

theorem taken_sem (hs : 0 < s.sem d) (c : Chan) :
    Function.update s.sem d (s.sem d - 1) c + (d == c).toNat = s.sem c := by
  by_cases h : d = c
  · subst h
    simp
    omega
  · simp [Function.update_of_ne (Ne.symm h),h]

theorem Unclaimed.of_takes (hu : s.Unclaimed i) (hp : s.tasks[i]? = some a) (ht : takes a = some d) :
    ∀ c, c = d → c ≠ .readSem → s.wakings c < s.waiting c := by
  rintro c rfl
  exact hu c (by simp [hp,ht])

/- Taking one off for a sleeper that is left. -/
theorem nonneg_dec (hi : s.Inv) (hu : ∀ c, c = d → c ≠ .readSem → s.wakings c < s.waiting c)
    (hr : c ≠ .readSem) : 0 ≤ s.cnt c + -1 * (d == c).toNat := by
  have h := hi.balance c hr
  by_cases hd : d = c
  · have := hu c hd.symm hr
    have : (d == c).toNat = 1 := by simp [hd]
    omega
  · have : (d == c).toNat = 0 := by simp [hd]
    omega

theorem step_inv {a : Act} (hi : s.Inv) (hg : s.Guard a) (h : s.step a = some t) : t.Inv := by
  cases a with
  | sleep i c =>
    simp only [step,Option.ite_none_right_eq_some,Option.some.injEq] at h
    obtain ⟨hp,rfl⟩ := h
    refine hi.moved (b := .counted c) hp rfl nofun (fun e _ => ?_) (fun e hr => ?_)
    all_goals simp only [move,addCnt_cnt]
    · simp only [Place.isWaking,Place.isAsleep,addCnt,Bool.toNat_false]
      omega
    · have := (hi.balance e hr).2
      omega
  | down i =>
    simp only [step] at h
    split at h
    next c hp =>
      simp only [Option.ite_none_right_eq_some,Option.some.injEq] at h
      obtain ⟨hs,rfl⟩ := h
      have hb : ∀ e, (if (sleepOn c).relocks then Place.relock c else .idle).isWaking e = false ∧
          (if (sleepOn c).relocks then Place.relock c else .idle).isAsleep e = false := by
        intro e
        split <;> exact ⟨rfl,rfl⟩
      refine hi.moved hp rfl (by split <;> nofun) (fun e _ => ?_) (fun e hr => (hi.balance e hr).2)
      have hd := taken_sem hs e
      rw [(hb e).1,(hb e).2]
      simp only [move,Place.isWaking,Place.isAsleep,Bool.toNat_false]
      omega
    next => cases h
  | signal i =>
    simp only [step] at h
    split at h
    next c hp =>
      simp only [Option.ite_none_right_eq_some,Option.some.injEq] at h
      obtain ⟨-,rfl⟩ := h
      refine hi.moved hp rfl ?_ (fun e _ => rfl) (fun e hr => (hi.balance e hr).2)
      intro hc
      exact hg (hp.trans (congrArg _ (congrArg _ (Place.failed.inj hc))))
    next => cases h
  | giveBack i =>
    simp only [step] at h
    split at h
    next c hp =>
      have hc : c ≠ .readSem := fun hc => hi.unfailed (hc ▸ List.mem_of_getElem? hp)
      have hback : (sleepOn c).back = c := by
        cases c with
        | readSem => exact absurd rfl hc
        | wwrite | wread => rfl
      obtain rfl := Option.some.inj h
      refine hi.moved (b := .idle) hp rfl nofun (fun e _ => ?_) (fun e hr => ?_)
      all_goals simp only [move,addCnt_cnt,hback]
      · simp only [Place.isWaking,Place.isAsleep,addCnt,Bool.toNat_false]
        omega
      · exact nonneg_dec hi (hg.of_takes hp rfl) hr
    next => cases h
  | relock i ret =>
    simp only [step] at h
    split at h
    next c hp =>
      split_ifs at h with hneg
      · obtain rfl := Option.some.inj h
        refine hi.moved (b := .backed c) hp rfl nofun (fun e _ => ?_) (fun e hr => ?_)
        all_goals simp only [move,addCnt_cnt]
        · simp only [Place.isWaking,Place.isAsleep,addCnt,Bool.toNat_false]
          omega
        · exact nonneg_dec hi ((hg hneg).of_takes hp rfl) hr
      · obtain rfl := Option.some.inj h
        exact hi.moved (b := .idle) hp rfl nofun (fun e _ => rfl) (fun e hr => (hi.balance e hr).2)
    next => cases h
  | wake i c all ret =>
    simp only [step,Option.ite_none_right_eq_some] at h
    obtain ⟨hp,h⟩ := h
    split_ifs at h
    · exact Option.some.inj h ▸ hi
    · obtain rfl := Option.some.inj h
      exact hi.moved (b := .test c all) hp rfl nofun (fun e _ => rfl) (fun e hr => (hi.balance e hr).2)
  | read i =>
    simp only [step] at h
    split at h
    next c all hp =>
      split_ifs at h
      · obtain rfl := Option.some.inj h
        exact hi.moved (b := .positive c all) hp rfl nofun (fun e _ => rfl) (fun e hr => (hi.balance e hr).2)
      · obtain rfl := Option.some.inj h
        exact hi.moved (b := .idle) hp rfl nofun (fun e _ => rfl) (fun e hr => (hi.balance e hr).2)
    next => cases h
  | dec i =>
    simp only [step] at h
    split at h
    next c all hp =>
      obtain rfl := Option.some.inj h
      refine hi.moved (b := .taken c all) hp rfl nofun (fun e _ => ?_) (fun e hr => ?_)
      all_goals simp only [move,addCnt_cnt]
      · simp only [Place.isWaking,Place.isAsleep,addCnt,Bool.toNat_false]
        omega
      · exact nonneg_dec hi (Unclaimed.of_takes hg hp rfl) hr
    next => cases h
  | up i =>
    simp only [step] at h
    split at h
    next c hp =>
      obtain rfl := Option.some.inj h
      refine hi.moved (b := .idle) hp rfl nofun (fun e _ => ?_) (fun e hr => (hi.balance e hr).2)
      have hu := lisUp_sem s c e
      simp only [move,Place.isWaking,Place.isAsleep,Bool.toNat_false,hu]
      simp only [lisUp]
      omega
    next c all hp =>
      obtain rfl := Option.some.inj h
      have hb : ∀ e, (if (wakeUp c all).all then Place.test c all else .idle).isWaking e = false ∧
          (if (wakeUp c all).all then Place.test c all else .idle).isAsleep e = false := by
        intro e
        split <;> exact ⟨rfl,rfl⟩
      refine hi.moved hp rfl (by split <;> nofun) (fun e _ => ?_) (fun e hr => (hi.balance e hr).2)
      have hu := lisUp_sem s c e
      rw [(hb e).1,(hb e).2]
      simp only [move,Place.isWaking,Place.isAsleep,Bool.toNat_false,hu]
      simp only [lisUp]
      omega
    next => cases h

theorem Inv.balanced (hi : s.Inv) (hr : c ≠ .readSem) : s.Balanced c := by
  obtain ⟨h1,h2⟩ := hi.balance c hr
  exact ⟨h2,fun h => by omega,fun h => by omega⟩

/-- In a run whose decrements all take a sleeper that is left, and in which no wait on the
read semaphore fails, the counters of readers and writers are those of the waiting tasks. -/
theorem run_balanced {n : ℕ} {as : List Act} (hm : Meets step Guard (init n) as)
    (h : exec step (init n) as = some t) : t.Balanced .wread ∧ t.Balanced .wwrite := by
  have hi : t.Inv := exec_preserves (fun _ _ _ => step_inv) (init_inv n) hm h
  exact ⟨hi.balanced nofun,hi.balanced nofun⟩

/- A reader sleeps and is woken, another one is signalled. -/
theorem run_balanced_two : ∃ t, exec step (init 3) [.sleep 0 .wread,.sleep 1 .wread,.wake 2 .wread false 0,.read 2,
    .signal 1,.dec 2,.giveBack 1,.up 2,.down 0,.relock 0 0] = some t ∧ t.Balanced .wread ∧ t.Balanced .wwrite := by
  refine Exists.imp (fun t ht => ⟨ht,run_balanced ?_ ht⟩) (Option.isSome_iff_exists.mp rfl)
  decide

/- A second reader is signalled while the first one holds the read semaphore. -/
theorem read_sem_miscounts : ¬ ∀ n as t, exec step (init n) as = some t → t.Balanced .wread ∧ t.Balanced .wwrite := by
  intro h
  have hneg := (h 2 [.sleep 0 .readSem,.down 0,.sleep 1 .readSem,.signal 1,.giveBack 1] _ rfl).1.nonneg
  exact absurd hneg (by decide)

end CSLiS.Wait.SleepHead
