import CSLiS.Wait.ReadSem

/-!
# One reader at a time (head/wait.c)

The semaphore is up when no reader is inside. Waking all readers raises it for the one that is inside
as well, so that the next one is let in too early.
-/

namespace CSLiS.Wait.ReadSem
open Lib.Crew Lib.Exec

variable {s t : ReadSem} {i : ℕ} {a b : Rplace} {act : Ract}

/-! ### Among all sleepers -/

def view (s : ReadSem) : SleepHead :=
  ⟨fun c => match c with
      | .readSem => s.rdsemcnt
      | .wread => s.rdcnt
      | .wwrite => 0,
    fun c => if c = .readSem then s.sem else 0,s.tasks.map Rplace.place⟩

theorem view_place (h : s.tasks[i]? = some a) : s.view.tasks[i]? = some a.place := by
  rw [view,List.getElem?_map,h]
  rfl

theorem view_move (s : ReadSem) (i : ℕ) (b : Rplace) : (s.move i b).view = s.view.move i b.place := by
  simp only [view,move,SleepHead.move,List.map_set]

theorem view_cnt (s : ReadSem) (n : ℤ) : view { s with rdsemcnt := s.rdsemcnt + n } = s.view.addCnt .readSem n := by
  rw [SleepHead.addCnt,view,view]
  congr 1
  funext c
  cases c <;> simp

theorem view_rdcnt (s : ReadSem) (n : ℤ) : view { s with rdcnt := s.rdcnt + n } = s.view.addCnt .wread n := by
  rw [SleepHead.addCnt,view,view]
  congr 1
  funext c
  cases c <;> simp

theorem view_sem (s : ReadSem) (n : ℕ) :
    view { s with sem := n } = { s.view with sem := Function.update s.view.sem .readSem n } := by
  rw [view,view]
  congr 1
  funext c
  cases c <;> simp

theorem counted_view (s : ReadSem) :
    tally (Place.isCounted .readSem) s.view.tasks = tally Rplace.isCounted s.tasks := by
  rw [tally,tally,view,List.countP_map]
  refine congrArg (fun p => List.countP p s.tasks) (funext fun r => ?_)
  cases r <;> rfl

theorem go_some {s t : ReadSem} (h : s.go i a b = some t) : s.tasks[i]? = some a ∧ t = s.move i b := by
  simp only [go,Option.ite_none_right_eq_some,Option.some.injEq] at h
  exact ⟨h.1,h.2.symm⟩

/-- A step of the readers is the step of `head/wait.c` that `SleepHead` has for them. -/
theorem step_view (h : s.step act = some t) : s.view.step act.act = some t.view := by
  cases act with
  | sleep i =>
    obtain ⟨hi,rfl⟩ := go_some h
    have hp := view_place (s := s) hi
    rw [view_move,view_cnt]
    exact if_pos hp
  | down i =>
    simp only [step,Option.ite_none_right_eq_some] at h
    obtain ⟨hs,h⟩ := h
    obtain ⟨hi,rfl⟩ := go_some h
    have hp := view_place (s := s) hi
    have hsem : s.view.sem .readSem = s.sem := rfl
    rw [view_move,view_sem s (s.sem - 1),Ract.act,SleepHead.step,hp]
    simp only [Rplace.place,hsem,if_pos hs]
    rfl
  | signal i =>
    simp only [step,Option.ite_none_right_eq_some] at h
    obtain ⟨hs,h⟩ := h
    obtain ⟨hi,rfl⟩ := go_some h
    have hp := view_place (s := s) hi
    have hsem : s.view.sem .readSem < tally (Place.isCounted .readSem) s.view.tasks := by
      rw [counted_view]
      exact hs
    rw [view_move,Ract.act,SleepHead.step,hp]
    simp only [Rplace.place,if_pos hsem]
  | giveBack i =>
    obtain ⟨hi,rfl⟩ := go_some h
    have hp := view_place (s := s) hi
    rw [view_move,show s.rdcnt - 1 = s.rdcnt + -1 from rfl,view_rdcnt,Ract.act,SleepHead.step,hp]
    rfl
  | leave i =>
    obtain ⟨hi,rfl⟩ := go_some h
    have hp : s.view.tasks[i]? = some .idle := view_place hi
    rw [view_move,Ract.act,SleepHead.step,if_pos hp]
    rfl
  | wakeAll i =>
    obtain ⟨hi,rfl⟩ := go_some h
    have hp : s.view.tasks[i]? = some .idle := view_place hi
    rw [view_move,Ract.act,SleepHead.step,if_pos hp]
    rfl
  | read i =>
    simp only [step] at h
    split at h
    next all hi =>
      obtain rfl := Option.some.inj h
      have hp := view_place (s := s) hi
      have hcnt : s.view.cnt .readSem = s.rdsemcnt := rfl
      rw [view_move,Ract.act,SleepHead.step,hp]
      simp only [Rplace.place,hcnt]
      split_ifs <;> rfl
    next => cases h
  | dec i =>
    simp only [step] at h
    split at h
    next all hi =>
      obtain rfl := Option.some.inj h
      have hp := view_place (s := s) hi
      rw [view_move,show s.rdsemcnt - 1 = s.rdsemcnt + -1 from rfl,view_cnt,Ract.act,SleepHead.step,hp]
      rfl
    next => cases h
  | up i =>
    simp only [step] at h
    split at h
    next all hi =>
      obtain rfl := Option.some.inj h
      have hp := view_place (s := s) hi
      rw [view_move,view_sem s (s.sem + 1),Ract.act,SleepHead.step,hp]
      cases all <;> rfl
    next => cases h

/-- A run of readers is a run of sleepers. -/
theorem run_view {as : List Ract} (h : exec step s as = some t) :
    exec (fun u a => SleepHead.step u (Ract.act a)) s.view as = some t.view := by
  obtain ⟨u,hu,rfl⟩ := exec_simulates (R := fun s u => u = s.view)
    (fun s u a s' hR hs => ⟨s'.view,hR ▸ step_view hs,rfl⟩) rfl h
  exact hu

/-! ### Who is inside -/

/- The readers that were let in and have not let in the next one. -/
def readers (s : ReadSem) : ℕ := tally Rplace.isInside s.tasks

structure Exclusive (s : ReadSem) : Prop where
  one : s.readers ≤ 1
  free : s.readers = 0 → 0 < s.sem

/- `lis_wake_up_all_read_sem` finds no reader on the count. -/
def Guard (s : ReadSem) : Ract → Prop
  | .read i => s.tasks[i]? = some (.test true) → s.rdsemcnt ≤ 0
  | _ => True

instance decGuard (s : ReadSem) : ∀ a, Decidable (s.Guard a)
  | .read i => inferInstanceAs (Decidable (s.tasks[i]? = some (.test true) → s.rdsemcnt ≤ 0))
  | .sleep _ | .down _ | .signal _ | .giveBack _ | .leave _ | .wakeAll _ | .dec _ | .up _ =>
      inferInstanceAs (Decidable True)

structure Inv (s : ReadSem) : Prop where
  permit : s.readers + s.sem = 1
  count : tally Rplace.isOwed s.tasks ≤ s.rdsemcnt
  none : tally Rplace.isWakingAll s.tasks = 0

/- The invariant after a task has gone from `a` to `b`. -/
theorem Inv.moved (hi : s.Inv) (ha : s.tasks[i]? = some a) (ht : t.tasks = s.tasks.set i b)
    (hs : t.sem + b.isInside.toNat = s.sem + a.isInside.toNat)
    (hc : s.rdsemcnt + b.isOwed.toNat ≤ t.rdsemcnt + a.isOwed.toNat) (hw : b.isWakingAll = false) : t.Inv := by
  obtain ⟨h1,h2,h3⟩ := hi
  have hin := tally_set ha b Rplace.isInside
  have how := tally_set ha b Rplace.isOwed
  have hwk := tally_set ha b Rplace.isWakingAll
  rw [← ht] at hin how hwk
  rw [readers] at h1
  rw [hw] at hwk
  refine ⟨?_,?_,?_⟩
  · rw [readers]
    omega
  · omega
  · have hz : (false : Bool).toNat = 0 := rfl
    omega

/- Nobody raises the semaphore for all. -/
theorem Inv.not_waking (hi : s.Inv) (ha : s.tasks[i]? = some a) : a.isWakingAll = false := by
  by_contra hn
  have hpos := tally_pos (p := Rplace.isWakingAll) ha (by simpa using hn)
  have := hi.none
  omega

theorem step_inv (hi : s.Inv) (hg : s.Guard act) (h : s.step act = some t) : t.Inv := by
  cases act with
  | sleep i =>
    obtain ⟨ha,rfl⟩ := go_some h
    refine hi.moved (s := s) ha rfl rfl ?_ rfl
    simp [Rplace.isOwed,move]
  | down i =>
    simp only [step,Option.ite_none_right_eq_some] at h
    obtain ⟨hs,h⟩ := h
    obtain ⟨ha,rfl⟩ := go_some h
    exact hi.moved (s := s) ha rfl (Nat.sub_add_cancel hs) le_rfl rfl
  | signal i =>
    simp only [step,Option.ite_none_right_eq_some] at h
    obtain ⟨-,h⟩ := h
    obtain ⟨ha,rfl⟩ := go_some h
    refine hi.moved (s := s) ha rfl rfl ?_ rfl
    simp [Rplace.isOwed,move]
  | giveBack i =>
    obtain ⟨ha,rfl⟩ := go_some h
    exact hi.moved (s := s) ha rfl rfl le_rfl rfl
  | leave i =>
    obtain ⟨ha,rfl⟩ := go_some h
    exact hi.moved (s := s) ha rfl rfl le_rfl rfl
  | wakeAll i =>
    obtain ⟨ha,rfl⟩ := go_some h
    exact hi.moved (s := s) ha rfl rfl le_rfl rfl
  | read i =>
    simp only [step] at h
    split at h
    next all ha =>
      obtain rfl := Option.some.inj h
      cases all with
      | true =>
        have hle := hg ha
        rw [if_neg (by omega)]
        exact hi.moved (s := s) ha rfl rfl le_rfl rfl
      | false =>
        have howed := tally_pos (p := Rplace.isOwed) ha rfl
        have hcnt := hi.count
        rw [if_pos (by omega)]
        exact hi.moved (s := s) ha rfl rfl le_rfl rfl
    next => cases h
  | dec i =>
    simp only [step] at h
    split at h
    next all ha =>
      obtain rfl := Option.some.inj h
      cases all with
      | true => cases hi.not_waking ha
      | false =>
        refine hi.moved (s := s) ha rfl rfl ?_ rfl
        simp [Rplace.isOwed,move]
    next => cases h
  | up i =>
    simp only [step] at h
    split at h
    next all ha =>
      obtain rfl := Option.some.inj h
      cases all with
      | true => cases hi.not_waking ha
      | false => exact hi.moved (s := s) ha rfl rfl le_rfl rfl
    next => cases h

theorem init_inv (n : ℕ) : (init n).Inv := by
  refine ⟨?_,?_,?_⟩
  · rw [readers,init,tally_replicate n rfl]
    rfl
  · rw [init,tally_replicate n rfl]
    exact le_rfl
  · rw [init,tally_replicate n rfl]

/-- In a run in which `lis_wake_up_all_read_sem` always finds the count at 0, at most one reader is inside,
and the semaphore is up when none is. -/
theorem run_one_reader {n : ℕ} {as : List Ract} (hm : Meets step Guard (init n) as)
    (h : exec step (init n) as = some t) : t.Exclusive := by
  have hi : t.Inv := exec_preserves (fun _ _ _ => step_inv) (init_inv n) hm h
  have hp := hi.permit
  exact ⟨by omega,fun hz => by omega⟩

/- Two readers one after the other, and an error when they have left. -/
theorem run_one_reader_two : ∃ t, exec step (init 3) [.sleep 0,.sleep 1,.down 0,.leave 0,.read 0,.dec 0,.up 0,.down 1,
    .leave 1,.read 1,.dec 1,.up 1,.wakeAll 2,.read 2] = some t ∧ t.Exclusive := by
  refine Exists.imp (fun t ht => ⟨ht,run_one_reader ?_ ht⟩) (Option.isSome_iff_exists.mp rfl)
  decide

/- An error arrives while a reader is inside, and the next reader is let in. -/
theorem two_readers : ¬ ∀ n as t, exec step (init n) as = some t → t.Exclusive := by
  intro h
  have hone := (h 3 [.sleep 0,.down 0,.wakeAll 2,.read 2,.dec 2,.up 2,.sleep 1,.down 1] _ rfl).one
  exact absurd hone (by decide)

end CSLiS.Wait.ReadSem
