import CSLiS.Lib.Exec

/-!
# The queue lock (head/queue.c)

`lis_lockq` and `lis_unlockq` work on the `lis_q_sync_t` that a queue shares with others.
Tasks put brackets of the two around their work, also nested ones. Every access to shared
memory is a step, and so is a change of `QOPENING` in the flags of one of the queues.
-/

namespace CSLiS.Queue

/- Where a task is in `lis_lockq` or `lis_unlockq`. -/
inductive LockPc
  | out
  | flagged   -- QOPENING is clear: whose is the lock?
  | nested    -- its own: count one level up
  | waiting   -- in lis_down_nosig
  | locked    -- has the semaphore: count one level up
  | owning    -- to write qs_taskp
  | leaving   -- to count one level down
  | testing   -- to read qs_nest
  | clearing  -- to clear qs_taskp
  | posting   -- to lis_up
  deriving DecidableEq, Repr

/- `depth` counts the brackets that a task has open. It changes with `qs_nest`, or at the
first step of a call that leaves `qs_nest` alone. -/
structure Locker where
  pc : LockPc
  depth : ℕ
  deriving DecidableEq, Repr

structure QSync where
  qsTaskp : Option ℕ
  qsNest : ℤ
  qsSem : ℕ
  opening : ℕ → Bool
  tasks : ℕ → Locker

inductive LockAct
  | lockq (t q : ℕ)
  | unlockq (t : ℕ)
  | run (t : ℕ)
  | setOpening (q : ℕ) (b : Bool)

namespace QSync

variable (s : QSync)

def init (opening : ℕ → Bool) : QSync := ⟨none,0,1,opening,fun _ => ⟨.out,0⟩⟩

def goto (t : ℕ) (pc : LockPc) (depth : ℕ) : QSync :=
  { s with tasks := Function.update s.tasks t ⟨pc,depth⟩ }

/- `lis_is_current_task` -/
def isCurrent (t : ℕ) : Bool := s.qsTaskp == some t

/- The next step inside a call (`queue.c:271-301`, `queue.c:304-315`). -/
def run (t : ℕ) : Option QSync :=
  let d := (s.tasks t).depth
  match (s.tasks t).pc with
  | .out => none
  | .flagged => some (s.goto t (if s.isCurrent t then .nested else .waiting) d)
  | .nested => some ({ s with qsNest := s.qsNest + 1 }.goto t .out (d + 1))
  | .waiting => if 0 < s.qsSem then some ({ s with qsSem := s.qsSem - 1 }.goto t .locked d) else none
  | .locked => some ({ s with qsNest := s.qsNest + 1 }.goto t .owning (d + 1))
  | .owning => some ({ s with qsTaskp := some t }.goto t .out d)
  | .leaving => some ({ s with qsNest := s.qsNest - 1 }.goto t .testing (d - 1))
  | .testing => some (s.goto t (if s.qsNest = 0 then .clearing else .out) d)
  | .clearing => some ({ s with qsTaskp := none }.goto t .posting d)
  | .posting => some ({ s with qsSem := s.qsSem + 1 }.goto t .out d)

def step : LockAct → Option QSync
  -- with QOPENING set lis_lockq returns at once, as if there were no lock
  | .lockq t q =>
      let d := (s.tasks t).depth
      if (s.tasks t).pc = .out then
        some (if s.opening q then s.goto t .out (d + 1) else s.goto t .flagged d)
      else none
  -- lis_unlockq does not look at the flags
  | .unlockq t =>
      let d := (s.tasks t).depth
      if (s.tasks t).pc = .out ∧ 0 < d then
        some (if s.isCurrent t then s.goto t .leaving d else s.goto t .testing (d - 1))
      else none
  | .run t => s.run t
  | .setOpening q b => some { s with opening := Function.update s.opening q b }

end QSync

end CSLiS.Queue
