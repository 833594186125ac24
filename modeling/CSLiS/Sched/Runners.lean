import CSLiS.Lib.Exec
import CSLiS.Lib.Crew

/-!
# The queue runner threads (head/linux-mdep.c, head/stream.c, head/queue.c, head/head.c)

Each CPU has at most one runner thread, any number of tasks link work and call `lis_setqsched`. A section
under a lock is a step, and so is each access to a counter or a flag outside of one, and each operation on
a semaphore. `lis_runq_cnt` does not change any more after the start. What queues are linked, and whether a
wait is interrupted, is up to the run; what a service procedure or a callback does are steps of tasks. The
kernel is an SMP kernel. The statistics are left out.
-/

namespace CSLiS.RunQueues
open Lib Lib.Crew

/- Where a runner thread is: in `lis_run_queues` from `test` to `out`, of that in `queuerun` from `scan` to
`runq`. On a CPU that is `absent` no thread was started. -/
inductive Place
  | absent
  | exited
  | asleep
  | test
  | incRunning
  | incActive
  | scan
  | bcTest
  | bcDec
  | dobufcall
  | runq
  | decActive
  | decRunning
  | out
  deriving DecidableEq, Repr

/- The runner of a CPU, with its `lis_runq_sems`, `lis_runq_active_flags` and `sig_cnt`. -/
structure Cpu where
  place : Place
  sem : ℕ
  active : ℕ
  sigCnt : ℕ
  deriving DecidableEq, Repr

/- Where a task is: `flagged` after it has set `lis_strbcflag`, `calls` before the lock of `lis_setqsched`, the
others in it, on CPU `my`. -/
inductive Task
  | idle
  | flagged (my : ℕ)
  | calls (my : ℕ)
  | runqCnt (my : ℕ)
  | queuesRunning (my : ℕ)
  | reqCnt (my queuesRunning : ℕ)
  | loop (my cpu thresh : ℕ)
  | raise (my cpu thresh : ℕ)
  | recheck (my cpu thresh : ℕ)
  | last (my : ℕ)
  | lastRaise (my : ℕ)
  | returnPoint
  deriving DecidableEq, Repr

/- `raised` has the CPUs whose semaphore `lis_setqsched` has raised. -/
structure Runners where
  lisQhead : List ℕ
  lisScanqhead : List ℕ
  lisStrbcflag : Bool
  lisRunqReqCnt : ℤ
  lisQueuesRunning : ℕ
  lisRunqCnt : ℕ
  qschedRunning : Bool
  cpus : List Cpu
  tasks : List Task
  raised : List ℕ
  deriving DecidableEq, Repr

inductive Act
  | qenable (t my q : ℕ)
  | addToScanl (q : ℕ)
  | bcTimeout (t my : ℕ)
  | setqsched (t my : ℕ)
  | deschedule (rq wq : ℕ) (scan run : Bool)
  | task (t : ℕ)
  | run (c : ℕ)
  | signal (c : ℕ) (killed : Bool)
  deriving Repr

def WORK_INCR : ℕ := 13

namespace Place

/- A thread was started. -/
def started (p : Place) : Bool := p != .absent

def lives (p : Place) : Bool := p != .absent && p != .exited

/- Counted in `lis_queues_running`. -/
def running : Place → Bool
  | .incActive | .scan | .bcTest | .bcDec | .dobufcall | .runq | .decActive | .decRunning => true
  | _ => false

/- The active flag of the CPU is set. -/
def active : Place → Bool
  | .scan | .bcTest | .bcDec | .dobufcall | .runq | .decActive => true
  | _ => false

/- In `lis_run_queues`. -/
def inside : Place → Bool
  | .absent | .exited | .asleep => false
  | _ => true

end Place

namespace Runners

variable (s : Runners)

/- The threads have been started. -/
def init (threads : List Bool) (n : ℕ) : Runners :=
  ⟨[],[],false,0,0,tally id threads,false,threads.map fun b => ⟨if b then .test else .absent,0,0,0⟩,List.replicate n .idle,[]⟩

def goto (t : ℕ) (k : Task) : Runners := { s with tasks := s.tasks.set t k }
def setCpu (c : ℕ) (x : Cpu) : Runners := { s with cpus := s.cpus.set c x }

def activeFlag (c : ℕ) : ℕ := (s.cpus[c]?.map Cpu.active).getD 0

/- `lis_up(&lis_runq_sems[c])` -/
def up (c : ℕ) : Runners :=
  match s.cpus[c]? with
  | none => { s with raised := s.raised ++ [c] }
  | some x => { s.setCpu c { x with sem := x.sem + 1 } with raised := s.raised ++ [c] }

/-- The end of `lis_qenable` under `lis_qhead_lock` (`queue.c:1345-1372`) -/
def append (q : ℕ) : Runners := { s with lisQhead := s.lisQhead ++ [q], lisRunqReqCnt := s.lisRunqReqCnt + 1 }

/-- `add_to_scanl` under `lis_qhead_lock` (`head.c:1433-1441`) -/
def addToScanl (q : ℕ) : Runners :=
  { s with lisScanqhead := s.lisScanqhead ++ [q], lisRunqReqCnt := s.lisRunqReqCnt + 1 }

/-- `deschedule` (`head.c:8083-8213`), where `scan` and `run` say if the flags are set and the magic number is right -/
def deschedule (rq wq : ℕ) (scan run : Bool) : Runners :=
  let scanq := if scan then s.lisScanqhead.filter (· != wq) else s.lisScanqhead
  let runq := if run then s.lisQhead.filter fun q => q != rq && q != wq else s.lisQhead
  { s with
    lisScanqhead := scanq, lisQhead := runq,
    lisRunqReqCnt := s.lisRunqReqCnt - ((s.lisScanqhead.length - scanq.length) + (s.lisQhead.length - runq.length) : ℕ) }

/-- A step of `bc_timeout` or `lis_setqsched` (`buffcall.c:104-111`, `linux-mdep.c:5209-5333`) -/
def taskStep (t : ℕ) : Task → Option Runners
  | .idle => none
  | .flagged my => some ({ s with lisRunqReqCnt := s.lisRunqReqCnt + 1 }.goto t (.calls my))
  | .calls my =>
      if s.qschedRunning then some (s.goto t .idle)
      else some ({ s with qschedRunning := true }.goto t (.runqCnt my))
  | .runqCnt my => some (s.goto t (if s.lisRunqCnt = 0 then .returnPoint else .queuesRunning my))
  | .queuesRunning my => some (s.goto t (.reqCnt my s.lisQueuesRunning))
  | .reqCnt my n =>
      if s.lisRunqReqCnt ≤ (WORK_INCR * n : ℕ) ∨ n = s.lisRunqCnt then some (s.goto t .returnPoint)
      else some (s.goto t (.loop my 0 (WORK_INCR * n)))
  | .loop my cpu thresh =>
      if cpu < s.lisRunqCnt then
        if cpu ≠ my ∧ s.activeFlag cpu = 0 then some (s.goto t (.raise my cpu thresh))
        else some (s.goto t (.loop my (cpu + 1) thresh))
      else some (s.goto t (.last my))
  | .raise my cpu thresh => some ((s.up cpu).goto t (.recheck my cpu (thresh + WORK_INCR)))
  | .recheck my cpu thresh =>
      if s.lisRunqReqCnt ≤ (thresh : ℕ) then some (s.goto t .returnPoint) else some (s.goto t (.loop my (cpu + 1) thresh))
  | .last my => some (s.goto t (if s.activeFlag my = 0 then .lastRaise my else .returnPoint))
  | .lastRaise my => some ((s.up my).goto t .returnPoint)
  | .returnPoint => some ({ s with qschedRunning := false }.goto t .idle)

/-- A step of `lis_thread_runqueues`, `lis_run_queues` or `queuerun` (`linux-mdep.c:5110-5133`,
`stream.c:122-416`) -/
def runStep (c : ℕ) (x : Cpu) : Option Runners :=
  match x.place with
  | .absent | .exited => none
  | .asleep => if x.sem = 0 then none else some (s.setCpu c ⟨.test,x.sem - 1,x.active,0⟩)
  | .test => some (s.setCpu c { x with place := if 0 < s.lisRunqReqCnt then .incRunning else .out })
  | .incRunning => some ({ s with lisQueuesRunning := s.lisQueuesRunning + 1 }.setCpu c { x with place := .incActive })
  | .incActive => some (s.setCpu c { x with place := .scan, active := x.active + 1 })
  | .scan =>
      match s.lisScanqhead with
      | [] => some (s.setCpu c { x with place := .bcTest })
      | _ :: l => some { s with lisScanqhead := l, lisRunqReqCnt := s.lisRunqReqCnt - 1 }
  | .bcTest => some (s.setCpu c { x with place := if s.lisStrbcflag then .bcDec else .runq })
  | .bcDec => some ({ s with lisRunqReqCnt := s.lisRunqReqCnt - 1 }.setCpu c { x with place := .dobufcall })
  | .dobufcall => some ({ s with lisStrbcflag := false }.setCpu c { x with place := .runq })
  | .runq =>
      match s.lisQhead with
      | _ :: l => some { s with lisQhead := l, lisRunqReqCnt := s.lisRunqReqCnt - 1 }
      | [] =>
          let n := if s.lisRunqReqCnt ≠ 0 ∧ s.lisScanqhead = [] ∧ s.lisStrbcflag = false then 0 else s.lisRunqReqCnt
          some ({ s with lisRunqReqCnt := n }.setCpu c { x with place := .decActive })
  | .decActive => some (s.setCpu c { x with place := .decRunning, active := x.active - 1 })
  | .decRunning => some ({ s with lisQueuesRunning := s.lisQueuesRunning - 1 }.setCpu c { x with place := .test })
  | .out => some (s.setCpu c { x with place := .asleep })

/- The wait in `lis_thread_runqueues` is interrupted. -/
def signal (c : ℕ) (x : Cpu) (killed : Bool) : Option Runners :=
  if x.place = .asleep then
    if killed ∨ 5 ≤ x.sigCnt + 1 then some (s.setCpu c ⟨.exited,0,x.active,0⟩)
    else some (s.setCpu c { x with place := .test, sigCnt := x.sigCnt + 1 })
  else none

def step (s : Runners) : Act → Option Runners
  | .qenable t my q => if s.tasks[t]? = some .idle then some ((s.append q).goto t (.calls my)) else none
  | .addToScanl q => some (s.addToScanl q)
  | .bcTimeout t my =>
      if s.tasks[t]? = some .idle then some ({ s with lisStrbcflag := true }.goto t (.flagged my)) else none
  | .setqsched t my => if s.tasks[t]? = some .idle then some (s.goto t (.calls my)) else none
  | .deschedule rq wq scan run => some (s.deschedule rq wq scan run)
  | .task t => s.tasks[t]?.bind fun k => s.taskStep t k
  | .run c => s.cpus[c]?.bind fun x => s.runStep c x
  | .signal c killed => s.cpus[c]?.bind fun x => s.signal c x killed

end Runners

end CSLiS.RunQueues
