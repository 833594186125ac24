import CSLiS.Lib.Exec
import CSLiS.Lib.Crew

/-!
# Iterations of queuerun (head/stream.c, head/head.c, head/queue.c)

`lis_qenable` and `add_to_scanl` take a reference on the stream head and link a queue, an iteration of
`queuerun` or `deschedule` takes the queue off again and drops the reference, and `lis_await_qsched` waits
for both queues of a pair. Each section under locks is a step, so is each change of the reference count and
each operation on a semaphore. Magic numbers, the result of `lis_lockq` and the flags that do not say where a
queue is are up to the run. What procedures call, and `lis_retry_qenable`, are calls of tasks.
-/

namespace CSLiS.Queuerun
open Lib Lib.Crew

/- A queue of a pair: the write queue or the read queue. -/
structure Queue where
  pair : ℕ
  wr : Bool
  deriving DecidableEq, Repr

structure Qflag where
  qenab : Bool
  qscan : Bool
  qrunning : Bool
  qwaiting : Bool
  qWakeupSem : Option ℕ
  deriving DecidableEq, Repr

/- QENAB, QSCAN or QRUNNING -/
def Qflag.busy (f : Qflag) : Bool := f.qenab || f.qscan || f.qrunning

/- Where a task is: in `lis_qenable` or `add_to_scanl` (`scan`) before the reference, and before the list; in
`lis_await_qsched` before it sets QWAITING, at its semaphore, and after that. -/
inductive Task
  | idle
  | get (scan : Bool) (q : Queue)
  | link (scan : Bool) (q : Queue)
  | await (p : ℕ)
  | down (p : ℕ)
  | woken (p : ℕ) (rslt : Bool)
  deriving DecidableEq, Repr

/- Where a queue runner is: at the head of the loop for the scan list or of the main loop, or in an iteration,
up to the magic number, the lock, the end of QRUNNING, `lis_up`, and `lis_head_put`. -/
inductive Place
  | top (scan : Bool)
  | took (scan : Bool) (q : Queue)
  | lock (scan : Bool) (q : Queue)
  | done (scan : Bool) (q : Queue)
  | up (scan : Bool) (q : Queue)
  | put (scan : Bool) (q : Queue)
  deriving DecidableEq, Repr

/- `refs` are the references taken for a queue and not dropped, `marks` how often QRUNNING was set for it
and not cleared again by the iteration. A list is `cut` when a queue is linked that is in it, or taken for
unlinked when it is not. `oops` is an up through NULL. -/
structure Sched where
  lisQhead : List Queue
  lisScanqhead : List Queue
  qFlag : Queue → Qflag
  sems : ℕ → ℕ
  tasks : List Task
  runners : List Place
  refs : Queue → ℤ
  marks : Queue → ℤ
  cut : Bool
  oops : Bool

inductive Act
  | qenable (t : ℕ) (q : Queue) (inhibited : Bool)
  | addToScanl (t p : ℕ) (procsoff : Bool)
  | awaitQsched (t p : ℕ)
  | deschedule (p : ℕ) (magic : Bool)
  | task (t : ℕ) (signalled : Bool)
  | run (c : ℕ) (magic flags locked : Bool)
  deriving Repr

namespace Sched

variable (s : Sched) (isHead : ℕ → Bool)

def init (tasks runners : ℕ) : Sched :=
  ⟨[],[],fun _ => ⟨false,false,false,false,none⟩,fun _ => 0,List.replicate tasks .idle,List.replicate runners (.top true),
    fun _ => 0,fun _ => 0,false,false⟩

def goto (t : ℕ) (k : Task) : Sched := { s with tasks := s.tasks.set t k }
def move (c : ℕ) (x : Place) : Sched := { s with runners := s.runners.set c x }
def setFlag (q : Queue) (f : Qflag) : Sched := { s with qFlag := Function.update s.qFlag q f }

/- `((rq->q_flag | wq->q_flag) & (QENAB | QSCAN | QRUNNING))` -/
def busy (p : ℕ) : Bool := (s.qFlag ⟨p,false⟩).busy || (s.qFlag ⟨p,true⟩).busy

/- QWAITING and `q_wakeup_sem` of both queues. -/
def setWaiting (p : ℕ) (b : Bool) (w : Option ℕ) : Sched :=
  let s := s.setFlag ⟨p,true⟩ { s.qFlag ⟨p,true⟩ with qwaiting := b, qWakeupSem := w }
  s.setFlag ⟨p,false⟩ { s.qFlag ⟨p,false⟩ with qwaiting := b, qWakeupSem := w }

/- A reference was taken for every queue of the scan list, and for the queues of stream heads. -/
def refd (scan : Bool) (q : Queue) : Bool := scan || isHead q.pair

def addRef (b : Bool) (q : Queue) (n : ℤ) : Sched :=
  if b then { s with refs := Function.update s.refs q (s.refs q + n) } else s

def addMark (q : Queue) (n : ℤ) : Sched := { s with marks := Function.update s.marks q (s.marks q + n) }

def list (scan : Bool) : List Queue := if scan then s.lisScanqhead else s.lisQhead
def setList (scan : Bool) (l : List Queue) : Sched :=
  if scan then { s with lisScanqhead := l } else { s with lisQhead := l }

/-- The start of `lis_qenable` (`queue.c:1313-1334`) -/
def lisQenable (t : ℕ) (q : Queue) (inhibited : Bool) : Sched :=
  if inhibited || (s.qFlag q).qenab || (s.qFlag q).qrunning then s
  else (s.setFlag q { s.qFlag q with qenab := true }).goto t (.get false q)

/-- The start of `add_to_scanl` (`head.c:1420-1430`) -/
def addToScanl (t p : ℕ) (procsoff : Bool) : Sched :=
  let q : Queue := ⟨p,true⟩
  if procsoff || (s.qFlag q).qscan then s else (s.setFlag q { s.qFlag q with qscan := true }).goto t (.get true q)

/-- `lis_await_qsched`, from where it has both locks (`head.c:1990-2027`) -/
def awaitQsched (t p : ℕ) (rslt : Bool) : Sched :=
  if s.busy p && rslt then s.goto t (.down p) else (s.setWaiting p false none).goto t .idle

/-- A part of `deschedule`: the queue is taken off a list (`head.c:8095-8135`, `head.c:8148-8180`) -/
def unlink (scan : Bool) (q : Queue) (magic : Bool) : Sched :=
  if q ∈ s.list scan then
    if magic then
      (s.addRef (refd isHead scan q) q (-(s.list scan).count q)).setList scan ((s.list scan).filter (· != q))
    else { s with cut := true }
  else s

/-- `deschedule` (`head.c:8083-8213`) -/
def deschedule (p : ℕ) (magic : Bool) : Sched :=
  let rq : Queue := ⟨p,false⟩
  let wq : Queue := ⟨p,true⟩
  let s :=
    if (s.qFlag wq).qscan then
      let s := s.unlink isHead true wq magic
      s.setFlag wq { s.qFlag wq with qscan := false }
    else s
  if (s.qFlag wq).qenab || (s.qFlag rq).qenab then
    let s := (s.unlink isHead false rq magic).unlink isHead false wq magic
    let s := s.setFlag wq { s.qFlag wq with qenab := false }
    s.setFlag rq { s.qFlag rq with qenab := false }
  else s

def taskStep (t : ℕ) (signalled : Bool) : Task → Option Sched
  | .idle => none
  | .get scan q => some ((s.addRef (refd isHead scan q) q 1).goto t (.link scan q))
  | .link scan q =>
      some ({ s.setList scan (s.list scan ++ [q]) with cut := s.cut || decide (q ∈ s.list scan) }.goto t .idle)
  | .await p => some (({ s with sems := Function.update s.sems t 0 }.setWaiting p true (some t)).awaitQsched t p true)
  | .down p =>
      if signalled then some (s.goto t (.woken p false))
      else if s.sems t = 0 then none
      else some ({ s with sems := Function.update s.sems t (s.sems t - 1) }.goto t (.woken p true))
  | .woken p rslt => some (s.awaitQsched t p rslt)

/-- An iteration of `queuerun`, in its first loop when `scan` (`stream.c:139-224`, `stream.c:240-364`) -/
def runStep (c : ℕ) (magic flags locked : Bool) : Place → Option Sched
  | .top scan =>
      match s.list scan with
      | [] => some (s.move c (.top !scan))
      | q :: l => some ((((s.setList scan l).setFlag q { s.qFlag q with qrunning := true }).addMark q 1).move c (.took scan q))
  | .took scan q =>
      if !magic && (scan || flags) then some (s.move c (.top scan))
      else
        let f := s.qFlag q
        some ((s.setFlag q (if scan then { f with qscan := false } else { f with qenab := false })).move c (.lock scan q))
  | .lock scan q =>
      if locked then some (s.move c (.done scan q))
      else some (((s.setFlag q { s.qFlag q with qrunning := false }).addMark q (-1)).move c (.top scan))
  | .done scan q =>
      let f := s.qFlag q
      let s := (s.setFlag q { f with qrunning := false }).addMark q (-1)
      some (s.move c (if f.qwaiting && f.qWakeupSem.isSome then .up scan q else .put scan q))
  | .up scan q =>
      match (s.qFlag q).qWakeupSem with
      | none => some { s.move c (.put scan q) with oops := true }
      | some t => some ({ s with sems := Function.update s.sems t (s.sems t + 1) }.move c (.put scan q))
  | .put scan q => some ((s.addRef (refd isHead scan q) q (-1)).move c (.top scan))

/- A wait can be `signalled` only if there is no stream head. -/
def step (isHead : ℕ → Bool) (s : Sched) : Act → Option Sched
  | .qenable t q inhibited => if s.tasks[t]? = some .idle then some (s.lisQenable t q inhibited) else none
  | .addToScanl t p procsoff => if s.tasks[t]? = some .idle then some (s.addToScanl t p procsoff) else none
  | .awaitQsched t p =>
      if s.tasks[t]? = some .idle then some (if s.busy p then s.goto t (.await p) else s) else none
  | .deschedule p magic => some (s.deschedule isHead p magic)
  | .task t signalled => s.tasks[t]?.bind fun k => s.taskStep isHead t signalled k
  | .run c magic flags locked => s.runners[c]?.bind fun x => s.runStep isHead c magic flags locked x

end Sched

end CSLiS.Queuerun
