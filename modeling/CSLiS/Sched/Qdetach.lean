import CSLiS.Lib.Exec

/-!
# Detaching a queue pair from the scheduling lists (head/head.c, head/queue.c, head/stream.c)

A section under `lis_qhead_lock` or under the interrupt lock of a queue is a step. The queues of pair `p` are
`(p,true)`, the read side, and `(p,false)`. Each pair is detached by one task, which stands at `detach p`. The
other tasks call `lis_qenable`, `lis_putq`, the handler of the scan timer or `queuerun`. What a close, put or
service procedure calls is done by other tasks. `lis_lockq` keeps no step from being taken.
-/

namespace CSLiS.Sched.Qdetach

abbrev Queue := ℕ × Bool

def RD (p : ℕ) : Queue := (p,true)
def WR (p : ℕ) : Queue := (p,false)

/- The flags that opens, closes and freezes of streams change, and QWANTR and QNOENB. -/
structure Marks where
  qclosing : Bool
  qopening : Bool
  qfrozen : Bool
  qclosewt : Bool
  qnoenb : Bool
  qwantr : Bool
  deriving DecidableEq, Repr

structure Qflag extends Marks where
  qenab : Bool
  qscan : Bool
  qrunning : Bool
  qwaiting : Bool
  qprocsoff : Bool
  qwantenab : Bool
  deriving DecidableEq, Repr

/- The list at `lis_qhead` and the one at `lis_scanqhead`. -/
inductive Which
  | run
  | scan
  deriving DecidableEq, Repr

namespace Qflag

/- Q_INH_ENABLE and Q_DEFER_ENABLE -/
def inhEnable (f : Qflag) : Bool := f.qenab || f.qprocsoff || f.qclosing || f.qrunning || f.qopening || f.qfrozen
def deferEnable (f : Qflag) : Bool := f.qenab || f.qprocsoff || f.qrunning || f.qopening || f.qfrozen

def on (f : Qflag) : Which → Bool
  | .run => f.qenab
  | .scan => f.qscan

def clear (f : Qflag) : Which → Qflag
  | .run => { f with qenab := false }
  | .scan => { f with qscan := false }

def busy (f : Qflag) : Bool := f.qenab || f.qscan || f.qrunning

end Qflag

inductive Call
  | lisPutq (q : Queue) (pri : Bool)
  | lisQenable (q : Queue)
  | lisRetryQenable (q : Queue)
  | addToScanl (p : ℕ)
  | queuerun
  deriving DecidableEq, Repr

/- Where a task is. `run` tells that `queuerun` has called `lis_retry_qenable`, which has called `lis_qenable`.
`link` is what `lis_qenable` and `add_to_scanl` do under `lis_qhead_lock`. `take` to `wake` are a round of
`queuerun`: QRUNNING is set, the flag of the list cleared, the queue served, QRUNNING cleared, `lis_up` called. -/
inductive Place
  | idle
  | putq (q : Queue) (pri : Bool)
  | retry (q : Queue) (run : Bool)
  | qenable (q : Queue) (run : Bool)
  | timer (p : ℕ)
  | link (w : Which) (q : Queue) (run : Bool)
  | take (w : Which)
  | clear (w : Which) (q : Queue)
  | body (w : Which) (q : Queue)
  | finish (w : Which) (q : Queue)
  | wake (w : Which) (q : Queue)
  deriving DecidableEq, Repr

def Call.place : Call → Place
  | .lisPutq q pri => .putq q pri
  | .lisQenable q => .qenable q false
  | .lisRetryQenable q => .retry q false
  | .addToScanl p => .timer p
  | .queuerun => .take .scan

/- Where `lis_qdetach` is: QPROCSOFF is set in `closing`, `deschedule` has been called in `unlisted`, the rest is
`lis_await_qsched` until `passed`. -/
inductive Detach
  | idle
  | closing
  | unlisted
  | locking
  | asleep
  | awake
  | passed
  | freed
  deriving DecidableEq, Repr

/- `wakeup` is what `q_wakeup_sem` of the queues of a pair points to. -/
structure Lists where
  flag : Queue → Qflag
  list : Which → List Queue
  wakeup : ℕ → Option ℕ
  magic : ℕ → Bool
  detach : ℕ → Detach
  tasks : List Place

inductive Act
  | call (i : ℕ) (c : Call)
  | run (i : ℕ) (ok : Bool)
  | detach (p : ℕ)
  | mark (q : Queue) (m : Marks)
  deriving DecidableEq, Repr

namespace Lists

variable (srvp : Queue → Bool) (s : Lists)

def init (m : Queue → Marks) (wantenab : Queue → Bool) (n : ℕ) : Lists :=
  ⟨fun q => ⟨m q,false,false,false,false,false,wantenab q⟩,fun _ => [],fun _ => none,fun _ => true,fun _ => .idle,
    List.replicate n .idle⟩

def setFlag (q : Queue) (f : Qflag) : Lists := { s with flag := Function.update s.flag q f }
def setList (w : Which) (l : List Queue) : Lists := { s with list := Function.update s.list w l }
def setDetach (p : ℕ) (d : Detach) : Lists := { s with detach := Function.update s.detach p d }
def setPc (i : ℕ) (o : Place) : Lists := { s with tasks := s.tasks.set i o }

/- Where `lis_qenable` and `lis_retry_qenable` return to. -/
def back (run : Bool) : Place := if run then .take .run else .idle

def lisQenable (q : Queue) (run : Bool) : Lists × Place :=
  let f := s.flag q
  if !s.magic q.1 || !srvp q then (s,back run)
  else if f.inhEnable then (s.setFlag q { f with qwantenab := f.qwantenab || f.deferEnable },back run)
  else (s.setFlag q { f with qenab := true },.link .run q run)

def lisRetryQenable (q : Queue) (run : Bool) : Lists × Place :=
  let f := s.flag q
  if f.qwantenab && !f.inhEnable then (s.setFlag q { f with qwantenab := false },.qenable q run) else (s,back run)

/- `updatequeue` calls `lis_qenable`. -/
def lisPutq (q : Queue) (pri : Bool) : Place :=
  let f := s.flag q
  if !s.magic q.1 || (f.qclosing || f.qprocsoff) then .idle
  else if pri || !f.qnoenb && f.qwantr then .qenable q false
  else .idle

def addToScanl (p : ℕ) : Lists × Place :=
  let f := s.flag (WR p)
  if f.qscan || f.qprocsoff then (s,.idle)
  else (s.setFlag (WR p) { f with qscan := true },.link .scan (WR p) false)

/- `queuerun` goes from the scan list to the run list. -/
def take (w : Which) : Lists × Place :=
  match s.list w with
  | [] => (s,match w with | .scan => .take .run | .run => .idle)
  | q :: l => ((s.setList w l).setFlag q { s.flag q with qrunning := true },.clear w q)

def clear (w : Which) (q : Queue) : Lists × Place :=
  let f := s.flag q
  let skip := match w with | .scan => true | .run => f.qclosewt || f.qwantenab
  if !s.magic q.1 && skip then (s,.take w) else (s.setFlag q (f.clear w),.body w q)

def finish (w : Which) (q : Queue) : Lists × Place :=
  let f := s.flag q
  (s.setFlag q { f with qrunning := false },
    if f.qwaiting && (s.wakeup q.1).isSome then .wake w q
    else match w with
      | .scan => .take .scan
      | .run => if f.qwantenab then .retry q true else .take .run)

/- `lis_lockq` may fail in `body`. -/
def perform (ok : Bool) : Place → Option (Lists × Place)
  | .idle => none
  | .putq q pri => some (s,s.lisPutq q pri)
  | .retry q run => some (s.lisRetryQenable q run)
  | .qenable q run => some (s.lisQenable srvp q run)
  | .timer p => some (s.addToScanl p)
  | .link w q run => some (s.setList w (s.list w ++ [q]),back run)
  | .take w => some (s.take w)
  | .clear w q => some (s.clear w q)
  | .body w q => some (if ok then (s,.finish w q) else (s.setFlag q { s.flag q with qrunning := false },.take w))
  | .finish w q => some (s.finish w q)
  | .wake w q => some ({ s with wakeup := Function.update s.wakeup q.1 ((s.wakeup q.1).map (· + 1)) },.take w)

/- `lis_qdetach` sets QPROCSOFF in both halves under both locks. -/
def procsoff (p : ℕ) : Lists :=
  let s := s.setFlag (WR p) { s.flag (WR p) with qprocsoff := true }
  s.setFlag (RD p) { s.flag (RD p) with qprocsoff := true }

def unscan (p : ℕ) : Lists :=
  if (s.flag (WR p)).qscan then
    (s.setList .scan ((s.list .scan).filter (· ≠ WR p))).setFlag (WR p) { s.flag (WR p) with qscan := false }
  else s

def unrun (p : ℕ) : Lists :=
  if (s.flag (WR p)).qenab || (s.flag (RD p)).qenab then
    let s := s.setList .run ((s.list .run).filter fun q => q ≠ RD p ∧ q ≠ WR p)
    let s := s.setFlag (WR p) { s.flag (WR p) with qenab := false }
    s.setFlag (RD p) { s.flag (RD p) with qenab := false }
  else s

def deschedule (p : ℕ) : Lists := (s.unscan p).unrun p

def busy (p : ℕ) : Bool := (s.flag (RD p)).busy || (s.flag (WR p)).busy

def setWaiting (p : ℕ) (b : Bool) (o : Option ℕ) : Lists :=
  let s := s.setFlag (RD p) { s.flag (RD p) with qwaiting := b }
  let s := s.setFlag (WR p) { s.flag (WR p) with qwaiting := b }
  { s with wakeup := Function.update s.wakeup p o }

/- The test of the loop in `lis_await_qsched`, and what follows it under the same locks. -/
def await (p : ℕ) : Lists :=
  if s.busy p then s.setDetach p .asleep else (s.setWaiting p false none).setDetach p .passed

/- The next section of `lis_qdetach`. `lis_down_nosig` waits for the semaphore. -/
def lisQdetach (p : ℕ) : Option Lists :=
  match s.detach p with
  | .idle => some ((s.procsoff p).setDetach p .closing)
  | .closing => some ((s.deschedule p).setDetach p .unlisted)
  | .unlisted => some (s.setDetach p (if s.busy p then .locking else .passed))
  | .locking => some ((s.setWaiting p true (some 0)).await p)
  | .asleep =>
      match s.wakeup p with
      | some (n+1) => some ({ s with wakeup := Function.update s.wakeup p (some n) }.setDetach p .awake)
      | _ => none
  | .awake => some (s.await p)
  | .passed => some ({ s with magic := Function.update s.magic p false }.setDetach p .freed)
  | .freed => none

def step : Act → Option Lists
  | .call i c =>
      match s.tasks[i]? with
      | some .idle => some (s.setPc i c.place)
      | _ => none
  | .run i ok => (s.tasks[i]?).bind fun o => (s.perform srvp ok o).map fun r => r.1.setPc i r.2
  | .detach p => s.lisQdetach p
  | .mark q m => some (s.setFlag q { s.flag q with toMarks := m })

end Lists

end CSLiS.Sched.Qdetach
