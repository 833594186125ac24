import Mathlib

/-!
# Service scheduling (head/queue.c, head/stream.c, head/head.c)

`lis_qenable` sets QENAB under the queue's interrupt lock and links the queue into the list of
scheduled queues under `lis_qhead_lock`. `queuerun` takes queues from the list. Each part under
one of these locks is a step, so is the service procedure. What a service or put procedure calls
is done by other tasks.

A task has the sections that it has still to run. All queues have service procedures.
-/

namespace CSLiS.Sched

structure Qflag where
  qenab : Bool
  qprocsoff : Bool
  qclosing : Bool
  qrunning : Bool
  qopening : Bool
  qfrozen : Bool
  qwantenab : Bool
  qwaiting : Bool
  deriving DecidableEq, Repr

namespace Qflag

/- Q_INH_ENABLE and Q_DEFER_ENABLE -/
def inhEnable (f : Qflag) : Bool := f.qenab || f.qprocsoff || f.qclosing || f.qrunning || f.qopening || f.qfrozen
def deferEnable (f : Qflag) : Bool := f.qenab || f.qprocsoff || f.qrunning || f.qopening || f.qfrozen

/- The queue is being closed or detached. -/
def gone (f : Qflag) : Bool := f.qclosing || f.qwaiting

end Qflag

/- What does not change: `OTHER(q)`, the stream head of a queue, the other end of a pipe, and the
queues from `sd_wq` of a stream head along `q_next`. -/
structure Streams where
  other : ℕ → ℕ
  qStr : ℕ → Option ℕ
  sdPeer : ℕ → Option ℕ
  queues : ℕ → List ℕ

inductive Call
  | lisQenable (q : ℕ)
  | lisRetryQenable (q : ℕ)
  | lisQprocson (rdq : ℕ)
  | lisQprocsoff (rdq : ℕ)
  | lisFreezestr (q : ℕ)
  | lisUnfreezestr (q : ℕ)
  | queuerun
  deriving DecidableEq, Repr

/- The sections. `qenable` is `lis_qenable` up to the release of the interrupt lock, `append` the
rest. `take`, `clear`, `service` and `finish` are one round of `queuerun`. -/
inductive Section
  | qenable (q : ℕ)
  | append (q : ℕ)
  | retry (q : ℕ)
  | procson (rdq : ℕ)
  | procsoff (rdq : ℕ)
  | freeze (q : ℕ)
  | thaw (q : ℕ)
  | sdFlag (hd : ℕ) (frozen : Bool)
  | take
  | clear (q : ℕ)
  | service (q : ℕ) (procsoff : Bool)
  | finish (q : ℕ)
  deriving DecidableEq, Repr

/- `owed` tells that `lis_qenable` was called for a queue since its service procedure was entered. -/
structure Runq where
  flag : ℕ → Qflag
  link : ℕ → Option ℕ
  lisQhead : Option ℕ
  lisQtail : Option ℕ
  strfrozen : ℕ → Bool
  tasks : List (List Section)
  owed : ℕ → Bool

inductive Act
  | call (i : ℕ) (c : Call)
  | run (i : ℕ) (ok : Bool)

namespace Runq

variable (S : Streams) (s : Runq)

def init (n : ℕ) (f : ℕ → Qflag) : Runq :=
  ⟨fun q => { f q with qenab := false, qrunning := false, qwantenab := false },fun _ => none,none,none,fun _ => false,
    List.replicate n [],fun _ => false⟩

def setFlag (q : ℕ) (f : Qflag) : Runq := { s with flag := Function.update s.flag q f }
def setLink (q : ℕ) (o : Option ℕ) : Runq := { s with link := Function.update s.link q o }

/- The stream and its peer are marked. Marking a marked one again changes nothing. -/
def sdFlags (hd : ℕ) (frozen : Bool) : List Section :=
  .sdFlag hd frozen :: (S.sdPeer hd).toList.map fun peer => .sdFlag peer frozen

/- The sections of a call. STRFROZEN is tested at its start. -/
def sections : Call → List Section
  | .lisQenable q => [.qenable q]
  | .lisRetryQenable q => [.retry q]
  | .lisQprocson rdq => [.procson rdq]
  | .lisQprocsoff rdq => [.procsoff rdq]
  | .lisFreezestr q =>
      match S.qStr q with
      | none => []
      | some hd =>
          if s.strfrozen hd then []
          else sdFlags S hd true ++ (S.queues hd).flatMap fun q => [.freeze q,.freeze (S.other q)]
  | .lisUnfreezestr q =>
      match S.qStr q with
      | none => []
      | some hd =>
          if s.strfrozen hd then
            ((S.queues hd).flatMap fun q => [.thaw q,.thaw (S.other q)]) ++ sdFlags S hd false
          else []
  | .queuerun => [.take]

/- `lis_qenable` links a queue to the end of the list (`queue.c:1346-1351`). -/
def linkTail (q : ℕ) : Option Runq :=
  let s := s.setLink q none
  match s.lisQhead, s.lisQtail with
  | none, _ => some { s with lisQhead := some q, lisQtail := some q }
  | some _, some t => some { s.setLink t (some q) with lisQtail := some q }
  | some _, none => none

/- `queuerun` takes the first queue (`stream.c:260-265`). -/
def unlinkHead (q : ℕ) : Runq :=
  let s := { s with lisQhead := s.link q }.setLink q none
  let s := s.setFlag q { s.flag q with qrunning := true }
  { s with lisQtail := if s.lisQtail = some q then none else s.lisQtail }

/- What a section does, and the sections that the task runs next. `lis_lockq` fails at the start
of `service` if it is interrupted. -/
def perform (ok : Bool) : Section → Option (Runq × List Section)
  | .qenable q =>
      let f := s.flag q
      let s := { s with owed := Function.update s.owed q true }
      if f.inhEnable then some (s.setFlag q { f with qwantenab := f.qwantenab || f.deferEnable },[])
      else some (s.setFlag q { f with qenab := true },[.append q])
  | .append q => (s.linkTail q).map fun s => (s,[])
  | .retry q =>
      let f := s.flag q
      if f.qwantenab && !f.inhEnable then some (s.setFlag q { f with qwantenab := false },[.qenable q])
      else some (s,[])
  | .procson rdq =>
      let s := s.setFlag rdq { s.flag rdq with qprocsoff := false, qenab := false }
      let oq := S.other rdq
      some (s.setFlag oq { s.flag oq with qprocsoff := false, qenab := false },[.retry rdq,.retry oq])
  | .procsoff rdq =>
      let s := s.setFlag rdq { s.flag rdq with qprocsoff := true }
      let oq := S.other rdq
      some (s.setFlag oq { s.flag oq with qprocsoff := true },[])
  | .freeze q => some (s.setFlag q { s.flag q with qfrozen := true },[])
  | .thaw q => some (s.setFlag q { s.flag q with qopening := false, qfrozen := false },[.retry q])
  | .sdFlag hd frozen => some ({ s with strfrozen := Function.update s.strfrozen hd frozen },[])
  | .take =>
      match s.lisQhead with
      | none => some (s,[])
      | some q => some (s.unlinkHead q,[.clear q,.take])
  | .clear q => some (s.setFlag q { s.flag q with qenab := false },[.service q (s.flag q).qprocsoff])
  | .service q procsoff =>
      if ok then some ({ s with owed := if procsoff then s.owed else Function.update s.owed q false },[.finish q])
      else some (s.setFlag q { s.flag q with qrunning := false },[])
  | .finish q =>
      let f := s.flag q
      some (s.setFlag q { f with qrunning := false },if f.qwaiting then [] else if f.qwantenab then [.retry q] else [])

def step : Act → Option Runq
  | .call i c =>
      match s.tasks[i]? with
      | some [] => some { s with tasks := s.tasks.set i (s.sections S c) }
      | _ => none
  | .run i ok =>
      match s.tasks[i]? with
      | some (o :: os) => (s.perform S ok o).map fun r => { r.1 with tasks := r.1.tasks.set i (r.2 ++ os) }
      | _ => none

end Runq

end CSLiS.Sched
