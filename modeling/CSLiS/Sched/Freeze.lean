import CSLiS.Sched.Runq
import CSLiS.Sched.Qdetach

/-!
# Freezing a stream (head/head.c, head/safe.c, head/queue.c, head/stream.c)

Task 0 calls `lis_freezestr`, `lis_await_qsched` and `lis_unfreezestr` on one stream, again and again. The other
tasks call `lis_safe_putmsg`, `lis_qenable` and `queuerun` on any queue. A section under the interrupt lock of a
queue or under `lis_qhead_lock` is a step. What put and service procedures call, and what `updatequeue` calls for a
deferred message, is done by other tasks. There is no scan list. Messages are numbered.
-/

namespace CSLiS.Sched.Freeze
open Qdetach (Queue RD WR)

/- What does not change: which queues have service procedures, the next queue where `SAMESTR` holds, and the queues
of the stream from `sd_wq` along `q_next`. -/
structure Stream where
  srvp : Queue → Bool
  next : Queue → Option Queue
  queues : List Queue

def OTHER (q : Queue) : Queue := (q.1,!q.2)

/- The queues in the order in which they are marked. -/
def Stream.halves (S : Stream) : List Queue := S.queues.flatMap fun q => [q,OTHER q]

inductive Call
  | lisSafePutmsg (q : Queue) (mp : ℕ)
  | lisQenable (q : Queue)
  | queuerun
  deriving DecidableEq, Repr

/- Where a task is. `run` tells that `queuerun` has called. `deferred` to `loop` are `lis_do_deferred_puts` of queue
`h`: its start, `lis_safe_do_putmsg` at queue `q`, the call of the put procedure, and the lock after it. -/
inductive Place
  | idle
  | test (q : Queue) (mp : ℕ)
  | deliver (q : Queue) (mp : ℕ)
  | retry (q : Queue) (run : Bool)
  | qenable (q : Queue) (run : Bool)
  | link (q : Queue) (run : Bool)
  | take
  | clear (q : Queue)
  | service (q : Queue)
  | skip (q : Queue)
  | finish (q : Queue)
  | wake (q : Queue)
  | deferred (h : Queue)
  | retest (h q : Queue) (mp : ℕ)
  | redeliver (h q : Queue) (mp : ℕ)
  | loop (h : Queue) (ret : Bool)
  deriving DecidableEq, Repr

def Call.place : Call → Place
  | .lisSafePutmsg q mp => .test q mp
  | .lisQenable q => .qenable q false
  | .queuerun => .take

/- What task 0 has done: the queues still to be marked, the pair waited for, the queues still to be thawed. STRFROZEN
is set in all phases but `running`. -/
inductive Phase
  | running
  | freezing (l : List Queue)
  | frozen
  | await (p : ℕ)
  | locking (p : ℕ)
  | asleep (p : ℕ)
  | awake (p : ℕ)
  | thawing (l : List Queue)
  deriving DecidableEq, Repr

/- `awaited` tells that `lis_await_qsched` of the pair has succeeded since the freeze, `owed` that `lis_qenable` was
called since the service procedure was entered. `kept` are the messages deferred by `lis_safe_putmsg`, `given` those
of them that the put procedure was called with. -/
structure Sys where
  flag : Queue → Qflag
  deferring : Queue → Bool
  defer : Queue → List ℕ
  list : List Queue
  wakeup : ℕ → Option ℕ
  phase : Phase
  awaited : ℕ → Bool
  owed : Queue → Bool
  kept : Queue → List ℕ
  given : Queue → List ℕ
  tasks : List Place

inductive Act
  | call (i : ℕ) (c : Call)
  | run (i : ℕ) (ok : Bool)
  | lisFreezestr
  | lisAwaitQsched (p : ℕ)
  | lisUnfreezestr
  | next
  deriving DecidableEq, Repr

inductive Verdict
  | passOn (q : Queue)
  | deferred
  | deliver
  deriving DecidableEq, Repr

namespace Sys

variable (S : Stream) (s : Sys)

/- All procedures are on. -/
def init (opening : Queue → Bool) (n : ℕ) : Sys :=
  ⟨fun q => ⟨false,false,false,false,opening q,false,false,false⟩,fun _ => false,fun _ => [],[],fun _ => none,.running,
    fun _ => false,fun _ => false,fun _ => [],fun _ => [],List.replicate (n + 1) .idle⟩

def setFlag (q : Queue) (f : Qflag) : Sys := { s with flag := Function.update s.flag q f }
def setPc (i : ℕ) (o : Place) : Sys := { s with tasks := s.tasks.set i o }

def back (run : Bool) : Place := if run then .take else .idle

def lisQenable (q : Queue) (run : Bool) : Sys × Place :=
  let f := s.flag q
  let s := { s with owed := Function.update s.owed q (S.srvp q) }
  if !S.srvp q then (s,back run)
  else if f.inhEnable then (s.setFlag q { f with qwantenab := f.qwantenab || f.deferEnable },back run)
  else (s.setFlag q { f with qenab := true },.link q run)

def lisRetryQenable (q : Queue) (run : Bool) : Sys × Place :=
  let f := s.flag q
  if f.qwantenab && !f.inhEnable then (s.setFlag q { f with qwantenab := false },.qenable q run) else (s,back run)

/- The tests of `lis_safe_do_putmsg`. A message that is tried again minds QOPENING only. -/
def verdict (q : Queue) (retry : Bool) : Verdict :=
  let f := s.flag q
  if f.qprocsoff || f.qfrozen then
    match if f.qprocsoff then S.next q else none with
    | some k => .passOn k
    | none => .deferred
  else if f.qopening || !retry && s.deferring q || !(s.defer q).isEmpty then .deferred
  else .deliver

def lisDeferMsg (q : Queue) (mp : ℕ) (retry : Bool) : Sys :=
  if retry then { s with defer := Function.update s.defer q (mp :: s.defer q) }
  else { s with
    defer := Function.update s.defer q (s.defer q ++ [mp])
    kept := Function.update s.kept q (s.kept q ++ [mp]) }

def setDeferring (q : Queue) (b : Bool) : Sys := { s with deferring := Function.update s.deferring q b }

/- The head of the loop of `lis_do_deferred_puts`. `lis_retry_qenable` follows. -/
def nextDeferred (h : Queue) : Sys × Place :=
  match s.defer h with
  | [] => (s.setDeferring h false,.retry h false)
  | mp :: l => ({ s with defer := Function.update s.defer h l },.retest h h mp)

def take : Sys × Place :=
  match s.list with
  | [] => (s,.idle)
  | q :: l => ({ s with list := l }.setFlag q { s.flag q with qrunning := true },.clear q)

def clear (q : Queue) : Sys × Place :=
  let f := s.flag q
  (s.setFlag q { f with qenab := false },if f.qprocsoff then .skip q else .service q)

/- `lis_lockq` has failed. -/
def unlocked (q : Queue) : Sys × Place := (s.setFlag q { s.flag q with qrunning := false },.take)

def finish (q : Queue) : Sys × Place :=
  let f := s.flag q
  (s.setFlag q { f with qrunning := false },
    if f.qwaiting && (s.wakeup q.1).isSome then .wake q else if f.qwantenab then .retry q true else .take)

/- `ok` tells whether `lis_lockq` succeeds. -/
def perform (ok : Bool) : Place → Option (Sys × Place)
  | .idle => none
  | .test q mp =>
      some (match s.verdict S q false with
        | .passOn k => (s,.test k mp)
        | .deferred => (s.lisDeferMsg q mp false,.idle)
        | .deliver => (s,.deliver q mp))
  | .deliver _ _ => some (s,.idle)
  | .retry q run => some (s.lisRetryQenable q run)
  | .qenable q run => some (s.lisQenable S q run)
  | .link q run => some ({ s with list := s.list ++ [q] },back run)
  | .take => some s.take
  | .clear q => some (s.clear q)
  | .service q =>
      some (if ok then ({ s with owed := Function.update s.owed q false },.finish q) else s.unlocked q)
  | .skip q => some (if ok then (s,.finish q) else s.unlocked q)
  | .finish q => some (s.finish q)
  | .wake q => some ({ s with wakeup := Function.update s.wakeup q.1 ((s.wakeup q.1).map (· + 1)) },.take)
  | .deferred h =>
      some (if (s.defer h).isEmpty || s.deferring h then (s,.retry h false) else (s.setDeferring h true).nextDeferred h)
  | .retest h q mp =>
      some (match s.verdict S q true with
        | .passOn k => (s,.retest h k mp)
        | .deferred => (s.lisDeferMsg q mp true,.loop h false)
        | .deliver => (s,.redeliver h q mp))
  | .redeliver h q mp =>
      some (if ok then { s with given := Function.update s.given q (s.given q ++ [mp]) } else s,.loop h true)
  | .loop h ret => some (if ret then s.nextDeferred h else (s.setDeferring h false,.retry h false))

def busy (p : ℕ) : Bool :=
  (s.flag (RD p)).qenab || (s.flag (RD p)).qrunning || (s.flag (WR p)).qenab || (s.flag (WR p)).qrunning

def setWaiting (p : ℕ) (b : Bool) (o : Option ℕ) : Sys :=
  let s := s.setFlag (RD p) { s.flag (RD p) with qwaiting := b }
  let s := s.setFlag (WR p) { s.flag (WR p) with qwaiting := b }
  { s with wakeup := Function.update s.wakeup p o }

def pass (p : ℕ) : Sys := { s with phase := .frozen, awaited := Function.update s.awaited p true }

/- The test of the loop in `lis_await_qsched`, and what follows it under the same locks. -/
def await (p : ℕ) : Sys := if s.busy p then { s with phase := .asleep p } else (s.setWaiting p false none).pass p

/- The next section of task 0 outside of `lis_do_deferred_puts` and `lis_retry_qenable`. -/
def next : Option Sys :=
  match s.phase with
  | .running | .frozen => none
  | .freezing [] => some { s with phase := .frozen }
  | .freezing (q :: l) => some { s.setFlag q { s.flag q with qfrozen := true } with phase := .freezing l }
  | .await p => some (if s.busy p then { s with phase := .locking p } else s.pass p)
  | .locking p => some ((s.setWaiting p true (some 0)).await p)
  | .asleep p =>
      match s.wakeup p with
      | some (n+1) => some { s with wakeup := Function.update s.wakeup p (some n), phase := .awake p }
      | _ => none
  | .awake p => some (s.await p)
  | .thawing [] => if s.tasks[0]? = some .idle then some { s with phase := .running } else none
  | .thawing (q :: l) =>
      if s.tasks[0]? = some .idle then
        some { (s.setFlag q { s.flag q with qopening := false, qfrozen := false }).setPc 0 (.deferred q) with
          phase := .thawing l }
      else none

def step : Act → Option Sys
  | .call i c => if i ≠ 0 ∧ s.tasks[i]? = some .idle then some (s.setPc i c.place) else none
  | .run i ok => (s.tasks[i]?).bind fun o => (s.perform S ok o).map fun r => r.1.setPc i r.2
  | .lisFreezestr => if s.phase = .running then some { s with phase := .freezing S.halves } else none
  | .lisAwaitQsched p =>
      if s.phase = .frozen ∧ (RD p ∈ S.halves ∧ WR p ∈ S.halves) then some { s with phase := .await p } else none
  | .lisUnfreezestr =>
      if s.phase = .frozen then some { s with phase := .thawing S.halves, awaited := fun _ => false } else none
  | .next => s.next

end Sys

end CSLiS.Sched.Freeze
