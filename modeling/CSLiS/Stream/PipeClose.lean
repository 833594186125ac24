import Mathlib

/-!
# Closing the two ends of a pipe (head/head.c)

`lis_get_pipe` makes two stream heads peers and takes a reference on each. A task that closes an end runs `lis_doclose`
from the last close on: `close_action`, the `lis_qdetach` of the stream head queue, and `lis_head_put`. Other tasks
call `lis_freezestr` and `lis_unfreezestr` on the read queue of an end. A section under `sd_lock`, a test of a stream
head and its peer, and a reference operation are each a step. No modules are pushed. Timers, flushing, the wait for
the scheduler and the marks of the queues are left out.
-/

namespace CSLiS.Stream.PipeClose

/- What a reference was taken for: the open file, the pipe, STRFROZEN, and `check_for_wantenable`. -/
inductive Ref
  | file
  | pipe
  | freeze
  | check
  deriving DecidableEq, Repr

/- `sdPeer` tells that `sd_peer` is the other end and not the head itself, `qNext` that `sd_wq->q_next` is the read
queue of the other end, `queues` that the queues have not been freed. `unfreezeQ` and `closingPipe` are the local
variables of `lis_qdetach`. The last three are no fields of the code: `close_action` has found the peer open, the
pipe's reference is held, and `lis_qdetach` has dropped the reference that belongs to STRFROZEN and left it set. -/
structure Head where
  sdPeer : Bool
  strclose : Bool
  strhup : Bool
  strfrozen : Bool
  qNext : Bool
  queues : Bool
  unfreezeQ : Bool
  closingPipe : Bool
  hangs : Bool
  piped : Bool
  spent : Bool
  deriving DecidableEq, Repr

/- `sd_refcnt`, how often the head was torn down, and how many references were taken and dropped. -/
structure Refs where
  refcnt : ℤ
  tears : ℕ
  taken : Ref → ℕ
  dropped : Ref → ℕ

/- Where a task is, in the order of the code. `e` is the end that is closed. `x` is the end that is frozen or thawed,
and `c` tells that `lis_qdetach` has called. `b` tells that STRFROZEN of the peer was cleared. -/
inductive Place
  | idle
  | strclose (e : Bool)
  | probe (e : Bool)
  | hangup (e : Bool)
  | streamError (e b : Bool)
  | putHung (e : Bool)
  | freezestr (x c : Bool)
  | getHd (x c : Bool)
  | setFrozen (x c : Bool)
  | freezePeer (x c : Bool)
  | setPeer (x c : Bool)
  | getPeer (x c : Bool)
  | next (e : Bool)
  | closing (e : Bool)
  | unlink (e : Bool)
  | balance (e : Bool)
  | unfreezestr (x c : Bool)
  | checkGet (x c : Bool)
  | checkPut (x c : Bool)
  | clear (x c : Bool)
  | thawPeer (x c : Bool)
  | clearPeer (x c : Bool)
  | putPeer (x c : Bool)
  | wake (x c : Bool)
  | putHd (x c : Bool)
  | own (e : Bool)
  | clearOwn (e : Bool)
  | putOwn (e : Bool)
  | apart (e : Bool)
  | putPipe (e b : Bool)
  | putThawed (e : Bool)
  | alone (e : Bool)
  | putAlone (e : Bool)
  | last (e : Bool)
  deriving DecidableEq, Repr

/- `fault` tells that memory was touched that had been freed. `called` are the ends whose last close has begun. -/
structure Sys where
  head : Bool → Head
  refs : Bool → Refs
  fault : Bool
  called : Bool → Bool
  tasks : List Place

inductive Act
  | close (i : ℕ) (e : Bool)
  | lisFreezestr (i : ℕ) (x : Bool)
  | lisUnfreezestr (i : ℕ) (x : Bool)
  | run (i : ℕ)
  deriving DecidableEq, Repr

def Refs.get (r : Refs) (k : Ref) : Refs :=
  { r with refcnt := r.refcnt + 1, taken := Function.update r.taken k (r.taken k + 1) }

/- `lis_head_put`: the count 1 is the last reference. -/
def Refs.put (r : Refs) (k : Ref) : Refs :=
  { r with
    refcnt := r.refcnt - 1
    tears := if r.refcnt = 1 then r.tears + 1 else r.tears
    dropped := Function.update r.dropped k (r.dropped k + 1) }

/- Where the callers of `lis_freezestr` and `lis_unfreezestr` go on. -/
def Place.frozen (x c : Bool) : Place := if c then .next x else .idle
def Place.thawed (x c : Bool) : Place := if c then .own (!x) else .idle

namespace Sys

variable (s : Sys)

/- A pipe as `lis_get_pipe` leaves it, and `n` tasks. -/
def init (n : ℕ) : Sys :=
  ⟨fun _ => ⟨true,false,false,false,true,true,false,false,false,true,false⟩,
    fun _ => ⟨2,0,fun k => if k = .file ∨ k = .pipe then 1 else 0,fun _ => 0⟩,false,fun _ => false,
    List.replicate n .idle⟩

def touch (x : Bool) : Sys := { s with fault := s.fault || decide (0 < (s.refs x).tears) }

/- The memory of the queue and of its stream head. -/
def touchQueue (x : Bool) : Sys := { s.touch x with fault := (s.touch x).fault || !(s.head x).queues }

def setHead (x : Bool) (h : Head) : Sys := { s.touch x with head := Function.update s.head x h }
def get (x : Bool) (k : Ref) : Sys := { s.touch x with refs := Function.update s.refs x ((s.refs x).get k) }
def put (x : Bool) (k : Ref) : Sys := { s.touch x with refs := Function.update s.refs x ((s.refs x).put k) }

/- A head and, when it has one, its peer are read. -/
def look (x : Bool) : Sys := if (s.head x).sdPeer then (s.touch x).touch (!x) else s.touch x

def probe (e : Bool) : Sys × Place :=
  let h := s.head e
  let peer := s.head (!e)
  if h.sdPeer && !(peer.strhup || peer.strclose) then
    ({ s.look e with head := Function.update s.head e { h with hangs := true } },.hangup e)
  else (s.look e,.freezestr e true)

/- The lock is the peer's. -/
def hangup (e : Bool) : Sys × Place :=
  let peer := s.head (!e)
  (s.setHead (!e) { peer with sdPeer := false, strhup := true, strfrozen := false },.streamError e peer.strfrozen)

def unlink (e : Bool) : Sys × Place :=
  let h := s.head e
  let t := s.setHead e { h with qNext := false, queues := false }
  let t := if h.qNext then { t with head := Function.update t.head (!e) { s.head (!e) with qNext := false } } else t
  (t,if h.unfreezeQ then .unfreezestr (!e) true else .balance e)

def apart (e : Bool) : Sys × Place :=
  let peer := s.head (!e)
  if (s.head e).closingPipe then
    (s.setHead (!e) { peer with sdPeer := false, strfrozen := false },.putPipe e peer.strfrozen)
  else (s,.last e)

/- A reference of the pipe is dropped. -/
def putPiped (x : Bool) : Sys :=
  { s.put x .pipe with head := Function.update s.head x { s.head x with piped := false } }

def perform : Place → Option (Sys × Place)
  | .idle => none
  | .strclose e => some (s.setHead e { s.head e with strclose := true },.probe e)
  | .probe e => some (s.probe e)
  | .hangup e => some (s.hangup e)
  | .streamError e b => some (s.touch (!e),if b then .putHung e else .freezestr e true)
  | .putHung e => some (s.put (!e) .freeze,.freezestr e true)
  | .freezestr x c => some (s.touchQueue x,if (s.head x).strfrozen then .frozen x c else .getHd x c)
  | .getHd x c => some (s.get x .freeze,.setFrozen x c)
  | .setFrozen x c => some (s.setHead x { s.head x with strfrozen := true },.freezePeer x c)
  | .freezePeer x c =>
      some (s.look x,if (s.head x).sdPeer && !(s.head (!x)).strfrozen then .setPeer x c else .frozen x c)
  | .setPeer x c => some (s.setHead (!x) { s.head (!x) with strfrozen := true },.getPeer x c)
  | .getPeer x c => some (s.get (!x) .freeze,.frozen x c)
  | .next e => some (s.setHead e { s.head e with unfreezeQ := (s.head e).qNext },.closing e)
  | .closing e => some (s.setHead e { s.head e with closingPipe := (s.head e).sdPeer },.unlink e)
  | .unlink e => some (s.unlink e)
  | .balance e =>
      some ({ s.put e .freeze with head := Function.update s.head e { s.head e with spent := true } },.apart e)
  | .unfreezestr x c => some (s.touchQueue x,if (s.head x).strfrozen then .checkGet x c else .thawed x c)
  | .checkGet x c => some (s.get x .check,.checkPut x c)
  | .checkPut x c => some (s.put x .check,.clear x c)
  | .clear x c => some (s.setHead x { s.head x with strfrozen := false },.thawPeer x c)
  | .thawPeer x c =>
      some (s.look x,if (s.head x).sdPeer && (s.head (!x)).strfrozen then .clearPeer x c else .wake x c)
  | .clearPeer x c => some (s.setHead (!x) { s.head (!x) with strfrozen := false },.putPeer x c)
  | .putPeer x c => some (s.put (!x) .freeze,.wake x c)
  | .wake x c => some (s.touch x,.putHd x c)
  | .putHd x c => some (s.put x .freeze,.thawed x c)
  | .own e => some (s.touch e,if (s.head e).strfrozen then .clearOwn e else .apart e)
  | .clearOwn e => some (s.setHead e { s.head e with strfrozen := false },.putOwn e)
  | .putOwn e => some (s.put e .freeze,.apart e)
  | .apart e => some (s.apart e)
  | .putPipe e b => some (s.putPiped (!e),if b then .putThawed e else .alone e)
  | .putThawed e => some (s.put (!e) .freeze,.alone e)
  | .alone e => some (s.setHead e { s.head e with sdPeer := false },.putAlone e)
  | .putAlone e => some (s.putPiped e,.last e)
  | .last e => some (s.put e .file,.idle)

def setPc (i : ℕ) (o : Place) : Sys := { s with tasks := s.tasks.set i o }

def step : Act → Option Sys
  | .close i e =>
      if s.tasks[i]? = some .idle ∧ s.called e = false then
        some ({ s with called := Function.update s.called e true }.setPc i (.strclose e))
      else none
  | .lisFreezestr i x => if s.tasks[i]? = some .idle then some (s.setPc i (.freezestr x false)) else none
  | .lisUnfreezestr i x => if s.tasks[i]? = some .idle then some (s.setPc i (.unfreezestr x false)) else none
  | .run i => (s.tasks[i]?).bind fun o => (s.perform o).map fun r => r.1.setPc i r.2

end Sys

end CSLiS.Stream.PipeClose
