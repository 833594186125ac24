import CSLiS.Queue.DrainGap
import CSLiS.Queue.Shortage

/-!
# Draining at close time (head/head.c, head/queue.c)

The write side of a stream on its last close, with `sd_closetime` set: `close_action` counts what is queued, sets
`QCLOSEWT` on the first queue below the head, and sleeps until `lis_strwsrv` or the close timer raises `sd_closing`.
Meanwhile the modules and the driver take messages and pass them on.
-/

namespace CSLiS.Head
open Queue Lib.Exec

/- Where `close_action` stands. When it goes on it leaves the messages `left` on the write side, and `expired` says
whether the close time is over. -/
inductive Closer where
  | start
  | test
  | flag
  | timer
  | down
  | on (left : List Msg) (expired : Bool)
  deriving DecidableEq, Repr

/- Where the service procedure of `sd_wq` stands. -/
inductive Srv where
  | idle
  | loop
  | test
  | done
  deriving DecidableEq, Repr

def Closer.isOn : Closer → Bool
  | .on _ _ => true
  | _ => false

/- `wqs` are the write queues from `sd_wq` down. -/
structure Drain where
  wqs : List ListQueue
  strclose : Bool
  sdClosetime : ℤ
  sdCloseTimer : Bool
  sdClosing : ℕ
  expired : Bool
  closer : Closer
  srv : Srv
  deriving DecidableEq, Repr

namespace Drain

def withFlag (q : ListQueue) (f : Qflag) : ListQueue := { q with core := { q.core with qFlag := f } }

def backQ (q : ListQueue) : BackQ := ⟨q.core.qFlag,q.core.qiSrvp,q.core.qCount⟩

/- `lis_getq` of the queue at place `i`; `lis_backq` leads to the queues above it. -/
def getqAt (alloc : Bool) (wqs : List ListQueue) (i : ℕ) : List ListQueue :=
  match wqs.drop i with
  | [] => wqs
  | q :: m =>
      let up := (wqs.take i).reverse
      let r := q.lisGetq (fun _ => alloc) (up.map backQ)
      (List.zipWith (fun u b => withFlag u b.qFlag) up r.2.1).reverse ++ r.1 :: m

/-- `lis_qcountstrm` (`queue.c:2236-2262`): the counts are added in an `int`. -/
def lisQcountstrm (s : Drain) : BitVec 32 := s.wqs.foldl (fun nbytes q => nbytes + q.core.qCount.setWidth 32) 0

/-- `lis_wakeup_close` (`head.c:8036-8052`) -/
def lisWakeupClose (s : Drain) : Drain := { s with sdCloseTimer := false, sdClosing := s.sdClosing + 1 }

def left (s : Drain) : List Msg := s.wqs.flatMap fun q => q.msgs

/- The flags of `sd_wq`. -/
def headFlag (s : Drain) : Qflag := (s.wqs.head?.map fun q => q.core.qFlag).getD {}

def modifyHead (s : Drain) (f : Bool → Qflag → Qflag) : Drain :=
  { s with wqs := s.wqs.modify 0 fun q => withFlag q (f q.core.qiSrvp q.core.qFlag) }

/- The flags when `queuerun` enters the service procedure (`stream.c:243-300`). -/
def dispatched (_srvp : Bool) (f : Qflag) : Qflag := { f with qenab := false, qrunning := true }

/- The flags when `queuerun` is done with the queue (`stream.c:334-355`). -/
def finished (srvp : Bool) (f : Qflag) : Qflag :=
  let f := { f with qrunning := false }
  if f.qwantenab && !f.inhEnable then qenableFlags srvp { f with qwantenab := false } else f

/- `mark` to `interrupt` are the steps of `close_action` (`head.c:8263`, `8298-8329`), where `interrupt` stands for a
signal in `lis_down`. `dispatch`, `strw`, `srvTest` and `finish` are those of `queuerun` (`stream.c:243-370`) and
`lis_strwsrv` for `sd_wq`; in `strw` the answer of `lis_bcanputnext` is given. A message that is put has been taken
before, or is `sd_wmsg`, which `queuerun` sends. -/
inductive Act where
  | mark
  | test
  | flag
  | timer
  | down
  | interrupt
  | expire
  | dispatch (lockq : Bool)
  | strw (couldput alloc : Bool)
  | srvTest
  | finish
  | getq (i : ℕ) (alloc : Bool)
  | put (i : ℕ) (back : Bool) (alloc : Msg → Bool) (mp : Msg)
  | canput (i : ℕ) (alloc : Bool) (band : Uchar)

def step (s : Drain) : Act → Option Drain
  | .mark => if s.closer = .start then some { s with strclose := true, closer := .test } else none
  | .test => if s.closer = .test then
      some { s with
        closer := if s.sdClosetime ≠ 0 ∧ s.lisQcountstrm ≠ 0 then .flag else .on s.left s.expired } else none
  | .flag => if s.closer = .flag then
      some { s with
        wqs := s.wqs.modify 1 fun q => withFlag q { q.core.qFlag with qclosewt := true }
        closer := .timer } else none
  | .timer => if s.closer = .timer then some { s with sdCloseTimer := true, closer := .down } else none
  | .down => if s.closer = .down ∧ 0 < s.sdClosing then
      some { s with sdClosing := s.sdClosing - 1, sdCloseTimer := false, closer := .on s.left s.expired } else none
  | .interrupt => if s.closer = .down then
      some { s with sdCloseTimer := false, closer := .on s.left s.expired } else none
  | .expire => if s.sdCloseTimer then some { s.lisWakeupClose with expired := true } else none
  | .dispatch lockq => if s.headFlag.qenab ∧ s.srv = .idle then
      if lockq then
        some { s.modifyHead dispatched with
          srv := if !s.headFlag.qprocsoff && s.wqs.head?.any (·.core.qiSrvp) then .loop else .done }
      else some (s.modifyHead fun _ f => { f with qenab := false }) else none
  | .strw couldput alloc => if s.srv = .loop then
      if couldput then
        some { s with
          wqs := getqAt alloc s.wqs 0
          srv := if s.wqs.head?.any fun q => !q.core.qFlag.shut && !q.msgs.isEmpty then .loop else .test }
      else some { s with srv := .test } else none
  | .srvTest => if s.srv = .test then
      some { (if s.strclose && s.lisQcountstrm = 0 then s.lisWakeupClose else s) with srv := .done } else none
  | .finish => if s.srv = .done then
      some { s.modifyHead finished with srv := .idle } else none
  | .getq i alloc => if i = 0 then none else some { s with wqs := getqAt alloc s.wqs i }
  | .put i back alloc mp => if i = 0 then none else
      some { s with wqs := s.wqs.modify i fun q => if back then q.lisPutbq alloc mp else q.lisPutq alloc mp }
  | .canput i alloc band => some { s with wqs := s.wqs.modify i fun q => (q.lisBcanput alloc band).1 }

/- `lis_qenable` of this queue is neither refused nor put off. -/
def settled (f : Qflag) : Bool := !f.shut && !f.qopening && !f.qfrozen

/- `sd_closing` is raised, or the service procedure of `sd_wq` is scheduled or running and will look at the counts. -/
def Attended (s : Drain) : Prop :=
  0 < s.sdClosing ∨ s.srv = .loop ∨ s.srv = .test ∨ s.headFlag.qenab = true ∨
    (s.srv = .done ∧ s.headFlag.qwantenab = true ∧ settled s.headFlag = true)

/- The messages on the write side that are counted in `q_count` show in an `int`. -/
def Visible (s : Drain) : Prop := s.left ≠ [] → byteSum Msg.info (qMsgs Msg.info s.left) % 2 ^ 32 ≠ 0

/- From the queue nearest to where a message was taken up to `sd_wq` the search of `lis_backenable` does not end: no
queue but one with `QCLOSEWT` has a service procedure that can be enabled, and that of `sd_wq` can be. -/
def Climbs : List ListQueue → Prop
  | [] => False
  | [q] => settled q.core.qFlag = true ∧ q.core.qFlag.qnoenb = false
  | q :: u :: l => q.core.qFlag.shut = false ∧
      ((q.core.qiSrvp && !q.core.qFlag.qnoenb) = true → q.core.qFlag.qclosewt = true) ∧ Climbs (u :: l)

/- The first queue below the head, or one that has `QWANTW` and `QBACK`. -/
def Reaches (s : Drain) (i : ℕ) (alloc : Bool) : Prop :=
  (i = 1 ∨ (s.wqs[i]?.any fun q => (q.rmvFirst fun _ => alloc).core.wantsBack) = true) ∧
    Climbs (s.wqs.take i).reverse

/- `close_action` has gone on. -/
def On (s : Drain) : Prop := s.closer.isOn = true

/- `close_action` is past setting `QCLOSEWT` and has not gone on. -/
def Waits (s : Drain) : Prop := s.closer = .timer ∨ s.closer = .down

def Allowed (s : Drain) : Act → Prop
  | .test => Visible s
  | .flag => s.left = [] → Attended s
  | .interrupt => s.left = [] ∨ s.expired = true
  | .dispatch lockq => lockq = true ∧ s.headFlag.qprocsoff = false
  | .srvTest => s.strclose = true → Visible s
  | .getq i alloc => Waits s → s.left.length = 1 → (s.wqs[i]?.any fun q => !q.msgs.isEmpty) = true →
      Reaches s i alloc
  | .put .. => s.sdClosing = 0 ∨ s.expired = true ∨ On s
  | _ => True

instance decidableClimbs : ∀ l, Decidable (Climbs l)
  | [] => isFalse id
  | [_] => inferInstanceAs (Decidable (_ ∧ _))
  | _ :: u :: l =>
      have := decidableClimbs (u :: l)
      inferInstanceAs (Decidable (_ ∧ (_ → _) ∧ _))

instance (s : Drain) : Decidable (Attended s) := inferInstanceAs (Decidable (_ ∨ _ ∨ _ ∨ _ ∨ _ ∧ _ ∧ _))
instance (s : Drain) : Decidable (Visible s) := inferInstanceAs (Decidable (_ → _))
instance (s : Drain) (i : ℕ) (alloc : Bool) : Decidable (Reaches s i alloc) :=
  inferInstanceAs (Decidable ((_ ∨ _) ∧ _))
instance (s : Drain) : Decidable (Waits s) := inferInstanceAs (Decidable (_ ∨ _))
instance (s : Drain) : Decidable (On s) := inferInstanceAs (Decidable (_ = _))

instance (s : Drain) : ∀ a, Decidable (Allowed s a)
  | .test => inferInstanceAs (Decidable (Visible s))
  | .flag => inferInstanceAs (Decidable (_ → _))
  | .interrupt => inferInstanceAs (Decidable (_ ∨ _))
  | .dispatch _ => inferInstanceAs (Decidable (_ ∧ _))
  | .srvTest => inferInstanceAs (Decidable (_ → _))
  | .getq .. => inferInstanceAs (Decidable (_ → _ → _ → _))
  | .put .. => inferInstanceAs (Decidable (_ ∨ _ ∨ _))
  | .mark | .timer | .down | .expire | .strw .. | .finish | .canput .. => isTrue trivial

/- A stream with `sd_closetime` set when its last close begins; `lis_strwsrv` is the service procedure of `sd_wq`. -/
structure Begun where
  wq : CountedQueue
  below : List CountedQueue
  sdClosetime : ℤ
  srv : Srv
  timed : sdClosetime ≠ 0
  served : wq.core.qiSrvp = true
  running : wq.core.qFlag.qrunning = true ↔ srv ≠ .idle

def start (b : Begun) : Drain :=
  ⟨b.wq.toListQueue :: b.below.map CountedQueue.toListQueue,false,b.sdClosetime,false,0,false,.start,b.srv⟩

end Drain

end CSLiS.Head
