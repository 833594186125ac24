import CSLiS.Head.Rput
import CSLiS.Ioctl.Copy

/-!
# An ioctl and its answer (head/head.c)

`lis_strdoioctl` sends a request and waits for `lis_strrput` to put the answer into
`sd_iocblk`. While it waits, the driver answers, the timer of the ioctl runs out,
the caller gets a signal, M_ERROR and M_HANGUP arrive and other streams take
numbers for their ioctls. Each of these is a step, and so is each part of
`lis_strdoioctl` between two points where another party can come in.

The ioctls of a stream are numbered. Whose request an answer is about (`req`) and in
which ioctl `sd_wiocing` was raised is only there to be spoken about. What an M_IOCACK
copies to the user is left out.
-/

namespace CSLiS.Ioctl
open Queue Head

def INFTIM : ℤ := -1
def TRANSPARENT : ℤ := -1
def EINTR : ℤ := 4
def ETIME : ℤ := 62
def I_LINK : ℤ := 0xdc00 + 12
def I_UNLINK : ℤ := 0xdc00 + 13
def I_PLINK : ℤ := 0xdc00 + 22
def I_PUNLINK : ℤ := 0xdc00 + 23

structure Strioctl where
  icCmd : ℤ
  icTimout : ℤ
  icLen : ℤ
  deriving DecidableEq, Repr

/-- An answer of the driver: `iocblk_t`, or `copyreq_t` with its chain. -/
structure IocMsg where
  dbType : Uchar
  iocId : Uint
  iocError : ℤ := 0
  iocRval : ℤ := 0
  iocCount : Uint := 0
  cqAddr : ℕ := 0
  cqSize : Uint := 0
  bCont : List DatBlk := []
  req : ℕ
  deriving DecidableEq, Repr

/- What the allocations and the user's memory do before the request is sent. -/
structure Start where
  mioc : Bool := true
  umem : Bool := true
  mdta : Bool := true
  copy : Bool := true

/-- The error with which an ioctl ends before it sends anything (`head.c:3834-3914`). -/
def prologue (ioc : Strioctl) (doCopyin : Bool) (o : Start) : Option ℤ :=
  if ioc.icLen ≠ TRANSPARENT ∧ (ioc.icLen < 0 ∨ ioc.icTimout < -1) then some (-EINVAL.val)
  else if !o.mioc then some (-ENOMEM)
  else if ioc.icLen = 0 then none
  else if doCopyin && decide (lisCheckUmem o.umem < 0) then some (lisCheckUmem o.umem)
  else if !o.mdta then some (-ENOMEM)
  else if doCopyin && decide ((lisCopyin o.copy []).1 < 0) then some (lisCopyin o.copy []).1
  else none

/-- What `lis_strdoioctl` does with an answer (`head.c:4031-4222`): its result, or none
when it sends the message down again. -/
def consume (x86 doCopyin : Bool) (m : IocMsg) (o : Outcome) : Option ℤ :=
  if m.dbType = M_IOCACK then
    if m.iocError ≠ 0 then some (-m.iocError)
    else if doCopyin && decide (0 < m.iocCount.toInt) && decide (lisCheckUmem o.access < 0) then
      some (lisCheckUmem o.access)
    else some m.iocRval
  else if m.dbType = M_IOCNAK then some (if -m.iocError ≠ 0 then -m.iocError else -EINVAL.val)
  else if h : m.dbType = M_COPYIN ∨ m.dbType = M_COPYOUT then
    let v := serve x86 ⟨m.dbType,m.cqAddr,m.cqSize,m.bCont,h⟩ o
    if v.err < 0 then some v.err else none
  else some (-EINVAL.val)

/- Where `lis_strdoioctl` is: the request is sent; in `lis_down`; out of it; out of
`lis_wait_for_wiocing`; IOCWAIT is cleared. -/
inductive Phase
  | idle
  | sent
  | sleeping
  | awake (rslt : ℤ)
  | waited (err : ℤ)
  | cleared (err : ℤ)
  deriving DecidableEq, Repr

structure Result where
  call : ℕ
  iocId : Option Uint
  value : ℤ
  reply : Option IocMsg
  deriving DecidableEq, Repr

/-- A stream head as far as its ioctls go. `sdWiocing` has the ioctl of each time the
semaphore was raised, `sent` the requests that the driver got. -/
structure IocHead where
  iocwait : Bool
  stioctmr : Bool
  strhup : Bool
  sdErr : Errors
  sdIocblk : Option IocMsg
  sdWiocing : List ℕ
  sdIocseq : Uint
  qclosing : Bool
  lisIocseq : Uint
  timer : Bool
  phase : Phase
  ioc : Strioctl
  doCopyin : Bool
  iocId : Uint
  call : ℕ
  sent : List (ℕ × Uint)
  results : List Result
  deriving DecidableEq, Repr

namespace IocHead

/-- A new stream. `lis_iocseq` has been counted up by others. -/
def init (lisIocseq : Uint) : IocHead :=
  ⟨false,false,false,⟨0,0,false,false⟩,none,[],0,false,lisIocseq,false,.idle,⟨0,0,0⟩,false,0,0,[],[]⟩

def lisWakeUpWiocing (s : IocHead) : IocHead := { s with sdWiocing := s.sdWiocing ++ [s.call] }

def ret (s : IocHead) (iocId : Option Uint) (value : ℤ) (reply : Option IocMsg) : IocHead :=
  { s with phase := .idle, results := s.results ++ [⟨s.call,iocId,value,reply⟩] }

/-- The test of `lis_strrput` for an answer (`head.c:3458-3463`). -/
def accepts (s : IocHead) (m : IocMsg) : Bool :=
  s.iocwait && s.sdIocblk.isNone && !s.qclosing && m.iocId == s.sdIocseq

/-- `lis_strrput` of an answer (`head.c:3452-3476`) -/
def lisStrrput (s : IocHead) (m : IocMsg) : IocHead :=
  if s.accepts m then { s with sdIocblk := some m }.lisWakeUpWiocing else s

/-- `lis_do_tmout` (`head.c:3616-3626`) -/
def lisDoTmout (s : IocHead) : IocHead :=
  let s := { s with timer := false }
  if s.stioctmr then
    let s := { s with stioctmr := false }
    if s.iocwait then s.lisWakeUpWiocing else s
  else s

/-- `lis_stream_error` (`head.c:2997-3039`) -/
def streamError (s : IocHead) (rderr wrerr : ℤ) : IocHead :=
  let s := { s with sdErr := lisStreamError s.sdErr rderr wrerr }
  if s.iocwait then s.lisWakeUpWiocing else s

/- `ignore_errors` in `lis_strdoioctl` (`head.c:3988-3996`). -/
def ignoreErrors (s : IocHead) : Bool :=
  s.ioc.icCmd == I_LINK || s.ioc.icCmd == I_PLINK || s.ioc.icCmd == I_UNLINK || s.ioc.icCmd == I_PUNLINK

/-- The start of `lis_strdoioctl` up to `lis_wait_for_wiocing` (`head.c:3824-3998`). -/
def start (s : IocHead) (ioc : Strioctl) (doCopyin : Bool) (o : Start) : IocHead :=
  let s := { s with call := s.call + 1, ioc := ioc, doCopyin := doCopyin }
  match prologue ioc doCopyin o with
  | some err => s.ret none err none
  | none =>
      let id : Uint := s.lisIocseq + 1
      { s with
        lisIocseq := id, sdIocseq := id, iocId := id, iocwait := true
        sent := s.sent ++ [(s.call,id)], phase := .sent }

/-- `lis_wait_for_wiocing` up to `lis_down` (`head.c:3681-3698`). A timeout of 0 is one
of `LIS_DFLT_TIM`. -/
def waitForWiocing (s : IocHead) : IocHead :=
  if !s.ignoreErrors && (s.sdErr.strderr || s.sdErr.stwrerr) then
    { s with phase := .waited (-s.sdErr.sdRerror) }
  else { s with stioctmr := true, timer := s.ioc.icTimout != INFTIM, phase := .sleeping }

/-- `lis_wait_for_wiocing` after `lis_down` (`head.c:3701-3736`). -/
def woken (s : IocHead) (rslt : ℤ) : IocHead :=
  if rslt < 0 then { s with timer := false, stioctmr := false, phase := .waited rslt }
  else if !s.stioctmr then { s with phase := .waited (-ETIME) }
  else { s with timer := false, stioctmr := false, phase := .waited 0 }

/-- `lis_strdoioctl` after IOCWAIT is cleared (`head.c:4004-4235`), up to its result or to
the next wait. -/
def finish (x86 : Bool) (s : IocHead) (err : ℤ) (o : Outcome) : IocHead :=
  match s.sdIocblk, decide (err < 0) with
  | some m, false =>
      let s := { s with sdIocblk := none }
      match consume x86 s.doCopyin m o with
      | some v => s.ret (some s.iocId) v (some m)
      | none => { s with iocwait := true, sent := s.sent ++ [(s.call,m.iocId)], phase := .sent }
  | _, _ =>
      let err :=
        if s.sdErr.sdWerror ≠ 0 then s.sdErr.sdWerror
        else if s.sdErr.sdRerror ≠ 0 then s.sdErr.sdRerror
        else err
      s.ret (some s.iocId) err none

end IocHead

/- A step of any party. `start` to `finish` are those of `lis_strdoioctl`. -/
inductive Act
  | start (ioc : Strioctl) (doCopyin : Bool) (o : Start)
  | wait
  | down
  | signal
  | woken
  | clear
  | finish (o : Outcome)
  | rput (m : IocMsg)
  | tmout
  | error (rderr wrerr : ℤ)
  | hangup
  | closing
  | other

/- The messages that `lis_strrput` takes for answers. -/
def isAnswer (t : Uchar) : Bool :=
  t == M_IOCNAK || t == M_IOCACK || t == M_COPYIN || t == M_COPYOUT || t == M_IOCDATA

def step (x86 : Bool) (s : IocHead) : Act → Option IocHead
  | .start ioc doCopyin o => if s.phase = .idle then some (s.start ioc doCopyin o) else none
  | .wait => if s.phase = .sent then some s.waitForWiocing else none
  | .down =>
      match s.phase, s.sdWiocing with
      | .sleeping, _ :: rest => some { s with sdWiocing := rest, phase := .awake 0 }
      | _, _ => none
  | .signal =>
      if s.phase = .sleeping ∧ s.sdWiocing = [] then some { s with phase := .awake (-EINTR) } else none
  | .woken =>
      match s.phase with
      | .awake rslt => some (s.woken rslt)
      | _ => none
  | .clear =>
      match s.phase with
      | .waited err => some { s with iocwait := false, phase := .cleared err }
      | _ => none
  | .finish o =>
      match s.phase with
      | .cleared err => some (s.finish x86 err o)
      | _ => none
  | .rput m => if (m.req,m.iocId) ∈ s.sent ∧ isAnswer m.dbType then some (s.lisStrrput m) else none
  | .tmout => if s.timer then some s.lisDoTmout else none
  | .error rderr wrerr => some (s.streamError rderr wrerr)
  | .hangup => some { s with strhup := true }
  | .closing => some { s with qclosing := true }
  | .other => some { s with lisIocseq := s.lisIocseq + 1 }

end CSLiS.Ioctl
