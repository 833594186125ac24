import CSLiS.Queue.ListQueue

/-!
# The read side of the stream head (head/head.c, head/queue.c)

`lis_strrput` puts what arrives from below on the list `sd_rput`, from which the
service procedure `lis_strrsrv` moves it to the read queue `sd_rq`. A message on
`sd_rput` is counted in `sd_rq`, but not linked into its bands.

Waking sleepers and pollers and sending signals are not part of this model, and
neither is what `lis_strrput` does with the answers to an ioctl.
-/

namespace CSLiS.Head
open Queue

structure SdFlag where
  strpri : Bool := false
  strflushwt : Bool := false
  strclose : Bool := false
  strhup : Bool := false
  deriving DecidableEq, Repr

structure Errors where
  sdRerror : ℤ
  sdWerror : ℤ
  strderr : Bool
  stwrerr : Bool
  deriving DecidableEq, Repr

def NOERROR : ℤ := 255
def EINVAL : Uchar := 22

/-- `lis_stream_error` (`head.c:2997-3020`) -/
def lisStreamError (e : Errors) (rderr wrerr : ℤ) : Errors :=
  let e :=
    if rderr = 0 then { e with sdRerror := 0, strderr := false }
    else if 0 < rderr ∧ rderr ≠ NOERROR then { e with sdRerror := rderr, strderr := true }
    else e
  if wrerr = 0 then { e with sdWerror := 0, stwrerr := false }
  else if 0 < wrerr ∧ wrerr ≠ NOERROR then { e with sdWerror := wrerr, stwrerr := true }
  else e

/-- The stream head. `back` are the queues that `lis_backq` leads to from
`sd_rq`, `sent` what was put downstream. -/
structure Stdata where
  sdRq : ListQueue
  sdWq : ListQueue
  sdRput : List Msg
  sdFlag : SdFlag
  sdErr : Errors
  back : List BackQ
  sent : List Msg
  deriving DecidableEq, Repr

/- The first byte of an M_FLUSH (stropts.h:142-149). -/
def flushByte (mp : Msg) : Uchar := mp.blk.data.head?.getD 0
def flushr (b : Uchar) : Bool := b.val.testBit 0
def flushw (b : Uchar) : Bool := b.val.testBit 1
def flushband (b : Uchar) : Bool := b.val.testBit 2

inductive Water where
  | hiwat
  | lowat
  deriving DecidableEq, Repr

/-- `stroptions_t` as far as it is about water marks; `soBand` is set with `SO_BAND`. -/
structure Stroptions where
  soBand : Option Uchar
  soHiwat : Option Ulong
  soLowat : Option Ulong

/-- `lis_strqset` of a water mark (`queue.c:1788-1859`). -/
def lisStrqset (alloc : Bool) (c : Core Msg) (what : Water) (band : Uchar) (val : Ulong) : Core Msg :=
  if band ≠ 0 then
    match findQband Msg.info alloc c band with
    | none => c
    | some z =>
        let qp := match what with
          | .hiwat => { z.qp with qbHiwat := val }
          | .lowat => { z.qp with qbLowat := val }
        { c with qBandp := BandAt.chain { z with qp := qp } }
  else match what with
    | .hiwat => { c with qHiwat := val }
    | .lowat => { c with qLowat := val }

/-- `set_options` (`head.c:2600-2645`); without `SO_BAND` the marks are those of
the queue, as they are for band 0. -/
def setOptions (alloc : Bool) (c : Core Msg) (so : Stroptions) : Core Msg :=
  let set (c : Core Msg) (what : Water) : Option Ulong → Core Msg
    | none => c
    | some val => lisStrqset alloc c what (so.soBand.getD 0) val
  set (set c .hiwat so.soHiwat) .lowat so.soLowat

/-- Answers to an ioctl, which `lis_strrput` does not queue. -/
def answersIoctl (t : Uchar) : Bool :=
  t == M_IOCNAK || t == M_IOCACK || t == M_COPYIN || t == M_COPYOUT || t == M_IOCDATA

/-- The messages that go to the read queue. -/
def queued (t : Uchar) : Bool :=
  t == M_DATA || t == M_PCPROTO || t == M_PROTO || t == M_PASSFP || t == M_SIG

/-- The error codes in an `M_ERROR` (`head.c:3188-3217`). -/
def errorCodes (mp : Msg) : Uchar × Uchar :=
  match mp.blk.data with
  | [e] => (e,e)
  | [r,w] => (r,w)
  | _ => (EINVAL,EINVAL)

namespace Stdata

/-- `lis_put_rput_q` (`queue.c:1134-1163`) -/
def lisPutRputQ (alloc : Bool) (hd : Stdata) (mp : Msg) : Stdata :=
  let c := updatequeue Msg.info alloc true false hd.sdRq.core mp none none
  { hd with
    sdRq := { hd.sdRq with core := if hd.sdRput.isEmpty then c.lisQenable else c }
    sdRput := hd.sdRput ++ [mp] }

/-- `lis_get_rput_q` (`queue.c:1172-1194`) when `mp` heads the list. -/
def getRput (alloc : Bool) (hd : Stdata) (mp : Msg) (l : List Msg) : Stdata :=
  let r := ListQueue.lisBackenable
    { hd.sdRq with core := adjustQCount Msg.info alloc false hd.sdRq.core mp none none } hd.back
  { hd with sdRq := r.1, back := r.2.1, sdRput := l }

/-- The loop of `lis_head_flush` over `lis_get_rput_q` (`head.c:2936-2940`). -/
def freeRput (alloc : Msg → Bool) : Stdata → List Msg → Stdata
  | hd, [] => hd
  | hd, mp :: l => freeRput alloc (hd.getRput (alloc mp) mp l) l

/-- The read half of `lis_head_flush` (`head.c:2927-2960`). -/
def flushRead (alloc : Msg → Bool) (hd : Stdata) (mp : Msg) (flushRputq : Bool) : Stdata :=
  let hd := if flushRputq then hd.freeRput alloc hd.sdRput else hd
  let r :=
    if flushband (flushByte mp) then
      hd.sdRq.lisFlushband alloc (mp.blk.data.tail.head?.getD 0) false hd.back
    else hd.sdRq.lisFlushq alloc false hd.back
  { hd with
    sdRq := r.1
    back := r.2.1
    sdFlag := { hd.sdFlag with
      strpri := hd.sdFlag.strpri && r.1.msgs.head?.any fun x => x.info.hipri } }

/-- The write half (`head.c:2962-2980`). No queue is behind `sd_wq`. -/
def flushWrite (alloc : Msg → Bool) (hd : Stdata) (mp : Msg) : Stdata :=
  let r :=
    if flushband (flushByte mp) then
      hd.sdWq.lisFlushband alloc (mp.blk.data.tail.head?.getD 0) false []
    else hd.sdWq.lisFlushq alloc false []
  { hd with
    sdWq := r.1
    sent := if mp.msgnoloop then hd.sent
      else hd.sent ++ [{ mp with
        msgnoloop := true
        blk := { mp.blk with data := (flushByte mp &&& 0xfe) :: mp.blk.data.tail } }] }

/-- `lis_head_flush` (`head.c:2890-2985`); `none` when the flush is deferred. -/
def lisHeadFlush (alloc : Msg → Bool) (hd : Stdata) (mp : Msg) (flushRputq : Bool) : Option Stdata :=
  if hd.sdFlag.strflushwt then some { hd with sdFlag := { hd.sdFlag with strflushwt := false } }
  else if hd.sdRq.core.qFlag.qreading then none
  else
    let hd := if flushr (flushByte mp) then hd.flushRead alloc mp flushRputq else hd
    some (if flushw (flushByte mp) then hd.flushWrite alloc mp else hd)

/-- `lis_strrput` (`head.c:3392-3487`) -/
def lisStrrput (alloc : Msg → Bool) (hd : Stdata) (mp : Msg) : Stdata :=
  if hd.sdRq.core.qFlag.qprocsoff then hd
  else if mp.dbType = M_PCPROTO then
    if hd.sdFlag.strpri then hd
    else lisPutRputQ (alloc mp) { hd with sdFlag := { hd.sdFlag with strpri := true } } mp
  else if mp.dbType = M_FLUSH then
    match hd.lisHeadFlush alloc mp true with
    | none => hd.lisPutRputQ (alloc mp) mp
    | some hd => hd
  else if answersIoctl mp.dbType then hd
  else hd.lisPutRputQ (alloc mp) mp

/-- `lis_process_rput` (`head.c:3059-3321`) up to its call of `lis_check_m_sig`.
How a message holds a `stroptions_t` is a parameter. -/
def processMsg (so : Msg → Stroptions) (alloc : Msg → Bool) (hd : Stdata) (mp : Msg) : Stdata :=
  if hd.sdFlag.strclose || hd.sdRq.core.qFlag.shut then
    if mp.dbType = M_FLUSH then { hd with sdFlag := { hd.sdFlag with strflushwt := false } } else hd
  else if queued mp.dbType then { hd with sdRq := hd.sdRq.lisPutq alloc mp }
  else if mp.dbType = M_ERROR then
    { hd with sdErr := lisStreamError hd.sdErr (errorCodes mp).1.val (errorCodes mp).2.val }
  else if mp.dbType = M_HANGUP then { hd with sdFlag := { hd.sdFlag with strhup := true } }
  else if mp.dbType = M_FLUSH then (hd.lisHeadFlush alloc mp false).getD hd
  else if mp.dbType = M_SETOPTS then
    { hd with sdRq := { hd.sdRq with core := setOptions (alloc mp) hd.sdRq.core (so mp) } }
  else if mp.dbType = M_IOCTL then
    { hd with sent := hd.sent ++ [{ mp with blk := { mp.blk with dbType := M_IOCNAK }, bCont := [] }] }
  else hd

/-- `lis_getq` of the read queue. -/
def lisGetq (alloc : Msg → Bool) (hd : Stdata) : Stdata :=
  let r := hd.sdRq.lisGetq alloc hd.back
  { hd with sdRq := r.1, back := r.2.1 }

/-- `lis_check_m_sig` (`head.c:5522-5538`) -/
def lisCheckMSig (alloc : Msg → Bool) (hd : Stdata) : Stdata :=
  if hd.sdRq.msgs.head?.any fun mp => mp.dbType == M_SIG then hd.lisGetq alloc else hd

def lisProcessRput (so : Msg → Stroptions) (alloc : Msg → Bool) (hd : Stdata) (mp : Msg) : Stdata :=
  if !(hd.sdFlag.strclose || hd.sdRq.core.qFlag.shut) && mp.dbType == M_SIG then
    (hd.processMsg so alloc mp).lisCheckMSig alloc
  else hd.processMsg so alloc mp

/-- The loop of `lis_strrsrv` over the messages of `sd_rput` when nothing else
runs (`head.c:3358-3362`). -/
def strrsrvLoop (so : Msg → Stroptions) (alloc : Msg → Bool) : List Msg → Stdata → Stdata
  | [], hd => hd
  | mp :: l, hd => strrsrvLoop so alloc l ((hd.getRput (alloc mp) mp l).lisProcessRput so alloc mp)

/-- `lis_strrsrv` (`head.c:3341-3377`) when nothing else runs. -/
def lisStrrsrv (so : Msg → Stroptions) (alloc : Msg → Bool) (hd : Stdata) : Stdata :=
  let hd := strrsrvLoop so alloc hd.sdRput hd
  let c := { hd.sdRq.core with qFlag := { hd.sdRq.core.qFlag with qenab := false } }
  { hd with sdRq := { hd.sdRq with core := if hd.sdRput.isEmpty then c else c.lisQenable } }

variable {so : Msg → Stroptions} {alloc : Msg → Bool} {hd : Stdata} {mp : Msg}

/- A message taken off sd_rput does not put others there. -/
theorem flushRead_rput : (hd.flushRead alloc mp false).sdRput = hd.sdRput := rfl

theorem lisHeadFlush_rput : ((hd.lisHeadFlush alloc mp false).getD hd).sdRput = hd.sdRput := by
  cases h1 : hd.sdFlag.strflushwt <;> cases h2 : hd.sdRq.core.qFlag.qreading <;>
    cases h3 : flushr (flushByte mp) <;> cases h4 : flushw (flushByte mp) <;>
    simp [lisHeadFlush,h1,h2,h3,h4,flushRead_rput,flushWrite]

theorem processMsg_rput : (hd.processMsg so alloc mp).sdRput = hd.sdRput := by
  unfold processMsg
  split_ifs <;> first | rfl | exact lisHeadFlush_rput

theorem lisCheckMSig_rput : (hd.lisCheckMSig alloc).sdRput = hd.sdRput := by
  unfold lisCheckMSig
  split_ifs <;> rfl

theorem lisProcessRput_rput : (hd.lisProcessRput so alloc mp).sdRput = hd.sdRput := by
  unfold lisProcessRput
  split_ifs
  · exact lisCheckMSig_rput.trans processMsg_rput
  · exact processMsg_rput

end Stdata

end CSLiS.Head
