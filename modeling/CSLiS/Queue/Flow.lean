import CSLiS.Queue.Message
import CSLiS.Lib.Split

/-!
# Counters, bands and flags of a queue (head/queue.c, include/sys/LiS/queue.h)

The part of `queue_t` that is not the message list, and the routines that keep
it: `find_qband`, `updatequeue`, `chk_band`, `adjust_q_count`, `lis_qenable`,
`lis_backenable`. A message is referred to by a pointer of a type `P`, through
which `v : P → Info` reads it. The message list is linked through addresses in
one model of the queue and is a list of messages in the other; both use these
routines.
-/

namespace CSLiS.Queue
open Lib.Split

/-- The bits of `q_flag` (`queue.h:68-90`) that the modelled routines use. -/
structure Qflag where
  qenab : Bool := false
  qwantr : Bool := false
  qwantw : Bool := false
  qfull : Bool := false
  qreadr : Bool := false
  qnoenb : Bool := false
  qback : Bool := false
  qclosing : Bool := false
  qwasfull : Bool := false
  qclosewt : Bool := false
  qprocsoff : Bool := false
  qrunning : Bool := false
  qreading : Bool := false
  qwantenab : Bool := false
  qopening : Bool := false
  qdeferring : Bool := false
  qfrozen : Bool := false
  deriving DecidableEq, Repr

/-- `Q_INH_ENABLE` -/
def Qflag.inhEnable (f : Qflag) : Bool :=
  f.qenab || f.qprocsoff || f.qclosing || f.qrunning || f.qopening || f.qfrozen

/-- `Q_DEFER_ENABLE` -/
def Qflag.deferEnable (f : Qflag) : Bool :=
  f.qenab || f.qprocsoff || f.qrunning || f.qopening || f.qfrozen

/-- `q_flag & (QCLOSING | QPROCSOFF)` -/
def Qflag.shut (f : Qflag) : Bool := f.qclosing || f.qprocsoff

/-- `struct qband`; the bits of `qb_flag` are single fields. -/
structure Qband (P : Type) where
  qbCount : Ulong
  qbFirst : Option P
  qbLast : Option P
  qbHiwat : Ulong
  qbLowat : Ulong
  qbFull : Bool
  qbWantw : Bool
  qbWasfull : Bool
  deriving DecidableEq, Repr

/-- `queue_t` without its message list; `qBandp` is the chain of bands from
`q_bandp` on, `qiSrvp` says whether there is a service procedure. -/
structure Core (P : Type) where
  qCount : Ulong
  qHiwat : Ulong
  qLowat : Ulong
  qFlag : Qflag
  qBandp : List (Qband P)
  qiSrvp : Bool
  deriving DecidableEq, Repr

variable {P : Type}

/-- A band structure at its place in the chain. -/
structure BandAt (P : Type) where
  pre : List (Qband P)
  qp : Qband P
  post : List (Qband P)

def BandAt.chain (z : BandAt P) : List (Qband P) := z.pre ++ z.qp :: z.post

/-- The band whose first message is in band `b`, if it has one. -/
def Qband.isBand (v : P → Info) (b : Uchar) (qp : Qband P) : Bool :=
  match qp.qbFirst with
  | none => false
  | some mp => (v mp).bBand == b

/-- What `find_qband` does to a new or reused structure (`queue.c:446-452`). -/
def Core.resetBand (c : Core P) (qp : Qband P) : Qband P :=
  { qp with
    qbCount := 0
    qbHiwat := c.qHiwat
    qbLowat := c.qLowat
    qbFull := false
    qbWantw := false
    qbWasfull := false }

def Core.newBand (c : Core P) : Qband P := ⟨0,none,none,c.qHiwat,c.qLowat,false,false,false⟩

/-- `find_qband` (`queue.c:406-455`); `alloc` is the outcome of
`LIS_QBAND_ALLOC`, should it be called. -/
def findQband (v : P → Info) (alloc : Bool) (c : Core P) (b : Uchar) : Option (BandAt P) :=
  match splitFirst (fun qp => qp.isBand v b) c.qBandp with
  | some z => some ⟨z.1,z.2.1,z.2.2⟩
  | none =>
      match splitFirst (fun qp => qp.qbFirst.isNone) c.qBandp with
      | some z => some ⟨z.1,c.resetBand z.2.1,z.2.2⟩
      | none => if alloc then some ⟨[],c.newBand,c.qBandp⟩ else none

/-- The flags after `lis_qenable` (`queue.c:1300-1377`). Linking the queue into
the run list when `QENAB` gets set is not part of this model. -/
def qenableFlags (srvp : Bool) (f : Qflag) : Qflag :=
  if !srvp then f
  else if f.inhEnable then if f.deferEnable then { f with qwantenab := true } else f
  else { f with qenab := true }

def Core.lisQenable (c : Core P) : Core P := { c with qFlag := qenableFlags c.qiSrvp c.qFlag }

/-- The band pointers after `mp` was linked between `prev` and `next`
(`queue.c:488-500`). -/
def bandLinkIn [DecidableEq P] (mp : P) (prev next : Option P) (qp : Qband P) : Qband P :=
  let first := match qp.qbFirst with
    | none => some mp
    | some x => if next = some x then some mp else some x
  let last := match qp.qbLast with
    | none => some mp
    | some x => if prev = some x then some mp else some x
  { qp with qbFirst := first, qbLast := last }

/-- The counting half of `updatequeue` (`queue.c:470-503`). -/
def countIn [DecidableEq P] (v : P → Info) (alloc bandPtrs : Bool) (c : Core P) (mp : P)
    (prev next : Option P) : Core P :=
  if (v mp).inQCount then
    let n := c.qCount + (v mp).size
    if c.qHiwat < n then
      { c with qCount := n, qFlag := { c.qFlag with qfull := true, qwasfull := true } }
    else { c with qCount := n }
  else match findQband v alloc c (v mp).bBand with
    | none => c
    | some z =>
        let n := z.qp.qbCount + (v mp).size
        let qp :=
          if z.qp.qbHiwat < n then { z.qp with qbCount := n, qbFull := true, qbWasfull := true }
          else { z.qp with qbCount := n }
        let qp := if bandPtrs then bandLinkIn mp prev next qp else qp
        { c with qBandp := BandAt.chain { z with qp := qp } }

/-- The scheduling half of `updatequeue` (`queue.c:505-516`). -/
def schedule (v : P → Info) (fromInsq : Bool) (c : Core P) (mp : P) : Core P :=
  if fromInsq && c.qFlag.qnoenb then c
  else if (v mp).hipri || (!c.qFlag.qnoenb && c.qFlag.qwantr) then c.lisQenable
  else c

def updatequeue [DecidableEq P] (v : P → Info) (alloc fromInsq bandPtrs : Bool) (c : Core P)
    (mp : P) (prev next : Option P) : Core P :=
  schedule v fromInsq (countIn v alloc bandPtrs c mp prev next) mp

/-- `chk_band` (`queue.c:679-697`): the band and the flags of its queue. -/
def chkBand (f : Qflag) (qp : Qband P) : Qflag × Qband P :=
  let qp := if qp.qbCount ≤ qp.qbHiwat then { qp with qbFull := false } else qp
  if qp.qbWasfull && qp.qbCount ≤ qp.qbLowat then
    if qp.qbWantw then
      ({ f with qwantw := true, qback := true },{ qp with qbWasfull := false, qbWantw := false })
    else ({ f with qback := true },{ qp with qbWasfull := false })
  else (f,qp)

/-- The loop over all bands at the end of `flush_worker` (`queue.c:1541-1544`). -/
def chkBands (f : Qflag) : List (Qband P) → Qflag × List (Qband P)
  | [] => (f,[])
  | qp :: qps =>
      let r := chkBand f qp
      let s := chkBands r.1 qps
      (s.1,r.2 :: s.2)

/-- The band pointers before `mp` is unlinked from between `prev` and `next`
(`queue.c:720-738`). -/
def bandLinkOut [DecidableEq P] (v : P → Info) (mp : P) (prev next : Option P) (qp : Qband P) :
    Qband P :=
  let same (x : Option P) : Bool := match x with
    | none => false
    | some y => (v y).bBand == (v mp).bBand
  let qp :=
    if qp.qbFirst = some mp then
      if same next then { qp with qbFirst := next }
      else { qp with qbFirst := none, qbLast := none }
    else qp
  if qp.qbLast = some mp then
    if same prev then { qp with qbLast := prev }
    else { qp with qbFirst := none, qbLast := none }
  else qp

/-- `adjust_q_count` (`queue.c:706-761`). -/
def adjustQCount [DecidableEq P] (v : P → Info) (alloc bandPtrs : Bool) (c : Core P) (mp : P)
    (prev next : Option P) : Core P :=
  let c := { c with qFlag := { c.qFlag with qwantr := false } }
  if !(v mp).inQCount then
    match findQband v alloc c (v mp).bBand with
    | none => c
    | some z =>
        let qp := { z.qp with qbCount := z.qp.qbCount - (v mp).size }
        let qp := if bandPtrs then bandLinkOut v mp prev next qp else qp
        let r := chkBand c.qFlag qp
        { c with qFlag := r.1, qBandp := BandAt.chain { z with qp := r.2 } }
  else
    let n := c.qCount - (v mp).size
    let f := if n < c.qHiwat then { c.qFlag with qfull := false } else c.qFlag
    let f := if f.qwasfull && n ≤ c.qLowat then { f with qback := true, qwasfull := false } else f
    { c with qCount := n, qFlag := f }

/-- What `lis_backenable` reads and writes in a queue behind. -/
structure BackQ where
  qFlag : Qflag
  qiSrvp : Bool
  qCount : Ulong
  deriving DecidableEq, Repr

/-- The search of `lis_backenable` (`queue.c:905-926`) through the queues that
`lis_backq` leads to, nearest first: the queues after it, and whether
`lis_qenable` was called on one of them. -/
def backSearch : List BackQ → List BackQ × Bool
  | [] => ([],false)
  | q :: qs =>
      if q.qFlag.shut then (q :: qs,false)
      else if q.qiSrvp && !q.qFlag.qnoenb then
        let q' := { q with qFlag := qenableFlags q.qiSrvp q.qFlag }
        if !q'.qFlag.qclosewt || q'.qCount ≠ 0 then (q' :: qs,true)
        else (q' :: (backSearch qs).1,true)
      else
        let r := backSearch qs
        (q :: r.1,r.2)

/-- The test at the start of `lis_backenable` (`queue.c:886-890`). -/
def Core.wantsBack (c : Core P) : Bool :=
  ((c.qFlag.qwantw && c.qFlag.qback) || c.qFlag.qclosewt) && c.qCount ≤ c.qLowat

/-- `lis_backenable` (`queue.c:878-931`): the queue, the queues behind it, and
whether one of these was enabled. -/
def lisBackenable (c : Core P) (back : List BackQ) : Core P × List BackQ × Bool :=
  if c.wantsBack then
    ({ c with qFlag := { c.qFlag with qwantw := false, qback := false } },backSearch back)
  else (c,back,false)

/-- The messages that `flush_worker` frees (`queue.c:1480-1491`); a negative
`band` stands for all bands. -/
def flushes (band : ℤ) (flushAll : Bool) (i : Info) : Bool :=
  (band < 0 || (i.bBand : ℤ) == band) &&
    ((band == 0 && !i.hipri) || (band != 0 && (flushAll || lisDatamsg i.dbType)))

/-- What `flush_worker` does to the queue before it looks at the messages
(`queue.c:1455-1469`). -/
def Core.flushStart (c : Core P) : Core P :=
  { c with
    qCount := 0
    qFlag := { c.qFlag with qfull := false, qwasfull := false, qwantr := false, qwantw := false }
    qBandp := c.qBandp.map fun qp =>
      { qp with qbFirst := none, qbLast := none, qbCount := 0, qbFull := false } }

/-- The checks after the messages were looked at (`queue.c:1533-1550`);
`wasfull` is `QWASFULL` from before the flush. -/
def Core.flushCheck (wasfull : Bool) (c : Core P) : Core P :=
  let r := chkBands { c.qFlag with qwantr := true } c.qBandp
  let f := if wasfull && c.qCount ≤ c.qLowat then { r.1 with qback := true, qwantw := true } else r.1
  { c with qFlag := f, qBandp := r.2 }

/-- The end of `flush_worker` (`queue.c:1552-1577`); `nonempty` says whether the
queue has messages again. -/
def Core.flushEnd (nonempty : Bool) (c : Core P) (back : List BackQ) : Core P × List BackQ × Bool :=
  if c.qFlag.shut then (c,back,false)
  else
    let r := lisBackenable c back
    if r.1.qFlag.qwantr && nonempty && !r.1.qFlag.qnoenb then (r.1.lisQenable,r.2) else r

end CSLiS.Queue
