import CSLiS.Head.Getpmsg
import CSLiS.Head.Service
import CSLiS.Write.Putmsg

/-!
# Stream heads that are connected (head/head.c)

The ends of a pipe, or a FIFO, which is connected to itself: what is put on `sd_wq` of one end goes to
`lis_strrput` of its peer, no modules are pushed. Any number of writes, putmsgs, reads and getmsgs take turns with
the service procedures. A write takes its turn at every pass of its loop; between two passes anything else may
happen. A read or a getmsg that has found a message is not interrupted. Flow control says only how a pass ends.
-/

namespace CSLiS.Pipe
open Queue Head Write

/-! ### What is sent -/

/- A block from `lis_strwrite` or `copyin_msgpart`, with the space of `sd_wroff` in front. -/
def sentBlk (type band : Uchar) (wroff : ℕ) (bytes : List Uchar) : Mblk :=
  ⟨band,false,type,List.replicate wroff 0 ++ bytes,wroff,wroff + bytes.length,by simp⟩

def writeMesg (wroff : BitVec 16) (bytes : List Uchar) : Mesg := ⟨sentBlk M_DATA 0 wroff.toNat bytes,[]⟩

/- A call of `lis_strputpmsg`, and the bytes that its parts have. -/
structure Putcall where
  req : Putreq
  wroff : BitVec 16
  ctl : List Uchar
  dat : List Uchar

namespace Putcall

variable (c : Putcall)

/- Whether `copyin_msgpart` makes a block of the part. -/
def copied (part : Option Write.Part) : Bool := (copyinPart Ledger.init c.req.below part).2.1.isSome

/- The message of `copyin_msg`, with its type and its band. -/
def message : Option Mesg :=
  let dat := if c.copied c.req.dat then [sentBlk M_DATA 0 c.wroff.toNat c.dat] else []
  let first :=
    if c.copied c.req.ctl then some (sentBlk M_PROTO 0 0 c.ctl,dat)
    else dat.head?.map fun b => (b,[])
  first.bind fun m =>
    (c.req.prepare ⟨m.1.dbType,0,[]⟩).map fun h => ⟨{ m.1 with dbType := h.btype, bBand := h.bband },m.2⟩

/-- `lis_strputpmsg`: what it returns, and the message that it passes downstream. -/
def lisStrputpmsg : Option (ℤ × Option Mesg) :=
  (c.req.lisStrputpmsg Ledger.init).map fun r => (r.1,if r.2.passed = [] then none else c.message)

end Putcall

/-! ### The ends -/

/- A call of `lis_strwrite`, with the result when it has returned. -/
structure Wcall (ι : Type) where
  side : ι
  req : Wreq
  loc : Wloc
  ret : Option ℤ

/- `sent` are the messages that the peer has taken, with the number of the call for those of a write. `got` are the
bytes that reads have returned, `answers` what getmsg calls have. The code has neither. -/
structure Ends (ι : Type) where
  hd : ι → Shead
  wmsg : ι → Option Held
  calls : List (Wcall ι)
  sent : ι → List (Option ℕ × Mesg)
  got : ι → List Uchar
  answers : ι → List Answer

inductive Act (ι : Type)
  | write (i : ι) (c : Wreq)
  | pass (n : ℕ) (p : Write.Pass)
  | putmsg (i : ι) (c : Putcall)
  | rsrv (i : ι) (so : Mesg → StroptionsT)
  | read (i : ι) (opt : Rdopt) (fault : ℕ → Bool) (ulen : ℕ)
  | getmsg (i : ι) (c : Call)

/- What `lis_strwrite` returns before its loop, if it does. -/
def refused (c : Wreq) : Option ℤ :=
  if c.buf.length < sizeT c.minpsz then some (-Write.EINVAL)
  else if c.buf = [] ∧ c.sndzero = false then some 0
  else if c.fifo < 0 then some c.fifo
  else if c.umem < 0 then some c.umem
  else if c.stplex then some (-Write.EINVAL)
  else none

/- The locals after a pass, and the result if the call returns. -/
def locOf : Wnext → Wloc
  | .rtn _ s => s
  | .cont s => s

def retOf (c : Wreq) : Wnext → Option ℤ
  | .rtn err _ => some err
  | .cont s => if sizeT s.written < c.buf.length then none else some s.written

/- `lis_strrput` frees a M_PCPROTO when there is one that was not taken off. -/
def takes (hd : Shead) (m : Mesg) : Bool := !(m.isPcproto && hd.rd.strpri)

namespace Ends

variable {ι : Type} [DecidableEq ι] (peer : ι → ι) (p : Ends ι)

def setHd (i : ι) (hd : Shead) : Ends ι := { p with hd := Function.update p.hd i hd }

/-- `lis_putnext` of `sd_wq`. -/
def lisPutnext (i : ι) (tag : Option ℕ) (m : Mesg) : Ends ι :=
  { p.setHd (peer i) ((p.hd (peer i)).lisStrrput m) with
    sent := if takes (p.hd (peer i)) m then Function.update p.sent i (p.sent i ++ [(tag,m)]) else p.sent }

/- The messages of a pass. -/
def putAll (i : ι) (tag : Option ℕ) (ms : List Mesg) : Ends ι := ms.foldl (fun p m => p.lisPutnext peer i tag m) p

/- A pass of the call `w`, with the number `n`, that comes to `next`. -/
def passed (n : ℕ) (w : Wcall ι) (next : Wnext) : Ends ι :=
  putAll peer
    { p with
      calls := p.calls.set n { w with loc := locOf next, ret := retOf w.req next }
      wmsg := Function.update p.wmsg w.side (locOf next).wmsg }
    w.side (some n) (((locOf next).sent.drop w.loc.sent.length).map (writeMesg w.req.wroff))

/- A step. The message that is held is that of the stream, not of the call. -/
def step (p : Ends ι) : Act ι → Option (Ends ι)
  | .write i c => some { p with calls := p.calls ++ [⟨i,c,⟨none,0,0,[]⟩,refused c⟩] }
  | .pass n a =>
      p.calls[n]?.bind fun w =>
        if w.ret = none then (w.req.body { w.loc with wmsg := p.wmsg w.side } a).map (p.passed peer n w) else none
  | .putmsg i c => c.lisStrputpmsg.map fun r => r.2.elim p (p.lisPutnext peer i none)
  | .rsrv i so => some (p.setHd i ((p.hd i).rsrvRound so))
  | .read i opt fault ulen =>
      (lisStrread opt fault (p.hd i).rd ulen).map fun g =>
        { p.setHd i { p.hd i with rd := g.hd } with got := Function.update p.got i (p.got i ++ g.returned) }
  | .getmsg i c =>
      (lisStrgetpmsg (p.hd i).rd c).map fun r =>
        { p.setHd i { p.hd i with rd := r.1 } with
          answers := Function.update p.answers i (p.answers i ++ [r.2]) }

/- Nothing was sent yet. -/
def init (err : Errors) (opts : ι → Sopts) : Ends ι :=
  ⟨fun i => ⟨[],⟨[],false⟩,false,false,err,opts i⟩,fun _ => none,[],fun _ => [],fun _ => [],fun _ => []⟩

end Ends

end CSLiS.Pipe
