import CSLiS.Head.Rput
import CSLiS.Queue.FlushOnce
import CSLiS.Queue.Shortage

/-!
# Passed files (head/linux-mdep.c, head/head.c, head/queue.c)

`lis_sendfd` puts an M_PASSFP message to the other end of the pipe, `lis_recvfd` takes it from there and installs the
file it refers to. Messages that are flushed wait on `free_passfp` for `lis_tq_free_passfp`. Beside the receiving head
stands what has become of the references and of the messages.
-/

namespace CSLiS.Head
open Queue

/- A counted reference to a file, by the message for which it was taken and the file: taken by `fget` or handed to
`lis_sendfd`, that of the copy made of the receiver's own file, taken with `fget` by the receiver. -/
inductive Ref where
  | sent (mp fp : ℕ)
  | copy (mp fp : ℕ)
  | again (mp fp : ℕ)
  deriving DecidableEq, Repr

/-- `strrecvfd_t` in a message: `f.fp`, `uid`, `gid`, `r.fp`. -/
structure Strrecvfd where
  fp : ℕ
  uid : ℕ
  gid : ℕ
  rfp : Option ℕ
  deriving DecidableEq, Repr

/-- `sizeof(strrecvfd_t)` -/
def sizeofStrrecvfd : ℕ := 32

structure Pass where
  hd : Stdata
  alive : Bool
  sdRfdcnt : BitVec 16
  /- of the sending head: `sd_peer` leads to the receiving one; STRHUP -/
  peer : Bool
  strhup : Bool
  freePassfp : List Msg
  cells : ℕ → Option Strrecvfd
  taken : List Ref
  installed : List Ref
  released : List Ref
  made : List ℕ
  freed : List ℕ
  sent : List ℕ
  received : List ℕ

namespace Pass

def EBADF : ℤ := 9
def EAGAIN : ℤ := 11
def ENOMEM : ℤ := 12
def ENFILE : ℤ := 23
def EPIPE : ℤ := 32
def ENOSR : ℤ := 63

def isPassfp (mp : Msg) : Bool := mp.dbType == M_PASSFP
def passfps (l : List Msg) : List Msg := l.filter isPassfp

/- `mp->b_wptr - mp->b_rptr < sizeof(strrecvfd_t)` -/
def short (mp : Msg) : Bool := mp.blk.data.length < sizeofStrrecvfd

/- The reference that a message carries. -/
def refs (s : Pass) (mp : Msg) : List Ref :=
  match s.cells mp.addr with
  | none => []
  | some c => if c.rfp.isSome then [.copy mp.addr c.fp] else [.sent mp.addr c.fp]

/-- `lis_freemsg`, of which only M_PASSFP messages are recorded. -/
def freemsg (s : Pass) (mp : Msg) : Pass := if isPassfp mp then { s with freed := s.freed ++ [mp.addr] } else s

/-- `lis_free_passfp` (`linux-mdep.c:4108-4171`) -/
def lisFreePassfp (s : Pass) (mp : Msg) : Pass :=
  if !isPassfp mp || short mp then s.freemsg mp
  else { s with sdRfdcnt := s.sdRfdcnt - 1, freePassfp := s.freePassfp ++ [mp] }

/-- `lis_tq_free_passfp` (`linux-mdep.c:4050-4100`), for one message that `lis_get_passfp` gives. -/
def lisTqFreePassfp (s : Pass) : Pass :=
  match s.freePassfp with
  | [] => s
  | mp :: l => { s with freePassfp := l, released := s.released ++ s.refs mp }.freemsg mp

/- What a caller hands to `lis_sendfd` and what the calls in it come to: `fp` if given, else `fget(fd)`; whether
`allocb` succeeds; whether the file is the receiver's own, and then `lis_get_filp` and `lis_d_alloc_root`; the result of
`lis_lockq`. The block that `allocb` gives is not in use. -/
structure Send where
  addr : ℕ
  fp : Option ℕ
  fget : Option ℕ
  allocb : Bool
  own : Bool
  filp : Option ℕ
  dentry : Bool
  lockq : ℤ
  uid : ℕ
  gid : ℕ

/- The message as `lis_sendfd` puts it. -/
def message (addr : ℕ) : Msg := ⟨⟨0,false,⟨M_PASSFP,sizeofStrrecvfd,List.replicate sizeofStrrecvfd 0⟩,[]⟩,addr⟩

/-- `lis_sendfd` from line 3974 on: the message is counted, and put when the queue could be locked. -/
def deliver (s : Pass) (alloc : Msg → Bool) (a : Send) (c : Strrecvfd) : Pass × ℤ :=
  let mp := message a.addr
  let s := { s with cells := Function.update s.cells a.addr (some c), sdRfdcnt := s.sdRfdcnt + 1 }
  if a.lockq = 0 then
    if s.hd.sdRq.core.qFlag.qprocsoff then (s.freemsg mp,0)
    else ({ s with hd := s.hd.lisStrrput alloc mp, sent := s.sent ++ [a.addr] },0)
  else (s.freemsg mp,a.lockq)

/-- `lis_sendfd` (`linux-mdep.c:3887-4026`). Without a file from `lis_get_filp` the source goes on through NULL. -/
def lisSendfd (s : Pass) (alloc : Msg → Bool) (a : Send) : Pass × ℤ :=
  if !s.peer || !s.alive || s.strhup then (s,- EPIPE)
  else if !a.allocb then (s,- ENOSR)
  else
    let s := { s with made := s.made ++ [a.addr] }
    match a.fp.orElse fun _ => a.fget with
    | none => ({ s with freed := s.freed ++ [a.addr] },- EBADF)
    | some fp =>
        let s := { s with taken := s.taken ++ [Ref.sent a.addr fp] }
        if a.own then
          match a.filp with
          | none => (s,0)
          | some dfp =>
              let s := { s with taken := s.taken ++ [Ref.copy a.addr dfp] }
              if !a.dentry then
                ({ s with
                  released := s.released ++ [Ref.copy a.addr dfp,Ref.sent a.addr fp]
                  freed := s.freed ++ [a.addr] },- ENOMEM)
              else deliver { s with released := s.released ++ [Ref.sent a.addr fp] } alloc a ⟨dfp,a.uid,a.gid,some fp⟩
        else deliver s alloc a ⟨fp,a.uid,a.gid,none⟩

/- `putbqf` -/
def putbqf (s : Pass) (alloc : Msg → Bool) (mp : Msg) : Pass :=
  if s.hd.sdRq.core.qFlag.shut then s.freemsg mp
  else { s with hd := { s.hd with sdRq := s.hd.sdRq.lisPutbq alloc mp } }

/-- `lis_recvfd` (`linux-mdep.c:4173-4268`) for the file `fp`; `fd` says whether there is an unused descriptor. -/
def lisRecvfd (s : Pass) (alloc : Msg → Bool) (fd : Bool) (fp : ℕ) : Pass × ℤ :=
  if !s.alive then (s,- EBADF)
  else
    let first := if s.hd.sdRq.core.qFlag.shut then none else s.hd.sdRq.msgs.head?
    let s := { s with hd := s.hd.lisGetq alloc }
    match first with
    | none => (s,- EAGAIN)
    | some mp =>
        if !isPassfp mp then (s.putbqf alloc mp,- EAGAIN)
        else
          let s := { s with sdRfdcnt := s.sdRfdcnt - 1 }
          if short mp then (s.putbqf alloc mp,- EAGAIN)
          else if !fd then (s.putbqf alloc mp,- ENFILE)
          else
            let s := if (s.cells mp.addr).bind Strrecvfd.rfp = some fp then
                { s with
                  taken := s.taken ++ [Ref.again mp.addr fp]
                  installed := s.installed ++ [Ref.again mp.addr fp]
                  released := s.released ++ s.refs mp }
              else { s with installed := s.installed ++ s.refs mp }
            ({ s with received := s.received ++ [mp.addr] }.freemsg mp,0)

/- What the loop of `flush_worker` (`queue.c:1475-1534`) does with M_PASSFP messages; `shut` says that `lis_putq` frees
what it is given and returns 0. -/
def flushList (band : ℤ) (flushAll shut : Bool) : Pass → List Msg → Pass
  | s, [] => s
  | s, mp :: l =>
      flushList band flushAll shut
        (if flushes band flushAll mp.info then if isPassfp mp then s.lisFreePassfp mp else s
        else if shut then (s.freemsg mp).freemsg mp else s) l

/- The messages before the queue is flushed, those of the queue first. -/
def flushQueue (s : Pass) (band : ℤ) (flushAll : Bool) : Pass :=
  flushList band flushAll s.hd.sdRq.core.qFlag.shut s (s.hd.sdRq.msgs ++ s.hd.sdRq.defer)

def freeAll (s : Pass) (l : List Msg) : Pass := l.foldl freemsg s

def flushBand (mp : Msg) : ℤ := if flushband (flushByte mp) then (mp.blk.data.tail.head?.getD 0).val else -1

/-- `lis_head_flush` (`head.c:2890-2985`) -/
def lisHeadFlush (s : Pass) (alloc : Msg → Bool) (mp : Msg) (flushRputq : Bool) : Pass :=
  let t := if s.hd.sdFlag.strflushwt || s.hd.sdRq.core.qFlag.qreading || !flushr (flushByte mp) then s
    else (if flushRputq then s.freeAll s.hd.sdRput else s).flushQueue (flushBand mp) false
  { t with hd := (s.hd.lisHeadFlush alloc mp flushRputq).getD s.hd }

/-- `lis_strrput` of a message that `lis_sendfd` has not made. -/
def arrive (s : Pass) (alloc : Msg → Bool) (mp : Msg) : Pass :=
  if !s.hd.sdRq.core.qFlag.qprocsoff && mp.dbType == M_FLUSH && !s.hd.sdRq.core.qFlag.qreading then
    s.lisHeadFlush alloc mp true
  else { s with hd := s.hd.lisStrrput alloc mp }

/-- One turn of the loop of `lis_strrsrv` (`head.c:3358-3362`). -/
def service (s : Pass) (so : Msg → Stroptions) (alloc : Msg → Bool) : Pass :=
  match s.hd.sdRput with
  | [] => s
  | mp :: l =>
      let s := { s with hd := s.hd.getRput (alloc mp) mp l }
      let t :=
        if s.hd.sdFlag.strclose || s.hd.sdRq.core.qFlag.shut then
          if isPassfp mp then s.lisFreePassfp mp else s
        else if mp.dbType = M_FLUSH then s.lisHeadFlush alloc mp false
        else s
      { t with hd := s.hd.lisProcessRput so alloc mp }

def setFlag (s : Pass) (f : Qflag) : Pass :=
  { s with hd := { s.hd with sdRq := { s.hd.sdRq with core := { s.hd.sdRq.core with qFlag := f } } } }

/- One call, or one stage of the last close of an end: the receiving head is marked (`close_action`), its queues are
closed (`mark_closing`), their procedures switched off, their messages flushed (`lis_qdetach`), and the head released
(`lis_free_stdata`). -/
inductive Act where
  | sendfd (alloc : Msg → Bool) (a : Send)
  | recvfd (alloc : Msg → Bool) (fd : Bool) (fp : ℕ)
  | arrive (alloc : Msg → Bool) (mp : Msg)
  | service (so : Msg → Stroptions) (alloc : Msg → Bool)
  | tq
  | closeSender
  | close
  | markClosing
  | procsOff
  | detach (alloc : Msg → Bool)
  | freeStdata

def step (s : Pass) : Act → Option Pass
  | .sendfd alloc a => if a.addr ∈ s.made then none else some (s.lisSendfd alloc a).1
  | .recvfd alloc fd fp => some (s.lisRecvfd alloc fd fp).1
  | .arrive alloc mp => some (s.arrive alloc mp)
  | .service so alloc => some (s.service so alloc)
  | .tq => some s.lisTqFreePassfp
  | .closeSender => some { s with peer := false }
  | .close => some { s with
      hd := { s.hd with sdFlag := { s.hd.sdFlag with strclose := true } }, peer := false, strhup := true }
  | .markClosing => if s.hd.sdFlag.strclose then
      some (s.setFlag { s.hd.sdRq.core.qFlag with qnoenb := true, qclosing := true }) else none
  | .procsOff => if s.hd.sdRq.core.qFlag.qclosing then
      some (s.setFlag { s.hd.sdRq.core.qFlag with qprocsoff := true }) else none
  | .detach alloc => if s.hd.sdRq.core.qFlag.qprocsoff then
      some { s.flushQueue (-1) true with
        hd := { s.hd with sdRq := (s.hd.sdRq.lisFlushq alloc true s.hd.back).1 } } else none
  | .freeStdata => if s.hd.sdRq.core.qFlag.qprocsoff ∧ s.hd.sdRq.msgs = [] then
      some { s.freeAll s.hd.sdRput with hd := { s.hd with sdRput := [] }, alive := false } else none

/- The M_PASSFP messages held for the receiving head. -/
def held (s : Pass) : List Msg := passfps s.hd.sdRq.msgs ++ passfps s.hd.sdRput

/- The count is that of the messages held. Every reference taken is installed, released or still carried, and every
message freed or still there, each once; a head that is gone holds none. The files were received in the order sent. -/
structure Accounted (s : Pass) : Prop where
  count : s.sdRfdcnt.toNat = s.held.length
  refs : s.taken.Perm (s.installed ++ s.released ++ (s.held ++ s.freePassfp).flatMap s.refs)
  once : s.made.Nodup
  msgs : s.made.Perm (s.freed ++ (s.held ++ s.freePassfp).map Msg.addr)
  gone : s.alive = false → s.held = []
  order : s.received.Sublist s.sent

/- A pipe whose receiving head has no messages. -/
def start (qFlag : Qflag) (qHiwat qLowat : Ulong) (wq : ListQueue) (sdErr : Errors) (back : List BackQ) : Pass :=
  ⟨⟨ListQueue.empty qFlag qHiwat qLowat true,wq,[],{},sdErr,back,[]⟩,true,0,true,false,[],fun _ => none,
    [],[],[],[],[],[],[]⟩

end Pass

end CSLiS.Head
