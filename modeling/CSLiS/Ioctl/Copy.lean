import CSLiS.Buffer.Mdbblock

/-!
# Copy requests of an ioctl (head/head.c)

While an ioctl waits for its answer, the driver can ask for data to be copied from
or to the user (M_COPYIN, M_COPYOUT). `lis_strdoioctl` serves a request in place,
turns its message into the M_IOCDATA that answers it, and jumps back to `again`,
which returns on an error and sends the message otherwise.

`Outcome` has what the system does meanwhile: whether `access_ok` and an allocation
succeed, the copies from and to the user, and the memory of the user. A copy that
fails is taken to copy nothing.
-/

namespace CSLiS.Ioctl
open Queue

abbrev Uint := BitVec 32

def ENOMEM : ℤ := 12
def EFAULT : ℤ := 14

/- A data block on the `b_cont` chain of a request. -/
structure DatBlk where
  addr : ℕ
  data : List Uchar
  deriving DecidableEq, Repr

/-- `copyreq_t` with the chain attached to it. -/
structure CopyReq where
  dbType : Uchar
  cqAddr : ℕ
  cqSize : Uint
  bCont : List DatBlk
  copies : dbType = M_COPYIN ∨ dbType = M_COPYOUT

structure Outcome where
  access : Bool
  alloc : Bool
  copy : ℕ → Bool
  user : ℕ → Uchar

/-- `copyresp_t` with the bytes attached to it. -/
structure IocData where
  cpRval : ℤ
  data : List Uchar
  deriving DecidableEq, Repr

/-- A request after it was served: `err` in `lis_strdoioctl`, the message as an
answer, the bytes that were copied, the attached blocks that were freed and those
that are still attached. -/
structure Served where
  err : ℤ
  answer : IocData
  copied : List Uchar
  freed : List ℕ
  attached : List ℕ
  deriving DecidableEq, Repr

/-- `lis_check_umem` (`linux-mdep.c:4405-4421`) -/
def lisCheckUmem (ok : Bool) : ℤ := if ok then 0 else -EFAULT

/-- `lis_copyin` (`linux-mdep.c:4394-4399`) -/
def lisCopyin (ok : Bool) (ubuf : List Uchar) : ℤ × List Uchar := if ok then (0,ubuf) else (-EFAULT,[])

/-- `lis_copyout` (`linux-mdep.c:4401-4404`) -/
def lisCopyout (ok : Bool) (kbuf : List Uchar) : ℤ × List Uchar := if ok then (0,kbuf) else (-EFAULT,[])

/-- `cp_rval` after an error (`head.c:4120-4148`): on x86-64 it is cleared, and the
error is stored 32 bytes further on. -/
def errRval (x86 : Bool) (err : ℤ) : ℤ := if x86 then 0 else -err

/-- The room in a block of `allocb`, to which the size is an `int` (`msg.c:409-424`). -/
def blkRoom (len : Uint) : ℕ := if (Buffer.FASTBUF : ℤ) < len.toInt then len.toNat else Buffer.FASTBUF

def CopyReq.ubuf (r : CopyReq) (o : Outcome) : List Uchar :=
  (List.range r.cqSize.toNat).map fun i => o.user (r.cqAddr + i)

def CopyReq.chain (r : CopyReq) : List ℕ := r.bCont.map DatBlk.addr

/-- M_COPYIN (`head.c:4096-4168`) -/
def copyin (x86 : Bool) (r : CopyReq) (o : Outcome) : Served :=
  let err := lisCheckUmem o.access
  if err < 0 then ⟨err,⟨errRval x86 err,[]⟩,[],r.chain,[]⟩
  else if !o.alloc then ⟨err,⟨ENOMEM,[]⟩,[],r.chain,[]⟩
  else
    let c := lisCopyin (o.copy 0) (r.ubuf o)
    if c.1 < 0 then ⟨c.1,⟨errRval x86 c.1,[]⟩,[],r.chain,[]⟩
    else
      let dat := c.2.take (blkRoom r.cqSize)
      ⟨c.1,⟨0,dat⟩,dat,r.chain,[]⟩

structure Copyout where
  err : ℤ
  count : ℤ
  copied : List Uchar
  freed : List ℕ
  deriving DecidableEq, Repr

/-- The loop of `copyout_blks` (`head.c:3750-3763`); `i` counts the calls of `lis_copyout`. -/
def copyoutLoop (copy : ℕ → Bool) : ℕ → ℤ → ℤ → List DatBlk → Copyout
  | _, err, count, [] => ⟨err,count,[],[]⟩
  | i, err, count, mp :: mb =>
      if count ≤ 0 then ⟨err,count,[],[]⟩
      else if err = 0 then
        let len := min count mp.data.length
        let c := lisCopyout (copy i) (mp.data.take len.toNat)
        let r := copyoutLoop copy (i + 1) c.1 (count - len) mb
        { r with copied := c.2 ++ r.copied, freed := mp.addr :: r.freed }
      else
        let r := copyoutLoop copy i err count mb
        { r with freed := mp.addr :: r.freed }

/-- `copyout_blks` (`head.c:3742-3771`) -/
def copyoutBlks (copy : ℕ → Bool) (count : ℤ) (mp : List DatBlk) : Copyout :=
  let c := copyoutLoop copy 0 0 count mp
  { c with err := if c.err < 0 then c.err else 0 }

/-- M_COPYOUT (`head.c:4169-4219`); `cp_rval` is where `cq_addr` was -/
def copyout (x86 : Bool) (r : CopyReq) (o : Outcome) : Served :=
  let err := lisCheckUmem o.access
  if 0 ≤ err then
    let c := copyoutBlks o.copy r.cqSize.toNat r.bCont
    ⟨c.err,⟨if c.err < 0 then errRval x86 c.err else 0,[]⟩,c.copied,c.freed,[]⟩
  else ⟨err,⟨r.cqAddr,[]⟩,[],[],r.chain⟩

def serve (x86 : Bool) (r : CopyReq) (o : Outcome) : Served :=
  if r.dbType = M_COPYIN then copyin x86 r o else copyout x86 r o

/-- What an ioctl did: its result, if an error ended it, the answers it sent and the
blocks it freed. -/
structure Copies where
  ret : Option ℤ
  sent : List Served
  freed : List ℕ

/-- The requests of the driver, until one of them ends the ioctl at `again`
(`head.c:3948-3953`). -/
def copyRequests (x86 : Bool) : List (CopyReq × Outcome) → Copies
  | [] => ⟨none,[],[]⟩
  | (r,o) :: rest =>
      let v := serve x86 r o
      if v.err < 0 then ⟨some v.err,[],v.freed ++ v.attached⟩
      else
        let t := copyRequests x86 rest
        ⟨t.ret,v :: t.sent,v.freed ++ t.freed⟩

end CSLiS.Ioctl
