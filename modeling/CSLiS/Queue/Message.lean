import Mathlib

/-!
# Messages (include/sys/LiS/msg.h, include/sys/strmsg.h, head/msgutl.c)

A message is its first block and the blocks on its `b_cont` chain. A block has
its type `b_datap->db_type`, the size `db_lim - db_base` of its buffer and the
bytes between `b_rptr` and `b_wptr`. Two messages are told apart by the address
of the first block.
-/

namespace CSLiS.Queue

abbrev Uchar := Fin 256
abbrev Ulong := BitVec 64

instance neZeroUchar : NeZero (256 : ℕ) := ⟨by decide⟩

/- msg_type_t, as far as the modelled routines compare with it. Everything from
QPCTL on is of high priority (strmsg.h:310). -/
def M_DATA : Uchar := 0x00
def M_PROTO : Uchar := 0x01
def M_DELAY : Uchar := 0x04
def M_IOCTL : Uchar := 0x05
def M_PASSFP : Uchar := 0x06
def M_SETOPTS : Uchar := 0x08
def M_SIG : Uchar := 0x09
def QPCTL : Uchar := 0x0a
def M_COPYIN : Uchar := 0x0a
def M_COPYOUT : Uchar := 0x0b
def M_ERROR : Uchar := 0x0c
def M_FLUSH : Uchar := 0x0d
def M_HANGUP : Uchar := 0x0e
def M_IOCACK : Uchar := 0x0f
def M_IOCNAK : Uchar := 0x10
def M_IOCDATA : Uchar := 0x11
def M_PCPROTO : Uchar := 0x12
def M_PCSIG : Uchar := 0x14
def M_READ : Uchar := 0x15

def lisHipri (t : Uchar) : Bool := QPCTL ≤ t

/-- `lis_datamsg` (`msgutl.h:227`). -/
def lisDatamsg (t : Uchar) : Bool :=
  t == M_DATA || t == M_PROTO || t == M_PCPROTO || t == M_DELAY

structure Blk where
  dbType : Uchar
  dbSize : ℕ
  data : List Uchar
  deriving DecidableEq, Repr

/- What a message carries. Its type is that of the first block. -/
structure Mbody where
  bBand : Uchar
  msgnoloop : Bool
  blk : Blk
  bCont : List Blk
  deriving DecidableEq, Repr

def Mbody.dbType (mp : Mbody) : Uchar := mp.blk.dbType

/-- `lis_msgsize` (`msgutl.c:127-138`): the buffer sizes are added in an `int`. -/
def lisMsgsize (mp : Mbody) : BitVec 32 :=
  (mp.blk :: mp.bCont).foldl (fun rtn b => rtn + BitVec.ofNat 32 b.dbSize) 0

/- A message that is told from others by the address of its first block. -/
structure Msg extends Mbody where
  addr : ℕ
  deriving DecidableEq, Repr

/-- What the queue routines read in a message: type, band, and the size as it
is added to an `unsigned long`. -/
structure Info where
  dbType : Uchar
  bBand : Uchar
  size : Ulong
  deriving DecidableEq, Repr

def Mbody.info (mp : Mbody) : Info := ⟨mp.dbType,mp.bBand,(lisMsgsize mp).signExtend 64⟩

def Msg.info (mp : Msg) : Info := mp.toMbody.info

/-- Of high priority, `db_type >= QPCTL`. -/
def Info.hipri (i : Info) : Bool := lisHipri i.dbType

/-- `b_band` of a high-priority message is cleared when it is put on a queue that
has messages. -/
def Msg.cleared (mp : Msg) : Msg :=
  if mp.info.hipri then { mp with bBand := 0 } else mp

/-- Counted in `q_count`, not in the count of a band (`queue.c:472`). -/
def Info.inQCount (i : Info) : Bool := i.hipri || i.bBand == 0

/-- An ordinary message of this band. -/
def Info.inBand (b : Uchar) (i : Info) : Bool := !i.hipri && i.bBand == b

end CSLiS.Queue
