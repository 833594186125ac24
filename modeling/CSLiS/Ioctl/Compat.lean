import CSLiS.Ioctl.Strdoioctl

/-!
# I_STR of a 32-bit process (head/linux-mdep.c)

`lis_ioctl32_str` copies the parameters and the data of a 32-bit process and calls the ioctl routine of the stream
head with its copies. On x86-64 with RHEL from 9.2 on the routines for user memory do not take these, and a command
of its own, I_STR32, says so to `lis_strdoioctl`; on other such systems nobody knows it. Memory is there where the
process says, kernel memory too. The driver answers with M_IOCACK or M_IOCNAK or not at all.
-/

namespace CSLiS.Ioctl.Compat
open Queue Head

/- `set_fs` before kernel 5.14, or RHEL before 9.2; x86-64 with RHEL from 9.2 on; any other. -/
inductive Build
  | setFs
  | marker
  | noCase
  deriving DecidableEq, Repr

def I_STR : Uint := 0xdc08
def I_STR32 : Uint := 0xdc30
def TRANSPARENT : Uint := -1
def LIS_LNTIME : Uint := 15000
def ENXIO : ℤ := 6
def LINKS : List Uint := [0xdc0c,0xdc16,0xdc0d,0xdc17]
def isLink (cmd : Uint) : Bool := cmd ∈ LINKS

/- `strioctl_t` and `strioctl32_t` without `ic_dp` -/
structure Par where
  icCmd : Uint
  icTimout : Uint
  icLen : Uint
  deriving DecidableEq, Repr

/- What is at `ic_dp`, how many bytes of it there are, and whether others were read or written. -/
structure Memory where
  limit : Option ℕ
  byte : ℕ → Uchar
  outside : Bool

structure Request where
  iocCmd : Uint
  iocCount : Uint
  data : List Uchar
  deriving DecidableEq, Repr

/- No message: the error with which the wait for one ends. -/
inductive Answer
  | ack (iocError iocRval : ℤ) (iocCount : Uint) (dat : List DatBlk)
  | nak (iocError : ℤ)
  | silence (err : ℤ)
  deriving DecidableEq, Repr

/- What is before the `switch` of `lis_strioctl` (no stream, a stream linked below another, a signal at the
semaphore), STRHUP or STRCLOSE, and what comes of a request with its timeout and `ignore_errors`. -/
structure World where
  pre : Option ℤ
  hup : Bool
  answer : Request → Uint → Bool → Answer

structure Done where
  value : ℤ
  par : Par
  mem : Memory
  sent : Option Request

namespace Memory

def user (byte : ℕ → Uchar) : Memory := ⟨none,byte,false⟩

variable (m : Memory)

def exceeds (n : ℕ) : Bool := m.outside || m.limit.any (· < n)

def touch (n : ℕ) : Memory := { m with outside := m.exceeds n }

def bytes (n : ℕ) : List Uchar := (List.range n).map m.byte

def write (bs : List Uchar) : Memory :=
  { m with byte := fun k => if h : k < bs.length then bs.get ⟨k,h⟩ else m.byte k, outside := m.exceeds bs.length }

end Memory

/-- `memcopyout_blks` (`head.c:3777-3799`) -/
def memcopyoutBlks : ℤ → List DatBlk → List Uchar
  | _, [] => []
  | count, mp :: mb =>
      if count ≤ 0 then []
      else
        let len := min count mp.data.length
        mp.data.take len.toNat ++ memcopyoutBlks (count - len) mb

/- A size of -1 is the one that the routines for user memory refuse. -/
def checkSize (len : Uint) : ℤ := lisCheckUmem (decide (0 ≤ len.toInt))

/-- `lis_strdoioctl` with an answer that ends it (`head.c:4004-4094`) -/
def finish (str32 : Bool) (ioc : Par) (mem : Memory) (req : Request) : Answer → Done
  | .silence err => ⟨err,{ ioc with icLen := 0 },mem,some req⟩
  | .nak iocError => ⟨if -iocError ≠ 0 then -iocError else -EINVAL.val,{ ioc with icLen := 0 },mem,some req⟩
  | .ack iocError rval count dat =>
      if iocError ≠ 0 then ⟨-iocError,{ ioc with icLen := 0 },mem,some req⟩
      else if 0 < count.toInt then
        let bs := if str32 then memcopyoutBlks count.toInt dat else (copyoutBlks (fun _ => true) count.toInt dat).copied
        ⟨rval,{ ioc with icLen := count },mem.write bs,some req⟩
      else ⟨rval,if dat ≠ [] then { ioc with icLen := 0 } else ioc,mem,some req⟩

/- The test for I_STR32, which is there on x86-64 with RHEL from 9.2 on. -/
def str32 (b : Build) (ioc : Par) : Bool := b == .marker && ioc.icCmd == I_STR32

/-- `lis_strdoioctl` with `do_copyin` (`head.c:3811-4094`) -/
def strdoioctl (b : Build) (w : World) (ioc : Par) (mem : Memory) : Done :=
  if ioc.icLen ≠ TRANSPARENT ∧ (ioc.icLen.toInt < 0 ∨ ioc.icTimout.toInt < -1) then
    ⟨-EINVAL.val,{ ioc with icLen := 0 },mem,none⟩
  else if checkSize ioc.icLen < 0 ∧ str32 b ioc = false then ⟨checkSize ioc.icLen,{ ioc with icLen := 0 },mem,none⟩
  else
    let n := ioc.icLen.toNat
    let req : Request := ⟨if str32 b ioc then I_STR else ioc.icCmd,ioc.icLen,mem.bytes n⟩
    finish (str32 b ioc) ioc (mem.touch n) req (w.answer req ioc.icTimout (isLink ioc.icCmd))

/-- I_STR and I_STR32 in `lis_strioctl` (`head.c:6809-6862`) -/
def iStr (b : Build) (w : World) (par : Par) (mem : Memory) : Done :=
  match w.pre with
  | some err => ⟨err,par,mem,none⟩
  | none =>
      if w.hup then ⟨- ENXIO,par,mem,none⟩
      else
        let d := strdoioctl b w par mem
        if d.value = 0 then d else { d with par := par }

/-- A command that `lis_strioctl` does not know (`head.c:7862-7887`); `arg` is the pointer that it is sent with. -/
def transparent (w : World) (cmd : Uint) (arg : List Uchar) (par : Par) (mem : Memory) : Done :=
  match w.pre with
  | some err => ⟨err,par,mem,none⟩
  | none =>
      let req : Request := ⟨cmd,TRANSPARENT,arg⟩
      let value := match w.answer req LIS_LNTIME (isLink cmd) with
        | .silence err => err
        | .nak iocError => if -iocError ≠ 0 then -iocError else -EINVAL.val
        | .ack iocError rval _ _ => if iocError ≠ 0 then -iocError else rval
      ⟨value,par,mem,some req⟩

/- The end of `lis_ioctl32_str`: the parameters and the data go back to the process. -/
def giveBack (d : Done) (par32 par64 : Par) (user : Memory) : Done :=
  if 0 < par64.icLen.toInt ∧ 0 < par32.icLen.toInt then
    let n := par64.icLen.toNat
    ⟨d.value,par64,{ user.write (d.mem.bytes n) with outside := d.mem.exceeds n },d.sent⟩
  else ⟨d.value,par64,{ user with outside := d.mem.outside },d.sent⟩

end CSLiS.Ioctl.Compat
