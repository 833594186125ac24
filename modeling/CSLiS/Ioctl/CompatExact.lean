import CSLiS.Ioctl.Compat
import CSLiS.Ioctl.CopyExact

/-!
# When a 32-bit I_STR does what the native one does (head/linux-mdep.c)

The block in kernel memory has room for the request. A longer reply is written past its end, or read past it for
the process. Where I_STR32 stands for the command, the command of the process is lost: the driver gets I_STR, and so
does the process.
-/

namespace CSLiS.Ioctl.Compat
open Queue Head

variable {b : Build} {w : World} {par : Par} {m m' : Memory} {byte : ℕ → Uchar} {arg : List Uchar}
  {r : Option (ℤ × Uint × List DatBlk)} {d : Done} {value : ℤ}

section Memory

def overlay (bs : List Uchar) (byte : ℕ → Uchar) (k : ℕ) : Uchar := if h : k < bs.length then bs.get ⟨k,h⟩ else byte k

theorem overlay_nil : overlay [] byte = byte := funext fun k => dif_neg (Nat.not_lt_zero k)

theorem bytes_length (n : ℕ) : (m.bytes n).length = n := by simp [Memory.bytes]

end Memory

section Reply

/- The data of an answer: return value, count and blocks. -/
def Answer.reply : Answer → Option (ℤ × Uint × List DatBlk)
  | .ack iocError rval count dat => if iocError = 0 ∧ 0 < count.toInt then some (rval,count,dat) else none
  | _ => none

/- The data with which the driver answers the request of the process. -/
def reply (w : World) (par : Par) (byte : ℕ → Uchar) : Option (ℤ × Uint × List DatBlk) :=
  if w.pre = none ∧ w.hup = false ∧ 0 ≤ par.icLen.toInt ∧ -1 ≤ par.icTimout.toInt then
    (w.answer ⟨par.icCmd,par.icLen,(Memory.user byte).bytes par.icLen.toNat⟩ par.icTimout
      (isLink par.icCmd)).reply
  else none

def replyBytes : Option (ℤ × Uint × List DatBlk) → List Uchar
  | some (_,count,dat) => (dat.flatMap DatBlk.data).take count.toInt.toNat
  | none => []

/- `ic_len` after the call: the count of the reply when the result is 0. -/
def LenAfter (v len : Uint) : Option (ℤ × Uint × List DatBlk) → Prop
  | some (rval,count,_) => v = if rval = 0 then count else len
  | none => v = len ∨ v = 0

/- What an ioctl leaves behind, by what it got. -/
structure Facts (d : Done) (par : Par) (m : Memory) (r : Option (ℤ × Uint × List DatBlk)) : Prop where
  cmd : d.par.icCmd = par.icCmd
  byte : d.mem.byte = overlay (replyBytes r) m.byte
  limit : d.mem.limit = m.limit
  outside : d.mem.outside = m.limit.any (· < (replyBytes r).length)
  len : LenAfter d.par.icLen par.icLen r

/- Nothing is copied. -/
theorem Facts.nothing {n : ℕ} (par par' : Par) (hm : m.outside = false) (hn : m.limit.any (· < n) = false)
    (hcmd : par'.icCmd = par.icCmd) (hlen : par'.icLen = par.icLen ∨ par'.icLen = 0) (value : ℤ)
    (sent : Option Request) : Facts ⟨value,par',m.touch n,sent⟩ par m none := by
  refine ⟨hcmd,overlay_nil.symm,rfl,?_,hlen⟩
  have hzero : m.limit.any (· < (replyBytes none).length) = false := by
    cases m.limit <;> simp [replyBytes]
  rw [hzero]
  simp [Memory.touch,Memory.exceeds,hm,hn]

/- The parameters go back to the process when the result is 0. -/
def settled (par : Par) (d : Done) : Done := if d.value = 0 then d else { d with par := par }

end Reply

section Back

/- The 32-bit call does what the native one does, within its block of kernel memory. -/
structure Same (native d : Done) : Prop where
  sent : d.sent = native.sent
  value : d.value = native.value
  par : d.par = native.par
  byte : d.mem.byte = native.mem.byte
  inside : d.mem.outside = false

end Back

section Builds

end Builds

end CSLiS.Ioctl.Compat
