import CSLiS.Head.Readq

/-!
# Reading a stream (head/head.c)

`lis_strread` takes messages from the read queue, copies the data of their blocks to the user and
puts back what it has not copied. `fault` tells whether the copy to an offset of the user's buffer
fails. Nothing arrives while it runs; a read that finds nothing waits, or returns without data, and
which of the two is not modelled.
-/

namespace CSLiS.Head
open Queue

inductive Rmode
  | rnorm
  | rmsgd
  | rmsgn
  deriving DecidableEq, Repr

structure Rdopt where
  mode : Rmode
  rprotnorm : Bool
  rprotdat : Bool
  rprotdis : Bool
  deriving DecidableEq, Repr

inductive Errno
  | efault
  | ebadmsg
  | eagain
  | einval
  deriving DecidableEq, Repr

/- `empty`: there was nothing to read. -/
inductive Ret
  | count
  | empty
  | err (e : Errno)
  deriving DecidableEq, Repr

/- What the loop over the blocks of a message has copied and left. `lgth` tells whether `msg_lgth` is
not 0. -/
structure Copied where
  bytes : List Uchar
  left : List Mblk
  lgth : Bool
  err : Bool
  deriving DecidableEq, Repr

/-- The loop over the blocks (`head.c:5749-5782`). `off` bytes are in the user's buffer, `room` are
not used. -/
def readBlocks (fault : ℕ → Bool) (off room : ℕ) : List Mblk → Copied
  | [] => ⟨[],[],false,false⟩
  | mp :: bCont =>
      let nbytes := if mp.dbType = M_DATA then mp.lisMblksize.toNat else 0
      if 0 < nbytes then
        if fault off then ⟨[],mp :: bCont,false,true⟩
        else
          let chunk := min room nbytes
          if chunk < nbytes then ⟨mp.data.take chunk,mp.skip chunk :: bCont,true,false⟩
          else if chunk < room then
            let r := readBlocks fault (off + chunk) (room - chunk) bCont
            { r with bytes := mp.data.take chunk ++ r.bytes, lgth := true }
          else ⟨mp.data.take chunk,bCont,true,false⟩
      else if 0 < room then readBlocks fault off room bCont
      else ⟨[],bCont,false,false⟩

/- What `lis_strread` leaves, has copied and returns. -/
structure Got where
  hd : Rdq
  bytes : List Uchar
  ret : Ret
  deriving DecidableEq, Repr

/-- The loop of `lis_strread` (`head.c:5643-5925`). -/
def strreadLoop (opt : Rdopt) (fault : ℕ → Bool) (ulen : ℕ) : ℕ → Rdq → List Uchar → Bool → Option Got
  | 0, _, _, _ => none
  | n + 1, hd, bytes, msgsRead =>
      match hd.msgs with
      | [] => some ⟨hd,bytes,if msgsRead then .count else .empty⟩
      | mp :: l =>
          let hd := { hd with msgs := l }.lisCheckMSig
          if mp.dbType = M_DATA then
            let r := readBlocks fault bytes.length (ulen - bytes.length) mp.blocks
            let hd := if r.err = false ∧ opt.mode = .rmsgd then hd else hd.requeueLeft r.left
            let bytes := bytes ++ r.bytes
            if ulen = bytes.length ∨ opt.mode ≠ .rnorm ∨ r.lgth = false ∨ mp.blk.msgmark = true then
              some ⟨hd,bytes,.count⟩
            else if r.err then some ⟨hd,bytes,.err .efault⟩
            else strreadLoop opt fault ulen n hd bytes true
          else if mp.dbType = M_PCPROTO ∨ mp.dbType = M_PROTO then
            let hd := if mp.dbType = M_PCPROTO then { hd with strpri := false } else hd
            if opt.rprotnorm then some ⟨if opt.rprotdis then hd else hd.lisRequeue mp,bytes,.err .ebadmsg⟩
            else if opt.rprotdat then
              strreadLoop opt fault ulen n (hd.lisRequeue { mp with blk := { mp.blk with dbType := M_DATA } }) bytes true
            else if opt.rprotdis then
              strreadLoop opt fault ulen n (hd.requeueLeft mp.bCont) bytes true
            else some ⟨hd,bytes,.err .ebadmsg⟩
          else if mp.dbType = M_READ then strreadLoop opt fault ulen n hd bytes msgsRead
          else if mp.dbType = M_SIG then some ⟨(hd.lisRequeue mp).lisCheckMSig,bytes,.err .eagain⟩
          else some ⟨hd,bytes,.err .ebadmsg⟩

/- Every round of the loop takes a block away, or makes the first one M_DATA. -/
def rounds (l : List Mesg) : ℕ := (l.map fun mp => 2 * mp.blocks.length).sum + 1

def lisStrread (opt : Rdopt) (fault : ℕ → Bool) (hd : Rdq) (ulen : ℕ) : Option Got :=
  strreadLoop opt fault ulen (rounds hd.msgs) hd [] false

end CSLiS.Head
