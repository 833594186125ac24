import CSLiS.Queue.Message

/-!
# Message blocks and data blocks (head/msg.c, head/msgutl.c, include/sys/LiS/msg.h)

A `struct mdbblock` holds a message block and a data block, `db_ref` of which
counts both the references of message blocks to the data block and the life of
the header. Headers are told apart by a number that is never used twice. A
buffer outside a header is named after the header whose data block it was given
to. How blocks are linked into messages is left to the caller: a message is the
list of its blocks.
-/

namespace CSLiS.Buffer
open Queue

/-- `FASTBUF`: 128 bytes less the 120 of the two block headers on a 64-bit machine. -/
def FASTBUF : ℕ := 8

/-- `struct mdbblock`. `bBuf` is the buffer that `b_rptr` and `b_wptr` point
into, `bRptr` and `bWptr` are positions in it; `frtnp` says whether there is a
free function. -/
structure Mdb where
  bDatap : Option ℕ
  bBuf : Option ℕ
  bRptr : ℤ
  bWptr : ℤ
  frtnp : Bool
  dbBase : Option ℕ
  dbRef : Uchar
  dbType : Uchar
  dbSize : ℕ
  deriving DecidableEq, Repr

/-- All headers allocated so far. `freed` are the calls of `freehdr`, `released`
those of a free function or of `FREE` for a buffer; `external` are the buffers
outside a header. `live` are the blocks that callers have. -/
structure Mem where
  mdb : ℕ → Mdb
  next : ℕ
  live : List ℕ
  external : List ℕ
  freed : List ℕ
  released : List ℕ

namespace Mem

/-- No header was allocated. -/
def init : Mem := ⟨fun _ => ⟨none,none,0,0,false,none,0,0,0⟩,0,[],[],[],[]⟩

def upd (s : Mem) (x : ℕ) (f : Mdb → Mdb) : Mem :=
  { s with mdb := Function.update s.mdb x (f (s.mdb x)) }

def incRef (s : Mem) (x : ℕ) : Mem := s.upd x fun b => { b with dbRef := b.dbRef + 1 }
def decRef (s : Mem) (x : ℕ) : Mem := s.upd x fun b => { b with dbRef := b.dbRef - 1 }
def setDatap (s : Mem) (x : ℕ) (d : Option ℕ) : Mem := s.upd x fun b => { b with bDatap := d }

/-- `freehdr` (`msg.c:195-236`) without the free list. -/
def freehdr (s : Mem) (x : ℕ) : Mem := { s with freed := s.freed ++ [x] }

/-- `initb` (`msg.c:332-378`) of the next header. -/
def initb (s : Mem) (separate : Bool) (size : ℕ) (frtn : Bool) : Mem :=
  { s with
    mdb := Function.update s.mdb s.next
      ⟨some s.next,some s.next,0,0,frtn,some s.next,1,M_DATA,if separate then size else FASTBUF⟩
    next := s.next + 1
    live := s.next :: s.live
    external := if separate then s.next :: s.external else s.external }

/-- `lis_allocb` (`msg.c:417-468`); `hdr` and `buf` are the outcomes of `allochdr`
and `allocdb`. -/
def lisAllocb (s : Mem) (size : ℕ) (hdr buf : Bool) : Mem × Option ℕ :=
  if !hdr then (s,none)
  else if FASTBUF < size && !buf then ({ s with next := s.next + 1 }.freehdr s.next,none)
  else (s.initb (decide (FASTBUF < size)) size false,some s.next)

/-- `lis_esballoc` (`msg.c:478-519`) of a user's buffer with a free function. -/
def lisEsballoc (s : Mem) (size : ℕ) (hdr : Bool) : Mem × Option ℕ :=
  if !hdr then (s,none) else (s.initb true size true,some s.next)

/-- `lis_dupb` (`msgutl.c:295-312`) -/
def lisDupb (s : Mem) (mp : ℕ) (hdr : Bool) : Mem × Option ℕ :=
  match s.lisAllocb 0 hdr true with
  | (s,none) => (s,none)
  | (s,some bp) =>
      let m := s.mdb mp
      let s := s.upd bp fun b =>
        { b with bDatap := m.bDatap, bBuf := m.bBuf, bRptr := m.bRptr, bWptr := m.bWptr }
      (m.bDatap.elim s s.incRef,some bp)

/-- What `lis_freedb` does to the buffer of a data block whose `db_ref` has become
0 (`msg.c:573-624`). -/
def releaseBuf (s : Mem) (dp : ℕ) : Mem :=
  let m := s.mdb dp
  let s := if m.frtnp then { s with released := s.released ++ [dp] } else s
  let size := if m.frtnp then 0 else m.dbSize
  if FASTBUF < size then
    { s.upd dp fun b => { b with dbSize := size, dbBase := none } with
      released := s.released ++ m.dbBase.toList }
  else s.upd dp fun b => { b with dbSize := size }

/-- `lis_freedb` (`msg.c:526-703`) -/
def lisFreedb (s : Mem) (bp : ℕ) (freeHdr : Bool) : Mem :=
  match (s.mdb bp).bDatap with
  | none => if freeHdr && (s.mdb bp).dbRef == 1 then (s.decRef bp).freehdr bp else s
  | some dp =>
      if (s.mdb dp).dbRef = 0 then s
      else
        let s := s.decRef dp
        if (s.mdb dp).dbRef = 0 then
          let s := s.releaseBuf dp
          let s :=
            if dp = bp then if freeHdr then s else s.incRef dp
            else
              let s := (s.freehdr dp).setDatap bp (some bp)
              if freeHdr && decide (0 < (s.mdb bp).dbRef) then s.decRef bp else s
          if freeHdr && (s.mdb bp).dbRef == 0 then s.freehdr bp else s
        else if freeHdr && decide (dp ≠ bp) && decide (0 < (s.mdb bp).dbRef) then
          let s := s.decRef bp
          if (s.mdb bp).dbRef = 0 then s.freehdr bp else s
        else if !freeHdr && decide (dp = bp) then s.incRef dp
        else s

/-- `lis_freeb`; the caller has no use for the block any more. -/
def lisFreeb (s : Mem) (bp : ℕ) : Mem :=
  { s.lisFreedb bp true with live := s.live.erase bp }

def lisFreemsg (s : Mem) (mp : List ℕ) : Mem := mp.foldl lisFreeb s

/-- The loop of `lis_dupmsg` (`msgutl.c:319-337`) with the blocks duplicated so
far; `hdr` is the outcome of `allochdr` for each. -/
def dupLoop (hdr : ℕ → Bool) : Mem → List ℕ → List ℕ → Mem × Option (List ℕ)
  | s, rtn, [] => (s,some rtn)
  | s, rtn, mp :: rest =>
      match s.lisDupb mp (hdr mp) with
      | (s,none) => (s.lisFreemsg rtn,none)
      | (s,some bp) => dupLoop hdr s (rtn ++ [bp]) rest

def lisDupmsg (s : Mem) (mp : List ℕ) (hdr : ℕ → Bool) : Mem × Option (List ℕ) :=
  dupLoop hdr s [] mp

def dbType (s : Mem) (bp : ℕ) : Uchar := (s.mdb bp).bDatap.elim 0 fun d => (s.mdb d).dbType
def setType (s : Mem) (bp : ℕ) (t : Uchar) : Mem :=
  (s.mdb bp).bDatap.elim s fun d => s.upd d fun b => { b with dbType := t }
def nbytes (s : Mem) (bp : ℕ) : ℤ := (s.mdb bp).bWptr - (s.mdb bp).bRptr
def setPtrs (s : Mem) (bp : ℕ) (r w : ℤ) : Mem := s.upd bp fun b => { b with bRptr := r, bWptr := w }

/-- `lis_xmsgsize` (`msgutl.c:163-177`): the bytes of the leading blocks of this type, added in an `int`. -/
def lisXmsgsize (s : Mem) (t : Uchar) (mp : List ℕ) : ℤ :=
  ((mp.takeWhile fun b => s.dbType b == t).map fun b => max 0 (s.nbytes b)).sum.bmod (2 ^ 32)

/-- What the loop of `lis_pullupmsg` copies from a block (`msgutl.c:427-435`), with the
bytes that are still to be copied. -/
def copyBlk (s : Mem) (newbp bp : ℕ) (length : ℤ) : Mem × ℤ :=
  if 0 < s.nbytes bp then
    let n := min (s.nbytes bp) length
    ((s.setPtrs bp ((s.mdb bp).bRptr + n) (s.mdb bp).bWptr).setPtrs newbp (s.mdb newbp).bRptr
      ((s.mdb newbp).bWptr + n),length - n)
  else (s,length)

/-- The copying loop of `lis_pullupmsg` (`msgutl.c:422-449`) at a block: the state
and the blocks that stay in the message. -/
def pullLoop (newbp : ℕ) : Bool → Mem → ℤ → List ℕ → Mem × List ℕ
  | _, s, _, [] => (s,[])
  | isFirst, s, length, bp :: rest =>
      if length ≤ 0 || s.dbType bp != s.dbType newbp then (s,bp :: rest)
      else
        let c := s.copyBlk newbp bp length
        if !isFirst && c.1.nbytes bp == 0 then pullLoop newbp false (c.1.lisFreeb bp) c.2 rest
        else
          let r := pullLoop newbp false c.1 c.2 rest
          (r.1,bp :: r.2)

/-- The end of `lis_pullupmsg` (`msgutl.c:474-480`): the data block of `newbp`
replaces that of `mp`, and `newbp` is no block of a caller any more. -/
def swap (s : Mem) (mp newbp : ℕ) : Mem :=
  let s := s.lisFreedb mp false
  let n := s.mdb newbp
  let s := s.upd mp fun b =>
    { b with bDatap := n.bDatap, bBuf := n.bBuf, bRptr := n.bRptr, bWptr := n.bWptr }
  { s.upd newbp fun b => { b with bDatap := none, bBuf := none } with live := s.live.erase newbp }

/-- The tests at the start of `lis_pullupmsg` (`msgutl.c:386-408`): its result, or the
number of bytes to pull up. `aligned` is the test of the address `b_rptr`. -/
def pullLength (s : Mem) (mp : ℕ) (rest : List ℕ) (length : ℤ) (aligned : Bool) : Except Bool ℤ :=
  if length < -1 then .error false
  else
    let nbytes := s.lisXmsgsize (s.dbType mp) (mp :: rest)
    let length := if length = -1 then nbytes else length
    if length = 0 then .error true
    else if length < 0 || nbytes < length then .error false
    else if length ≤ s.nbytes mp then if aligned then .error true else .ok (s.nbytes mp)
    else .ok length

/-- A size that `lis_allocb` puts outside the header (`msgutl.c:414-415`). -/
def pullSize (length : ℤ) : ℕ := if length ≤ FASTBUF then FASTBUF + 1 else length.toNat

/-- `lis_pullupmsg` (`msgutl.c:378-484`) of a message that starts with `mp`: its
result and the blocks of the message. -/
def lisPullupmsg (s : Mem) (mp : ℕ) (rest : List ℕ) (length : ℤ) (aligned hdr buf : Bool) :
    Mem × Bool × List ℕ :=
  match s.pullLength mp rest length aligned with
  | .error rtn => (s,rtn,mp :: rest)
  | .ok length =>
      match s.lisAllocb (pullSize length) hdr buf with
      | (s,none) => (s,false,mp :: rest)
      | (s,some newbp) =>
          let r := pullLoop newbp true (s.setType newbp (s.dbType mp)) length (mp :: rest)
          (r.1.swap mp newbp,true,r.2)

end Mem

end CSLiS.Buffer
