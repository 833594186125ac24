import CSLiS.Head.Strread

/-!
# Getting a message in parts (head/head.c, head/msgutl.c)

`lis_strgetpmsg` with `doit` set, for a stream head that has no error, is not linked and has a
message. `fault` tells which accesses to the user's memory fail. Sizes and offsets are those of C's
`int` as long as they are below 2^31.
-/

namespace CSLiS.Head
open Queue

/-! ### Sizes and trimming (msgutl.c) -/

/-- `lis_xmsgsize` (`msgutl.c:163-177`) -/
def lisXmsgsize : List Mblk → ℕ
  | [] => 0
  | mp :: bCont =>
      (((mp :: bCont).takeWhile fun b => b.dbType = mp.dbType).map fun b => b.lisMblksize.toNat).sum

/- The place of the first block of the last run of one type, and the size of that run
(`msgutl.c:98-121`). -/
def tmsgsizeLoop : Uchar → ℕ → ℤ → ℕ → List Mblk → ℕ × ℤ
  | _, first, rtn, _, [] => (first,rtn)
  | type, first, rtn, i, mp :: bCont =>
      if mp.dbType = type then tmsgsizeLoop type first (rtn + max 0 mp.lisMblksize) (i + 1) bCont
      else tmsgsizeLoop mp.dbType i mp.lisMblksize (i + 1) bCont

def tmsgsize : List Mblk → ℕ × ℤ
  | [] => (0,0)
  | mp :: bCont => tmsgsizeLoop mp.dbType 0 0 0 (mp :: bCont)

-- the end of the chain, a null pointer there, is reached only if pointers have crossed
def adjFront : ℕ → List Mblk → List Mblk
  | _, [] => []
  | length, bp :: bCont =>
      if length < bp.lisMblksize then bp.skip length :: bCont
      else if 0 ≤ bp.lisMblksize then
        let n := bp.lisMblksize.toNat
        bp.skip n :: if length = n then bCont else adjFront (length - n) bCont
      else bp :: adjFront length bCont

def Mblk.keep (b : Mblk) (n : ℕ) : Mblk :=
  { b with bWptr := min (b.bRptr + n) b.buf.length, lim := min_le_right .. }

def adjBack : ℤ → List Mblk → List Mblk
  | _, [] => []
  | length, mp :: bCont =>
      let n := mp.lisMblksize
      if length ≤ 0 then { mp with bRptr := mp.bWptr } :: adjBack length bCont
      else if 0 < n then (if length < n then mp.keep length.toNat else mp) :: adjBack (length - n) bCont
      else mp :: adjBack length bCont

/-- `lis_adjmsg` (`msgutl.c:189-241`) -/
def lisAdjmsg (mp : List Mblk) (length : ℤ) : List Mblk :=
  if 0 ≤ length then
    if lisXmsgsize mp < length then mp else adjFront length.toNat mp
  else
    let t := tmsgsize mp
    if length + t.2 < 0 then mp else mp.take t.1 ++ adjBack (length + t.2) (mp.drop t.1)

/-! ### Copying out (head.c) -/

/- An access to the user's memory: the arguments, the check of a buffer, a copy of a block to an
offset of a buffer, the `strbuf`, the flags and the band. -/
inductive Ucopy
  | args
  | check (isCtl : Bool)
  | block (isCtl : Bool) (off : ℤ)
  | strbuf (isCtl : Bool)
  | flags
  | band
  deriving DecidableEq, Repr

/- The arguments of a call. `ctl` and `dat` are `maxlen`, if the pointer to the `strbuf` is not null. -/
structure Call where
  ctl : Option ℤ
  dat : Option ℤ
  flags : ℤ
  band : Option ℤ
  fault : Ucopy → Bool

/- A part of the message. `mlen` is set when a block of it is found, and `gotsome` is set in the same
round. -/
structure Part where
  bytes : List Uchar
  left : List Mblk
  rtnlen : ℤ
  mlen : Option ℕ
  err : Bool
  deriving DecidableEq, Repr

def Part.len (r : Part) : ℤ := if r.mlen.isSome then r.rtnlen else -1
def Part.more (r : Part) : Bool := decide (r.rtnlen < r.mlen.getD 0) && r.mlen.isSome

def ofPart (isCtl : Bool) (m : Mblk) : Bool := if isCtl then m.dbType ≠ M_DATA else m.dbType = M_DATA

/-- The loop of `copyout_msgpart` (`head.c:1882-1921`), a round for each block. -/
def copyoutLoop (isCtl : Bool) (fault : Ucopy → Bool) : ℕ → ℤ → ℤ → Option ℕ → List Mblk → Part
  | 0, rtnlen, _, mlen, m => ⟨[],m,rtnlen,mlen,false⟩
  | _ + 1, rtnlen, _, mlen, [] => ⟨[],[],rtnlen,mlen,false⟩
  | n + 1, rtnlen, maxlen, mlen, m :: bCont =>
      if ofPart isCtl m then
        let mlen := mlen.getD (lisXmsgsize (m :: bCont))
        if maxlen < 0 then ⟨[],m :: bCont,rtnlen,some mlen,false⟩
        else
          let chunk := min maxlen m.lisMblksize
          if 0 < chunk ∧ fault (.block isCtl rtnlen) then ⟨[],m :: bCont,rtnlen,some mlen,true⟩
          else
            let bytes := m.data.take chunk.toNat
            let adj := lisAdjmsg (m :: bCont) chunk
            if maxlen - chunk ≤ 0 then ⟨bytes,adj,rtnlen + chunk,some mlen,false⟩
            else
              let r := copyoutLoop isCtl fault n (rtnlen + chunk) (maxlen - chunk) (some mlen) adj.tail
              { r with bytes := bytes ++ r.bytes, left := adj.take 1 ++ r.left }
      else if isCtl ∧ mlen.isSome then ⟨[],m :: bCont,rtnlen,mlen,false⟩
      else
        let r := copyoutLoop isCtl fault n rtnlen maxlen mlen bCont
        { r with left := m :: r.left }

/-- `copyout_msgpart` (`head.c:1855-1946`) for a message. -/
def copyoutMsgpart (isCtl : Bool) (fault : Ucopy → Bool) (sb : Option ℤ) (m : List Mblk) : Part :=
  if sb.isSome ∧ fault (.check isCtl) then ⟨[],m,0,none,true⟩
  else
    let r := copyoutLoop isCtl fault m.length 0 (sb.getD (-1)) none m
    if r.err then r
    else { r with err := sb.isSome && fault (.strbuf isCtl) }

/-! ### The system call -/

def MSG_HIPRI : ℤ := 0x01
def MSG_ANY : ℤ := 0x02
def MSG_BAND : ℤ := 0x04

/- `rtn` of a call that has no error is MORECTL and MOREDATA. -/
structure Answer where
  ctl : List Uchar
  dat : List Uchar
  ctlLen : ℤ
  datLen : ℤ
  moreCtl : Bool
  moreDat : Bool
  flags : ℤ
  band : Uchar
  err : Option Errno
  deriving DecidableEq, Repr

def Answer.error (e : Errno) : Answer := ⟨[],[],-1,-1,false,false,0,0,some e⟩

/- Whether a message is one of those that the flags and the band ask for (`head.c:6420-6468`). -/
def Call.selects (c : Call) (mp : Mesg) : Except Errno ℤ :=
  if lisHipri mp.dbType then .ok MSG_HIPRI
  else if c.flags = MSG_HIPRI then .error .ebadmsg
  else if c.flags = MSG_BAND then
    match c.band with
    | none => .error .einval
    | some band => if mp.blk.bBand < Fin.ofNat 256 (band % 256).toNat then .error .ebadmsg else .ok MSG_BAND
  else if c.flags = MSG_ANY then
    if c.band.isNone then .error .einval else .ok MSG_BAND
  else if c.flags ≠ 0 ∨ c.band.isSome then .error .einval
  else .ok 0

/- The flags that are given back: getmsg has other ones than getpmsg, and `RS_HIPRI` is `MSG_HIPRI`. -/
def Call.flagsBack (c : Call) (flags : ℤ) : ℤ :=
  if c.band.isNone then (if flags = MSG_HIPRI then MSG_HIPRI else 0) else flags

/-- `lis_strgetpmsg` (`head.c:6194-6640`). There is no message for `none`: the call waits, or returns
without one. -/
def lisStrgetpmsg (hd : Rdq) (c : Call) : Option (Rdq × Answer) :=
  if c.fault .args then some (hd,.error .efault)
  else
    match hd.msgs with
    | [] => none
    | mp :: l =>
        if mp.dbType = M_PASSFP then some ({ hd with msgs := l }.lisCheckMSig.lisCheckMSig,.error .ebadmsg)
        else if mp.dbType ∉ [M_DATA,M_PROTO,M_PCPROTO,M_SIG] then some (hd.lisCheckMSig,.error .ebadmsg)
        else
          let hd := if lisHipri mp.dbType then { hd with strpri := false } else hd
          match c.selects mp with
          | .error e => some (hd.lisCheckMSig,.error e)
          | .ok flags =>
              let hd := { hd with msgs := l }
              if mp.dbType = M_SIG then some ((hd.lisRequeue mp).lisCheckMSig.lisCheckMSig,.error .eagain)
              else
                let kctl := copyoutMsgpart true c.fault c.ctl mp.blocks
                if kctl.err then some (hd.lisCheckMSig,.error .efault)
                else
                  let kdat := copyoutMsgpart false c.fault c.dat kctl.left
                  if kdat.err then some (hd.lisCheckMSig,.error .efault)
                  else
                    let hd := if kctl.more || kdat.more then hd.requeueLeft kdat.left else hd
                    if c.fault .flags ∨ (c.band.isSome ∧ c.fault .band) then some (hd.lisCheckMSig,.error .efault)
                    else some (hd.lisCheckMSig,⟨kctl.bytes,kdat.bytes,kctl.len,kdat.len,kctl.more,kdat.more,
                      c.flagsBack flags,if lisHipri mp.dbType then 0 else mp.blk.bBand,none⟩)

/- One call after the other. -/
def answers (hd : Rdq) : List Call → Option (Rdq × List Answer)
  | [] => some (hd,[])
  | c :: cs => (lisStrgetpmsg hd c).bind fun r => (answers r.1 cs).map fun t => (t.1,r.2 :: t.2)

end CSLiS.Head
