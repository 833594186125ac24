import CSLiS.Buffer.Pullup

/-!
# Copies of messages (head/msgutl.c)

`lis_copymsg` copies a message block by block, and `lis_msgpullup` copies its first bytes into one block and the rest
behind it. What they allocate is left over by no failure.
-/

namespace CSLiS.Buffer
open Queue

/- The allocations: of the first block, of the one for what is left of a block that is split, and of copies. -/
inductive Place
  | first
  | left
  | copy (mp : ℕ)

namespace Store

/- `memcpy(bp->b_wptr, mp->b_rptr + off, n)`, with `b_wptr += n` -/
def append (s : Store) (bp mp : ℕ) (off n : ℤ) : Store :=
  match (s.mem.mdb bp).bBuf,(s.mem.mdb mp).bBuf with
  | some d, some b =>
      let w := (s.mem.mdb bp).bWptr
      let r := (s.mem.mdb mp).bRptr + off
      ⟨s.mem.setPtrs bp (s.mem.mdb bp).bRptr (w + n),
        Function.update s.byte d fun k => if w ≤ k ∧ k < w + n then s.byte b (r + (k - w)) else s.byte d k⟩
  | _, _ => s

/- `db_lim - db_base`, which `lis_allocb` and `lis_esballoc` got as an `int` -/
def msgsize (s : Store) (mp : ℕ) : ℕ := (s.mem.mdb mp).bDatap.elim 0 fun d => (s.mem.mdb d).dbSize

/-- `lis_copyb` (`msgutl.c:247-267`) -/
def lisCopyb (s : Store) (mp : ℕ) (hdr buf : Bool) : Store × Option ℕ :=
  if s.mem.nbytes mp < 0 then (s,none)
  else
    match s.mem.lisAllocb (s.msgsize mp) hdr buf with
    | (m,none) => ({ s with mem := m },none)
    | (m,some bp) =>
        let r := (m.mdb mp).bRptr
        let s := ({ s with mem := m.setPtrs bp r r } : Store).append bp mp 0 (m.nbytes mp)
        ({ s with mem := s.mem.setType bp (s.mem.dbType mp) },some bp)

/- The loop of `lis_copymsg`, with the blocks copied so far. -/
def copymsgLoop (hdr buf : ℕ → Bool) : Store → List ℕ → List ℕ → Store × Option (List ℕ)
  | s, rtn, [] => (s,some rtn)
  | s, rtn, mp :: rest =>
      match s.lisCopyb mp (hdr mp) (buf mp) with
      | (s,none) => ({ s with mem := s.mem.lisFreemsg rtn },none)
      | (s,some bp) => copymsgLoop hdr buf s (rtn ++ [bp]) rest

/-- `lis_copymsg` (`msgutl.c:270-289`) -/
def lisCopymsg (s : Store) (mp : List ℕ) (hdr buf : ℕ → Bool) : Store × Option (List ℕ) :=
  copymsgLoop hdr buf s [] mp

/-- The loop of `lis_msgpullup` (`msgutl.c:532-562`) at a block: what is left to be copied, the blocks of the new message
and the blocks behind what was copied. `hdr` and `buf` are the outcomes of the allocation for a block that is split. -/
def msgpullupLoop (newMp : ℕ) (msgType : Uchar) (hdr buf : Bool) :
    Store → ℤ → List ℕ → List ℕ → Store × Option (ℤ × List ℕ × List ℕ)
  | s, len, l, [] => (s,some (len,l,[]))
  | s, len, l, mp :: rest =>
      if len ≤ 0 || s.mem.dbType mp != msgType then (s,some (len,l,mp :: rest))
      else
        let nbytes := s.mem.nbytes mp
        if nbytes ≤ 0 then msgpullupLoop newMp msgType hdr buf s len l rest
        else
          let cpbytes := min nbytes len
          let s := s.append newMp mp 0 cpbytes
          if cpbytes = len && cpbytes < nbytes then
            match s.mem.lisAllocb (nbytes - cpbytes).toNat hdr buf with
            | (m,none) => ({ s with mem := m.lisFreemsg l },none)
            | (m,some bp) =>
                let s := ({ s with mem := m.setType bp msgType } : Store).append bp mp cpbytes (nbytes - cpbytes)
                msgpullupLoop newMp msgType hdr buf s (len - nbytes) [newMp,bp] rest
          else msgpullupLoop newMp msgType hdr buf s (len - nbytes) l rest

/-- `lis_msgpullup` (`msgutl.c:501-587`) -/
def lisMsgpullup (s : Store) (mp : ℕ) (rest : List ℕ) (len : ℤ) (hdr buf : Place → Bool) : Store × Option (List ℕ) :=
  let msgType := s.mem.dbType mp
  let len := if len < 0 then s.mem.lisXmsgsize msgType (mp :: rest) else len
  match s.mem.lisAllocb len.toNat (hdr .first) (buf .first) with
  | (m,none) => ({ s with mem := m },none)
  | (m,some newMp) =>
      match msgpullupLoop newMp msgType (hdr .left) (buf .left) { s with mem := m.setType newMp msgType } len [newMp]
        (mp :: rest) with
      | (s,none) => (s,none)
      | (s,some (len,l,mp)) =>
          if 0 < len then ({ s with mem := s.mem.lisFreemsg l },none)
          else
            match mp with
            | [] => (s,some l)
            | mp :: rest =>
                match s.lisCopymsg (mp :: rest) (fun b => hdr (.copy b)) fun b => buf (.copy b) with
                | (s,none) => ({ s with mem := s.mem.lisFreemsg l },none)
                | (s,some c) => (s,some (l ++ c))

end Store

end CSLiS.Buffer
