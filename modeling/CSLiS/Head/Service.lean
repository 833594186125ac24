import CSLiS.Head.Rput
import CSLiS.Head.ReadOrder

/-!
# What arrives at the stream head, as its readers see it (head/head.c, head/queue.c)

The stream is open. The counters of the queue are left out, as are wakeups, signals, answers to an
ioctl and what is sent downstream. A band has its water marks for as long as it has messages:
`find_qband` gives those of the queue to the band of the first one.
-/

namespace CSLiS.Head
open Queue

/-! ### Options -/

structure StroptionsT where
  soFlags : BitVec 32
  soWroff : BitVec 16
  soMinpsz : ℤ
  soMaxpsz : ℤ
  soHiwat : Ulong
  soLowat : Ulong
  soBand : Uchar

def SO_READOPT : BitVec 32 := 0x0001
def SO_WROFF : BitVec 32 := 0x0002
def SO_MINPSZ : BitVec 32 := 0x0004
def SO_MAXPSZ : BitVec 32 := 0x0008
def SO_HIWAT : BitVec 32 := 0x0010
def SO_LOWAT : BitVec 32 := 0x0020
def SO_MREADON : BitVec 32 := 0x0040
def SO_MREADOFF : BitVec 32 := 0x0080
def SO_NDELON : BitVec 32 := 0x0100
def SO_NDELOFF : BitVec 32 := 0x0200
def SO_ISTTY : BitVec 32 := 0x0400
def SO_ISNTTY : BitVec 32 := 0x0800
def SO_TOSTOP : BitVec 32 := 0x1000
def SO_TONSTOP : BitVec 32 := 0x2000
def SO_BAND : BitVec 32 := 0x4000
def SO_DELIM : BitVec 32 := 0x8000
def SO_NODELIM : BitVec 32 := 0x010000
def SO_STRHOLD : BitVec 32 := 0x020000

def RMODEMASK : BitVec 32 := 0x0003
def RPROTDAT : BitVec 32 := 0x0004
def RPROTDIS : BitVec 32 := 0x0008
def RPROTNORM : BitVec 32 := 0x0010
def RPROTMASK : BitVec 32 := 0x001c

def StroptionsT.has (so : StroptionsT) (f : BitVec 32) : Bool := so.soFlags &&& f != 0

/- What `set_options` writes. -/
structure Sopts where
  sndmread : Bool
  oldndelay : Bool
  stristty : Bool
  strtostop : Bool
  strhold : Bool
  strdelim : Bool
  sdRdopt : BitVec 32
  sdWroff : BitVec 16
  qMinpsz : ℤ
  qMaxpsz : ℤ
  qHiwat : Ulong
  qLowat : Ulong
  marks : Uchar → Ulong × Ulong

/-- `set_readopt` (`head.c:1349-1381`) -/
def setReadopt (flags rmode : BitVec 32) : BitVec 32 :=
  let prot := rmode &&& RPROTMASK
  let set := (flags &&& ~~~RMODEMASK) ||| (rmode &&& RMODEMASK)
  if rmode &&& RMODEMASK = RMODEMASK then flags
  else if prot = RPROTNORM ∨ prot = RPROTDAT ∨ prot = RPROTDIS then (set &&& ~~~RPROTMASK) ||| prot
  else if prot = 0 then set
  else flags

/- A flag with one bit to set it and one to clear it, which comes second. -/
def StroptionsT.turn (so : StroptionsT) (on off : BitVec 32) (b : Bool) : Bool := (so.has on || b) && !so.has off

/-- `set_options` (`head.c:2600-2645`). `held` are the bands that have messages. -/
def Sopts.setOptions (o : Sopts) (held : Uchar → Bool) (so : StroptionsT) : Sopts :=
  let band := so.soBand
  let o := { o with
    sndmread := so.turn SO_MREADON SO_MREADOFF o.sndmread
    oldndelay := so.turn SO_NDELON SO_NDELOFF o.oldndelay
    stristty := so.turn SO_ISTTY SO_ISNTTY o.stristty
    strtostop := so.turn SO_TOSTOP SO_TONSTOP o.strtostop
    strhold := so.has SO_STRHOLD || o.strhold
    strdelim := so.turn SO_DELIM SO_NODELIM o.strdelim
    sdRdopt := if so.has SO_READOPT then setReadopt o.sdRdopt so.soFlags else o.sdRdopt
    sdWroff := if so.has SO_WROFF then so.soWroff else o.sdWroff
    qMinpsz := if so.has SO_MINPSZ then so.soMinpsz else o.qMinpsz
    qMaxpsz := if so.has SO_MAXPSZ then so.soMaxpsz else o.qMaxpsz }
  if so.has SO_BAND ∧ band ≠ 0 then
    if held band then
      { o with marks := Function.update o.marks band (if so.has SO_HIWAT then so.soHiwat else (o.marks band).1,
          if so.has SO_LOWAT then so.soLowat else (o.marks band).2) }
    else o
  else
    { o with
      qHiwat := if so.has SO_HIWAT then so.soHiwat else o.qHiwat
      qLowat := if so.has SO_LOWAT then so.soLowat else o.qLowat }

/-! ### Messages -/

namespace Mesg

variable (mp : Mesg)

def toMsg : Msg := { mp.toMbody with addr := 0 }

/- The band that an M_FLUSH is for: all of them, or one (`head.c:2946-2949`). -/
def flushBand : ℤ := if flushband (flushByte mp.toMsg) then (mp.blk.data.tail.head?.getD 0).val else -1

def isPcproto : Bool := mp.dbType == M_PCPROTO
def types : List Uchar := mp.blocks.map Mblk.dbType

end Mesg

def inBand (l : List Mesg) (b : Uchar) : Bool := l.any fun mp => mp.info.inBand b

/-! ### The stream head -/

structure Shead where
  rput : List Mesg
  rd : Rdq
  qreading : Bool
  strhup : Bool
  err : Errors
  opts : Sopts

namespace Shead

variable (so : Mesg → StroptionsT) (hd : Shead) (mp : Mesg)

/- `lis_putq` of the read queue. -/
def putq : Shead :=
  { hd with
    rd := { hd.rd with msgs := lisPutq hd.rd.msgs mp }
    opts := { hd.opts with
      marks := if !mp.info.inQCount && !inBand hd.rd.msgs mp.blk.bBand then
          Function.update hd.opts.marks mp.blk.bBand (hd.opts.qHiwat,hd.opts.qLowat)
        else hd.opts.marks } }

/- `flush_worker` with FLUSHDATA: what is not flushed is put on the queue again. -/
def flushRd (band : ℤ) : Shead :=
  hd.rd.msgs.foldl (fun hd mp => if flushes band false mp.info then hd else hd.putq mp)
    { hd with rd := { hd.rd with msgs := [] } }

/-- `lis_head_flush` (`head.c:2890-2985`); `none` when the flush is deferred. -/
def lisHeadFlush (flushRputq : Bool) : Option Shead :=
  if hd.qreading then none
  else if flushr (flushByte mp.toMsg) then
    let hd := if flushRputq then { hd with rput := [] } else hd
    let hd := hd.flushRd mp.flushBand
    some { hd with rd := { hd.rd with strpri := hd.rd.strpri && hd.rd.msgs.head?.any fun x => x.info.hipri } }
  else some hd

def putRput : Shead := { hd with rput := hd.rput ++ [mp] }

/-- `lis_strrput` (`head.c:3392-3487`) -/
def lisStrrput : Shead :=
  if mp.dbType = M_PCPROTO then
    if hd.rd.strpri then hd else { hd with rd := { hd.rd with strpri := true } }.putRput mp
  else if mp.dbType = M_FLUSH then (hd.lisHeadFlush mp true).getD (hd.putRput mp)
  else if answersIoctl mp.dbType then hd
  else hd.putRput mp

/-- `lis_process_rput` (`head.c:3059-3321`) -/
def lisProcessRput : Shead :=
  if mp.dbType = M_DATA ∨ mp.dbType = M_PCPROTO ∨ mp.dbType = M_PROTO ∨ mp.dbType = M_PASSFP then hd.putq mp
  else if mp.dbType = M_SIG then
    let hd := hd.putq mp
    { hd with rd := hd.rd.lisCheckMSig }
  else if mp.dbType = M_ERROR then
    { hd with err := lisStreamError hd.err (errorCodes mp.toMsg).1.val (errorCodes mp.toMsg).2.val }
  else if mp.dbType = M_HANGUP then { hd with strhup := true }
  else if mp.dbType = M_FLUSH then (hd.lisHeadFlush mp false).getD hd
  else if mp.dbType = M_SETOPTS then { hd with opts := hd.opts.setOptions (inBand hd.rd.msgs) (so mp) }
  else hd

/- A round of the loop of `lis_strrsrv` (`head.c:3358-3362`). -/
def rsrvRound : Shead :=
  match hd.rput with
  | [] => hd
  | mp :: l => { hd with rput := l }.lisProcessRput so mp

end Shead

/-! ### The read queue -/

variable {so : Mesg → StroptionsT} {hd : Shead} {mp x : Mesg} {l m ms : List Mesg} {band : ℤ}

theorem cleared_types : mp.cleared.types = mp.types := by
  unfold Mesg.cleared
  split_ifs <;> rfl

theorem dbType_of_types (h : x.types = mp.types) : x.dbType = mp.dbType := (List.cons.inj h).1

theorem cleared_rank : mp.cleared.info.rank = mp.info.rank := by
  have ht : mp.cleared.info.hipri = mp.info.hipri := congrArg lisHipri (dbType_of_types cleared_types)
  cases hh : mp.info.hipri with
  | true => rw [rank_hipri hh,rank_hipri (ht.trans hh)]
  | false => rw [Mesg.cleared,if_neg (by rw [show lisHipri mp.dbType = false from hh]; exact Bool.false_ne_true)]

/- A message that is put on a queue may have lost its band. -/
structure Mesg.Put (mp x : Mesg) : Prop where
  types : x.types = mp.types
  rank : x.info.rank = mp.info.rank

theorem put_entry (l : List Mesg) (mp : Mesg) : mp.Put (if l.isEmpty then mp else mp.cleared) := by
  split_ifs
  · exact ⟨rfl,rfl⟩
  · exact ⟨cleared_types,cleared_rank⟩

theorem lisPutq_spec (l : List Mesg) (mp : Mesg) : ∃ k m x, k ++ m = l ∧ lisPutq l mp = k ++ x :: m ∧ mp.Put x ∧
    (Ordered Mesg.info l → Ordered Mesg.info (lisPutq l mp)) := by
  refine ⟨_,_,_,tailSplit_append (v := Mesg.info) (i := mp.info),rfl,put_entry l mp,fun ho => ?_⟩
  obtain ⟨hk,hm⟩ := tailSplit_spec (v := Mesg.info) (i := mp.info) ho
  rw [← (put_entry l mp).rank] at hk hm
  exact Ordered.insert (tailSplit_append (v := Mesg.info) (i := mp.info) ▸ ho) hk hm

theorem lisPutbq_spec (l : List Mesg) (mp : Mesg) : ∃ k m x, k ++ m = l ∧ Rdq.lisPutbq l mp = k ++ x :: m ∧ mp.Put x ∧
    (Ordered Mesg.info l → Ordered Mesg.info (Rdq.lisPutbq l mp)) := by
  refine ⟨_,_,_,headSplit_append (v := Mesg.info) (i := mp.info),rfl,put_entry l mp,fun ho => ?_⟩
  obtain ⟨hk,hm⟩ := headSplit_spec (v := Mesg.info) (i := mp.info) ho
  rw [← (put_entry l mp).rank] at hk hm
  exact Ordered.insert (headSplit_append (v := Mesg.info) (i := mp.info) ▸ ho) hk hm

theorem flushRd_eq (hd : Shead) (band : ℤ) : ∃ o, hd.flushRd band = { hd with
    rd := { hd.rd with msgs := arrive (hd.rd.msgs.filter fun mp => !flushes band false mp.info) }, opts := o } := by
  have h : ∀ (ms : List Mesg) (hd : Shead), ∃ o,
      ms.foldl (fun hd mp => if flushes band false mp.info then hd else hd.putq mp) hd = { hd with
        rd := { hd.rd with msgs := (ms.filter fun mp => !flushes band false mp.info).foldl lisPutq hd.rd.msgs }
        opts := o } := by
    intro ms
    induction ms with
    | nil => exact fun hd => ⟨hd.opts,rfl⟩
    | cons mp ms ih =>
      intro hd
      rw [List.foldl_cons]
      cases hf : flushes band false mp.info with
      | true =>
        obtain ⟨o,ho⟩ := ih hd
        refine ⟨o,?_⟩
        rw [if_pos rfl,ho]
        simp [hf]
      | false =>
        obtain ⟨o,ho⟩ := ih (hd.putq mp)
        refine ⟨o,?_⟩
        rw [if_neg Bool.false_ne_true,ho]
        simp [hf,Shead.putq]
  exact h _ _

end CSLiS.Head
