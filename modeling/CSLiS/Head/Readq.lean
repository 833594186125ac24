import CSLiS.Queue.Spot

/-!
# The read queue as its readers see it (head/head.c, head/queue.c, head/msgutl.c)

A block has the buffer from `db_base` to `db_lim` and the two pointers into it as offsets.
Sizes are those of C's `int` as long as they are below 2^31. The stream is open, so `lis_getq` and
`lis_putbq` do not refuse; the counters of the queue do not tell where a message goes and are left out.
-/

namespace CSLiS.Head
open Queue

structure Mblk where
  bBand : Uchar
  msgmark : Bool
  dbType : Uchar
  buf : List Uchar
  bRptr : ℕ
  bWptr : ℕ
  lim : bWptr ≤ buf.length
  deriving DecidableEq, Repr

namespace Mblk

variable {b : Mblk} {n : ℕ}

/-- `lis_mblksize` (`msgutl.h:110`), negative if the pointers have crossed. -/
def lisMblksize (b : Mblk) : ℤ := b.bWptr - b.bRptr

def data (b : Mblk) : List Uchar := (b.buf.take b.bWptr).drop b.bRptr

/- `b_rptr += n` -/
def skip (b : Mblk) (n : ℕ) : Mblk := { b with bRptr := b.bRptr + n }

theorem data_length (b : Mblk) : b.data.length = b.lisMblksize.toNat := by
  have := b.lim
  simp only [data,lisMblksize,List.length_drop,List.length_take]
  omega

theorem data_skip (b : Mblk) (n : ℕ) : (b.skip n).data = b.data.drop n := by
  simp only [data,skip,List.drop_drop]

theorem take_skip (b : Mblk) (n : ℕ) : b.data.take n ++ (b.skip n).data = b.data := by
  rw [data_skip,List.take_append_drop]

theorem data_nil (h : b.lisMblksize ≤ 0) : b.data = [] :=
  List.eq_nil_of_length_eq_zero (by rw [data_length]; omega)

end Mblk

structure Mesg where
  blk : Mblk
  bCont : List Mblk
  deriving DecidableEq, Repr

namespace Mesg

def blocks (mp : Mesg) : List Mblk := mp.blk :: mp.bCont
def dbType (mp : Mesg) : Uchar := mp.blk.dbType

/- What the queue routines know of it. MSGNOLOOP is a matter of M_FLUSH only. -/
def toMbody (mp : Mesg) : Mbody :=
  ⟨mp.blk.bBand,false,⟨mp.blk.dbType,mp.blk.buf.length,mp.blk.data⟩,
    mp.bCont.map fun b => ⟨b.dbType,b.buf.length,b.data⟩⟩

def info (mp : Mesg) : Info := mp.toMbody.info

/- `b_band` of a high-priority message is cleared when it is put on a queue that has messages. -/
def cleared (mp : Mesg) : Mesg := if lisHipri mp.dbType then { mp with blk := { mp.blk with bBand := 0 } } else mp

end Mesg

/- `sd_rq` and the STRPRI flag -/
structure Rdq where
  msgs : List Mesg
  strpri : Bool
  deriving DecidableEq, Repr

namespace Rdq

/-- `lis_putbq` (`queue.c:997-1020`) of an open queue. -/
def lisPutbq (l : List Mesg) (mp : Mesg) : List Mesg :=
  let s := headSplit Mesg.info l mp.info
  s.1 ++ (if l.isEmpty then mp else mp.cleared) :: s.2

/-- `lis_requeue` (`head.c:5551-5588`) -/
def lisRequeue (hd : Rdq) (mp : Mesg) : Rdq :=
  if mp.dbType = M_PCPROTO then
    match hd.msgs with
    | [] => ⟨lisPutbq [] mp,true⟩
    | hdmp :: l => ⟨lisPutbq (if hdmp.dbType = M_PCPROTO then l else hd.msgs) mp,true⟩
  else { hd with msgs := lisPutbq hd.msgs mp }

/- What is left of a message is put back, if any. -/
def requeueLeft (hd : Rdq) : List Mblk → Rdq
  | [] => hd
  | b :: bs => hd.lisRequeue ⟨b,bs⟩

/-- `lis_check_m_sig` (`head.c:5522-5538`); who is signalled is not modelled. -/
def lisCheckMSig (hd : Rdq) : Rdq :=
  match hd.msgs with
  | [] => hd
  | hdmp :: l => if hdmp.dbType = M_SIG then { hd with msgs := l } else hd

theorem checkMSig_cases (hd : Rdq) : hd.lisCheckMSig = hd ∨
    ∃ mp l, hd.msgs = mp :: l ∧ mp.dbType = M_SIG ∧ hd.lisCheckMSig = { hd with msgs := l } := by
  unfold lisCheckMSig
  cases hl : hd.msgs with
  | nil => exact .inl rfl
  | cons mp l =>
    simp only
    split_ifs with hs
    · exact .inr ⟨mp,l,rfl,hs,rfl⟩
    · exact .inl rfl

/- A message is put back in front if none behind has a higher rank. -/
theorem lisPutbq_top {mp : Mesg} {l : List Mesg} (h : ∀ x ∈ l, x.info.rank ≤ mp.info.rank) :
    lisPutbq l mp = (if l.isEmpty then mp else mp.cleared) :: l := by
  cases l with
  | nil => rfl
  | cons x l =>
    have hx := h x (List.mem_cons_self ..)
    cases hh : mp.info.hipri with
    | true => simp [lisPutbq,headSplit,hh]
    | false =>
      have hlo : x.info.hipri = false := by
        by_contra hn
        rw [rank_hipri (by simpa using hn),rank_ordinary hh] at hx
        exact absurd mp.info.bBand.isLt (by omega)
      have hband : x.info.bBand ≤ mp.info.bBand := by
        rwa [rank_ordinary hh,rank_ordinary hlo,Fin.val_fin_le] at hx
      simp [lisPutbq,headSplit,hh,hlo,hband]

end Rdq

end CSLiS.Head
