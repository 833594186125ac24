import CSLiS.Head.Service
import CSLiS.Head.Getpmsg
import CSLiS.Lib.Exec

/-!
# The one M_PCPROTO of a stream head (head/head.c)

`lis_strrput`, the rounds of `lis_strrsrv` and `lis_strgetpmsg` run with the read queue locked, and one
reader is let in at a time. `lis_strread` locks the queue to take a message off it. It clears STRPRI and
puts a message back without the lock, and each access of that part is a step of its own.
-/

namespace CSLiS.Head
open Queue

/- Where `lis_strread` is. -/
inductive Rphase
  | idle
  | between
  | taken (mp : Mesg)     -- to clear STRPRI if it is M_PCPROTO
  | holds (mp : Mesg)
  | requeue (mp : Mesg)   -- to set STRPRI
  | pri (mp : Mesg)       -- to set QREADING
  | reading (mp : Mesg)   -- to look at the head of the queue
  | checked (mp : Mesg)   -- to clear QREADING
  | putting (mp : Mesg)
  deriving DecidableEq, Repr

structure PriHead where
  hd : Shead
  reader : Rphase

inductive PriAct
  | rput (mp : Mesg)
  | rsrv
  | getpmsg (c : Call)
  | peek
  | read
  | run                   -- the next step of lis_strread
  | use (opt : Rdopt) (fault : ℕ → Bool) (off room : ℕ)

/- A message of the blocks that are left of one. -/
def ofBlocks : List Mblk → Option Mesg
  | [] => none
  | b :: bs => some ⟨b,bs⟩

/-- What `lis_strread` puts back of a message (`head.c:5757-5921`). -/
def putsBack (opt : Rdopt) (fault : ℕ → Bool) (off room : ℕ) (mp : Mesg) : Option Mesg :=
  if mp.dbType = M_DATA then
    let r := readBlocks fault off room mp.blocks
    if r.err = false ∧ opt.mode = .rmsgd then none else ofBlocks r.left
  else if mp.dbType = M_PCPROTO ∨ mp.dbType = M_PROTO then
    if opt.rprotnorm then (if opt.rprotdis then none else some mp)
    else if opt.rprotdat then some { mp with blk := { mp.blk with dbType := M_DATA } }
    else if opt.rprotdis then ofBlocks mp.bCont
    else none
  else if mp.dbType = M_SIG then some mp
  else none

/-- `lis_strgetpmsg` without `doit`, which is I_PEEK: the message stays (`head.c:6388-6562`). -/
def peek (hd : Rdq) : Rdq :=
  match hd.msgs with
  | [] => hd
  | mp :: l =>
      if mp.dbType = M_PASSFP then { hd with msgs := l }.lisCheckMSig.lisCheckMSig
      else if mp.dbType = M_SIG then hd.lisCheckMSig.lisCheckMSig
      else hd.lisCheckMSig

namespace PriHead

variable (s : PriHead)

def setRd (rd : Rdq) : PriHead := { s with hd := { s.hd with rd := rd } }

/- The next step of `lis_strread` after it has taken a message (`head.c:5831`, `head.c:5551-5588`). -/
def run : Option PriHead :=
  match s.reader with
  | .idle => none
  | .between => some { s with reader := .idle }
  | .taken mp =>
      some { (if mp.dbType = M_PCPROTO then s.setRd { s.hd.rd with strpri := false } else s) with reader := .holds mp }
  | .holds _ => none
  | .requeue mp =>
      if mp.dbType = M_PCPROTO then some { s.setRd { s.hd.rd with strpri := true } with reader := .pri mp }
      else some { s with reader := .putting mp }
  | .pri mp => some ⟨{ s.hd with qreading := true },.reading mp⟩
  | .reading mp =>
      match s.hd.rd.msgs with
      | [] => some { s with reader := .checked mp }
      | hdmp :: l =>
          some { s.setRd { s.hd.rd with msgs := if hdmp.dbType = M_PCPROTO then l else hdmp :: l } with
            reader := .checked mp }
  | .checked mp => some ⟨{ s.hd with qreading := false },.putting mp⟩
  | .putting mp =>
      let rd := { s.hd.rd with msgs := Rdq.lisPutbq s.hd.rd.msgs mp }
      some { s.setRd (if mp.dbType = M_SIG then rd.lisCheckMSig else rd) with reader := .between }

def step (so : Mesg → StroptionsT) (s : PriHead) : PriAct → Option PriHead
  | .rput mp => some { s with hd := s.hd.lisStrrput mp }
  | .rsrv => some { s with hd := s.hd.rsrvRound so }
  | .getpmsg c => if s.reader = .idle then (lisStrgetpmsg s.hd.rd c).map fun r => s.setRd r.1 else none
  | .peek => if s.reader = .idle then some (s.setRd (peek s.hd.rd)) else none
  | .read =>
      if s.reader = .idle ∨ s.reader = .between then
        match s.hd.rd.msgs with
        | [] => none
        | mp :: l => some { s.setRd { s.hd.rd with msgs := l }.lisCheckMSig with reader := .taken mp }
      else none
  | .run => s.run
  | .use opt fault off room =>
      match s.reader with
      | .holds mp =>
          some { s with reader := match putsBack opt fault off room mp with
            | some m => .requeue m
            | none => .between }
      | _ => none

def init (err : Errors) (opts : Sopts) : PriHead := ⟨⟨[],⟨[],false⟩,false,false,err,opts⟩,.idle⟩

/- The M_PCPROTO messages on `sd_rput` and `sd_rq`. -/
def held : ℕ := s.hd.rput.countP Mesg.isPcproto + s.hd.rd.msgs.countP Mesg.isPcproto

end PriHead

end CSLiS.Head
