import CSLiS.Write.Packets

/-!
# The blocks of messages that are sent (head/head.c)

The blocks that `lis_strputpmsg` and `lis_strdoioctl` allocate are numbered. A ledger has those that were freed
and those that were passed downstream, in order. The contents of the blocks, but for type and band of the first
one, are left out.
-/

namespace CSLiS.Write
open Lib.Exec Queue

def EIO : ℤ := 5
def ERANGE : ℤ := 34
def LIS_MAX_BAND : ℤ := 255
def INFPSZ : ℤ := -1
def TRANSPARENT : ℤ := -1
def MSG_HIPRI : BitVec 32 := 0x01
def MSG_BAND : BitVec 32 := 0x04
def RS_HIPRI : BitVec 32 := 0x01

structure Ledger where
  next : ℕ
  freed : List ℕ
  passed : List ℕ
  deriving DecidableEq, Repr

structure Smsg where
  btype : Uchar
  bband : Uchar
  blocks : List ℕ
  deriving DecidableEq, Repr

/- `q_minpsz` and `q_maxpsz` of the queue below, unless there is none. -/
abbrev Below := Option (ℤ × ℤ)

/- A `strbuf` of the user (`buf` is not NULL), and what the steps of `copyin_msgpart` find: the check and the
copy of the `strbuf` itself, STRHUP or STRCLOSE, memory, the check and the copy of the data. -/
structure Part where
  umem : ℤ
  copyin : ℤ
  len : ℤ
  buf : Bool
  hup : Bool
  mem : Bool
  umemBuf : ℤ
  copyinBuf : ℤ
  deriving DecidableEq, Repr

/- A pass through the loop that waits for flow control. -/
inductive Turn
  | stwrerr (sdWerror : ℤ)
  | hup
  | nolock (err : ℤ)
  | notblock
  | interrupted (err : ℤ)
  | waited
  | couldput
  deriving DecidableEq, Repr

structure Putreq where
  stplex : Bool
  fifo : ℤ
  below : Below
  ctl : Option Part
  dat : Option Part
  band : ℤ
  flags : BitVec 32
  turns : List Turn
  deriving DecidableEq, Repr

/- `str32` is I_STR32 on the kernels for which the source has a branch of its own. -/
structure Ioreq where
  icLen : ℤ
  icTimout : ℤ
  doCopyin : Bool
  str32 : Bool
  mioc : Bool
  umem : ℤ
  mdta : Bool
  copyin : ℤ
  deriving DecidableEq, Repr

inductive Sendreq
  | putmsg (c : Putreq)
  | ioctl (c : Ioreq)
  deriving DecidableEq, Repr

namespace Ledger

variable (s : Ledger)

def init : Ledger := ⟨0,[],[]⟩

def allocb (mem : Bool) : Option ℕ × Ledger := if mem then (some s.next,{ s with next := s.next + 1 }) else (none,s)

/- `lis_freemsg`, and `lis_freeb` where the pointer may be NULL. -/
def lisFreemsg (l : List ℕ) : Ledger := { s with freed := s.freed ++ l }

def lisPutnext (m : Smsg) : Ledger := { s with passed := s.passed ++ m.blocks }

end Ledger

/- A length the queue below does not take. -/
def outOfRange (below : Below) (len : ℤ) : Prop :=
  ∃ q ∈ below, len < int q.1 ∨ (q.2 ≠ INFPSZ ∧ int q.2 < len)

instance (below : Below) (len : ℤ) : Decidable (outOfRange below len) := inferInstanceAs (Decidable (∃ q ∈ below, _))

/-- `copyin_msgpart` (`head.c:1736-1785`). The block is returned with an error, too. -/
def copyinMsgpart (s : Ledger) (below : Below) (p : Part) : ℤ × Option ℕ × Ledger :=
  if p.umem < 0 then (p.umem,none,s)
  else if p.copyin < 0 then (p.copyin,none,s)
  else if p.len < 0 ∨ p.buf = false then (0,none,s)
  else if p.hup then (- EIO,none,s)
  else if outOfRange below p.len then (-ERANGE,none,s)
  else
    let m := s.allocb p.mem
    if m.1 = none then (-ENOMEM,m)
    else if 0 < p.len ∧ p.umemBuf < 0 then (p.umemBuf,m)
    else if 0 < p.len ∧ p.copyinBuf < 0 then (p.copyinBuf,m)
    else (0,m)

/- A part that is NULL is none. -/
def copyinPart (s : Ledger) (below : Below) (part : Option Part) : ℤ × Option ℕ × Ledger :=
  match part with
  | none => (0,none,s)
  | some p => copyinMsgpart s below p

/- The parts as one message (`lis_linkb`). -/
def linked : Option ℕ → Option ℕ → Option Smsg
  | none,none => none
  | some m,aux => some ⟨M_PROTO,0,m :: aux.toList⟩
  | none,some aux => some ⟨M_DATA,0,[aux]⟩

/-- `copyin_msg` (`head.c:1790-1842`) -/
def copyinMsg (s : Ledger) (below : Below) (uctl udat : Option Part) : ℤ × Option Smsg × Ledger :=
  let c := copyinPart s below uctl
  if c.1 < 0 then (c.1,none,c.2.2.lisFreemsg c.2.1.toList)
  else
    let d := copyinPart c.2.2 below udat
    if d.1 < 0 then (d.1,none,d.2.2.lisFreemsg c.2.1.toList)
    else (0,linked c.2.1 d.2.1,d.2.2)

namespace Putreq

variable (c : Putreq)

/- The flags that `putmsg` and `putpmsg` do not take. -/
def badFlags : Prop :=
  if 0 ≤ c.band then
    c.flags &&& (MSG_HIPRI ||| MSG_BAND) = MSG_HIPRI ||| MSG_BAND ∨ c.flags &&& ~~~(MSG_HIPRI ||| MSG_BAND) ≠ 0 ∨
      c.flags = 0
  else c.flags &&& ~~~RS_HIPRI ≠ 0

instance : Decidable c.badFlags := inferInstanceAs (Decidable (ite _ _ _))

/- Type and band of the message, NULL for one of high priority without a control part or a band out of range. -/
def prepare (m : Smsg) : Option Smsg :=
  if c.flags &&& MSG_HIPRI ≠ 0 then (if m.btype = M_PROTO then some { m with btype := M_PCPROTO } else none)
  else if 0 ≤ c.band ∧ c.flags &&& MSG_BAND ≠ 0 then
    (if c.band ≤ LIS_MAX_BAND then some { m with bband := Fin.ofNat 256 c.band.toNat } else none)
  else some m

/- A message of high priority is not held up by flow control. -/
def loop (m : Smsg) (s : Ledger) : List Turn → Option (ℤ × Ledger)
  | [] => none
  | t :: ts =>
      match t with
      | .stwrerr sdWerror => some (-sdWerror,s.lisFreemsg m.blocks)
      | .hup => some (-ENODEV,s.lisFreemsg m.blocks)
      | .couldput => some (0,s.lisPutnext m)
      | .nolock err => if m.btype ≠ M_PCPROTO ∧ err < 0 then some (err,s.lisFreemsg m.blocks) else none
      | .notblock => if m.btype ≠ M_PCPROTO then some (-EAGAIN,s.lisFreemsg m.blocks) else none
      | .interrupted err => if m.btype ≠ M_PCPROTO ∧ err < 0 then some (err,s.lisFreemsg m.blocks) else none
      | .waited => if m.btype ≠ M_PCPROTO then loop m s ts else none

/-- `lis_strputpmsg` (`head.c:5942-6177`) -/
def lisStrputpmsg (s : Ledger) : Option (ℤ × Ledger) :=
  if c.stplex then some (-EINVAL,s)
  else if c.fifo < 0 then some (c.fifo,s)
  else if c.badFlags then some (-EINVAL,s)
  else
    let r := copyinMsg s c.below c.ctl c.dat
    if r.1 < 0 then some (r.1,r.2.2.lisFreemsg ((r.2.1.map Smsg.blocks).getD []))
    else
      match r.2.1 with
      | none => some (if c.flags &&& MSG_HIPRI ≠ 0 then -EINVAL else 0,r.2.2)
      | some m =>
          match c.prepare m with
          | none => some (-EINVAL,r.2.2.lisFreemsg m.blocks)
          | some m => loop m r.2.2 c.turns

end Putreq

namespace Ioreq

variable (c : Ioreq)

def badLen : Prop := c.icLen ≠ TRANSPARENT ∧ (c.icLen < 0 ∨ c.icTimout < -1)

instance : Decidable c.badLen := inferInstanceAs (Decidable (_ ∧ _))

/-- `lis_strdoioctl` up to the `lis_putnext` of the M_IOCTL (`head.c:3811-3990`) -/
def lisStrdoioctl (s : Ledger) : ℤ × Ledger :=
  if c.badLen then (-EINVAL,s)
  else
    let mioc := s.allocb c.mioc
    let s := mioc.2
    match mioc.1 with
    | none => (-ENOMEM,s)
    | some mioc =>
        if c.icLen = 0 then (0,s.lisPutnext ⟨M_IOCTL,0,[mioc]⟩)
        else if c.doCopyin ∧ c.umem < 0 ∧ c.str32 = false then (c.umem,s)
        else
          let mdta := s.allocb c.mdta
          let s := mdta.2
          match mdta.1 with
          | none => (-ENOMEM,s.lisFreemsg [mioc])
          | some mdta =>
              if c.doCopyin ∧ c.str32 = false ∧ c.copyin < 0 then (c.copyin,s.lisFreemsg [mioc])
              else (0,s.lisPutnext ⟨M_IOCTL,0,[mioc,mdta]⟩)

end Ioreq

def Ledger.send (s : Ledger) : Sendreq → Option (ℤ × Ledger)
  | .putmsg c => c.lisStrputpmsg s
  | .ioctl c => some (c.lisStrdoioctl s)

namespace Part

variable (below : Below) (p : Part)

/- The part is copied in, and a block allocated for it if there is memory. -/
def starts : Prop :=
  0 ≤ p.umem ∧ 0 ≤ p.copyin ∧ 0 ≤ p.len ∧ p.buf = true ∧ p.hup = false ∧ ¬outOfRange below p.len ∧ p.mem = true

instance : Decidable (p.starts below) := inferInstanceAs (Decidable (_ ∧ _))

/- The data of the user is not there, which is found after the block was allocated. -/
def loses : Prop := p.starts below ∧ 0 < p.len ∧ (p.umemBuf < 0 ∨ p.copyinBuf < 0)

instance : Decidable (p.loses below) := inferInstanceAs (Decidable (_ ∧ _ ∧ _))

/- `copyin_msgpart` returns no error. -/
def sound : Prop :=
  0 ≤ p.umem ∧ 0 ≤ p.copyin ∧ (p.len < 0 ∨ p.buf = false ∨
    (p.starts below ∧ ¬(0 < p.len ∧ (p.umemBuf < 0 ∨ p.copyinBuf < 0))))

instance : Decidable (p.sound below) := inferInstanceAs (Decidable (_ ∧ _ ∧ _))

end Part

/- A `putmsg` loses the block of its data when it comes to the data, has a block for it and cannot copy it. An ioctl
loses its request when the data fails the check, and the data when it cannot be copied. -/
def Sendreq.Guard : Sendreq → Prop
  | .putmsg c => c.stplex = true ∨ c.fifo < 0 ∨ c.badFlags ∨ (∃ p ∈ c.ctl, ¬p.sound c.below) ∨
      ∀ p ∈ c.dat, ¬p.loses c.below
  | .ioctl c => c.badLen ∨ c.mioc = false ∨ c.icLen = 0 ∨ c.doCopyin = false ∨ c.str32 = true ∨
      (0 ≤ c.umem ∧ (c.mdta = false ∨ 0 ≤ c.copyin))

instance (c : Sendreq) : Decidable c.Guard :=
  match c with
  | .putmsg _ => inferInstanceAs (Decidable (_ ∨ _ ∨ _ ∨ (∃ p ∈ _, _) ∨ ∀ p ∈ _, _))
  | .ioctl _ => inferInstanceAs (Decidable (_ ∨ _ ∨ _ ∨ _ ∨ _ ∨ _))

namespace Ledger

/- Every block was passed downstream or freed, once, or is one of these. -/
def Held (s : Ledger) (l : List ℕ) : Prop := (l ++ (s.passed ++ s.freed)).Perm (List.range s.next)

def Balanced (s : Ledger) : Prop := s.Held []

variable {s t : Ledger} {l m : List ℕ} {below : Below} {p : Part}

theorem Held.allocb (h : s.Held l) (mem : Bool) : (s.allocb mem).2.Held ((s.allocb mem).1.toList ++ l) := by
  cases mem with
  | false => exact h
  | true =>
    have hcons : (s.next :: (l ++ (s.passed ++ s.freed))).Perm (List.range (s.next + 1)) := by
      rw [List.range_succ]
      exact (h.cons s.next).trans (List.perm_append_singleton ..).symm
    exact hcons

theorem Held.lisFreemsg (h : s.Held (m ++ l)) : (s.lisFreemsg m).Held l := by
  refine List.Perm.trans (List.perm_iff_count.mpr fun b => ?_) h
  simp only [Ledger.lisFreemsg,List.count_append]
  omega

theorem Held.lisPutnext {x : Smsg} (h : s.Held (x.blocks ++ l)) : (s.lisPutnext x).Held l := by
  refine List.Perm.trans (List.perm_iff_count.mpr fun b => ?_) h
  simp only [Ledger.lisPutnext,List.count_append]
  omega

theorem Held.perm (h : s.Held l) (hp : l.Perm m) : s.Held m := ((hp.append_right _).symm).trans h

/- Nothing that is held can be left behind. -/
theorem Held.balanced_iff (h : s.Held l) : s.Balanced ↔ l = [] := by
  refine ⟨fun hb => ?_,fun hl => by rwa [hl] at h⟩
  have h1 := h.length_eq
  have h2 := List.Perm.length_eq hb
  rw [List.length_append] at h1
  rw [List.nil_append] at h2
  exact List.length_eq_zero_iff.mp (by omega)

end Ledger

variable {s t : Ledger} {l m : List ℕ} {below : Below} {p : Part}

/- Without a block nothing is lost. -/
theorem copyinMsgpart_idle (s : Ledger) (hs : ¬p.starts below) :
    ∃ err, copyinMsgpart s below p = (err,none,s) ∧ (0 ≤ err ↔ p.sound below) := by
  have hsound : p.sound below ↔ 0 ≤ p.umem ∧ 0 ≤ p.copyin ∧ (p.len < 0 ∨ p.buf = false) := by
    refine and_congr_right fun _ => and_congr_right fun _ => ?_
    rw [← or_assoc]
    exact or_iff_left fun hc => hs hc.1
  rw [copyinMsgpart,hsound]
  by_cases h1 : p.umem < 0
  · exact ⟨p.umem,if_pos h1,iff_of_false (not_le.mpr h1) fun hc => not_le.mpr h1 hc.1⟩
  by_cases h2 : p.copyin < 0
  · refine ⟨p.copyin,?_,iff_of_false (not_le.mpr h2) fun hc => not_le.mpr h2 hc.2.1⟩
    rw [if_neg h1,if_pos h2]
  by_cases h3 : p.len < 0 ∨ p.buf = false
  · refine ⟨0,?_,iff_of_true le_rfl ⟨not_lt.mp h1,not_lt.mp h2,h3⟩⟩
    rw [if_neg h1,if_neg h2,if_pos h3]
  rw [if_neg h1,if_neg h2,if_neg h3]
  have hno : ∀ err : ℤ, err < 0 → (0 ≤ err ↔ 0 ≤ p.umem ∧ 0 ≤ p.copyin ∧ (p.len < 0 ∨ p.buf = false)) :=
    fun err he => iff_of_false (not_le.mpr he) fun hc => h3 hc.2.2
  by_cases h4 : p.hup = true
  · exact ⟨- EIO,if_pos h4,hno _ (by decide)⟩
  by_cases h5 : outOfRange below p.len
  · refine ⟨-ERANGE,?_,hno _ (by decide)⟩
    rw [if_neg h4,if_pos h5]
  have hbuf := eq_true_of_ne_false fun hb => h3 (Or.inr hb)
  have hlen := not_lt.mp fun hb => h3 (Or.inl hb)
  have hmem : p.mem = false := eq_false_of_ne_true fun hm =>
    hs ⟨not_lt.mp h1,not_lt.mp h2,hlen,hbuf,eq_false_of_ne_true h4,h5,hm⟩
  refine ⟨-ENOMEM,?_,hno _ (by decide)⟩
  rw [if_neg h4,if_neg h5,hmem]
  rfl

/- With a block an error is one that has lost the data. -/
theorem copyinMsgpart_starts (s : Ledger) (hs : p.starts below) :
    ∃ err, copyinMsgpart s below p = (err,some s.next,{ s with next := s.next + 1 }) ∧ (0 ≤ err ↔ p.sound below) ∧
      (err < 0 ↔ p.loses below) := by
  obtain ⟨h1,h2,hlen,hbuf,hhup,hrange,hmem⟩ := id hs
  have h3 : ¬(p.len < 0 ∨ p.buf = false) := by
    rw [hbuf]
    exact not_or.mpr ⟨not_lt.mpr hlen,Bool.true_eq_false_eq_False⟩
  have hloses : p.loses below ↔ 0 < p.len ∧ (p.umemBuf < 0 ∨ p.copyinBuf < 0) := and_iff_right hs
  have hsound : p.sound below ↔ ¬(0 < p.len ∧ (p.umemBuf < 0 ∨ p.copyinBuf < 0)) := by
    rw [Part.sound,← or_assoc,or_iff_right h3,and_iff_right h1,and_iff_right h2]
    exact and_iff_right hs
  have halloc : s.allocb p.mem = (some s.next,{ s with next := s.next + 1 }) := by rw [hmem]; rfl
  rw [copyinMsgpart,if_neg (not_lt.mpr h1),if_neg (not_lt.mpr h2),if_neg h3,hhup,if_neg Bool.false_ne_true,
    if_neg hrange,hloses,hsound]
  simp only [halloc]
  rw [if_neg (Option.some_ne_none _)]
  by_cases h6 : 0 < p.len ∧ p.umemBuf < 0
  · have hl : 0 < p.len ∧ (p.umemBuf < 0 ∨ p.copyinBuf < 0) := ⟨h6.1,Or.inl h6.2⟩
    exact ⟨p.umemBuf,if_pos h6,iff_of_false (not_le.mpr h6.2) (not_not.mpr hl),iff_of_true h6.2 hl⟩
  by_cases h7 : 0 < p.len ∧ p.copyinBuf < 0
  · have hl : 0 < p.len ∧ (p.umemBuf < 0 ∨ p.copyinBuf < 0) := ⟨h7.1,Or.inr h7.2⟩
    refine ⟨p.copyinBuf,?_,iff_of_false (not_le.mpr h7.2) (not_not.mpr hl),iff_of_true h7.2 hl⟩
    rw [if_neg h6,if_pos h7]
  have hl : ¬(0 < p.len ∧ (p.umemBuf < 0 ∨ p.copyinBuf < 0)) := by
    rintro ⟨hpos,hc | hc⟩
    · exact h6 ⟨hpos,hc⟩
    · exact h7 ⟨hpos,hc⟩
  refine ⟨0,?_,iff_of_true le_rfl hl,iff_of_false (lt_irrefl 0) hl⟩
  rw [if_neg h6,if_neg h7]

/- A part of a message: with an error the block that was allocated is the one that is lost. -/
theorem copyinPart_spec (h : s.Held l) (below : Below) (part : Option Part) :
    ∃ err b t, copyinPart s below part = (err,b,t) ∧ t.Held (b.toList ++ l) ∧
      (0 ≤ err ↔ ¬∃ p ∈ part, ¬p.sound below) ∧ (err < 0 → (b = none ↔ ∀ p ∈ part, ¬p.loses below)) := by
  cases part with
  | none => exact ⟨0,none,s,rfl,h,iff_of_true le_rfl (by simp),fun hc => absurd hc (lt_irrefl 0)⟩
  | some p =>
    simp only [copyinPart,Option.mem_def,Option.some.injEq,exists_eq_left',forall_eq',not_not]
    by_cases hs : p.starts below
    · obtain ⟨err,he,hsound,hloses⟩ := copyinMsgpart_starts s hs
      have hm := h.allocb true
      exact ⟨err,_,_,he,hm,hsound,fun hc => iff_of_false (Option.some_ne_none _) (not_not.mpr (hloses.mp hc))⟩
    · obtain ⟨err,he,hsound⟩ := copyinMsgpart_idle s hs
      exact ⟨err,_,_,he,h,hsound,fun _ => iff_of_true rfl fun hc => hs hc.1⟩

theorem Part.sound.not_loses (h : p.sound below) : ¬p.loses below := by
  rintro ⟨⟨-,-,hlen,hbuf,-⟩,hl⟩
  rcases h.2.2 with hc | hc | ⟨-,hc⟩
  · exact not_lt.mpr hlen hc
  · exact Bool.noConfusion (hbuf.symm.trans hc)
  · exact hc hl

/- The blocks of a message, none for NULL. -/
def blocksOf (m : Option Smsg) : List ℕ := (m.map Smsg.blocks).getD []

/- What `copyin_msg` loses is the block of a data part that comes after a sound control part. -/
theorem copyinMsg_spec (h : s.Balanced) (below : Below) (ctl dat : Option Part) :
    ∃ err msg t lost, copyinMsg s below ctl dat = (err,msg,t) ∧ t.Held (blocksOf msg ++ lost) ∧ (err < 0 → msg = none) ∧
      (lost = [] ↔ (∃ p ∈ ctl, ¬p.sound below) ∨ ∀ p ∈ dat, ¬p.loses below) := by
  obtain ⟨e1,b1,s1,hc,h1,hs1,hl1⟩ := copyinPart_spec h below ctl
  by_cases he1 : e1 < 0
  · refine ⟨e1,none,s1.lisFreemsg b1.toList,[],?_,h1.lisFreemsg,fun _ => rfl,iff_of_true rfl (Or.inl ?_)⟩
    · simp only [copyinMsg,hc,if_pos he1]
    · exact not_not.mp fun hno => not_le.mpr he1 (hs1.mpr hno)
  · have hsound := hs1.mp (not_lt.mp he1)
    obtain ⟨e2,b2,s2,hd,h2,hs2,hl2⟩ := copyinPart_spec h1 below dat
    rw [List.append_nil] at h2
    by_cases he2 : e2 < 0
    · have hfree : (s2.lisFreemsg b1.toList).Held b2.toList := (h2.perm List.perm_append_comm).lisFreemsg
      refine ⟨e2,none,_,b2.toList,?_,hfree,fun _ => rfl,?_⟩
      · simp only [copyinMsg,hc,if_neg he1,hd,if_pos he2]
      · rw [or_iff_right hsound,← hl2 he2]
        cases b2 <;> simp
    · have hmsg := h2.perm List.perm_append_comm
      have hno : ∀ p ∈ dat, ¬p.loses below := fun p hp =>
        (not_not.mp fun hns => hs2.mp (not_lt.mp he2) ⟨p,hp,hns⟩ : p.sound below).not_loses
      refine ⟨0,linked b1 b2,s2,[],?_,?_,fun hc => absurd hc (lt_irrefl 0),iff_of_true rfl (Or.inr hno)⟩
      · simp only [copyinMsg,hc,if_neg he1,hd,if_neg he2]
      · rw [List.append_nil]
        cases b1 <;> cases b2 <;> exact hmsg

/- From the loop on the message is passed or freed. -/
theorem loop_held {x : Smsg} {r : ℤ × Ledger} {ts : List Turn} (h : s.Held (x.blocks ++ l))
    (hr : Putreq.loop x s ts = some r) : r.2.Held l := by
  induction ts with
  | nil => cases hr
  | cons turn ts ih =>
    cases turn with
    | stwrerr werror => exact Option.some.inj hr ▸ h.lisFreemsg
    | hup => exact Option.some.inj hr ▸ h.lisFreemsg
    | couldput => exact Option.some.inj hr ▸ h.lisPutnext
    | nolock err =>
      obtain ⟨-,hr⟩ := Option.ite_none_right_eq_some.mp hr
      exact Option.some.inj hr ▸ h.lisFreemsg
    | notblock =>
      obtain ⟨-,hr⟩ := Option.ite_none_right_eq_some.mp hr
      exact Option.some.inj hr ▸ h.lisFreemsg
    | interrupted err =>
      obtain ⟨-,hr⟩ := Option.ite_none_right_eq_some.mp hr
      exact Option.some.inj hr ▸ h.lisFreemsg
    | waited =>
      obtain ⟨-,hr⟩ := Option.ite_none_right_eq_some.mp hr
      exact ih hr

theorem prepare_blocks {x y : Smsg} {c : Putreq} (h : c.prepare x = some y) : y.blocks = x.blocks := by
  rw [Putreq.prepare] at h
  split_ifs at h <;> exact Option.some.inj h ▸ rfl

theorem putmsg_iff {c : Putreq} {r : ℤ × Ledger} (h : s.Balanced) (hr : c.lisStrputpmsg s = some r) :
    r.2.Balanced ↔ (Sendreq.putmsg c).Guard := by
  rw [Putreq.lisStrputpmsg] at hr
  by_cases h1 : c.stplex = true
  · rw [if_pos h1] at hr
    exact iff_of_true (Option.some.inj hr ▸ h) (Or.inl h1)
  by_cases h2 : c.fifo < 0
  · rw [if_neg h1,if_pos h2] at hr
    exact iff_of_true (Option.some.inj hr ▸ h) (Or.inr (Or.inl h2))
  by_cases h3 : c.badFlags
  · rw [if_neg h1,if_neg h2,if_pos h3] at hr
    exact iff_of_true (Option.some.inj hr ▸ h) (Or.inr (Or.inr (Or.inl h3)))
  obtain ⟨err,msg,t,lost,hc,ht,hnone,hlost⟩ := copyinMsg_spec h c.below c.ctl c.dat
  have hguard : (Sendreq.putmsg c).Guard ↔ lost = [] := by
    rw [hlost,Sendreq.Guard,or_iff_right h1,or_iff_right h2,or_iff_right h3]
  simp only [if_neg h1,if_neg h2,if_neg h3,hc] at hr
  rw [hguard]
  suffices hheld : r.2.Held lost from hheld.balanced_iff
  cases msg with
  | none =>
    by_cases he : err < 0
    · rw [if_pos he] at hr
      exact Option.some.inj hr ▸ ht.lisFreemsg
    · rw [if_neg he] at hr
      exact Option.some.inj hr ▸ ht
  | some x =>
    rw [if_neg fun he => Option.some_ne_none x (hnone he)] at hr
    cases hp : c.prepare x with
    | none =>
      simp only [hp] at hr
      exact Option.some.inj hr ▸ ht.lisFreemsg
    | some y =>
      simp only [hp] at hr
      have hy : t.Held (y.blocks ++ lost) := by
        rw [prepare_blocks hp]
        exact ht
      exact loop_held hy hr

theorem ioctl_iff {c : Ioreq} (h : s.Balanced) : (c.lisStrdoioctl s).2.Balanced ↔ (Sendreq.ioctl c).Guard := by
  rw [Ioreq.lisStrdoioctl,Sendreq.Guard]
  by_cases h1 : c.badLen
  · rw [if_pos h1]
    exact iff_of_true h (Or.inl h1)
  rw [if_neg h1,or_iff_right h1]
  cases hm : c.mioc with
  | false => exact iff_of_true h (Or.inl rfl)
  | true =>
    have hmioc := Ledger.Held.allocb h true
    rw [or_iff_right (Bool.noConfusion : true = false → False)]
    simp only [Ledger.allocb,if_true] at hmioc ⊢
    by_cases h2 : c.icLen = 0
    · rw [if_pos h2]
      exact iff_of_true (Ledger.Held.lisPutnext (x := ⟨M_IOCTL,0,[s.next]⟩) hmioc) (Or.inl h2)
    rw [if_neg h2,or_iff_right h2]
    by_cases h3 : c.doCopyin = true ∧ c.umem < 0 ∧ c.str32 = false
    · rw [if_pos h3]
      refine iff_of_false (fun hb => absurd (hmioc.balanced_iff.mp hb) (List.cons_ne_nil _ _)) ?_
      rintro (hc | hc | hc)
      · exact Bool.noConfusion (hc.symm.trans h3.1)
      · exact Bool.noConfusion (hc.symm.trans h3.2.2)
      · exact not_le.mpr h3.2.1 hc.1
    rw [if_neg h3]
    cases hd : c.mdta with
    | false =>
      refine iff_of_true hmioc.lisFreemsg ?_
      by_cases hcopy : c.doCopyin = false
      · exact Or.inl hcopy
      by_cases hstr : c.str32 = true
      · exact Or.inr (Or.inl hstr)
      · refine Or.inr (Or.inr ⟨not_lt.mp fun hu => h3 ⟨?_,hu,?_⟩,Or.inl rfl⟩)
        · exact eq_true_of_ne_false hcopy
        · exact eq_false_of_ne_true hstr
    | true =>
      have hmdta := hmioc.allocb true
      simp only [Ledger.allocb,if_true] at hmdta ⊢
      by_cases h4 : c.doCopyin = true ∧ c.str32 = false ∧ c.copyin < 0
      · rw [if_pos h4]
        have hlost := (hmdta.perm List.perm_append_comm).lisFreemsg
        refine iff_of_false (fun hb => absurd (hlost.balanced_iff.mp hb) (List.cons_ne_nil _ _)) ?_
        rintro (hc | hc | ⟨-,hc | hc⟩)
        · exact Bool.noConfusion (hc.symm.trans h4.1)
        · exact Bool.noConfusion (hc.symm.trans h4.2.1)
        · exact Bool.noConfusion hc
        · exact not_le.mpr h4.2.2 hc
      · rw [if_neg h4]
        refine iff_of_true ?_ ?_
        · exact Ledger.Held.lisPutnext (x := ⟨M_IOCTL,0,[s.next,s.next + 1]⟩) (hmdta.perm (List.Perm.swap ..))
        · by_cases hcopy : c.doCopyin = false
          · exact Or.inl hcopy
          by_cases hstr : c.str32 = true
          · exact Or.inr (Or.inl hstr)
          have hcopy := eq_true_of_ne_false hcopy
          have hstr := eq_false_of_ne_true hstr
          refine Or.inr (Or.inr ⟨not_lt.mp fun hu => h3 ⟨hcopy,hu,hstr⟩,Or.inr ?_⟩)
          exact not_lt.mp fun hn => h4 ⟨hcopy,hstr,hn⟩

theorem send_iff {c : Sendreq} {r : ℤ × Ledger} (h : s.Balanced) (hr : s.send c = some r) : r.2.Balanced ↔ c.Guard := by
  cases c with
  | putmsg c => exact putmsg_iff h hr
  | ioctl c =>
    obtain rfl := Option.some.inj hr
    exact ioctl_iff h

/- One request after the other. -/
def sendStep (s : Ledger) (c : Sendreq) : Option Ledger := (s.send c).map fun r => r.2

/-- In any run of requests that meet the condition every block is passed downstream or freed, once. A request that
follows keeps that exactly when it meets the condition. -/
theorem blocks_once (cs : List Sendreq) (hm : Meets sendStep (fun _ c => c.Guard) Ledger.init cs)
    (h : exec sendStep Ledger.init cs = some s) :
    s.Balanced ∧ ∀ c r, s.send c = some r → (r.2.Balanced ↔ c.Guard) := by
  have hs : s.Balanced := by
    have hinit : Ledger.init.Balanced := List.Perm.refl []
    refine exec_preserves (I := Ledger.Balanced) (fun s c t hs hg ht => ?_) hinit hm h
    obtain ⟨r,hr,rfl⟩ := Option.map_eq_some_iff.mp ht
    exact (send_iff hs hr).mpr hg
  exact ⟨hs,fun c r hr => send_iff hs hr⟩

/- A part with five bytes. -/
def fiveBytes (copyinBuf : ℤ) : Part := ⟨0,0,5,true,false,true,0,copyinBuf⟩

def threeRequests : List Sendreq :=
  [.putmsg ⟨false,0,some (0,4096),some (fiveBytes 0),some (fiveBytes 0),-1,RS_HIPRI,[.couldput]⟩,
    .putmsg ⟨false,0,some (0,4096),some (fiveBytes (-14)),some (fiveBytes (-14)),-1,0,[]⟩,
    .ioctl ⟨8,0,true,false,true,0,true,0⟩]

theorem blocks_once_three : exec sendStep Ledger.init threeRequests = some ⟨5,[2],[0,1,3,4]⟩ ∧
    Ledger.Balanced ⟨5,[2],[0,1,3,4]⟩ ∧ ∀ c r, Ledger.send ⟨5,[2],[0,1,3,4]⟩ c = some r → (r.2.Balanced ↔ c.Guard) :=
  ⟨by decide,blocks_once threeRequests (by decide) (by decide)⟩

/- A `putmsg` of five bytes of data that cannot be copied loses their block. -/
theorem putmsg_leaks : ¬ ∀ (c : Sendreq) (r : ℤ × Ledger), Ledger.init.send c = some r → r.2.Balanced := by
  intro h
  let c : Sendreq := .putmsg ⟨false,0,some (0,4096),none,some (fiveBytes (-14)),-1,0,[]⟩
  have hr : Ledger.init.send c = some (-14,⟨1,[],[]⟩) := by decide
  have hperm := (h c _ hr).length_eq
  cases hperm

end CSLiS.Write
