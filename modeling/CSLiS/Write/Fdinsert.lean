import CSLiS.Write.Putmsg

/-!
# A queue pointer in a message (head/head.c, I_FDINSERT of `lis_strioctl`)

The user's structure is read at the start, and its two buffers are read again when `copyin_msg` builds the message, so
that the lengths the checks were about need not be those of the blocks. The flags of the two stream heads, as each test
finds them, are inputs of the call. Pointers have eight bytes.
-/

namespace CSLiS.Write
open Queue

def ENXIO : ℤ := 6
def ENOSTR : ℤ := 60
def ENOSR : ℤ := 63
def sizeofPtr : ℕ := 8

/- What is used of the structure that is read first: the lengths of its buffers, and its own fields. -/
structure Strfdinsert where
  ctlLen : BitVec 32
  datLen : BitVec 32
  flags : BitVec 64
  fildes : BitVec 32
  offset : BitVec 32
  deriving DecidableEq, Repr

structure Wque where
  magic : Bool
  reader : Bool
  deriving DecidableEq, Repr

/- The stream of `fildes`; its write queues from the head down. -/
structure Ihd where
  strderr : Bool
  stwrerr : Bool
  stplex : Bool
  queues : List Wque
  deriving DecidableEq, Repr

structure Fdreq where
  strderr : Bool
  stwrerr : Bool
  sdMinpsz : ℤ
  sdMaxpsz : ℤ
  umem : ℤ
  copyin : ℤ
  arg : Strfdinsert
  fd2str : Option Ihd
  below : Below
  ctl : Part
  dat : Part
  turns : List Turn
  deriving DecidableEq, Repr

/- The references on the other stream head, the blocks, and the message and the place in its first block at which the
pointer is stored. -/
structure Fdcall where
  gets : ℕ
  puts : ℕ
  ledger : Ledger
  store : Option (Smsg × ℤ)
  deriving DecidableEq, Repr

namespace Fdcall

variable (c : Fdcall)

def init : Fdcall := ⟨0,0,Ledger.init,none⟩

def lisHeadGet : Fdcall := { c with gets := c.gets + 1 }

def lisHeadPut : Fdcall := { c with puts := c.puts + 1 }

def lisFreemsg (l : List ℕ) : Fdcall := { c with ledger := c.ledger.lisFreemsg l }

def lisPutnext (m : Smsg) : Fdcall := { c with ledger := c.ledger.lisPutnext m }

/- The wait for flow control; `none` while it lasts. -/
def loop (hipri : Bool) (m : Smsg) : List Turn → Option (ℤ × Fdcall)
  | [] => none
  | t :: ts =>
      match t with
      | .stwrerr _ => some (-EINVAL,c.lisFreemsg m.blocks)
      | .hup => some (-ENODEV,c.lisFreemsg m.blocks)
      | .couldput => some (0,c.lisPutnext m)
      -- the message stays when the queue cannot be locked
      | .nolock err => if err < 0 then some (err,c) else none
      | .notblock => some (-EAGAIN,c.lisFreemsg m.blocks)
      | .interrupted err =>
          if hipri then some (-EAGAIN,c.lisFreemsg m.blocks)
          else if err < 0 then some (err,c.lisFreemsg m.blocks)
          else none
      | .waited => if hipri then some (-EAGAIN,c.lisFreemsg m.blocks) else loop hipri m ts

end Fdcall

/-- `lis_safe_SAMESTR` (`safe.c:143-153`) -/
def samestr (q : Wque) : List Wque → Bool
  | [] => false
  | n :: _ => q.magic && n.magic && q.reader == n.reader

/- The search for the driver's queue meets no queue with a bad magic number. -/
def driverQueue : List Wque → Bool
  | [] => true
  | q :: qs => q.magic && (!samestr q qs || driverQueue qs)

namespace Strfdinsert

variable (s : Strfdinsert)

/- What the sanity checks refuse; the length is compared as an unsigned long. -/
def insane : Bool :=
  s.offset.slt 0 || (4096#32).slt s.offset ||
    (s.ctlLen.signExtend 64).ult (s.offset.signExtend 64 + BitVec.ofNat 64 sizeofPtr) ||
    s.offset.signExtend 64 % BitVec.ofNat 64 sizeofPtr != 0 || s.fildes.slt 0 ||
    s.flags &&& ~~~RS_HIPRI.setWidth 64 != 0

def hipri : Bool := s.flags &&& RS_HIPRI.setWidth 64 != 0

end Strfdinsert

namespace Fdreq

variable (i : Fdreq)

/- A size of the data that the stream does not take. -/
def badSize : Prop :=
  (0 < i.arg.datLen.toInt ∧ i.arg.datLen.toInt < i.sdMinpsz) ∨ (i.sdMaxpsz ≠ INFPSZ ∧ i.sdMaxpsz < i.arg.datLen.toInt)

instance : Decidable i.badSize := inferInstanceAs (Decidable (_ ∨ _))

/- The part of the call behind the checks. -/
def sendMsg (c : Fdcall) : Option (ℤ × Fdcall) :=
  let r := copyinMsg c.ledger i.below (some i.ctl) (some i.dat)
  let c := { c with ledger := r.2.2 }
  if r.1 < 0 then some (r.1,c.lisFreemsg ((r.2.1.map Smsg.blocks).getD []))
  else
    match r.2.1 with
    | none => some (-EINVAL,c)
    | some m =>
        if i.arg.hipri ∧ m.btype ≠ M_PROTO then some (-EINVAL,c.lisFreemsg m.blocks)
        else
          let m := if i.arg.hipri then { m with btype := M_PCPROTO } else m
          { c with store := some (m,i.arg.offset.toInt) }.loop i.arg.hipri m i.turns

/-- I_FDINSERT (`head.c:7148-7318`) -/
def iFdinsert : Option (ℤ × Fdcall) :=
  let c := Fdcall.init
  if i.strderr ∨ i.stwrerr then some (-EINVAL,c)
  else if i.below = none then some (-ENOSR,c)
  else if i.umem < 0 then some (i.umem,c)
  else if i.copyin < 0 then some (i.copyin,c)
  else if i.arg.insane then some (-EINVAL,c)
  else
    match i.fd2str with
    | none => some (-ENOSTR,c)
    | some ihd =>
        let c := c.lisHeadGet
        if ihd.strderr ∨ ihd.stwrerr then some (-EINVAL,c.lisHeadPut)
        else if ihd.stplex then some (- ENXIO,c)
        else if i.badSize then some (-ERANGE,c.lisHeadPut)
        else if driverQueue ihd.queues = false then some (-EINVAL,c.lisHeadPut)
        else i.sendMsg c.lisHeadPut

/- What a call that returns may rely on: the bytes of a control block are those that `copyin_msgpart` was told. -/
structure Right (err : ℤ) (c : Fdcall) : Prop where
  inside : 0 ≤ err → ∃ m off, c.store = some (m,off) ∧ (m.btype = M_PROTO ∨ m.btype = M_PCPROTO) ∧ 0 ≤ off ∧
    off + sizeofPtr ≤ i.ctl.len
  dropped : c.puts = c.gets
  once : c.ledger.Balanced

/- The checks on the user's structure are passed. -/
def Checked : Prop :=
  i.strderr = false ∧ i.stwrerr = false ∧ i.below ≠ none ∧ 0 ≤ i.umem ∧ 0 ≤ i.copyin ∧ i.arg.insane = false

/- The other stream is one whose driver can be found, and the data has a size that is taken. -/
def Begun : Prop :=
  i.Checked ∧ ¬i.badSize ∧ ∃ ihd ∈ i.fd2str, ihd.strderr = false ∧ ihd.stwrerr = false ∧ ihd.stplex = false ∧
    driverQueue ihd.queues = true

/- There is a message, with a control part if it is one of high priority. -/
def Built : Prop :=
  i.Begun ∧ i.ctl.sound i.below ∧ i.dat.sound i.below ∧ (i.ctl.starts i.below ∨ i.dat.starts i.below) ∧
    (i.arg.hipri = true → i.ctl.starts i.below)

/- The wait comes to a turn. -/
def Reaches (hipri : Bool) (P : Turn → Prop) : List Turn → Prop
  | [] => False
  | t :: ts => P t ∨ (t = .waited ∧ hipri = false ∧ Reaches hipri P ts)

/- The other stream is not linked under a multiplexor, the data can be copied if the control part can, the write queue
can be locked, and a message that is sent has a control part with room for the pointer when it is copied in. -/
structure Harmless : Prop where
  plexed : i.Checked → ∀ ihd ∈ i.fd2str, ihd.strderr = false → ihd.stwrerr = false → ihd.stplex = false
  copied : i.Begun → i.ctl.sound i.below → ¬i.dat.loses i.below
  locked : i.Built → ¬Reaches i.arg.hipri (fun t => ∃ err < 0, t = .nolock err) i.turns
  inside : i.Built → Reaches i.arg.hipri (· = .couldput) i.turns →
    i.ctl.starts i.below ∧ i.arg.offset.toInt + sizeofPtr ≤ i.ctl.len

/-! ### The message -/

/- A part that is copied in without an error has a block if it starts one. -/
theorem copyinMsgpart_cases (s : Ledger) (below : Below) (p : Part) :
    ∃ err b t, copyinMsgpart s below p = (err,b,t) ∧ (0 ≤ err ↔ p.sound below) ∧ (b ≠ none ↔ p.starts below) := by
  by_cases hs : p.starts below
  · obtain ⟨err,he,hsound,-⟩ := copyinMsgpart_starts s hs
    exact ⟨err,_,_,he,hsound,iff_of_true (Option.some_ne_none _) hs⟩
  · obtain ⟨err,he,hsound⟩ := copyinMsgpart_idle s hs
    exact ⟨err,_,_,he,hsound,iff_of_false (not_not.mpr rfl) hs⟩

theorem copyinMsg_sound (s : Ledger) {below : Below} {ctl dat : Part} (hc : ctl.sound below) (hd : dat.sound below) :
    ∃ b b' t, copyinMsg s below (some ctl) (some dat) = (0,linked b b',t) ∧ (b ≠ none ↔ ctl.starts below) ∧
      (b' ≠ none ↔ dat.starts below) := by
  obtain ⟨err,b,t,h1,he1,hb⟩ := copyinMsgpart_cases s below ctl
  obtain ⟨err',b',t',h2,he2,hb'⟩ := copyinMsgpart_cases t below dat
  refine ⟨b,b',t',?_,hb,hb'⟩
  simp only [copyinMsg,copyinPart,h1,if_neg (not_lt.mpr (he1.mpr hc)),h2,if_neg (not_lt.mpr (he2.mpr hd))]

theorem copyinMsg_fails (s : Ledger) {below : Below} {ctl dat : Part} (h : ¬(ctl.sound below ∧ dat.sound below)) :
    (copyinMsg s below (some ctl) (some dat)).1 < 0 := by
  obtain ⟨err,b,t,h1,he1,-⟩ := copyinMsgpart_cases s below ctl
  obtain ⟨err',b',t',h2,he2,-⟩ := copyinMsgpart_cases t below dat
  simp only [copyinMsg,copyinPart,h1]
  by_cases hc : err < 0
  · rw [if_pos hc]
    exact hc
  · have hd : err' < 0 := not_le.mp fun hd => h ⟨he1.mp (not_lt.mp hc),he2.mp hd⟩
    simp only [if_neg hc,h2,if_pos hd]
    exact hd

/-! ### The wait -/

variable {i} {c : Fdcall} {m : Smsg} {off : ℤ} {hp : Bool}

/- The pointer is stored inside the control part. -/
def Inside (i : Fdreq) (m : Smsg) (off : ℤ) : Prop :=
  (m.btype = M_PROTO ∨ m.btype = M_PCPROTO) ∧ 0 ≤ off ∧ off + sizeofPtr ≤ i.ctl.len

/- An error leaves nothing behind when the message is freed. -/
theorem freed_right {err : ℤ} (he : err < 0) (hg : c.puts = c.gets) (hl : c.ledger.Held (m.blocks ++ [])) :
    i.Right err (c.lisFreemsg m.blocks) :=
  ⟨fun h => absurd h (not_le.mpr he),hg,hl.lisFreemsg⟩

theorem loop_right_iff (hg : c.puts = c.gets) (hl : c.ledger.Held (m.blocks ++ [])) (hm : m.blocks ≠ [])
    (hs : c.store = some (m,off)) (ts : List Turn) :
    (∀ err c', c.loop hp m ts = some (err,c') → i.Right err c') ↔
      ¬Reaches hp (fun t => ∃ err < 0, t = .nolock err) ts ∧ (Reaches hp (· = .couldput) ts → Inside i m off) := by
  -- a turn that is the last one, with the message freed
  have hfree {t : Turn} {ts : List Turn} {err : ℤ} (he : err < 0)
      (heq : c.loop hp m (t :: ts) = some (err,c.lisFreemsg m.blocks))
      (hn : ¬Reaches hp (fun t => ∃ err < 0, t = .nolock err) (t :: ts)) (hc : ¬Reaches hp (· = .couldput) (t :: ts)) :
      (∀ err c', c.loop hp m (t :: ts) = some (err,c') → i.Right err c') ↔
        ¬Reaches hp (fun t => ∃ err < 0, t = .nolock err) (t :: ts) ∧
          (Reaches hp (· = .couldput) (t :: ts) → Inside i m off) := by
    refine iff_of_true (fun err' c' h => ?_) ⟨hn,fun h => absurd h hc⟩
    obtain ⟨rfl,rfl⟩ := Prod.mk.inj (Option.some.inj (heq.symm.trans h))
    exact freed_right he hg hl
  induction ts with
  | nil => exact iff_of_true (fun err c' h => absurd h.symm (Option.some_ne_none _)) ⟨fun h => h,fun h => h.elim⟩
  | cons t ts ih =>
    cases t with
    | stwrerr w => exact hfree (by decide) rfl (by simp [Reaches]) (by simp [Reaches])
    | hup => exact hfree (by decide) rfl (by simp [Reaches]) (by simp [Reaches])
    | notblock => exact hfree (by decide) rfl (by simp [Reaches]) (by simp [Reaches])
    | nolock err =>
      by_cases he : err < 0
      · have heq : c.loop hp m (.nolock err :: ts) = some (err,c) := if_pos he
        refine iff_of_false (fun h => hm ?_) fun h => h.1 (Or.inl ⟨err,he,rfl⟩)
        have hb := hl.balanced_iff.mp (h err c heq).once
        simpa using hb
      · have heq : c.loop hp m (.nolock err :: ts) = none := if_neg he
        refine iff_of_true (fun err' c' h => absurd (h.symm.trans heq) (Option.some_ne_none _)) ⟨?_,?_⟩
        · simpa [Reaches] using he
        · simp [Reaches]
    | interrupted err =>
      cases hp with
      | true => exact hfree (by decide) rfl (by simp [Reaches]) (by simp [Reaches])
      | false =>
        by_cases he : err < 0
        · exact hfree he (if_pos he) (by simp [Reaches]) (by simp [Reaches])
        · have heq : c.loop false m (.interrupted err :: ts) = none := if_neg he
          refine iff_of_true (fun err' c' h => absurd (h.symm.trans heq) (Option.some_ne_none _)) ⟨?_,?_⟩
          · simp [Reaches]
          · simp [Reaches]
    | waited =>
      cases hp with
      | true => exact hfree (by decide) rfl (by simp [Reaches]) (by simp [Reaches])
      | false =>
        have heq : c.loop false m (.waited :: ts) = c.loop false m ts := rfl
        simpa [Reaches,heq] using ih
    | couldput =>
      have heq : c.loop hp m (.couldput :: ts) = some (0,c.lisPutnext m) := rfl
      have hn : ¬Reaches hp (fun t => ∃ err < 0, t = .nolock err) (.couldput :: ts) := by simp [Reaches]
      have hr : Reaches hp (· = .couldput) (.couldput :: ts) := Or.inl rfl
      rw [and_iff_right hn,forall_prop_of_true hr]
      constructor
      · intro h
        obtain ⟨m',off',hs',hin⟩ := (h 0 _ heq).inside le_rfl
        obtain ⟨rfl,rfl⟩ := Prod.mk.inj (Option.some.inj (hs.symm.trans hs'))
        exact hin
      · intro hin err c' h
        obtain ⟨rfl,rfl⟩ := Prod.mk.inj (Option.some.inj (heq.symm.trans h))
        exact ⟨fun _ => ⟨m,off,hs,hin⟩,hg,hl.lisPutnext⟩

/-! ### The whole call -/

theorem Begun.offset_nonneg (h : i.Begun) : 0 ≤ i.arg.offset.toInt := by
  have hs := h.1.2.2.2.2.2
  simp only [Strfdinsert.insane,Bool.or_eq_false_iff] at hs
  have h0 := hs.1.1.1.1.1
  rw [BitVec.slt_eq_decide,decide_eq_false_iff_not] at h0
  exact not_lt.mp h0

theorem send_right_iff (hb : i.Begun) (hg : c.puts = c.gets) (hl : c.ledger.Balanced) :
    (∀ err c', i.sendMsg c = some (err,c') → i.Right err c') ↔
      (i.ctl.sound i.below → ¬i.dat.loses i.below) ∧
      (i.Built → ¬Reaches i.arg.hipri (fun t => ∃ err < 0, t = .nolock err) i.turns) ∧
      (i.Built → Reaches i.arg.hipri (· = .couldput) i.turns →
        i.ctl.starts i.below ∧ i.arg.offset.toInt + sizeofPtr ≤ i.ctl.len) := by
  by_cases hs : i.ctl.sound i.below ∧ i.dat.sound i.below
  · obtain ⟨b,b',t,hc,hb1,hb2⟩ := copyinMsg_sound c.ledger hs.1 hs.2
    obtain ⟨err,msg,t',lost,hc',ht,-,hlost⟩ := copyinMsg_spec hl i.below (some i.ctl) (some i.dat)
    have hlost : lost = [] := hlost.mpr (Or.inr fun p hp => (Option.some.inj hp : i.dat = p) ▸ hs.2.not_loses)
    have heq : ((0 : ℤ),linked b b',t) = (err,msg,t') := hc.symm.trans hc'
    cases heq
    rw [hlost] at ht
    rw [and_iff_right fun _ => hs.2.not_loses]
    have hsend : i.sendMsg c = match linked b b' with
        | none => some (-EINVAL,{ c with ledger := t })
        | some m =>
            if i.arg.hipri ∧ m.btype ≠ M_PROTO then some (-EINVAL,{ c with ledger := t.lisFreemsg m.blocks })
            else
              let m := if i.arg.hipri then { m with btype := M_PCPROTO } else m
              { c with ledger := t, store := some (m,i.arg.offset.toInt) }.loop i.arg.hipri m i.turns := by
      simp only [sendMsg,hc,lt_irrefl,if_false]
      rfl
    cases b with
    | none =>
      have hctl : ¬i.ctl.starts i.below := fun h => hb1.mpr h rfl
      cases b' with
      | none =>
        have hno : ¬i.Built := fun h => h.2.2.2.1.elim hctl fun h => hb2.mpr h rfl
        refine iff_of_true (fun err c' h => ?_) ⟨fun h => absurd h hno,fun h => absurd h hno⟩
        obtain ⟨rfl,rfl⟩ := Prod.mk.inj (Option.some.inj (hsend.symm.trans h))
        exact ⟨fun h => absurd h (by decide),hg,ht⟩
      | some a =>
        by_cases hp : i.arg.hipri = true
        · have hno : ¬i.Built := fun h => hctl (h.2.2.2.2 hp)
          refine iff_of_true (fun err c' h => ?_) ⟨fun h => absurd h hno,fun h => absurd h hno⟩
          have hm : i.arg.hipri = true ∧ M_DATA ≠ M_PROTO := ⟨hp,by decide⟩
          obtain ⟨rfl,rfl⟩ := Prod.mk.inj (Option.some.inj ((hsend.trans (if_pos hm)).symm.trans h))
          exact ⟨fun h => absurd h (by decide),hg,ht.lisFreemsg⟩
        · have hbuilt : i.Built := ⟨hb,hs.1,hs.2,Or.inr (hb2.mp (Option.some_ne_none _)),fun h => absurd h hp⟩
          have hloop := hsend.trans (if_neg fun h => hp h.1)
          rw [if_neg hp] at hloop
          rw [hloop,forall_prop_of_true hbuilt,forall_prop_of_true hbuilt]
          let m : Smsg := ⟨M_DATA,0,[a]⟩
          refine (@loop_right_iff i { c with ledger := t, store := some (m,i.arg.offset.toInt) } m _ _ hg ht
            (List.cons_ne_nil _ _) rfl i.turns).trans ?_
          refine and_congr_right fun _ => imp_congr_right fun _ => iff_of_false ?_ fun h => hctl h.1
          have h0 : ¬M_DATA = M_PROTO := by decide
          have h1 : ¬M_DATA = M_PCPROTO := by decide
          exact fun h => h.1.elim h0 h1
    | some a =>
      have hctl : i.ctl.starts i.below := hb1.mp (Option.some_ne_none _)
      have hbuilt : i.Built := ⟨hb,hs.1,hs.2,Or.inl hctl,fun _ => hctl⟩
      have hloop := hsend.trans (if_neg fun h => h.2 rfl)
      rw [hloop,forall_prop_of_true hbuilt,forall_prop_of_true hbuilt]
      let m : Smsg := if i.arg.hipri then ⟨M_PCPROTO,0,a :: b'.toList⟩ else ⟨M_PROTO,0,a :: b'.toList⟩
      have hblocks : m.blocks = a :: b'.toList := apply_ite Smsg.blocks _ _ _ |>.trans (ite_self _)
      have htype : m.btype = M_PROTO ∨ m.btype = M_PCPROTO := by
        rw [show m.btype = if i.arg.hipri then M_PCPROTO else M_PROTO from apply_ite Smsg.btype _ _ _]
        split_ifs
        · exact Or.inr rfl
        · exact Or.inl rfl
      refine (@loop_right_iff i { c with ledger := t, store := some (m,i.arg.offset.toInt) } m _ _ hg ?_ ?_ rfl
        i.turns).trans ?_
      · rw [hblocks]
        exact ht
      · rw [hblocks]
        exact List.cons_ne_nil _ _
      · refine and_congr_right fun _ => imp_congr_right fun _ => ?_
        rw [Inside,and_iff_right htype,and_iff_right hb.offset_nonneg,and_iff_right hctl]
  · have hno : ¬i.Built := fun h => hs ⟨h.2.1,h.2.2.1⟩
    obtain ⟨err,msg,t,lost,hc,ht,hnone,hlost⟩ := copyinMsg_spec hl i.below (some i.ctl) (some i.dat)
    have he : err < 0 := by
      have h := copyinMsg_fails c.ledger hs
      rwa [hc] at h
    obtain rfl := hnone he
    have heq : i.sendMsg c = some (err,{ c with ledger := t.lisFreemsg [] }) := by
      simp only [sendMsg,hc,if_pos he]
      rfl
    have hlost : lost = [] ↔ (i.ctl.sound i.below → ¬i.dat.loses i.below) := by
      rw [hlost,imp_iff_not_or]
      simp only [Option.mem_def,Option.some.injEq,exists_eq_left',forall_eq']
    rw [and_iff_left ⟨fun h => absurd h hno,fun h => absurd h hno⟩,← hlost]
    have ht : (t.lisFreemsg []).Held lost := ht.lisFreemsg
    constructor
    · exact fun h => ht.balanced_iff.mp (h err _ heq).once
    · intro h err' c' h'
      obtain ⟨rfl,rfl⟩ := Prod.mk.inj (Option.some.inj (heq.symm.trans h'))
      exact ⟨fun h => absurd he (not_lt.mpr h),hg,ht.balanced_iff.mpr h⟩

theorem init_right {err : ℤ} (he : err < 0) (hg : c.puts = c.gets) (hl : c.ledger = Ledger.init) : i.Right err c :=
  ⟨fun h => absurd h (not_le.mpr he),hg,hl ▸ List.Perm.refl _⟩

/- The call does what is asked of it when its inputs are harmless, and only then. -/
theorem fdinsert_right_iff (i : Fdreq) :
    (∀ err c, i.iFdinsert = some (err,c) → i.Right err c) ↔ i.Harmless := by
  -- an exit before the message is begun
  have hexit {err : ℤ} {c : Fdcall} (he : err < 0) (hg : c.puts = c.gets) (hl : c.ledger = Ledger.init)
      (hr : i.iFdinsert = some (err,c)) (hno : ¬i.Begun)
      (hp : i.Checked → ∀ ihd ∈ i.fd2str, ihd.strderr = false → ihd.stwrerr = false → ihd.stplex = false) :
      (∀ err c, i.iFdinsert = some (err,c) → i.Right err c) ↔ i.Harmless := by
    refine iff_of_true (fun err' c' h => ?_) ⟨hp,fun h => absurd h hno,fun h => absurd h.1 hno,fun h => absurd h.1 hno⟩
    obtain ⟨rfl,rfl⟩ := Prod.mk.inj (Option.some.inj (hr.symm.trans h))
    exact init_right he hg hl
  have hstop {err : ℤ} (he : err < 0) (hr : i.iFdinsert = some (err,Fdcall.init)) (hno : ¬i.Checked) :
      (∀ err c, i.iFdinsert = some (err,c) → i.Right err c) ↔ i.Harmless :=
    hexit he rfl rfl hr (fun h => hno h.1) fun h => absurd h hno
  by_cases h1 : i.strderr = true ∨ i.stwrerr = true
  · refine hstop (by decide) (if_pos h1) fun h => ?_
    rw [h.1,h.2.1] at h1
    exact h1.elim Bool.noConfusion Bool.noConfusion
  by_cases h2 : i.below = none
  · exact hstop (by decide) ((if_neg h1).trans (if_pos h2)) fun h => h.2.2.1 h2
  by_cases h3 : i.umem < 0
  · exact hstop h3 ((if_neg h1).trans ((if_neg h2).trans (if_pos h3))) fun h => not_lt.mpr h.2.2.2.1 h3
  by_cases h4 : i.copyin < 0
  · refine hstop h4 ?_ fun h => not_lt.mpr h.2.2.2.2.1 h4
    exact (if_neg h1).trans ((if_neg h2).trans ((if_neg h3).trans (if_pos h4)))
  by_cases h5 : i.arg.insane = true
  · refine @hstop (-EINVAL) (by decide) ?_ fun h => Bool.noConfusion (h5.symm.trans h.2.2.2.2.2)
    exact (if_neg h1).trans ((if_neg h2).trans ((if_neg h3).trans ((if_neg h4).trans (if_pos h5))))
  have hch : i.Checked := by
    obtain ⟨he1,he2⟩ := not_or.mp h1
    exact ⟨eq_false_of_ne_true he1,eq_false_of_ne_true he2,h2,not_lt.mp h3,not_lt.mp h4,eq_false_of_ne_true h5⟩
  have hcall : i.iFdinsert = _ :=
    (if_neg h1).trans ((if_neg h2).trans ((if_neg h3).trans ((if_neg h4).trans (if_neg h5))))
  cases hfd : i.fd2str with
  | none =>
    simp only [hfd] at hcall
    refine hexit (by decide) rfl rfl hcall (fun h => ?_) fun _ ihd h => ?_
    · obtain ⟨-,-,ihd,h,-⟩ := h
      exact absurd (h.symm.trans hfd) (Option.some_ne_none _)
    · exact absurd (h.symm.trans hfd) (Option.some_ne_none _)
  | some ihd =>
    simp only [hfd] at hcall
    have hsame {ihd' : Ihd} (h : ihd' ∈ i.fd2str) : ihd' = ihd := Option.some.inj (h.symm.trans hfd)
    by_cases e1 : ihd.strderr = true ∨ ihd.stwrerr = true
    · refine hexit (by decide) rfl rfl (hcall.trans (if_pos e1)) (fun h => ?_) fun _ ihd' h hd hw => ?_
      · obtain ⟨-,-,ihd',h,hd,hw,-⟩ := h
        rw [← hsame h,hd,hw] at e1
        exact e1.elim Bool.noConfusion Bool.noConfusion
      · rw [← hsame h,hd,hw] at e1
        exact e1.elim Bool.noConfusion Bool.noConfusion
    obtain ⟨hd,hw⟩ := not_or.mp e1
    have hd := eq_false_of_ne_true hd
    have hw := eq_false_of_ne_true hw
    by_cases e2 : ihd.stplex = true
    · -- the reference is left behind
      refine iff_of_false (fun h => ?_) fun h => Bool.noConfusion (e2.symm.trans (h.plexed hch ihd hfd hd hw))
      exact absurd (h _ _ (hcall.trans ((if_neg e1).trans (if_pos e2)))).dropped (by decide)
    have hp : i.Checked → ∀ ihd ∈ i.fd2str, ihd.strderr = false → ihd.stwrerr = false → ihd.stplex = false :=
      fun _ ihd' h _ _ => hsame h ▸ eq_false_of_ne_true e2
    by_cases e3 : i.badSize
    · exact hexit (by decide) rfl rfl (hcall.trans ((if_neg e1).trans ((if_neg e2).trans (if_pos e3))))
        (fun h => h.2.1 e3) hp
    by_cases e4 : driverQueue ihd.queues = false
    · refine @hexit (-EINVAL) _ (by decide) rfl rfl
        (hcall.trans ((if_neg e1).trans ((if_neg e2).trans ((if_neg e3).trans (if_pos e4))))) (fun h => ?_) hp
      obtain ⟨-,-,ihd',h,-,-,-,hq⟩ := h
      rw [hsame h,e4] at hq
      exact Bool.noConfusion hq
    have hb : i.Begun := ⟨hch,e3,ihd,hfd,hd,hw,eq_false_of_ne_true e2,eq_true_of_ne_false e4⟩
    rw [hcall.trans ((if_neg e1).trans ((if_neg e2).trans ((if_neg e3).trans (if_neg e4))))]
    have hl : Ledger.init.Balanced := List.Perm.refl _
    refine (@send_right_iff i Fdcall.init.lisHeadGet.lisHeadPut hb rfl hl).trans ⟨fun h => ?_,fun h => ?_⟩
    · exact ⟨hp,fun _ => h.1,h.2.1,h.2.2⟩
    · exact ⟨h.copied hb,h.locked,h.inside⟩

/- A control part of −1 bytes and one byte of data, the pointer at 64. -/
def shortCall : Fdreq :=
  ⟨false,false,0,INFPSZ,0,0,⟨-1,1,0,3,64⟩,some ⟨false,false,false,[⟨true,false⟩]⟩,some (0,INFPSZ),
    ⟨0,0,-1,true,false,true,0,0⟩,⟨0,0,1,true,false,true,0,0⟩,[.couldput]⟩

/- The length passes the check, there is no control part, and the pointer is stored behind the byte of data. -/
theorem stored_outside : ¬ ∀ (i : Fdreq) (err : ℤ) (c : Fdcall), i.iFdinsert = some (err,c) → i.Right err c := by
  intro h
  have hr : shortCall.iFdinsert = some (0,⟨1,1,⟨1,[],[0]⟩,some (⟨M_DATA,0,[0]⟩,64)⟩) := by decide
  obtain ⟨m,off,-,-,h0,h8⟩ := (h _ _ _ hr).inside le_rfl
  exact absurd (h0.trans (le_add_of_nonneg_right (by decide))) (not_le.mpr (lt_of_le_of_lt h8 (by decide)))

end Fdreq

end CSLiS.Write
