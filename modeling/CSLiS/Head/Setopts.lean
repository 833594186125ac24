import CSLiS.Head.Service
import CSLiS.Queue.WaterMarks

/-!
# The options of a stream head (head/head.c)

`set_options` with all of the block and the flags in the bits of `sd_flag`. The read queue is that of
`lis_strqset`, with its chain of band structures; an allocation that `find_qband` makes may fail.
-/

namespace CSLiS.Head.Setopts
open Queue Lib.Split

/-- `stroptions_t` (`strmsg.h:279-289`) -/
structure Stroptions where
  soFlags : BitVec 64
  soReadopt : BitVec 16
  soWroff : BitVec 16
  soMinpsz : BitVec 64
  soMaxpsz : BitVec 64
  soHiwat : Ulong
  soLowat : Ulong
  soBand : Uchar

def SO_READOPT : BitVec 64 := 0x0001
def SO_WROFF : BitVec 64 := 0x0002
def SO_MINPSZ : BitVec 64 := 0x0004
def SO_MAXPSZ : BitVec 64 := 0x0008
def SO_HIWAT : BitVec 64 := 0x0010
def SO_LOWAT : BitVec 64 := 0x0020
def SO_MREADON : BitVec 64 := 0x0040
def SO_MREADOFF : BitVec 64 := 0x0080
def SO_NDELON : BitVec 64 := 0x0100
def SO_NDELOFF : BitVec 64 := 0x0200
def SO_ISTTY : BitVec 64 := 0x0400
def SO_ISNTTY : BitVec 64 := 0x0800
def SO_TOSTOP : BitVec 64 := 0x1000
def SO_TONSTOP : BitVec 64 := 0x2000
def SO_BAND : BitVec 64 := 0x4000
def SO_DELIM : BitVec 64 := 0x8000
def SO_NODELIM : BitVec 64 := 0x010000
def SO_STRHOLD : BitVec 64 := 0x020000

def STRHOLD : BitVec 64 := 0x00000040
def STRISTTY : BitVec 64 := 0x00002000
def STRTOSTOP : BitVec 64 := 0x00004000
def SNDMREAD : BitVec 64 := 0x00100000
def OLDNDELAY : BitVec 64 := 0x00200000
def STRDELIM : BitVec 64 := 0x00400000

/-- `F_ISSET` (`share.h:76`) -/
def fIsset (f v : BitVec 64) : Bool := f &&& v != 0

/- What `set_options` reads and writes of the stream head. -/
structure Stdata where
  sdFlag : BitVec 64
  sdRdopt : BitVec 32
  sdWroff : BitVec 16
  sdRq : FieldQueue

/- SET_SD_FLAG for the one bit and CLR_SD_FLAG for the other. -/
def turn (so : Stroptions) (on off msk f : BitVec 64) : BitVec 64 :=
  let f := if fIsset so.soFlags on then f ||| msk else f
  if fIsset so.soFlags off then f &&& ~~~msk else f

/-- `head.c:2605-2615` -/
def setFlags (so : Stroptions) (f : BitVec 64) : BitVec 64 :=
  let f := turn so SO_MREADON SO_MREADOFF SNDMREAD f
  let f := turn so SO_NDELON SO_NDELOFF OLDNDELAY f
  let f := turn so SO_ISTTY SO_ISNTTY STRISTTY f
  let f := turn so SO_TOSTOP SO_TONSTOP STRTOSTOP f
  let f := turn so SO_STRHOLD 0 STRHOLD f
  turn so SO_DELIM SO_NODELIM STRDELIM f

/-- `head.c:2627-2644`; the outcome of LIS_QBAND_ALLOC for each field. -/
def setMarks (alloc : Qfield → Bool) (so : Stroptions) (q : FieldQueue) : FieldQueue :=
  if fIsset so.soFlags SO_BAND then
    let q := if fIsset so.soFlags SO_HIWAT then (q.lisStrqset (alloc .qhiwat) .qhiwat so.soBand so.soHiwat).1 else q
    if fIsset so.soFlags SO_LOWAT then (q.lisStrqset (alloc .qlowat) .qlowat so.soBand so.soLowat).1 else q
  else
    let c := q.q.core
    let c := if fIsset so.soFlags SO_HIWAT then { c with qHiwat := so.soHiwat } else c
    let c := if fIsset so.soFlags SO_LOWAT then { c with qLowat := so.soLowat } else c
    { q with q := { q.q with core := c } }

/-- `head.c:2600-2645`. `set_readopt` is given `so_flags`, as an `int`. -/
def setOptions (alloc : Qfield → Bool) (hd : Stdata) (so : Stroptions) : Stdata :=
  { sdFlag := setFlags so hd.sdFlag
    sdRdopt := if fIsset so.soFlags SO_READOPT then setReadopt hd.sdRdopt (so.soFlags.setWidth 32) else hd.sdRdopt
    sdWroff := if fIsset so.soFlags SO_WROFF then so.soWroff else hd.sdWroff
    sdRq := setMarks alloc so { hd.sdRq with
      qMinpsz := if fIsset so.soFlags SO_MINPSZ then so.soMinpsz else hd.sdRq.qMinpsz
      qMaxpsz := if fIsset so.soFlags SO_MAXPSZ then so.soMaxpsz else hd.sdRq.qMaxpsz } }

/-! ### What a block of options asks for -/

/- The flags of the head with what sets and what clears each. -/
def switches : List (BitVec 64 × BitVec 64 × BitVec 64) :=
  [(SNDMREAD,SO_MREADON,SO_MREADOFF),(OLDNDELAY,SO_NDELON,SO_NDELOFF),(STRISTTY,SO_ISTTY,SO_ISNTTY),
    (STRTOSTOP,SO_TOSTOP,SO_TONSTOP),(STRHOLD,SO_STRHOLD,0),(STRDELIM,SO_DELIM,SO_NODELIM)]

/- A block that sets and clears a flag leaves it open which it is. -/
structure Switched (on off old new : Bool) : Prop where
  sets : on = true → off = false → new = true
  clears : off = true → on = false → new = false
  keeps : on = false → off = false → new = old

/- A read option with one of the three modes, and one of the three ways with protocol messages or none. -/
def ValidReadopt (v : BitVec 32) : Prop :=
  v &&& RMODEMASK ≠ RMODEMASK ∧
    (v &&& RPROTMASK = 0 ∨ v &&& RPROTMASK = RPROTNORM ∨ v &&& RPROTMASK = RPROTDAT ∨ v &&& RPROTMASK = RPROTDIS)

instance (v : BitVec 32) : Decidable (ValidReadopt v) := inferInstanceAs (Decidable (_ ∧ _))

/- The mode and the way with protocol messages that `v` asks for. -/
def readMode (old v : BitVec 32) : BitVec 32 := (if ValidReadopt v then v else old) &&& RMODEMASK
def readProt (old v : BitVec 32) : BitVec 32 :=
  (if ValidReadopt v ∧ v &&& RPROTMASK ≠ 0 then v else old) &&& RPROTMASK

/- The structure of a band, and the marks that `lis_strqget` finds for it. -/
def own (c : Core Msg) (b : Uchar) : Option (Qband Msg) := c.qBandp.find? fun qp => qp.isBand Msg.info b
def hiwat (c : Core Msg) (b : Uchar) : Ulong := ((own c b).map Qband.qbHiwat).getD c.qHiwat
def lowat (c : Core Msg) (b : Uchar) : Ulong := ((own c b).map Qband.qbLowat).getD c.qLowat

/- A water mark is meant for the band `b`. -/
def names (so : Stroptions) (what : BitVec 64) (b : Uchar) : Bool :=
  fIsset so.soFlags what && decide ((if fIsset so.soFlags SO_BAND then so.soBand else 0) = b)

/- Each option that the block names has its value, and the others are what they were. -/
structure Honoured (so : Stroptions) (s t : Stdata) : Prop where
  switch : ∀ x ∈ switches, Switched (fIsset so.soFlags x.2.1) (fIsset so.soFlags x.2.2) (fIsset s.sdFlag x.1)
    (fIsset t.sdFlag x.1)
  flag : ∀ i, (∀ x ∈ switches, x.1.getLsbD i = false) → t.sdFlag.getLsbD i = s.sdFlag.getLsbD i
  mode : t.sdRdopt &&& RMODEMASK = if fIsset so.soFlags SO_READOPT then
    readMode s.sdRdopt (so.soReadopt.signExtend 32) else s.sdRdopt &&& RMODEMASK
  prot : t.sdRdopt &&& RPROTMASK = if fIsset so.soFlags SO_READOPT then
    readProt s.sdRdopt (so.soReadopt.signExtend 32) else s.sdRdopt &&& RPROTMASK
  wroff : t.sdWroff = if fIsset so.soFlags SO_WROFF then so.soWroff else s.sdWroff
  minpsz : t.sdRq.qMinpsz = if fIsset so.soFlags SO_MINPSZ then so.soMinpsz else s.sdRq.qMinpsz
  maxpsz : t.sdRq.qMaxpsz = if fIsset so.soFlags SO_MAXPSZ then so.soMaxpsz else s.sdRq.qMaxpsz
  qHiwat : t.sdRq.q.core.qHiwat = if names so SO_HIWAT 0 then so.soHiwat else s.sdRq.q.core.qHiwat
  qLowat : t.sdRq.q.core.qLowat = if names so SO_LOWAT 0 then so.soLowat else s.sdRq.q.core.qLowat
  bandHiwat : ∀ b, b ≠ 0 → if names so SO_HIWAT b then hiwat t.sdRq.q.core b = so.soHiwat
    else (own t.sdRq.q.core b).map Qband.qbHiwat = (own s.sdRq.q.core b).map Qband.qbHiwat
  bandLowat : ∀ b, b ≠ 0 → if names so SO_LOWAT b then lowat t.sdRq.q.core b = so.soLowat
    else (own t.sdRq.q.core b).map Qband.qbLowat = (own s.sdRq.q.core b).map Qband.qbLowat

/-! ### Flags -/

theorem turn_bit (so : Stroptions) (on off msk f : BitVec 64) (i : ℕ) :
    (turn so on off msk f).getLsbD i =
      if msk.getLsbD i then (fIsset so.soFlags on || f.getLsbD i) && !fIsset so.soFlags off else f.getLsbD i := by
  by_cases hi : i < 64
  · rw [turn]
    cases hm : msk.getLsbD i <;> cases fIsset so.soFlags on <;> cases fIsset so.soFlags off <;>
      simp only [Bool.false_eq_true,if_false,if_true,BitVec.getLsbD_and,BitVec.getLsbD_or,BitVec.getLsbD_not,hm] <;>
      simp [hi]
  · simp [BitVec.getLsbD_of_ge _ i (Nat.le_of_not_lt hi)]

theorem fIsset_bit (f : BitVec 64) {k : ℕ} {m : BitVec 64} (hm : m = BitVec.twoPow 64 k) (hk : k < 64) :
    fIsset f m = f.getLsbD k := by
  subst hm
  rw [fIsset,BitVec.and_twoPow]
  cases f.getLsbD k with
  | false => rfl
  | true =>
    have hne : BitVec.twoPow 64 k ≠ 0 := fun hc => by
      have := congrArg (fun v => BitVec.getLsbD v k) hc
      simp [hk] at this
    simpa using hne

theorem setFlags_switched (so : Stroptions) (f : BitVec 64) : ∀ x ∈ switches,
    Switched (fIsset so.soFlags x.2.1) (fIsset so.soFlags x.2.2) (fIsset f x.1) (fIsset (setFlags so f) x.1) := by
  have hbits : ∀ f, fIsset f SNDMREAD = f.getLsbD 20 ∧ fIsset f OLDNDELAY = f.getLsbD 21 ∧
      fIsset f STRISTTY = f.getLsbD 13 ∧ fIsset f STRTOSTOP = f.getLsbD 14 ∧ fIsset f STRHOLD = f.getLsbD 6 ∧
      fIsset f STRDELIM = f.getLsbD 22 := fun f =>
    ⟨fIsset_bit f (by decide) (by decide),fIsset_bit f (by decide) (by decide),fIsset_bit f (by decide) (by decide),
      fIsset_bit f (by decide) (by decide),fIsset_bit f (by decide) (by decide),fIsset_bit f (by decide) (by decide)⟩
  obtain ⟨h1,h2,h3,h4,h5,h6⟩ := hbits f
  obtain ⟨g1,g2,g3,g4,g5,g6⟩ := hbits (setFlags so f)
  have hlast : ∀ on off old : Bool, Switched on off old ((on || old) && !off) := by
    intro on off old
    constructor <;> cases on <;> cases off <;> simp
  simp only [switches,List.forall_mem_cons,List.not_mem_nil,false_imp_iff,implies_true,and_true,h1,h2,h3,h4,h5,h6]
  rw [g1,g2,g3,g4,g5,g6]
  simp only [setFlags,turn_bit]
  exact ⟨hlast ..,hlast ..,hlast ..,hlast ..,hlast ..,hlast ..⟩

theorem setFlags_other (so : Stroptions) (f : BitVec 64) (i : ℕ) (hi : ∀ x ∈ switches, x.1.getLsbD i = false) :
    (setFlags so f).getLsbD i = f.getLsbD i := by
  simp only [switches,List.forall_mem_cons] at hi
  obtain ⟨h1,h2,h3,h4,h5,h6,-⟩ := hi
  simp [setFlags,turn_bit,h1,h2,h3,h4,h5,h6]

/-! ### The read option -/

/- What a field of bits is after it was set, and after another was. -/
theorem set_same (old v m : BitVec 32) : ((old &&& ~~~m) ||| (v &&& m)) &&& m = v &&& m := by
  refine BitVec.eq_of_getLsbD_eq fun i hi => ?_
  simp only [BitVec.getLsbD_and,BitVec.getLsbD_or,BitVec.getLsbD_not,hi,decide_true,Bool.true_and]
  cases m.getLsbD i <;> simp

theorem set_other (old v : BitVec 32) {m p : BitVec 32} (h : m &&& p = 0) :
    ((old &&& ~~~p) ||| (v &&& p)) &&& m = old &&& m := by
  refine BitVec.eq_of_getLsbD_eq fun i hi => ?_
  have hz : (m.getLsbD i && p.getLsbD i) = false := by
    rw [← BitVec.getLsbD_and,h]
    exact BitVec.getLsbD_zero
  simp only [BitVec.getLsbD_and,BitVec.getLsbD_or,BitVec.getLsbD_not,hi,decide_true,Bool.true_and]
  cases hm : m.getLsbD i <;> cases hp : p.getLsbD i <;> simp_all

theorem disjoint_masks : RMODEMASK &&& RPROTMASK = 0 ∧ RPROTMASK &&& RMODEMASK = 0 := by decide

theorem setReadopt_cases (old v : BitVec 32) :
    (¬ ValidReadopt v ∧ setReadopt old v = old) ∨
    (ValidReadopt v ∧ v &&& RPROTMASK = 0 ∧ setReadopt old v = (old &&& ~~~RMODEMASK) ||| (v &&& RMODEMASK)) ∨
    (ValidReadopt v ∧ v &&& RPROTMASK ≠ 0 ∧
      setReadopt old v = ((old &&& ~~~RMODEMASK ||| v &&& RMODEMASK) &&& ~~~RPROTMASK) ||| (v &&& RPROTMASK)) := by
  have hne : RPROTNORM ≠ 0 ∧ RPROTDAT ≠ 0 ∧ RPROTDIS ≠ 0 := by decide
  unfold setReadopt ValidReadopt
  dsimp only
  by_cases hm : v &&& RMODEMASK = RMODEMASK
  · exact Or.inl ⟨fun h => h.1 hm,if_pos hm⟩
  rw [if_neg hm]
  by_cases hp : v &&& RPROTMASK = RPROTNORM ∨ v &&& RPROTMASK = RPROTDAT ∨ v &&& RPROTMASK = RPROTDIS
  · refine Or.inr (Or.inr ⟨⟨hm,Or.inr hp⟩,fun hz => ?_,if_pos hp⟩)
    rcases hp with hp | hp | hp
    · exact hne.1 (hp.symm.trans hz)
    · exact hne.2.1 (hp.symm.trans hz)
    · exact hne.2.2 (hp.symm.trans hz)
  rw [if_neg hp]
  by_cases hz : v &&& RPROTMASK = 0
  · exact Or.inr (Or.inl ⟨⟨hm,Or.inl hz⟩,hz,if_pos hz⟩)
  · exact Or.inl ⟨fun h => h.2.elim hz hp,if_neg hz⟩

theorem setReadopt_mode (old v : BitVec 32) : setReadopt old v &&& RMODEMASK = readMode old v := by
  rw [readMode]
  rcases setReadopt_cases old v with ⟨hv,he⟩ | ⟨hv,-,he⟩ | ⟨hv,-,he⟩
  · rw [he,if_neg hv]
  · rw [he,if_pos hv,set_same]
  · rw [he,if_pos hv,set_other _ _ disjoint_masks.1,set_same]

theorem setReadopt_prot (old v : BitVec 32) : setReadopt old v &&& RPROTMASK = readProt old v := by
  rw [readProt]
  rcases setReadopt_cases old v with ⟨hv,he⟩ | ⟨-,hp,he⟩ | ⟨hv,hp,he⟩
  · rw [he,if_neg fun h => hv h.1]
  · rw [he,if_neg fun h => h.2 hp,set_other _ _ disjoint_masks.2]
  · rw [he,if_pos ⟨hv,hp⟩,set_same]

/-! ### Water marks -/

section Marks
variable {s : FieldQueue} {c : Core Msg} {b b' : Uchar} {z : BandAt Msg} {alloc : Bool} {qp : Qband Msg}
  {pre post l : List (Qband Msg)}

theorem find_unmarked {p : Qband Msg → Bool} (h : p qp = false) :
    (pre ++ qp :: post).find? p = (pre ++ post).find? p := by
  rw [List.find?_append,List.find?_append,List.find?_cons_of_neg (by simp [h])]

/- The structure found is given other marks: the bands have the structures they had. -/
theorem own_found (hz : findQband Msg.info alloc c b = some z) {f : Qband Msg → Qband Msg}
    (hf : ∀ qp, (f qp).qbFirst = qp.qbFirst) {c' : Core Msg} (hc : c'.qBandp = z.pre ++ f z.qp :: z.post) :
    own c' b' = if b' = b then (own c b).map f else own c b' := by
  have hband : ∀ qp b, (f qp).isBand Msg.info b = qp.isBand Msg.info b := fun qp b => by
    unfold Qband.isBand
    rw [hf]
  -- a structure that serves no band before and after
  have hfree : (∀ qp ∈ c.qBandp, qp.isBand Msg.info b = false) → z.qp.qbFirst = none →
      (∀ b', own c b' = (z.pre ++ z.post).find? fun qp => qp.isBand Msg.info b') →
      own c' b' = if b' = b then (own c b).map f else own c b' := by
    intro hn hq hown
    have hb : own c b = none := List.find?_eq_none.mpr fun qp hqp => by simp [hn qp hqp]
    have hc' : own c' b' = own c b' := by
      rw [own,hc,hown b']
      exact find_unmarked ((hband ..).trans (by simp [Qband.isBand,hq]))
    rw [hc']
    split_ifs with he
    · rw [he,hb]
      rfl
    · rfl
  unfold findQband at hz
  split at hz
  · next y hy =>
    obtain rfl := Option.some.inj hz
    obtain ⟨hsplit,hp,hpre⟩ := splitFirst_some hy
    rw [own,hc]
    split_ifs with he
    · subst he
      have hfirst : ∀ x, x.isBand Msg.info b' = true →
          (y.1 ++ x :: y.2.2).find? (fun qp => qp.isBand Msg.info b') = some x := fun x hx => by
        rw [List.find?_append,List.find?_eq_none.mpr fun w hw => by simp [hpre w hw],List.find?_cons_of_pos hx]
        rfl
      rw [own,hsplit,hfirst y.2.1 hp,hfirst (f y.2.1) ((hband ..).trans hp)]
      rfl
    · have hne : y.2.1.isBand Msg.info b' = false := Bool.eq_false_iff.mpr fun hc => he (Marked.isBand_one hp hc)
      rw [own,hsplit,find_unmarked hne]
      exact find_unmarked ((hband ..).trans hne)
  · next hn =>
    have hn := splitFirst_none.mp hn
    split at hz
    · next y hy =>
      obtain rfl := Option.some.inj hz
      obtain ⟨hsplit,hp,-⟩ := splitFirst_some hy
      have hfirst : y.2.1.qbFirst = none := Option.isNone_iff_eq_none.mp hp
      refine hfree hn hfirst fun b' => ?_
      rw [own,hsplit]
      exact find_unmarked (by simp [Qband.isBand,hfirst])
    · split_ifs at hz
      obtain rfl := Option.some.inj hz
      exact hfree hn rfl fun b' => rfl

/- A water mark of a queue: its place in the queue and in a structure, and the field of `lis_strqset`. -/
def setMark (what : Qfield) (val : Ulong) (qp : Qband Msg) : Qband Msg :=
  if what = .qhiwat then { qp with qbHiwat := val } else { qp with qbLowat := val }

theorem setMark_qhiwat (val : Ulong) : setMark .qhiwat val = fun qp => { qp with qbHiwat := val } := rfl
theorem setMark_qlowat (val : Ulong) : setMark .qlowat val = fun qp => { qp with qbLowat := val } := rfl

theorem strqset_band (s : FieldQueue) (alloc : Bool) (hb : b ≠ 0) (val : Ulong) {what : Qfield}
    (hw : what = .qhiwat ∨ what = .qlowat) (b' : Uchar) :
    own (s.lisStrqset alloc what b val).1.q.core b' =
      if b' = b then (own s.q.core b).map (setMark what val) else own s.q.core b' := by
  have hnone : findQband Msg.info alloc s.q.core b = none → own s.q.core b = none := fun hn => by
    refine List.find?_eq_none.mpr fun qp hqp hc => ?_
    unfold findQband at hn
    split at hn
    · cases hn
    · next hn' => rw [splitFirst_none.mp hn' qp hqp] at hc; cases hc
  unfold FieldQueue.lisStrqset
  rw [if_pos hb]
  cases hz : findQband Msg.info alloc s.q.core b with
  | none =>
    dsimp only
    split_ifs with he
    · rw [he,hnone hz]
      rfl
    · rfl
  | some z =>
    rcases hw with rfl | rfl
    · exact own_found (f := setMark .qhiwat val) hz (fun _ => rfl) rfl
    · exact own_found (f := setMark .qlowat val) hz (fun _ => rfl) rfl

theorem strqset_queue (s : FieldQueue) (alloc : Bool) (hb : b ≠ 0) (val : Ulong) (what : Qfield) :
    let t := (s.lisStrqset alloc what b val).1
    t.q.core.qHiwat = s.q.core.qHiwat ∧ t.q.core.qLowat = s.q.core.qLowat ∧ t.qMinpsz = s.qMinpsz ∧
      t.qMaxpsz = s.qMaxpsz := by
  unfold FieldQueue.lisStrqset
  rw [if_pos hb]
  cases findQband Msg.info alloc s.q.core b with
  | none => exact ⟨rfl,rfl,rfl,rfl⟩
  | some z => cases what <;> exact ⟨rfl,rfl,rfl,rfl⟩

/- The marks of the structure of a band that the block sets. -/
def marked (so : Stroptions) (b : Uchar) (qp : Qband Msg) : Qband Msg :=
  { qp with
    qbHiwat := if names so SO_HIWAT b then so.soHiwat else qp.qbHiwat
    qbLowat := if names so SO_LOWAT b then so.soLowat else qp.qbLowat }

theorem setMarks_own (allocs : Qfield → Bool) (so : Stroptions) (q : FieldQueue) (hb : b ≠ 0) :
    own (setMarks allocs so q).q.core b = (own q.q.core b).map (marked so b) := by
  have hkeep : ∀ x : Option (Qband Msg), x = x.map fun qp => qp := fun x => by cases x <;> rfl
  unfold setMarks
  cases hband : fIsset so.soFlags SO_BAND with
  | false =>
    have hm : marked so b = fun qp => qp := by
      funext qp
      simp [marked,names,hband,hb.symm]
    rw [hm]
    simp only [Bool.false_eq_true,if_false]
    split_ifs <;> exact hkeep _
  | true =>
    simp only [if_true]
    by_cases h0 : so.soBand = 0
    · have hm : marked so b = fun qp => qp := by
        funext qp
        simp [marked,names,hband,h0,hb.symm]
      rw [hm,h0]
      split_ifs <;> exact hkeep _
    · by_cases he : b = so.soBand
      · subst he
        have hm : marked so so.soBand = fun qp => { qp with
            qbHiwat := if fIsset so.soFlags SO_HIWAT then so.soHiwat else qp.qbHiwat
            qbLowat := if fIsset so.soFlags SO_LOWAT then so.soLowat else qp.qbLowat } := by
          funext qp
          simp [marked,names,hband]
        rw [hm]
        cases fIsset so.soFlags SO_HIWAT <;> cases fIsset so.soFlags SO_LOWAT <;>
          simp [strqset_band,h0,setMark_qhiwat,setMark_qlowat,Function.comp_def]
      · have hm : marked so b = fun qp => qp := by
          funext qp
          simp [marked,names,hband,Ne.symm he]
        rw [hm]
        cases fIsset so.soFlags SO_HIWAT <;> cases fIsset so.soFlags SO_LOWAT <;>
          simp [strqset_band,h0,he]

theorem setMarks_queue (allocs : Qfield → Bool) (so : Stroptions) (q : FieldQueue) :
    (setMarks allocs so q).q.core.qHiwat = (if names so SO_HIWAT 0 then so.soHiwat else q.q.core.qHiwat) ∧
    (setMarks allocs so q).q.core.qLowat = (if names so SO_LOWAT 0 then so.soLowat else q.q.core.qLowat) ∧
    (setMarks allocs so q).qMinpsz = q.qMinpsz ∧ (setMarks allocs so q).qMaxpsz = q.qMaxpsz := by
  unfold setMarks names
  cases hband : fIsset so.soFlags SO_BAND with
  | false => cases fIsset so.soFlags SO_HIWAT <;> cases fIsset so.soFlags SO_LOWAT <;> simp
  | true =>
    by_cases h0 : so.soBand = 0
    · rw [h0]
      cases fIsset so.soFlags SO_HIWAT <;> cases fIsset so.soFlags SO_LOWAT <;> simp [FieldQueue.lisStrqset]
    · cases fIsset so.soFlags SO_HIWAT <;> cases fIsset so.soFlags SO_LOWAT <;>
        simp [strqset_queue,h0]
end Marks

/-! ### The whole block -/

/- `so_flags`, which is what is looked at, spells the read option that `so_readopt` has. -/
def SameReadopt (old : BitVec 32) (so : Stroptions) : Prop :=
  readMode old (so.soFlags.setWidth 32) = readMode old (so.soReadopt.signExtend 32) ∧
    readProt old (so.soFlags.setWidth 32) = readProt old (so.soReadopt.signExtend 32)

/- The marks of a band last while it has messages; otherwise they are those of the queue. -/
def MarksLast (c : Core Msg) (so : Stroptions) : Prop :=
  (fIsset so.soFlags SO_HIWAT → (own c so.soBand).isSome ∨ so.soHiwat = c.qHiwat) ∧
    (fIsset so.soFlags SO_LOWAT → (own c so.soBand).isSome ∨ so.soLowat = c.qLowat)

theorem names_band {so : Stroptions} {what : BitVec 64} {b : Uchar} (hb : b ≠ 0) :
    names so what b = true ↔ fIsset so.soFlags what = true ∧ fIsset so.soFlags SO_BAND = true ∧ so.soBand = b := by
  cases hband : fIsset so.soFlags SO_BAND <;> simp [names,hband,hb.symm]

/- What `find?` makes of the structure of a band is a mark, or without one that of the queue. -/
theorem mark_iff {o : Option (Qband Msg)} {f : Qband Msg → Ulong} {g : Qband Msg → Qband Msg} {val own : Ulong}
    (hf : ∀ qp, f (g qp) = val) : ((o.map g).map f).getD own = val ↔ o.isSome ∨ val = own := by
  cases o with
  | none => simp [eq_comm]
  | some qp => simp [hf]

theorem honoured_iff (allocs : Qfield → Bool) (hd : Stdata) (so : Stroptions) :
    Honoured so hd (setOptions allocs hd so) ↔
      (fIsset so.soFlags SO_READOPT → SameReadopt hd.sdRdopt so) ∧
        (fIsset so.soFlags SO_BAND → so.soBand ≠ 0 → MarksLast hd.sdRq.q.core so) := by
  obtain ⟨hqh,hql,hmin,hmax⟩ := setMarks_queue allocs so { hd.sdRq with
    qMinpsz := if fIsset so.soFlags SO_MINPSZ then so.soMinpsz else hd.sdRq.qMinpsz
    qMaxpsz := if fIsset so.soFlags SO_MAXPSZ then so.soMaxpsz else hd.sdRq.qMaxpsz }
  have hown := fun b hb => setMarks_own allocs so (b := b) { hd.sdRq with
    qMinpsz := if fIsset so.soFlags SO_MINPSZ then so.soMinpsz else hd.sdRq.qMinpsz
    qMaxpsz := if fIsset so.soFlags SO_MAXPSZ then so.soMaxpsz else hd.sdRq.qMaxpsz } hb
  -- the marks of the band that the block is about
  have hhi : ∀ b, b ≠ 0 → names so SO_HIWAT b = true →
      (hiwat (setOptions allocs hd so).sdRq.q.core b = so.soHiwat ↔
        (own hd.sdRq.q.core b).isSome ∨ so.soHiwat = hd.sdRq.q.core.qHiwat) := by
    intro b hb hn
    have h0 : names so SO_HIWAT 0 = false := by
      obtain ⟨-,hband,hso⟩ := (names_band hb).mp hn
      simp [names,hband,hso,hb]
    simp only [setOptions,hiwat,hown b hb,hqh,h0,Bool.false_eq_true,if_false]
    exact mark_iff fun qp => if_pos hn
  have hlo : ∀ b, b ≠ 0 → names so SO_LOWAT b = true →
      (lowat (setOptions allocs hd so).sdRq.q.core b = so.soLowat ↔
        (own hd.sdRq.q.core b).isSome ∨ so.soLowat = hd.sdRq.q.core.qLowat) := by
    intro b hb hn
    have h0 : names so SO_LOWAT 0 = false := by
      obtain ⟨-,hband,hso⟩ := (names_band hb).mp hn
      simp [names,hband,hso,hb]
    simp only [setOptions,lowat,hown b hb,hql,h0,Bool.false_eq_true,if_false]
    exact mark_iff fun qp => if_pos hn
  constructor
  · intro h
    refine ⟨fun hr => ?_,fun hb h0 => ⟨fun hh => ?_,fun hl => ?_⟩⟩
    · have hmode := h.mode
      have hprot := h.prot
      simp only [setOptions,hr,if_true,setReadopt_mode,setReadopt_prot] at hmode hprot
      exact ⟨hmode,hprot⟩
    · have hn := (names_band h0).mpr ⟨hh,hb,rfl⟩
      have hset := h.bandHiwat so.soBand h0
      rw [if_pos hn] at hset
      exact (hhi _ h0 hn).mp hset
    · have hn := (names_band h0).mpr ⟨hl,hb,rfl⟩
      have hset := h.bandLowat so.soBand h0
      rw [if_pos hn] at hset
      exact (hlo _ h0 hn).mp hset
  · rintro ⟨hread,hmarks⟩
    refine ⟨setFlags_switched so _,setFlags_other so _,?_,?_,rfl,hmin,hmax,hqh,hql,fun b hb => ?_,fun b hb => ?_⟩
    · simp only [setOptions]
      split_ifs with hr
      · exact (setReadopt_mode ..).trans (hread hr).1
      · rfl
    · simp only [setOptions]
      split_ifs with hr
      · exact (setReadopt_prot ..).trans (hread hr).2
      · rfl
    · split_ifs with hn
      · obtain ⟨hh,hband,rfl⟩ := (names_band hb).mp hn
        exact (hhi _ hb hn).mpr ((hmarks hband hb).1 hh)
      · rw [show (setOptions allocs hd so).sdRq = setMarks allocs so _ from rfl,hown b hb,Option.map_map]
        exact congrArg (fun f => Option.map f _) (funext fun qp => if_neg hn)
    · split_ifs with hn
      · obtain ⟨hl,hband,rfl⟩ := (names_band hb).mp hn
        exact (hlo _ hb hn).mpr ((hmarks hband hb).2 hl)
      · rw [show (setOptions allocs hd so).sdRq = setMarks allocs so _ from rfl,hown b hb,Option.map_map]
        exact congrArg (fun f => Option.map f _) (funext fun qp => if_neg hn)

/- Bytes are asked for as a stream, and messages are discarded. -/
theorem readopt_from_flags : ¬ ∀ (allocs : Qfield → Bool) (hd : Stdata) (so : Stroptions),
    Honoured so hd (setOptions allocs hd so) := by
  intro h
  have hmode := (h (fun _ => true) ⟨0,2,0,⟨⟨⟨0,5120,1024,{},[],true⟩,[],[]⟩,0,0⟩⟩ ⟨SO_READOPT,0,0,0,0,0,0,0⟩).mode
  revert hmode
  decide

end CSLiS.Head.Setopts
