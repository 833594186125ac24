import CSLiS.Lib.Exec
import CSLiS.Queue.ListQueue
import CSLiS.Queue.Marks

/-!
# Water marks of the bands (head/queue.c)

`lis_strqget` and `lis_strqset`, and how long the marks of a band last. A structure belongs to a band while its first
message is of that band. It gets the marks of the queue when `find_qband` takes it into use.
-/

namespace CSLiS.Queue
open Lib.Exec Lib.Split

/-- The values of `qfields_t` (`queue.h:119-126`). -/
inductive Qfield where
  | qhiwat
  | qlowat
  | qmaxpsz
  | qminpsz
  | qcount
  | qfirst
  | qlast
  | qflag
  | undefined
  deriving DecidableEq, Repr

/- What `lis_strqget` stores through its `val`. -/
inductive Qval where
  | long (n : BitVec 64)
  | mblk (mp : Option Msg)
  | flag (f : Qflag)
  | bandFlag (full wantw wasfull : Bool)
  deriving DecidableEq, Repr

/- A queue with its packet sizes. -/
structure FieldQueue where
  q : ListQueue
  qMaxpsz : BitVec 64
  qMinpsz : BitVec 64

namespace FieldQueue

def EINVAL : ℤ := 22
def EPERM : ℤ := 1

def setBands (s : FieldQueue) (qps : List (Qband Msg)) : FieldQueue :=
  { s with q := { s.q with core := { s.q.core with qBandp := qps } } }

/-- `lis_strqget` (`queue.c:1697-1777`): the error is returned, the value stored. -/
def lisStrqget (alloc : Bool) (s : FieldQueue) (what : Qfield) (band : Uchar) : FieldQueue × ℤ × Option Qval :=
  if band ≠ 0 then
    match findQband Msg.info alloc s.q.core band with
    | none => (s,EINVAL,none)
    | some z =>
        let s := s.setBands z.chain
        match what with
        | .qhiwat => (s,0,some (.long z.qp.qbHiwat))
        | .qlowat => (s,0,some (.long z.qp.qbLowat))
        | .qcount => (s,0,some (.long z.qp.qbCount))
        | .qfirst => (s,0,some (.mblk z.qp.qbFirst))
        | .qlast => (s,0,some (.mblk z.qp.qbLast))
        | .qflag => (s,0,some (.bandFlag z.qp.qbFull z.qp.qbWantw z.qp.qbWasfull))
        | .qmaxpsz | .qminpsz | .undefined => (s,EINVAL,none)
  else match what with
    | .qhiwat => (s,0,some (.long s.q.core.qHiwat))
    | .qlowat => (s,0,some (.long s.q.core.qLowat))
    | .qmaxpsz => (s,0,some (.long s.qMaxpsz))
    | .qminpsz => (s,0,some (.long s.qMinpsz))
    | .qcount => (s,0,some (.long s.q.core.qCount))
    | .qfirst => (s,0,some (.mblk s.q.msgs.head?))
    | .qlast => (s,0,some (.mblk s.q.msgs.getLast?))
    | .qflag => (s,0,some (.flag s.q.core.qFlag))
    | .undefined => (s,EINVAL,none)

/-- `lis_strqset` (`queue.c:1787-1859`) -/
def lisStrqset (alloc : Bool) (s : FieldQueue) (what : Qfield) (band : Uchar) (val : BitVec 64) : FieldQueue × ℤ :=
  if band ≠ 0 then
    match findQband Msg.info alloc s.q.core band with
    | none => (s,EINVAL)
    | some z =>
        match what with
        | .qhiwat => (s.setBands (z.pre ++ { z.qp with qbHiwat := val } :: z.post),0)
        | .qlowat => (s.setBands (z.pre ++ { z.qp with qbLowat := val } :: z.post),0)
        | .qcount | .qfirst | .qlast | .qflag => (s.setBands z.chain,EPERM)
        | .qmaxpsz | .qminpsz | .undefined => (s.setBands z.chain,EINVAL)
  else match what with
    | .qhiwat => ({ s with q := { s.q with core := { s.q.core with qHiwat := val } } },0)
    | .qlowat => ({ s with q := { s.q with core := { s.q.core with qLowat := val } } },0)
    | .qmaxpsz => ({ s with qMaxpsz := val },0)
    | .qminpsz => ({ s with qMinpsz := val },0)
    | .qcount | .qfirst | .qlast | .qflag => (s,EPERM)
    | .undefined => (s,EINVAL)

end FieldQueue

/- A queue with what calls of `lis_strqset` have given to its bands, for each field. -/
structure Marked where
  s : FieldQueue
  set : Qfield → Uchar → Option Ulong

namespace Marked

/- The marks that band b is meant to have: its own, or those of the queue. -/
def hi (m : Marked) (b : Uchar) : Ulong := (m.set .qhiwat b).getD m.s.q.core.qHiwat
def lo (m : Marked) (b : Uchar) : Ulong := (m.set .qlowat b).getD m.s.q.core.qLowat

/- A call with the outcome of each `LIS_QBAND_ALLOC` it may make. -/
inductive Op where
  | strqset (what : Qfield) (band : Uchar) (val : BitVec 64) (alloc : Bool)
  | strqget (what : Qfield) (band : Uchar) (alloc : Bool)
  | putq (mp : Msg) (alloc : Bool)
  | getq (alloc : Bool) (back : List BackQ)
  | rmvq (addr : ℕ) (alloc : Bool) (back : List BackQ)
  | flushband (band : Uchar) (flushAll : Bool) (alloc : Msg → Bool) (back : List BackQ)
  | flushq (flushAll : Bool) (alloc : Msg → Bool) (back : List BackQ)
  | bcanput (band : Uchar) (alloc : Bool)

def withQueue (m : Marked) (q : ListQueue) : Marked := { m with s := { m.s with q := q } }

/- The marks given to bands after a call that returned `rtn`. -/
def record (m : Marked) (rtn : ℤ) (what : Qfield) (band : Uchar) (val : Ulong) : Qfield → Uchar → Option Ulong :=
  if rtn = 0 ∧ band ≠ 0 then Function.update m.set what (Function.update (m.set what) band (some val)) else m.set

def step (m : Marked) : Op → Option Marked
  | .strqset what band val alloc =>
      let r := m.s.lisStrqset alloc what band val
      some ⟨r.1,m.record r.2 what band val⟩
  | .strqget what band alloc => some { m with s := (m.s.lisStrqget alloc what band).1 }
  | .putq mp alloc => some (m.withQueue (m.s.q.lisPutq (fun _ => alloc) mp))
  | .getq alloc back => some (m.withQueue (m.s.q.lisGetq (fun _ => alloc) back).1)
  | .rmvq addr alloc back => some (m.withQueue (m.s.q.lisRmvq (fun _ => alloc) addr back).1)
  | .flushband band flushAll alloc back => some (m.withQueue (m.s.q.lisFlushband alloc band flushAll back).1)
  | .flushq flushAll alloc back => some (m.withQueue (m.s.q.lisFlushq alloc flushAll back).1)
  | .bcanput band alloc => some (m.withQueue (m.s.q.lisBcanput alloc band).1)

/- The marks meant for band b are those of the queue. -/
def Own (m : Marked) (b : Uchar) : Prop := m.hi b = m.s.q.core.qHiwat ∧ m.lo b = m.s.q.core.qLowat

/- Some structure belongs to band b. -/
def Held (c : Core Msg) (b : Uchar) : Prop := ∃ qp ∈ c.qBandp, qp.isBand Msg.info b = true

/- The structure of the band of `mp` is not left without messages when `mp` goes from between `k` and `l`. -/
def Stays (c : Core Msg) (k : List Msg) (mp : Msg) (l : List Msg) : Prop :=
  ∀ qp ∈ c.qBandp, qp.isBand Msg.info mp.info.bBand = true →
    (qp.qbFirst = some mp → qp.qbLast ≠ some mp ∧ ∃ x ∈ l.head?, x.info.bBand = mp.info.bBand) ∧
    (qp.qbLast = some mp → qp.qbFirst ≠ some mp ∧ ∃ x ∈ k.getLast?, x.info.bBand = mp.info.bBand)

/- When `mp` goes, its band keeps its structure or has no marks of its own. -/
def Leaves (m : Marked) (k : List Msg) (mp : Msg) (l : List Msg) : Prop :=
  mp.info.inQCount = false → Stays m.s.q.core k mp l ∨ m.Own mp.info.bBand

/- The mark `own` of the queue for a field, a new value for it, and whom it concerns. -/
def Settable (m : Marked) (what : Qfield) (own : Ulong) (band : Uchar) (val : Ulong) (alloc : Bool) : Prop :=
  if band ≠ 0 then (findQband Msg.info alloc m.s.q.core band).isSome = true → Held m.s.q.core band ∨ val = own
  else val = own ∨ ∀ b, b ≠ 0 → ((m.set what b).isSome = true ↔ Held m.s.q.core b)

def Allowed (m : Marked) : Op → Prop
  | .strqset .qhiwat band val alloc => m.Settable .qhiwat m.s.q.core.qHiwat band val alloc
  | .strqset .qlowat band val alloc => m.Settable .qlowat m.s.q.core.qLowat band val alloc
  | .getq _ _ => m.s.q.core.qFlag.shut = false → ∀ mp ∈ m.s.q.msgs.head?, m.Leaves [] mp m.s.q.msgs.tail
  | .rmvq addr _ _ => m.s.q.core.qFlag.shut = false →
      ∀ z ∈ splitFirst (fun mp => mp.addr == addr) m.s.q.msgs, m.Leaves z.1 z.2.1 z.2.2
  | .flushband _ _ _ _ | .flushq _ _ _ => ∀ b, b ≠ 0 → m.Own b
  | _ => True

/- Two structures do not serve one band. -/
def Apart (p q : Qband Msg) : Prop := ∀ b, p.isBand Msg.info b = true → q.isBand Msg.info b = false

/- The structure of a band has its marks, and a band without a structure has those of the queue. -/
structure Suits (hi lo : Uchar → Ulong) (c : Core Msg) : Prop where
  held : ∀ qp ∈ c.qBandp, ∀ b, b ≠ 0 → qp.isBand Msg.info b = true → qp.qbHiwat = hi b ∧ qp.qbLowat = lo b
  other : ∀ b, b ≠ 0 → ¬Held c b → hi b = c.qHiwat ∧ lo b = c.qLowat
  distinct : c.qBandp.Pairwise Apart

variable {m t : Marked} {s : FieldQueue} {q : ListQueue} {c c' : Core Msg} {z : BandAt Msg} {qp : Qband Msg}
  {b b' : Uchar} {alloc : Bool} {mp : Msg} {hi lo : Uchar → Ulong} {prev next : Option Msg}

theorem Suits.found (h : Suits hi lo c) (hb : b ≠ 0) (hz : findQband Msg.info alloc c b = some z) :
    z.qp.qbHiwat = hi b ∧ z.qp.qbLowat = lo b := by
  rcases findQband_cases hz with ⟨hi,he⟩ | ⟨hn,hr⟩
  · exact h.held z.qp (by rw [he]; simp [BandAt.chain]) b hb hi
  · have hown := h.other b hb (by
      rintro ⟨qp,hq,hi⟩
      simp [hn qp hq] at hi)
    rcases hr with ⟨qp,-,-,hr,-⟩ | ⟨he,-,-⟩
    · rw [hr]
      exact ⟨hown.1.symm,hown.2.symm⟩
    · rw [he]
      exact ⟨hown.1.symm,hown.2.symm⟩

theorem Suits.of_eq (h : Suits hi lo c) (hb : c'.qBandp = c.qBandp) (hh : c'.qHiwat = c.qHiwat)
    (hl : c'.qLowat = c.qLowat) : Suits hi lo c' := by
  have hheld : ∀ b, Held c' b ↔ Held c b := fun b => by
    unfold Held
    rw [hb]
  exact ⟨hb ▸ h.held,fun b hb' hn => hh.symm ▸ hl.symm ▸ h.other b hb' fun hc => hn ((hheld b).mpr hc),hb ▸ h.distinct⟩

/- What `find_qband` gives is of that band or unused. -/
theorem found_band (hz : findQband Msg.info alloc c b = some z) : z.qp.isBand Msg.info b = true ∨ z.qp.qbFirst = none := by
  rcases findQband_cases hz with ⟨hi,-⟩ | ⟨-,⟨qp,hf,-,hr,-⟩ | ⟨he,-,-⟩⟩
  · exact .inl hi
  · exact .inr (by rw [hr]; exact hf)
  · exact .inr (by rw [he]; rfl)

theorem found_unique (hz : findQband Msg.info alloc c b = some z) (h : z.qp.isBand Msg.info b' = true) : b' = b := by
  rcases found_band hz with hi | hf
  · unfold Qband.isBand at hi h
    cases hx : z.qp.qbFirst with
    | none => simp [hx] at h
    | some x =>
      simp only [hx,beq_iff_eq] at hi h
      exact h.symm.trans hi
  · simp [Qband.isBand,hf] at h

theorem found_held (hz : findQband Msg.info alloc c b = some z) (h : Held c b) :
    z.qp.isBand Msg.info b = true ∧ z.qp ∈ c.qBandp := by
  obtain ⟨x,hx,hi⟩ := h
  rcases findQband_cases hz with ⟨hi,he⟩ | ⟨hn,-⟩
  · exact ⟨hi,by rw [he]; simp [BandAt.chain]⟩
  · rw [hn x hx] at hi
    cases hi

/- The structures around the one found were there, and are all that serve other bands. -/
theorem found_rest (hz : findQband Msg.info alloc c b = some z) :
    (∀ x ∈ z.pre ++ z.post, x ∈ c.qBandp) ∧
      ∀ x ∈ c.qBandp, ∀ b', b' ≠ b → x.isBand Msg.info b' = true → x ∈ z.pre ++ z.post := by
  have hmid : ∀ {y : Qband Msg}, c.qBandp = z.pre ++ y :: z.post → (∀ b', y.isBand Msg.info b' = true → b' = b) →
      (∀ x ∈ z.pre ++ z.post, x ∈ c.qBandp) ∧
        ∀ x ∈ c.qBandp, ∀ b', b' ≠ b → x.isBand Msg.info b' = true → x ∈ z.pre ++ z.post := by
    intro y he hy
    refine ⟨fun x hx => ?_,fun x hx b' hne hi => ?_⟩
    · rw [he]
      rcases List.mem_append.mp hx with hx | hx <;> simp [hx]
    · rw [he] at hx
      rcases List.mem_append.mp hx with hx | hx
      · exact List.mem_append_left _ hx
      · rcases List.mem_cons.mp hx with rfl | hx
        · exact absurd (hy b' hi) hne
        · exact List.mem_append_right _ hx
  rcases findQband_cases hz with ⟨-,he⟩ | ⟨-,⟨qp,hf,he,-,-⟩ | ⟨he,-,-⟩⟩
  · exact hmid he fun b' hi => found_unique hz hi
  · exact hmid he fun b' hi => by simp [Qband.isBand,hf] at hi
  · subst he
    exact ⟨fun x hx => hx,fun x hx _ _ _ => hx⟩

theorem apart_symm {p q : Qband Msg} (h : Apart p q) : Apart q p := by
  intro b hq
  by_contra hp
  rw [h b (by simpa using hp)] at hq
  cases hq

theorem pairwise_middle {k l : List (Qband Msg)} : (k ++ qp :: l).Pairwise Apart ↔
    (∀ x ∈ k ++ l, Apart qp x) ∧ (k ++ l).Pairwise Apart :=
  (List.perm_middle.pairwise_iff apart_symm).trans List.pairwise_cons

theorem found_alone (hd : c.qBandp.Pairwise Apart)
    (hz : findQband Msg.info alloc c b = some z) :
    (∀ x ∈ z.pre ++ z.post, x.isBand Msg.info b = false) ∧ (z.pre ++ z.post).Pairwise Apart := by
  have hmid : ∀ {y : Qband Msg}, c.qBandp = z.pre ++ y :: z.post →
      (∀ x ∈ z.pre ++ z.post, Apart y x) ∧ (z.pre ++ z.post).Pairwise Apart := fun he =>
    pairwise_middle.mp (he ▸ hd)
  rcases findQband_cases hz with ⟨hi,he⟩ | ⟨hn,⟨qp,hf,he,-,-⟩ | ⟨he,-,-⟩⟩
  · obtain ⟨hx,hp⟩ := hmid he
    exact ⟨fun x h => hx x h b hi,hp⟩
  · refine ⟨fun x h => hn x ?_,(hmid he).2⟩
    rw [he]
    rcases List.mem_append.mp h with h | h <;> simp [h]
  · subst he
    exact ⟨hn,hd⟩

/- Another structure in place of the one found, with its marks. It may not give up a band with marks of its own. -/
theorem Suits.replace (h : Suits hi lo c) (hb : b ≠ 0) (hz : findQband Msg.info alloc c b = some z)
    (hq : qp.qbHiwat = z.qp.qbHiwat ∧ qp.qbLowat = z.qp.qbLowat) (hone : ∀ b', qp.isBand Msg.info b' = true → b' = b)
    (hkeep : Held c b → qp.isBand Msg.info b = true ∨ (hi b = c.qHiwat ∧ lo b = c.qLowat))
    (hset : c'.qBandp = z.pre ++ qp :: z.post) (hh : c'.qHiwat = c.qHiwat) (hl : c'.qLowat = c.qLowat) :
    Suits hi lo c' := by
  obtain ⟨hsub,hall⟩ := found_rest hz
  obtain ⟨halone,hpair⟩ := found_alone h.distinct hz
  have hin : ∀ x, x ∈ c'.qBandp ↔ x = qp ∨ x ∈ z.pre ++ z.post := fun x => by
    rw [hset]
    simp only [List.mem_append,List.mem_cons]
    tauto
  refine ⟨fun x hx b' hb' hi => ?_,fun b' hb' hn => ?_,?_⟩
  · rcases (hin x).mp hx with rfl | hx
    · rw [hone b' hi,hq.1,hq.2]
      exact h.found hb hz
    · exact h.held x (hsub x hx) b' hb' hi
  · rw [hh,hl]
    by_cases he : b' = b
    · subst he
      by_cases hheld : Held c b'
      · exact (hkeep hheld).resolve_left fun hi => hn ⟨qp,(hin qp).mpr (.inl rfl),hi⟩
      · exact h.other b' hb' hheld
    · exact h.other b' hb' fun ⟨x,hx,hi⟩ => hn ⟨x,(hin x).mpr (.inr (hall x hx b' he hi)),hi⟩
  · exact hset ▸ pairwise_middle.mpr ⟨fun x hx b' hi => hone b' hi ▸ halone x hx,hpair⟩

theorem bandLinkIn_isBand (hz : z.qp.isBand Msg.info mp.info.bBand = true ∨ z.qp.qbFirst = none) (n : Ulong) :
    (bandLinkIn mp prev next (z.qp.countIn n)).isBand Msg.info mp.info.bBand = true := by
  unfold bandLinkIn Qband.isBand
  dsimp only [Qband.countIn]
  cases hf : z.qp.qbFirst with
  | none => simp
  | some x =>
    dsimp only
    split_ifs
    · simp
    · simpa [Qband.isBand,hf] using hz

theorem isBand_one (h : qp.isBand Msg.info b = true) (h' : qp.isBand Msg.info b' = true) : b' = b := by
  unfold Qband.isBand at h h'
  cases hx : qp.qbFirst with
  | none => simp [hx] at h
  | some x =>
    simp only [hx,beq_iff_eq] at h h'
    exact h'.symm.trans h

/- A message that comes keeps the marks of every band. -/
theorem Suits.updatequeue (h : Suits hi lo c) :
    Suits hi lo (updatequeue Msg.info alloc false true c mp prev next) := by
  have hcount : Suits hi lo (countIn Msg.info alloc true c mp prev next) := by
    cases hq : mp.info.inQCount with
    | true =>
      rw [countIn_queue true hq]
      exact h.of_eq rfl rfl rfl
    | false =>
      have hb : mp.info.bBand ≠ 0 := (Info.inQCount_false hq).2.1
      cases hz : findQband Msg.info alloc c mp.info.bBand with
      | none => simpa [countIn,hq,hz] using h
      | some z =>
        have hset : countIn Msg.info alloc true c mp prev next = { c with
            qBandp := z.pre ++ bandLinkIn mp prev next (z.qp.countIn mp.info.size) :: z.post } :=
          countIn_band true hq hz
        have hin : (bandLinkIn mp prev next (z.qp.countIn mp.info.size)).isBand Msg.info mp.info.bBand = true :=
          bandLinkIn_isBand (found_band hz) _
        have hmarks : (bandLinkIn mp prev next (z.qp.countIn mp.info.size)).qbHiwat = z.qp.qbHiwat ∧
            (bandLinkIn mp prev next (z.qp.countIn mp.info.size)).qbLowat = z.qp.qbLowat := ⟨rfl,rfl⟩
        rw [hset]
        exact h.replace hb hz hmarks (fun b' hi => isBand_one hin hi) (fun _ => .inl hin) rfl rfl rfl
  obtain ⟨a,w,he⟩ := schedule_eq (v := Msg.info) (countIn Msg.info alloc true c mp prev next) mp false
  unfold Queue.updatequeue
  rw [he]
  exact hcount.of_eq rfl rfl rfl

theorem isBand_some {x : Msg} (h : qp.qbFirst = some x) : qp.isBand Msg.info b = true ↔ x.info.bBand = b := by
  simp [Qband.isBand,h]

theorem isBand_none (h : qp.qbFirst = none) : qp.isBand Msg.info b = false := by simp [Qband.isBand,h]

/- The first message after a removal: none, the old one or the next one of the band. -/
theorem bandLinkOut_first (mp : Msg) (prev next : Option Msg) (qp : Qband Msg) :
    (bandLinkOut Msg.info mp prev next qp).qbFirst = none ∨
    (bandLinkOut Msg.info mp prev next qp).qbFirst = qp.qbFirst ∨
    ∃ x, (bandLinkOut Msg.info mp prev next qp).qbFirst = some x ∧ x.info.bBand = mp.info.bBand := by
  unfold bandLinkOut
  dsimp only
  split_ifs with h1 h2 h3 h4
  all_goals first
    | exact .inl rfl
    | exact .inr (.inl rfl)
    | cases next with
      | none => cases h2
      | some y => exact .inr (.inr ⟨y,rfl,by simpa using h2⟩)

theorem bandLinkOut_one (hz : qp.isBand Msg.info mp.info.bBand = true ∨ qp.qbFirst = none)
    (h : (bandLinkOut Msg.info mp prev next qp).isBand Msg.info b' = true) : b' = mp.info.bBand := by
  rcases bandLinkOut_first mp prev next qp with hf | hf | ⟨x,hf,hx⟩
  · rw [isBand_none hf] at h
    cases h
  · have hsame : qp.isBand Msg.info b' = true := by
      unfold Qband.isBand at h ⊢
      rwa [hf] at h
    rcases hz with hi | hn
    · exact isBand_one hi hsame
    · rw [isBand_none hn] at hsame
      cases hsame
  · exact ((isBand_some hf).mp h).symm.trans hx

theorem bandLinkOut_stays (h : qp.isBand Msg.info mp.info.bBand = true)
    (hf : qp.qbFirst = some mp → qp.qbLast ≠ some mp ∧ ∃ x ∈ next, x.info.bBand = mp.info.bBand)
    (hl : qp.qbLast = some mp → qp.qbFirst ≠ some mp ∧ ∃ x ∈ prev, x.info.bBand = mp.info.bBand) :
    (bandLinkOut Msg.info mp prev next qp).isBand Msg.info mp.info.bBand = true := by
  unfold bandLinkOut
  dsimp only
  by_cases h1 : qp.qbFirst = some mp
  · obtain ⟨hlast,x,hx,hb⟩ := hf h1
    obtain rfl : next = some x := hx
    simp [h1,hb,hlast,Qband.isBand]
  · by_cases h2 : qp.qbLast = some mp
    · obtain ⟨-,x,hx,hb⟩ := hl h2
      obtain rfl : prev = some x := hx
      simp only [h1,h2,hb,if_true,if_false,beq_self_eq_true]
      exact h
    · simpa [h1,h2] using h

/- A message that goes keeps the marks of every band, if its own does not fall empty with marks of its own. -/
theorem Suits.adjustQCount {k l : List Msg} (h : Suits hi lo c) (hmp : mp.info.inQCount = false → Stays c k mp l ∨
      (hi mp.info.bBand = c.qHiwat ∧ lo mp.info.bBand = c.qLowat)) :
    Suits hi lo (adjustQCount Msg.info alloc true c mp k.getLast? l.head?) := by
  cases hq : mp.info.inQCount with
  | true =>
    rw [adjustQCount_queue true hq]
    exact h.of_eq rfl rfl rfl
  | false =>
    have hb : mp.info.bBand ≠ 0 := (Info.inQCount_false hq).2.1
    cases hz : findQband Msg.info alloc c mp.info.bBand with
    | none =>
      have hz' : findQband Msg.info alloc { c with qFlag := { c.qFlag with qwantr := false } } mp.info.bBand = none := hz
      simp only [Queue.adjustQCount,hq,Bool.not_false,if_true,hz']
      exact h.of_eq rfl rfl rfl
    | some z =>
      obtain ⟨qp,r,hqp,hr,hset⟩ : ∃ qp r, qp = { z.qp with qbCount := z.qp.qbCount - mp.info.size } ∧
          r = chkBand { c.qFlag with qwantr := false } (bandLinkOut Msg.info mp k.getLast? l.head? qp) ∧
          Queue.adjustQCount Msg.info alloc true c mp k.getLast? l.head? =
            { c with qFlag := r.1, qBandp := z.pre ++ r.2 :: z.post } :=
        ⟨_,_,rfl,rfl,adjustQCount_band true _ _ hq hz⟩
      have hfirst : r.2.qbFirst = (bandLinkOut Msg.info mp k.getLast? l.head? qp).qbFirst := by rw [hr,chkBand_first]
      have hband : ∀ b, r.2.isBand Msg.info b = (bandLinkOut Msg.info mp k.getLast? l.head? qp).isBand Msg.info b := by
        intro b
        unfold Qband.isBand
        rw [hfirst]
      have hmarks : r.2.qbHiwat = z.qp.qbHiwat ∧ r.2.qbLowat = z.qp.qbLowat := by
        obtain ⟨f,x,he⟩ := bandLinkOut_eq Msg.info mp k.getLast? l.head? qp
        rw [hr,chkBand_eq,he,hqp]
        exact ⟨rfl,rfl⟩
      have hfound : qp.isBand Msg.info mp.info.bBand = true ∨ qp.qbFirst = none := hqp ▸ found_band hz
      rw [hset]
      refine h.replace hb hz hmarks (fun b' hi => bandLinkOut_one hfound (hband b' ▸ hi)) (fun hheld => ?_) rfl rfl rfl
      refine (hmp hq).imp_left fun hst => ?_
      have hzb := found_held hz hheld
      obtain ⟨hf,hl⟩ := hst z.qp hzb.2 hzb.1
      rw [hband]
      exact bandLinkOut_stays (hqp ▸ hzb.1) (hqp ▸ hf) (hqp ▸ hl)

/- The marks of the bands suit the queue after a call that leaves its own marks alone. -/
def Kept (hi lo : Uchar → Ulong) (c c' : Core Msg) : Prop :=
  Suits hi lo c' ∧ c'.qHiwat = c.qHiwat ∧ c'.qLowat = c.qLowat

theorem Suits.refl (h : Suits hi lo c) : Kept hi lo c c := ⟨h,rfl,rfl⟩

theorem Kept.of_eq (h : Kept hi lo c c') {d : Core Msg} (hb : d.qBandp = c'.qBandp) (hh : d.qHiwat = c'.qHiwat)
    (hl : d.qLowat = c'.qLowat) : Kept hi lo c d :=
  ⟨h.1.of_eq hb hh hl,hh.trans h.2.1,hl.trans h.2.2⟩

theorem Suits.lisPutq (h : Suits hi lo q.core) (alloc : Msg → Bool) (mp : Msg) :
    Kept hi lo q.core (q.lisPutq alloc mp).core := by
  cases hs : q.core.qFlag.shut with
  | true =>
    rw [show q.lisPutq alloc mp = q by simp [ListQueue.lisPutq,hs]]
    exact h.refl
  | false =>
    obtain ⟨k,l,-,-,-,hcore,-⟩ := ListQueue.lisPutq_open alloc mp hs
    obtain ⟨a,x,w,he,-⟩ := updatequeue_eq true Msg.info (alloc (q.entry mp)) false q.core (q.entry mp) k.getLast? l.head?
    refine ⟨?_,?_,?_⟩
    · rw [hcore]
      exact h.updatequeue
    · rw [hcore,he]
    · rw [hcore,he]

theorem lisBackenable_marks (q : ListQueue) (back : List BackQ) : (q.lisBackenable back).1.core.qBandp = q.core.qBandp ∧
    (q.lisBackenable back).1.core.qHiwat = q.core.qHiwat ∧ (q.lisBackenable back).1.core.qLowat = q.core.qLowat := by
  unfold ListQueue.lisBackenable Queue.lisBackenable
  dsimp only
  split_ifs <;> exact ⟨rfl,rfl,rfl⟩

/- `rmv_msg` with its back-enabling, whichever call chose the message. -/
theorem Suits.rmvMsg {k l : List Msg} (h : Suits hi lo q.core) (back : List BackQ)
    (hmp : mp.info.inQCount = false → Stays q.core k mp l ∨
      (hi mp.info.bBand = q.core.qHiwat ∧ lo mp.info.bBand = q.core.qLowat)) :
    Kept hi lo q.core ((q.rmvMsg (fun _ => alloc) k mp l).lisBackenable back).1.core := by
  obtain ⟨hb,hh,hl⟩ := lisBackenable_marks (q.rmvMsg (fun _ => alloc) k mp l) back
  obtain ⟨full,wasfull,wantw,qback,he⟩ := adjustQCount_eq true Msg.info alloc q.core mp k.getLast? l.head?
  have hcore : Kept hi lo q.core (q.rmvMsg (fun _ => alloc) k mp l).core := by
    refine ⟨h.adjustQCount hmp,?_,?_⟩
    · show (Queue.adjustQCount Msg.info alloc true q.core mp k.getLast? l.head?).qHiwat = _
      rw [he]
    · show (Queue.adjustQCount Msg.info alloc true q.core mp k.getLast? l.head?).qLowat = _
      rw [he]
  exact hcore.of_eq hb hh hl

theorem Suits.flushList (h : Suits hi lo q.core) (alloc : Msg → Bool) (band : ℤ) (flushAll : Bool) (l : List Msg) :
    Kept hi lo q.core (ListQueue.flushList alloc band flushAll q l).core := by
  induction l generalizing q with
  | nil => exact h.refl
  | cons mp l ih =>
    unfold ListQueue.flushList
    split_ifs
    · exact ih h
    · have hput := h.lisPutq alloc mp
      obtain ⟨hs,hh,hl⟩ := ih hput.1
      exact ⟨hs,hh.trans hput.2.1,hl.trans hput.2.2⟩

theorem Kept.flushCheck (h : Kept hi lo c c') (wasfull : Bool) : Kept hi lo c (c'.flushCheck wasfull) := by
  have hbands : (c'.flushCheck wasfull).qBandp = c'.qBandp.map fun qp => (chkBand {} qp).2 := chkBands_snd _
  have hband : ∀ (qp : Qband Msg) b, (chkBand {} qp).2.isBand Msg.info b = qp.isBand Msg.info b := fun qp b => by
    unfold Qband.isBand
    rw [chkBand_first]
  refine ⟨⟨fun qp hq b hb hi => ?_,fun b hb hn => h.1.other b hb fun ⟨x,hx,hi⟩ => hn ?_,?_⟩,h.2.1,h.2.2⟩
  · rw [hbands] at hq
    obtain ⟨x,hx,rfl⟩ := List.mem_map.mp hq
    rw [chkBand_eq]
    exact h.1.held x hx b hb (hband x b ▸ hi)
  · refine ⟨(chkBand {} x).2,?_,(hband x b).trans hi⟩
    rw [hbands]
    exact List.mem_map_of_mem hx
  · rw [hbands]
    refine List.pairwise_map.mpr (h.1.distinct.imp fun hd b hi => ?_)
    rw [hband] at hi ⊢
    exact hd b hi

theorem Kept.flushEnd {nonempty : Bool} (h : Kept hi lo c c') (back : List BackQ) :
    Kept hi lo c (c'.flushEnd nonempty back).1 := by
  have hback : Kept hi lo c (lisBackenable c' back).1 := by
    unfold lisBackenable
    split_ifs
    · exact h.of_eq rfl rfl rfl
    · exact h
  unfold Core.flushEnd
  dsimp only
  split_ifs
  · exact h
  · exact hback.of_eq rfl rfl rfl
  · exact hback

/- The structure of a band put back with its marks, as `lis_strqget` and `lis_bcanput` do. -/
theorem Suits.again (h : Suits hi lo c) (hb : b ≠ 0) (hz : findQband Msg.info alloc c b = some z)
    (hf : qp.qbFirst = z.qp.qbFirst) (hq : qp.qbHiwat = z.qp.qbHiwat ∧ qp.qbLowat = z.qp.qbLowat) :
    Kept hi lo c { c with qBandp := z.pre ++ qp :: z.post } := by
  have hsame : ∀ b', qp.isBand Msg.info b' = z.qp.isBand Msg.info b' := fun b' => by
    unfold Qband.isBand
    rw [hf]
  refine ⟨h.replace hb hz hq (fun b' hi => found_unique hz (hsame b' ▸ hi)) (fun hheld => .inl ?_) rfl rfl rfl,rfl,rfl⟩
  rw [hsame]
  exact (found_held hz hheld).1

/- New marks for the band of the structure found: it has messages, or they are those of the queue. -/
theorem Suits.set {hi' lo' : Uchar → Ulong} (h : Suits hi lo c) (hb : b ≠ 0)
    (hz : findQband Msg.info alloc c b = some z) (hf : qp.qbFirst = z.qp.qbFirst)
    (hq : qp.qbHiwat = hi' b ∧ qp.qbLowat = lo' b) (hoth : ∀ b', b' ≠ b → hi' b' = hi b' ∧ lo' b' = lo b')
    (hown : Held c b ∨ (hi' b = c.qHiwat ∧ lo' b = c.qLowat)) :
    Suits hi' lo' { c with qBandp := z.pre ++ qp :: z.post } := by
  have hsame : ∀ b', qp.isBand Msg.info b' = z.qp.isBand Msg.info b' := fun b' => by
    unfold Qband.isBand
    rw [hf]
  obtain ⟨hsub,hall⟩ := found_rest hz
  obtain ⟨halone,hpair⟩ := found_alone h.distinct hz
  have hone : ∀ b', qp.isBand Msg.info b' = true → b' = b := fun b' hi => found_unique hz (hsame b' ▸ hi)
  refine ⟨fun x hx b' hb' hi => ?_,fun b' hb' hn => ?_,
    pairwise_middle.mpr ⟨fun x hx b' hi => hone b' hi ▸ halone x hx,hpair⟩⟩
  · have hx : x = qp ∨ x ∈ z.pre ++ z.post := by
      simp only [List.mem_append,List.mem_cons] at hx ⊢
      tauto
    rcases hx with rfl | hx
    · exact hone b' hi ▸ hq
    · have hne : b' ≠ b := by
        rintro rfl
        rw [halone x hx] at hi
        cases hi
      rw [(hoth b' hne).1,(hoth b' hne).2]
      exact h.held x (hsub x hx) b' hb' hi
  · by_cases he : b' = b
    · subst he
      refine hown.resolve_left fun hheld => hn ⟨qp,by simp,?_⟩
      rw [hsame]
      exact (found_held hz hheld).1
    · rw [(hoth b' he).1,(hoth b' he).2]
      refine h.other b' hb' fun ⟨x,hx,hi⟩ => hn ⟨x,?_,hi⟩
      have := hall x hx b' he hi
      simp only [List.mem_append,List.mem_cons] at this ⊢
      tauto

/- A queue without messages and bands, of which no marks have been set. -/
def start (qFlag : Qflag) (qHiwat qLowat : Ulong) (qiSrvp : Bool) (qMaxpsz qMinpsz : BitVec 64) : Marked :=
  ⟨⟨ListQueue.empty qFlag qHiwat qLowat qiSrvp,qMaxpsz,qMinpsz⟩,fun _ _ => none⟩

instance (c : Core Msg) (b : Uchar) : Decidable (Held c b) := inferInstanceAs (Decidable (∃ qp ∈ c.qBandp, _))

instance (c : Core Msg) (k : List Msg) (mp : Msg) (l : List Msg) : Decidable (Stays c k mp l) :=
  inferInstanceAs (Decidable (∀ qp ∈ c.qBandp, _))

instance (m : Marked) (b : Uchar) : Decidable (m.Own b) := inferInstanceAs (Decidable (_ ∧ _))

instance (m : Marked) (k : List Msg) (mp : Msg) (l : List Msg) : Decidable (m.Leaves k mp l) :=
  inferInstanceAs (Decidable (_ → _))

instance (m : Marked) (what : Qfield) (own : Ulong) (band : Uchar) (val : Ulong) (alloc : Bool) :
    Decidable (m.Settable what own band val alloc) :=
  inferInstanceAs (Decidable (if band ≠ 0 then
    (findQband Msg.info alloc m.s.q.core band).isSome = true → Held m.s.q.core band ∨ val = own
    else val = own ∨ ∀ b, b ≠ 0 → ((m.set what b).isSome = true ↔ Held m.s.q.core b)))

instance (m : Marked) : ∀ op, Decidable (m.Allowed op)
  | .strqset .qhiwat band val alloc =>
      inferInstanceAs (Decidable (m.Settable .qhiwat m.s.q.core.qHiwat band val alloc))
  | .strqset .qlowat band val alloc =>
      inferInstanceAs (Decidable (m.Settable .qlowat m.s.q.core.qLowat band val alloc))
  | .strqset .qmaxpsz _ _ _ | .strqset .qminpsz _ _ _ | .strqset .qcount _ _ _ | .strqset .qfirst _ _ _
  | .strqset .qlast _ _ _ | .strqset .qflag _ _ _ | .strqset .undefined _ _ _ => isTrue trivial
  | .getq _ _ => inferInstanceAs (Decidable (m.s.q.core.qFlag.shut = false →
      ∀ mp ∈ m.s.q.msgs.head?, m.Leaves [] mp m.s.q.msgs.tail))
  | .rmvq addr _ _ => inferInstanceAs (Decidable
      (m.s.q.core.qFlag.shut = false →
        ∀ z ∈ splitFirst (fun mp => mp.addr == addr) m.s.q.msgs, m.Leaves z.1 z.2.1 z.2.2))
  | .flushband _ _ _ _ | .flushq _ _ _ => inferInstanceAs (Decidable (∀ b, b ≠ 0 → m.Own b))
  | .strqget _ _ _ | .putq _ _ | .bcanput _ _ => isTrue trivial

def band1 (addr : ℕ) : Msg := ⟨⟨1,false,⟨M_DATA,16,[]⟩,[]⟩,addr⟩

end Marked

end CSLiS.Queue
