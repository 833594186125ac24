import CSLiS.Fifo.Units

/-!
# Every unit is accounted for

The units are right in every state exactly when they fall to the majors evenly, and no open gets a unit whose index
does not fit into a short, or one more for a stream that has one.
-/

namespace CSLiS.Fifo.Units
open Lib.Exec

variable {c : Config} {s t : Fifos} {q u m dev n e : ℕ} {z : ℤ} {clone : Bool}

/-! ### Units and devices -/

theorem getmajor_makedevice (majr minr : ℕ) : getmajor (makedevice majr minr) = majr := by
  have h : minr % minorSpan < minorSpan := Nat.mod_lt _ (by decide)
  rw [getmajor,makedevice,Nat.mul_comm,Nat.mul_add_div (by decide),Nat.div_eq_of_lt h,Nat.add_zero]

theorem getminor_makedevice (majr minr : ℕ) : getminor (makedevice majr minr) = minr % minorSpan := by
  rw [getminor,makedevice,Nat.mul_comm,Nat.mul_add_mod,Nat.mod_mod]

theorem majorIndex_getD (hnd : c.majors.Nodup) {i : ℕ} (hi : i < c.majors.length) :
    c.fifoMajorIndex (c.majors.getD i 0) = i := by
  rw [Config.fifoMajorIndex,List.getD_eq_getElem _ _ hi]
  have h : c.majors.idxOf? c.majors[i] = some i :=
    List.idxOf?_eq_some_iff.mpr ⟨hi,rfl,fun j hj he => Nat.ne_of_lt hj (hnd.getElem_inj_iff.mp he)⟩
  rw [h]

namespace Config

variable (hf : c.Fits) (hu : u < c.units)
include hf hu

theorem Fits.maxminors_pos : 0 < c.maxminors := by
  obtain ⟨⟨k,hk⟩,-⟩ := hf
  have hlen : 0 < c.majors.length := by
    by_contra h0
    rw [Nat.eq_zero_of_not_pos h0,Nat.zero_mul] at hk
    omega
  rw [maxminors,hk,Nat.mul_div_cancel_left _ hlen]
  by_contra h0
  rw [Nat.eq_zero_of_not_pos h0,Nat.mul_zero] at hk
  omega

theorem Fits.div_lt : u / c.maxminors < c.majors.length := by
  have hpos := Fits.maxminors_pos hf hu
  rw [Nat.div_lt_iff_lt_mul hpos]
  have hmul : c.majors.length * c.maxminors = c.units := Nat.mul_div_cancel' hf.1
  omega

theorem Fits.inverse (hnd : c.majors.Nodup) : c.fifoUnitIndex (c.fifoMkdev u) = u := by
  have hdiv := Fits.div_lt hf hu
  have hmod : u % c.maxminors % minorSpan = u % c.maxminors :=
    Nat.mod_eq_of_lt (lt_of_lt_of_le (Nat.mod_lt _ (Fits.maxminors_pos hf hu)) hf.2)
  have hsum : ((u / c.maxminors : ℕ) : ℤ) * c.maxminors + (u % c.maxminors : ℕ) = u := by
    exact_mod_cast Nat.div_add_mod' u c.maxminors
  simp only [fifoUnitIndex,fifoMkdev,getmajor_makedevice,getminor_makedevice,majorIndex_getD hnd hdiv,hmod]
  rw [if_neg (not_lt.mpr (Int.natCast_nonneg _)),hsum,if_neg (by omega)]

end Config

/-! ### `fifo_init` -/

/- The state after the first units. -/
structure Inited (c : Config) (s : Fifos) (n : ℕ) : Prop where
  index : ∀ u < n, s.index u = toShort u
  clonable : ∀ u < n, s.clonable u = (u % c.maxminors == 0)
  allocated : ∀ u, s.allocated u = false
  free : s.freeFifos = (List.range n).filter fun u => u % c.maxminors != 0
  count : s.numFreeFifos = s.freeFifos.length
  qPtr : ∀ q, s.qPtr q = none
  fault : s.fault = true ↔ ∃ u < n, c.maxminors = 0 ∨ u % c.maxminors = 0 ∧ c.majors.length ≤ u / c.maxminors

theorem Inited.next (h : Inited c s n) : Inited c (s.initUnit c n) (n + 1) := by
  have hlast (f : ℕ → Prop) (h1 : ∀ u < n, f u) (h2 : f n) : ∀ u < n + 1, f u := fun u hu =>
    (Nat.lt_succ_iff_lt_or_eq.mp hu).elim (h1 u) fun he => he ▸ h2
  have hfault (p : ℕ → Prop) : (∃ u < n + 1, p u) ↔ (∃ u < n, p u) ∨ p n := by
    constructor
    · rintro ⟨u,hu,hp⟩
      rcases Nat.lt_succ_iff_lt_or_eq.mp hu with h | rfl
      · exact Or.inl ⟨u,h,hp⟩
      · exact Or.inr hp
    · rintro (⟨u,hu,hp⟩ | hp)
      · exact ⟨u,Nat.lt_succ_of_lt hu,hp⟩
      · exact ⟨n,Nat.lt_succ_self n,hp⟩
  have hind : ∀ u < n + 1, Function.update s.index n (toShort n) u = toShort u :=
    hlast _ (fun u hu => (Function.update_of_ne (Nat.ne_of_lt hu) ..).trans (h.index u hu)) (Function.update_self ..)
  have hclone (b : Bool) (hb : b = (n % c.maxminors == 0)) :
      ∀ u < n + 1, Function.update s.clonable n b u = (u % c.maxminors == 0) :=
    hlast _ (fun u hu => (Function.update_of_ne (Nat.ne_of_lt hu) ..).trans (h.clonable u hu))
      ((Function.update_self ..).trans hb)
  rw [Fifos.initUnit]
  split_ifs with hmod
  · refine ⟨hind,hclone false (by simp [hmod]),h.allocated,?_,?_,h.qPtr,?_⟩
    · rw [List.range_succ,List.filter_append,← h.free]
      simp [hmod]
    · simp [h.count]
    · rw [hfault,← h.fault]
      simp [hmod]
  · rw [not_not] at hmod
    refine ⟨hind,hclone true (by simp [hmod]),h.allocated,?_,h.count,h.qPtr,?_⟩
    · rw [List.range_succ,List.filter_append,← h.free]
      simp [hmod]
    · rw [hfault,← h.fault]
      simp [hmod,or_assoc]

theorem inited (c : Config) : Inited c (.fifoInit c) c.units := by
  have h (n : ℕ) : Inited c ((List.range n).foldl (Fifos.initUnit c)
      ⟨fun _ => 0,fun _ => false,fun _ => false,[],0,fun _ => none,false,0,0⟩) n := by
    induction n with
    | zero => exact ⟨by simp,by simp,by simp,rfl,rfl,by simp,by simp⟩
    | succ n ih =>
      rw [List.range_succ,List.foldl_append]
      exact ih.next
  exact h c.units

/-! ### What the calls keep -/

structure Inv (c : Config) (s : Fifos) : Prop where
  sound : s.Sound c
  index : ∀ u < c.units, s.index u = toShort u
  clonable : ∀ u < c.units, s.clonable u = (u % c.maxminors == 0)
  short : ∀ q u, s.qPtr q = some u → u < 2 ^ 15

theorem inv_init (hf : c.Fits) (hnd : c.majors.Nodup) : Inv c (.fifoInit c) := by
  have h := inited c
  have hfree {u : ℕ} (hu : u < c.units) (hc : (Fifos.fifoInit c).clonable u = false) :
      u ∈ (Fifos.fifoInit c).freeFifos := by
    rw [h.free]
    refine List.mem_filter.mpr ⟨List.mem_range.mpr hu,?_⟩
    rw [h.clonable u hu] at hc
    simpa using hc
  have hnodup : (Fifos.fifoInit c).freeFifos.Nodup := by
    rw [h.free]
    exact List.nodup_range.filter _
  have hnone (q u : ℕ) : (Fifos.fifoInit c).qPtr q ≠ some u := by
    rw [h.qPtr]
    exact (Option.some_ne_none u).symm
  refine ⟨⟨fun u hu hc _ => ⟨List.count_eq_one_of_mem hnodup (hfree hu hc),fun q => hnone q u⟩,fun u _ _ ha => ?_,
    fun u hu hc => ⟨h.allocated u,?_,fun q => hnone q u⟩,⟨fun u hu => ?_,fun q u hq => absurd hq (hnone q u)⟩,
    h.count,?_,
    fun u hu => hf.inverse hu hnd⟩,h.index,h.clonable,fun q u hq => absurd hq (hnone q u)⟩
  · rw [h.allocated] at ha
    cases ha
  · rw [h.free]
    rw [h.clonable u hu] at hc
    intro hm
    have := (List.mem_filter.mp hm).2
    rw [beq_iff_eq] at hc
    simp [hc] at this
  · rw [h.free] at hu
    exact List.mem_range.mp (List.mem_filter.mp hu).1
  · by_contra hfault
    obtain ⟨u,hu,h0 | ⟨-,hle⟩⟩ := h.fault.mp (Bool.eq_true_of_not_eq_false hfault)
    · exact Nat.ne_of_gt (hf.maxminors_pos hu) h0
    · exact absurd (hf.div_lt hu) (not_lt.mpr hle)

/- A configuration that does not fit is wrong from the start. -/
theorem not_sound_init (hm : c.majors ≠ []) (hnd : c.majors.Nodup) (hf : ¬ c.Fits) : ¬ (Fifos.fifoInit c).Sound c := by
  intro hs
  have hlen : 0 < c.majors.length := List.length_pos_of_ne_nil hm
  by_cases hdvd : c.majors.length ∣ c.units
  · have hbig : minorSpan < c.maxminors := by
      by_contra hle
      exact hf ⟨hdvd,not_lt.mp hle⟩
    have hle : c.maxminors ≤ c.units := Nat.div_le_self ..
    have hinv := hs.inverse minorSpan (by omega)
    have hdiv : minorSpan / c.maxminors = 0 := Nat.div_eq_of_lt hbig
    have hmod : minorSpan % c.maxminors % minorSpan = 0 := by rw [Nat.mod_eq_of_lt hbig,Nat.mod_self]
    simp only [Config.fifoUnitIndex,Config.fifoMkdev,getmajor_makedevice,getminor_makedevice,hdiv,hmod,
      majorIndex_getD hnd hlen] at hinv
    split_ifs at hinv with h1 h2
    · exact absurd h1 (by decide)
    · exact absurd hinv (by decide)
    · simp [minorSpan] at hinv
  · -- the first unit behind those of the last major
    have hlt : c.majors.length * c.maxminors < c.units := by
      refine lt_of_le_of_ne (Nat.mul_div_le _ _) fun he => hdvd ⟨c.maxminors,he.symm⟩
    refine absurd hs.inside ?_
    rw [Bool.not_eq_false,(inited c).fault]
    refine ⟨c.majors.length * c.maxminors,hlt,?_⟩
    by_cases h0 : c.maxminors = 0
    · exact Or.inl h0
    · refine Or.inr ⟨Nat.mul_mod_left ..,?_⟩
      rw [Nat.mul_div_cancel _ (Nat.pos_of_ne_zero h0)]

namespace Inv

variable (hi : Inv c s)
include hi

theorem allocated_of_used (hq : s.qPtr q = some u) : s.clonable u = false ∧ s.allocated u = true := by
  have hu := hi.sound.range.2 q u hq
  have hc : s.clonable u = false := by
    by_contra h
    exact (hi.sound.clone u hu (Bool.eq_true_of_not_eq_false h)).2.2 q hq
  refine ⟨hc,?_⟩
  by_contra h
  exact (hi.sound.free u hu hc (Bool.eq_false_of_not_eq_true h)).2 q hq

theorem of_free (he : e ∈ s.freeFifos) : e < c.units ∧ s.clonable e = false ∧ s.allocated e = false := by
  have hu := hi.sound.range.1 e he
  have hc : s.clonable e = false := by
    by_contra h
    exact (hi.sound.clone e hu (Bool.eq_true_of_not_eq_false h)).2.1 he
  refine ⟨hu,hc,?_⟩
  by_contra h
  exact (hi.sound.held e hu hc (Bool.eq_true_of_not_eq_false h)).1 he

end Inv

/- `fifo_alloc` takes this unit. -/
def taken (s : Fifos) (e : ℕ) : Fifos :=
  { s with
    allocated := Function.update s.allocated e true
    freeFifos := s.freeFifos.erase e
    numFreeFifos := s.numFreeFifos - 1 }

theorem Inv.alloc_unit (hi : Inv c s) (hf : e ∈ s.freeFifos) (hz : z = e ∨ z < 0 ∧ s.freeFifos.head? = some e) :
    s.fifoAlloc c z = (toShort e,taken s e) := by
  obtain ⟨hu,-,ha⟩ := hi.of_free hf
  have hle : ¬ (c.units : ℤ) < z := by omega
  rw [Fifos.fifoAlloc,if_neg hle]
  cases hl : s.freeFifos with
  | nil => rw [hl] at hf; cases hf
  | cons e' l =>
    have hfdp : (if z < 0 then e' else z.toNat) = e := by
      rcases hz with rfl | ⟨hneg,hh⟩
      · rw [if_neg (not_lt.mpr (Int.natCast_nonneg e)),Int.toNat_natCast]
      · rw [if_pos hneg]
        rw [hl] at hh
        exact Option.some.inj hh
    simp only [hfdp]
    have hnot : decide (c.units ≤ e) = false := decide_eq_false (not_le.mpr hu)
    rw [if_neg (by rw [ha]; decide),hi.index e hu,hnot,Bool.or_false,taken,hl]

/- A stream gets the unit. -/
theorem Inv.take (hi : Inv c s) (hf : c.Fits) (he : e ∈ s.freeFifos) (hs : e < 2 ^ 15) (hq : s.qPtr q = none) :
    Inv c ((taken s e).opened c q e) := by
  obtain ⟨hu,hc,ha⟩ := hi.of_free he
  obtain ⟨hone,hnone⟩ := hi.sound.free e hu hc ha
  have hqp : ((taken s e).opened c q e).qPtr = Function.update s.qPtr q (some e) := if_pos hq
  have hal (u : ℕ) : ((taken s e).opened c q e).allocated u = if u = e then true else s.allocated u :=
    Function.update_apply ..
  have hfault : ((taken s e).opened c q e).fault = false := by
    change (s.fault || decide (c.majors.length ≤ e / c.maxminors) || decide (c.units ≤ e)) = false
    rw [hi.sound.inside,decide_eq_false (not_le.mpr (hf.div_lt hu)),decide_eq_false (not_le.mpr hu)]
    rfl
  have hother {p u : ℕ} (hpq : Function.update s.qPtr q (some e) p = some u) :
      (p = q ∧ u = e) ∨ (p ≠ q ∧ s.qPtr p = some u) := by
    by_cases hp : p = q
    · subst hp
      rw [Function.update_self] at hpq
      exact Or.inl ⟨rfl,(Option.some.inj hpq).symm⟩
    · rw [Function.update_of_ne hp] at hpq
      exact Or.inr ⟨hp,hpq⟩
  refine ⟨⟨fun u hu' hc' ha' => ?_,fun u hu' hc' ha' => ?_,fun u hu' hc' => ?_,
    ⟨fun u hu' => ?_,fun p u hp => ?_⟩,?_,hfault,
    hi.sound.inverse⟩,hi.index,hi.clonable,fun p u hp => ?_⟩
  · rw [hal] at ha'
    split_ifs at ha' with hue
    obtain ⟨h1,h2⟩ := hi.sound.free u hu' hc' ha'
    refine ⟨?_,fun p hp => ?_⟩
    · exact (List.count_erase_of_ne hue).trans h1
    · rw [hqp] at hp
      rcases hother hp with ⟨-,h⟩ | ⟨-,h⟩
      · exact hue h
      · exact h2 p h
  · rw [hal] at ha'
    rw [hqp]
    by_cases hue : u = e
    · subst hue
      refine ⟨?_,q,Function.update_self ..,fun p hp => ?_⟩
      · refine List.count_eq_zero.mp ((List.count_erase_self ..).trans ?_)
        rw [hone]
      · rcases hother hp with ⟨h,-⟩ | ⟨-,h⟩
        · exact h
        · exact absurd h (hnone p)
    · rw [if_neg hue] at ha'
      obtain ⟨h1,p,h2,h3⟩ := hi.sound.held u hu' hc' ha'
      have hpq : p ≠ q := by
        rintro rfl
        exact Option.some_ne_none u (h2.symm.trans hq)
      refine ⟨fun h => h1 (List.mem_of_mem_erase h),p,(Function.update_of_ne hpq ..).trans h2,fun p' hp' => ?_⟩
      rcases hother hp' with ⟨-,h⟩ | ⟨-,h⟩
      · exact absurd h hue
      · exact h3 p' h
  · obtain ⟨h1,h2,h3⟩ := hi.sound.clone u hu' hc'
    have hue : u ≠ e := by
      rintro rfl
      exact h2 he
    refine ⟨by rw [hal,if_neg hue]; exact h1,fun h => h2 (List.mem_of_mem_erase h),fun p hp => ?_⟩
    rw [hqp] at hp
    rcases hother hp with ⟨-,h⟩ | ⟨-,h⟩
    · exact hue h
    · exact h3 p h
  · exact hi.sound.range.1 u (List.mem_of_mem_erase hu')
  · rw [hqp] at hp
    rcases hother hp with ⟨-,rfl⟩ | ⟨-,h⟩
    · exact hu
    · exact hi.sound.range.2 p u h
  · change s.numFreeFifos - 1 = ((s.freeFifos.erase e).length : ℤ)
    have hlen := List.length_erase_of_mem he
    have hpos := List.length_pos_of_mem he
    rw [hi.sound.count,hlen]
    omega
  · rw [hqp] at hp
    rcases hother hp with ⟨-,rfl⟩ | ⟨-,h⟩
    · exact hs
    · exact hi.short p u h

/- A stream gives its unit back. -/
theorem Inv.close (hi : Inv c s) (q : ℕ) : Inv c (s.fifoClose c q) := by
  rw [Fifos.fifoClose]
  cases hq : s.qPtr q with
  | none => exact ⟨⟨hi.sound.1,hi.sound.2,hi.sound.3,hi.sound.4,hi.sound.5,hi.sound.6,hi.sound.7⟩,hi.2,hi.3,hi.4⟩
  | some e =>
    obtain ⟨hc,ha⟩ := hi.allocated_of_used hq
    have hu := hi.sound.range.2 q e hq
    have hs := hi.short q e hq
    have hshort : toShort e = e := Int.bmod_eq_of_le (by omega) (by omega)
    obtain ⟨hfree,q',hq',honly⟩ := hi.sound.held e hu hc ha
    obtain rfl := honly q hq
    simp only
    rw [hi.index e hu,hshort,Fifos.fifoFree,if_neg (by omega),Int.toNat_natCast,if_pos ha]
    have hother {p u : ℕ} (hp : Function.update s.qPtr q none p = some u) : p ≠ q ∧ s.qPtr p = some u := by
      by_cases hpq : p = q
      · subst hpq
        rw [Function.update_self] at hp
        cases hp
      · rw [Function.update_of_ne hpq] at hp
        exact ⟨hpq,hp⟩
    have hmem (u : ℕ) : u ∈ s.freeFifos ++ [e] ↔ u ∈ s.freeFifos ∨ u = e := by
      rw [List.mem_append,List.mem_singleton]
    refine ⟨⟨fun u hu' hc' ha' => ?_,fun u hu' hc' ha' => ?_,fun u hu' hc' => ?_,⟨fun u hu' => ?_,fun p u hp => ?_⟩,?_,
      hi.sound.inside,hi.sound.inverse⟩,hi.index,hi.clonable,fun p u hp => hi.short p u (hother hp).2⟩
    · change Function.update s.allocated e false u = false at ha'
      change (s.freeFifos ++ [e]).count u = 1 ∧ ∀ p, Function.update s.qPtr q none p ≠ some u
      rw [List.count_append]
      by_cases hue : u = e
      · subst hue
        rw [List.count_eq_zero.mpr hfree,List.count_singleton_self]
        exact ⟨rfl,fun p hp => (hother hp).1 (honly p (hother hp).2)⟩
      · rw [Function.update_of_ne hue] at ha'
        obtain ⟨h1,h2⟩ := hi.sound.free u hu' hc' ha'
        rw [h1,List.count_singleton,if_neg (by simpa using Ne.symm hue)]
        exact ⟨rfl,fun p hp => h2 p (hother hp).2⟩
    · change Function.update s.allocated e false u = true at ha'
      have hue : u ≠ e := by
        rintro rfl
        rw [Function.update_self] at ha'
        cases ha'
      rw [Function.update_of_ne hue] at ha'
      obtain ⟨h1,p,h2,h3⟩ := hi.sound.held u hu' hc' ha'
      have hpq : p ≠ q := by
        rintro rfl
        exact hue (Option.some.inj (h2.symm.trans hq))
      exact ⟨fun h => ((hmem u).mp h).elim h1 hue,p,(Function.update_of_ne hpq ..).trans h2,fun p' hp' =>
        h3 p' (hother hp').2⟩
    · obtain ⟨h1,h2,h3⟩ := hi.sound.clone u hu' hc'
      have hue : u ≠ e := by
        rintro rfl
        exact Bool.noConfusion (hc.symm.trans hc')
      exact ⟨(Function.update_of_ne hue ..).trans h1,fun h => ((hmem u).mp h).elim h2 hue,
        fun p hp => h3 p (hother hp).2⟩
    · exact ((hmem u).mp hu').elim (hi.sound.range.1 u) fun h => h ▸ hu
    · exact hi.sound.range.2 p u (hother hp).2
    · change s.numFreeFifos + 1 = ((s.freeFifos ++ [e]).length : ℤ)
      rw [hi.sound.count,List.length_append,List.length_singleton]
      push_cast
      rfl

/-! ### Opens -/

theorem Inv.failed (hi : Inv c s) (z : ℤ) : Inv c { s with ret := z } :=
  ⟨⟨hi.sound.1,hi.sound.2,hi.sound.3,hi.sound.4,hi.sound.5,hi.sound.6,hi.sound.7⟩,hi.2,hi.3,hi.4⟩

/- A unit is taken, and no stream gets it. -/
theorem Inv.leak (hi : Inv c s) (he : e ∈ s.freeFifos) (hc : t.clonable = s.clonable)
    (ha : t.allocated = (taken s e).allocated) (hq : ∀ p, t.qPtr p ≠ some e) : ¬ t.Sound c := by
  intro ht
  obtain ⟨hu,hce,-⟩ := hi.of_free he
  obtain ⟨-,p,hp,-⟩ := ht.held e hu (by rw [hc]; exact hce) (by rw [ha]; exact Function.update_self ..)
  exact hq p hp

theorem opened_qPtr (s : Fifos) (c : Config) (q m : ℕ) :
    (s.opened c q m).qPtr = if s.qPtr q = none then Function.update s.qPtr q (some m) else s.qPtr := rfl

/- What follows when `fifo_alloc` has taken a unit. -/
theorem Inv.got (hi : Inv c s) (hf : c.Fits) (he : e ∈ s.freeFifos) (q : ℕ)
    (ht : t = if toShort e < 0 then { taken s e with ret := toShort e } else (taken s e).opened c q (toShort e).toNat) :
    ((e < 2 ^ 15 ∧ s.qPtr q = none) ↔ t.Sound c) ∧ (e < 2 ^ 15 ∧ s.qPtr q = none → Inv c t) := by
  by_cases hg : e < 2 ^ 15 ∧ s.qPtr q = none
  · have hshort : toShort e = e := Int.bmod_eq_of_le (by omega) (by omega)
    rw [hshort,if_neg (not_lt.mpr (Int.natCast_nonneg e)),Int.toNat_natCast] at ht
    have hinv : Inv c t := ht ▸ hi.take hf he hg.1 hg.2
    exact ⟨iff_of_true hg hinv.sound,fun _ => hinv⟩
  · obtain ⟨hu,hc,ha⟩ := hi.of_free he
    have hnone := (hi.sound.free e hu hc ha).2
    refine ⟨iff_of_false hg ?_,fun h => absurd h hg⟩
    split_ifs at ht with hneg
    · rw [ht]
      exact hi.leak he rfl rfl hnone
    · rw [ht]
      refine hi.leak he rfl rfl fun p hp => ?_
      rw [opened_qPtr] at hp
      split_ifs at hp with hq
      · by_cases hpq : p = q
        · -- the index that has become another one
          subst hpq
          rw [Function.update_self,Option.some.injEq] at hp
          have hlt : toShort e < 2 ^ 15 := @Int.bmod_lt e (2 ^ 16) (by decide)
          exact hg ⟨by omega,hq⟩
        · rw [Function.update_of_ne hpq] at hp
          exact hnone p hp
      · exact hnone p hp

theorem fault_open (hm : 0 ≤ Fifos.wanted c dev clone) (hle : c.units ≤ Fifos.wanted c dev clone) :
    (s.fifoOpen c q dev clone).fault = true := by
  have halloc (s : Fifos) (z : ℤ) (hs : s.fault = true) : (s.fifoAlloc c z).2.fault = true := by
    rw [Fifos.fifoAlloc]
    by_cases hz : (c.units : ℤ) < z
    · rw [if_pos hz]
      exact hs
    · rw [if_neg hz]
      cases s.freeFifos with
      | nil => exact hs
      | cons e l =>
        simp only [hs,Bool.true_or]
        split_ifs <;> rfl
  have hopened (s : Fifos) (m : ℕ) (hs : s.fault = true) : (s.opened c q m).fault = true := by
    change (s.fault || _ || _) = true
    rw [hs]
    rfl
  rw [Fifos.fifoOpen,← Fifos.wanted,if_neg (not_lt.mpr hm)]
  simp only [decide_eq_true hle,Bool.or_true]
  split_ifs
  · exact halloc _ _ rfl
  · exact hopened _ _ (halloc _ _ rfl)
  · exact halloc _ _ rfl
  · exact hopened _ _ (halloc _ _ rfl)
  · exact hopened _ _ rfl

theorem Inv.open (hi : Inv c s) (hf : c.Fits) (q dev : ℕ) (clone : Bool) (ht : t = s.fifoOpen c q dev clone) :
    (s.Guard c (.open q dev clone) ↔ t.Sound c ∧ s.Reopens c t (.open q dev clone)) ∧
      (s.Guard c (.open q dev clone) → Inv c t) := by
  rw [Fifos.fifoOpen,← Fifos.wanted] at ht
  simp only [Fifos.Guard]
  generalize hm : Fifos.wanted c dev clone = m at ht
  by_cases hneg : m < 0
  · rw [if_pos hneg] at ht
    have hinv : Inv c t := ht ▸ hi.failed m
    have hret : t.ret = m := by rw [ht]
    exact ⟨iff_of_true (Or.inl hneg) ⟨hinv.sound,fun u _ h0 => absurd (hret.symm.trans h0) (ne_of_lt hneg)⟩,
      fun _ => hinv⟩
  by_cases hle : c.units ≤ m
  · refine ⟨iff_of_false (fun h => ?_) fun h => ?_,fun h => ?_⟩
    · rcases h with h | ⟨h,-⟩ <;> omega
    · have hfault : (s.fifoOpen c q dev clone).fault = true := fault_open (by omega) (by omega)
      rw [Fifos.fifoOpen,← Fifos.wanted,hm,← ht] at hfault
      exact Bool.noConfusion (hfault.symm.trans h.1.inside)
    · rcases h with h | ⟨h,-⟩ <;> omega
  have hsame : ({ s with fault := s.fault || decide (c.units ≤ m) } : Fifos) = s := by
    rw [decide_eq_false hle,Bool.or_false]
  obtain ⟨k,rfl⟩ := Int.eq_ofNat_of_zero_le (not_lt.mp hneg)
  rw [if_neg hneg] at ht
  simp only [hsame,Int.toNat_natCast] at ht
  have hk : k < c.units := by omega
  have hguard (p : Prop) : ((k : ℤ) < 0 ∨ (k : ℤ) < c.units ∧ p) ↔ p :=
    ⟨fun h => h.elim (fun h => absurd h hneg) And.right,fun h => Or.inr ⟨by omega,h⟩⟩
  rw [Int.toNat_natCast,hguard]
  -- no unit is left, or it is in use
  have hrefused (z : ℤ) (hz : z < 0) (h : t = { s with ret := z }) :
      t.Sound c ∧ s.Reopens c t (.open q dev clone) ∧ Inv c t := by
    have hinv : Inv c t := h ▸ hi.failed z
    have hret : t.ret = z := by rw [h]
    exact ⟨hinv.sound,fun u _ h0 => absurd (hret.symm.trans h0) (ne_of_lt hz),hinv⟩
  cases hc : s.clonable k with
  | true =>
    rw [if_pos hc] at ht
    rw [if_pos rfl]
    cases hl : s.freeFifos with
    | nil =>
      have hfail : s.fifoAlloc c (-1) = (- EMFILE,s) := by rw [Fifos.fifoAlloc,if_neg (by omega),hl]
      simp only [hfail] at ht
      rw [if_pos (by decide)] at ht
      obtain ⟨h1,h2,h3⟩ := hrefused _ (by decide) ht
      refine ⟨iff_of_true (fun u hu => ?_) ⟨h1,h2⟩,fun _ => h3⟩
      cases hu
    | cons e l =>
      have he : e ∈ s.freeFifos := hl ▸ List.mem_cons_self ..
      simp only [hi.alloc_unit he (Or.inr ⟨show (-1 : ℤ) < 0 by decide,by rw [hl]; rfl⟩)] at ht
      obtain ⟨h1,h2⟩ := hi.got hf he q ht
      have hg : (∀ u ∈ (e :: l).head?, u < 2 ^ 15 ∧ s.qPtr q = none) ↔ e < 2 ^ 15 ∧ s.qPtr q = none := by simp
      rw [hg]
      refine ⟨⟨fun h => ⟨h1.mp h,fun u hu => absurd (h.2.symm.trans hu) (by simp)⟩,fun h => h1.mpr h.1⟩,h2⟩
  | false =>
    rw [if_neg (by rw [hc]; decide)] at ht
    rw [if_neg (by decide)]
    cases hq : s.qPtr q with
    | none =>
      rw [if_pos hq] at ht
      have hnone (p : Prop) : (((none : Option ℕ) = none → p) ∧ ∀ u ∈ (none : Option ℕ), (k : ℤ) = u) ↔ p := by simp
      rw [hnone]
      have hreopens : s.Reopens c t (.open q dev clone) := fun u hu => absurd (hq.symm.trans hu) (by simp)
      by_cases hfail : s.freeFifos = [] ∨ s.allocated k = true
      · have hret : ∃ z, z < 0 ∧ s.fifoAlloc c k = (z,s) := by
          rw [Fifos.fifoAlloc,if_neg (by omega)]
          cases hl : s.freeFifos with
          | nil => exact ⟨- EMFILE,by decide,rfl⟩
          | cons e l =>
            have ha := hfail.resolve_left (by rw [hl]; simp)
            have hsame' : ({ s with fault := s.fault || decide (c.units ≤ k) } : Fifos) = s := by
              rw [decide_eq_false (not_le.mpr hk),Bool.or_false]
            rw [hl] at hsame'
            simp only [if_neg hneg,Int.toNat_natCast]
            rw [if_pos ha]
            exact ⟨- EBUSY,by decide,Prod.ext rfl hsame'⟩
        obtain ⟨z,hz,hfa⟩ := hret
        simp only [hfa] at ht
        rw [if_pos hz] at ht
        obtain ⟨h1,h2,h3⟩ := hrefused z hz ht
        exact ⟨iff_of_true (hfail.imp_right Or.inl) ⟨h1,h2⟩,fun _ => h3⟩
      · obtain ⟨hne,ha⟩ := not_or.mp hfail
        have he : k ∈ s.freeFifos := List.count_pos_iff.mp (by
          rw [(hi.sound.free k hk hc (Bool.eq_false_of_not_eq_true ha)).1]
          exact Nat.one_pos)
        simp only [hi.alloc_unit he (Or.inl rfl)] at ht
        obtain ⟨h1,h2⟩ := hi.got hf he q ht
        have hg : (s.freeFifos = [] ∨ s.allocated k = true ∨ (k : ℤ) < 2 ^ 15) ↔ k < 2 ^ 15 ∧ s.qPtr q = none := by
          rw [or_iff_right hne,or_iff_right ha,and_iff_left hq]
          omega
        rw [hg]
        exact ⟨⟨fun h => ⟨h1.mp h,hreopens⟩,fun h => h1.mpr h.1⟩,h2⟩
    | some u =>
      rw [if_neg (by rw [hq]; simp)] at ht
      have hsome (p : Prop) : ((some u = none → p) ∧ ∀ v ∈ some u, (k : ℤ) = v) ↔ (k : ℤ) = u := by simp
      rw [hsome]
      have hfault : (s.fault || decide (c.majors.length ≤ k / c.maxminors) || decide (c.units ≤ k)) = false := by
        rw [hi.sound.inside,decide_eq_false (not_le.mpr (hf.div_lt hk)),decide_eq_false (not_le.mpr hk)]
        rfl
      have hinv : Inv c t := by
        rw [ht,Fifos.opened,hfault,if_neg (by rw [hq]; simp)]
        exact ⟨⟨hi.sound.1,hi.sound.2,hi.sound.3,hi.sound.4,hi.sound.5,rfl,hi.sound.7⟩,hi.2,hi.3,hi.4⟩
      have hdev : t.dev = c.fifoMkdev k ∧ t.ret = 0 := by rw [ht]; exact ⟨rfl,rfl⟩
      refine ⟨⟨fun hku => ⟨hinv.sound,fun v hv _ => ?_⟩,fun h => ?_⟩,fun _ => hinv⟩
      · obtain rfl := Option.some.inj (hq.symm.trans hv)
        obtain rfl : k = u := by exact_mod_cast hku
        exact hdev.1
      · -- the device names the unit
        have heq := hdev.1.symm.trans (h.2 u hq hdev.2)
        have h1 := hi.sound.inverse k hk
        have h2 := hi.sound.inverse u (hi.sound.range.2 q u hq)
        rw [heq,h2] at h1
        exact h1.symm

/-! ### Every sequence of calls -/

/- In every state that is reached the units are right, and a reopen has returned the same device. -/
def Always (c : Config) (calls : List FifoCall) : Prop :=
  (Fifos.fifoInit c).Sound c ∧
    Meets (step c) (fun s call => ∀ t, step c s call = some t → t.Sound c ∧ s.Reopens c t call) (.fifoInit c) calls

theorem exec_some (c : Config) (s : Fifos) (calls : List FifoCall) : ∃ t, exec (step c) s calls = some t := by
  induction calls generalizing s with
  | nil => exact ⟨s,rfl⟩
  | cons call calls ih =>
    cases call with
    | «open» q dev clone => exact ih _
    | close q => exact ih _

theorem units_right (c : Config) (hm : c.majors ≠ []) (hnd : c.majors.Nodup) (calls : List FifoCall) :
    Always c calls ↔ c.Fits ∧ Meets (step c) (Fifos.Guard c) (.fifoInit c) calls := by
  by_cases hf : c.Fits
  · have hinit := inv_init hf hnd
    obtain ⟨t,ht⟩ := exec_some c (.fifoInit c) calls
    rw [Always,and_iff_right hinit.sound,and_iff_right hf]
    refine (meets_congr (fun s call t hi h => ?_) hinit ht).symm
    have honly (p : Fifos → Prop) : (∀ u, step c s call = some u → p u) ↔ p t :=
      ⟨fun hp => hp t h,fun hp u hu => Option.some.inj (h.symm.trans hu) ▸ hp⟩
    rw [honly fun u => u.Sound c ∧ s.Reopens c u call]
    cases call with
    | «open» q dev clone => exact hi.open hf q dev clone (Option.some.inj h).symm
    | close q =>
      have hinv : Inv c t := Option.some.inj h ▸ hi.close q
      exact ⟨iff_of_true trivial ⟨hinv.sound,trivial⟩,fun _ => hinv⟩
  · exact iff_of_false (fun h => not_sound_init hm hnd hf h.1) fun h => hf h.1

/- Two majors with three minors each: a clone open, its reopen and an open of an explicit device. -/
def twoMajors : Config := ⟨6,[60,61]⟩

def opens : List FifoCall :=
  [.open 7 0 true,.open 7 (makedevice 60 1) false,.open 8 (makedevice 61 2) false,.close 7,
    .open 9 (makedevice 61 0) false]

theorem units_right_twoMajors : Always twoMajors opens :=
  (units_right twoMajors (by decide) (by decide) opens).mpr (by decide +kernel)

/- Three units for two majors: the third unit has no major. -/
theorem not_even : ¬ ∀ c : Config, c.majors ≠ [] → c.majors.Nodup → ∀ calls, Always c calls := by
  intro h
  have hs := (h ⟨3,[60,61]⟩ (by decide) (by decide) []).1.inside
  exact absurd hs (by decide +kernel)

end CSLiS.Fifo.Units
