import CSLiS.Mod.Registry

/-!
# The counts and semaphores of the modules

Between two calls `lis_mod_reg` is free and no `f_sem` is held, `f_count` has the instances on streams, and
a slot in the state LOADING has a `lis_loadmod` that waits for it. A call keeps this as long as it does not
enter a name in a slot that has instances, and no error exit is taken that leaves a semaphore behind.
-/

namespace CSLiS.Mod.Registry
open Queue Lib Lib.Exec Lib.Crew

variable (s : Registry)

/-- The instances of the module in slot `i` on all streams. -/
def instances (i : ℕ) : ℕ := total (fun hd => tally (fun m => m.slot == i) hd.stack) s.streams

structure Balanced : Prop where
  released : s.lisModReg = 1
  held : ∀ i, s.semHeld i = 0
  count : ∀ i, i < MAX_STRMOD → (s.sw i).fCount.toNat = s.instances i
  loading : ∀ i, i < MAX_STRMOD → (s.sw i).fState = LOADING → i ∈ s.loads

/- What holds of the slots while the semaphores are held, too. -/
structure Counted : Prop where
  pos : 0 < s.lisFmodcnt
  le : s.lisFmodcnt ≤ MAX_STRMOD
  low : s.instances 0 = 0
  high : ∀ i, s.lisFmodcnt ≤ i → s.instances i = 0
  count : ∀ i, i < MAX_STRMOD → (s.sw i).fCount.toNat = s.instances i
  loading : ∀ i, i < MAX_STRMOD → (s.sw i).fState = LOADING → i ∈ s.loads
  states : ∀ i, i < MAX_STRMOD → (s.sw i).fState ≤ UNKNOWN
  named : ∀ i, i < MAX_STRMOD → (s.sw i).fName ≠ [] → (s.sw i).semAlloc = true
  loads : ∀ i ∈ s.loads, i < MAX_STRMOD

/-- The streams are as they were, and no slot with instances has been given up. -/
structure Quiet (t : Registry) : Prop where
  counted : t.Counted
  streams : t.streams = s.streams
  kept : ∀ i, i < MAX_STRMOD → (s.sw i).inited = true → (t.sw i).inited = false → s.instances i = 0

variable {s} {t u : Registry} {f : Fmodsw} {id i : ℕ} {n : Name}

theorem Counted.refl (h : s.Counted) : s.Quiet s := ⟨h,rfl,fun _ _ h1 h2 => Bool.noConfusion (h1.symm.trans h2)⟩

theorem instances_of_streams (h : t.streams = s.streams) (i : ℕ) : t.instances i = s.instances i := by
  rw [instances,instances,h]

theorem Quiet.trans (h : s.Quiet t) (h' : t.Quiet u) : s.Quiet u := by
  refine ⟨h'.counted,h'.streams.trans h.streams,fun i hi hs hu => ?_⟩
  cases ht : (t.sw i).inited with
  | false => exact h.kept i hi hs ht
  | true => exact instances_of_streams h.streams i ▸ h'.kept i hi ht hu

/- Nothing has changed but the semaphores and what was looked at. -/
theorem Counted.same (h : s.Counted) (hsw : t.sw = s.sw) (hc : t.lisFmodcnt = s.lisFmodcnt) (hl : t.loads = s.loads)
    (hs : t.streams = s.streams) : s.Quiet t := by
  refine ⟨⟨hc ▸ h.pos,hc ▸ h.le,(instances_of_streams hs 0).trans h.low,fun i hi => ?_,fun i hi => ?_,fun i hi => ?_,?_,?_,?_⟩,hs,
    fun i _ h1 h2 => ?_⟩
  · exact (instances_of_streams hs i).trans (h.high i (hc ▸ hi))
  · rw [hsw,instances_of_streams hs]
    exact h.count i hi
  · rw [hsw,hl]
    exact h.loading i hi
  · exact hsw ▸ h.states
  · exact hsw ▸ h.named
  · exact hl ▸ h.loads
  · rw [hsw,h1] at h2
    cases h2

/-! ### One slot -/

/- What a slot of the table has to be. -/
structure Sound (s : Registry) (id : ℕ) (f : Fmodsw) : Prop where
  count : f.fCount.toNat = s.instances id
  loading : f.fState = LOADING → id ∈ s.loads
  states : f.fState ≤ UNKNOWN
  named : f.fName ≠ [] → f.semAlloc = true

theorem Counted.sound (h : s.Counted) (hi : i < MAX_STRMOD) : s.Sound i (s.sw i) :=
  ⟨h.count i hi,h.loading i hi,h.states i hi,h.named i hi⟩

theorem setSlot_self : (s.setSlot id f).sw id = f := Function.update_self ..

theorem setSlot_of_ne (h : i ≠ id) : (s.setSlot id f).sw i = s.sw i := Function.update_of_ne h ..

theorem Counted.setSlot (h : s.Counted) (hf : id < MAX_STRMOD → s.Sound id f)
    (hk : id < MAX_STRMOD → (s.sw id).inited = true → f.inited = false → s.instances id = 0) : s.Quiet (s.setSlot id f) := by
  have hsound : ∀ i, i < MAX_STRMOD → s.Sound i ((s.setSlot id f).sw i) := by
    intro i hi
    by_cases hne : i = id
    · subst hne
      rw [setSlot_self]
      exact hf hi
    · rw [setSlot_of_ne hne]
      exact h.sound hi
  refine ⟨⟨h.pos,h.le,h.low,h.high,fun i hi => (hsound i hi).count,fun i hi => (hsound i hi).loading,
    fun i hi => (hsound i hi).states,fun i hi => (hsound i hi).named,h.loads⟩,rfl,fun i hi hs ht => ?_⟩
  by_cases hne : i = id
  · subst hne
    rw [setSlot_self] at ht
    exact hk hi hs ht
  · rw [setSlot_of_ne hne,hs] at ht
    cases ht

/- The parts of the slot that are looked at here are the same. -/
theorem Counted.setSlot_same (h : s.Counted) (hc : f.fCount = (s.sw id).fCount) (hl : f.fState = (s.sw id).fState)
    (hn : f.fName = (s.sw id).fName) (ha : f.semAlloc = (s.sw id).semAlloc) (hi : f.inited = (s.sw id).inited) :
    s.Quiet (s.setSlot id f) := by
  refine h.setSlot (fun hid => ⟨hc ▸ h.count id hid,hl ▸ h.loading id hid,hl ▸ h.states id hid,?_⟩) fun _ h1 h2 => ?_
  · rw [hn,ha]
    exact h.named id hid
  · rw [hi,h1] at h2
    cases h2

theorem Counted.initialize_module (h : s.Counted) (id : ℕ) (h0 : id < MAX_STRMOD → s.instances id = 0) (n : Name)
    (state : BitVec 8) (hs : state ≤ UNKNOWN) (hl : state ≠ LOADING) : s.Quiet (s.initializeModule id n state) :=
  h.setSlot (fun hid => ⟨(h0 hid).symm,fun hc => absurd hc hl,hs,fun _ => rfl⟩) fun _ _ hc => Bool.noConfusion hc

theorem Counted.deinit (h : s.Counted) (id : ℕ) (h0 : id < MAX_STRMOD → s.instances id = 0) : s.Quiet (s.deinitializeModule id) :=
  h.setSlot (fun hid => ⟨(h0 hid).symm,fun hc => absurd hc (show ¬UNKNOWN = LOADING by decide),
    show UNKNOWN ≤ UNKNOWN by decide,fun hc => absurd rfl hc⟩) fun hid _ _ => h0 hid

theorem Counted.upReg (h : s.Counted) : s.Quiet s.upReg := h.same rfl rfl rfl rfl

theorem Counted.search (h : s.Counted) (l : List ℕ) (p : Fmodsw → Bool) : s.Quiet (s.search l p).2 := h.same rfl rfl rfl rfl

theorem Counted.upSem (h : s.Counted) (id : ℕ) : s.Quiet (s.upSem id) := by
  have hq : s.Quiet (s.setSlot id { s.sw id with fSem := (s.sw id).fSem + 1 }) := h.setSlot_same rfl rfl rfl rfl rfl
  exact hq.trans (hq.counted.same rfl rfl rfl rfl)

theorem downReg_cases {intr : Bool} {d : Bool × Registry} (hd : s.downReg intr = some d) :
    (intr = true ∧ d = (false,s)) ∨
      (intr = false ∧ s.lisModReg ≠ 0 ∧ d = (true,{ s with lisModReg := s.lisModReg - 1 })) := by
  unfold downReg at hd
  split_ifs at hd with hi h0
  · exact Or.inl ⟨hi,(Option.some.inj hd).symm⟩
  · exact Or.inr ⟨eq_false_of_ne_true hi,h0,(Option.some.inj hd).symm⟩

theorem downSem_cases {intr : Bool} {d : Bool × Registry} (h : s.Counted) (hd : s.downSem id intr = some d) :
    s.Quiet d.2 ∧ d.2.lisModReg = s.lisModReg ∧
      ((d.1 = false ∧ (intr = true ∨ (s.sw id).semAlloc = false) ∧ d.2.semHeld = s.semHeld ∧ d.2.sw = s.sw) ∨
        (d.1 = true ∧ d.2.semHeld = Function.update s.semHeld id (s.semHeld id + 1) ∧
          d.2.sw = Function.update s.sw id { s.sw id with fSem := (s.sw id).fSem - 1 })) := by
  simp only [downSem] at hd
  split_ifs at hd with hi h0
  · obtain rfl := Option.some.inj hd
    refine ⟨h.same rfl rfl rfl rfl,rfl,Or.inl ⟨rfl,?_,rfl,rfl⟩⟩
    rwa [Bool.or_eq_true,Bool.not_eq_true'] at hi
  · obtain rfl := Option.some.inj hd
    have hq : s.Quiet (s.setSlot id { s.sw id with fSem := (s.sw id).fSem - 1 }) := h.setSlot_same rfl rfl rfl rfl rfl
    exact ⟨hq.trans (hq.counted.same rfl rfl rfl rfl),rfl,Or.inr ⟨rfl,rfl,rfl⟩⟩

/- Taken and given back. -/
theorem upSem_held (h : t.semHeld = Function.update s.semHeld id (s.semHeld id + 1)) : (t.upSem id).semHeld = s.semHeld := by
  show Function.update t.semHeld id (t.semHeld id - 1) = s.semHeld
  rw [h,Function.update_self,Function.update_idem,add_sub_cancel_right,Function.update_eq_self]

/-! ### Names are entered -/

/- The slot that `find_empty_mod_index` takes, MAX_STRMOD when there is none. -/
def spare (s : Registry) : ℕ := ((List.range' 1 (s.lisFmodcnt - 1)).find? fun i => (s.sw i).fName == []).getD s.lisFmodcnt

/- The slot that `lis_register_strmod` enters a name in. -/
def place (s : Registry) (n : Name) : ℕ := ((List.range' 1 s.lisFmodcnt).find? fun i => (s.sw i).fName == n).getD s.spare

def Idle (s : Registry) (i : ℕ) : Prop := i < MAX_STRMOD → (s.sw i).fCount = 0

/- The semaphores are as they were. -/
structure Silent (s t : Registry) : Prop where
  quiet : s.Quiet t
  reg : t.lisModReg = s.lisModReg
  held : t.semHeld = s.semHeld

theorem Silent.trans (h : s.Silent t) (h' : t.Silent u) : s.Silent u :=
  ⟨h.quiet.trans h'.quiet,h'.reg.trans h.reg,h'.held.trans h.held⟩

theorem Counted.idle (h : s.Counted) (hi : s.Idle i) (hm : i < MAX_STRMOD) : s.instances i = 0 := by
  rw [← h.count i hm,hi hm]
  rfl

theorem spare_le (h : s.Counted) : s.spare ≤ s.lisFmodcnt := by
  rw [spare]
  cases hf : (List.range' 1 (s.lisFmodcnt - 1)).find? fun i => (s.sw i).fName == [] with
  | none => exact le_rfl
  | some i =>
    have hi := List.mem_range'_1.mp (List.mem_of_find?_eq_some hf)
    have := h.pos
    show i ≤ s.lisFmodcnt
    omega

theorem findEmptyModIndex_silent (h : s.Counted) (n : Name) (hi : s.Idle s.spare) :
    s.Silent (s.findEmptyModIndex n).2 ∧
      ((s.spare = MAX_STRMOD ∧ (s.findEmptyModIndex n).1 = 0) ∨
        (s.spare < MAX_STRMOD ∧ 0 < s.spare ∧ (s.findEmptyModIndex n).1 = s.spare ∧
          ((s.findEmptyModIndex n).2.sw s.spare).semAlloc = true)) := by
  have hle := h.le
  have hpos := h.pos
  have hspare := spare_le h
  have hinit : s.Silent ((s.search (List.range' 1 (s.lisFmodcnt - 1)) fun f => f.fName == []).2.initializeModule s.spare n
      UNKNOWN) := by
    have hq := h.search (List.range' 1 (s.lisFmodcnt - 1)) fun f => f.fName == []
    exact ⟨hq.trans (hq.counted.initialize_module _ (fun hm => h.idle hi hm) n _ (by decide) (by decide)),rfl,rfl⟩
  simp only [findEmptyModIndex]
  cases hf : (s.search (List.range' 1 (s.lisFmodcnt - 1)) fun f => f.fName == []).1 with
  | some id =>
    have hs : s.spare = id := congrArg (fun o => o.getD s.lisFmodcnt) hf
    have hid := List.mem_range'_1.mp (List.mem_of_find?_eq_some hf)
    rw [hs] at hinit ⊢
    exact ⟨hinit,Or.inr ⟨by omega,by omega,rfl,congrArg Fmodsw.semAlloc setSlot_self⟩⟩
  | none =>
    have hs : s.spare = s.lisFmodcnt := congrArg (fun o => o.getD s.lisFmodcnt) hf
    rw [hs] at hinit ⊢
    by_cases hfull : s.lisFmodcnt = MAX_STRMOD
    · simp only [if_pos hfull]
      exact ⟨⟨h.search ..,rfl,rfl⟩,Or.inl ⟨hfull,trivial⟩⟩
    · simp only [if_neg hfull]
      have hc := hinit.quiet.counted
      exact ⟨⟨⟨⟨Nat.succ_pos _,Nat.lt_of_le_of_ne hle hfull,hc.low,fun i hi => hc.high i (Nat.le_of_succ_le hi),hc.count,hc.loading,
        hc.states,hc.named,hc.loads⟩,rfl,hinit.quiet.kept⟩,rfl,rfl⟩,Or.inr ⟨by omega,hpos,trivial,congrArg Fmodsw.semAlloc setSlot_self⟩⟩

theorem enter_quiet (h : s.Counted) (id : ℕ) (h0 : id < MAX_STRMOD → s.instances id = 0) (strtab : Option ℕ) (n : Name) (b : Bool) :
    s.Quiet (s.enter id strtab n b).2 ∧ (s.enter id strtab n b).2.lisModReg = s.lisModReg + 1 ∧
      (s.enter id strtab n b).2.semHeld = s.semHeld := by
  simp only [enter]
  by_cases hfull : id = s.lisFmodcnt ∧ id = MAX_STRMOD
  · rw [if_pos hfull]
    exact ⟨h.upReg,rfl,rfl⟩
  · rw [if_neg hfull]
    have hgrow : s.Quiet (if id = s.lisFmodcnt then { s with lisFmodcnt := s.lisFmodcnt + 1 } else s) := by
      split_ifs with hid
      · have hlt := Nat.lt_of_le_of_ne h.le fun hc => hfull ⟨hid,hid.trans hc⟩
        exact ⟨⟨Nat.succ_pos _,hlt,h.low,fun i hi => h.high i (Nat.le_of_succ_le hi),h.count,h.loading,h.states,h.named,h.loads⟩,
          rfl,h.refl.kept⟩
      · exact h.refl
    have hreg : (if id = s.lisFmodcnt then { s with lisFmodcnt := s.lisFmodcnt + 1 } else s).lisModReg = s.lisModReg := by
      split_ifs <;> rfl
    have hheld : (if id = s.lisFmodcnt then { s with lisFmodcnt := s.lisFmodcnt + 1 } else s).semHeld = s.semHeld := by
      split_ifs <;> rfl
    generalize (if id = s.lisFmodcnt then { s with lisFmodcnt := s.lisFmodcnt + 1 } else s) = v at *
    have hstr : v.Quiet (v.setSlot id { v.sw id with fStr := strtab }) := hgrow.counted.setSlot_same rfl rfl rfl rfl rfl
    have hq := (hgrow.trans hstr).counted.initialize_module id
      (fun hm => (instances_of_streams (hgrow.trans hstr).streams id).trans (h0 hm)) n
      (if b && strtab.isSome then LOADED else LINKED) (by split_ifs <;> decide) (by split_ifs <;> decide)
    exact ⟨((hgrow.trans hstr).trans hq).trans hq.counted.upReg,congrArg (· + 1) hreg,hheld⟩

theorem registerName_quiet (h : s.Counted) (strtab : Option ℕ) (hi : s.Idle (s.place n)) :
    s.Quiet (s.registerName strtab n).2 ∧ (s.registerName strtab n).2.lisModReg = s.lisModReg + 1 ∧
      (s.registerName strtab n).2.semHeld = s.semHeld := by
  have hf : s.Silent (s.findMod n).2 := ⟨h.search ..,rfl,rfl⟩
  simp only [registerName]
  cases hm : (s.findMod n).1 with
  | some inx =>
    have hp : s.place n = inx := congrArg (fun o => o.getD s.spare) hm
    have he := enter_quiet hf.quiet.counted inx (fun hx => h.idle (hp ▸ hi) hx) strtab n false
    exact ⟨hf.quiet.trans he.1,he.2.1,he.2.2⟩
  | none =>
    have hp : s.place n = s.spare := congrArg (fun o => o.getD s.spare) hm
    have hspare : (s.findMod n).2.spare = s.spare := rfl
    obtain ⟨hs,hid⟩ := findEmptyModIndex_silent hf.quiet.counted n (show s.Idle s.spare from hp ▸ hi)
    have h0 : ((s.findMod n).2.findEmptyModIndex n).1 < MAX_STRMOD →
        ((s.findMod n).2.findEmptyModIndex n).2.instances ((s.findMod n).2.findEmptyModIndex n).1 = 0 := by
      intro hx
      rw [instances_of_streams (hf.trans hs).quiet.streams]
      rcases hid with ⟨-,hz⟩ | ⟨hlt,-,hz,-⟩
      · rw [hz]
        exact h.low
      · rw [hz,hspare]
        exact h.idle (hp ▸ hi) (hspare ▸ hlt)
    have he := enter_quiet (hf.trans hs).quiet.counted _ h0 strtab n true
    exact ⟨(hf.trans hs).quiet.trans he.1,he.2.1.trans (congrArg (· + 1) (hf.trans hs).reg),he.2.2.trans (hf.trans hs).held⟩

/-! ### The calls -/

theorem findmodStrtab_silent {strtab : Option ℕ} {intr : Bool} {r : ℤ × Registry} (h : s.Counted)
    (hr : s.lisFindmodStrtab strtab intr = some r) : s.Silent r.2 ∧ r.2.sw = s.sw ∧ r.2.lisFmodcnt = s.lisFmodcnt ∧
      (0 < r.1 → ∃ a, strtab = some a ∧ (intr = true ∨ ∃ i, 0 < i ∧ i < s.lisFmodcnt ∧ (s.sw i).fStr = some a)) := by
  cases strtab with
  | none =>
    obtain rfl := Option.some.inj hr
    exact ⟨⟨h.refl,rfl,rfl⟩,rfl,rfl,fun hc => absurd hc (lt_irrefl (0 : ℤ))⟩
  | some a =>
    obtain ⟨d,hd,rfl⟩ := Option.map_eq_some_iff.mp hr
    rcases downReg_cases hd with ⟨hi,rfl⟩ | ⟨-,h0,rfl⟩
    · exact ⟨⟨h.refl,rfl,rfl⟩,rfl,rfl,fun _ => ⟨a,rfl,Or.inl hi⟩⟩
    · refine ⟨⟨h.same rfl rfl rfl rfl,Nat.sub_add_cancel (Nat.pos_of_ne_zero h0),rfl⟩,rfl,rfl,fun hp => ⟨a,rfl,Or.inr ?_⟩⟩
      cases hf : (List.range' 1 (s.lisFmodcnt - 1)).find? fun i => (s.sw i).fStr == some a with
      | none =>
        have hz : (0 : ℤ) < ((((List.range' 1 (s.lisFmodcnt - 1)).find? fun i => (s.sw i).fStr == some a).getD 0 : ℕ) : ℤ) := hp
        rw [hf] at hz
        exact absurd hz (by decide)
      | some i =>
        have hi := List.mem_range'_1.mp (List.mem_of_find?_eq_some hf)
        exact ⟨i,by omega,by omega,by simpa using List.find?_some hf⟩

/- The lookup answers something if there is something, or it was interrupted. -/
theorem found_pos {a : ℕ} {intr : Bool} {r : ℤ × Registry} (hr : s.lisFindmodStrtab (some a) intr = some r)
    (ha : intr = true ∨ ∃ i, 0 < i ∧ i < s.lisFmodcnt ∧ (s.sw i).fStr = some a) : 0 < r.1 := by
  obtain ⟨d,hd,rfl⟩ := Option.map_eq_some_iff.mp hr
  rcases downReg_cases hd with ⟨-,rfl⟩ | ⟨hi,-,rfl⟩
  · exact show (0 : ℤ) < midEintr by decide
  · obtain ⟨i,h0,hc,hi⟩ := ha.resolve_left fun hc => Bool.noConfusion (hi.symm.trans hc)
    show (0 : ℤ) < ((((List.range' 1 (s.lisFmodcnt - 1)).find? fun i => (s.sw i).fStr == some a).getD 0 : ℕ) : ℤ)
    cases hf : (List.range' 1 (s.lisFmodcnt - 1)).find? fun i => (s.sw i).fStr == some a with
    | none => exact absurd (beq_iff_eq.mpr hi) (List.find?_eq_none.mp hf i (List.mem_range'_1.mpr (by omega)))
    | some j =>
      have hj := List.mem_range'_1.mp (List.mem_of_find?_eq_some hf)
      exact Int.natCast_pos.mpr (Nat.lt_of_lt_of_le Nat.one_pos hj.1)

theorem register_silent {strtab : Option ℕ} {intr1 intr2 : Bool} {r : ℤ × Registry} (h : s.Counted)
    (hg : (∃ a, strtab = some a ∧ (intr1 = true ∨ ∃ i, 0 < i ∧ i < s.lisFmodcnt ∧ (s.sw i).fStr = some a)) ∨ intr2 = true ∨
      s.Idle (s.place n)) (hr : s.lisRegisterStrmod strtab (some n) intr1 intr2 = some r) : s.Silent r.2 := by
  obtain ⟨q,hq,hr⟩ := Option.bind_eq_some_iff.mp hr
  obtain ⟨hs,hsw,hcnt,hfound⟩ := findmodStrtab_silent h hq
  split_ifs at hr with hp
  · exact Option.some.inj hr ▸ hs
  · obtain ⟨d,hd,rfl⟩ := Option.map_eq_some_iff.mp hr
    rcases downReg_cases hd with ⟨-,rfl⟩ | ⟨hi2,h0,rfl⟩
    · exact hs
    · have hidle : s.Idle (s.place n) := by
        rcases hg with ⟨a,rfl,ha⟩ | hc | hidle
        · exact absurd (found_pos hq ha) hp
        · exact Bool.noConfusion (hi2.symm.trans hc)
        · exact hidle
      have hq : s.Quiet { q.2 with lisModReg := q.2.lisModReg - 1 } := hs.quiet.trans (hs.quiet.counted.same rfl rfl rfl rfl)
      have hplace : ({ q.2 with lisModReg := q.2.lisModReg - 1 } : Registry).place n = s.place n := by
        show ((List.range' 1 q.2.lisFmodcnt).find? fun i => (q.2.sw i).fName == n).getD
          (((List.range' 1 (q.2.lisFmodcnt - 1)).find? fun i => (q.2.sw i).fName == []).getD q.2.lisFmodcnt) = _
        rw [hsw,hcnt]
        rfl
      have hi : ({ q.2 with lisModReg := q.2.lisModReg - 1 } : Registry).Idle (s.place n) := by
        intro hm
        show (q.2.sw _).fCount = 0
        rw [hsw]
        exact hidle hm
      have hn := registerName_quiet hq.counted strtab (hplace.symm ▸ hi)
      exact ⟨hq.trans hn.1,hn.2.1.trans ((Nat.sub_add_cancel (Nat.pos_of_ne_zero h0)).trans hs.reg),hn.2.2.trans hs.held⟩

theorem unregisterModule_silent {intr : Bool} {r : ℤ × Registry} (h : s.Counted)
    (hg : intr = true ∨ (s.sw id).inited = false ∨ (s.sw id).fCount ≠ 0 ∨ (s.sw id).fState = LINKED ∨
      (s.sw id).fState = LOADING) (hr : s.unregisterModule id intr = some r) : s.Silent r.2 := by
  simp only [unregisterModule,Bool.not_eq_true'] at hr
  by_cases hi : (s.sw id).inited = false
  · rw [if_pos hi] at hr
    exact Option.some.inj hr ▸ ⟨h.refl,rfl,rfl⟩
  rw [if_neg hi] at hr
  by_cases hc : (s.sw id).fCount ≠ 0
  · rw [if_pos hc] at hr
    exact Option.some.inj hr ▸ ⟨h.refl,rfl,rfl⟩
  rw [if_neg hc] at hr
  obtain ⟨d,hd,rfl⟩ := Option.map_eq_some_iff.mp hr
  have h0 : s.Idle id := fun _ => not_not.mp hc
  obtain ⟨hq,hreg,⟨hf,-,hheld,-⟩ | ⟨hok,hheld,-⟩⟩ := downSem_cases h hd
  · rw [if_pos hf]
    exact ⟨hq,hreg,hheld⟩
  have hup := hq.trans (hq.counted.upSem id)
  rw [if_neg (by rw [hok]; exact Bool.noConfusion)]
  have hintr : intr ≠ true := by
    intro hc
    rw [downSem,hc,Bool.true_or,if_pos rfl] at hd
    obtain rfl := Option.some.inj hd
    cases hok
  rcases ((hg.resolve_left hintr).resolve_left hi).resolve_left hc with hl | hl
  · rw [if_pos hl]
    have hde := hup.counted.deinit id fun hm => (instances_of_streams hup.streams id).trans (h.idle h0 hm)
    exact ⟨hup.trans hde,hreg,upSem_held hheld⟩
  · rw [if_neg (by rw [hl]; decide),if_pos hl]
    exact ⟨hup,hreg,upSem_held hheld⟩

/- The slot that `lis_unregister_strmod` takes, looking from the count downwards. -/
def slotOf (s : Registry) (strtab : Option ℕ) : Option ℕ :=
  (List.range' 1 s.lisFmodcnt).reverse.find? fun i => (s.sw i).fStr == strtab

theorem unregister_silent {strtab : Option ℕ} {intr intrSem : Bool} {r : ℤ × Registry} (h : s.Counted)
    (hg : intr = true ∨ ∀ i, s.slotOf strtab = some i → intrSem = true ∨ (s.sw i).inited = false ∨ (s.sw i).fCount ≠ 0 ∨
      (s.sw i).fState = LINKED ∨ (s.sw i).fState = LOADING)
    (hr : s.lisUnregisterStrmod strtab intr intrSem = some r) : s.Silent r.2 := by
  obtain ⟨d,hd,hr⟩ := Option.bind_eq_some_iff.mp hr
  rcases downReg_cases hd with ⟨-,rfl⟩ | ⟨hi,h0,rfl⟩
  · exact Option.some.inj hr ▸ ⟨h.refl,rfl,rfl⟩
  · have hdown : s.Quiet { s with lisModReg := s.lisModReg - 1 } := h.same rfl rfl rfl rfl
    have hq := hdown.trans (hdown.counted.search (List.range' 1 s.lisFmodcnt).reverse fun f => f.fStr == strtab)
    have hback : s.lisModReg - 1 + 1 = s.lisModReg := Nat.sub_add_cancel (Nat.pos_of_ne_zero h0)
    simp only [Bool.not_true,Bool.false_eq_true,if_false] at hr
    generalize hv : (({ s with lisModReg := s.lisModReg - 1 } : Registry).search (List.range' 1 s.lisFmodcnt).reverse
      fun f => f.fStr == strtab).2 = v at hr hq
    have hvs : v.sw = s.sw ∧ v.lisModReg = s.lisModReg - 1 ∧ v.semHeld = s.semHeld := hv ▸ ⟨rfl,rfl,rfl⟩
    have hfst : (({ s with lisModReg := s.lisModReg - 1 } : Registry).search (List.range' 1 s.lisFmodcnt).reverse
        fun f => f.fStr == strtab).1 = s.slotOf strtab := rfl
    rw [hfst] at hr
    cases ho : s.slotOf strtab with
    | none =>
      rw [ho] at hr
      obtain rfl := Option.some.inj hr
      exact ⟨hq.trans hq.counted.upReg,(congrArg (· + 1) hvs.2.1).trans hback,hvs.2.2⟩
    | some slot =>
      rw [ho] at hr
      obtain ⟨w,hw,rfl⟩ := Option.map_eq_some_iff.mp hr
      have hgs := (hg.resolve_left fun hc => Bool.noConfusion (hi.symm.trans hc)) slot ho
      rw [← hvs.1] at hgs
      have hs := unregisterModule_silent hq.counted hgs hw
      exact ⟨(hq.trans hs.quiet).trans hs.quiet.counted.upReg,(congrArg (· + 1) (hs.reg.trans hvs.2.1)).trans hback,
        hs.held.trans hvs.2.2⟩

theorem lisFindmod_silent (h : s.Counted) (name : Option Name) : s.Silent (s.lisFindmod name).2 ∧
    (s.lisFindmod name).2.sw = s.sw ∧ (s.lisFindmod name).2.lisFmodcnt = s.lisFmodcnt ∧
      ((s.lisFindmod name).1 ≠ 0 → (s.sw (s.lisFindmod name).1).fName ≠ []) := by
  have hnone : s.Silent s ∧ s.sw = s.sw ∧ s.lisFmodcnt = s.lisFmodcnt ∧ ((0 : ℕ) ≠ 0 → (s.sw 0).fName ≠ []) :=
    ⟨⟨h.refl,rfl,rfl⟩,rfl,rfl,fun hc => absurd rfl hc⟩
  cases name with
  | none => exact hnone
  | some n =>
    cases n with
    | nil => exact hnone
    | cons c n =>
      refine ⟨⟨h.same rfl rfl rfl rfl,rfl,rfl⟩,rfl,rfl,fun h0 => ?_⟩
      have hone : (s.lisFindmod (some (c :: n))).1 =
          ((List.range' 1 s.lisFmodcnt).reverse.find? fun i => (s.sw i).fName == c :: n).getD 0 := rfl
      rw [hone] at h0 ⊢
      cases hf : (List.range' 1 s.lisFmodcnt).reverse.find? fun i => (s.sw i).fName == c :: n with
      | none =>
        rw [hf] at h0
        exact absurd rfl h0
      | some i =>
        have hn : (s.sw i).fName = c :: n := by simpa using List.find?_some hf
        show (s.sw i).fName ≠ []
        rw [hn]
        exact List.cons_ne_nil _ _

theorem states_cases {b : BitVec 8} (h : b ≤ UNKNOWN) :
    (b = LINKED ∨ b = LOADED) ∨ (b = UNLOADED ∨ b = UNKNOWN) ∨ b = LOADING := by
  revert b
  decide

theorem Counted.load (h : s.Counted) (hid : id < MAX_STRMOD) : s.Quiet { s with loads := s.loads ++ [id] } := by
  refine ⟨⟨h.pos,h.le,h.low,h.high,h.count,fun i hi hl => List.mem_append_left _ (h.loading i hi hl),h.states,h.named,
    fun i hi => ?_⟩,rfl,h.refl.kept⟩
  rcases List.mem_append.mp hi with hi | hi
  · exact h.loads i hi
  · exact List.mem_singleton.mp hi ▸ hid

theorem loadSlot_quiet {r : ℤ × Registry} (h : s.Counted) (hid : id < MAX_STRMOD) (ha : (s.sw id).semAlloc = true)
    (hr : s.loadSlot id false = some r) : s.Quiet r.2 ∧ r.2.lisModReg = s.lisModReg + 1 ∧ r.2.semHeld = s.semHeld := by
  obtain ⟨d,hd,rfl⟩ := Option.map_eq_some_iff.mp hr
  obtain ⟨hq,hreg,⟨-,hc | hc,-,-⟩ | ⟨hok,hheld,-⟩⟩ := downSem_cases h hd
  · cases hc
  · exact Bool.noConfusion (ha.symm.trans hc)
  have hup := hq.trans (hq.counted.upSem id)
  have hdone := hup.trans hup.counted.upReg
  dsimp only
  rw [if_neg (by rw [hok]; exact Bool.noConfusion)]
  rcases states_cases (hq.counted.states id hid) with hl | hl | hl
  · rw [if_pos hl]
    exact ⟨hdone,congrArg (· + 1) hreg,upSem_held hheld⟩
  · rw [if_neg (by rcases hl with hl | hl <;> rw [hl] <;> decide),if_pos hl]
    -- the slot is entered in the list of loads before it is LOADING
    have hload := hq.counted.load hid
    have hset : ({ d.2 with loads := d.2.loads ++ [id] } : Registry).Quiet
        (({ d.2 with loads := d.2.loads ++ [id] } : Registry).setSlot id { d.2.sw id with fState := LOADING }) :=
      hload.counted.setSlot (fun hm => ⟨hq.counted.count id hm,fun _ => List.mem_append_right _ (List.mem_singleton_self id),
        show LOADING ≤ UNKNOWN by decide,hq.counted.named id hm⟩) fun _ h1 h2 => Bool.noConfusion (h1.symm.trans h2)
    have hall := (hq.trans hload).trans hset
    have hups := hall.trans (hall.counted.upSem id)
    exact ⟨hups.trans hups.counted.upReg,congrArg (· + 1) hreg,upSem_held hheld⟩
  · rw [if_neg (by rw [hl]; decide),if_neg (by rw [hl]; decide),if_pos hl]
    exact ⟨hdone,congrArg (· + 1) hreg,upSem_held hheld⟩

/- The slot that `lis_loadmod` waits for: that of the name, or a spare one. -/
def Loadable (s : Registry) (n : Name) (intrSem : Bool) : Prop :=
  ((s.lisFindmod (some n)).1 ≠ 0 → (s.lisFindmod (some n)).1 < MAX_STRMOD ∧ intrSem = false) ∧
    ((s.lisFindmod (some n)).1 = 0 → s.spare < MAX_STRMOD → (s.sw s.spare).fCount = 0 ∧ intrSem = false)

theorem loadmod_silent {intr intrSem : Bool} {r : ℤ × Registry} (h : s.Counted) (hg : intr = true ∨ s.Loadable n intrSem)
    (hr : s.lisLoadmod n intr intrSem = some r) : s.Silent r.2 := by
  obtain ⟨hm,hsw,hcnt,hnamed⟩ := lisFindmod_silent h (some n)
  obtain ⟨d,hd,hr⟩ := Option.bind_eq_some_iff.mp hr
  rcases downReg_cases hd with ⟨-,rfl⟩ | ⟨hi,h0,rfl⟩
  · exact Option.some.inj hr ▸ hm
  · obtain ⟨hfound,hnew⟩ := hg.resolve_left fun hc => Bool.noConfusion (hi.symm.trans hc)
    simp only [Bool.not_true,Bool.false_eq_true,if_false] at hr
    generalize hv : ({ (s.lisFindmod (some n)).2 with lisModReg := (s.lisFindmod (some n)).2.lisModReg - 1 } : Registry) = v at hr
    have hq : s.Quiet v := hv ▸ hm.quiet.trans (hm.quiet.counted.same rfl rfl rfl rfl)
    have hback : v.lisModReg + 1 = s.lisModReg :=
      hv ▸ (Nat.sub_add_cancel (Nat.pos_of_ne_zero h0)).trans hm.reg
    have hheld : v.semHeld = s.semHeld := hv ▸ hm.held
    have hvsw : v.sw = s.sw := hv ▸ hsw
    have hvcnt : v.lisFmodcnt = s.lisFmodcnt := hv ▸ hcnt
    by_cases hz : (s.lisFindmod (some n)).1 = 0
    · have hsp : v.spare = s.spare := by rw [spare,hvsw,hvcnt,spare]
      have hidle : v.Idle v.spare := by
        intro hlt
        rw [hsp] at hlt ⊢
        rw [hvsw]
        exact (hnew hz hlt).1
      obtain ⟨he,hid⟩ := findEmptyModIndex_silent hq.counted n hidle
      have hqe := hq.trans he.quiet
      rw [if_pos hz] at hr
      rcases hid with ⟨-,hid⟩ | ⟨hlt,hpos,hid,ha⟩
      · rw [if_pos hid] at hr
        obtain rfl := Option.some.inj hr
        exact ⟨hqe.trans hqe.counted.upReg,(congrArg (· + 1) he.reg).trans hback,he.held.trans hheld⟩
      · rw [if_neg (by omega),(hnew hz (hsp ▸ hlt)).2,hid] at hr
        obtain ⟨hl,hreg,hlh⟩ := loadSlot_quiet hqe.counted hlt ha hr
        exact ⟨hqe.trans hl,hreg.trans ((congrArg (· + 1) he.reg).trans hback),hlh.trans (he.held.trans hheld)⟩
    · rw [if_neg hz,if_neg hz,(hfound hz).2] at hr
      have ha := h.named _ (hfound hz).1 (hnamed hz)
      rw [← hvsw] at ha
      obtain ⟨hl,hreg,hlh⟩ := loadSlot_quiet hq.counted (hfound hz).1 ha hr
      exact ⟨hq.trans hl,hreg.trans hback,hlh.trans hheld⟩

theorem loadDone_silent {k : ℕ} {ok : Bool} {r : ℤ × Registry} (h : s.Counted) (hk : s.loads[k]? = some id)
    (hg : (ok = true ∧ (s.sw id).fStr ≠ none) ∨ (s.sw id).fCount = 0) (hr : s.loadDone k ok = some r) :
    s.Silent r.2 ∧ (r.2.sw id).fState ≠ LOADING := by
  have hid : id < MAX_STRMOD := h.loads id (List.mem_of_getElem? hk)
  -- the slot is no longer LOADING when the call leaves the list
  have herase : ∀ v : Registry, s.Quiet v → v.loads = s.loads → (v.sw id).fState ≠ LOADING → ∀ l,
      s.Quiet { v with loads := v.loads.eraseIdx k, used := l } := by
    intro v hv hl hst l
    have hc := hv.counted
    refine ⟨⟨hc.pos,hc.le,hc.low,hc.high,hc.count,fun i hi hs => ?_,hc.states,hc.named,fun i hi =>
      hc.loads i (List.mem_of_mem_eraseIdx hi)⟩,hv.streams,hv.kept⟩
    have hne : i ≠ id := fun hx => hst (hx ▸ hs)
    obtain ⟨j,hj⟩ := List.mem_iff_getElem?.mp (hc.loading i hi hs)
    refine List.mem_eraseIdx_iff_getElem?.mpr ⟨j,fun hjk => hne ?_,hj⟩
    rw [hl,hjk,hk] at hj
    exact (Option.some.inj hj).symm
  rw [loadDone,hk] at hr
  obtain rfl := Option.some.inj hr
  dsimp only
  split_ifs with hc
  · have h0 : s.Idle id := by
      rcases hg with ⟨rfl,hs⟩ | hs
      · rw [Bool.not_true,Bool.false_or,Option.isNone_iff_eq_none] at hc
        exact absurd hc hs
      · exact fun _ => hs
    have hst : ((s.deinitializeModule id).sw id).fState ≠ LOADING := by
      rw [deinitializeModule,setSlot_self]
      exact show UNKNOWN ≠ LOADING by decide
    exact ⟨⟨herase _ (h.deinit id fun hm => h.idle h0 hm) rfl hst _,rfl,rfl⟩,hst⟩
  · have hst : ((s.setSlot id { s.sw id with fState := LOADED }).sw id).fState ≠ LOADING := by
      rw [setSlot_self]
      exact show LOADED ≠ LOADING by decide
    have hset : s.Quiet (s.setSlot id { s.sw id with fState := LOADED }) :=
      h.setSlot (fun hm => ⟨h.count id hm,fun hx => absurd hx (show ¬LOADED = LOADING by decide),
        show LOADED ≤ UNKNOWN by decide,h.named id hm⟩) fun _ h1 h2 => Bool.noConfusion (h1.symm.trans h2)
    exact ⟨⟨herase _ hset rfl hst _,rfl,rfl⟩,hst⟩

theorem states_or {b : BitVec 8} (h : b ≤ UNKNOWN) (hne : b ≠ UNKNOWN) : b ||| UNLOADED ≤ UNKNOWN ∧ b ||| UNLOADED ≠ LOADING := by
  revert b
  decide

theorem initMod_silent {modid : ℕ} {loadable : Bool} (h : s.Counted) (hg : loadable = true → (s.sw modid).fState ≠ UNKNOWN) :
    s.Silent (s.initMod i modid loadable) := by
  have h1 : s.Quiet (s.setSlot i { s.sw i with fState := 0 }) :=
    h.setSlot (fun hm => ⟨h.count i hm,fun hx => absurd hx (show ¬LINKED = LOADING by decide),show LINKED ≤ UNKNOWN by decide,
      h.named i hm⟩) fun _ h1 h2 => Bool.noConfusion (h1.symm.trans h2)
  refine ⟨h1.trans (h1.counted.setSlot (fun hm => ?_) fun _ h2 h3 => Bool.noConfusion (h2.symm.trans h3)),rfl,rfl⟩
  have hs := h1.counted.sound hm
  cases loadable with
  | false =>
    have h0 : ((s.setSlot i { s.sw i with fState := 0 }).sw modid).fState ||| LINKED =
        ((s.setSlot i { s.sw i with fState := 0 }).sw modid).fState := BitVec.or_zero
    exact ⟨hs.count,fun hx => hs.loading (h0.symm.trans hx),h0.symm ▸ hs.states,hs.named⟩
  | true =>
    have hne : ((s.setSlot i { s.sw i with fState := 0 }).sw modid).fState ≠ UNKNOWN := by
      by_cases hmi : modid = i
      · subst hmi
        rw [setSlot_self]
        exact show LINKED ≠ UNKNOWN by decide
      · rw [setSlot_of_ne hmi]
        exact hg rfl
    have hor := states_or hs.states hne
    exact ⟨hs.count,fun hx => absurd hx hor.2,hor.1,hs.named⟩

/-! ### Modules on streams -/

/- No slot is given up. -/
structure Moved (s t : Registry) : Prop where
  counted : t.Counted
  inited : ∀ i, (t.sw i).inited = (s.sw i).inited

theorem Counted.restack (h : s.Counted) (hc : t.lisFmodcnt = s.lisFmodcnt) (hl : t.loads = s.loads)
    (hsw : ∀ i, (t.sw i).fState = (s.sw i).fState ∧ (t.sw i).fName = (s.sw i).fName ∧
      (t.sw i).semAlloc = (s.sw i).semAlloc ∧ (t.sw i).inited = (s.sw i).inited)
    (h0 : t.instances 0 = 0) (hhigh : ∀ i, s.lisFmodcnt ≤ i → t.instances i = 0)
    (hcount : ∀ i, i < MAX_STRMOD → (t.sw i).fCount.toNat = t.instances i) : s.Moved t := by
  refine ⟨⟨hc ▸ h.pos,hc ▸ h.le,h0,hc ▸ hhigh,hcount,fun i hi hs => ?_,fun i hi => ?_,fun i hi hn => ?_,hl ▸ h.loads⟩,
    fun i => (hsw i).2.2.2⟩
  · exact hl ▸ h.loading i hi ((hsw i).1.symm.trans hs)
  · exact (hsw i).1.symm ▸ h.states i hi
  · rw [(hsw i).2.2.1]
    exact h.named i hi ((hsw i).2.1 ▸ hn)

/- One stream has other modules. -/
theorem instances_set {k : ℕ} {hd w : Strm} (hk : s.streams[k]? = some hd) (ht : t.streams = s.streams.set k w) (i : ℕ) :
    t.instances i + tally (fun m => m.slot == i) hd.stack = s.instances i + tally (fun m => m.slot == i) w.stack := by
  rw [instances,ht]
  exact total_set hk w _

theorem tally_cons (m : Inst) (l : List Inst) (i : ℕ) :
    tally (fun m => m.slot == i) (m :: l) = tally (fun m => m.slot == i) l + if m.slot = i then 1 else 0 := by
  simp only [tally,List.countP_cons,beq_iff_eq]

theorem setSlot_fields {g : Fmodsw} (hf : g.fState = (s.sw id).fState ∧ g.fName = (s.sw id).fName ∧
    g.semAlloc = (s.sw id).semAlloc ∧ g.inited = (s.sw id).inited) (i : ℕ) :
    ((s.setSlot id g).sw i).fState = (s.sw i).fState ∧ ((s.setSlot id g).sw i).fName = (s.sw i).fName ∧
      ((s.setSlot id g).sw i).semAlloc = (s.sw i).semAlloc ∧ ((s.setSlot id g).sw i).inited = (s.sw i).inited := by
  by_cases hne : i = id
  · subst hne
    rw [setSlot_self]
    exact hf
  · rw [setSlot_of_ne hne]
    exact ⟨rfl,rfl,rfl,rfl⟩

theorem upSem_inited (s : Registry) (id i : ℕ) : ((s.upSem id).sw i).inited = (s.sw i).inited :=
  (setSlot_fields (g := { s.sw id with fSem := (s.sw id).fSem + 1 }) ⟨rfl,rfl,rfl,rfl⟩ i).2.2.2

/- The count of one slot goes with the modules of one stream. -/
theorem Counted.recount {k : ℕ} {hd w : Strm} {c : BitVec 16} (h : s.Counted) (h0 : 0 < id) (hid : id < s.lisFmodcnt)
    (hk : s.streams[k]? = some hd) (hs : t.streams = s.streams.set k w) (hc : t.lisFmodcnt = s.lisFmodcnt)
    (hl : t.loads = s.loads) (hsw : t.sw = (s.setSlot id { s.sw id with fCount := c }).sw)
    (hbal : c.toNat + tally (fun m => m.slot == id) hd.stack = (s.sw id).fCount.toNat + tally (fun m => m.slot == id) w.stack)
    (hother : ∀ i, i ≠ id → tally (fun m => m.slot == i) w.stack = tally (fun m => m.slot == i) hd.stack) : s.Moved t := by
  have hsame : ∀ i, i ≠ id → t.instances i = s.instances i := by
    intro i hne
    have hset := instances_set hk hs i
    rw [hother i hne] at hset
    omega
  refine h.restack hc hl (fun i => ?_) ?_ (fun i hi => ?_) fun i hi => ?_
  · rw [hsw]
    exact setSlot_fields (g := { s.sw id with fCount := c }) ⟨rfl,rfl,rfl,rfl⟩ i
  · exact (hsame 0 (Nat.ne_of_lt h0)).trans h.low
  · exact (hsame i (Nat.ne_of_gt (Nat.lt_of_lt_of_le hid hi))).trans (h.high i hi)
  · rw [hsw]
    by_cases hne : i = id
    · subst hne
      have hset := instances_set hk hs i
      have hcount := h.count i hi
      rw [setSlot_self]
      show c.toNat = _
      omega
    · rw [setSlot_of_ne hne,hsame i hne]
      exact h.count i hi

/- A push that counts what it pushes. -/
def Pushable (s : Registry) (id : ℕ) (pushed : Pushed) : Prop :=
  pushed ≠ .unsynced ∧ (pushed = .done → (s.sw id).fCount ≠ 0xffff)

theorem pushMod_moved {k : ℕ} {idname : Option Name} {pushed : Pushed} {r : ℤ × Registry} (h : s.Counted) (h0 : 0 < id)
    (hid : id < s.lisFmodcnt) (hg : s.Pushable id pushed) (hr : s.pushMod k id idname pushed = some r) :
    s.Moved r.2 ∧ r.2.lisModReg = s.lisModReg ∧ r.2.semHeld = s.semHeld ∧ (pushed = .done → r.1 = 0) := by
  obtain ⟨hd,hk,rfl⟩ := Option.map_eq_some_iff.mp hr
  cases pushed with
  | failed =>
    have hq : s.Quiet { s with used := s.used ++ [id] } := h.same rfl rfl rfl rfl
    exact ⟨⟨hq.counted,fun _ => rfl⟩,rfl,rfl,fun hc => by cases hc⟩
  | unsynced => exact absurd rfl hg.1
  | done =>
    refine ⟨h.recount (w := ⟨⟨id,idname⟩ :: hd.stack,hd.sdPushcnt + 1⟩) (c := (s.sw id).fCount + 1) h0 hid hk rfl rfl rfl rfl ?_
      (fun i hne => ?_),rfl,rfl,fun _ => rfl⟩
    · have hmax := hg.2 rfl
      have hinc : ((s.sw id).fCount + 1).toNat = (s.sw id).fCount.toNat + 1 := by bv_omega
      rw [tally_cons,if_pos rfl,hinc]
      omega
    · rw [tally_cons,if_neg (Ne.symm hne)]
      rfl

theorem autopush_moved {k : ℕ} {idname : Option Name} {intr : Bool} {pushed : Pushed} {r : ℤ × Registry} (h : s.Counted)
    (h0 : 0 < id) (hid : id < s.lisFmodcnt)
    (hg : intr = true ∨ (s.sw id).semAlloc = false ∨ (pushed = .done ∧ (s.sw id).fCount ≠ 0xffff))
    (hr : s.autopush k id idname intr pushed = some r) :
    s.Moved r.2 ∧ r.2.lisModReg = s.lisModReg ∧ r.2.semHeld = s.semHeld := by
  obtain ⟨d,hd,hr⟩ := Option.bind_eq_some_iff.mp hr
  have hcnt : d.2.lisFmodcnt = s.lisFmodcnt := by
    simp only [downSem] at hd
    split_ifs at hd <;> obtain rfl := Option.some.inj hd <;> rfl
  obtain ⟨hq,hreg,⟨hf,-,hheld,hsw⟩ | ⟨hok,hheld,hsw⟩⟩ := downSem_cases h hd
  · rw [if_pos (by rw [hf]; rfl)] at hr
    obtain rfl := Option.some.inj hr
    exact ⟨⟨hq.counted,fun i => by rw [hsw]⟩,hreg,hheld⟩
  · rw [if_neg (by rw [hok]; exact Bool.noConfusion)] at hr
    obtain ⟨q,hp,rfl⟩ := Option.map_eq_some_iff.mp hr
    have hdone : pushed = .done ∧ (s.sw id).fCount ≠ 0xffff := by
      simp only [downSem] at hd
      split_ifs at hd with hi
      · obtain rfl := Option.some.inj hd
        cases hok
      · rcases hg with hg | hg | hg
        · exact absurd (by rw [hg]; rfl) hi
        · exact absurd (by rw [hg]; exact Bool.or_true _) hi
        · exact hg
    have hslot : ∀ i, (d.2.sw i).inited = (s.sw i).inited := by
      intro i
      rw [hsw]
      exact (setSlot_fields (s := s) (g := { s.sw id with fSem := (s.sw id).fSem - 1 }) ⟨rfl,rfl,rfl,rfl⟩ i).2.2.2
    have hcount : (d.2.sw id).fCount = (s.sw id).fCount := by
      rw [hsw,Function.update_self]
    obtain ⟨hm,hpreg,hpheld,hz⟩ := pushMod_moved hq.counted h0 (hcnt.symm ▸ hid)
      ⟨by rw [hdone.1]; exact Pushed.noConfusion,fun _ => hcount.symm ▸ hdone.2⟩ hp
    rw [if_neg (by rw [hz hdone.1]; exact lt_irrefl _)]
    exact ⟨⟨(hm.counted.upSem id).counted,fun i => (upSem_inited q.2 id i).trans ((hm.inited i).trans (hslot i))⟩,hpreg.trans hreg,
      upSem_held (hpheld.trans hheld)⟩

/- The same modules are on the stream. -/
theorem Counted.recounted {k : ℕ} {hd w : Strm} (h : s.Counted) (hk : s.streams[k]? = some hd) (hw : w.stack = hd.stack)
    (hs : t.streams = s.streams.set k w) (hc : t.lisFmodcnt = s.lisFmodcnt) (hl : t.loads = s.loads) (hsw : t.sw = s.sw) :
    s.Moved t := by
  have hsame : ∀ i, t.instances i = s.instances i := by
    intro i
    have hset := instances_set hk hs i
    rw [hw] at hset
    omega
  refine h.restack hc hl (fun i => hsw ▸ ⟨rfl,rfl,rfl,rfl⟩) ((hsame 0).trans h.low) (fun i hi => (hsame i).trans (h.high i hi))
    fun i hi => ?_
  rw [hsw,hsame i]
  exact h.count i hi

theorem lisFindmod_congr (hsw : t.sw = s.sw) (hc : t.lisFmodcnt = s.lisFmodcnt) (name : Option Name) :
    (t.lisFindmod name).1 = (s.lisFindmod name).1 ∧ (t.lisFindmod name).2 = { t with used := (t.lisFindmod name).2.used } := by
  cases name with
  | none => exact ⟨rfl,rfl⟩
  | some n =>
    cases n with
    | nil => exact ⟨rfl,rfl⟩
    | cons c n =>
      refine ⟨?_,rfl⟩
      show (List.find? (fun i => (t.sw i).fName == c :: n) (List.range' 1 t.lisFmodcnt).reverse).getD 0 = _
      rw [hsw,hc]
      rfl

/- The name of the module on top leads to its slot, if it is taken off, and to none, if it stays. -/
def Popable (s : Registry) (k : ℕ) (detached : Bool) : Prop :=
  ∀ hd m below, s.streams[k]? = some hd → hd.sdPushcnt ≠ 0 → hd.stack = m :: below →
    m.idname = none ∨ (s.lisFindmod m.idname).1 = if detached then m.slot else 0

theorem popMod_moved {k : ℕ} {detached : Bool} {r : ℤ × Registry} (h : s.Counted) (hg : s.Popable k detached)
    (hr : s.popMod k detached = some r) : s.Moved r.2 ∧ r.2.lisModReg = s.lisModReg ∧ r.2.semHeld = s.semHeld := by
  obtain ⟨hd,hk,hr⟩ := Option.bind_eq_some_iff.mp hr
  by_cases hp : hd.sdPushcnt = 0
  · rw [if_pos hp] at hr
    obtain rfl := Option.some.inj hr
    exact ⟨⟨h,fun _ => rfl⟩,rfl,rfl⟩
  rw [if_neg hp] at hr
  cases hst : hd.stack with
  | nil =>
    rw [hst] at hr
    cases hr
  | cons m below =>
    rw [hst] at hr
    dsimp only at hr
    have hgm := hg hd m below hk hp hst
    have hset : { hd with sdPushcnt := hd.sdPushcnt - 1 } = (⟨m :: below,hd.sdPushcnt - 1⟩ : Strm) := by rw [hst]
    by_cases hno : m.idname.isNone
    · rw [if_pos hno] at hr
      obtain rfl := Option.some.inj hr
      exact ⟨h.recounted (w := ⟨hd.stack,hd.sdPushcnt - 1⟩) hk rfl (by rw [hst]) rfl rfl rfl,rfl,rfl⟩
    · rw [if_neg hno] at hr
      have hid := hgm.resolve_left fun hc => hno (by rw [hc]; rfl)
      generalize hv : ({ s with streams := s.streams.set k ⟨m :: below,hd.sdPushcnt - 1⟩ } : Registry) = v at hr
      have hvs : v.sw = s.sw ∧ v.lisFmodcnt = s.lisFmodcnt ∧ v.loads = s.loads ∧ v.lisModReg = s.lisModReg ∧
          v.semHeld = s.semHeld ∧ v.streams = s.streams.set k ⟨m :: below,hd.sdPushcnt - 1⟩ := hv ▸ ⟨rfl,rfl,rfl,rfl,rfl,rfl⟩
      obtain ⟨hf,hf2⟩ := lisFindmod_congr hvs.1 hvs.2.1 m.idname
      rw [hf2,hf,hid] at hr
      cases detached with
      | false =>
        obtain rfl := Option.some.inj hr
        exact ⟨h.recounted (w := ⟨m :: below,hd.sdPushcnt - 1⟩) hk hst.symm hvs.2.2.2.2.2 hvs.2.1 hvs.2.2.1 hvs.1,hvs.2.2.2.1,
          hvs.2.2.2.2.1⟩
      | true =>
        have hone : 1 ≤ s.instances m.slot := by
          have hle := le_total (f := fun hd => tally (fun x => x.slot == m.slot) hd.stack) hk
          rw [hst,tally_cons,if_pos rfl] at hle
          exact (Nat.le_add_left 1 _).trans hle
        have h0 : 0 < m.slot := by
          by_contra hc
          have hz : m.slot = 0 := by omega
          rw [hz,h.low] at hone
          omega
        have hlt : m.slot < s.lisFmodcnt := by
          by_contra hc
          rw [h.high _ (Nat.le_of_not_lt hc)] at hone
          omega
        have hcount := h.count _ (hlt.trans_le h.le)
        have hdec : ((s.sw m.slot).fCount - 1).toNat + 1 = (s.sw m.slot).fCount.toNat := by bv_omega
        simp only [if_true,if_pos h0] at hr
        obtain rfl := Option.some.inj hr
        refine ⟨h.recount (w := ⟨below,hd.sdPushcnt - 1⟩) (c := (s.sw m.slot).fCount - 1) h0 hlt hk ?_ hvs.2.1 hvs.2.2.1 ?_ ?_
          fun i hne => ?_,hvs.2.2.2.1,hvs.2.2.2.2.1⟩
        · show v.streams.set k _ = _
          rw [hvs.2.2.2.2.2,List.set_set]
        · show Function.update v.sw m.slot _ = _
          rw [hvs.1]
          rfl
        · rw [hst,tally_cons,if_pos rfl]
          show _ = _ + tally _ below
          omega
        · rw [hst,tally_cons,if_neg (Ne.symm hne)]
          rfl

/-! ### Runs -/

/-- No name is entered in a slot that has instances, only a LINKED slot is unregistered (the others lose their
`f_sem` while it is held), and no error exit is taken that leaves a semaphore, a module or a count behind. -/
def Careful (s : Registry) : Act → Prop
  | .register strtab (some n) intr1 intr2 =>
      (∃ a, strtab = some a ∧ (intr1 = true ∨ ∃ i, 0 < i ∧ i < s.lisFmodcnt ∧ (s.sw i).fStr = some a)) ∨ intr2 = true ∨
        s.Idle (s.place n)
  | .unregister strtab intr intrSem =>
      intr = true ∨ ∀ i, s.slotOf strtab = some i → intrSem = true ∨ (s.sw i).inited = false ∨ (s.sw i).fCount ≠ 0 ∨
        (s.sw i).fState = LINKED ∨ (s.sw i).fState = LOADING
  | .loadmod n intr intrSem => intr = true ∨ s.Loadable n intrSem
  | .loadDone k ok => ∀ id, s.loads[k]? = some id → (ok = true ∧ (s.sw id).fStr ≠ none) ∨ (s.sw id).fCount = 0
  | .initMod _ modid loadable => loadable = true → (s.sw modid).fState ≠ UNKNOWN
  | .push _ id _ pushed => s.Pushable id pushed
  | .autopush _ id _ intr pushed =>
      intr = true ∨ (s.sw id).semAlloc = false ∨ (pushed = .done ∧ (s.sw id).fCount ≠ 0xffff)
  | .pop k detached => s.Popable k detached
  | _ => True

/-- A call ends with the counts and semaphores in balance, no module with instances is unregistered by it, and
the end of a load leaves no slot LOADING. -/
structure Ends (s : Registry) (x : Act) (t : Registry) : Prop where
  balanced : t.Balanced
  kept : ∀ i, i < MAX_STRMOD → (s.sw i).inited = true → (t.sw i).inited = false → s.instances i = 0
  loaded : ∀ k ok id, x = .loadDone k ok → s.loads[k]? = some id → (t.sw id).fState ≠ LOADING

/- Between the calls. -/
structure Settled (s : Registry) : Prop where
  counted : s.Counted
  released : s.lisModReg = 1
  held : ∀ i, s.semHeld i = 0

theorem Settled.balanced (h : s.Settled) : s.Balanced := ⟨h.released,h.held,h.counted.count,h.counted.loading⟩

theorem lisFindmod_clear (s : Registry) (name : Option Name) :
    (({ s with used := [] } : Registry).lisFindmod name).1 = (s.lisFindmod name).1 :=
  (lisFindmod_congr (s := s) (t := { s with used := [] }) rfl rfl name).1

theorem Loadable.clear {b : Bool} (h : s.Loadable n b) : ({ s with used := [] } : Registry).Loadable n b := by
  rw [Loadable,lisFindmod_clear]
  exact h

theorem Popable.clear {k : ℕ} {b : Bool} (h : s.Popable k b) : ({ s with used := [] } : Registry).Popable k b := by
  intro hd m below
  rw [lisFindmod_clear]
  exact h hd m below

theorem step_settled {x : Act} (h : s.Settled) (hg : Careful s x) (hx : step s x = some t) : t.Settled ∧ Ends s x t := by
  obtain ⟨r,hr,rfl⟩ := Option.map_eq_some_iff.mp hx
  have hc : ({ s with used := [] } : Registry).Counted := (h.counted.same (t := { s with used := [] }) rfl rfl rfl rfl).counted
  have hends (hq : r.2.Counted) (hreg : r.2.lisModReg = s.lisModReg) (hheld : r.2.semHeld = s.semHeld)
      (hk : ∀ i, i < MAX_STRMOD → (s.sw i).inited = true → (r.2.sw i).inited = false → s.instances i = 0)
      (hl : ∀ k ok id, x = .loadDone k ok → s.loads[k]? = some id → (r.2.sw id).fState ≠ LOADING) :
      ({ r.2 with ret := r.1 } : Registry).Settled ∧ Ends s x { r.2 with ret := r.1 } := by
    have ht : ({ r.2 with ret := r.1 } : Registry).Settled :=
      ⟨⟨hq.pos,hq.le,hq.low,hq.high,hq.count,hq.loading,hq.states,hq.named,hq.loads⟩,hreg.trans h.released,fun i =>
        (congrFun hheld i).trans (h.held i)⟩
    exact ⟨ht,ht.balanced,hk,hl⟩
  have hsilent (hs : ({ s with used := [] } : Registry).Silent r.2) (hl : ∀ k ok, x ≠ .loadDone k ok) :
      ({ r.2 with ret := r.1 } : Registry).Settled ∧ Ends s x { r.2 with ret := r.1 } :=
    hends hs.quiet.counted hs.reg hs.held hs.quiet.kept fun k ok _ hx => absurd hx (hl k ok)
  have hmoved (hs : ({ s with used := [] } : Registry).Moved r.2 ∧ r.2.lisModReg = s.lisModReg ∧ r.2.semHeld = s.semHeld)
      (hl : ∀ k ok, x ≠ .loadDone k ok) :
      ({ r.2 with ret := r.1 } : Registry).Settled ∧ Ends s x { r.2 with ret := r.1 } :=
    hends hs.1.counted hs.2.1 hs.2.2 (fun i _ h1 h2 => Bool.noConfusion (h1.symm.trans ((hs.1.inited i).symm.trans h2)))
      fun k ok _ hx => absurd hx (hl k ok)
  cases x with
  | register strtab name intr1 intr2 =>
    refine hsilent ?_ fun _ _ hc => Act.noConfusion hc
    cases name with
    | none =>
      obtain rfl := Option.some.inj hr
      exact ⟨hc.refl,rfl,rfl⟩
    | some n => exact register_silent hc hg hr
  | unregister strtab intr intrSem => exact hsilent (unregister_silent hc hg hr) fun _ _ hc => Act.noConfusion hc
  | findmod name =>
    obtain rfl := Option.some.inj hr
    exact hsilent (lisFindmod_silent hc name).1 fun _ _ hc => Act.noConfusion hc
  | findmodStrtab strtab intr => exact hsilent (findmodStrtab_silent hc hr).1 fun _ _ hc => Act.noConfusion hc
  | loadmod n intr intrSem => exact hsilent (loadmod_silent hc (hg.imp_right Loadable.clear) hr) fun _ _ hc => Act.noConfusion hc
  | loadDone k ok =>
    obtain ⟨id,hk,-⟩ := Option.map_eq_some_iff.mp hr
    obtain ⟨hs,hst⟩ := loadDone_silent hc hk (hg id hk) hr
    refine hends hs.quiet.counted hs.reg hs.held hs.quiet.kept fun k' ok' id' hx hk' => ?_
    cases hx
    obtain rfl := Option.some.inj (hk.symm.trans hk')
    exact hst
  | initMod i modid loadable =>
    simp only [call] at hr
    split_ifs at hr
    obtain rfl := Option.some.inj hr
    exact hsilent (initMod_silent hc hg) fun _ _ hc => Act.noConfusion hc
  | openStream =>
    obtain rfl := Option.some.inj hr
    have hi : ∀ i, ({ s with used := [],streams := s.streams ++ [⟨[],0⟩] } : Registry).instances i = s.instances i := by
      intro i
      simp [instances,total,tally]
    exact hmoved ⟨hc.restack rfl rfl (fun i => ⟨rfl,rfl,rfl,rfl⟩) ((hi 0).trans hc.low) (fun i hle => (hi i).trans (hc.high i hle))
      fun i hlt => (hc.count i hlt).trans (hi i).symm,rfl,rfl⟩ fun _ _ hc => Act.noConfusion hc
  | push k id idname pushed =>
    simp only [call] at hr
    split_ifs at hr with hi
    obtain ⟨hm,hreg,hheld,-⟩ := pushMod_moved hc hi.1 hi.2.1 hg hr
    exact hmoved ⟨hm,hreg,hheld⟩ fun _ _ hc => Act.noConfusion hc
  | autopush k id idname intr pushed =>
    simp only [call] at hr
    split_ifs at hr with hi
    exact hmoved (autopush_moved hc hi.1 hi.2.1 hg hr) fun _ _ hc => Act.noConfusion hc
  | pop k detached => exact hmoved (popMod_moved hc (Popable.clear hg) hr) fun _ _ hc => Act.noConfusion hc

theorem init_settled (beyond : ℕ → Fmodsw) : (init beyond).Settled := by
  have hsw : ∀ i, i < MAX_STRMOD → (init beyond).sw i = ⟨none,0,[],LINKED,false,false,0⟩ := fun i hi => if_pos hi
  refine ⟨⟨Nat.one_pos,show 1 ≤ MAX_STRMOD by decide,rfl,fun _ _ => rfl,fun i hi => ?_,fun i hi hl => ?_,fun i hi => ?_,
    fun i hi hn => ?_,fun i hi => absurd hi List.not_mem_nil⟩,rfl,fun _ => rfl⟩
  · rw [hsw i hi]
    rfl
  · rw [hsw i hi] at hl
    exact absurd hl (by decide)
  · rw [hsw i hi]
    exact show LINKED ≤ UNKNOWN by decide
  · rw [hsw i hi] at hn
    exact absurd rfl hn

/-- After a run of such calls the counts and semaphores are in balance, and the next such call ends well. -/
theorem calls_balance {beyond : ℕ → Fmodsw} {xs : List Act} (hm : Meets step Careful (init beyond) xs)
    (h : exec step (init beyond) xs = some s) : s.Balanced ∧ ∀ x t, Careful s x → step s x = some t → Ends s x t := by
  have hs : s.Settled :=
    exec_preserves (I := Settled) (fun _ _ _ hi hc hs => (step_settled hi hc hs).1) (init_settled beyond) hm h
  exact ⟨hs.balanced,fun x t hc hx => (step_settled hs hc hx).2⟩

def unused : Fmodsw := ⟨none,0,[],LINKED,false,false,0⟩

/- A module is registered, and pushed on a stream. -/
def oneUser : List Act :=
  [.register (some 10) (some [97]) false false,.openStream,.push 0 1 (some [97]) .done]

theorem oneUser_careful : Meets step Careful (init fun _ => unused) oneUser := by
  refine ⟨Or.inr (Or.inr fun _ => rfl),fun t ht => ⟨trivial,fun u hu => ⟨⟨Pushed.noConfusion,fun _ => ?_⟩,fun _ _ => trivial⟩⟩⟩
  obtain rfl := Option.some.inj ht
  obtain rfl := Option.some.inj hu
  show (0 : BitVec 16) ≠ 0xffff
  decide

theorem calls_balance_oneUser : ∃ s, exec step (init fun _ => unused) oneUser = some s ∧
    s.Balanced ∧ ∀ x t, Careful s x → step s x = some t → Ends s x t :=
  Exists.imp (fun _ hs => ⟨hs,calls_balance oneUser_careful hs⟩) (Option.isSome_iff_exists.mp rfl)

/-- Registered once more for another streamtab, the module on the stream is not counted. -/
theorem uncounted_module : ¬∀ (xs : List Act) (s : Registry), exec step (init fun _ => unused) xs = some s → s.Balanced := by
  intro h
  have hc := (h (oneUser ++ [.register (some 11) (some [97]) false false]) _ rfl).count 1 (by decide)
  have hone : (0 : ℕ) = 1 := hc
  exact absurd hone (by decide)

end CSLiS.Mod.Registry
