import CSLiS.Mod.Registry

/-!
# The names in the table of modules

The names, the count and the indices used are all that the question which slot has which name is about.
As long as the guard holds the names are different from each other, slot 0 and the slots from the count on
have none, and no index is outside of the table.
-/

namespace CSLiS.Mod
open Queue Lib Lib.Exec

/- The part of the registry that is about names. -/
@[ext] structure Names where
  name : ℕ → Name
  cnt : ℕ
  loads : List ℕ
  used : List ℕ

namespace Names

variable (v : Names)

def use (l : List ℕ) : Names := { v with used := v.used ++ l }
def put (id : ℕ) (n : Name) : Names := { v with name := Function.update v.name id n, used := v.used ++ [id] }
def grow : Names := { v with cnt := v.cnt + 1 }

/-- No two slots of the table have the same name, other than none. -/
def Injective : Prop :=
  ∀ i j, i < MAX_STRMOD → j < MAX_STRMOD → v.name i = v.name j → v.name i ≠ [] → i = j

def Within : Prop := ∀ i ∈ v.used, i < MAX_STRMOD

structure Good : Prop where
  pos : 0 < v.cnt
  le : v.cnt ≤ MAX_STRMOD
  low : v.name 0 = []
  high : ∀ i, v.cnt ≤ i → i < MAX_STRMOD → v.name i = []
  inj : v.Injective
  short : ∀ i, i < MAX_STRMOD → (v.name i).length ≤ LIS_NAMESZ
  loads : ∀ i ∈ v.loads, i < v.cnt

variable {v} {l : List ℕ} {id i : ℕ} {n : Name}

theorem within_use : (v.use l).Within ↔ v.Within ∧ ∀ i ∈ l, i < MAX_STRMOD := by
  simp only [Within,use,List.mem_append]
  exact ⟨fun h => ⟨fun i hi => h i (Or.inl hi),fun i hi => h i (Or.inr hi)⟩,fun h i hi => hi.elim (h.1 i) (h.2 i)⟩

theorem Good.use (h : v.Good) (l : List ℕ) : (v.use l).Good := ⟨h.pos,h.le,h.low,h.high,h.inj,h.short,h.loads⟩

/- A slot below the count is set to a name that no other slot has. -/
theorem Good.put (h : v.Good) (h0 : 0 < id) (hid : id < v.cnt)
    (hlen : n.length ≤ LIS_NAMESZ) (hn : n = [] ∨ ∀ j, j < MAX_STRMOD → j ≠ id → v.name j ≠ n) : (v.put id n).Good := by
  refine ⟨h.pos,h.le,?_,fun i hi hm => ?_,fun i j hi hj he hne => ?_,fun i hi => ?_,h.loads⟩
  · exact (Function.update_of_ne (Nat.ne_of_lt h0) ..).trans h.low
  · have hne : i ≠ id := fun hc => Nat.not_lt.mpr hi (hc ▸ hid)
    exact (Function.update_of_ne hne ..).trans (h.high i hi hm)
  · simp only [Names.put,Function.update_apply] at he hne
    by_cases hii : i = id <;> by_cases hjj : j = id
    · exact hii.trans hjj.symm
    · rw [if_pos hii,if_neg hjj] at he
      rw [if_pos hii] at hne
      exact absurd he.symm (hn.resolve_left hne j hj hjj)
    · rw [if_neg hii,if_pos hjj] at he
      rw [if_neg hii,he] at hne
      exact absurd he (hn.resolve_left hne i hi hii)
    · rw [if_neg hii,if_neg hjj] at he
      rw [if_neg hii] at hne
      exact h.inj i j hi hj he hne
  · simp only [Names.put,Function.update_apply]
    split_ifs
    · exact hlen
    · exact h.short i hi

/- A slot loses its name. -/
theorem Good.clear (h : v.Good) (id : ℕ) : (v.put id []).Good := by
  have hname : ∀ i, (v.put id []).name i = [] ∨ (i ≠ id ∧ (v.put id []).name i = v.name i) := by
    intro i
    by_cases hi : i = id
    · exact Or.inl (hi ▸ Function.update_self ..)
    · exact Or.inr ⟨hi,Function.update_of_ne hi ..⟩
  refine ⟨h.pos,h.le,?_,fun i hi hm => ?_,fun i j hi hj he hne => ?_,fun i hi => ?_,h.loads⟩
  · exact (hname 0).elim (fun hc => hc) fun hc => hc.2.trans h.low
  · exact (hname i).elim (fun hc => hc) fun hc => hc.2.trans (h.high i hi hm)
  · have hi' := (hname i).resolve_left hne
    have hj' := (hname j).resolve_left (he ▸ hne)
    rw [hi'.2,hj'.2] at he
    exact h.inj i j hi hj he (hi'.2 ▸ hne)
  · rcases hname i with hc | hc
    · rw [hc]
      exact Nat.zero_le _
    · rw [hc.2]
      exact h.short i hi

def load (v : Names) (l : List ℕ) : Names := { v with loads := v.loads ++ l }

theorem Good.load (h : v.Good) {l : List ℕ} (hl : ∀ i ∈ l, i < v.cnt) : (v.load l).Good :=
  ⟨h.pos,h.le,h.low,h.high,h.inj,h.short,fun i hi => (List.mem_append.mp hi).elim (h.loads i) (hl i)⟩

theorem within_put : (v.put id n).Within ↔ v.Within ∧ id < MAX_STRMOD := by
  rw [← List.forall_mem_singleton (p := (· < MAX_STRMOD)),← within_use]
  rfl

/- Two slots with one name. -/
theorem Injective.of_put (h : (v.put id n).Injective) (hid : id < MAX_STRMOD) (hn : n ≠ []) (j : ℕ)
    (hj : j < MAX_STRMOD) (hne : j ≠ id) : v.name j ≠ n := by
  intro hc
  have hjn : (v.put id n).name j = n := (Function.update_of_ne hne ..).trans hc
  have hin : (v.put id n).name id = n := Function.update_self ..
  exact hne (h j id hj hid (hjn.trans hin.symm) fun h0 => hn (hjn.symm.trans h0))

theorem Good.grow (h : v.Good) (hc : v.cnt < MAX_STRMOD) : v.grow.Good :=
  ⟨Nat.succ_pos _,hc,h.low,fun i hi hm => h.high i (Nat.le_of_succ_le hi) hm,h.inj,h.short,fun i hi =>
    Nat.lt_succ_of_lt (h.loads i hi)⟩

end Names

/-! ### Searches -/

section Visited
variable {p : ℕ → Bool} {l : List ℕ} {i j : ℕ}

theorem visited_mem (h : i ∈ visited p l) : i ∈ l := by
  rcases List.mem_append.mp h with h | h
  · exact (List.takeWhile_sublist _).subset h
  · cases hf : l.find? p with
    | none =>
      rw [hf] at h
      exact absurd h List.not_mem_nil
    | some a =>
      rw [hf] at h
      exact (List.mem_singleton.mp h) ▸ List.mem_of_find?_eq_some hf

/- A search that fails looks at everything. -/
theorem visited_all (h : l.find? p = none) : visited p l = l := by
  have hall : ∀ i ∈ l, (!p i) = true := fun i hi => by
    have := List.find?_eq_none.mp h i hi
    simpa using this
  rw [visited,List.takeWhile_eq_self_iff.mpr hall,h]
  exact List.append_nil l

theorem visited_head : i ∈ visited p (i :: l) := by
  cases hp : p i with
  | false => exact List.mem_append_left _ (by simp [hp])
  | true => exact List.mem_append_right _ (by simp [hp])

/- A search from the count down looks at the count first. -/
theorem visited_count {p : ℕ → Bool} {c : ℕ} (hc : 0 < c) : c ∈ visited p (List.range' 1 c).reverse := by
  obtain ⟨c,rfl⟩ := Nat.exists_eq_succ_of_ne_zero (Nat.ne_of_gt hc)
  rw [Nat.succ_eq_add_one,List.range'_concat,List.reverse_append,List.reverse_singleton,List.singleton_append]
  have : 1 + 1 * c = c + 1 := by omega
  rw [this]
  exact visited_head

theorem mem_countdown {c i : ℕ} (hi : i ∈ (List.range' 1 c).reverse) : 0 < i ∧ i ≤ c := by
  have := List.mem_range'_1.mp (List.mem_reverse.mp hi)
  omega

/- A search upwards looks at nothing behind what it finds. -/
theorem visited_le (hl : l.Pairwise (· < ·)) (h : l.find? p = some i) (hj : j ∈ visited p l) : j ≤ i := by
  induction l with
  | nil => exact absurd h (by simp)
  | cons a l ih =>
    obtain ⟨ha,hl⟩ := List.pairwise_cons.mp hl
    cases hp : p a with
    | true =>
      simp only [List.find?_cons_of_pos hp,Option.some.injEq] at h
      simp only [visited,List.takeWhile_cons,hp,List.find?_cons_of_pos hp,Bool.not_true,Bool.false_eq_true,if_false,
        List.nil_append,Option.toList_some,List.mem_singleton] at hj
      exact (hj.trans h).le
    | false =>
      have hp' : ¬ p a = true := Bool.eq_false_iff.mp hp
      rw [List.find?_cons_of_neg hp'] at h
      simp only [visited,List.takeWhile_cons,hp,List.find?_cons_of_neg hp',Bool.not_false,if_true,List.cons_append,
        List.mem_cons] at hj
      rcases hj with rfl | hj
      · exact (ha i (List.mem_of_find?_eq_some h)).le
      · exact ih hl h hj

theorem find?_le (hl : l.Pairwise (· < ·)) (h : l.find? p = some i) (hj : j ∈ l) (hp : p j = true) : i ≤ j := by
  induction l with
  | nil => exact absurd hj List.not_mem_nil
  | cons a l ih =>
    obtain ⟨ha,hl⟩ := List.pairwise_cons.mp hl
    cases hpa : p a with
    | true =>
      rw [List.find?_cons_of_pos hpa] at h
      rw [← Option.some.inj h]
      rcases List.mem_cons.mp hj with rfl | hj
      · exact le_rfl
      · exact (ha j hj).le
    | false =>
      rw [List.find?_cons_of_neg (Bool.eq_false_iff.mp hpa)] at h
      rcases List.mem_cons.mp hj with rfl | hj
      · exact Bool.noConfusion (hpa.symm.trans hp)
      · exact ih hl h hj

end Visited

namespace Registry

variable {s t : Registry} {id i k : ℕ} {n : Name} {f : Fmodsw}

def view (s : Registry) : Names := ⟨fun i => (s.sw i).fName,s.lisFmodcnt,s.loads,s.used⟩

/-! ### The routines on names -/

theorem view_upReg : s.upReg.view = s.view := rfl

theorem view_setSlot (h : f.fName = (s.sw id).fName) : (s.setSlot id f).view = s.view.use [id] := by
  refine Names.ext ?_ rfl rfl rfl
  funext i
  by_cases hi : i = id
  · subst hi
    simp [view,setSlot,Names.use,h]
  · simp [view,setSlot,Names.use,Function.update_of_ne hi]

theorem view_put : (s.setSlot id f).view = s.view.put id f.fName := by
  refine Names.ext ?_ rfl rfl rfl
  funext i
  simp only [view,setSlot,Names.put,Function.update_apply]
  split_ifs <;> rfl

theorem view_initialize {st : BitVec 8} :
    (s.initializeModule id n st).view = s.view.put id (n.take LIS_NAMESZ) := view_put
theorem view_deinit : (s.deinitializeModule id).view = s.view.put id [] := view_put
theorem view_upSem : (s.upSem id).view = s.view.use [id] :=
  view_setSlot (s := s) (f := { s.sw id with fSem := (s.sw id).fSem + 1 }) rfl

theorem view_search {l : List ℕ} {p : Fmodsw → Bool} :
    (s.search l p).2.view = s.view.use (visited (fun i => p (s.sw i)) l) := rfl

theorem view_downReg {intr : Bool} {d : Bool × Registry} (h : s.downReg intr = some d) : d.2.view = s.view := by
  rw [downReg] at h
  split_ifs at h <;> cases h <;> rfl

theorem downReg_ok {intr : Bool} {d : Bool × Registry} (h : s.downReg intr = some d) : d.1 = !intr := by
  rw [downReg] at h
  split_ifs at h with hi <;> cases h
  · rw [hi]; rfl
  · rw [Bool.eq_false_iff.mpr hi]; rfl

theorem sw_downReg {intr : Bool} {d : Bool × Registry} (h : s.downReg intr = some d) :
    d.2.sw = s.sw ∧ d.2.lisFmodcnt = s.lisFmodcnt := by
  rw [downReg] at h
  split_ifs at h <;> cases h <;> exact ⟨rfl,rfl⟩

theorem view_downSem {intr : Bool} {d : Bool × Registry} (h : s.downSem id intr = some d) :
    d.2.view = s.view.use [id] := by
  simp only [downSem] at h
  split_ifs at h <;> cases h
  · rfl
  · exact view_setSlot (s := s) (f := { s.sw id with fSem := (s.sw id).fSem - 1 }) rfl

theorem take_short (n : Name) : (n.take LIS_NAMESZ).length ≤ LIS_NAMESZ := by simp

theorem findEmpty_cases (hle : s.lisFmodcnt ≤ MAX_STRMOD) (n : Name) : ∃ l, (∀ i ∈ l, i < MAX_STRMOD) ∧
    ((s.lisFmodcnt = MAX_STRMOD ∧ (s.findEmptyModIndex n).1 = 0 ∧ (s.findEmptyModIndex n).2.view = s.view.use l) ∨
      (∃ id, 0 < id ∧ id < s.lisFmodcnt ∧ s.view.name id = [] ∧ (s.findEmptyModIndex n).1 = id ∧
        (s.findEmptyModIndex n).2.view = (s.view.use l).put id (n.take LIS_NAMESZ)) ∨
      (s.lisFmodcnt < MAX_STRMOD ∧ (s.findEmptyModIndex n).1 = s.lisFmodcnt ∧
        (s.findEmptyModIndex n).2.view = (s.view.use l).grow.put s.lisFmodcnt (n.take LIS_NAMESZ))) := by
  refine ⟨visited (fun i => (s.sw i).fName == []) (List.range' 1 (s.lisFmodcnt - 1)),fun i hi => ?_,?_⟩
  · have := List.mem_range'_1.mp (visited_mem hi)
    omega
  · rw [findEmptyModIndex]
    cases hf : (List.range' 1 (s.lisFmodcnt - 1)).find? fun i => (s.sw i).fName == [] with
    | some id =>
      have hid := List.mem_range'_1.mp (List.mem_of_find?_eq_some hf)
      have hname : (s.sw id).fName = [] := by simpa using List.find?_some hf
      refine Or.inr (Or.inl ⟨id,by omega,by omega,hname,?_,?_⟩)
      · simp only [search,hf]
      · simp only [search,hf]
        exact view_initialize
    | none =>
      by_cases hm : s.lisFmodcnt = MAX_STRMOD
      · refine Or.inl ⟨hm,?_,?_⟩
        · simp only [search,hf,if_pos hm]
        · simp only [search,hf,if_pos hm]
          rfl
      · refine Or.inr (Or.inr ⟨lt_of_le_of_ne hle hm,?_,?_⟩)
        · simp only [search,hf,if_neg hm]
        · simp only [search,hf,if_neg hm]
          exact congrArg Names.grow view_initialize

theorem findmodStrtab_view {strtab : Option ℕ} {intr : Bool} {r : ℤ × Registry} (hle : s.lisFmodcnt ≤ MAX_STRMOD)
    (hr : s.lisFindmodStrtab strtab intr = some r) : ∃ l, (∀ i ∈ l, i < MAX_STRMOD) ∧ r.2.view = s.view.use l ∧
      r.2.sw = s.sw := by
  cases strtab with
  | none =>
    obtain rfl := Option.some.inj hr
    exact ⟨[],fun i hi => absurd hi List.not_mem_nil,Names.ext rfl rfl rfl (List.append_nil _).symm,rfl⟩
  | some a =>
    obtain ⟨d,hd,rfl⟩ := Option.map_eq_some_iff.mp hr
    have hv := view_downReg hd
    have hsw := sw_downReg hd
    dsimp only
    split_ifs
    · exact ⟨[],fun i hi => absurd hi List.not_mem_nil,
        hv.trans (Names.ext rfl rfl rfl (List.append_nil _).symm),hsw.1⟩
    · refine ⟨_,fun i hi => ?_,congrArg (Names.use · _) hv,hsw.1⟩
      have hi := List.mem_range'_1.mp (visited_mem hi)
      omega

/- The search by streamtab hands out a number that is not 0 if the slot is found, or when the wait is interrupted. -/
theorem findmodStrtab_pos {strtab : Option ℕ} {intr : Bool} {r : ℤ × Registry}
    (hr : s.lisFindmodStrtab strtab intr = some r) : 0 < r.1 ↔ ∃ a, strtab = some a ∧ (intr = true ∨
      ∃ i, 0 < i ∧ i < s.lisFmodcnt ∧ (s.sw i).fStr = some a) := by
  cases strtab with
  | none =>
    obtain rfl := Option.some.inj hr
    exact iff_of_false (lt_irrefl 0) fun ⟨a,ha,_⟩ => Option.some_ne_none a ha.symm
  | some a =>
    obtain ⟨d,hd,rfl⟩ := Option.map_eq_some_iff.mp hr
    have hsw := (sw_downReg hd).1
    rw [downReg_ok hd]
    cases intr with
    | true => exact iff_of_true (show (0 : ℤ) < midEintr by decide) ⟨a,rfl,Or.inl rfl⟩
    | false =>
      simp only [Bool.not_false,Bool.not_true,Bool.false_eq_true,if_false,search,hsw]
      constructor
      · intro hp
        cases hf : (List.range' 1 (s.lisFmodcnt - 1)).find? fun i => (s.sw i).fStr == some a with
        | none => simp [hf] at hp
        | some i =>
          have hi := List.mem_range'_1.mp (List.mem_of_find?_eq_some hf)
          exact ⟨a,rfl,Or.inr ⟨i,by omega,by omega,by simpa using List.find?_some hf⟩⟩
      · rintro ⟨b,hb,hi⟩
        obtain rfl := Option.some.inj hb
        obtain ⟨i,h0,hi,hs⟩ := hi.resolve_left fun hc => hc
        cases hf : (List.range' 1 (s.lisFmodcnt - 1)).find? fun i => (s.sw i).fStr == some a with
        | none =>
          exact absurd (by simpa using hs) (List.find?_eq_none.mp hf i (List.mem_range'_1.mpr ⟨h0,by omega⟩))
        | some j =>
          have hj := List.mem_range'_1.mp (List.mem_of_find?_eq_some hf)
          simp only [Option.getD_some]
          omega

/-! ### Registration -/

/- Some slot of the table has the name. -/
def Has (s : Registry) (n : Name) : Prop := ∃ i, 0 < i ∧ i < MAX_STRMOD ∧ (s.sw i).fName = n

/- No slot has what is kept of the name. -/
def Fresh (s : Registry) (n : Name) : Prop := ∀ j, j < MAX_STRMOD → (s.sw j).fName ≠ n.take LIS_NAMESZ

/- A name of the table is one of the slots that have been used. -/
theorem has_lt (h : s.view.Good) (hn : n ≠ []) (hi : i < MAX_STRMOD) (he : (s.sw i).fName = n) : i < s.lisFmodcnt := by
  by_contra hc
  exact hn (he.symm.trans (h.high i (Nat.not_lt.mp hc) hi))

theorem enter_other (hid : id ≠ s.lisFmodcnt) (strtab : Option ℕ) (n : Name) (b : Bool) :
    (s.enter id strtab n b).2.view = (s.view.use [id]).put id (n.take LIS_NAMESZ) := by
  simp only [enter,hid,false_and,if_false,view_upReg]
  exact view_initialize.trans (congrArg (fun v => Names.put v id _) (view_setSlot rfl))

theorem enter_next (hid : s.lisFmodcnt ≠ MAX_STRMOD) (strtab : Option ℕ) (n : Name) (b : Bool) :
    (s.enter s.lisFmodcnt strtab n b).2.view =
      (s.view.grow.use [s.lisFmodcnt]).put s.lisFmodcnt (n.take LIS_NAMESZ) := by
  simp only [enter,hid,and_false,if_false,if_true,view_upReg]
  exact view_initialize.trans (congrArg (fun v => Names.put v s.lisFmodcnt _) (view_setSlot rfl))

/- A name is put into a slot that has none, or that name. -/
theorem put_found (h : s.view.Good) {v : Names} (hv : v.Good) (hname : v.name = s.view.name) (h0 : 0 < id)
    (hid : id < v.cnt) (hm : id < MAX_STRMOD) (he : (s.sw id).fName = n) : (v.put id (n.take LIS_NAMESZ)).Good := by
  have hlen : n.length ≤ LIS_NAMESZ := he ▸ h.short id hm
  rw [List.take_of_length_le hlen]
  refine hv.put h0 hid hlen ?_
  by_cases hn : n = []
  · exact Or.inl hn
  · refine Or.inr fun j hj hne hc => hne ?_
    rw [hname] at hc
    exact h.inj j id hj hm (hc.trans he.symm) (hc.symm ▸ hn)

/- A slot that was found to have the name. -/
theorem enter_found (h : s.view.Good) (hu : s.view.Within) (h0 : 0 < id) (hle : id ≤ s.lisFmodcnt)
    (hm : id < MAX_STRMOD) (he : (s.sw id).fName = n) (strtab : Option ℕ) (b : Bool) :
    (s.enter id strtab n b).2.view.Good ∧ (s.enter id strtab n b).2.view.Within := by
  have hput : ∀ v : Names, v.Within → ((v.use [id]).put id (n.take LIS_NAMESZ)).Within := fun v hv =>
    Names.within_put.mpr ⟨Names.within_use.mpr ⟨hv,List.forall_mem_singleton.mpr hm⟩,hm⟩
  by_cases hc : id = s.lisFmodcnt
  · subst hc
    rw [enter_next (Nat.ne_of_lt hm)]
    exact ⟨put_found h ((h.grow hm).use _) rfl h0 (Nat.lt_succ_self _) hm he,hput s.view.grow hu⟩
  · rw [enter_other hc]
    exact ⟨put_found h (h.use _) rfl h0 (lt_of_le_of_ne hle hc) hm he,hput s.view hu⟩

/- A slot of the table that has no name gets one. -/
theorem put_fresh {v w : Names} (hv : v.Good) (hw : v.Within) (h0 : 0 < id) (hid : id < v.cnt)
    (hname : v.name id = []) (hn : n ≠ []) (hw' : w = (((v.put id (n.take LIS_NAMESZ)).use [id]).put id
      (n.take LIS_NAMESZ))) : (w.Injective ↔ ∀ j, j < MAX_STRMOD → v.name j ≠ n.take LIS_NAMESZ) ∧
        (w.Injective → w.Good ∧ w.Within) := by
  have hm : id < MAX_STRMOD := hid.trans_le hv.le
  have htake : n.take LIS_NAMESZ ≠ [] := by
    rw [ne_eq,List.take_eq_nil_iff]
    exact fun hc => hc.elim (by decide) hn
  have hww : w = (v.use [id,id]).put id (n.take LIS_NAMESZ) := by
    rw [hw']
    refine Names.ext ?_ rfl rfl ?_
    · exact Function.update_idem ..
    · simp [Names.put,Names.use]
  have hall : w.Injective → ∀ j, j < MAX_STRMOD → v.name j ≠ n.take LIS_NAMESZ := by
    intro hi j hj
    by_cases hne : j = id
    · rw [hne,hname]
      exact htake.symm
    · exact (hww ▸ hi).of_put (v := v.use [id,id]) hm htake j hj hne
  have hgood : (∀ j, j < MAX_STRMOD → v.name j ≠ n.take LIS_NAMESZ) → w.Good ∧ w.Within := by
    intro hj
    rw [hww]
    refine ⟨(hv.use _).put h0 hid (take_short n) (Or.inr fun j hjm _ => hj j hjm),?_⟩
    refine Names.within_put.mpr ⟨Names.within_use.mpr ⟨hw,?_⟩,hm⟩
    simp [hm]
  exact ⟨⟨hall,fun hj => (hgood hj).1.inj⟩,fun hi => hgood (hall hi)⟩

theorem registerName_exact (h : s.view.Good) (hu : s.view.Within) (strtab : Option ℕ) (n : Name) :
    ((s.registerName strtab n).2.view.Within ∧ (s.registerName strtab n).2.view.Injective →
      s.Has n ∨ (s.lisFmodcnt < MAX_STRMOD ∧ s.Fresh n)) ∧
    (s.Has n ∨ (s.lisFmodcnt < MAX_STRMOD ∧ s.Fresh n) →
      (s.registerName strtab n).2.view.Good ∧ (s.registerName strtab n).2.view.Within) := by
  have hle : s.lisFmodcnt ≤ MAX_STRMOD := h.le
  have hpos : 0 < s.lisFmodcnt := h.pos
  have hsort : (List.range' 1 s.lisFmodcnt).Pairwise (· < ·) := List.pairwise_lt_range'
  obtain ⟨u,hue⟩ : ∃ u, u = (s.search (List.range' 1 s.lisFmodcnt) fun f => f.fName == n).2 := ⟨_,rfl⟩
  have huv : u.view = s.view.use (visited (fun i => (s.sw i).fName == n) (List.range' 1 s.lisFmodcnt)) := hue ▸ rfl
  have hug : u.view.Good := huv ▸ h.use _
  have husw : u.sw = s.sw := hue ▸ rfl
  have hucnt : u.lisFmodcnt = s.lisFmodcnt := hue ▸ rfl
  cases hf : (List.range' 1 s.lisFmodcnt).find? fun i => (s.sw i).fName == n with
  | some inx =>
    have hreg : s.registerName strtab n = u.enter inx strtab n false := by
      simp only [registerName,findMod,search,hf,hue]
      rfl
    have hin := List.mem_range'_1.mp (List.mem_of_find?_eq_some hf)
    have hname : (s.sw inx).fName = n := by simpa using List.find?_some hf
    have hmem : inx ∈ visited (fun i => (s.sw i).fName == n) (List.range' 1 s.lisFmodcnt) := by
      refine List.mem_append_right _ ?_
      rw [hf]
      exact List.mem_singleton_self inx
    rw [hreg]
    by_cases hm : inx < MAX_STRMOD
    · have huw : u.view.Within := huv ▸ Names.within_use.mpr ⟨hu,fun i hi => (visited_le hsort hf hi).trans_lt hm⟩
      exact ⟨fun _ => Or.inl ⟨inx,by omega,hm,hname⟩,fun _ =>
        enter_found hug huw (by omega) (by omega) hm (husw ▸ hname) strtab false⟩
    · -- the name stands behind the table, where the search looks if no slot has it
      have hmax : inx = MAX_STRMOD := by omega
      have hno : ¬(s.Has n ∨ (s.lisFmodcnt < MAX_STRMOD ∧ s.Fresh n)) := by
        rintro (⟨i,h0,hi,he⟩ | ⟨hlt,-⟩)
        · have := find?_le hsort hf (List.mem_range'_1.mpr ⟨h0,by omega⟩) (by simpa using he)
          omega
        · omega
      refine ⟨fun hr => absurd (hr.1 inx ?_) hm,fun hg => absurd hg hno⟩
      rw [enter,if_pos ⟨by omega,hmax⟩,view_upReg,huv]
      exact List.mem_append_right _ hmem
  | none =>
    have hreg : s.registerName strtab n = (u.findEmptyModIndex n).2.enter (u.findEmptyModIndex n).1 strtab n true := by
      simp only [registerName,findMod,search,hf,hue]
      rfl
    have hnot : ∀ i, 0 < i → i ≤ s.lisFmodcnt → (s.sw i).fName ≠ n := by
      intro i h0 hi hc
      exact List.find?_eq_none.mp hf i (List.mem_range'_1.mpr ⟨h0,by omega⟩) (by simpa using hc)
    rw [visited_all hf] at huv
    rw [hreg]
    by_cases hm : s.lisFmodcnt = MAX_STRMOD
    · have hno : ¬(s.Has n ∨ (s.lisFmodcnt < MAX_STRMOD ∧ s.Fresh n)) := by
        rintro (⟨i,h0,hi,he⟩ | ⟨hlt,-⟩)
        · exact hnot i h0 (by omega) he
        · omega
      refine ⟨fun hr => ?_,fun hg => absurd hg hno⟩
      have hmem : MAX_STRMOD ∈ u.view.used := by
        rw [huv]
        exact List.mem_append_right _ (List.mem_range'_1.mpr ⟨by decide,by omega⟩)
      -- slot 0 or one without a name is entered: the index behind the table was used before
      have hbad : ∀ {e : ℕ × Registry} {v : Names}, e.2.view = v → e.1 ≠ v.cnt → MAX_STRMOD ∈ v.used →
          ¬(e.2.enter e.1 strtab n true).2.view.Within := by
        intro e v hv hne hin hw
        rw [enter_other (by rw [← hv] at hne; exact hne),hv] at hw
        exact Nat.lt_irrefl _ (hw _ (List.mem_append_left _ (List.mem_append_left _ hin)))
      rcases findEmpty_cases hug.le n with ⟨l,hl,⟨-,h0,hv⟩ | ⟨id,h0,hid,-,he,hv⟩ | ⟨hlt,-,-⟩⟩
      · refine absurd hr.1 (hbad hv ?_ (List.mem_append_left _ hmem))
        rw [h0]
        exact Nat.ne_of_lt hug.pos
      · refine absurd hr.1 (hbad hv ?_ (List.mem_append_left _ (List.mem_append_left _ hmem)))
        rw [he]
        exact Nat.ne_of_lt hid
      · omega
    · have hlt : s.lisFmodcnt < MAX_STRMOD := lt_of_le_of_ne hle hm
      have hn : n ≠ [] := fun hc => hnot s.lisFmodcnt hpos le_rfl ((h.high _ le_rfl hlt).trans hc.symm)
      have huw : u.view.Within := huv ▸ Names.within_use.mpr ⟨hu,fun i hi => by
        have := List.mem_range'_1.mp hi
        omega⟩
      have hhas : ¬ s.Has n := fun ⟨i,h0,hi,he⟩ => hnot i h0 (has_lt h hn hi he).le he
      have hfin : ∀ {w : Names}, (w.Injective ↔ ∀ j, j < MAX_STRMOD → (s.sw j).fName ≠ n.take LIS_NAMESZ) ∧
          (w.Injective → w.Good ∧ w.Within) →
          (w.Within ∧ w.Injective → s.Has n ∨ (s.lisFmodcnt < MAX_STRMOD ∧ s.Fresh n)) ∧
          (s.Has n ∨ (s.lisFmodcnt < MAX_STRMOD ∧ s.Fresh n) → w.Good ∧ w.Within) := by
        intro w hw
        exact ⟨fun hr => Or.inr ⟨hlt,hw.1.mp hr.2⟩,fun hg => hw.2 (hw.1.mpr (hg.resolve_left hhas).2)⟩
      have huse : ∀ l, (∀ i ∈ l, i < MAX_STRMOD) → (u.view.use l).Within := fun l hl => Names.within_use.mpr ⟨huw,hl⟩
      rw [← husw] at hfin
      rcases findEmpty_cases hug.le n with ⟨l,hl,⟨hc,-,-⟩ | ⟨id,h0,hid,hname,he,hv⟩ | ⟨hc,he,hv⟩⟩
      · omega
      · have hcnt : (u.findEmptyModIndex n).2.lisFmodcnt = u.lisFmodcnt := congrArg Names.cnt hv
        rw [he]
        refine hfin (put_fresh (v := u.view.use l) (hug.use l) (huse l hl) h0 hid hname hn ?_)
        rw [enter_other (by omega),hv]
      · have hcnt : (u.findEmptyModIndex n).2.lisFmodcnt = u.lisFmodcnt + 1 := congrArg Names.cnt hv
        rw [he]
        refine hfin (put_fresh (v := (u.view.use l).grow) ((hug.use l).grow hc) (huse l hl) hug.pos
          (Nat.lt_succ_self _) (hug.high _ le_rfl hc) hn ?_)
        rw [enter_other (by omega),hv]
        rfl

theorem register_exact {strtab : Option ℕ} {intr1 intr2 : Bool} {r : ℤ × Registry} (h : s.view.Good)
    (hu : s.view.Within) (hr : s.lisRegisterStrmod strtab (some n) intr1 intr2 = some r) :
    (r.2.view.Within ∧ r.2.view.Injective →
      (∃ a, strtab = some a ∧ (intr1 = true ∨ ∃ i, 0 < i ∧ i < s.lisFmodcnt ∧ (s.sw i).fStr = some a)) ∨ intr2 = true ∨
        s.Has n ∨ (s.lisFmodcnt < MAX_STRMOD ∧ s.Fresh n)) ∧
    ((∃ a, strtab = some a ∧ (intr1 = true ∨ ∃ i, 0 < i ∧ i < s.lisFmodcnt ∧ (s.sw i).fStr = some a)) ∨ intr2 = true ∨
        s.Has n ∨ (s.lisFmodcnt < MAX_STRMOD ∧ s.Fresh n) → r.2.view.Good ∧ r.2.view.Within) := by
  obtain ⟨q,hq,hr⟩ := Option.bind_eq_some_iff.mp hr
  obtain ⟨l,hl,hqv,hqs⟩ := findmodStrtab_view h.le hq
  have hqg : q.2.view.Good := hqv ▸ h.use l
  have hqw : q.2.view.Within := hqv ▸ Names.within_use.mpr ⟨hu,hl⟩
  have hqc : q.2.lisFmodcnt = s.lisFmodcnt := congrArg Names.cnt hqv
  have hearly : 0 < q.1 ↔ ∃ a, strtab = some a ∧ (intr1 = true ∨ ∃ i, 0 < i ∧ i < s.lisFmodcnt ∧ (s.sw i).fStr = some a) := by
    exact findmodStrtab_pos hq
  split_ifs at hr with hpos
  · obtain rfl := Option.some.inj hr
    exact ⟨fun _ => Or.inl (hearly.mp hpos),fun _ => ⟨hqg,hqw⟩⟩
  · obtain ⟨d,hd,rfl⟩ := Option.map_eq_some_iff.mp hr
    have hdv := view_downReg hd
    have hsw := sw_downReg hd
    rw [downReg_ok hd]
    cases intr2 with
    | true => exact ⟨fun _ => Or.inr (Or.inl rfl),fun _ => ⟨hdv ▸ hqg,hdv ▸ hqw⟩⟩
    | false =>
      have hcore := registerName_exact (hdv ▸ hqg) (hdv ▸ hqw) strtab n
      have hcnt : d.2.lisFmodcnt = s.lisFmodcnt := hsw.2.trans hqc
      simp only [Has,Fresh,hsw.1,hqs,hcnt] at hcore
      refine ⟨fun hw => Or.inr (Or.inr (hcore.1 hw)),fun hg => hcore.2 ?_⟩
      exact (hg.resolve_left fun hc => hpos (hearly.mpr hc)).resolve_left fun hc => Bool.noConfusion hc

/-! ### Lookup, unregistration and loading -/

theorem findmod_cases (h : s.view.Good) (hn : n ≠ []) : ∃ l, (s.lisFindmod (some n)).2 = { s with used := s.used ++ l } ∧
    ((∀ i ∈ l, i < MAX_STRMOD) ↔ s.lisFmodcnt < MAX_STRMOD) ∧
    (s.lisFmodcnt < MAX_STRMOD → (0 < (s.lisFindmod (some n)).1 ∧ (s.lisFindmod (some n)).1 < s.lisFmodcnt ∧
      (s.sw (s.lisFindmod (some n)).1).fName = n) ∨
      ((s.lisFindmod (some n)).1 = 0 ∧ ∀ i, i < MAX_STRMOD → (s.sw i).fName ≠ n)) := by
  have hle : s.lisFmodcnt ≤ MAX_STRMOD := h.le
  have hpos : 0 < s.lisFmodcnt := h.pos
  have hdef : s.lisFindmod (some n) = (((List.range' 1 s.lisFmodcnt).reverse.find? fun i => (s.sw i).fName == n).getD 0,
      { s with used := s.used ++ visited (fun i => (s.sw i).fName == n) (List.range' 1 s.lisFmodcnt).reverse }) := by
    cases n with
    | nil => exact absurd rfl hn
    | cons a n => rfl
  rw [hdef]
  refine ⟨_,rfl,⟨fun hl => ?_,fun hlt i hi => ?_⟩,fun hlt => ?_⟩
  · -- the search starts at the count
    exact hl s.lisFmodcnt (visited_count hpos)
  · exact (mem_countdown (visited_mem hi)).2.trans_lt hlt
  · dsimp only
    cases hf : (List.range' 1 s.lisFmodcnt).reverse.find? fun i => (s.sw i).fName == n with
    | some id =>
      have hname : (s.sw id).fName = n := by simpa using List.find?_some hf
      have hid := mem_countdown (List.mem_of_find?_eq_some hf)
      exact Or.inl ⟨hid.1,has_lt h hn (hid.2.trans_lt hlt) hname,hname⟩
    | none =>
      refine Or.inr ⟨rfl,fun i hi hc => ?_⟩
      have hic := has_lt h hn hi hc
      have h0 : 0 < i := by
        rcases Nat.eq_zero_or_pos i with rfl | hp
        · exact absurd (hc.symm.trans h.low) hn
        · exact hp
      have hin : i ∈ (List.range' 1 s.lisFmodcnt).reverse := List.mem_reverse.mpr (List.mem_range'_1.mpr ⟨h0,by omega⟩)
      exact List.find?_eq_none.mp hf i hin (by simpa using hc)

/- A view with some more indices used, all of them `id`. -/
theorem use_self {v : Names} (h : v.Good) (hu : v.Within) (hid : id < MAX_STRMOD) {l : List ℕ} (hl : ∀ i ∈ l, i = id) :
    (v.use l).Good ∧ (v.use l).Within := ⟨h.use l,Names.within_use.mpr ⟨hu,fun i hi => (hl i hi) ▸ hid⟩⟩

theorem unregisterModule_names {intr : Bool} {r : ℤ × Registry} (hr : s.unregisterModule id intr = some r) :
    ∃ l, (∀ i ∈ l, i = id) ∧ (r.2.view = s.view.use l ∨ r.2.view = (s.view.use l).put id []) := by
  have hself : s.view = s.view.use [] := Names.ext rfl rfl rfl (List.append_nil _).symm
  have hone : ∀ k, ∀ i ∈ List.replicate k id, i = id := fun k i hi => List.eq_of_mem_replicate hi
  rw [unregisterModule] at hr
  by_cases h1 : (!(s.sw id).inited) = true
  · rw [if_pos h1] at hr
    obtain rfl := Option.some.inj hr
    exact ⟨[],fun i hi => absurd hi List.not_mem_nil,Or.inl hself⟩
  by_cases h2 : (s.sw id).fCount ≠ 0
  · rw [if_neg h1,if_pos h2] at hr
    obtain rfl := Option.some.inj hr
    exact ⟨[],fun i hi => absurd hi List.not_mem_nil,Or.inl hself⟩
  · rw [if_neg h1,if_neg h2] at hr
    obtain ⟨d,hd,rfl⟩ := Option.map_eq_some_iff.mp hr
    have hdv := view_downSem hd
    have hup : (d.2.upSem id).view = s.view.use [id,id] := by
      rw [view_upSem,hdv]
      exact Names.ext rfl rfl rfl (List.append_assoc ..)
    have hset : ∀ f : Fmodsw, f.fName = (d.2.sw id).fName → (d.2.setSlot id f).view = s.view.use [id,id] := by
      intro f hf
      rw [view_setSlot hf,hdv]
      exact Names.ext rfl rfl rfl (List.append_assoc ..)
    dsimp only
    split_ifs
    · exact ⟨_,hone 1,Or.inl hdv⟩
    · exact ⟨_,hone 2,Or.inr (view_deinit.trans (congrArg (Names.put · id []) hup))⟩
    · exact ⟨_,hone 2,Or.inl hup⟩
    · exact ⟨_,hone 2,Or.inr (view_deinit.trans (congrArg (Names.put · id []) (hset _ rfl)))⟩
    · exact ⟨_,hone 1,Or.inl hdv⟩

theorem unregister_exact {strtab : Option ℕ} {intr intrSem : Bool} {r : ℤ × Registry} (h : s.view.Good)
    (hu : s.view.Within) (hr : s.lisUnregisterStrmod strtab intr intrSem = some r) :
    (r.2.view.Within → intr = true ∨ s.lisFmodcnt < MAX_STRMOD) ∧
    (intr = true ∨ s.lisFmodcnt < MAX_STRMOD → r.2.view.Good ∧ r.2.view.Within) := by
  obtain ⟨d,hd,hr⟩ := Option.bind_eq_some_iff.mp hr
  have hdv := view_downReg hd
  have hsw := sw_downReg hd
  rw [downReg_ok hd] at hr
  cases intr with
  | true =>
    obtain rfl := Option.some.inj hr
    exact ⟨fun _ => Or.inl rfl,fun _ => ⟨hdv ▸ h,hdv ▸ hu⟩⟩
  | false =>
    have hpos : 0 < s.lisFmodcnt := h.pos
    -- the search starts at the count
    have hhead : s.lisFmodcnt ∈ visited (fun i => (d.2.sw i).fStr == strtab) (List.range' 1 s.lisFmodcnt).reverse :=
      visited_count hpos
    obtain ⟨u,hue⟩ : ∃ u, u = (d.2.search (List.range' 1 s.lisFmodcnt).reverse fun f => f.fStr == strtab).2 := ⟨_,rfl⟩
    have huv : u.view = s.view.use (visited (fun i => (d.2.sw i).fStr == strtab) (List.range' 1 s.lisFmodcnt).reverse) := by
      rw [hue,view_search,hdv]
    have huw : s.lisFmodcnt < MAX_STRMOD → u.view.Within := fun hlt =>
      huv ▸ Names.within_use.mpr ⟨hu,fun i hi => (mem_countdown (visited_mem hi)).2.trans_lt hlt⟩
    have hin : s.lisFmodcnt ∈ u.view.used := by
      rw [huv]
      exact List.mem_append_right _ hhead
    simp only [Bool.not_false,Bool.not_true,Bool.false_eq_true,if_false] at hr
    cases hf : (List.range' 1 s.lisFmodcnt).reverse.find? fun i => (d.2.sw i).fStr == strtab with
    | none =>
      have hr' : r = (-EINVAL,u.upReg) := by
        simp only [search,hf] at hr hue
        rw [hue]
        exact (Option.some.inj hr).symm
      rw [hr']
      exact ⟨fun hw => Or.inr (hw _ hin),fun hg => ⟨huv ▸ h.use _,huw (hg.resolve_left fun hc => Bool.noConfusion hc)⟩⟩
    | some id =>
      have hid : id ≤ s.lisFmodcnt := (mem_countdown (List.mem_of_find?_eq_some hf)).2
      have hr' : (u.unregisterModule id intrSem).map (fun v => (v.1,v.2.upReg)) = some r := by
        simp only [search,hf] at hr hue
        rw [hue]
        exact hr
      obtain ⟨v,hv,rfl⟩ := Option.map_eq_some_iff.mp hr'
      obtain ⟨l,hl,hview⟩ := unregisterModule_names hv
      refine ⟨fun hw => Or.inr (hw _ ?_),fun hg => ?_⟩
      · rw [view_upReg]
        rcases hview with hview | hview
        · rw [hview]
          exact List.mem_append_left _ hin
        · rw [hview]
          exact List.mem_append_left _ (List.mem_append_left _ hin)
      · have hlt := hg.resolve_left fun hc => Bool.noConfusion hc
        obtain ⟨hg1,hw1⟩ := use_self (huv ▸ h.use _) (huw hlt) (hid.trans_lt hlt) hl
        rw [view_upReg]
        rcases hview with hview | hview
        · exact ⟨hview ▸ hg1,hview ▸ hw1⟩
        · exact ⟨hview ▸ hg1.clear id,hview ▸ Names.within_put.mpr ⟨hw1,hid.trans_lt hlt⟩⟩

theorem use_append (v : Names) (k l : List ℕ) : (v.use k).use l = v.use (k ++ l) :=
  Names.ext rfl rfl rfl (List.append_assoc ..)

theorem loadSlot_names {intr : Bool} {r : ℤ × Registry} (hr : s.loadSlot id intr = some r) :
    ∃ l m, (∀ i ∈ l, i = id) ∧ (∀ i ∈ m, i = id) ∧ r.2.view = (s.view.use l).load m := by
  obtain ⟨d,hd,rfl⟩ := Option.map_eq_some_iff.mp hr
  have hdv := view_downSem hd
  have hone : ∀ k, ∀ i ∈ List.replicate k id, i = id := fun k i hi => List.eq_of_mem_replicate hi
  have hload : ∀ v : Names, v = v.load [] := fun v => Names.ext rfl rfl (List.append_nil _).symm rfl
  have hup : (d.2.upSem id).view = s.view.use [id,id] := by
    rw [view_upSem,hdv,use_append]
    rfl
  have hset : ((d.2.setSlot id { d.2.sw id with fState := LOADING }).upSem id).view = s.view.use [id,id,id] := by
    have hs : (d.2.setSlot id { d.2.sw id with fState := LOADING }).view = d.2.view.use [id] := view_setSlot rfl
    rw [view_upSem,hs,hdv,use_append,use_append]
    rfl
  dsimp only
  split_ifs
  · exact ⟨_,[],hone 1,hone 0,hdv.trans (hload _)⟩
  · exact ⟨_,[],hone 2,hone 0,hup.trans (hload _)⟩
  · exact ⟨_,[id],hone 3,hone 1,congrArg (Names.load · [id]) hset⟩
  · exact ⟨_,[],hone 2,hone 0,hup.trans (hload _)⟩
  · exact ⟨_,[],hone 1,hone 0,hdv.trans (hload _)⟩

theorem loadSlot_used {intr : Bool} {r : ℤ × Registry} (hr : s.loadSlot id intr = some r) (hi : i ∈ s.view.used) :
    i ∈ r.2.view.used := by
  obtain ⟨l,m,-,-,hview⟩ := loadSlot_names hr
  rw [hview]
  exact List.mem_append_left _ hi

theorem findEmpty_used (h : s.view.Good) (n : Name) (hi : i ∈ s.view.used) :
    i ∈ (s.findEmptyModIndex n).2.view.used := by
  rcases findEmpty_cases h.le n with ⟨l,-,⟨-,-,hv⟩ | ⟨id,-,-,-,-,hv⟩ | ⟨-,-,hv⟩⟩
  · exact hv ▸ List.mem_append_left _ hi
  · exact hv ▸ List.mem_append_left _ (List.mem_append_left _ hi)
  · exact hv ▸ List.mem_append_left _ (List.mem_append_left _ hi)

/- The rest of `lis_loadmod` for a slot of the table. -/
theorem loadSlot_good {intr : Bool} {r : ℤ × Registry} (h : s.view.Good) (hu : s.view.Within)
    (hid : id < s.lisFmodcnt) (hr : s.loadSlot id intr = some r) : r.2.view.Good ∧ r.2.view.Within := by
  obtain ⟨l,m,hl,hm,hview⟩ := loadSlot_names hr
  obtain ⟨hg,hw⟩ := use_self h hu (hid.trans_le h.le) hl
  rw [hview]
  exact ⟨hg.load fun i hi => (hm i hi) ▸ hid,hw⟩

theorem loadmod_exact {intr intrSem : Bool} {r : ℤ × Registry} (h : s.view.Good)
    (hu : s.view.Within) (hr : s.lisLoadmod n intr intrSem = some r) :
    (r.2.view.Within ∧ r.2.view.Injective →
      n = [] ∨ (s.lisFmodcnt < MAX_STRMOD ∧ (intr = true ∨ s.Has n ∨ s.Fresh n))) ∧
    (n = [] ∨ (s.lisFmodcnt < MAX_STRMOD ∧ (intr = true ∨ s.Has n ∨ s.Fresh n)) →
      r.2.view.Good ∧ r.2.view.Within) := by
  obtain ⟨d,hd,hr⟩ := Option.bind_eq_some_iff.mp hr
  have hdv := view_downReg hd
  have hsw := sw_downReg hd
  rw [downReg_ok hd] at hr
  by_cases hn : n = []
  · subst hn
    have hdg : d.2.view.Good := hdv ▸ h
    have hdw : d.2.view.Within := hdv ▸ hu
    refine ⟨fun _ => Or.inl rfl,fun _ => ?_⟩
    cases intr with
    | true =>
      obtain rfl := Option.some.inj hr
      exact ⟨hdg,hdw⟩
    | false =>
      simp only [Bool.not_false,Bool.not_true,Bool.false_eq_true,if_false,lisFindmod,if_true] at hr
      rcases findEmpty_cases hdg.le [] with ⟨l,hl,⟨-,h0,hv⟩ | ⟨id,h0,hid,hname,he,hv⟩ | ⟨hc,he,hv⟩⟩
      · rw [if_pos h0] at hr
        obtain rfl := Option.some.inj hr
        exact ⟨(hv ▸ hdg.use l : (d.2.findEmptyModIndex []).2.view.Good),
          (hv ▸ Names.within_use.mpr ⟨hdw,hl⟩ : (d.2.findEmptyModIndex []).2.view.Within)⟩
      · rw [he,if_neg (Nat.ne_of_gt h0)] at hr
        refine loadSlot_good ?_ ?_ ?_ hr
        · exact hv ▸ (hdg.use l).put h0 hid (by decide) (Or.inl rfl)
        · exact hv ▸ Names.within_put.mpr ⟨Names.within_use.mpr ⟨hdw,hl⟩,hid.trans_le hdg.le⟩
        · exact hid.trans_eq (congrArg Names.cnt hv).symm
      · rw [he,if_neg (show d.2.lisFmodcnt ≠ 0 from Nat.ne_of_gt hdg.pos)] at hr
        refine loadSlot_good ?_ ?_ ?_ hr
        · exact hv ▸ ((hdg.use l).grow hc).put hdg.pos (Nat.lt_succ_self _) (by decide) (Or.inl rfl)
        · exact hv ▸ Names.within_put.mpr ⟨(Names.within_use.mpr ⟨hdw,hl⟩ : ((d.2.view.use l).grow).Within),hc⟩
        · exact (Nat.lt_succ_self _).trans_eq (congrArg Names.cnt hv).symm
  · obtain ⟨l,hm,hl,hfound⟩ := findmod_cases h hn
    have hdv : d.2.view = s.view.use l := hdv.trans (congrArg view hm)
    have hdg : d.2.view.Good := hdv ▸ h.use l
    have hds : d.2.sw = s.sw := hsw.1.trans (by rw [hm])
    have hdc : d.2.lisFmodcnt = s.lisFmodcnt := hsw.2.trans (by rw [hm])
    by_cases hlt : s.lisFmodcnt < MAX_STRMOD
    · have hdw : d.2.view.Within := hdv ▸ Names.within_use.mpr ⟨hu,hl.mpr hlt⟩
      cases intr with
      | true =>
        obtain rfl := Option.some.inj hr
        exact ⟨fun _ => Or.inr ⟨hlt,Or.inl rfl⟩,fun _ => ⟨hdg,hdw⟩⟩
      | false =>
        simp only [Bool.not_false,Bool.not_true,Bool.false_eq_true,if_false] at hr
        rcases hfound hlt with ⟨h0,hid,hname⟩ | ⟨h0,hno⟩
        · rw [if_neg (Nat.ne_of_gt h0),if_neg (Nat.ne_of_gt h0)] at hr
          exact ⟨fun _ => Or.inr ⟨hlt,Or.inr (Or.inl ⟨_,h0,hid.trans hlt,hname⟩)⟩,fun _ =>
            loadSlot_good hdg hdw (hid.trans_eq hdc.symm) hr⟩
        · rw [if_pos h0] at hr
          have hhas : ¬ s.Has n := fun ⟨i,_,hi,he⟩ => hno i hi he
          have htake : n.take LIS_NAMESZ ≠ [] := by
            rw [ne_eq,List.take_eq_nil_iff]
            exact fun hc => hc.elim (by decide) hn
          -- a new slot gets what is kept of the name
          have hput : ∀ {v w : Names} {id : ℕ}, v.Good → v.Within → v.name = s.view.name → 0 < id → id < v.cnt →
              v.name id = [] → (d.2.findEmptyModIndex n).1 = id → (d.2.findEmptyModIndex n).2.view = v.put id (n.take LIS_NAMESZ) →
              (r.2.view.Within ∧ r.2.view.Injective → s.Fresh n) ∧ (s.Fresh n → r.2.view.Good ∧ r.2.view.Within) := by
            intro v w id hv hvw hvn h0 hid hname he hview
            rw [he,if_neg (Nat.ne_of_gt h0)] at hr
            have hidm : id < MAX_STRMOD := hid.trans_le hv.le
            obtain ⟨l,m,-,-,hrv⟩ := loadSlot_names hr
            refine ⟨fun hw j hj => ?_,fun hf => ?_⟩
            · by_cases hne : j = id
              · rw [hne,show (s.sw id).fName = [] from (congrFun hvn id).symm.trans hname]
                exact htake.symm
              · have hinj : (v.put id (n.take LIS_NAMESZ)).Injective := by
                  have hi := hw.2
                  rw [hrv,hview] at hi
                  exact hi
                exact fun hc => hinj.of_put hidm htake j hj hne ((congrFun hvn j).trans hc)
            · refine loadSlot_good ?_ ?_ ?_ hr
              · exact hview ▸ hv.put h0 hid (take_short n) (Or.inr fun j hj _ hc => hf j hj
                  ((congrFun hvn j).symm.trans hc))
              · exact hview ▸ Names.within_put.mpr ⟨hvw,hidm⟩
              · exact hid.trans_eq (congrArg Names.cnt hview).symm
          have hfin : (r.2.view.Within ∧ r.2.view.Injective → s.Fresh n) ∧ (s.Fresh n → r.2.view.Good ∧ r.2.view.Within) := by
            have hdn : d.2.view.name = s.view.name := by rw [hdv]; rfl
            rcases findEmpty_cases hdg.le n with ⟨k,hk,⟨hc,-,-⟩ | ⟨id,h0,hid,hname,he,hv⟩ | ⟨hc,he,hv⟩⟩
            · omega
            · exact hput (w := d.2.view) (hdg.use k) (Names.within_use.mpr ⟨hdw,hk⟩) hdn h0 hid hname he hv
            · exact hput (w := d.2.view) ((hdg.use k).grow hc)
                (Names.within_use.mpr ⟨hdw,hk⟩ : ((d.2.view.use k).grow).Within) hdn hdg.pos (Nat.lt_succ_self _)
                (hdg.high _ le_rfl hc) he hv
          refine ⟨fun hw => Or.inr ⟨hlt,Or.inr (Or.inr (hfin.1 hw))⟩,fun hg => hfin.2 ?_⟩
          have hg := (hg.resolve_left hn).2.resolve_left fun hc => Bool.noConfusion hc
          exact hg.resolve_left hhas
    · -- an index behind the table was used, and stays used
      obtain ⟨i,hil,hi⟩ := not_forall₂.mp (mt hl.mp hlt)
      have hdi : i ∈ d.2.view.used := by
        rw [hdv]
        exact List.mem_append_right _ hil
      have hri : i ∈ r.2.view.used := by
        cases intr with
        | true =>
          obtain rfl := Option.some.inj hr
          exact hdi
        | false =>
          simp only [Bool.not_false,Bool.not_true,Bool.false_eq_true,if_false] at hr
          split_ifs at hr
          · obtain rfl := Option.some.inj hr
            exact findEmpty_used hdg n hdi
          · exact loadSlot_used hr (findEmpty_used hdg n hdi)
          · exact loadSlot_used hr hdi
      exact ⟨fun hw => absurd (hw.1 i hri) hi,fun hg => absurd (hg.resolve_left hn).1 hlt⟩

theorem setSlot_good (h : s.view.Good) (hu : s.view.Within) (hid : id < MAX_STRMOD) (hf : f.fName = (s.sw id).fName) :
    (s.setSlot id f).view.Good ∧ (s.setSlot id f).view.Within := by
  rw [view_setSlot hf]
  exact ⟨h.use _,Names.within_use.mpr ⟨hu,List.forall_mem_singleton.mpr hid⟩⟩

theorem loadDone_good {ok : Bool} {r : ℤ × Registry} (h : s.view.Good) (hu : s.view.Within)
    (hr : s.loadDone k ok = some r) : r.2.view.Good ∧ r.2.view.Within := by
  obtain ⟨id,hk,rfl⟩ := Option.map_eq_some_iff.mp hr
  have hid : id < s.lisFmodcnt := h.loads id (List.mem_of_getElem? hk)
  have hm : id < MAX_STRMOD := hid.trans_le h.le
  have hg : ({ s.view with loads := s.loads.eraseIdx k } : Names).Good :=
    ⟨h.pos,h.le,h.low,h.high,h.inj,h.short,fun i hi => h.loads i (List.mem_of_mem_eraseIdx hi)⟩
  have hw := Names.within_use.mpr ⟨hu,List.forall_mem_singleton.mpr hm⟩
  dsimp only
  split_ifs
  · rw [view_deinit]
    exact ⟨(hg.use [id]).clear id,Names.within_put.mpr ⟨hw,hm⟩⟩
  · exact setSlot_good (s := { s with loads := s.loads.eraseIdx k, used := s.used ++ [id] }) (hg.use [id]) hw hm rfl

theorem initMod_good {loadable : Bool} (h : s.view.Good) (hu : s.view.Within) (hi : i < MAX_STRMOD)
    (hid : id < MAX_STRMOD) : (s.initMod i id loadable).view.Good ∧ (s.initMod i id loadable).view.Within := by
  obtain ⟨h1,hu1⟩ := setSlot_good (f := { s.sw i with fState := 0 }) h hu hi rfl
  exact setSlot_good h1 hu1 hid rfl

theorem pushMod_good {idname : Option Name} {pushed : Pushed} {r : ℤ × Registry} (h : s.view.Good)
    (hu : s.view.Within) (hid : id < s.lisFmodcnt) (hr : s.pushMod k id idname pushed = some r) :
    r.2.view.Good ∧ r.2.view.Within := by
  obtain ⟨hd,-,rfl⟩ := Option.map_eq_some_iff.mp hr
  have hm : id < MAX_STRMOD := hid.trans_le h.le
  have h1 := h.use [id]
  have hw := Names.within_use.mpr ⟨hu,List.forall_mem_singleton.mpr hm⟩
  cases pushed with
  | failed => exact ⟨h1,hw⟩
  | unsynced => exact ⟨h1,hw⟩
  | done =>
    exact setSlot_good (s := { s with used := s.used ++ [id] }) (f := { s.sw id with fCount := (s.sw id).fCount + 1 })
      h1 hw hm rfl

theorem autopush_good {idname : Option Name} {intr : Bool} {pushed : Pushed} {r : ℤ × Registry} (h : s.view.Good)
    (hu : s.view.Within) (hid : id < s.lisFmodcnt) (hr : s.autopush k id idname intr pushed = some r) :
    r.2.view.Good ∧ r.2.view.Within := by
  have hm : id < MAX_STRMOD := hid.trans_le h.le
  obtain ⟨d,hd,hr⟩ := Option.bind_eq_some_iff.mp hr
  have hdv := view_downSem hd
  have hdg : d.2.view.Good := hdv ▸ h.use [id]
  have hdw : d.2.view.Within := hdv ▸ Names.within_use.mpr ⟨hu,List.forall_mem_singleton.mpr hm⟩
  split_ifs at hr
  · obtain rfl := Option.some.inj hr
    exact ⟨hdg,hdw⟩
  · obtain ⟨q,hq,rfl⟩ := Option.map_eq_some_iff.mp hr
    have hcnt : d.2.lisFmodcnt = s.lisFmodcnt := congrArg Names.cnt hdv
    obtain ⟨hqg,hqw⟩ := pushMod_good hdg hdw (hid.trans_eq hcnt.symm) hq
    split_ifs
    · exact ⟨hqg,hqw⟩
    · rw [view_upSem]
      exact ⟨hqg.use _,Names.within_use.mpr ⟨hqw,List.forall_mem_singleton.mpr hm⟩⟩

/- The module on top of a stream that is to be popped. -/
def popped (s : Registry) (k : ℕ) : Option Name :=
  match s.streams[k]? with
  | none => none
  | some hd => if hd.sdPushcnt = 0 then none else hd.stack.head?.bind Inst.idname

theorem pop_exact {detached : Bool} {r : ℤ × Registry} (h : s.view.Good) (hu : s.view.Within)
    (hr : s.popMod k detached = some r) :
    (r.2.view.Within → (s.popped k).getD [] = [] ∨ s.lisFmodcnt < MAX_STRMOD) ∧
    ((s.popped k).getD [] = [] ∨ s.lisFmodcnt < MAX_STRMOD → r.2.view.Good ∧ r.2.view.Within) := by
  obtain ⟨hd,hk,hr⟩ := Option.bind_eq_some_iff.mp hr
  by_cases hp : hd.sdPushcnt = 0
  · rw [if_pos hp] at hr
    obtain rfl := Option.some.inj hr
    have hnone : s.popped k = none := by rw [popped,hk]; exact if_pos hp
    rw [hnone]
    exact ⟨fun _ => Or.inl rfl,fun _ => ⟨h,hu⟩⟩
  rw [if_neg hp] at hr
  cases hs : hd.stack with
  | nil =>
    rw [hs] at hr
    cases hr
  | cons mod below =>
    have hpop : s.popped k = mod.idname := by
      rw [popped,hk]
      simp [hp,hs]
    rw [hs] at hr
    rw [hpop]
    cases hname : mod.idname with
    | none =>
      simp only [hname,Option.isNone_none,if_true] at hr
      obtain rfl := Option.some.inj hr
      exact ⟨fun _ => Or.inl rfl,fun _ => ⟨h,hu⟩⟩
    | some n =>
      simp only [hname,Option.isNone_some,Bool.false_eq_true,if_false] at hr
      by_cases hn : n = []
      · subst hn
        refine ⟨fun _ => Or.inl rfl,fun _ => ?_⟩
        simp only [lisFindmod,Nat.lt_irrefl,if_false] at hr
        split_ifs at hr <;> obtain rfl := Option.some.inj hr <;> exact ⟨h,hu⟩
      · have h1 : ({ s with streams := s.streams.set k ⟨mod :: below,hd.sdPushcnt - 1⟩ } : Registry).view.Good := h
        obtain ⟨l,hm,hl,hfound⟩ := findmod_cases h1 hn
        obtain ⟨m,hme⟩ : ∃ m, m = ({ s with streams := s.streams.set k ⟨mod :: below,hd.sdPushcnt - 1⟩ } :
          Registry).lisFindmod (some n) := ⟨_,rfl⟩
        rw [← hme] at hr hm hfound
        have hmv : m.2.view = s.view.use l := by rw [hm]; rfl
        have hr' : ∃ w : Registry, (w = m.2 ∨ (0 < m.1 ∧ w = m.2.setSlot m.1 { m.2.sw m.1 with
            fCount := (m.2.sw m.1).fCount - 1 })) ∧ r.2.view = w.view := by
          by_cases h0 : 0 < m.1
          · refine ⟨_,Or.inr ⟨h0,rfl⟩,?_⟩
            simp only [h0,if_true] at hr
            split_ifs at hr <;> obtain rfl := Option.some.inj hr <;> rfl
          · refine ⟨_,Or.inl rfl,?_⟩
            simp only [h0,if_false] at hr
            split_ifs at hr <;> obtain rfl := Option.some.inj hr <;> rfl
        obtain ⟨w,hw,hrw⟩ := hr'
        have hlu : ∀ i ∈ l, i ∈ r.2.view.used := by
          intro i hi
          have hmi : i ∈ m.2.view.used := by
            rw [hmv]
            exact List.mem_append_right _ hi
          rw [hrw]
          rcases hw with rfl | ⟨-,rfl⟩
          · exact hmi
          · exact List.mem_append_left _ hmi
        refine ⟨fun hwi => Or.inr (hl.mp fun i hi => hwi i (hlu i hi)),fun hg => ?_⟩
        have hlt := hg.resolve_left hn
        have hmg : m.2.view.Good := hmv ▸ h.use l
        have hmw : m.2.view.Within := hmv ▸ Names.within_use.mpr ⟨hu,hl.mpr hlt⟩
        rw [hrw]
        rcases hw with rfl | ⟨h0,rfl⟩
        · exact ⟨hmg,hmw⟩
        · have hid : m.1 < MAX_STRMOD := by
            rcases hfound hlt with ⟨-,hid,-⟩ | ⟨hz,-⟩
            · exact hid.trans hlt
            · omega
          exact setSlot_good hmg hmw hid rfl

/-! ### Runs -/

/-- The searches end in the table: they find what they look for, or there is a slot at the count. A new name is
not cut to one that the table has. -/
def Guard (s : Registry) : Act → Prop
  | .register strtab (some n) intr1 intr2 =>
      (∃ a, strtab = some a ∧ (intr1 = true ∨ ∃ i, 0 < i ∧ i < s.lisFmodcnt ∧ (s.sw i).fStr = some a)) ∨ intr2 = true ∨
        s.Has n ∨ (s.lisFmodcnt < MAX_STRMOD ∧ s.Fresh n)
  | .unregister _ intr _ => intr = true ∨ s.lisFmodcnt < MAX_STRMOD
  | .findmod name => name.getD [] = [] ∨ s.lisFmodcnt < MAX_STRMOD
  | .loadmod n intr _ => n = [] ∨ (s.lisFmodcnt < MAX_STRMOD ∧ (intr = true ∨ s.Has n ∨ s.Fresh n))
  | .pop k _ => (s.popped k).getD [] = [] ∨ s.lisFmodcnt < MAX_STRMOD
  | _ => True

/- `lis_findmod` hands out the slot that has the name, 0 if none has. -/
def Looked (t : Registry) (n : Name) : Prop :=
  (∃ i, 0 < i ∧ i < MAX_STRMOD ∧ (t.sw i).fName = n ∧ n ≠ [] ∧ t.ret = i) ∨
    (t.ret = 0 ∧ (n = [] ∨ ∀ i, i < MAX_STRMOD → (t.sw i).fName ≠ n))

/- Every slot is in use, by other modules. -/
def Full (s : Registry) (strtab : Option ℕ) (n : Name) : Prop :=
  ∀ i, 0 < i → i < MAX_STRMOD → (s.sw i).fName ≠ [] ∧ (s.sw i).fName ≠ n ∧ (strtab = none ∨ (s.sw i).fStr ≠ strtab)

/-- What is to hold of a call: its indices are in the table, no two slots have one name after it, a lookup is
right, and a registration leaves a full table as it is. -/
structure Right (s : Registry) (x : Act) (t : Registry) : Prop where
  within : ∀ i ∈ t.used, i < MAX_STRMOD
  injective : ∀ i j, i < MAX_STRMOD → j < MAX_STRMOD → (t.sw i).fName = (t.sw j).fName → (t.sw i).fName ≠ [] → i = j
  looked : ∀ name, x = .findmod name → t.Looked (name.getD [])
  full : ∀ strtab n, x = .register strtab (some n) false false → s.Full strtab n →
    t.ret = 0 ∧ ∀ i, i < MAX_STRMOD → t.sw i = s.sw i

theorem step_exact {x : Act} (h : s.view.Good) (hx : step s x = some t) :
    (Right s x t ↔ Guard s x) ∧ (Guard s x → t.view.Good) := by
  obtain ⟨r,hr,rfl⟩ := Option.map_eq_some_iff.mp hx
  have h1 : ({ s with used := [] } : Registry).view.Good := ⟨h.pos,h.le,h.low,h.high,h.inj,h.short,h.loads⟩
  have hu : ({ s with used := [] } : Registry).view.Within := fun i hi => absurd hi List.not_mem_nil
  -- a call that is neither a lookup nor a registration has no answer to be right
  have hplain : (∀ name, x ≠ .findmod name) → (∀ strtab n, x ≠ .register strtab (some n) false false) →
      r.2.view.Within → r.2.view.Injective → Right s x { r.2 with ret := r.1 } := fun h1 h2 hw hi =>
    ⟨hw,hi,fun name hc => absurd hc (h1 name),fun strtab n hc => absurd hc (h2 strtab n)⟩
  have hgood (hg : r.2.view.Good ∧ r.2.view.Within) (h1 : ∀ name, x ≠ .findmod name)
      (h2 : ∀ strtab n, x ≠ .register strtab (some n) false false) (hG : Guard s x) :
      (Right s x { r.2 with ret := r.1 } ↔ Guard s x) ∧ (Guard s x → r.2.view.Good) :=
    ⟨iff_of_true (hplain h1 h2 hg.2 hg.1.inj) hG,fun _ => hg.1⟩
  cases x with
  | register strtab name intr1 intr2 =>
    cases name with
    | none =>
      obtain rfl := Option.some.inj hr
      exact hgood ⟨h1,hu⟩ (fun _ hc => Act.noConfusion hc) (fun _ _ hc => by cases hc) trivial
    | some n =>
      have hex := register_exact h1 hu hr
      refine ⟨⟨fun hR => hex.1 ⟨hR.within,hR.injective⟩,fun hG => ?_⟩,fun hG => (hex.2 hG).1⟩
      obtain ⟨hg,hw⟩ := hex.2 hG
      refine ⟨hw,hg.inj,fun name hc => Act.noConfusion hc,fun strtab' n' hc hf => ?_⟩
      -- a full table leaves no way for the guard to hold
      cases hc
      have hle : s.lisFmodcnt ≤ MAX_STRMOD := h.le
      rcases hG with ⟨a,rfl,hi⟩ | hi | ⟨i,h0,hi,he⟩ | ⟨hlt,-⟩
      · obtain ⟨i,h0,hi,hs⟩ := hi.resolve_left fun hc => Bool.noConfusion hc
        exact absurd hs ((hf i h0 (by omega)).2.2.resolve_left fun hc => Option.some_ne_none a hc)
      · exact Bool.noConfusion hi
      · exact absurd he (hf i h0 hi).2.1
      · exact absurd (h.high _ le_rfl hlt) (hf _ h.pos hlt).1
  | unregister strtab intr intrSem =>
    have hex := unregister_exact h1 hu hr
    refine ⟨⟨fun hR => hex.1 hR.within,fun hG => ?_⟩,fun hG => (hex.2 hG).1⟩
    exact hplain (fun _ hc => Act.noConfusion hc) (fun _ _ hc => Act.noConfusion hc) (hex.2 hG).2 (hex.2 hG).1.inj
  | findmod name =>
    obtain rfl := Option.some.inj hr
    by_cases hn : name.getD [] = []
    · have hdef : ({ s with used := [] } : Registry).lisFindmod name = (0,{ s with used := [] }) := by
        cases name with
        | none => rfl
        | some n =>
          obtain rfl : n = [] := hn
          rfl
      rw [hdef]
      refine ⟨iff_of_true ⟨hu,h.inj,fun name' hc => ?_,fun _ _ hc => Act.noConfusion hc⟩ (Or.inl hn),fun _ => h1⟩
      cases hc
      exact Or.inr ⟨rfl,Or.inl hn⟩
    · obtain ⟨n,rfl⟩ : ∃ n, name = some n := by
        cases name with
        | none => exact absurd rfl hn
        | some n => exact ⟨n,rfl⟩
      have hn : n ≠ [] := hn
      obtain ⟨l,hm,hl,hfound⟩ := findmod_cases h1 hn
      rw [hm]
      refine ⟨⟨fun hR => Or.inr (hl.mp fun i hi => hR.within i (List.mem_append_right _ hi)),fun hG => ?_⟩,fun _ =>
        h1.use l⟩
      have hlt := hG.resolve_left hn
      refine ⟨fun i hi => hl.mpr hlt i ((List.mem_append.mp hi).resolve_left List.not_mem_nil),h.inj,fun name' hc => ?_,
        fun _ _ hc => Act.noConfusion hc⟩
      cases hc
      rcases hfound hlt with ⟨h0,hid,hname⟩ | ⟨h0,hno⟩
      · exact Or.inl ⟨_,h0,Nat.lt_trans hid hlt,hname,hn,rfl⟩
      · exact Or.inr ⟨by rw [h0]; rfl,Or.inr hno⟩
  | findmodStrtab strtab intr =>
    obtain ⟨l,hl,hv,-⟩ := findmodStrtab_view (s := { s with used := [] }) h1.le hr
    exact hgood ⟨hv ▸ h1.use l,hv ▸ Names.within_use.mpr ⟨hu,hl⟩⟩ (fun _ hc => Act.noConfusion hc)
      (fun _ _ hc => Act.noConfusion hc) trivial
  | loadmod n intr intrSem =>
    have hex := loadmod_exact h1 hu hr
    refine ⟨⟨fun hR => hex.1 ⟨hR.within,hR.injective⟩,fun hG => ?_⟩,fun hG => (hex.2 hG).1⟩
    exact hplain (fun _ hc => Act.noConfusion hc) (fun _ _ hc => Act.noConfusion hc) (hex.2 hG).2 (hex.2 hG).1.inj
  | loadDone k ok =>
    exact hgood (loadDone_good h1 hu hr) (fun _ hc => Act.noConfusion hc) (fun _ _ hc => Act.noConfusion hc) trivial
  | initMod i modid loadable =>
    simp only [call] at hr
    split_ifs at hr with hi
    obtain rfl := Option.some.inj hr
    exact hgood (initMod_good h1 hu hi.1 hi.2.2.2) (fun _ hc => Act.noConfusion hc) (fun _ _ hc => Act.noConfusion hc) trivial
  | openStream =>
    obtain rfl := Option.some.inj hr
    exact hgood ⟨h1,hu⟩ (fun _ hc => Act.noConfusion hc) (fun _ _ hc => Act.noConfusion hc) trivial
  | push k id idname pushed =>
    simp only [call] at hr
    split_ifs at hr with hi
    exact hgood (pushMod_good h1 hu hi.2.1 hr) (fun _ hc => Act.noConfusion hc) (fun _ _ hc => Act.noConfusion hc) trivial
  | autopush k id idname intr pushed =>
    simp only [call] at hr
    split_ifs at hr with hi
    exact hgood (autopush_good h1 hu hi.2.1 hr) (fun _ hc => Act.noConfusion hc) (fun _ _ hc => Act.noConfusion hc) trivial
  | pop k detached =>
    have hex := pop_exact h1 hu hr
    refine ⟨⟨fun hR => hex.1 hR.within,fun hG => ?_⟩,fun hG => (hex.2 hG).1⟩
    exact hplain (fun _ hc => Act.noConfusion hc) (fun _ _ hc => Act.noConfusion hc) (hex.2 hG).2 (hex.2 hG).1.inj

theorem init_good (beyond : ℕ → Fmodsw) : (init beyond).view.Good := by
  have hname : ∀ i, i < MAX_STRMOD → (init beyond).view.name i = [] := by
    intro i hi
    have : (init beyond).sw i = ⟨none,0,[],LINKED,false,false,0⟩ := if_pos hi
    exact congrArg Fmodsw.fName this
  refine ⟨Nat.one_pos,show 1 ≤ MAX_STRMOD by decide,hname 0 (by decide),fun i _ hi => hname i hi,
    fun i j hi hj he hne => ?_,fun i hi => ?_,?_⟩
  · exact absurd (hname i hi) hne
  · rw [hname i hi]
    exact Nat.zero_le _
  · exact fun i hi => absurd hi List.not_mem_nil

/-- After a run whose calls all meet the guard, the next call is right if and only if it meets the guard too. -/
theorem calls_right {beyond : ℕ → Fmodsw} {xs : List Act} (hm : Meets step Guard (init beyond) xs)
    (h : exec step (init beyond) xs = some s) : ∀ x t, step s x = some t → (Right s x t ↔ Guard s x) := by
  have hg : s.view.Good :=
    exec_preserves (I := fun s => s.view.Good) (fun _ _ _ hi hc hs => (step_exact hi hs).2 hc) (init_good beyond) hm h
  exact fun x t hx => (step_exact hg hx).1

def blank : Fmodsw := ⟨none,0,[],LINKED,false,false,0⟩

/- One module that is registered, and one that is to be loaded. -/
def twoMods : List Act := [.register (some 10) (some [97]) false false,.findmod (some [97]),.findmod (some [98])]

theorem twoMods_meet : Meets step Guard (init fun _ => blank) twoMods := by
  have hfresh : (init fun _ => blank).Fresh [97] := by
    intro j hj hc
    have hj : (init fun _ => blank).sw j = blank := if_pos hj
    rw [hj] at hc
    exact absurd hc (by decide)
  refine ⟨Or.inr (Or.inr (Or.inr ⟨show 1 < MAX_STRMOD by decide,hfresh⟩)),fun t ht => ⟨Or.inr ?_,fun u hu => ⟨Or.inr ?_,fun _ _ => trivial⟩⟩⟩
  · obtain rfl := Option.some.inj ht
    show (2 : ℕ) < 256
    decide
  · obtain rfl := Option.some.inj ht
    obtain rfl := Option.some.inj hu
    show (2 : ℕ) < 256
    decide

theorem calls_right_two : ∃ s, exec step (init fun _ => blank) twoMods = some s ∧
    ∀ x t, step s x = some t → (Right s x t ↔ Guard s x) :=
  Exists.imp (fun _ hs => ⟨hs,calls_right twoMods_meet hs⟩) (Option.isSome_iff_exists.mp rfl)

/- A name of 65 bytes is entered without its last byte, and not found again. -/
def longName : Name := List.replicate 65 97

/-- Registered for two streamtabs, it has two slots. -/
theorem named_twice : ¬∀ (xs : List Act) (s t : Registry) (x : Act), exec step (init fun _ => blank) xs = some s →
    step s x = some t → Right s x t := by
  intro h
  have hr := h [.register (some 10) (some longName) false false] _ _ (.register (some 11) (some longName) false false) rfl rfl
  have hij : (1 : ℕ) = 2 := hr.injective 1 2 (by decide) (by decide) rfl (by decide)
  exact absurd hij (by decide)

end Registry

end CSLiS.Mod
