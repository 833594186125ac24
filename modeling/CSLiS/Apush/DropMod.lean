import CSLiS.Apush.InsertExact

/-!
# Modules leave the autopush lists (mod.c:418-510)

`apush_nref` counts how often a module is named in the lists of all majors. `apush_drop_mod` takes the module out of the
lists and stops as soon as its count is 0.
-/

namespace CSLiS.Apush
open Lib.Exec

/-- The scan of one list (`mod.c:493-507`): the list, the count, and whether `apush_drop_mod` returns. -/
def dropList (mod : ModID) : List ModID → ℕ → List ModID × ℕ × Bool
  | [], n => ([],n,false)
  | m :: ms, n =>
      if m = mod then if n - 1 = 0 then (ms,0,true) else dropList mod ms (n - 1)
      else
        let r := dropList mod ms n
        (m :: r.1,r.2)

def dropChain (mod : ModID) : Chain → ℕ → Chain × ℕ × Bool
  | [], n => ([],n,false)
  | a :: rest, n =>
      let r := dropList mod a.push n
      if r.2.2 then ({ a with push := r.1 } :: rest,r.2.1,true)
      else
        let q := dropChain mod rest r.2.1
        ({ a with push := r.1 } :: q.1,q.2)

/- The majors that are left to scan. -/
def dropMajors (mod : ModID) : List ℕ → State → State
  | [], st => st
  | i :: is, st =>
      let r := dropChain mod (st.apush i) (st.apushNref mod)
      let t : State := { setChain st i r.1 with apushNref := Function.update st.apushNref mod r.2.1 }
      if r.2.2 then t else dropMajors mod is t

/-- `apush_drop_mod` -/
def apushDropMod (mod : ModID) (st : State) : State :=
  if st.apushNref mod = 0 then st else dropMajors mod (List.range maxStrdev) st

/-- `apush_free_major` -/
def apushFreeMajor (major : ℕ) (st : State) : State :=
  { setChain st major [] with apushNref := (st.apush major).foldl (fun r a => apushFree a r) st.apushNref }

/-- `apush_free_all` -/
def apushFreeAll (st : State) : State := (List.range maxStrdev).foldl (fun t i => apushFreeMajor i t) st

/- Everything that changes the configuration: `lis_apush_set`, an entry of `lis_init_mod`, a driver or a module that is
unregistered, the end of LiS. -/
inductive Change where
  | set (env : Env) (ap : Strapush)
  | conf (env : Env) (major : ℕ) (a : Autopush)
  | freeMajor (major : ℕ)
  | freeAll
  | dropMod (mod : ModID)

def change (st : State) : Change → Option State
  | .set env ap => some (lisApushSet env ap st).2
  | .conf env major a => some (apushConf env major a st).2
  | .freeMajor major => if major < maxStrdev then some (apushFreeMajor major st) else none
  | .freeAll => some (apushFreeAll st)
  | .dropMod mod => some (apushDropMod mod st)

/-! ## What is named -/

/- How often the lists of a chain name a module. -/
def named (mod : ModID) (c : Chain) : ℕ := (c.map fun a => a.push.count mod).sum

def namedIn (mod : ModID) (st : State) (majors : List ℕ) : ℕ := (majors.map fun i => named mod (st.apush i)).sum

/- Each list without the module. -/
def without (mod : ModID) (c : Chain) : Chain := c.map fun a => { a with push := a.push.filter fun m => m ≠ mod }

structure Counted (st : State) : Prop where
  nref : ∀ m, st.apushNref m = namedIn m st (List.range maxStrdev)
  empty : ∀ major, maxStrdev ≤ major → st.apush major = []

variable {mod m major n : ℕ} {a e : Autopush} {c d : Chain} {st t : State} {ms is : List ℕ}

theorem named_cons : named mod (a :: c) = a.push.count mod + named mod c := by
  simp [named]

theorem named_perm (h : c.Perm d) : named mod c = named mod d := (h.map _).sum_eq

theorem named_zero_iff : named mod c = 0 ↔ ∀ a ∈ c, mod ∉ a.push := by
  simp [named,List.sum_eq_zero_iff,List.count_eq_zero]

theorem namedIn_zero_iff : namedIn mod st is = 0 ↔ ∀ i ∈ is, ∀ a ∈ st.apush i, mod ∉ a.push := by
  simp [namedIn,List.sum_eq_zero_iff,named_zero_iff]

theorem filter_of_not_mem (h : mod ∉ ms) : (ms.filter fun m => m ≠ mod) = ms := by
  apply List.filter_eq_self.mpr
  intro m hm
  simp only [decide_eq_true_eq]
  rintro rfl
  exact h hm

theorem without_of_not_named (h : named mod c = 0) : without mod c = c := by
  have hall := named_zero_iff.mp h
  have hid : ∀ a ∈ c, ({ a with push := a.push.filter fun m => m ≠ mod } : Autopush) = a := by
    intro a ha
    rw [filter_of_not_mem (hall a ha)]
  rw [without,List.map_congr_left hid,List.map_id']

/-! ## The scan -/

/- The scan of a list that holds the module no more than `n` times. -/
theorem dropList_eq (hn : 0 < n) (hle : ms.count mod ≤ n) :
    dropList mod ms n = (ms.filter fun m => m ≠ mod,n - ms.count mod,decide (ms.count mod = n)) := by
  induction ms generalizing n with
  | nil =>
    have h0 : ¬ 0 = n := by omega
    simp [dropList,h0]
  | cons m ms ih =>
    by_cases hm : m = mod
    · subst hm
      rw [List.count_cons_self] at hle
      rw [dropList,if_pos rfl,List.count_cons_self]
      have hfilter : ((m :: ms).filter fun x => x ≠ m) = ms.filter fun x => x ≠ m := by simp
      rw [hfilter]
      by_cases h1 : n - 1 = 0
      · have hzero : ms.count m = 0 := by omega
        have hn1 : n = 1 := by omega
        rw [if_pos h1,filter_of_not_mem (List.count_eq_zero.mp hzero),hzero,hn1]
        rfl
      · rw [if_neg h1,ih (by omega) (by omega)]
        have h2 : n - 1 - ms.count m = n - (ms.count m + 1) := by omega
        have h3 : (ms.count m = n - 1) ↔ (ms.count m + 1 = n) := by omega
        rw [h2,decide_eq_decide.mpr h3]
    · rw [List.count_cons_of_ne hm] at hle
      rw [dropList,if_neg hm,ih hn hle,List.count_cons_of_ne hm]
      simp [hm]

theorem dropChain_eq (hn : 0 < n) (hle : named mod c ≤ n) :
    dropChain mod c n = (without mod c,n - named mod c,decide (named mod c = n)) := by
  induction c generalizing n with
  | nil =>
    have h0 : ¬ 0 = n := by omega
    simp [dropChain,without,named,h0]
  | cons a c ih =>
    rw [named_cons] at hle
    rw [dropChain,dropList_eq hn (by omega),named_cons]
    by_cases hall : a.push.count mod = n
    · have hzero : named mod c = 0 := by omega
      simp only [hall,decide_true,if_true,hzero,Nat.sub_self,Nat.add_zero]
      have hc := without_of_not_named hzero
      unfold without at hc ⊢
      rw [List.map_cons,hc]
    · simp only [hall,decide_false,Bool.false_eq_true,if_false]
      rw [ih (by omega) (by omega)]
      have h2 : n - a.push.count mod - named mod c = n - (a.push.count mod + named mod c) := by omega
      have h3 : (named mod c = n - a.push.count mod) ↔ (a.push.count mod + named mod c = n) := by omega
      rw [h2,decide_eq_decide.mpr h3]
      rfl

theorem setChain_self : (setChain st major c).apush major = c := Function.update_self ..

theorem setChain_ne {i : ℕ} (h : i ≠ major) : (setChain st major c).apush i = st.apush i := Function.update_of_ne h ..

theorem namedIn_congr (h : ∀ i ∈ is, t.apush i = st.apush i) : namedIn mod t is = namedIn mod st is := by
  unfold namedIn
  congr 1
  apply List.map_congr_left
  intro i hi
  rw [h i hi]

/- The scan of the majors, each once. -/
theorem dropMajors_eq (hnd : is.Nodup) (hn : 0 < st.apushNref mod) (hle : namedIn mod st is ≤ st.apushNref mod) :
    dropMajors mod is st = ⟨fun i => if i ∈ is then without mod (st.apush i) else st.apush i,
      Function.update st.apushNref mod (st.apushNref mod - namedIn mod st is)⟩ := by
  induction is generalizing st with
  | nil => simp [dropMajors,namedIn]
  | cons i is ih =>
    obtain ⟨hi,hnd1⟩ := List.nodup_cons.mp hnd
    have hcons : namedIn mod st (i :: is) = named mod (st.apush i) + namedIn mod st is := by simp [namedIn]
    rw [hcons] at hle ⊢
    rw [dropMajors,dropChain_eq hn (by omega)]
    have hrest : ∀ j ∈ is, (setChain st i (without mod (st.apush i))).apush j = st.apush j := by
      intro j hj
      apply setChain_ne
      rintro rfl
      exact hi hj
    by_cases hall : named mod (st.apush i) = st.apushNref mod
    · have hzero : namedIn mod st is = 0 := by omega
      simp only [hall,decide_true,if_true,hzero,Nat.add_zero]
      congr 1
      funext j
      by_cases hj : j = i
      · subst hj
        simp [setChain]
      · by_cases hm : j ∈ is
        · have hz : named mod (st.apush j) = 0 := named_zero_iff.mpr (namedIn_zero_iff.mp hzero j hm)
          simp [setChain,hj,hm,without_of_not_named hz]
        · simp [setChain,hj,hm]
    · simp only [hall,decide_false,Bool.false_eq_true,if_false]
      rw [ih hnd1]
      · have hsum : namedIn mod { setChain st i (without mod (st.apush i)) with
            apushNref := Function.update st.apushNref mod (st.apushNref mod - named mod (st.apush i)) } is =
            namedIn mod st is := namedIn_congr hrest
        rw [hsum]
        congr 1
        · funext j
          by_cases hj : j = i
          · subst hj
            simp [setChain,hi]
          · simp [setChain,hj]
        · simp only [Function.update_self,Function.update_idem]
          congr 1
          omega
      · simp only [Function.update_self]
        omega
      · simp only [Function.update_self]
        have hsum : namedIn mod (setChain st i (without mod (st.apush i))) is = namedIn mod st is :=
          namedIn_congr hrest
        unfold namedIn at hsum hle ⊢
        simp only at hsum ⊢
        rw [hsum]
        omega

/-! ## The counts -/

theorem countRefs_apply (nref : ModID → ℕ) (m : ModID) : countRefs a nref m = nref m + a.push.count m := by
  unfold countRefs
  generalize a.push = ms
  induction ms generalizing nref with
  | nil => rfl
  | cons x ms ih =>
    rw [List.foldl_cons,ih]
    by_cases hx : m = x
    · subst hx
      rw [Function.update_self,List.count_cons_self]
      omega
    · rw [Function.update_of_ne hx,List.count_cons_of_ne (Ne.symm hx)]

theorem apushFree_apply (nref : ModID → ℕ) (m : ModID) : apushFree a nref m = nref m - a.push.count m := by
  unfold apushFree
  generalize a.push = ms
  induction ms generalizing nref with
  | nil => rfl
  | cons x ms ih =>
    rw [List.foldl_cons,ih]
    by_cases hx : m = x
    · subst hx
      rw [Function.update_self,List.count_cons_self]
      omega
    · rw [Function.update_of_ne hx,List.count_cons_of_ne (Ne.symm hx)]

theorem freeChain_apply (nref : ModID → ℕ) (m : ModID) :
    c.foldl (fun r a => apushFree a r) nref m = nref m - named m c := by
  induction c generalizing nref with
  | nil => rfl
  | cons a c ih =>
    rw [List.foldl_cons,ih,apushFree_apply,named_cons]
    omega

/- One chain changes. -/
theorem namedIn_setChain (hnd : is.Nodup) (hm : major ∈ is) (m : ModID) :
    namedIn m (setChain st major c) is + named m (st.apush major) = namedIn m st is + named m c := by
  induction is with
  | nil => cases hm
  | cons i is ih =>
    obtain ⟨hi,hnd1⟩ := List.nodup_cons.mp hnd
    have hcons : ∀ t : State, namedIn m t (i :: is) = named m (t.apush i) + namedIn m t is := by
      intro t
      simp [namedIn]
    rw [hcons,hcons]
    by_cases he : i = major
    · subst he
      have hrest : namedIn m (setChain st i c) is = namedIn m st is := by
        apply namedIn_congr
        intro j hj
        apply setChain_ne
        rintro rfl
        exact hi hj
      rw [hrest,setChain_self]
      omega
    · have hmem : major ∈ is := by
        rcases List.mem_cons.mp hm with h | h
        · exact absurd h.symm he
        · exact h
      have := ih hnd1 hmem
      rw [setChain_ne he]
      omega

theorem Counted.chain (h : Counted st) (hm : major < maxStrdev) (m : ModID) :
    namedIn m (setChain st major c) (List.range maxStrdev) + named m (st.apush major) = st.apushNref m + named m c := by
  rw [h.nref]
  exact namedIn_setChain List.nodup_range (List.mem_range.mpr hm) m

/- The counts follow the change of a chain. -/
theorem Counted.setChain (h : Counted st) (hm : major < maxStrdev) {nref : ModID → ℕ}
    (hn : ∀ m, nref m + named m (st.apush major) = st.apushNref m + named m c) :
    Counted { setChain st major c with apushNref := nref } := by
  constructor
  · intro m
    have h1 := h.chain hm (c := c) m
    have h2 := hn m
    show nref m = namedIn m (Apush.setChain st major c) (List.range maxStrdev)
    omega
  · intro j hj
    have hne : j ≠ major := by omega
    show (Apush.setChain st major c).apush j = []
    rw [setChain_ne hne]
    exact h.empty j hj

theorem insertOne_perm (h : insertOne a c = some d) : d.Perm (a :: c) := by
  induction c generalizing d with
  | nil =>
    rw [← Option.some.inj h]
  | cons x c ih =>
    have hrec : ∀ e, (insertOne a c).map (x :: ·) = some e → e.Perm (a :: x :: c) := by
      intro e he
      obtain ⟨f,hf,rfl⟩ := Option.map_eq_some_iff.mp he
      exact ((ih hf).cons x).trans (List.Perm.swap ..)
    unfold insertOne at h
    split_ifs at h
    · rw [← Option.some.inj h]
    · exact hrec d h
    · exact hrec d h

theorem insertRange_perm (h : insertRange a c = some d) : d.Perm (a :: c) := by
  induction c generalizing d with
  | nil =>
    rw [← Option.some.inj h]
  | cons x c ih =>
    have hrec : ∀ e, (insertRange a c).map (x :: ·) = some e → e.Perm (a :: x :: c) := by
      intro e he
      obtain ⟨f,hf,rfl⟩ := Option.map_eq_some_iff.mp he
      exact ((ih hf).cons x).trans (List.Perm.swap ..)
    unfold insertRange at h
    split_ifs at h
    · rw [← Option.some.inj h]
    · exact hrec d h
    · exact hrec d h

theorem clearEntry_perm {p : Autopush × Chain} (h : clearEntry m c = some p) : c.Perm (p.1 :: p.2) := by
  induction c generalizing p with
  | nil => cases h
  | cons x c ih =>
    unfold clearEntry at h
    split_ifs at h
    · rw [← Option.some.inj h]
    · obtain ⟨q,hq,rfl⟩ := Option.map_eq_some_iff.mp h
      exact ((ih hq).cons x).trans (List.Perm.swap ..)

theorem Counted.insertEntry (h : Counted st) (hm : major < maxStrdev) {o : Option Chain}
    (ho : ∀ d, o = some d → d.Perm (a :: st.apush major)) : Counted (insertEntry st major a o).2 := by
  cases o with
  | none => exact h
  | some d =>
    apply h.setChain hm
    intro m
    rw [countRefs_apply,named_perm (ho d rfl),named_cons]
    omega

theorem Counted.remove (h : Counted st) (hm : major < maxStrdev) (hp : (st.apush major).Perm (e :: c)) :
    Counted { Apush.setChain st major c with apushNref := apushFree e st.apushNref } := by
  apply h.setChain hm
  intro m
  have h1 := h.chain hm (c := []) m
  have h2 : named m [] = 0 := by simp [named]
  rw [apushFree_apply,named_perm hp,named_cons]
  rw [named_perm hp,named_cons,h2] at h1
  omega

theorem Counted.apushConf (h : Counted st) (env : Env) (major : ℕ) (a : Autopush) :
    Counted (apushConf env major a st).2 := by
  unfold Apush.apushConf
  by_cases hm : major ≥ maxStrdev
  · rw [if_pos hm]
    exact h
  rw [if_neg hm]
  have hlt : major < maxStrdev := by omega
  split_ifs
  · exact h
  · split
    · exact h
    next ar rest hc =>
      split_ifs
      · apply h.remove hlt
        rw [hc]
      · split
        · exact h
        next p hp =>
          apply h.remove hlt
          rw [hc]
          exact clearEntry_perm hp
  · exact h
  · apply h.insertEntry hlt
    intro d hd
    exact insertOne_perm hd
  · exact h
  · exact h
  · apply h.insertEntry hlt
    intro d hd
    exact insertRange_perm hd
  next hemp =>
    apply h.insertEntry hlt
    intro d hd
    rw [← Option.some.inj hd,List.isEmpty_iff.mp hemp]
  · exact h
  · exact h

theorem Counted.lisApushSet (h : Counted st) (env : Env) (ap : Strapush) : Counted (lisApushSet env ap st).2 := by
  unfold Apush.lisApushSet
  split_ifs
  · exact h
  · exact h
  · exact h
  · split
    · exact h
    · split_ifs
      · exact h.apushConf env _ _
      · exact h

theorem Counted.apushFreeMajor (h : Counted st) (hm : major < maxStrdev) : Counted (apushFreeMajor major st) := by
  apply h.setChain hm
  intro m
  have h1 := h.chain hm (c := []) m
  rw [freeChain_apply]
  have h2 : named m [] = 0 := by simp [named]
  omega

theorem Counted.apushFreeAll (h : Counted st) : Counted (apushFreeAll st) := by
  have hall : ∀ is : List ℕ, (∀ i ∈ is, i < maxStrdev) → ∀ t, Counted t →
      Counted (is.foldl (fun t i => Apush.apushFreeMajor i t) t) := by
    intro is his
    induction is with
    | nil => exact fun t ht => ht
    | cons i is ih =>
      intro t ht
      obtain ⟨hi,hrest⟩ := List.forall_mem_cons.mp his
      exact ih hrest _ (ht.apushFreeMajor hi)
  apply hall _ _ st h
  intro i hi
  exact List.mem_range.mp hi

/-! ## The module is gone -/

theorem Counted.nref_zero_iff (h : Counted st) : st.apushNref m = 0 ↔ ∀ major, ∀ e ∈ st.apush major, m ∉ e.push := by
  rw [h.nref,namedIn_zero_iff]
  constructor
  · intro hall major e he
    by_cases hm : major < maxStrdev
    · exact hall major (List.mem_range.mpr hm) e he
    · rw [h.empty major (by omega)] at he
      cases he
  · intro hall i _
    exact hall i

theorem Counted.apushDropMod_eq (h : Counted st) (mod : ModID) :
    apushDropMod mod st = ⟨fun major => without mod (st.apush major),Function.update st.apushNref mod 0⟩ := by
  unfold apushDropMod
  split_ifs with h0
  · have hid : (fun major => without mod (st.apush major)) = st.apush := by
      funext major
      exact without_of_not_named (named_zero_iff.mpr (h.nref_zero_iff.mp h0 major))
    rw [hid,← h0,Function.update_eq_self]
  · rw [dropMajors_eq List.nodup_range (by omega) (h.nref mod).ge,h.nref mod,Nat.sub_self]
    have hall : (fun i => if i ∈ List.range maxStrdev then without mod (st.apush i) else st.apush i) =
        fun i => without mod (st.apush i) := by
      funext major
      by_cases hm : major < maxStrdev
      · rw [if_pos (List.mem_range.mpr hm)]
      · rw [if_neg fun hc => hm (List.mem_range.mp hc),h.empty major (by omega)]
        rfl
    rw [hall]

theorem count_filter_ne (h : m ≠ mod) : (ms.filter fun x => x ≠ mod).count m = ms.count m :=
  List.count_filter (by simpa using h)

theorem named_without (h : m ≠ mod) : named m (without mod c) = named m c := by
  induction c with
  | nil => rfl
  | cons a c ih =>
    have hc : without mod (a :: c) = { a with push := a.push.filter fun m => m ≠ mod } :: without mod c := rfl
    rw [hc,named_cons,named_cons,ih,count_filter_ne h]

theorem not_mem_without : ∀ e ∈ without mod c, mod ∉ e.push := by
  intro e he
  obtain ⟨a,-,rfl⟩ := List.mem_map.mp he
  simp

theorem Counted.apushDropMod (h : Counted st) (mod : ModID) : Counted (apushDropMod mod st) := by
  rw [h.apushDropMod_eq]
  constructor
  · intro m
    by_cases hm : m = mod
    · subst hm
      show Function.update st.apushNref m 0 m = _
      rw [Function.update_self]
      exact (namedIn_zero_iff.mpr fun i _ => not_mem_without).symm
    · show Function.update st.apushNref mod 0 m = _
      rw [Function.update_of_ne hm,h.nref]
      unfold namedIn
      simp only [named_without hm]
  · intro major hm
    show without mod (st.apush major) = []
    rw [h.empty major hm]
    rfl

theorem Counted.change (h : Counted st) {x : Change} (hs : change st x = some t) : Counted t := by
  cases x with
  | set env ap =>
    cases hs
    exact h.lisApushSet env ap
  | conf env major a =>
    cases hs
    exact h.apushConf env major a
  | freeMajor major =>
    simp only [Apush.change] at hs
    split_ifs at hs with hm
    cases hs
    exact h.apushFreeMajor hm
  | freeAll =>
    rw [← Option.some.inj hs]
    exact h.apushFreeAll
  | dropMod mod =>
    rw [← Option.some.inj hs]
    exact h.apushDropMod mod

/- In every configuration the count of a module is 0 exactly when no list names it, and `apush_drop_mod` takes the module
out of all lists and changes nothing else. -/
theorem dropMod_exact (xs : List Change) (h : exec change .initial xs = some st) (mod : ModID) :
    (∀ m, st.apushNref m = 0 ↔ ∀ major, ∀ e ∈ st.apush major, m ∉ e.push) ∧
    (∀ major, ∀ e ∈ (apushDropMod mod st).apush major, mod ∉ e.push) ∧
    (∀ major, (apushDropMod mod st).apush major =
      (st.apush major).map fun e => { e with push := e.push.filter fun m => m ≠ mod }) ∧
    ∀ m, m ≠ mod → (apushDropMod mod st).apushNref m = st.apushNref m := by
  have hstart : Counted .initial := by
    constructor
    · intro m
      symm
      apply namedIn_zero_iff.mpr
      simp [State.initial]
    · intro major _
      rfl
  have hc : Counted st := exec_invariant (fun _ _ _ hI hs => hI.change hs) hstart h
  rw [hc.apushDropMod_eq mod]
  refine ⟨fun m => hc.nref_zero_iff,fun major => not_mem_without,fun major => rfl,fun m hm => ?_⟩
  exact Function.update_of_ne hm ..

/- Two majors, one list that names a module twice. -/
def relays : List Change :=
  [.conf ⟨fun j => j < 7,fun _ => false,fun _ => true,fun _ => "relay",fun _ => 1,true⟩ 5 ⟨sapAll,0,0,[1,2,1]⟩,
   .conf ⟨fun j => j < 7,fun _ => false,fun _ => true,fun _ => "relay",fun _ => 1,true⟩ 6 ⟨sapOne,4,4,[2,1]⟩]

theorem dropMod_exact_relays : ∃ st, exec change .initial relays = some st ∧
    (apushDropMod 1 st).apush 5 = [⟨sapAll,0,0,[2]⟩] ∧ ∀ major, ∀ e ∈ (apushDropMod 1 st).apush major, 1 ∉ e.push := by
  obtain ⟨st,hst,hc⟩ := (Option.any_eq_true _ _).mp (show (exec change .initial relays).any
      (fun st => decide (st.apush 5 = [⟨sapAll,0,0,[1,2,1]⟩])) = true by decide +kernel)
  obtain ⟨-,hgone,hmap,-⟩ := dropMod_exact relays hst 1
  refine ⟨st,hst,?_,hgone⟩
  rw [hmap 5,of_decide_eq_true hc]
  decide

end CSLiS.Apush
