import CSLiS.Apush.User
import CSLiS.Mod.Held

/-!
# When set and get do what they are asked for (head/mod.c:1294-1385)

A call of `lis_apush_set` looks at `lis_fstr_sw` before anything has bounded the major, and reads a name up to a NUL
wherever that is. `lis_apush_get` copies LIS_NAMESZ+1 bytes to each row of FMNAMESZ+1, does not write `sap_minor`, and
takes it to be the first minor of the entry.
-/

namespace CSLiS.Apush.User
open Queue Lib.Exec CSLiS.Mod

/-! ## What is right, and when -/

/- The slots of the entries that are owed, with their names. -/
def held (owed : List Owed) : List (ModID × Name) := owed.flatMap fun o => o.entry.push.zip o.names

/- A structure with the entry that `lis_apush_set` was called with. -/
structure Returned (o : Owed) (r : ℤ × Strapush × Bool) : Prop where
  ret : r.1 = 0
  cmd : r.2.1.sapCmd = o.entry.cmd
  minor : r.2.1.sapMinor = o.entry.minor
  lastminor : r.2.1.sapLastminor = o.entry.lastminor
  npush : r.2.1.sapNpush = o.names.length
  names : (List.range o.names.length).map (rowName r.2.1.sapList) = o.names

/-- No index is out of range, no name is read beyond its array and no assertion fails, and a get of an entry that
`lis_apush_set` made returns it. -/
def Right (s : Sys) : Act → Prop
  | .set u alloc loads => ∀ r, s.lisApushSet u alloc loads = some r → r.ok = true
  | .get u => (s.lisApushGet u).2.2 = true ∧
      ∀ o ∈ s.owed, o.major = u.sapMajor → u.sapMinor ∈ minors o.entry → Returned o (s.lisApushGet u)
  | _ => True

/- A load that fails is none of a slot in `ids`. -/
def kind (ids : List ModID) (r : Registry) : Mod.Act → Bool
  | .loadDone k ok =>
      match r.loads[k]? with
      | none => true
      | some id => (ok && (r.sw id).fStr.isSome) || !ids.contains id
  | _ => true

/- A name that ends in its row, and is not looked for in a full table. A load of it that fails is none of a slot in
`ids`, and no other load of its slot fails meanwhile. -/
def loadCareful (ids : List ModID) (r : Registry) (list : ℕ → Uchar) (i : ℕ) (l : Load) : Bool :=
  within r list i l.intr && ((cName list i).isEmpty || decide (r.lisFmodcnt < MAX_STRMOD)) &&
    match Registry.lisLoadmod { r with used := [] } (cName list i) l.intr l.intrSem with
    | none => true
    | some q =>
        match q.2.loads[r.loads.length]? with
        | none => true
        | some id =>
            decide (Meets registryCall (fun t x => kind (id :: ids) t x = true) { q.2 with loads := r.loads } l.during) &&
              (exec registryCall { q.2 with loads := r.loads } l.during).all fun t =>
                (l.ok && (t.sw id).fStr.isSome) || !ids.contains id

/- All names as far as they are reached. None that is empty gets a module. -/
def loadsCareful (list : ℕ → Uchar) (loads : ℕ → Load) : ℕ → ℕ → List ModID → Registry → Bool
  | 0, _, _, _ => true
  | n+1, i, ids, r =>
      loadCareful ids r list i (loads i) &&
        (loadName r list i (loads i)).all fun q =>
          decide (q.1 ≤ 0) || (!(cName list i).isEmpty && loadsCareful list loads n (i + 1) (q.1.toNat :: ids) q.2.1)

/- No range of the major ends at the minor or below it. An entry for all minors starts at the minor, and so does one
that is owed and has the minor. The entry that starts there names no more than one module, which is there. -/
structure GetCareful (s : Sys) (u : Strapush) : Prop where
  ranges : ∀ e ∈ s.tabs.apush u.sapMajor, e.cmd = sapRange → u.sapMinor < e.lastminor
  all : ∀ e ∈ s.tabs.apush u.sapMajor, e.cmd = sapAll → e.minor = u.sapMinor
  owed : ∀ o ∈ s.owed, o.major = u.sapMajor → u.sapMinor ∈ minors o.entry → o.entry.minor = u.sapMinor
  names : ∀ e ∈ s.tabs.apush u.sapMajor, e.minor = u.sapMinor → e.push.length ≤ 1 ∧
    ∀ id ∈ e.push, (s.reg.sw id).fStr.isSome = true

def Careful (s : Sys) : Act → Prop
  | .set u alloc loads => u.sapMajor < maxStrdev ∧ (s.present u.sapMajor = true → u.sapNpush ≤ maxApush →
      alloc = true → loadsCareful u.sapList loads u.sapNpush 0 ((held s.owed).map Prod.fst) s.reg = true)
  | .get u => u.sapMajor < maxStrdev → s.present u.sapMajor = true → GetCareful s u
  | .initEntry _ _ _ _ mods => ∀ id ∈ findMods s.reg mods, id < MAX_STRMOD
  | .modules x => kind ((held s.owed).map Prod.fst) s.reg x = true
  | _ => True

instance decidableMinors (m : ℕ) (e : Autopush) : Decidable (m ∈ minors e) :=
  decidable_of_iff (if e.cmd = sapAll then True else if e.cmd = sapRange then e.minor ≤ m ∧ m ≤ e.lastminor else m = e.minor)
    (by unfold minors; split_ifs <;> simp)

instance (s : Sys) (u : Strapush) : Decidable (GetCareful s u) :=
  decidable_of_iff ((∀ e ∈ s.tabs.apush u.sapMajor, e.cmd = sapRange → u.sapMinor < e.lastminor) ∧
      (∀ e ∈ s.tabs.apush u.sapMajor, e.cmd = sapAll → e.minor = u.sapMinor) ∧
      (∀ o ∈ s.owed, o.major = u.sapMajor → u.sapMinor ∈ minors o.entry → o.entry.minor = u.sapMinor) ∧
      ∀ e ∈ s.tabs.apush u.sapMajor, e.minor = u.sapMinor → e.push.length ≤ 1 ∧
        ∀ id ∈ e.push, (s.reg.sw id).fStr.isSome = true)
    ⟨fun h => ⟨h.1,h.2.1,h.2.2.1,h.2.2.2⟩,fun h => ⟨h.ranges,h.all,h.owed,h.names⟩⟩

instance (s : Sys) : ∀ x, Decidable (Careful s x)
  | .set u alloc loads => inferInstanceAs (Decidable (u.sapMajor < maxStrdev ∧ (s.present u.sapMajor = true →
      u.sapNpush ≤ maxApush → alloc = true →
      loadsCareful u.sapList loads u.sapNpush 0 ((held s.owed).map Prod.fst) s.reg = true)))
  | .get u => inferInstanceAs (Decidable (u.sapMajor < maxStrdev → s.present u.sapMajor = true → GetCareful s u))
  | .initEntry _ _ _ _ mods => inferInstanceAs (Decidable (∀ id ∈ findMods s.reg mods, id < MAX_STRMOD))
  | .modules x => inferInstanceAs (Decidable (kind ((held s.owed).map Prod.fst) s.reg x = true))
  | .registerStrdev _ => inferInstanceAs (Decidable True)
  | .unregisterStrdev _ => inferInstanceAs (Decidable True)
  | .freeAll => inferInstanceAs (Decidable True)
  | .unregisterModule _ _ => inferInstanceAs (Decidable True)

variable {s t : Sys} {u : Strapush} {list : ℕ → Uchar} {loads : ℕ → Load} {l : Load} {r : Registry} {n : Name}
  {i m major : ℕ} {a e : Autopush} {c : Chain} {st : State} {ids : List ModID} {nref : ModID → ℕ}

/-! ## Strings -/

theorem cName_row (list : ℕ → Uchar) (i : ℕ) : cName list i = ((row list i) ++ ((List.range' (FMNAMESZ + 1)
    (LIS_NAMESZ - FMNAMESZ)).map fun j => list ((FMNAMESZ + 1) * i + j))).takeWhile (· ≠ 0) := by
  have hsplit : List.range (LIS_NAMESZ + 1) =
      List.range (FMNAMESZ + 1) ++ List.range' (FMNAMESZ + 1) (LIS_NAMESZ - FMNAMESZ) := by decide
  rw [cName,hsplit,List.map_append]
  rfl

/- A row with a NUL ends there. -/
theorem row_ends (h : (row list i).contains 0 = true) : cName list i = rowName list i ∧ (cName list i).length ≤ FMNAMESZ := by
  have hlen : (row list i).length = FMNAMESZ + 1 := by simp [row]
  have hshort : (rowName list i).length ≠ (row list i).length := by
    intro hc
    have hall := List.takeWhile_eq_self_iff.mp ((List.takeWhile_sublist _).eq_of_length hc)
    simpa using hall 0 (List.contains_iff_mem.mp h)
  have hle : (rowName list i).length ≤ (row list i).length := (List.takeWhile_sublist _).length_le
  have heq : cName list i = rowName list i := by
    rw [cName_row,List.takeWhile_append]
    exact if_neg hshort
  refine ⟨heq,?_⟩
  rw [heq]
  omega

theorem cName_nonzero (list : ℕ → Uchar) (i : ℕ) : (0 : Uchar) ∉ cName list i := by
  intro hc
  simpa using List.mem_takeWhile_imp hc

/- What is copied to the first row is read there. -/
theorem rowName_strncpy (hlen : n.length ≤ FMNAMESZ) (hn : (0 : Uchar) ∉ n) : rowName (strncpy list 0 n) 0 = n := by
  have hrow : row (strncpy list 0 n) 0 = n ++ List.replicate (FMNAMESZ + 1 - n.length) 0 := by
    apply List.ext_getElem
    · simp [row]
      omega
    · intro j h1 h2
      have hj : j < FMNAMESZ + 1 := by simpa [row] using h1
      have hin : j < LIS_NAMESZ + 1 := hj.trans (by decide)
      simp only [row,strncpy,List.getElem_map,List.getElem_range,Nat.mul_zero,Nat.zero_add,Nat.zero_le,true_and,hin,if_true,
        Nat.sub_zero,List.getElem_append,List.getElem_replicate]
      split_ifs with hjn
      · exact List.getD_eq_getElem _ _ hjn
      · exact List.getD_eq_default _ _ (Nat.not_lt.mp hjn)
  have hself : n.takeWhile (· ≠ 0) = n := by
    apply List.takeWhile_eq_self_iff.mpr
    intro x hx
    simp only [ne_eq,decide_not,Bool.not_eq_eq_eq_not,Bool.not_true,decide_eq_false_iff_not]
    rintro rfl
    exact hn hx
  rw [rowName,hrow,List.takeWhile_append,if_pos (by rw [hself]),List.takeWhile_replicate]
  simp

/-! ## Assertions -/

theorem one_holds (hok : ChainOk c) (hna : ∀ e ∈ c, e.cmd ≠ sapAll) : oneHolds a c = true := by
  induction c with
  | nil => rfl
  | cons ar c ih =>
    have hrec := ih hok.tail fun e he => hna e (List.mem_cons_of_mem _ he)
    rw [oneHolds,hrec]
    split_ifs with hgt hone
    · rfl
    · exact Bool.or_true _
    · rcases hok.wellFormed ar (List.mem_cons_self ..) with h1 | ⟨h2,-⟩ | h3
      · exact absurd h1 hone
      · simp [h2]
        omega
      · exact absurd h3 (hna ar (List.mem_cons_self ..))

theorem range_holds (hok : ChainOk c) (hna : ∀ e ∈ c, e.cmd ≠ sapAll) (ha : a.minor < a.lastminor) :
    rangeHolds a c = true := by
  induction c with
  | nil => rfl
  | cons ar c ih =>
    have hrec := ih hok.tail fun e he => hna e (List.mem_cons_of_mem _ he)
    rw [rangeHolds,hrec]
    split_ifs with hgt hge hone
    · rfl
    · simp
      omega
    · rcases hok.wellFormed ar (List.mem_cons_self ..) with h1 | ⟨h2,-⟩ | h3
      · exact absurd h1 hone
      · simp [h2]
        omega
      · exact absurd h3 (hna ar (List.mem_cons_self ..))
    · rfl

theorem find_holds (hw : ∀ e ∈ c, WellFormed e) (hall : ∀ e ∈ c, e.cmd = sapAll → e.minor ≤ m) : findHolds m c = true := by
  induction c with
  | nil => rfl
  | cons a c ih =>
    have hrec := ih (fun e he => hw e (List.mem_cons_of_mem _ he)) fun e he => hall e (List.mem_cons_of_mem _ he)
    have hcmd : (a.cmd == sapAll || a.cmd == sapOne || a.cmd == sapRange) = true := by
      rcases hw a (List.mem_cons_self ..) with h1 | ⟨h2,-⟩ | h3
      · simp [h1]
      · simp [h2]
      · simp [h3]
    rw [findHolds,hcmd,hrec,Bool.true_and]
    split_ifs with h1
    · simpa using hall a (List.mem_cons_self ..) h1
    all_goals rfl

theorem refs_hold (hid : ∀ m ∈ ids, 0 < m ∧ m < MAX_STRMOD) (hn : ∀ m, ids.count m ≤ nref m) : refsHold ids nref = true := by
  induction ids generalizing nref with
  | nil => rfl
  | cons m ids ih =>
    have hm := hid m (List.mem_cons_self ..)
    have hcount := hn m
    rw [List.count_cons_self] at hcount
    have hrec : refsHold ids (Function.update nref m (nref m - 1)) = true := by
      apply ih fun x hx => hid x (List.mem_cons_of_mem _ hx)
      intro x
      by_cases hx : x = m
      · subst hx
        rw [Function.update_self]
        omega
      · have hle := hn x
        rw [List.count_cons_of_ne (Ne.symm hx)] at hle
        rw [Function.update_of_ne hx]
        exact hle
    rw [refsHold,hrec]
    simp [hm]
    omega

/- An entry of the table is freed. -/
theorem free_holds (hc : Counted st) (hm : major < maxStrdev) (he : e ∈ st.apush major) (hlen : e.push.length ≤ maxApush)
    (hid : ∀ m ∈ e.push, 0 < m ∧ m < MAX_STRMOD) : freeHolds e st.apushNref = true := by
  rw [freeHolds,refs_hold hid,Bool.and_true,decide_eq_true hlen]
  intro m
  have hall := hc.chain hm (c := []) m
  have hnil : named m [] = 0 := by simp [named]
  have hle : e.push.count m ≤ named m (st.apush major) :=
    List.single_le_sum (by simp) _ (List.mem_map_of_mem (f := fun a : Autopush => a.push.count m) he)
  omega

/-! ## Get -/

theorem find_starts (hr : ∀ e ∈ c, e.cmd = sapRange → m < e.lastminor) (hall : ∀ e ∈ c, e.cmd = sapAll → e.minor = m)
    (h : findApushEntry m c = some a) : a ∈ c ∧ a.minor = m := by
  induction c with
  | nil => cases h
  | cons x c ih =>
    unfold findApushEntry at h
    split_ifs at h with h1 h2 h3 h4
    · obtain rfl := Option.some.inj h
      exact ⟨List.mem_cons_self ..,hall _ (List.mem_cons_self ..) h1⟩
    · obtain rfl := Option.some.inj h
      exact ⟨List.mem_cons_self ..,h3⟩
    · have := hr x (List.mem_cons_self ..) h4.1
      omega
    · obtain ⟨hin,hmin⟩ := ih (fun e he => hr e (List.mem_cons_of_mem _ he))
        (fun e he => hall e (List.mem_cons_of_mem _ he)) h
      exact ⟨List.mem_cons_of_mem _ hin,hmin⟩

theorem find_start (hok : ChainOk c) (hr : ∀ e ∈ c, e.cmd = sapRange → m < e.lastminor) (he : e ∈ c) (hm : e.minor = m) :
    findApushEntry m c = some e := by
  induction c with
  | nil => cases he
  | cons x c ih =>
    rw [findApushEntry]
    rcases List.mem_cons.mp he with rfl | hin
    · split_ifs
      · rfl
      · omega
      · rfl
    · have hb := hok.below e hin
      have hle := minor_le_lastMinor (hok.wellFormed x (List.mem_cons_self ..))
      have hlt : x.minor < m := by
        have := hb.2.2
        omega
      have hrange : ¬ (x.cmd = sapRange ∧ x.lastminor ≤ m) := fun hc => by
        have := hr x (List.mem_cons_self ..) hc.1
        omega
      rw [if_neg hb.1,if_neg (by omega),if_neg (by omega),if_neg hrange]
      exact ih hok.tail (fun e he => hr e (List.mem_cons_of_mem _ he)) hin

/- What holds of the autopush lists. Only drivers that are there have any. -/
structure TabsOk (present : ℕ → Bool) (st : State) : Prop where
  chain : StateOk st
  counted : Counted st
  ids : ∀ major, ∀ e ∈ st.apush major, e.push.length ≤ maxApush ∧ ∀ id ∈ e.push, 0 < id ∧ id < MAX_STRMOD
  present : ∀ major, st.apush major ≠ [] → present major = true

structure Inv (s : Sys) : Prop where
  tabs : TabsOk s.present s.tabs
  reg : s.reg.view.Holds (held s.owed)
  owed : ∀ o ∈ s.owed, o.entry ∈ s.tabs.apush o.major ∧ o.entry.push.length = o.names.length
  names : ∀ o ∈ s.owed, ∀ n ∈ o.names, n ≠ [] ∧ n.length ≤ FMNAMESZ ∧ (0 : Uchar) ∉ n

/- A major with entries is one of the table. -/
theorem Inv.lt (hi : Inv s) (he : e ∈ s.tabs.apush major) : major < maxStrdev := by
  by_contra hc
  rw [hi.tabs.counted.empty major (Nat.not_lt.mp hc)] at he
  cases he

theorem lisApushGet_found (hlt : u.sapMajor < maxStrdev) (hp : s.present u.sapMajor = true)
    (hf : findApushEntry u.sapMinor (s.tabs.apush u.sapMajor) = some a) : s.lisApushGet u =
      (0,{ u with sapCmd := a.cmd, sapLastminor := a.lastminor, sapNpush := a.push.length,
                  sapList := (copyNames s.reg 0 a.push u.sapList).1 },
        findHolds u.sapMinor (s.tabs.apush u.sapMajor) && u.sapMinor == a.minor &&
          (copyNames s.reg 0 a.push u.sapList).2) := by
  rw [Sys.lisApushGet,if_neg (Nat.not_le.mpr hlt),hp]
  simp only [Bool.not_true,Bool.false_eq_true,if_false,hf]

/- No module, or one that is there. -/
theorem copy_holds (hlen : ids.length ≤ 1) (hid : ∀ id ∈ ids, 0 < id ∧ id < MAX_STRMOD)
    (hstr : ∀ id ∈ ids, (r.sw id).fStr.isSome = true) : (copyNames r 0 ids list).2 = true := by
  rcases ids with _ | ⟨id,_ | ⟨_,_⟩⟩
  · rfl
  · have h1 := hid id (List.mem_singleton_self id)
    have h2 := hstr id (List.mem_singleton_self id)
    simp [copyNames,h1,h2,FMNAMESZ,LIS_NAMESZ,maxApush]
  · simp at hlen

theorem Inv.get_holds (hi : Inv s) (hg : u.sapMajor < maxStrdev → s.present u.sapMajor = true → GetCareful s u) :
    (s.lisApushGet u).2.2 = true := by
  by_cases hlt : u.sapMajor < maxStrdev
  · cases hp : s.present u.sapMajor with
    | false =>
      rw [Sys.lisApushGet,if_neg (Nat.not_le.mpr hlt),hp]
      rfl
    | true =>
      have hg := hg hlt hp
      have hok := hi.tabs.chain u.sapMajor
      have hfind : findHolds u.sapMinor (s.tabs.apush u.sapMajor) = true := by
        apply find_holds hok.wellFormed
        intro e he ha
        exact (hg.all e he ha).le
      cases hf : findApushEntry u.sapMinor (s.tabs.apush u.sapMajor) with
      | none =>
        rw [Sys.lisApushGet,if_neg (Nat.not_le.mpr hlt),hp]
        simp only [Bool.not_true,Bool.false_eq_true,if_false,hf,hfind]
      | some a =>
        obtain ⟨hin,hmin⟩ := find_starts hg.ranges hg.all hf
        obtain ⟨hlen,hstr⟩ := hg.names a hin hmin
        rw [lisApushGet_found hlt hp hf,hfind,copy_holds hlen (hi.tabs.ids _ a hin).2 hstr,hmin]
        simp
  · rw [Sys.lisApushGet,if_pos (Nat.not_lt.mp hlt)]

/- The slots of an entry that is owed. -/
theorem Inv.slots (hi : Inv s) {o : Owed} (ho : o ∈ s.owed) : o.entry.push.map (fun id => (s.reg.sw id).fName) = o.names := by
  have hzip : ∀ p ∈ o.entry.push.zip o.names, (s.reg.sw p.1).fName = p.2 := by
    intro p hp
    exact (hi.reg.held p (List.mem_flatMap.mpr ⟨o,ho,hp⟩)).2.2
  have hlen := (hi.owed o ho).2
  calc
    o.entry.push.map (fun id => (s.reg.sw id).fName)
      = (o.entry.push.zip o.names).map (fun p => (s.reg.sw p.1).fName) := by
        conv_lhs => rw [← List.map_fst_zip hlen.le,List.map_map]
        rfl
    _ = (o.entry.push.zip o.names).map Prod.snd := List.map_congr_left hzip
    _ = o.names := List.map_snd_zip hlen.ge

theorem Inv.get_returns (hi : Inv s) {o : Owed} (ho : o ∈ s.owed) (hmaj : o.major = u.sapMajor)
    (hm : u.sapMinor ∈ minors o.entry)
    (hg : u.sapMajor < maxStrdev → s.present u.sapMajor = true → GetCareful s u) : Returned o (s.lisApushGet u) := by
  have hin := (hi.owed o ho).1
  rw [hmaj] at hin
  have hlt := hi.lt hin
  have hp := hi.tabs.present _ (List.ne_nil_of_mem hin)
  have hg := hg hlt hp
  have hmin := hg.owed o ho hmaj hm
  have hfind := find_start (hi.tabs.chain u.sapMajor) hg.ranges hin hmin
  rw [lisApushGet_found hlt hp hfind]
  refine ⟨rfl,rfl,hmin.symm,rfl,(hi.owed o ho).2,?_⟩
  have hslots := hi.slots ho
  have hlen := (hg.names _ hin hmin).1
  have hnames := hi.names o ho
  rw [← hslots] at hnames ⊢
  dsimp only
  generalize o.entry.push = ids at hlen hnames ⊢
  rcases ids with _ | ⟨id,_ | ⟨_,_⟩⟩
  · rfl
  · obtain ⟨-,h1,h2⟩ := hnames _ (List.mem_singleton_self _)
    exact congrArg (fun n => [n]) (rowName_strncpy h1 h2)
  · simp at hlen

/- A range that ends at the minor or below it is found for it, or another such one. -/
theorem find_range (hok : ChainOk c) (he : e ∈ c) (hr : e.cmd = sapRange) (hm : e.lastminor ≤ m) :
    ∃ x, findApushEntry m c = some x ∧ x.minor ≠ m := by
  have hlt : e.minor < e.lastminor := by
    rcases hok.wellFormed e he with h1 | ⟨-,h2⟩ | h3
    · rw [h1] at hr
      cases hr
    · exact h2
    · rw [h3] at hr
      cases hr
  induction c with
  | nil => cases he
  | cons a c ih =>
    have hna : a.cmd ≠ sapAll := by
      intro ha
      rw [hok.all_alone (List.mem_cons_self ..) ha,List.mem_singleton] at he
      rw [he,ha] at hr
      cases hr
    have hbelow : e = a ∨ (e ∈ c ∧ a.minor < e.minor) := by
      rcases List.mem_cons.mp he with rfl | hin
      · exact .inl rfl
      · have hb := (hok.below e hin).2.2
        have hle := minor_le_lastMinor (hok.wellFormed a (List.mem_cons_self ..))
        exact .inr ⟨hin,by omega⟩
    have hlow : a.minor < m := by rcases hbelow with rfl | ⟨-,h⟩ <;> omega
    rw [findApushEntry,if_neg hna,if_neg (by omega),if_neg (by omega)]
    split_ifs with hstop
    · exact ⟨a,rfl,hlow.ne⟩
    · rcases hbelow with rfl | ⟨hin,-⟩
      · exact absurd ⟨hr,hm⟩ hstop
      · exact ih hok.tail hin

theorem copy_names (h : (copyNames r 0 ids list).2 = true) : ids.length ≤ 1 ∧ ∀ id ∈ ids, (r.sw id).fStr.isSome = true := by
  rcases ids with _ | ⟨id,_ | ⟨_,_⟩⟩
  · simp
  · simp only [copyNames,Bool.and_true,Bool.and_eq_true] at h
    refine ⟨le_rfl,?_⟩
    intro x hx
    rw [List.mem_singleton.mp hx]
    exact h.1.2
  · simp [copyNames,FMNAMESZ,LIS_NAMESZ,maxApush] at h

theorem get_minor (s : Sys) (u : Strapush) : (s.lisApushGet u).2.1.sapMinor = u.sapMinor := by
  rw [Sys.lisApushGet]
  split_ifs
  · rfl
  · rfl
  · dsimp only
    split <;> rfl

theorem Inv.get_careful (hi : Inv s) (hlt : u.sapMajor < maxStrdev) (hp : s.present u.sapMajor = true)
    (hok : (s.lisApushGet u).2.2 = true)
    (hret : ∀ o ∈ s.owed, o.major = u.sapMajor → u.sapMinor ∈ minors o.entry → Returned o (s.lisApushGet u)) :
    GetCareful s u := by
  have hch := hi.tabs.chain u.sapMajor
  have hfound : ∀ a, findApushEntry u.sapMinor (s.tabs.apush u.sapMajor) = some a →
      a.minor = u.sapMinor ∧ (copyNames s.reg 0 a.push u.sapList).2 = true := by
    intro a ha
    rw [lisApushGet_found hlt hp ha,Bool.and_eq_true,Bool.and_eq_true,beq_iff_eq] at hok
    exact ⟨hok.1.2.symm,hok.2⟩
  have hranges : ∀ e ∈ s.tabs.apush u.sapMajor, e.cmd = sapRange → u.sapMinor < e.lastminor := by
    intro e he hr
    by_contra hge
    obtain ⟨x,hx,hne⟩ := find_range hch he hr (Nat.not_lt.mp hge)
    exact hne (hfound x hx).1
  refine ⟨hranges,?_,?_,?_⟩
  · intro e he ha
    have halone := hch.all_alone he ha
    apply (hfound e _).1
    rw [halone,findApushEntry,if_pos ha]
  · intro o ho hmaj hm
    exact (hret o ho hmaj hm).minor.symm.trans (get_minor s u)
  · intro e he hmin
    exact copy_names (hfound e (find_start hch hranges he hmin)).2

end CSLiS.Apush.User
