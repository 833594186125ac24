import CSLiS.Mod.Registry

/-!
# The table of modules after `lis_init_mod` (head/mod.c)

`lis_module_config` is gone through once; `i` is the place of a line in it and `modid` the slot of the module. The
autopush lists, the drivers and the option of the queue locks are left out. Whoever initialises LiS has `lis_mod_reg`
for itself, so that no wait is interrupted.
-/

namespace CSLiS.Mod
open Queue Lib

/-- `module_config_t` (`mod.c:149-156`) -/
structure ModuleConfig where
  cnfName : Name
  cnfStr : Option ℕ
  cnfObjname : Name
  short : cnfName.length ≤ LIS_NAMESZ

namespace Registry

variable (s : Registry)

/-- `mod.c:756-770` -/
def lisRegisterModuleQlockOption (intr : Bool) : Option (ℤ × Registry) :=
  (s.downReg intr).map fun d => if !d.1 then (-EINTR,d.2) else (0,d.2.upReg)

/- What `lis_init_mod` does for the line `i` (`mod.c:1429-1459`). -/
def initEntry (i : ℕ) (e : ModuleConfig) : Option Registry :=
  if e.cnfName = [] then some s
  else (s.lisRegisterStrmod e.cnfStr (some e.cnfName) false false).bind fun r =>
    if r.1 = 0 then some r.2
    else (r.2.lisRegisterModuleQlockOption false).map fun q =>
      if q.1 < 0 then q.2 else q.2.initMod i r.1.toNat (decide (e.cnfObjname ≠ []))

def initLoop : ℕ → List ModuleConfig → Registry → Option Registry
  | _,[],s => some s
  | i,e :: tab,s => (s.initEntry i e).bind (initLoop (i + 1) tab)

/-- `mod.c:1411-1460` -/
def lisInitMod (tab : List ModuleConfig) (beyond : ℕ → Fmodsw) : Option Registry := initLoop 0 tab (init beyond)

end Registry

/-! ### What is wanted -/

def named (tab : List ModuleConfig) : List ModuleConfig := tab.filter fun e => e.cnfName ≠ []

/- A module has a slot of its own, under its own name, and its object is to be loaded if it has one. -/
def Placed (t : Registry) (e : ModuleConfig) : Prop :=
  ∃ id, 0 < id ∧ id < MAX_STRMOD ∧ (t.sw id).fName = e.cnfName ∧ (t.sw id).fStr = e.cnfStr ∧
    (∀ j, 0 < j → j < MAX_STRMOD → (t.sw j).fName = e.cnfName → j = id) ∧
    (t.sw id).fState = if e.cnfObjname = [] then LINKED else UNLOADED

/- The slot for the line `p`: one for each module before it. -/
def slot (tab : List ModuleConfig) (p : ℕ) : ℕ := (named (tab.take p)).length + 1

/- No streamtab is configured twice. -/
def Apart (tab : List ModuleConfig) : Prop := tab.Pairwise fun a b => b.cnfStr = none ∨ a.cnfStr ≠ b.cnfStr

/- The state of the module at line `p` is cleared with the line of its own, by the next line or not at all. -/
def Cleared (tab : List ModuleConfig) (p : ℕ) (e : ModuleConfig) : Prop :=
  slot tab p = p ∨
    if slot tab p = p + 1 ∧ tab[p + 1]?.any (fun f => f.cnfName ≠ []) then e.cnfObjname = [] else e.cnfStr = none

/-! ### One line -/

/- The slots from 1 on are those of the modules `l`, the others have no name. -/
structure Entered (s : Registry) (l : List ModuleConfig) : Prop where
  cnt : s.lisFmodcnt = l.length + 1
  name : ∀ k, k + 1 < MAX_STRMOD → (s.sw (k + 1)).fName = (l[k]?.map ModuleConfig.cnfName).getD []
  str : ∀ k e, l[k]? = some e → (s.sw (k + 1)).fStr = e.cnfStr
  named : ∀ e ∈ l, e.cnfName ≠ []

/- The state that a module is registered with. -/
def regState (e : ModuleConfig) : BitVec 8 := if e.cnfStr.isSome then LOADED else LINKED
def objState (e : ModuleConfig) : BitVec 8 := if e.cnfObjname = [] then LINKED else UNLOADED

/- Nothing but the states of the modules is different. -/
structure Like (s t : Registry) : Prop where
  cnt : t.lisFmodcnt = s.lisFmodcnt
  name : ∀ j, (t.sw j).fName = (s.sw j).fName
  str : ∀ j, (t.sw j).fStr = (s.sw j).fStr

section Line
variable {s t : Registry} {l : List ModuleConfig} {e : ModuleConfig} {i id j k : ℕ}

theorem Entered.like (h : Entered s l) (hl : Like s t) : Entered t l :=
  ⟨hl.cnt.trans h.cnt,fun k hk => (hl.name _).trans (h.name k hk),
    fun k e he => (hl.str _).trans (h.str k e he),h.named⟩

theorem like_initMod (s : Registry) (i id : ℕ) (b : Bool) : Like s (s.initMod i id b) := by
  refine ⟨rfl,fun j => ?_,fun j => ?_⟩ <;>
  · simp only [Registry.initMod,Registry.setSlot,Function.update_apply]
    split_ifs <;> simp_all

theorem initMod_state (s : Registry) (i id : ℕ) (b : Bool) (j : ℕ) :
    ((s.initMod i id b).sw j).fState =
      if j = id then (if id = i then 0 else (s.sw id).fState) ||| if b then UNLOADED else LINKED
      else if j = i then 0 else (s.sw j).fState := by
  simp only [Registry.initMod,Registry.setSlot,Function.update_apply]
  split_ifs <;> simp_all

/- The module that `lis_findmod_strtab` finds, or 0. -/
theorem findmodStrtab_spec (h : Entered s l) (hreg : s.lisModReg = 1) (str : Option ℕ) :
    ∃ id t, s.lisFindmodStrtab str false = some (((id : ℕ) : ℤ),t) ∧ t.sw = s.sw ∧ t.lisModReg = 1 ∧ Like s t ∧
      ((id = 0 ∧ (str = none ∨ ∀ e ∈ l, e.cnfStr ≠ str)) ∨
        (str ≠ none ∧ ∃ k e, id = k + 1 ∧ l[k]? = some e ∧ e.cnfStr = str)) := by
  cases str with
  | none => exact ⟨0,s,rfl,rfl,hreg,⟨rfl,fun _ => rfl,fun _ => rfl⟩,Or.inl ⟨rfl,Or.inl rfl⟩⟩
  | some a =>
    have hlook := h.str
    simp only [Registry.lisFindmodStrtab,Registry.downReg,Registry.search,Registry.upReg,hreg,Bool.false_eq_true,
      if_false,Nat.one_ne_zero,Option.map_some,Bool.not_true,h.cnt,Nat.add_sub_cancel]
    refine ⟨_,_,rfl,rfl,rfl,⟨h.cnt.symm,fun _ => rfl,fun _ => rfl⟩,?_⟩
    cases hf : (List.range' 1 l.length).find? fun i => (s.sw i).fStr == some a with
    | some id =>
      have hmem := List.mem_range'_1.mp (List.mem_of_find?_eq_some hf)
      have hstr : (s.sw id).fStr = some a := by simpa using List.find?_some hf
      obtain ⟨k,rfl⟩ := Nat.exists_eq_succ_of_ne_zero (Nat.ne_of_gt hmem.1)
      have hk : k < l.length := by omega
      have he := hlook k l[k] (List.getElem?_eq_getElem hk)
      exact Or.inr ⟨by simp,k,l[k],rfl,List.getElem?_eq_getElem hk,he.symm.trans hstr⟩
    | none =>
      refine Or.inl ⟨rfl,Or.inr fun e he hc => ?_⟩
      obtain ⟨k,hk,rfl⟩ := List.getElem_of_mem he
      have hnone := List.find?_eq_none.mp hf (k + 1) (List.mem_range'_1.mpr (by omega))
      exact hnone (by rw [hlook k _ (List.getElem?_eq_getElem hk),hc]; exact beq_self_eq_true _)

/- Slots with a name that is none of the table's. -/
theorem find_name (h : Entered s l) {n : Name} {c : ℕ} (hc : c < MAX_STRMOD) (hn : ∀ x ∈ l, x.cnfName ≠ n)
    (hlast : l.length < c → n ≠ []) :
    (List.range' 1 c).find? (fun i => (s.sw i).fName == n) = none := by
  refine List.find?_eq_none.mpr fun i hi hp => ?_
  have hi := List.mem_range'_1.mp hi
  obtain ⟨k,rfl⟩ := Nat.exists_eq_succ_of_ne_zero (Nat.ne_of_gt hi.1)
  have hname := h.name k (by omega)
  have heq : (s.sw (k + 1)).fName = n := by simpa using hp
  cases hk : l[k]? with
  | some e =>
    rw [hk] at hname
    exact hn e (List.mem_of_getElem? hk) (hname.symm.trans heq)
  | none =>
    rw [hk] at hname
    have := List.getElem?_eq_none_iff.mp hk
    exact hlast (by omega) (heq.symm.trans hname)

/- A name that is not in the table gets the next slot. -/
theorem registerName_new (h : Entered s l) (hl : l.length + 1 < MAX_STRMOD) (hn : e.cnfName ≠ [])
    (hnew : ∀ x ∈ l, x.cnfName ≠ e.cnfName) :
    ∃ t, s.registerName e.cnfStr e.cnfName = (((l.length + 1 : ℕ) : ℤ),t) ∧ Entered t (l ++ [e]) ∧
      t.lisModReg = s.lisModReg + 1 ∧
      (∀ j, j ≠ l.length + 1 → t.sw j = s.sw j) ∧ (t.sw (l.length + 1)).fState = regState e := by
  have hf := find_name h hl hnew (fun _ => hn)
  have hz := find_name h (n := []) (c := l.length) (by omega) h.named (fun hc => absurd hc (Nat.lt_irrefl _))
  have hmax : l.length + 1 ≠ MAX_STRMOD := by omega
  have hcnt : l.length + 1 ≠ l.length + 1 + 1 := by omega
  simp only [Registry.registerName,Registry.findMod,Registry.search,h.cnt,hf,Registry.findEmptyModIndex,
    Nat.add_sub_cancel,hz,if_neg hmax,Registry.enter,Registry.initializeModule,Registry.setSlot,hcnt,false_and,if_false,
    Function.update_self,Function.update_idem,Registry.upReg,Option.isNone_none,Bool.true_and]
  refine ⟨_,rfl,⟨by simp,fun k hk => ?_,fun k x hx => ?_,fun x hx => ?_⟩,rfl,fun j hj => ?_,?_⟩
  · by_cases hkl : k = l.length
    · subst hkl
      simp [Function.update_self,List.take_of_length_le e.short]
    · have : k + 1 ≠ l.length + 1 := by omega
      refine (congrArg Fmodsw.fName (Function.update_of_ne this ..)).trans ((h.name k hk).trans ?_)
      rw [List.getElem?_append]
      split_ifs with hlt
      · rfl
      · rw [List.getElem?_eq_none (by omega),List.getElem?_eq_none (by simp; omega)]
  · by_cases hkl : k = l.length
    · subst hkl
      simp only [List.getElem?_concat_length,Option.some.injEq] at hx
      simp [Function.update_self,hx]
    · have : k + 1 ≠ l.length + 1 := by omega
      have hlt := (List.getElem?_eq_some_iff.mp hx).1
      simp only [List.length_append,List.length_singleton] at hlt
      rw [List.getElem?_append_left (by omega)] at hx
      exact (congrArg Fmodsw.fStr (Function.update_of_ne this ..)).trans (h.str k x hx)
  · rcases List.mem_append.mp hx with hx | hx
    · exact h.named x hx
    · exact (List.mem_singleton.mp hx) ▸ hn
  · exact Function.update_of_ne hj ..
  · simp [Function.update_self,regState]

/- Whether the streamtab of a line is that of a module that has a slot. -/
def Seen (l : List ModuleConfig) (e : ModuleConfig) : Prop := e.cnfStr ≠ none ∧ ∃ x ∈ l, x.cnfStr = e.cnfStr

/- What a line of a module does to the states. -/
structure Placing (s : Registry) (l : List ModuleConfig) (i : ℕ) (e : ModuleConfig) (t : Registry) : Prop where
  entered : Entered t (l ++ [e])
  own : (t.sw (l.length + 1)).fState = (if l.length + 1 = i then 0 else regState e) ||| objState e
  other : ∀ j, j ≠ l.length + 1 → (t.sw j).fState = if j = i then 0 else (s.sw j).fState

theorem downReg_free (hreg : s.lisModReg = 1) : s.downReg false = some (true,{ s with lisModReg := 0 }) := by
  simp [Registry.downReg,hreg]

theorem qlockOption_free (hreg : s.lisModReg = 1) : s.lisRegisterModuleQlockOption false = some (0,s) := by
  cases s
  simp_all [Registry.lisRegisterModuleQlockOption,Registry.downReg,Registry.upReg]

theorem initEntry_spec (h : Entered s l) (hreg : s.lisModReg = 1) (i : ℕ) (hn : e.cnfName ≠ [])
    (hl : l.length + 1 < MAX_STRMOD) (hnew : ∀ x ∈ l, x.cnfName ≠ e.cnfName) :
    ∃ t, s.initEntry i e = some t ∧ t.lisModReg = 1 ∧
      ((Seen l e ∧ Entered t l) ∨ (¬ Seen l e ∧ Placing s l i e t)) := by
  obtain ⟨id,r,hr,hsw,hr1,hlike,hid⟩ := findmodStrtab_spec h hreg e.cnfStr
  have hobj : (if decide (e.cnfObjname ≠ []) = true then UNLOADED else LINKED) = objState e := by
    simp only [objState,decide_eq_true_eq,ne_eq,ite_not]
  simp only [Registry.initEntry,if_neg hn,Registry.lisRegisterStrmod,hr,Option.bind_some]
  rcases hid with ⟨rfl,hfree⟩ | ⟨hsome,k,x,rfl,hk,hx⟩
  · -- the module gets the next slot
    have hdown : Entered { r with lisModReg := 0 } l := h.like ⟨hlike.cnt,hlike.name,hlike.str⟩
    obtain ⟨t,ht,hent,ht1,hother,hown⟩ := registerName_new hdown hl hn hnew
    have hid : ((l.length + 1 : ℕ) : ℤ) ≠ 0 := by omega
    simp only [Nat.cast_zero,lt_irrefl,if_false,downReg_free hr1,Option.map_some,Bool.not_true,Bool.false_eq_true,ht,
      Option.bind_some,if_neg hid,qlockOption_free ht1,Int.toNat_natCast]
    refine ⟨_,rfl,ht1,Or.inr ⟨fun hs => ?_,hent.like (like_initMod ..),?_,fun j hj => ?_⟩⟩
    · obtain ⟨hs,x,hx,heq⟩ := hs
      exact (hfree.resolve_left hs) x hx heq
    · rw [initMod_state,if_pos rfl,hobj,hown]
    · rw [initMod_state,if_neg hj,hother j hj,hsw]
  · -- the slot of the streamtab is taken for that of the module
    have hid : (0 : ℤ) < ((k + 1 : ℕ) : ℤ) := by omega
    simp only [if_pos hid,Option.bind_some,if_neg hid.ne',qlockOption_free hr1,Option.map_some,lt_irrefl,if_false,
      Int.toNat_natCast]
    exact ⟨_,rfl,hr1,Or.inl ⟨⟨hsome,x,List.mem_of_getElem? hk,hx⟩,(h.like hlike).like (like_initMod ..)⟩⟩
end Line

/-! ### The whole table -/

section Table
variable {s t : Registry} {l tab : List ModuleConfig} {e : ModuleConfig} {i j : ℕ}

/- The names are different and there are slots for all. -/
structure Fits (l : List ModuleConfig) : Prop where
  names : (l.map ModuleConfig.cnfName).Nodup
  slots : l.length < MAX_STRMOD

theorem named_cons (e : ModuleConfig) (tab : List ModuleConfig) :
    named (e :: tab) = if e.cnfName = [] then named tab else e :: named tab := by
  by_cases he : e.cnfName = [] <;> simp [named,he]

theorem Fits.sublist {m : List ModuleConfig} (h : Fits l) (hs : m.Sublist l) : Fits m :=
  ⟨h.names.sublist (hs.map _),hs.length_le.trans_lt h.slots⟩

theorem Fits.step (h : Fits (l ++ e :: tab)) :
    l.length + 1 < MAX_STRMOD ∧ (∀ x ∈ l, x.cnfName ≠ e.cnfName) ∧ Fits (l ++ [e] ++ tab) ∧ Fits (l ++ tab) := by
  have hlen : l.length + tab.length + 1 < MAX_STRMOD := by
    simpa [Nat.add_assoc] using h.slots
  have hnames := h.names
  rw [List.map_append,List.nodup_append] at hnames
  refine ⟨by omega,fun x hx => hnames.2.2 _ (List.mem_map_of_mem hx) _ (List.mem_map_of_mem (List.mem_cons_self ..)),
    ?_,h.sublist ((List.Sublist.refl l).append (List.sublist_cons_self e tab))⟩
  rwa [← List.append_cons]

theorem initLoop_append (i : ℕ) (a b : List ModuleConfig) (s : Registry) :
    Registry.initLoop i (a ++ b) s = (Registry.initLoop i a s).bind (Registry.initLoop (i + a.length) b) := by
  induction a generalizing i s with
  | nil => rfl
  | cons e a ih =>
    simp only [List.cons_append,Registry.initLoop,List.length_cons,Option.bind_assoc]
    congr 1
    funext t
    rw [ih,Nat.add_right_comm,Nat.add_assoc]

theorem initEntry_blank (s : Registry) (i : ℕ) (he : e.cnfName = []) : s.initEntry i e = some s := if_pos he

/- Whatever the streamtabs are: the modules that have slots are some of those configured, and with all of them no
streamtab is seen twice. -/
theorem initLoop_entered (h : Entered s l) (hreg : s.lisModReg = 1) (hf : Fits (l ++ named tab)) (i : ℕ) :
    ∃ t m, Registry.initLoop i tab s = some t ∧ Entered t m ∧ m ⊆ l ++ named tab ∧
      (Apart l → (∀ e ∈ named tab, e ∈ m) → Apart (l ++ named tab)) := by
  induction tab generalizing s l i with
  | nil => exact ⟨s,l,rfl,h,List.subset_append_left .., fun ha _ => by simpa [named] using ha⟩
  | cons e tab ih =>
    rw [named_cons] at hf ⊢
    by_cases he : e.cnfName = []
    · rw [if_pos he] at hf ⊢
      simpa only [Registry.initLoop,initEntry_blank s i he,Option.bind_some] using ih h hreg hf (i + 1)
    · rw [if_neg he] at hf ⊢
      obtain ⟨hlen,hnew,hnext,hskip⟩ := hf.step
      obtain ⟨t,ht,ht1,⟨hseen,hent⟩ | ⟨hseen,hpl⟩⟩ := initEntry_spec h hreg i he hlen hnew
      · obtain ⟨u,m,hu,hm,hsub,-⟩ := ih hent ht1 hskip (i + 1)
        refine ⟨u,m,by simpa only [Registry.initLoop,ht,Option.bind_some] using hu,hm,
          List.Subset.trans hsub ((List.Sublist.refl l).append (List.sublist_cons_self e _)).subset,fun _ hall => ?_⟩
        -- the module that was seen has no slot
        have hnd := hf.names
        rw [List.map_append,List.nodup_append,List.map_cons,List.nodup_cons] at hnd
        rcases List.mem_append.mp (hsub (hall e (List.mem_cons_self ..))) with hc | hc
        · exact absurd rfl (hnew e hc)
        · exact absurd (List.mem_map_of_mem hc) hnd.2.1.1
      · obtain ⟨u,m,hu,hm,hsub,hap⟩ := ih hpl.entered ht1 hnext (i + 1)
        rw [← List.append_cons] at hsub hap
        refine ⟨u,m,by simpa only [Registry.initLoop,ht,Option.bind_some] using hu,hm,hsub,fun ha hall => ?_⟩
        refine hap (List.pairwise_append.mpr ⟨ha,List.pairwise_singleton ..,fun x hx y hy => ?_⟩)
          fun x hx => hall x (List.mem_cons_of_mem _ hx)
        rw [List.mem_singleton.mp hy]
        by_cases hnone : e.cnfStr = none
        · exact Or.inl hnone
        · exact Or.inr fun hc => hseen ⟨hnone,x,hx,hc⟩

/- With streamtabs that differ each module gets its slot, and the states of the slots behind the place in the table are
left alone. -/
theorem initLoop_apart (h : Entered s l) (hreg : s.lisModReg = 1) (hf : Fits (l ++ named tab))
    (ha : Apart (l ++ named tab)) (i : ℕ) :
    ∃ t, Registry.initLoop i tab s = some t ∧ t.lisModReg = 1 ∧ Entered t (l ++ named tab) ∧
      ∀ j, j < i → j ≤ l.length → (t.sw j).fState = (s.sw j).fState := by
  induction tab generalizing s l i with
  | nil => exact ⟨s,rfl,hreg,by simpa [named] using h,fun _ _ _ => rfl⟩
  | cons e tab ih =>
    rw [named_cons] at hf ha ⊢
    by_cases he : e.cnfName = []
    · rw [if_pos he] at hf ha ⊢
      obtain ⟨t,ht,ht1,hent,hst⟩ := ih h hreg hf ha (i + 1)
      exact ⟨t,by simpa only [Registry.initLoop,initEntry_blank s i he,Option.bind_some] using ht,ht1,hent,
        fun j hj => hst j (Nat.lt_succ_of_lt hj)⟩
    · rw [if_neg he] at hf ha ⊢
      obtain ⟨hlen,hnew,hnext,-⟩ := hf.step
      have hfresh : ¬ Seen l e := fun ⟨hs,x,hx,heq⟩ =>
        ((List.pairwise_append.mp ha).2.2 x hx e (List.mem_cons_self ..)).elim hs fun hne => hne heq
      obtain ⟨t,ht,ht1,⟨hseen,-⟩ | ⟨-,hpl⟩⟩ := initEntry_spec h hreg i he hlen hnew
      · exact absurd hseen hfresh
      rw [List.append_cons] at ha ⊢
      obtain ⟨u,hu,hu1,hent,hst⟩ := ih hpl.entered ht1 hnext ha (i + 1)
      refine ⟨u,by simpa only [Registry.initLoop,ht,Option.bind_some] using hu,hu1,hent,fun j hj hjl => ?_⟩
      rw [hst j (by omega) (by simp; omega),hpl.other j (by omega),if_neg (by omega)]

theorem entered_init (beyond : ℕ → Fmodsw) : Entered (Registry.init beyond) [] := by
  refine ⟨rfl,fun k hk => ?_,fun k e he => by simp at he,fun e he => absurd he List.not_mem_nil⟩
  simp [Registry.init,hk]

variable {beyond : ℕ → Fmodsw} {p : ℕ}

theorem slot_le (tab : List ModuleConfig) (p : ℕ) : slot tab p ≤ p + 1 := by
  have h := (List.length_filter_le (fun e => decide (e.cnfName ≠ [])) (tab.take p)).trans (List.length_take_le p tab)
  exact Nat.succ_le_succ h

theorem named_split (he : tab[p]? = some e) (hn : e.cnfName ≠ []) :
    named tab = named (tab.take p) ++ e :: named (tab.drop (p + 1)) := by
  obtain ⟨hp,rfl⟩ := List.getElem?_eq_some_iff.mp he
  conv_lhs => rw [← List.take_append_drop p tab,List.drop_eq_getElem_cons hp]
  rw [named,List.filter_append]
  exact congrArg _ ((named_cons ..).trans (if_neg hn))

/- The slot of a line has its name, and no other has. -/
theorem named_slot (hf : Fits (named tab)) (ht : Entered t (named tab)) (he : tab[p]? = some e) (hn : e.cnfName ≠ []) :
    slot tab p < MAX_STRMOD ∧ (t.sw (slot tab p)).fName = e.cnfName ∧ (t.sw (slot tab p)).fStr = e.cnfStr ∧
      ∀ j, 0 < j → j < MAX_STRMOD → (t.sw j).fName = e.cnfName → j = slot tab p := by
  have hsplit := named_split he hn
  have hget : (named tab)[(named (tab.take p)).length]? = some e := by
    rw [hsplit]
    simp
  have hlt := (List.getElem?_eq_some_iff.mp hget).1
  have hmax : slot tab p < MAX_STRMOD := Nat.lt_of_le_of_lt hlt hf.slots
  refine ⟨hmax,?_,ht.str _ _ hget,fun j h0 hj hname => ?_⟩
  · have hname := ht.name _ hmax
    rwa [hget] at hname
  · obtain ⟨k,rfl⟩ := Nat.exists_eq_succ_of_ne_zero (Nat.ne_of_gt h0)
    have hk := (ht.name k hj).symm.trans hname
    cases hx : (named tab)[k]? with
    | none =>
      rw [hx] at hk
      exact absurd hk.symm hn
    | some x =>
      rw [hx] at hk
      have hklt := (List.getElem?_eq_some_iff.mp hx).1
      have heq : ((named tab).map ModuleConfig.cnfName)[k]? =
          ((named tab).map ModuleConfig.cnfName)[(named (tab.take p)).length]? := by
        rw [List.getElem?_map,List.getElem?_map,hx,hget]
        exact congrArg some hk
      exact congrArg Nat.succ ((List.getElem?_inj (by simpa using hklt) hf.names).mp heq)

/- The state of a module at the end: the line of its own, and the next. -/
theorem state_at (hf : Fits (named tab)) (ha : Apart (named tab)) (he : tab[p]? = some e) (hn : e.cnfName ≠ [])
    (ht : Registry.lisInitMod tab beyond = some t) :
    (t.sw (slot tab p)).fState =
      if slot tab p = p + 1 ∧ tab[p + 1]?.any (fun f => f.cnfName ≠ []) then LINKED
      else (if slot tab p = p then 0 else regState e) ||| objState e := by
  obtain ⟨hp,rfl⟩ := List.getElem?_eq_some_iff.mp he
  have hsplit : tab = tab.take p ++ tab[p] :: tab.drop (p + 1) := by
    rw [← List.drop_eq_getElem_cons hp,List.take_append_drop]
  have hnamed := named_split he hn
  have hlen : (tab.take p).length = p := by simp; omega
  have hslot : slot tab p = (named (tab.take p)).length + 1 := rfl
  have hle := slot_le tab p
  rw [hnamed] at hf ha
  obtain ⟨hroom,hnew,hnext,-⟩ := hf.step
  have hpre := hf.sublist (List.sublist_append_left ..)
  obtain ⟨s0,hs0,hr0,hent0,-⟩ := initLoop_apart (entered_init beyond) rfl hpre (List.pairwise_append.mp ha).1 0
  have hfresh : ¬ Seen (named (tab.take p)) tab[p] := fun ⟨hs,x,hx,heq⟩ =>
    ((List.pairwise_append.mp ha).2.2 x hx _ (List.mem_cons_self ..)).elim hs fun hne => hne heq
  obtain ⟨s1,hs1,hr1,⟨hseen,-⟩ | ⟨-,hpl⟩⟩ := initEntry_spec hent0 hr0 p hn hroom hnew
  · exact absurd hseen hfresh
  have hrest : Registry.initLoop (p + 1) (tab.drop (p + 1)) s1 = some t := by
    have hsum : 0 + (tab.take p).length = p := by omega
    rw [Registry.lisInitMod,hsplit,initLoop_append,hs0,hsum,Option.bind_some,Registry.initLoop,hs1] at ht
    simpa using ht
  have hown : (s1.sw (slot tab p)).fState = (if slot tab p = p then 0 else regState tab[p]) ||| objState tab[p] :=
    hpl.own
  have hlong : slot tab p ≤ (named (tab.take p) ++ [tab[p]]).length := by simp [hslot]
  rw [← List.head?_drop]
  rw [List.append_cons] at ha
  cases hd : tab.drop (p + 1) with
  | nil =>
    rw [hd] at hrest
    cases hrest
    simpa using hown
  | cons f post =>
    rw [hd,named_cons] at hnext ha
    rw [hd,Registry.initLoop] at hrest
    by_cases hfb : f.cnfName = []
    · rw [if_pos hfb] at hnext ha
      rw [initEntry_blank s1 _ hfb,Option.bind_some] at hrest
      obtain ⟨u,hu,-,-,hst⟩ := initLoop_apart hpl.entered hr1 hnext ha (p + 1 + 1)
      cases hu.symm.trans hrest
      rw [hst _ (by omega) hlong,hown]
      simp [hfb]
    · rw [if_neg hfb] at hnext ha
      obtain ⟨hroom',hnew',hnext',-⟩ := hnext.step
      obtain ⟨s2,hs2,hr2,⟨⟨hs,x,hx,heq⟩,-⟩ | ⟨-,hpl'⟩⟩ := initEntry_spec hpl.entered hr1 (p + 1) hfb hroom' hnew'
      · exact (((List.pairwise_append.mp ha).2.2 x hx _ (List.mem_cons_self ..)).elim hs fun hne => hne heq).elim
      rw [hs2,Option.bind_some] at hrest
      rw [List.append_cons] at ha
      obtain ⟨u,hu,-,-,hst⟩ := initLoop_apart hpl'.entered hr2 hnext' ha (p + 1 + 1)
      cases hu.symm.trans hrest
      rw [hst _ (by omega) (hlong.trans (by simp)),hpl'.other _ (Nat.ne_of_lt (Nat.lt_succ_of_le hlong)),hown]
      simp [hfb,LINKED]

/- The state is the one wanted when it was cleared at the right moment. -/
theorem state_iff (tab : List ModuleConfig) (p : ℕ) (e : ModuleConfig) :
    ((if slot tab p = p + 1 ∧ tab[p + 1]?.any (fun f => f.cnfName ≠ []) then LINKED
      else (if slot tab p = p then 0 else regState e) ||| objState e) = if e.cnfObjname = [] then LINKED else UNLOADED)
      ↔ Cleared tab p e := by
  have hne : slot tab p = p → slot tab p ≠ p + 1 := by omega
  unfold Cleared
  by_cases hp : slot tab p = p
  · simp [hp,objState]
  · simp only [hp,false_or,if_false]
    split_ifs with hnext ho ho
    · simp [ho]
    · simp [ho,LINKED,UNLOADED]
    · cases hs : e.cnfStr <;> simp [regState,objState,ho,hs,LINKED,LOADED]
    · cases hs : e.cnfStr <;> simp [regState,objState,ho,hs,LINKED,LOADED,UNLOADED]

theorem placed_iff (hf : Fits (named tab)) (ha : Apart (named tab)) (he : tab[p]? = some e) (hn : e.cnfName ≠ [])
    (ht : Registry.lisInitMod tab beyond = some t) : Placed t e ↔ Cleared tab p e := by
  obtain ⟨u,hu,-,hent,-⟩ := initLoop_apart (entered_init beyond) rfl hf ha 0
  cases hu.symm.trans ht
  obtain ⟨hmax,hname,hstr,huniq⟩ := named_slot hf hent he hn
  have hstate := state_at hf ha he hn ht
  constructor
  · rintro ⟨id,-,-,-,-,hid,hid'⟩
    cases hid _ (Nat.succ_pos _) hmax hname
    exact (state_iff tab p e).mp (hstate.symm.trans hid')
  · exact fun hc => ⟨_,Nat.succ_pos _,hmax,hname,hstr,huniq,hstate.trans ((state_iff tab p e).mpr hc)⟩

/- The modules that have slots are all those configured only if no streamtab is configured twice. -/
theorem apart_of_placed (hf : Fits (named tab)) (ht : Registry.lisInitMod tab beyond = some t)
    (hall : ∀ e ∈ named tab, Placed t e) : Apart (named tab) := by
  obtain ⟨u,m,hu,hent,hsub,hap⟩ := initLoop_entered (entered_init beyond) rfl hf 0
  cases hu.symm.trans ht
  refine hap List.Pairwise.nil fun e he => ?_
  obtain ⟨id,h0,hmax,hname,-⟩ := hall e he
  have hn : e.cnfName ≠ [] := by simpa using (List.mem_filter.mp he).2
  obtain ⟨k,rfl⟩ := Nat.exists_eq_succ_of_ne_zero (Nat.ne_of_gt h0)
  have hk := (hent.name k hmax).symm.trans hname
  cases hx : m[k]? with
  | none =>
    rw [hx] at hk
    exact absurd hk.symm hn
  | some x =>
    rw [hx] at hk
    have hxm := List.mem_of_getElem? hx
    exact List.inj_on_of_nodup_map hf.names (hsub hxm) he hk ▸ hxm

/- Each module that is configured has its slot, and the objects to be loaded are the modules' that have one. -/
theorem lisInitMod_places_iff (tab : List ModuleConfig) (beyond : ℕ → Fmodsw)
    (hnames : ((named tab).map ModuleConfig.cnfName).Nodup) (hfits : (named tab).length < MAX_STRMOD) :
    (∃ t, Registry.lisInitMod tab beyond = some t ∧ ∀ e ∈ named tab, Placed t e) ↔
      Apart (named tab) ∧ ∀ p e, tab[p]? = some e → e.cnfName ≠ [] → Cleared tab p e := by
  have hf : Fits (named tab) := ⟨hnames,hfits⟩
  constructor
  · rintro ⟨t,ht,hall⟩
    have ha := apart_of_placed hf ht hall
    refine ⟨ha,fun p e he hn => (placed_iff hf ha he hn ht).mp (hall e ?_)⟩
    exact List.mem_filter.mpr ⟨List.mem_of_getElem? he,by simpa using hn⟩
  · rintro ⟨ha,hcleared⟩
    obtain ⟨t,ht,-⟩ := initLoop_apart (entered_init beyond) rfl hf ha 0
    refine ⟨t,ht,fun e he => ?_⟩
    obtain ⟨he,hn⟩ := List.mem_filter.mp he
    have hn : e.cnfName ≠ [] := by simpa using hn
    obtain ⟨p,hp,rfl⟩ := List.getElem_of_mem he
    have hget := List.getElem?_eq_getElem hp
    exact (placed_iff hf ha hget hn ht).mpr (hcleared p _ hget hn)

/- A module with an object and one that is linked, in the form that strconf writes. -/
def oneOfEach : List ModuleConfig :=
  [⟨[],none,[],by decide⟩,⟨[97],none,[120],by decide⟩,⟨[98],some 7,[],by decide⟩]

theorem lisInitMod_places_iff_two :
    (∃ t, Registry.lisInitMod oneOfEach (fun _ => ⟨none,0,[],0,false,false,0⟩) = some t ∧
      ∀ e ∈ named oneOfEach, Placed t e) ↔
      Apart (named oneOfEach) ∧ ∀ p e, oneOfEach[p]? = some e → e.cnfName ≠ [] → Cleared oneOfEach p e :=
  lisInitMod_places_iff oneOfEach _ (by simp [named,oneOfEach]) (by simp [named,oneOfEach,MAX_STRMOD])

/- Two modules with objects, in the form that `mod.c:144` describes. -/
def twoObjects : List ModuleConfig :=
  [⟨[97],none,[120],by decide⟩,⟨[98],none,[121],by decide⟩,⟨[],none,[],by decide⟩]

theorem lisInitMod_keeps_linked :
    ¬ ∀ (tab : List ModuleConfig) (beyond : ℕ → Fmodsw), ((named tab).map ModuleConfig.cnfName).Nodup →
      (named tab).length < MAX_STRMOD →
        ∃ t, Registry.lisInitMod tab beyond = some t ∧ ∀ e ∈ named tab, Placed t e := by
  intro h
  have hf : Fits (named twoObjects) := ⟨by simp [named,twoObjects],by simp [named,twoObjects,MAX_STRMOD]⟩
  obtain ⟨t,ht,hall⟩ := h twoObjects (fun _ => ⟨none,0,[],0,false,false,0⟩) hf.names hf.slots
  have ha : Apart (named twoObjects) := by simp [Apart,named,twoObjects]
  have hc := (placed_iff (p := 0) hf ha rfl (by simp) ht).mp (hall _ (by simp [named,twoObjects]))
  simp [Cleared,slot,named,twoObjects] at hc

end Table
end CSLiS.Mod
