import CSLiS.Mod.Injective

/-!
# Slots that keep their names

A slot with a name keeps it in every call on the table of modules, other than the two that take names away: one that
unregisters the module, and a load that fails. A full table, or names that stand in two slots, do not matter here.
-/

namespace CSLiS.Mod
open Queue Lib Lib.Exec

/- Names that a slot can hold. -/
def Short (K : List (ℕ × Name)) : Prop := ∀ p ∈ K, p.2 ≠ [] ∧ p.2.length ≤ LIS_NAMESZ

/- The slots of `K` have the names of `K`. -/
structure Names.Holds (v : Names) (K : List (ℕ × Name)) : Prop where
  pos : 0 < v.cnt
  le : v.cnt ≤ MAX_STRMOD
  high : ∀ i, v.cnt ≤ i → i < MAX_STRMOD → v.name i = []
  held : ∀ p ∈ K, 0 < p.1 ∧ p.1 < v.cnt ∧ v.name p.1 = p.2

variable {K : List (ℕ × Name)} {v : Names} {l : List ℕ} {id : ℕ} {n : Name}

namespace Names.Holds

theorem use (h : v.Holds K) (l : List ℕ) : (v.use l).Holds K := ⟨h.pos,h.le,h.high,h.held⟩

theorem grow (h : v.Holds K) (hc : v.cnt < MAX_STRMOD) : v.grow.Holds K := by
  refine ⟨Nat.succ_pos _,hc,?_,?_⟩
  · intro i hi hm
    exact h.high i (Nat.le_of_succ_le hi) hm
  · intro p hp
    obtain ⟨h0,hlt,hn⟩ := h.held p hp
    exact ⟨h0,Nat.lt_succ_of_lt hlt,hn⟩

/- A slot gets a name. If it is one of `K`, it has that name already. -/
theorem put (h : v.Holds K) (hid : id < v.cnt ∨ n = []) (hn : ∀ p ∈ K, p.1 = id → p.2 = n) : (v.put id n).Holds K := by
  refine ⟨h.pos,h.le,?_,?_⟩
  · intro i hi hm
    by_cases he : i = id
    · rw [he] at hi ⊢
      rw [← hid.resolve_left (Nat.not_lt.mpr hi)]
      exact Function.update_self ..
    · exact (Function.update_of_ne he ..).trans (h.high i hi hm)
  · intro p hp
    obtain ⟨h0,hlt,hname⟩ := h.held p hp
    refine ⟨h0,hlt,?_⟩
    by_cases he : p.1 = id
    · rw [he,hn p hp he]
      exact Function.update_self ..
    · exact (Function.update_of_ne he ..).trans hname

/- A slot without a name is none of `K`. -/
theorem put_free (h : v.Holds K) (hK : Short K) (hid : id < v.cnt) (hname : v.name id = []) : (v.put id n).Holds K := by
  apply h.put (.inl hid)
  intro p hp he
  have hp2 := (h.held p hp).2.2
  rw [he,hname] at hp2
  exact absurd hp2.symm (hK p hp).1

theorem mono {L : List (ℕ × Name)} (h : v.Holds K) (hL : ∀ p ∈ L, p ∈ K) : v.Holds L :=
  ⟨h.pos,h.le,h.high,fun p hp => h.held p (hL p hp)⟩

theorem append {L : List (ℕ × Name)} (h : v.Holds K) (hL : v.Holds L) : v.Holds (K ++ L) := by
  refine ⟨h.pos,h.le,h.high,?_⟩
  intro p hp
  rcases List.mem_append.mp hp with hp | hp
  · exact h.held p hp
  · exact hL.held p hp

theorem single (h : v.Holds K) (h0 : 0 < id) (hid : id < v.cnt) (hn : v.name id = n) : v.Holds [(id,n)] := by
  refine ⟨h.pos,h.le,h.high,?_⟩
  intro p hp
  rw [List.mem_singleton.mp hp]
  exact ⟨h0,hid,hn⟩

end Names.Holds

namespace Registry

variable {s t : Registry} {k i : ℕ} {f : Fmodsw}

theorem holds_setSlot (h : s.view.Holds K) (hf : f.fName = (s.sw id).fName) : (s.setSlot id f).view.Holds K := by
  rw [view_setSlot hf]
  exact h.use _

theorem holds_downReg {intr : Bool} {d : Bool × Registry} (h : s.view.Holds K) (hd : s.downReg intr = some d) :
    d.2.view.Holds K := by
  rw [view_downReg hd]
  exact h

theorem holds_downSem {intr : Bool} {d : Bool × Registry} (h : s.view.Holds K) (hd : s.downSem id intr = some d) :
    d.2.view.Holds K := by
  rw [view_downSem hd]
  exact h.use _

theorem holds_upSem (h : s.view.Holds K) (id : ℕ) : (s.upSem id).view.Holds K := by
  rw [view_upSem]
  exact h.use _

/-! ### Registration -/

/- What `find_empty_mod_index` hands out for a name: a slot that has it now and was none of `K`, or 0 from a full table. -/
structure Spare (s : Registry) (K : List (ℕ × Name)) (n : Name) (e : ℕ × Registry) : Prop where
  holds : e.2.view.Holds K
  within : s.view.Within → e.2.view.Within
  loads : e.2.loads = s.loads
  lt : e.1 < e.2.lisFmodcnt
  other : ∀ p ∈ K, p.1 ≠ e.1
  name : e.1 ≠ 0 → (e.2.sw e.1).fName = n.take LIS_NAMESZ

theorem findEmpty_spare (h : s.view.Holds K) (hK : Short K) (n : Name) : Spare s K n (s.findEmptyModIndex n) := by
  have hput : ∀ (w : Names) (e : ℕ × Registry), w.Holds K → (s.view.Within → w.Within) → w.loads = s.loads →
      e.2.view = w.put e.1 (n.take LIS_NAMESZ) → e.1 < w.cnt → w.name e.1 = [] → Spare s K n e := by
    intro w e hw hin hl hv hlt hname
    have hm : e.1 < MAX_STRMOD := hlt.trans_le hw.le
    refine ⟨?_,fun hu => ?_,?_,?_,fun p hp hc => ?_,fun _ => ?_⟩
    · rw [hv]
      exact hw.put_free hK hlt hname
    · rw [hv]
      exact Names.within_put.mpr ⟨hin hu,hm⟩
    · exact (congrArg Names.loads hv).trans hl
    · exact hlt.trans_eq (congrArg Names.cnt hv).symm
    · have hp2 := (hw.held p hp).2.2
      rw [hc,hname] at hp2
      exact (hK p hp).1 hp2.symm
    · exact (congrFun (congrArg Names.name hv) e.1).trans (Function.update_self ..)
  have huse : ∀ l, (∀ i ∈ l, i < MAX_STRMOD) → s.view.Within → (s.view.use l).Within := fun l hl hu =>
    Names.within_use.mpr ⟨hu,hl⟩
  rcases findEmpty_cases h.le n with ⟨l,hl,⟨-,h0,hv⟩ | ⟨id,-,hid,hname,he,hv⟩ | ⟨hc,he,hv⟩⟩
  · refine ⟨hv ▸ h.use l,fun hu => hv ▸ huse l hl hu,congrArg Names.loads hv,?_,fun p hp => ?_,fun hc => absurd h0 hc⟩
    · rw [h0]
      exact h.pos.trans_eq (congrArg Names.cnt hv).symm
    · rw [h0]
      exact (h.held p hp).1.ne'
  · apply hput (s.view.use l) _ (h.use l) (huse l hl) rfl
    · rw [he]
      exact hv
    · rw [he]
      exact hid
    · rw [he]
      exact hname
  · apply hput (s.view.use l).grow _ ((h.use l).grow hc) (huse l hl) rfl
    · rw [he]
      exact hv
    · rw [he]
      exact Nat.lt_succ_self _
    · rw [he]
      exact h.high _ le_rfl hc

theorem holds_enter (h : s.view.Holds K) (hid : id < s.lisFmodcnt) (hn : ∀ p ∈ K, p.1 = id → p.2 = n.take LIS_NAMESZ)
    (strtab : Option ℕ) (b : Bool) : (s.enter id strtab n b).2.view.Holds K := by
  rw [enter_other (Nat.ne_of_lt hid)]
  exact (h.use _).put (.inl hid) hn

theorem holds_registerName (h : s.view.Holds K) (hK : Short K) (strtab : Option ℕ) (n : Name) :
    (s.registerName strtab n).2.view.Holds K := by
  obtain ⟨u,hue⟩ : ∃ u, u = (s.search (List.range' 1 s.lisFmodcnt) fun f => f.fName == n).2 := ⟨_,rfl⟩
  have hu : u.view.Holds K := hue ▸ h.use _
  cases hf : (List.range' 1 s.lisFmodcnt).find? fun i => (s.sw i).fName == n with
  | none =>
    have hreg : s.registerName strtab n = (u.findEmptyModIndex n).2.enter (u.findEmptyModIndex n).1 strtab n true := by
      simp only [registerName,findMod,search,hf,hue]
      rfl
    have he := findEmpty_spare hu hK n
    rw [hreg]
    exact holds_enter he.holds he.lt (fun p hp hc => absurd hc (he.other p hp)) strtab true
  | some inx =>
    have hreg : s.registerName strtab n = u.enter inx strtab n false := by
      simp only [registerName,findMod,search,hf,hue]
      rfl
    have hin := List.mem_range'_1.mp (List.mem_of_find?_eq_some hf)
    have hname : (s.sw inx).fName = n := by simpa using List.find?_some hf
    have hcnt : u.lisFmodcnt = s.lisFmodcnt := hue ▸ rfl
    -- a slot of `K` that is found has the name, which is not cut
    have hkeep : ∀ p ∈ K, p.1 = inx → p.2 = n.take LIS_NAMESZ := by
      intro p hp hc
      have hp2 : (s.sw p.1).fName = p.2 := (h.held p hp).2.2
      rw [hc,hname] at hp2
      rw [List.take_of_length_le (hp2 ▸ (hK p hp).2),hp2]
    rw [hreg]
    by_cases hlt : inx < s.lisFmodcnt
    · exact holds_enter hu (hlt.trans_eq hcnt.symm) hkeep strtab false
    · have heq : inx = u.lisFmodcnt := by omega
      by_cases hm : inx = MAX_STRMOD
      · rw [enter,if_pos ⟨heq,hm⟩]
        exact hu
      · have hne : u.lisFmodcnt ≠ MAX_STRMOD := heq ▸ hm
        have hgrow : u.view.grow.Holds K := hu.grow (lt_of_le_of_ne hu.le hne)
        rw [heq,enter_next hne]
        exact (hgrow.use _).put (.inl (Nat.lt_succ_self _)) (heq ▸ hkeep)

theorem holds_register {strtab : Option ℕ} {name : Option Name} {intr1 intr2 : Bool} {r : ℤ × Registry}
    (h : s.view.Holds K) (hK : Short K) (hr : s.lisRegisterStrmod strtab name intr1 intr2 = some r) :
    r.2.view.Holds K := by
  cases name with
  | none =>
    obtain rfl := Option.some.inj hr
    exact h
  | some n =>
    obtain ⟨q,hq,hr⟩ := Option.bind_eq_some_iff.mp hr
    obtain ⟨l,-,hv,-⟩ := findmodStrtab_view h.le hq
    have hqh : q.2.view.Holds K := hv ▸ h.use l
    split_ifs at hr
    · obtain rfl := Option.some.inj hr
      exact hqh
    · obtain ⟨d,hd,rfl⟩ := Option.map_eq_some_iff.mp hr
      have hdh := holds_downReg hqh hd
      split_ifs
      · exact hdh
      · exact holds_registerName hdh hK strtab n

/-! ### Loading -/

theorem holds_loadSlot {intr : Bool} {r : ℤ × Registry} (h : s.view.Holds K) (hr : s.loadSlot id intr = some r) :
    r.2.view.Holds K := by
  obtain ⟨l,m,-,-,hv⟩ := loadSlot_names hr
  rw [hv]
  exact ⟨h.pos,h.le,h.high,h.held⟩

/- `lis_findmod` finds no slot, or one with the name, possibly behind the table. -/
theorem findmod_find (h : s.view.Holds K) (n : Name) : ∃ l, (s.lisFindmod (some n)).2 = { s with used := s.used ++ l } ∧
    (n = [] ∨ s.lisFmodcnt < MAX_STRMOD → ∀ i ∈ l, i < MAX_STRMOD) ∧
    ((s.lisFindmod (some n)).1 = 0 ∨ (0 < (s.lisFindmod (some n)).1 ∧
      (s.sw (s.lisFindmod (some n)).1).fName = n ∧ (s.lisFindmod (some n)).1 ≤ s.lisFmodcnt ∧
      ((s.lisFindmod (some n)).1 < s.lisFmodcnt ∨ MAX_STRMOD ≤ (s.lisFindmod (some n)).1))) := by
  cases n with
  | nil =>
    refine ⟨[],?_,by simp,.inl rfl⟩
    rw [List.append_nil]
    rfl
  | cons a n =>
    refine ⟨visited (fun i => (s.sw i).fName == a :: n) (List.range' 1 s.lisFmodcnt).reverse,rfl,?_,?_⟩
    · intro hc i hi
      exact (mem_countdown (visited_mem hi)).2.trans_lt (hc.resolve_left (List.cons_ne_nil a n))
    · simp only [lisFindmod,search]
      cases hf : (List.range' 1 s.lisFmodcnt).reverse.find? fun i => (s.sw i).fName == a :: n with
      | none => exact .inl rfl
      | some id =>
        have hname : (s.sw id).fName = a :: n := by simpa using List.find?_some hf
        obtain ⟨h0,hle⟩ := mem_countdown (List.mem_of_find?_eq_some hf)
        refine .inr ⟨h0,hname,hle,?_⟩
        by_contra hge
        obtain ⟨hge,hlt⟩ := not_or.mp hge
        have hempty : (s.sw id).fName = [] := h.high id (Nat.not_lt.mp hge) (Nat.not_le.mp hlt)
        rw [hname] at hempty
        cases hempty

/- The slot has the name, or what is kept of it. -/
structure Named (s : Registry) (id : ℕ) (n : Name) : Prop where
  pos : 0 < id
  name : (s.sw id).fName = n ∨ (s.sw id).fName = n.take LIS_NAMESZ

/- `lis_loadmod` after `lis_findmod` and the wait for `lis_mod_reg`: it ends, or goes on with a slot. -/
structure Found (s : Registry) (K : List (ℕ × Name)) (n : Name) (intrSem : Bool) (r : ℤ × Registry) (d : Registry) :
    Prop where
  holds : d.view.Holds K
  within : s.view.Within → n = [] ∨ s.lisFmodcnt < MAX_STRMOD → d.view.Within
  loads : d.loads = s.loads
  slot : r = (0,d) ∨ ∃ id, Named d id n ∧ (s.lisFmodcnt < MAX_STRMOD ∨ n = [] → id < d.lisFmodcnt) ∧
    d.loadSlot id intrSem = some r

theorem loadmod_found {intr intrSem : Bool} {r : ℤ × Registry} (h : s.view.Holds K) (hK : Short K)
    (hr : s.lisLoadmod n intr intrSem = some r) : ∃ d, Found s K n intrSem r d := by
  obtain ⟨d,hd,hr⟩ := Option.bind_eq_some_iff.mp hr
  obtain ⟨l,hm,hl,hfound⟩ := findmod_find h n
  have hdv : d.2.view = s.view.use l := (view_downReg hd).trans (congrArg view hm)
  have hdh : d.2.view.Holds K := hdv ▸ h.use l
  have hdw : s.view.Within → n = [] ∨ s.lisFmodcnt < MAX_STRMOD → d.2.view.Within := fun hu hc =>
    hdv ▸ Names.within_use.mpr ⟨hu,hl hc⟩
  have hdl : d.2.loads = s.loads := congrArg Names.loads hdv
  have hcnt : d.2.lisFmodcnt = s.lisFmodcnt := congrArg Names.cnt hdv
  split_ifs at hr with h1 h2
  · obtain rfl := Option.some.inj hr
    exact ⟨d.2,hdh,hdw,hdl,.inl rfl⟩
  · have he := findEmpty_spare hdh hK n
    have hw : s.view.Within → n = [] ∨ s.lisFmodcnt < MAX_STRMOD → (d.2.findEmptyModIndex n).2.view.Within := by
      intro hu hc
      exact he.within (hdw hu hc)
    dsimp only at hr
    split_ifs at hr with h3
    · obtain rfl := Option.some.inj hr
      exact ⟨(d.2.findEmptyModIndex n).2.upReg,he.holds,hw,he.loads.trans hdl,.inl rfl⟩
    · refine ⟨_,he.holds,hw,he.loads.trans hdl,.inr ⟨_,⟨Nat.pos_of_ne_zero h3,.inr (he.name h3)⟩,?_,hr⟩⟩
      intro _
      exact he.lt
  · obtain ⟨h0,hname,hle,hlt⟩ := hfound.resolve_left h2
    dsimp only at hr
    rw [if_neg h2] at hr
    refine ⟨d.2,hdh,hdw,hdl,.inr ⟨_,⟨h0,.inl ?_⟩,?_,hr⟩⟩
    · exact (congrFun (congrArg Names.name hdv) _).trans hname
    · intro hc
      rw [hcnt]
      rcases hc with hc | rfl
      · omega
      · exact absurd rfl h2

theorem holds_loadmod {intr intrSem : Bool} {r : ℤ × Registry} (h : s.view.Holds K) (hK : Short K)
    (hr : s.lisLoadmod n intr intrSem = some r) : r.2.view.Holds K := by
  obtain ⟨d,hf⟩ := loadmod_found h hK hr
  rcases hf.slot with rfl | ⟨id,-,-,hr⟩
  · exact hf.holds
  · exact holds_loadSlot hf.holds hr

theorem loadmod_interrupted {intrSem : Bool} : s.lisLoadmod n true intrSem = some (0,(s.lisFindmod (some n)).2) := rfl

/- A slot of the table that has the name. -/
structure Slot (s : Registry) (id : ℕ) (n : Name) : Prop where
  pos : 0 < id
  lt : id < s.lisFmodcnt
  name : (s.sw id).fName = n

/- How `lis_loadmod` comes to `request_module`, or ends before it: without a slot, with the slot that has the name, or
waiting for that slot. -/
structure Asked (s : Registry) (n : Name) (r : ℤ × Registry) : Prop where
  within : r.2.view.Within
  answer : (r.2.loads = s.loads ∧ (r.1 = 0 ∨ ∃ id : ℕ, r.1 = id ∧ Slot r.2 id n)) ∨
    ∃ id, r.2.loads = s.loads ++ [id] ∧ Slot r.2 id n

theorem loadSlot_answer {intr : Bool} {r : ℤ × Registry} (hr : s.loadSlot id intr = some r) :
    (r.2.loads = s.loads ∧ (r.1 = 0 ∨ r.1 = id)) ∨ r.2.loads = s.loads ++ [id] := by
  obtain ⟨d,hd,rfl⟩ := Option.map_eq_some_iff.mp hr
  have hl : d.2.loads = s.loads := congrArg Names.loads (view_downSem hd)
  dsimp only
  split_ifs
  · exact .inl ⟨hl,.inl rfl⟩
  · exact .inl ⟨hl,.inr rfl⟩
  · exact .inr (congrArg (· ++ [id]) hl)
  · exact .inl ⟨hl,.inl rfl⟩
  · exact .inl ⟨hl,.inr rfl⟩

/- A name that fits into a slot, and a table that is not full. -/
theorem loadmod_asked {intr intrSem : Bool} {r : ℤ × Registry} (h : s.view.Holds K) (hK : Short K)
    (hu : s.view.Within) (hlen : n.length ≤ LIS_NAMESZ) (hc : n = [] ∨ s.lisFmodcnt < MAX_STRMOD)
    (hr : s.lisLoadmod n intr intrSem = some r) : Asked s n r := by
  obtain ⟨d,hf⟩ := loadmod_found h hK hr
  have hdw := hf.within hu hc
  rcases hf.slot with rfl | ⟨id,hid,hlt,hr⟩
  · exact ⟨hdw,.inl ⟨hf.loads,.inl rfl⟩⟩
  · obtain ⟨l,m,hl,-,hv⟩ := loadSlot_names hr
    have hname : (d.sw id).fName = n := by
      have hn := hid.name
      rwa [List.take_of_length_le hlen,or_self] at hn
    have hslot : Slot r.2 id n := by
      refine ⟨hid.pos,?_,?_⟩
      · exact (hlt hc.symm).trans_eq (congrArg Names.cnt hv).symm
      · exact (congrFun (congrArg Names.name hv) id).trans hname
    refine ⟨?_,?_⟩
    · rw [hv]
      apply Names.within_use.mpr
      refine ⟨hdw,?_⟩
      intro i hi
      rw [hl i hi]
      exact (hlt hc.symm).trans_le hf.holds.le
    · rw [← hf.loads]
      rcases loadSlot_answer hr with ⟨h1,h2⟩ | h1
      · exact .inl ⟨h1,h2.imp_right fun h2 => ⟨id,h2,hslot⟩⟩
      · exact .inr ⟨id,h1,hslot⟩

/- A load that fails takes the name from its slot. -/
def Spares (s : Registry) (K : List (ℕ × Name)) (k : ℕ) (ok : Bool) : Prop :=
  ∀ id ∈ s.loads[k]?, (ok = true ∧ (s.sw id).fStr ≠ none) ∨ ∀ p ∈ K, p.1 ≠ id

theorem holds_loadDone {ok : Bool} {r : ℤ × Registry} (h : s.view.Holds K) (hsp : s.Spares K k ok)
    (hr : s.loadDone k ok = some r) : r.2.view.Holds K := by
  obtain ⟨id,hk,rfl⟩ := Option.map_eq_some_iff.mp hr
  have hv : ({ s.view with loads := s.loads.eraseIdx k } : Names).Holds K := ⟨h.pos,h.le,h.high,h.held⟩
  dsimp only
  split_ifs with hfail
  · rw [view_deinit]
    apply (hv.use [id]).put (.inr rfl)
    intro p hp hc
    rcases hsp id hk with ⟨hok,hstr⟩ | hother
    · simp [hok,Option.isNone_iff_eq_none,hstr] at hfail
    · exact absurd hc (hother p hp)
  · exact holds_setSlot (s := { s with loads := s.loads.eraseIdx k, used := s.used ++ [id] }) (hv.use [id]) rfl

/- The end of a load answers with the slot, whose name stays, or with nothing. -/
theorem loadDone_answer {ok : Bool} {r : ℤ × Registry} (hu : s.view.Within) (hid : id < MAX_STRMOD)
    (hk : s.loads[k]? = some id) (hr : s.loadDone k ok = some r) : r.2.view.Within ∧
      (r.1 = 0 ∨ (r.1 = id ∧ (r.2.sw id).fName = (s.sw id).fName ∧ r.2.lisFmodcnt = s.lisFmodcnt)) := by
  obtain ⟨j,hj,rfl⟩ := Option.map_eq_some_iff.mp hr
  obtain rfl := Option.some.inj (hk.symm.trans hj)
  have huse : ∀ l, (∀ i ∈ l, i = id) → (s.view.use l).Within := by
    intro l hl
    apply Names.within_use.mpr
    refine ⟨hu,?_⟩
    intro i hi
    rw [hl i hi]
    exact hid
  dsimp only
  split_ifs
  · refine ⟨?_,.inl rfl⟩
    rw [view_deinit]
    exact Names.within_put.mpr ⟨huse [id] (by simp),hid⟩
  · refine ⟨?_,.inr ⟨rfl,?_,rfl⟩⟩
    · intro i hi
      apply huse [id,id] (by simp) i
      simpa [view,setSlot,Names.use] using hi
    · simp [setSlot]

/-! ### The other calls -/

theorem holds_initMod (h : s.view.Holds K) (i id : ℕ) (loadable : Bool) : (s.initMod i id loadable).view.Holds K := by
  have h1 : (s.setSlot i { s.sw i with fState := 0 }).view.Holds K := holds_setSlot h rfl
  exact holds_setSlot h1 rfl

theorem holds_pushMod {idname : Option Name} {pushed : Pushed} {r : ℤ × Registry} (h : s.view.Holds K)
    (hr : s.pushMod k id idname pushed = some r) : r.2.view.Holds K := by
  obtain ⟨hd,-,rfl⟩ := Option.map_eq_some_iff.mp hr
  have h1 := h.use [id]
  cases pushed with
  | failed => exact h1
  | unsynced => exact h1
  | done =>
    exact holds_setSlot (s := { s with used := s.used ++ [id] }) (f := { s.sw id with fCount := (s.sw id).fCount + 1 })
      h1 rfl

theorem holds_autopush {idname : Option Name} {intr : Bool} {pushed : Pushed} {r : ℤ × Registry} (h : s.view.Holds K)
    (hr : s.autopush k id idname intr pushed = some r) : r.2.view.Holds K := by
  obtain ⟨d,hd,hr⟩ := Option.bind_eq_some_iff.mp hr
  have hdh := holds_downSem h hd
  split_ifs at hr
  · obtain rfl := Option.some.inj hr
    exact hdh
  · obtain ⟨q,hq,rfl⟩ := Option.map_eq_some_iff.mp hr
    have hqh := holds_pushMod hdh hq
    split_ifs
    · exact hqh
    · exact holds_upSem hqh id

theorem holds_lisFindmod (h : s.view.Holds K) (name : Option Name) : (s.lisFindmod name).2.view.Holds K := by
  rcases name with _ | _ | _
  · exact h
  · exact h
  · exact h.use _

theorem holds_popMod {detached : Bool} {r : ℤ × Registry} (h : s.view.Holds K) (hr : s.popMod k detached = some r) :
    r.2.view.Holds K := by
  obtain ⟨hd,-,hr⟩ := Option.bind_eq_some_iff.mp hr
  by_cases hp : hd.sdPushcnt = 0
  · rw [if_pos hp] at hr
    obtain rfl := Option.some.inj hr
    exact h
  rw [if_neg hp] at hr
  cases hs : hd.stack with
  | nil =>
    rw [hs] at hr
    cases hr
  | cons mod below =>
    rw [hs] at hr
    dsimp only at hr
    split_ifs at hr with hid hpos hdet hdet
    · obtain rfl := Option.some.inj hr
      exact h
    all_goals
      obtain rfl := Option.some.inj hr
      have hm := holds_lisFindmod (s := { s with streams := s.streams.set k ⟨mod :: below,hd.sdPushcnt - 1⟩ }) h mod.idname
      first
        | exact hm
        | exact holds_setSlot hm rfl

theorem holds_unregisterModule {intr : Bool} {r : ℤ × Registry} (h : s.view.Holds K)
    (hr : s.unregisterModule id intr = some r) (hother : ∀ p ∈ K, p.1 ≠ id) : r.2.view.Holds K := by
  obtain ⟨l,-,hv | hv⟩ := unregisterModule_names hr
  · rw [hv]
    exact h.use l
  · rw [hv]
    apply (h.use l).put (.inr rfl)
    intro p hp hc
    exact absurd hc (hother p hp)

/- `unregister_module` does not come to the name of the slot. -/
theorem holds_unregister_failed {intr : Bool} {r : ℤ × Registry} (h : s.view.Holds K)
    (hr : s.unregisterModule id intr = some r) (hf : ¬ (r.1 = 0 ∧ (s.sw id).inited = true)) : r.2.view.Holds K := by
  rw [unregisterModule] at hr
  cases hin : (s.sw id).inited with
  | false =>
    rw [hin] at hr
    obtain rfl := Option.some.inj hr
    exact h
  | true =>
    simp only [hin,Bool.not_true,Bool.false_eq_true,if_false] at hr
    by_cases hcount : (s.sw id).fCount ≠ 0
    · rw [if_pos hcount] at hr
      obtain rfl := Option.some.inj hr
      exact h
    · rw [if_neg hcount] at hr
      obtain ⟨d,hd,rfl⟩ := Option.map_eq_some_iff.mp hr
      have hdh := holds_downSem h hd
      rw [hin] at hf
      split_ifs at hf ⊢
      · exact hdh
      · exact absurd ⟨rfl,rfl⟩ hf
      · exact holds_upSem hdh id
      · exact absurd ⟨rfl,rfl⟩ hf
      · exact absurd ⟨rfl,rfl⟩ hf

/- A load that ends does not take a name of `K`. -/
def Kind (K : List (ℕ × Name)) (s : Registry) : Act → Prop
  | .loadDone k ok => s.Spares K k ok
  | _ => True

theorem holds_step {x : Act} (h : s.view.Holds K) (hK : Short K) (hx : Kind K s x)
    (hun : ∀ strtab intr intrSem, x ≠ .unregister strtab intr intrSem) (ht : s.step x = some t) : t.view.Holds K := by
  obtain ⟨r,hr,rfl⟩ := Option.map_eq_some_iff.mp ht
  have h0 : ({ s with used := [] } : Registry).view.Holds K := ⟨h.pos,h.le,h.high,h.held⟩
  suffices hs : r.2.view.Holds K from ⟨hs.pos,hs.le,hs.high,hs.held⟩
  cases x with
  | register strtab name intr1 intr2 => exact holds_register h0 hK hr
  | unregister strtab intr intrSem => exact absurd rfl (hun strtab intr intrSem)
  | findmod name =>
    obtain rfl := Option.some.inj hr
    exact holds_lisFindmod h0 name
  | findmodStrtab strtab intr =>
    obtain ⟨l,-,hv,-⟩ := findmodStrtab_view (s := { s with used := [] }) h0.le hr
    rw [hv]
    exact h0.use l
  | loadmod n intr intrSem => exact holds_loadmod h0 hK hr
  | loadDone k ok => exact holds_loadDone h0 hx hr
  | initMod i modid loadable =>
    simp only [call] at hr
    split_ifs at hr
    obtain rfl := Option.some.inj hr
    exact holds_initMod h0 i modid loadable
  | openStream =>
    obtain rfl := Option.some.inj hr
    exact h0
  | push k id idname pushed =>
    simp only [call] at hr
    split_ifs at hr
    exact holds_pushMod h0 hr
  | autopush k id idname intr pushed =>
    simp only [call] at hr
    split_ifs at hr
    exact holds_autopush h0 hr
  | pop k detached => exact holds_popMod h0 hr

end Registry

end CSLiS.Mod
