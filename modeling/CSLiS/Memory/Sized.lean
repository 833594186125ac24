import CSLiS.Memory.Malloc

/-!
# The sizes of the areas

Every area fits into the memory that its allocator was asked for, as long as no size overflows, and goes back there.
-/

namespace CSLiS.Memory
open Lib Lib.Exec

variable {s t : Mem} {r r' : Region} {nbytes z : ℤ} {fuel order o p : ℕ} {inuse : List (ℕ × ℕ)}

/-! ### Ints -/

theorem toInt_fits (h1 : -2 ^ 31 ≤ z) (h2 : z < 2 ^ 31) : toInt z = z :=
  Int.bmod_eq_of_le (by omega) (by omega)

theorem toInt_over (h1 : 2 ^ 31 ≤ z) (h2 : z < 2 ^ 32) : toInt z = z - 2 ^ 32 := by
  rw [toInt,Int.bmod_def]
  split_ifs <;> omega

section Sizes

variable (h0 : 0 ≤ nbytes)
include h0

theorem abytes_eq (h : need nbytes < 2 ^ 31) : abytes nbytes = (nbytes + 15) / 16 * 16 := by
  rw [need,linkSpace,word] at h
  rw [abytes,toInt_fits (by omega) (by omega)]

theorem tbytes_eq (h : need nbytes < 2 ^ 31) : tbytes nbytes = need nbytes := by
  rw [tbytes,abytes_eq h0 h,need,toInt_fits]
  · rw [linkSpace,word]
    omega
  · exact h

/- The size becomes negative. -/
theorem tbytes_over (h : 2 ^ 31 ≤ need nbytes) (hn : nbytes < 2 ^ 31) : tbytes nbytes < 0 := by
  rw [need,linkSpace,word] at h
  rw [tbytes,abytes,linkSpace,word]
  by_cases hc : nbytes + 15 < 2 ^ 31
  · rw [toInt_fits (z := nbytes + 15) (by omega) hc,toInt_over (by omega) (by omega)]
    omega
  · rw [toInt_over (z := nbytes + 15) (by omega) (by omega),toInt_fits (by omega) (by omega)]
    omega

/- The guard word is not on the page of the header. -/
theorem abytes_over (h : 2 ^ 31 ≤ need nbytes) (hn : nbytes < 2 ^ 31) :
    abytes nbytes < - linkSpace ∨ 2 ^ 30 < abytes nbytes := by
  rw [need,linkSpace,word] at h
  rw [abytes,linkSpace]
  by_cases hc : nbytes + 15 < 2 ^ 31
  · rw [toInt_fits (by omega) hc]
    omega
  · rw [toInt_over (by omega) (by omega)]
    omega

end Sizes

theorem big_of_neg (h : z < 0) (h' : -2 ^ 31 ≤ z) : big z = true := by
  rw [big,decide_eq_true_eq,maxKmallocSize,linkSpace,word]
  omega

theorem big_iff (h : 0 ≤ z) (h' : z < 2 ^ 31) : big z = true ↔ maxKmallocSize < z := by
  rw [big,decide_eq_true_eq,Int.emod_eq_of_lt h (by omega)]

/-! ### The regions -/

theorem Region.addr_le_base (r : Region) : r.addr ≤ r.base := by
  rw [Region.base]
  cases r.src <;> simp

instance : Std.Symm Region.Apart := ⟨fun _ _ h => h.symm⟩

namespace Mem

/- No other region has an address of a region. -/
theorem Kept.eq_of_inside (hk : s.Kept) (hr : r ∈ s.regions) (hr' : r' ∈ s.regions) (h1 : r.addr ≤ p)
    (h2 : p < r.addr + r.len) (h1' : r'.addr ≤ p) (h2' : p < r'.addr + r'.len) : r' = r := by
  by_contra hne
  rcases hk.apart.forall hr' hr hne with h | h <;> omega

theorem Kept.covers_iff (hk : s.Kept) (hr : r ∈ s.regions) (h1 : r.addr ≤ p) (h2 : p < r.addr + r.len) {lo hi : ℤ} :
    s.Covers p lo hi ↔ (r.addr : ℤ) ≤ lo ∧ hi ≤ r.addr + r.len := by
  constructor
  · rintro ⟨r',hr',h1',h2',h⟩
    rw [hk.eq_of_inside hr hr' h1 h2 h1' h2'] at h
    exact h
  · exact fun h => ⟨r,hr,h1,h2,h⟩

/- The region was got from the allocator that `lis_free` will choose. -/
def Right (s : Mem) (r : Region) : Prop :=
  match r.src with
  | .pages _ => big (s.size r.base) = true
  | .kmalloc => big (s.size r.base) = false ∧ s.slabPtr r.addr = none
  | .slab i => big (s.size r.base) = false ∧ s.slabPtr r.addr = some i

/- What holds whatever the sizes are, and what they do not spoil as long as no guard word is written outside. -/
structure Inv (s : Mem) : Prop where
  kept : s.Kept
  bases : s.regions.map Region.base = s.areas.map Prod.fst
  header : ∀ r ∈ s.regions, r.base + linkSpace ≤ r.addr + r.len
  table : s.table.Maps (s.regions.filterMap Region.area)
  right : ∀ r ∈ s.regions, s.Right r
  fits : s.wild = false → ∀ r ∈ s.regions, (r.base : ℤ) + s.size r.base + linkSpace + word ≤ r.addr + r.len
  sizes : s.wild = false → ∀ a ∈ s.areas, 0 ≤ a.2 ∧ a.2 ≤ s.size a.1
  alloced : s.memAlloced = (s.areas.map fun a => s.size a.1).sum
  list : Ring s.next s.prev 0 (s.areas.map Prod.fst)
  stray : s.stray = false

theorem Inv.sound_iff (hi : Inv s) : Sound s ↔ s.hung = false ∧ s.wild = false := by
  refine ⟨fun h => ⟨h.returns,h.guarded⟩,fun h => ?_⟩
  refine ⟨h.1,h.2,fun a ha => ?_,⟨hi.stray,hi.bases⟩,hi.alloced,hi.list⟩
  obtain ⟨h0,hsize⟩ := hi.sizes h.2 a ha
  have hmem : a.1 ∈ s.regions.map Region.base := hi.bases ▸ List.mem_map_of_mem ha
  obtain ⟨r,hr,hbase⟩ := List.mem_map.mp hmem
  have hfit := hi.fits h.2 r hr
  have hhead := hi.header r hr
  have hle := r.addr_le_base
  rw [hbase] at hfit hhead hle
  have hin : a.1 < r.addr + r.len := by
    rw [linkSpace] at hhead
    omega
  rw [hi.kept.covers_iff hr hle hin,hi.kept.covers_iff hr hle hin,guardWord]
  exact ⟨hsize,⟨by omega,by omega⟩,by omega,by omega⟩

theorem inv_init (made : ℕ → Bool) : Inv (init made) :=
  ⟨⟨List.Pairwise.nil,by simp [init],by simp [init],List.nodup_nil⟩,rfl,by simp [init],Table.Maps.empty,by simp [init],
    by simp [init],by simp [init],rfl,Ring.anchor rfl rfl,rfl⟩

/-! ### An area is given -/

/- What an allocator does that gives the region: only its own records change. -/
structure Gives (s t : Mem) (r : Region) : Prop where
  rest : t = { s with table := t.table, regions := s.regions ++ [r], slabPtr := t.slabPtr }
  slab : ∀ a, a ≠ r.addr → t.slabPtr a = s.slabPtr a

theorem Inv.bases_nodup (hi : Inv s) : (s.regions.map Region.base).Nodup := by
  rw [hi.bases]
  exact (List.nodup_cons.mp hi.list.nodup).2

theorem Inv.base_mem (hi : Inv s) (hr : r ∈ s.regions) : r.base < r.addr + r.len := by
  have := hi.header r hr
  rw [linkSpace] at this
  omega

theorem Gives.regions (hg : Gives s t r) : t.regions = s.regions ++ [r] := congrArg Mem.regions hg.rest

section Add

variable (hi : Inv s) (hg : Gives s t r) (hk : t.Kept) (hhead : r.base + linkSpace ≤ r.addr + r.len)
include hi hg hk hhead

/- The region is none of the others. -/
theorem Inv.other (hr' : r' ∈ s.regions) : r'.base ≠ r.base ∧ r'.addr ≠ r.addr := by
  have hap := hk.apart
  rw [hg.regions] at hap
  have h1 := (List.pairwise_append.mp hap).2.2 r' hr' r (List.mem_singleton_self _)
  have h2 := hi.header r' hr'
  have h3 := r.addr_le_base
  have h4 := r'.addr_le_base
  rw [linkSpace] at h2 hhead
  rcases h1 with h1 | h1 <;> omega

theorem Inv.base_new : r.base ∉ 0 :: s.areas.map Prod.fst := by
  rw [← hi.bases]
  intro hc
  rcases List.mem_cons.mp hc with h0 | hc
  · have hr := hk.real r (by rw [hg.regions]; exact List.mem_append_right _ (List.mem_singleton_self _))
    have := r.addr_le_base
    omega
  · obtain ⟨r',hr',he⟩ := List.mem_map.mp hc
    exact (hi.other hg hk hhead hr').1 he

/- The new area is the last one of the list. -/
theorem Inv.enlist_list (z : ℤ) :
    Ring (t.enlist r.base z).next (t.enlist r.base z).prev 0 (s.areas.map Prod.fst ++ [r.base]) := by
  have hnew := hi.base_new hg hk hhead
  have hring : Ring s.next s.prev 0 (s.areas.map Prod.fst ++ []) := by rw [List.append_nil]; exact hi.list
  have hlast : (s.prev 0).getD 0 = (s.areas.map Prod.fst).getLast?.getD 0 := by
    rw [show s.prev 0 = _ from hring.prev_of_split]
    rfl
  have hne : r.base ≠ (s.areas.map Prod.fst).getLast?.getD 0 := fun hc => hnew (hc ▸ Ring.last_mem 0 _)
  have h0 : r.base ≠ 0 := fun hc => hnew (hc ▸ List.mem_cons_self ..)
  have hnext : (t.enlist r.base z).next =
      Function.update (Function.update s.next r.base (some 0)) ((s.areas.map Prod.fst).getLast?.getD 0)
        (some r.base) := by
    rw [← hlast,hg.rest]
    rfl
  have hprev : (t.enlist r.base z).prev =
      Function.update (Function.update s.prev r.base (some ((s.areas.map Prod.fst).getLast?.getD 0))) 0
        (some r.base) := by
    rw [← hlast,hg.rest]
    rfl
  rw [hnext,hprev]
  refine Ring.insert (by rw [List.append_nil]; exact hnew) hring ?_ ?_ ?_ ?_ (fun x hx hxl => ?_) fun x hx hx0 => ?_
  · rw [Function.update_of_ne hne,Function.update_self]
    rfl
  · rw [Function.update_of_ne h0,Function.update_self]
  · exact Function.update_self ..
  · exact Function.update_self ..
  · rw [List.append_nil] at hx
    have hxb : x ≠ r.base := fun hc => hnew (hc ▸ hx)
    rw [Function.update_of_ne hxl,Function.update_of_ne hxb]
  · rw [List.append_nil] at hx
    have hxb : x ≠ r.base := fun hc => hnew (hc ▸ hx)
    rw [Function.update_of_ne (show x ≠ 0 from hx0),Function.update_of_ne hxb]

omit hi in
theorem Gives.enlist_wild (z : ℤ) : (t.enlist r.base z).wild = false ↔
    s.wild = false ∧ (r.addr : ℤ) ≤ r.base + z + linkSpace ∧ (r.base : ℤ) + z + linkSpace + word ≤ r.addr + r.len := by
  have hmem : r ∈ t.regions := by
    rw [hg.regions]
    exact List.mem_append_right _ (List.mem_singleton_self _)
  have hin : r.base < r.addr + r.len := by
    rw [linkSpace] at hhead
    omega
  have hcov : t.Covers r.base (r.base + z + linkSpace) (r.base + z + linkSpace + word) ↔ _ :=
    hk.covers_iff hmem r.addr_le_base hin
  have hw : t.wild = s.wild := by rw [hg.rest]
  rw [← hcov,← hw]
  simp only [Mem.enlist,guardWord,Function.update_self,Bool.or_eq_false_iff,Bool.not_eq_false',decide_eq_true_eq]
  exact Iff.rfl

/- `lis_malloc` has got the region. -/
theorem Inv.add (h0 : 0 ≤ nbytes) (hmaps : t.table.Maps (t.regions.filterMap Region.area))
    (hr : (t.enlist r.base (abytes nbytes)).Right r)
    (hsize : (t.enlist r.base (abytes nbytes)).wild = false → nbytes ≤ abytes nbytes) :
    Inv { t.enlist r.base (abytes nbytes) with areas := t.areas ++ [(r.base,nbytes)] } := by
  have hareas : t.areas = s.areas := by rw [hg.rest]
  have hnew := hi.base_new hg hk hhead
  have hsz : (t.enlist r.base (abytes nbytes)).size = Function.update s.size r.base (abytes nbytes) := by
    rw [hg.rest]
    rfl
  have hall : (t.enlist r.base (abytes nbytes)).memAlloced = s.memAlloced + abytes nbytes := by
    rw [hg.rest]
    rfl
  have hstray : t.stray = s.stray := by rw [hg.rest]
  have hold (r' : Region) (hr' : r' ∈ s.regions) :
      Function.update s.size r.base (abytes nbytes) r'.base = s.size r'.base :=
    Function.update_of_ne (hi.other hg hk hhead hr').1 ..
  have hareaOld (a : ℕ × ℤ) (ha : a ∈ s.areas) : Function.update s.size r.base (abytes nbytes) a.1 = s.size a.1 := by
    refine Function.update_of_ne (fun hc => hnew ?_) ..
    rw [← hc]
    exact List.mem_cons_of_mem _ (List.mem_map_of_mem ha)
  have hwild := hg.enlist_wild hk hhead (abytes nbytes)
  refine ⟨⟨hk.apart,hk.real,hk.aligned,hk.pages⟩,?_,fun r' hr' => ?_,hmaps,fun r' hr' => ?_,fun hw r' hr' => ?_,
    fun hw a ha => ?_,?_,?_,hstray.trans hi.stray⟩
  · change t.regions.map Region.base = (t.areas ++ [(r.base,nbytes)]).map Prod.fst
    rw [hg.regions,hareas,List.map_append,List.map_append,hi.bases]
    rfl
  · have hr' : r' ∈ t.regions := hr'
    rw [hg.regions] at hr'
    rcases List.mem_append.mp hr' with hr' | hr'
    · exact hi.header r' hr'
    · rw [List.mem_singleton.mp hr']
      exact hhead
  · have hr' : r' ∈ t.regions := hr'
    rw [hg.regions] at hr'
    rcases List.mem_append.mp hr' with hr' | hr'
    · have h1 := hi.right r' hr'
      have h2 : t.slabPtr r'.addr = s.slabPtr r'.addr := hg.slab _ (hi.other hg hk hhead hr').2
      have h3 : (t.enlist r.base (abytes nbytes)).size r'.base = s.size r'.base := by rw [hsz]; exact hold r' hr'
      rw [Right] at h1 ⊢
      rw [← h2,← h3] at h1
      exact h1
    · rw [List.mem_singleton.mp hr']
      exact hr
  · obtain ⟨hws,-,hfit⟩ := hwild.mp hw
    change (r'.base : ℤ) + (t.enlist r.base (abytes nbytes)).size r'.base + linkSpace + word ≤ _
    have hr' : r' ∈ t.regions := hr'
    rw [hg.regions] at hr'
    rw [hsz]
    rcases List.mem_append.mp hr' with hr' | hr'
    · rw [hold r' hr']
      exact hi.fits hws r' hr'
    · rw [List.mem_singleton.mp hr',Function.update_self]
      exact hfit
  · change 0 ≤ a.2 ∧ a.2 ≤ (t.enlist r.base (abytes nbytes)).size a.1
    have ha : a ∈ t.areas ++ [(r.base,nbytes)] := ha
    rw [hareas] at ha
    rw [hsz]
    rcases List.mem_append.mp ha with ha | ha
    · rw [hareaOld a ha]
      exact hi.sizes (hwild.mp hw).1 a ha
    · rw [List.mem_singleton.mp ha,Function.update_self]
      exact ⟨h0,hsize hw⟩
  · change (t.enlist r.base (abytes nbytes)).memAlloced =
      ((t.areas ++ [(r.base,nbytes)]).map fun a => (t.enlist r.base (abytes nbytes)).size a.1).sum
    rw [hall,hsz,hareas,List.map_append,List.sum_append,hi.alloced,List.map_congr_left hareaOld]
    simp
  · change Ring (t.enlist r.base (abytes nbytes)).next (t.enlist r.base (abytes nbytes)).prev 0
      ((t.areas ++ [(r.base,nbytes)]).map Prod.fst)
    rw [hareas,List.map_append]
    exact hi.enlist_list hg hk hhead _

end Add

/-! ### The allocators -/

variable {cls : Class} {useCache : Bool} {tbl mem res : Option ℕ}

theorem gives_give (s : Mem) (r : Region) (cp : Option ℕ) :
    Gives s { s.give r with slabPtr := Function.update s.slabPtr r.addr cp } r :=
  ⟨rfl,fun _ ha => Function.update_of_ne ha ..⟩

theorem lisKmalloc_spec (h0 : 0 ≤ z) (hz : z < 2 ^ 30) (h : s.lisKmalloc z cls useCache mem = (res,t)) :
    (res = none ∧ t = s) ∨ ∃ r, res = some r.base ∧ Gives s t r ∧ t.table = s.table ∧
      (r.base : ℤ) + z ≤ r.addr + r.len ∧
      ((r.src = .kmalloc ∧ t.slabPtr r.addr = none) ∨ ∃ i, r.src = .slab i ∧ t.slabPtr r.addr = some i) := by
  have hn : toInt (z + hdrSpace) = z + hdrSpace := toInt_fits (by rw [hdrSpace]; omega) (by rw [hdrSpace]; omega)
  simp only [lisKmalloc,hn] at h
  split_ifs at h with hc
  · cases mem with
    | none =>
      obtain ⟨rfl,rfl⟩ := Prod.mk.inj h
      exact Or.inl ⟨rfl,rfl⟩
    | some a =>
      obtain ⟨rfl,rfl⟩ := Prod.mk.inj h
      refine Or.inr ⟨⟨a,(z + hdrSpace).toNat,.kmalloc⟩,rfl,gives_give ..,rfl,?_,Or.inl ⟨rfl,Function.update_self ..⟩⟩
      simp only [Region.base,hdrSpace]
      omega
  · cases hf : lisSlabTable.zipIdx.find? fun tp => decide (tp.1.2 = cls ∧ s.made tp.2 ∧ z + hdrSpace ≤ tp.1.1) with
    | none =>
      rw [hf] at h
      obtain ⟨rfl,rfl⟩ := Prod.mk.inj h
      exact Or.inl ⟨rfl,rfl⟩
    | some tp =>
      rw [hf] at h
      have hp := List.find?_some hf
      have hfit := (decide_eq_true_eq.mp hp).2.2
      cases mem with
      | none =>
        obtain ⟨rfl,rfl⟩ := Prod.mk.inj h
        exact Or.inl ⟨rfl,rfl⟩
      | some a =>
        obtain ⟨rfl,rfl⟩ := Prod.mk.inj h
        refine Or.inr ⟨⟨a,tp.1.1.toNat,.slab tp.2⟩,rfl,gives_give ..,rfl,?_,
          Or.inr ⟨tp.2,rfl,Function.update_self ..⟩⟩
        simp only [Region.base,hdrSpace] at hfit ⊢
        omega

end Mem

variable {tab u : Table} {tbl mem res : Option ℕ} {a pg : ℕ}

theorem Table.Maps.perm {l : List (ℕ × ℕ)} (h : tab.Maps inuse) (hp : inuse.Perm l) : tab.Maps l :=
  ⟨h.nodup,(hp.map _).nodup_iff.mp h.keys,fun x hx => h.real x (hp.mem_iff.mpr hx),
    fun x hx => h.entered x (hp.mem_iff.mpr hx),h.once,
    fun m hm => (h.use m hm).imp_right fun hu => hu.imp_right hp.mem_iff.mp,h.heads⟩

/- The page that was linked in has free entries. -/
theorem findEntry_allocPageTbl (tab : Table) (pg : ℕ) : ∃ m, (tab.allocPageTbl pg).findEntry 0 = some m := by
  refine Option.isSome_iff_exists.mp (List.find?_isSome.mpr ⟨(pg,0),?_,?_⟩)
  · exact mem_slots.mpr ⟨List.mem_cons_self ..,show 0 < nentries by decide⟩
  · simp [Table.allocPageTbl]

theorem grow_cases (tab : Table) (tbl : Option ℕ) :
    (tab.grow tbl = none ∧ tab.findEntry 0 = none ∧ tbl = none) ∨
      ∃ u m, tab.grow tbl = some u ∧ u.findEntry 0 = some m ∧ ¬ (tab.findEntry 0 = none ∧ tbl = none) ∧
        (u = tab ∨ ∃ pg, u = tab.allocPageTbl pg) := by
  rw [Table.grow]
  cases hf : tab.findEntry 0 with
  | some m => exact Or.inr ⟨tab,m,rfl,hf,fun hc => Option.some_ne_none m hc.1,Or.inl rfl⟩
  | none =>
    cases tbl with
    | none => exact Or.inl ⟨rfl,rfl,rfl⟩
    | some pg =>
      obtain ⟨m,hm⟩ := findEntry_allocPageTbl tab pg
      exact Or.inr ⟨_,m,rfl,hm,fun hc => Option.some_ne_none pg hc.2,Or.inr ⟨pg,rfl⟩⟩

theorem grow_maps (h : tab.Maps inuse) (hu : u = tab ∨ ∃ pg, u = tab.allocPageTbl pg) (hn : u.tblPages.Nodup) :
    u.Maps inuse := by
  rcases hu with rfl | ⟨pg,rfl⟩
  · exact h
  · exact h.allocPageTbl (List.nodup_cons.mp hn).1

/- The entry is filled. -/
theorem fill_maps {m : Slot} (h : u.Maps inuse) (hm : u.findEntry 0 = some m) (h0 : a ≠ 0) (hr : a ≠ reserved)
    (ha : a ∉ inuse.map Prod.fst) :
    (((((u.reserve m).count order).setSize m nbytes).setOrder m order).setAddr m a).Maps ((a,order) :: inuse) := by
  have h1 : ((u.reserve m).count order).Maps inuse := (h.reserve hm).bytes _
  have hres : (((u.reserve m).count order).entry m).pageAddr = reserved := by
    change ((u.put m _).entry m).pageAddr = reserved
    rw [put_entry,if_pos rfl]
  have h2 : (((u.reserve m).count order).setSize m nbytes).Maps inuse := h1.setSize hres
  have hres2 : ((((u.reserve m).count order).setSize m nbytes).entry m).pageAddr = reserved := by
    rw [Table.setSize,put_entry,if_pos rfl]
    exact hres
  have h3 : ((((u.reserve m).count order).setSize m nbytes).setOrder m order).Maps inuse := h2.setOrder hres2
  have hord : (((((u.reserve m).count order).setSize m nbytes).setOrder m order).entry m).order = order := by
    rw [Table.setOrder,put_entry,if_pos rfl]
  have hres3 : (((((u.reserve m).count order).setSize m nbytes).setOrder m order).entry m).pageAddr = reserved := by
    rw [Table.setOrder,put_entry,if_pos rfl]
    exact hres2
  have h4 := h3.setAddr (mem_of_find hm).1 hres3 h0 hr ha
  rw [hord] at h4
  exact h4

namespace Mem

/- Either no page is left, or the area is given and entered. -/
theorem lisGetFreePages_spec (hm : s.table.Maps inuse) (h : s.lisGetFreePages fuel z tbl mem = some (res,t))
    (hn : t.table.tblPages.Nodup) : ∃ o, findOrder z fuel 0 = some o ∧
      ((res = none ∧ t = { s with table := t.table } ∧ t.table.Maps inuse ∧
          (mem = none ∨ s.table.findEntry 0 = none ∧ tbl = none)) ∨
        ∃ a, res = some a ∧ Gives s t ⟨a,2 ^ o * pageSize,.pages o⟩ ∧
          ¬ (mem = none ∨ s.table.findEntry 0 = none ∧ tbl = none) ∧
          (a ≠ 0 → a ≠ reserved → a ∉ inuse.map Prod.fst → t.table.Maps ((a,o) :: inuse))) := by
  obtain ⟨o,ho,heq⟩ := Option.map_eq_some_iff.mp h
  refine ⟨o,ho,?_⟩
  rcases grow_cases s.table tbl with ⟨hg,hfull⟩ | ⟨u,m,hg,hfree,hnf,hu⟩
  · simp only [hg] at heq
    obtain ⟨rfl,rfl⟩ := Prod.mk.inj heq
    exact Or.inl ⟨rfl,rfl,hm,Or.inr hfull⟩
  · simp only [hg,hfree] at heq
    cases mem with
    | none =>
      obtain ⟨rfl,rfl⟩ := Prod.mk.inj heq
      exact Or.inl ⟨rfl,rfl,(grow_maps hm hu hn).reserve hfree,Or.inl rfl⟩
    | some a =>
      obtain ⟨rfl,rfl⟩ := Prod.mk.inj heq
      refine Or.inr ⟨a,rfl,⟨rfl,fun _ _ => rfl⟩,fun hc => hc.elim (Option.some_ne_none a) hnf,fun h0 hr ha => ?_⟩
      exact fill_maps (grow_maps hm hu hn) hfree h0 hr ha

end Mem

end CSLiS.Memory
