import CSLiS.Lib.Exec

/-!
# The table of the pages (head/linux/lismem.c)

The table has an entry for every area of pages that was given out. Its entries stand on pages of their own, linked in
front of each other, and an entry is named by its page and its index there.
-/

namespace CSLiS.Memory

def pageSize : ℕ := 4096

/- `PAGE_SIZE/sizeof(*p)`. -/
def nentries : ℕ := 102

/- The guard from `find_entry`. -/
def reserved : ℕ := 0xffffffff

/- What becomes of a value that is stored in an int. -/
def toInt (z : ℤ) : ℤ := z.bmod (2 ^ 32)

/- `contig_memlink_t`, the link left out. A null pointer is 0. -/
structure ContigMemlink where
  pageAddr : ℕ
  size : ℤ
  order : ℕ
  boundary : Bool
  deriving DecidableEq, Repr

abbrev Slot := ℕ × ℕ

/- `tblPages` are the pages of the table, that of `contig_mem_head` first. -/
structure Table where
  entry : Slot → ContigMemlink
  tblPages : List ℕ
  contigBytes : ℤ

/- `bytes = (1 << order) * PAGE_SIZE`, where the processor shifts by `order` mod 32. -/
def orderBytes (order : ℕ) : ℤ := toInt (2 ^ (order % 32) * pageSize)

/-- The loop of `lis_get_free_pages_fcn` (`lismem.c:230`). -/
def findOrder (nbytes : ℤ) : ℕ → ℕ → Option ℕ
  | 0, _ => none
  | fuel + 1, order => if orderBytes order < nbytes then findOrder nbytes fuel (order + 1) else some order

namespace Table

variable (t : Table)

def empty : Table := ⟨fun _ => ⟨0,0,0,false⟩,[],0⟩

def page (pg : ℕ) : List Slot := (List.range nentries).map fun i => (pg,i)

/- The entries, as the links lead from one to the next. -/
def slots : List Slot := t.tblPages.flatMap page

def put (m : Slot) (e : ContigMemlink) : Table := { t with entry := Function.update t.entry m e }

/-- `find_entry` (`lismem.c:208-219`) -/
def findEntry (addr : ℕ) : Option Slot := t.slots.find? fun m => (t.entry m).pageAddr == addr

/-- `alloc_page_tbl` (`lismem.c:181-206`), where the page was given -/
def allocPageTbl (pg : ℕ) : Table :=
  { t with
    entry := fun m => if m.1 = pg then ⟨0,0,0,m.2 == 0⟩ else t.entry m
    tblPages := pg :: t.tblPages }

def reserve (m : Slot) : Table := t.put m { t.entry m with pageAddr := reserved }

/- The updates after the page allocator has returned. -/
def count (order : ℕ) : Table := { t with contigBytes := t.contigBytes + orderBytes order }
def setSize (m : Slot) (nbytes : ℤ) : Table := t.put m { t.entry m with size := nbytes }
def setOrder (m : Slot) (order : ℕ) : Table := t.put m { t.entry m with order := order }
def setAddr (m : Slot) (a : ℕ) : Table := t.put m { t.entry m with pageAddr := a }

def clear (m : Slot) : Table :=
  { t.put m { t.entry m with pageAddr := 0 } with contigBytes := t.contigBytes - 2 ^ (t.entry m).order * pageSize }

/- The section of `lis_free_pages_fcn`: what is to be freed. -/
def unlist (ptr : ℕ) : Option (ℕ × ℕ) × Table :=
  match t.findEntry ptr with
  | none => (none,t)
  | some m => (some ((t.entry m).pageAddr,(t.entry m).order),t.clear m)

end Table

/-! ### The search for the order -/

section Orders

variable {nbytes : ℤ} {fuel order o : ℕ}

theorem orderBytes_le (order : ℕ) : orderBytes order ≤ 2 ^ 30 := by
  have h : ∀ i < 32, toInt (2 ^ i * pageSize) ≤ 2 ^ 30 := by decide
  exact h _ (Nat.mod_lt _ (by decide))

theorem orderBytes_eq (ho : order ≤ 18) : orderBytes order = 2 ^ order * pageSize := by
  have h : ∀ i ≤ 18, orderBytes i = 2 ^ i * pageSize := by decide
  exact h order ho

/- No power of two is big enough, however long the loop runs. -/
theorem findOrder_none (hz : 2 ^ 30 < nbytes) (fuel order : ℕ) : findOrder nbytes fuel order = none := by
  induction fuel generalizing order with
  | zero => rfl
  | succ fuel ih =>
    rw [findOrder,if_pos (lt_of_le_of_lt (orderBytes_le order) hz)]
    exact ih (order + 1)

theorem findOrder_some (hz : nbytes ≤ 2 ^ 30) (ho : order ≤ 18) (hf : 19 ≤ fuel + order) :
    ∃ o ≤ 18, findOrder nbytes fuel order = some o ∧ nbytes ≤ 2 ^ o * pageSize := by
  induction fuel generalizing order with
  | zero => omega
  | succ fuel ih =>
    rw [findOrder]
    split_ifs with hlt
    · have h18 : order ≠ 18 := by
        rintro rfl
        rw [orderBytes_eq le_rfl,pageSize] at hlt
        omega
      exact ih (by omega) (by omega)
    · exact ⟨order,ho,rfl,orderBytes_eq ho ▸ not_lt.mp hlt⟩

theorem findOrder_le (ho : order ≤ 18) (h : findOrder nbytes fuel order = some o) : o ≤ 18 := by
  by_cases hz : 2 ^ 30 < nbytes
  · rw [findOrder_none hz] at h
    cases h
  · induction fuel generalizing order with
    | zero => cases h
    | succ fuel ih =>
      rw [findOrder] at h
      split_ifs at h with hlt
      · refine ih ?_ h
        by_contra hc
        have h18 : order = 18 := by omega
        rw [h18,orderBytes_eq le_rfl,pageSize] at hlt
        omega
      · exact Option.some.inj h ▸ ho

end Orders

/-! ### The table is a map -/

variable {t : Table} {inuse : List (ℕ × ℕ)} {m n : Slot} {a o order pg : ℕ} {e : ContigMemlink} {nbytes : ℤ}

/- Every area has one entry, which has its order, and every entry is free, reserved or that of an area. -/
structure Table.Maps (t : Table) (inuse : List (ℕ × ℕ)) : Prop where
  nodup : t.tblPages.Nodup
  keys : (inuse.map Prod.fst).Nodup
  real : ∀ x ∈ inuse, x.1 ≠ 0 ∧ x.1 ≠ reserved
  entered : ∀ x ∈ inuse, ∃ m ∈ t.slots, (t.entry m).pageAddr = x.1 ∧ (t.entry m).order = x.2
  once : ∀ m ∈ t.slots, ∀ n ∈ t.slots, (t.entry m).pageAddr = (t.entry n).pageAddr →
    (t.entry m).pageAddr ≠ 0 → (t.entry m).pageAddr ≠ reserved → m = n
  use : ∀ m ∈ t.slots, (t.entry m).pageAddr = 0 ∨ (t.entry m).pageAddr = reserved ∨
    ((t.entry m).pageAddr,(t.entry m).order) ∈ inuse
  heads : ∀ m ∈ t.slots, (t.entry m).boundary = (m.2 == 0)

theorem mem_slots : m ∈ t.slots ↔ m.1 ∈ t.tblPages ∧ m.2 < nentries := by
  simp only [Table.slots,Table.page,List.mem_flatMap,List.mem_map,List.mem_range]
  constructor
  · rintro ⟨pg,hpg,i,hi,rfl⟩
    exact ⟨hpg,hi⟩
  · rintro ⟨hpg,hi⟩
    exact ⟨m.1,hpg,m.2,hi,rfl⟩

@[simp] theorem slots_put : (t.put m e).slots = t.slots := rfl

theorem mem_of_find (h : t.findEntry a = some m) : m ∈ t.slots ∧ (t.entry m).pageAddr = a := by
  rw [Table.findEntry] at h
  have hp := List.find?_some h
  exact ⟨List.mem_of_find?_eq_some h,beq_iff_eq.mp hp⟩

theorem put_entry (t : Table) (m : Slot) (e : ContigMemlink) (n : Slot) :
    (t.put m e).entry n = if n = m then e else t.entry n := Function.update_apply ..

namespace Table.Maps

theorem empty : Table.empty.Maps [] :=
  ⟨List.nodup_nil,List.nodup_nil,by simp,by simp,by simp [Table.slots,Table.empty],by simp [Table.slots,Table.empty],
    by simp [Table.slots,Table.empty]⟩

/- The entry of an area is found. -/
theorem find (h : t.Maps inuse) (ha : (a,o) ∈ inuse) :
    ∃ m, t.findEntry a = some m ∧ m ∈ t.slots ∧ (t.entry m).pageAddr = a ∧ (t.entry m).order = o := by
  obtain ⟨m,hm,hma,hmo⟩ := h.entered _ ha
  have hsome : (t.findEntry a).isSome := List.find?_isSome.mpr ⟨m,hm,beq_iff_eq.mpr hma⟩
  obtain ⟨n,hn⟩ := Option.isSome_iff_exists.mp hsome
  obtain ⟨hns,hna⟩ := mem_of_find hn
  have hreal := h.real _ ha
  have hnm : n = m := h.once n hns m hm (hna.trans hma.symm) (hna ▸ hreal.1) (hna ▸ hreal.2)
  exact ⟨n,hn,hns,hna,hnm ▸ hmo⟩

/- An entry that is not that of an area is written, and stays free or reserved. -/
theorem write (h : t.Maps inuse) (hm : (t.entry m).pageAddr = 0 ∨ (t.entry m).pageAddr = reserved)
    (he : e.pageAddr = 0 ∨ e.pageAddr = reserved) (hb : e.boundary = (t.entry m).boundary) :
    (t.put m e).Maps inuse := by
  have hother (n : Slot) (h0 : (t.entry n).pageAddr ≠ 0) (hr : (t.entry n).pageAddr ≠ reserved) : n ≠ m := by
    rintro rfl
    exact hm.elim h0 hr
  refine ⟨h.nodup,h.keys,h.real,fun x hx => ?_,fun n hn k hk hnk h0 hr => ?_,fun n hn => ?_,fun n hn => ?_⟩
  · obtain ⟨n,hn,hna,hno⟩ := h.entered x hx
    obtain ⟨h0,hr⟩ := h.real x hx
    have hnm := hother n (hna ▸ h0) (hna ▸ hr)
    exact ⟨n,hn,by rw [put_entry,if_neg hnm]; exact hna,by rw [put_entry,if_neg hnm]; exact hno⟩
  · have hnm : n ≠ m := by
      rintro rfl
      rw [put_entry,if_pos rfl] at h0 hr
      exact he.elim h0 hr
    have hkm : k ≠ m := by
      rintro rfl
      rw [hnk,put_entry,if_pos rfl] at h0 hr
      exact he.elim h0 hr
    simp only [put_entry,if_neg hnm,if_neg hkm] at hnk h0 hr
    exact h.once n hn k hk hnk h0 hr
  · rw [put_entry]
    split_ifs
    · exact he.elim Or.inl fun hr => Or.inr (Or.inl hr)
    · exact h.use n hn
  · rw [put_entry]
    split_ifs with hnm
    · subst hnm
      exact hb.trans (h.heads n hn)
    · exact h.heads n hn

theorem bytes (h : t.Maps inuse) (z : ℤ) : { t with contigBytes := z }.Maps inuse :=
  ⟨h.nodup,h.keys,h.real,h.entered,h.once,h.use,h.heads⟩

theorem reserve (h : t.Maps inuse) (hm : t.findEntry 0 = some m) : (t.reserve m).Maps inuse :=
  h.write (Or.inl (mem_of_find hm).2) (Or.inr rfl) rfl

theorem setSize (h : t.Maps inuse) (hm : (t.entry m).pageAddr = reserved) : (t.setSize m nbytes).Maps inuse :=
  h.write (Or.inr hm) (Or.inr hm) rfl

theorem setOrder (h : t.Maps inuse) (hm : (t.entry m).pageAddr = reserved) : (t.setOrder m order).Maps inuse :=
  h.write (Or.inr hm) (Or.inr hm) rfl

theorem allocPageTbl (h : t.Maps inuse) (hpg : pg ∉ t.tblPages) : (t.allocPageTbl pg).Maps inuse := by
  have hsub (n : Slot) (hn : n ∈ t.slots) : n ∈ (t.allocPageTbl pg).slots :=
    mem_slots.mpr ⟨List.mem_cons_of_mem _ (mem_slots.mp hn).1,(mem_slots.mp hn).2⟩
  have hold (n : Slot) (hn : n ∈ t.slots) : (t.allocPageTbl pg).entry n = t.entry n := by
    refine if_neg fun hc => hpg ?_
    rw [← hc]
    exact (mem_slots.mp hn).1
  -- an entry is blank, or one of before
  have hsplit (n : Slot) (hn : n ∈ (t.allocPageTbl pg).slots) :
      (t.allocPageTbl pg).entry n = ⟨0,0,0,n.2 == 0⟩ ∨ n ∈ t.slots := by
    obtain ⟨hp,hi⟩ := mem_slots.mp hn
    rcases List.mem_cons.mp hp with hp | hp
    · exact Or.inl (if_pos hp)
    · exact Or.inr (mem_slots.mpr ⟨hp,hi⟩)
  refine ⟨List.nodup_cons.mpr ⟨hpg,h.nodup⟩,h.keys,h.real,fun x hx => ?_,fun n hn k hk hnk h0 hr => ?_,fun n hn => ?_,
    fun n hn => ?_⟩
  · obtain ⟨n,hn,hna,hno⟩ := h.entered x hx
    exact ⟨n,hsub n hn,by rw [hold n hn]; exact hna,by rw [hold n hn]; exact hno⟩
  · rcases hsplit n hn with hb | hn
    · rw [hb] at h0
      exact absurd rfl h0
    · rcases hsplit k hk with hb | hk
      · rw [hnk,hb] at h0
        exact absurd rfl h0
      · rw [hold n hn] at hnk h0 hr
        rw [hold k hk] at hnk
        exact h.once n hn k hk hnk h0 hr
  · rcases hsplit n hn with hb | hn
    · rw [hb]
      exact Or.inl rfl
    · rw [hold n hn]
      exact h.use n hn
  · rcases hsplit n hn with hb | hn
    · rw [hb]
    · rw [hold n hn]
      exact h.heads n hn

/- A reserved entry becomes that of a new area. -/
theorem setAddr (h : t.Maps inuse) (hm : m ∈ t.slots) (hr : (t.entry m).pageAddr = reserved) (h0 : a ≠ 0)
    (har : a ≠ reserved) (ha : a ∉ inuse.map Prod.fst) :
    (t.setAddr m a).Maps ((a,(t.entry m).order) :: inuse) := by
  -- no other entry has the address
  have hnew (n : Slot) (hn : n ∈ t.slots) : (t.entry n).pageAddr ≠ a := by
    intro hc
    rcases h.use n hn with hu | hu | hu
    · exact h0 (hc.symm.trans hu)
    · exact har (hc.symm.trans hu)
    · exact ha (List.mem_map.mpr ⟨_,hu,hc⟩)
  refine ⟨h.nodup,List.nodup_cons.mpr ⟨ha,h.keys⟩,fun x hx => ?_,fun x hx => ?_,fun n hn k hk hnk hn0 hnr => ?_,
    fun n hn => ?_,fun n hn => ?_⟩
  · rcases List.mem_cons.mp hx with rfl | hx
    · exact ⟨h0,har⟩
    · exact h.real x hx
  · rcases List.mem_cons.mp hx with hx | hx
    · rw [hx]
      exact ⟨m,hm,by rw [Table.setAddr,put_entry,if_pos rfl],by rw [Table.setAddr,put_entry,if_pos rfl]⟩
    · obtain ⟨n,hn,hna,hno⟩ := h.entered x hx
      have hxr := (h.real x hx).2
      have hnm : n ≠ m := by
        rintro rfl
        exact hxr (hna.symm.trans hr)
      exact ⟨n,hn,by rw [Table.setAddr,put_entry,if_neg hnm]; exact hna,
        by rw [Table.setAddr,put_entry,if_neg hnm]; exact hno⟩
  · simp only [Table.setAddr,put_entry] at hnk hn0 hnr
    by_cases hnm : n = m
    · by_cases hkm : k = m
      · exact hnm.trans hkm.symm
      · rw [if_pos hnm,if_neg hkm] at hnk
        exact absurd hnk.symm (hnew k hk)
    · by_cases hkm : k = m
      · rw [if_neg hnm,if_pos hkm] at hnk
        exact absurd hnk (hnew n hn)
      · rw [if_neg hnm] at hnk hn0 hnr
        rw [if_neg hkm] at hnk
        exact h.once n hn k hk hnk hn0 hnr
  · rw [Table.setAddr,put_entry]
    split_ifs with hnm
    · exact Or.inr (Or.inr (List.mem_cons_self ..))
    · exact (h.use n hn).imp_right fun hu => hu.imp_right (List.mem_cons_of_mem _)
  · rw [Table.setAddr,put_entry]
    split_ifs with hnm
    · subst hnm
      exact h.heads n hn
    · exact h.heads n hn

/- The entry of an area becomes free. -/
theorem clear (h : t.Maps inuse) (hm : m ∈ t.slots) (ha : ((t.entry m).pageAddr,(t.entry m).order) ∈ inuse) :
    (t.clear m).Maps (inuse.erase ((t.entry m).pageAddr,(t.entry m).order)) := by
  have hnd : inuse.Nodup := h.keys.of_map
  have hkeys : ∀ x ∈ inuse.erase ((t.entry m).pageAddr,(t.entry m).order), x.1 ≠ (t.entry m).pageAddr := by
    intro x hx hc
    obtain ⟨hne,hx⟩ := hnd.mem_erase_iff.mp hx
    exact hne (List.inj_on_of_nodup_map h.keys hx ha hc)
  obtain ⟨h0,hr⟩ := h.real _ ha
  have hent (n : Slot) : (t.clear m).entry n = if n = m then { t.entry m with pageAddr := 0 } else t.entry n :=
    put_entry ..
  refine ⟨h.nodup,h.keys.sublist ((List.erase_sublist ..).map _),fun x hx => h.real x (List.mem_of_mem_erase hx),
    fun x hx => ?_,fun n hn k hk hnk hn0 hnr => ?_,fun n hn => ?_,fun n hn => ?_⟩
  · obtain ⟨n,hn,hna,hno⟩ := h.entered x (List.mem_of_mem_erase hx)
    have hnm : n ≠ m := by
      rintro rfl
      exact hkeys x hx hna.symm
    exact ⟨n,hn,by rw [hent,if_neg hnm]; exact hna,by rw [hent,if_neg hnm]; exact hno⟩
  · have hnm : n ≠ m := by
      rintro rfl
      rw [hent,if_pos rfl] at hn0
      exact hn0 rfl
    have hkm : k ≠ m := by
      rintro rfl
      rw [hnk,hent,if_pos rfl] at hn0
      exact hn0 rfl
    simp only [hent,if_neg hnm,if_neg hkm] at hnk hn0 hnr
    exact h.once n hn k hk hnk hn0 hnr
  · rw [hent]
    split_ifs with hnm
    · exact Or.inl rfl
    · refine (h.use n hn).imp_right fun hu => hu.imp_right fun hu => (List.mem_erase_of_ne ?_).mpr hu
      intro hc
      have hp := (Prod.mk.inj hc).1
      exact hnm (h.once n hn m hm hp (hp ▸ h0) (hp ▸ hr))
  · rw [hent]
    split_ifs with hnm
    · subst hnm
      exact h.heads n hn
    · exact h.heads n hn

theorem unlist (h : t.Maps inuse) (ha : (a,o) ∈ inuse) :
    ∃ m ∈ t.slots, (t.entry m).pageAddr = a ∧ (t.entry m).order = o ∧ t.unlist a = (some (a,o),t.clear m) ∧
      (t.clear m).Maps (inuse.erase (a,o)) := by
  obtain ⟨m,hf,hm,rfl,rfl⟩ := h.find ha
  refine ⟨m,hm,rfl,rfl,?_,h.clear hm ha⟩
  rw [Table.unlist,hf]

end Table.Maps

end CSLiS.Memory
