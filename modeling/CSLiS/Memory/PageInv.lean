import CSLiS.Memory.PageTasks

/-!
# What the tasks keep

The areas of the table are those of callers and those that are passed to `lis_free_pages`; what the kernel has given
besides is at tasks on the way from the allocator to the table, or back. A step changes what one task stands for.
-/

namespace CSLiS.Memory.PageTasks
open Lib.Exec Lib.Crew

/- The area is not yet in the table, or not there any more. -/
def Place.apart : Place → Option (ℕ × ℕ)
  | .toCount _ _ order a => some (a,order)
  | .toSize _ _ order a => some (a,order)
  | .toOrder _ order a => some (a,order)
  | .toAddr _ order a => some (a,order)
  | .release addr order => some (addr,order)
  | _ => none

def Place.tblPage : Place → Option ℕ
  | .blank _ _ pg => some pg
  | _ => none

/- What is in `contig_bytes` before the area is in the table. -/
def Place.counted : Place → ℕ
  | .toSize _ _ order a => areaBytes (a,order)
  | .toOrder _ order a => areaBytes (a,order)
  | .toAddr _ order a => areaBytes (a,order)
  | _ => 0

/- The order is one whose bytes fit into an int, and the entry has it in the end. -/
def Local (t : Table) : Place → Prop
  | .search _ order => order ≤ 18
  | .full _ order => order ≤ 18
  | .blank _ order _ => order ≤ 18
  | .again _ order => order ≤ 18
  | .alloc _ _ order => order ≤ 18
  | .toCount _ _ order _ => order ≤ 18
  | .toAddr mp order _ => (t.entry mp).order = order
  | _ => True

def Table.Reserved (t : Table) (m : Slot) : Prop := m ∈ t.slots ∧ (t.entry m).pageAddr = reserved

instance (t : Table) (m : Slot) : Decidable (Table.Reserved t m) := inferInstanceAs (Decidable (_ ∧ _))

structure Inv (s : Pages) (inuse : List (ℕ × ℕ)) : Prop where
  maps : s.table.Maps inuse
  use : ∀ x, inuse.count x = s.owned.count x + standing Place.frees s.places x
  kernel : ∀ x, s.kernel.count x = inuse.count x + standing Place.apart s.places x
  addrs : (s.kernel.map Prod.fst).Nodup
  real : ∀ x ∈ s.kernel, x.1 ≠ 0 ∧ x.1 ≠ reserved
  held : ∀ m, standing Place.holds s.places m = if Table.Reserved s.table m then 1 else 0
  pages : ∀ pg, s.tblKernel.count pg = s.table.tblPages.count pg + standing Place.tblPage s.places pg
  distinct : s.tblKernel.Nodup
  bytes : s.table.contigBytes = ((inuse.map areaBytes).sum + total Place.counted s.places : ℕ)
  locals : ∀ p ∈ s.places, Local s.table p
  fine : s.wrong = false

variable {s t : Pages} {inuse inuse' : List (ℕ × ℕ)} {i fuel order a pg : ℕ} {p q : Place} {m mp : Slot} {nbytes : ℤ}
  {ans : Option ℕ} {x : ℕ × ℕ}

/- What one task does that goes from `p` to `q`. -/
structure Moved (s t : Pages) (inuse inuse' : List (ℕ × ℕ)) (p q : Place) : Prop where
  maps : t.table.Maps inuse'
  use : ∀ x, inuse'.count x + s.owned.count x + (if p.frees = some x then 1 else 0) =
    inuse.count x + t.owned.count x + if q.frees = some x then 1 else 0
  kernel : ∀ x, t.kernel.count x + inuse.count x + (if p.apart = some x then 1 else 0) =
    s.kernel.count x + inuse'.count x + if q.apart = some x then 1 else 0
  addrs : (t.kernel.map Prod.fst).Nodup
  real : ∀ x ∈ t.kernel, x.1 ≠ 0 ∧ x.1 ≠ reserved
  held : ∀ m, (if Table.Reserved t.table m then 1 else 0) + (if p.holds = some m then 1 else 0) =
    (if Table.Reserved s.table m then 1 else 0) + if q.holds = some m then 1 else 0
  pages : ∀ pg, t.tblKernel.count pg + s.table.tblPages.count pg + (if p.tblPage = some pg then 1 else 0) =
    s.tblKernel.count pg + t.table.tblPages.count pg + if q.tblPage = some pg then 1 else 0
  distinct : t.tblKernel.Nodup
  bytes : t.table.contigBytes + (inuse.map areaBytes).sum + p.counted =
    s.table.contigBytes + (inuse'.map areaBytes).sum + q.counted
  keep : ∀ m, Table.Reserved s.table m → p.holds ≠ some m → t.table.entry m = s.table.entry m
  here : Local t.table q
  fine : t.wrong = false

theorem Local.congr {t u : Table} (h : Local t p) (he : ∀ m, p.holds = some m → u.entry m = t.entry m) : Local u p := by
  cases p with
  | toAddr mp order a =>
    rw [Local] at h ⊢
    rw [he mp rfl]
    exact h
  | _ => exact h

theorem Inv.reserved_of_holds (hi : Inv s inuse) (hp : s.places[i]? = some p) (hm : p.holds = some m) :
    Table.Reserved s.table m := by
  have hpos := standing_pos hp hm
  rw [hi.held] at hpos
  by_contra hc
  rw [if_neg hc] at hpos
  exact Nat.lt_irrefl 0 hpos

/- What one task holds the others do not. -/
theorem Inv.holds_alone (hi : Inv s inuse) (hp : s.places[i]? = some p) (hm : p.holds = some m) {k : ℕ} (hk : k ≠ i)
    (hq : s.places[k]? = some q) : q.holds ≠ some m := by
  have hle : standing Place.holds s.places m ≤ 1 := by
    rw [hi.held]
    split_ifs <;> omega
  have hmem : q ∈ s.places.set i .idle :=
    List.mem_of_getElem? ((List.getElem?_set_ne (Ne.symm hk)).trans hq)
  rcases tally_alone hle hp (decide_eq_true hm) .idle q hmem with rfl | h
  · exact Option.some_ne_none m ∘ Eq.symm
  · exact of_decide_eq_false h

theorem Inv.moved (hi : Inv s inuse) (hp : s.places[i]? = some p) (hpl : t.places = s.places.set i q)
    (h : Moved s t inuse inuse' p q) : Inv t inuse' := by
  refine ⟨h.maps,fun x => ?_,fun x => ?_,h.addrs,h.real,fun m => ?_,fun pg => ?_,h.distinct,?_,fun r hr => ?_,h.fine⟩
  · have h1 := h.use x
    have h2 := hi.use x
    have h3 := standing_moves hp q Place.frees x
    rw [hpl]
    omega
  · have h1 := h.kernel x
    have h2 := hi.kernel x
    have h3 := standing_moves hp q Place.apart x
    rw [hpl]
    omega
  · have h1 := h.held m
    have h2 := hi.held m
    have h3 := standing_moves hp q Place.holds m
    rw [hpl]
    omega
  · have h1 := h.pages pg
    have h2 := hi.pages pg
    have h3 := standing_moves hp q Place.tblPage pg
    rw [hpl]
    omega
  · have h1 := h.bytes
    have h2 := hi.bytes
    have h3 := total_set hp q Place.counted
    rw [hpl]
    rw [Nat.cast_add] at h2 ⊢
    omega
  · rw [hpl] at hr
    obtain ⟨k,hk⟩ := List.mem_iff_getElem?.mp hr
    rcases set_cases hk with ⟨-,rfl⟩ | ⟨hki,hk⟩
    · exact h.here
    · refine (hi.locals r (List.mem_of_getElem? hk)).congr fun m hm => ?_
      exact h.keep m (hi.reserved_of_holds hk hm) fun hc => hi.holds_alone hp hc hki hk hm

/-! ### One step of a task -/

/- An entry gets reserved. -/
theorem reserved_reserve (hf : s.table.findEntry 0 = some mp) (m : Slot) :
    Table.Reserved (s.table.reserve mp) m ↔ Table.Reserved s.table m ∨ m = mp := by
  obtain ⟨hmem,h0⟩ := mem_of_find hf
  rw [Table.Reserved,Table.Reserved,Table.reserve,slots_put,put_entry]
  constructor
  · rintro ⟨hm,he⟩
    split_ifs at he with hmm
    · exact Or.inr hmm
    · exact Or.inl ⟨hm,he⟩
  · rintro (⟨hm,he⟩ | rfl)
    · rw [if_neg]
      · exact ⟨hm,he⟩
      · rintro rfl
        exact absurd (h0.symm.trans he) (by decide)
    · rw [if_pos rfl]
      exact ⟨hmem,rfl⟩

theorem Inv.reserve (hi : Inv s inuse) (hp : s.places[i]? = some p) (ho : order ≤ 18) (hfr : p.frees = none)
    (hap : p.apart = none) (hho : p.holds = none) (htp : p.tblPage = none) (hct : p.counted = 0)
    (hq : q.frees = none ∧ q.apart = none ∧ q.holds = none ∧ q.tblPage = none ∧ q.counted = 0 ∧ Local s.table q) :
    Inv (s.reserve i nbytes order q) inuse := by
  obtain ⟨h1,h2,h3,h4,h5,h6⟩ := hq
  rw [Pages.reserve]
  cases hf : s.table.findEntry 0 with
  | none =>
    refine hi.moved hp rfl ⟨hi.maps,fun x => ?_,fun x => ?_,hi.addrs,hi.real,fun m => ?_,fun pg => ?_,hi.distinct,?_,
      fun _ _ _ => rfl,h6,hi.fine⟩
    · rw [hfr,h1]; rfl
    · rw [hap,h2]; rfl
    · rw [hho,h3]; rfl
    · rw [htp,h4]; rfl
    · rw [hct,h5]; rfl
  | some mp =>
    refine hi.moved hp rfl ⟨hi.maps.reserve hf,fun x => ?_,fun x => ?_,hi.addrs,hi.real,fun m => ?_,fun pg => ?_,
      hi.distinct,?_,fun m hm _ => ?_,ho,hi.fine⟩
    · rw [hfr]; rfl
    · rw [hap]; rfl
    · have hnot : ¬ Table.Reserved s.table mp := fun hc => absurd ((mem_of_find hf).2.symm.trans hc.2) (by decide)
      rw [hho]
      change (if Table.Reserved (s.table.reserve mp) m then 1 else 0) + 0 =
        (if Table.Reserved s.table m then 1 else 0) + if some mp = some m then 1 else 0
      simp only [reserved_reserve hf,Option.some.injEq]
      by_cases hm : m = mp
      · subst hm
        rw [if_pos (Or.inr rfl),if_neg hnot,if_pos rfl]
      · rw [if_neg (show ¬ mp = m from fun hc => hm hc.symm)]
        simp only [hm,or_false]
    · rw [htp]; rfl
    · rw [hct]; rfl
    · change (s.table.put mp _).entry m = _
      rw [put_entry,if_neg]
      rintro rfl
      exact absurd ((mem_of_find hf).2.symm.trans hm.2) (by decide)

/- A page of the table is linked in. -/
theorem reserved_alloc (hpg : pg ∉ s.table.tblPages) (m : Slot) :
    Table.Reserved (s.table.allocPageTbl pg) m ↔ Table.Reserved s.table m := by
  rw [Table.Reserved,Table.Reserved,mem_slots,mem_slots]
  constructor
  · rintro ⟨⟨hp,hi⟩,he⟩
    by_cases hmp : m.1 = pg
    · rw [Table.allocPageTbl] at he
      simp only [hmp,if_true] at he
      exact absurd he (by decide)
    · refine ⟨⟨(List.mem_cons.mp hp).resolve_left hmp,hi⟩,?_⟩
      rw [Table.allocPageTbl] at he
      simpa only [hmp,if_false] using he
  · rintro ⟨⟨hp,hi⟩,he⟩
    have hmp : m.1 ≠ pg := fun hc => hpg (hc ▸ hp)
    refine ⟨⟨List.mem_cons_of_mem _ hp,hi⟩,?_⟩
    rw [Table.allocPageTbl]
    simpa only [hmp,if_false] using he

theorem Inv.link (hi : Inv s inuse) (hp : s.places[i]? = some (.blank nbytes order pg)) :
    Inv ({ s with table := s.table.allocPageTbl pg }.move i (.again nbytes order)) inuse := by
  have hpos : 0 < standing Place.tblPage s.places pg := standing_pos hp rfl
  have hcount := hi.pages pg
  have hone := List.nodup_iff_count_le_one.mp hi.distinct pg
  have hpg : pg ∉ s.table.tblPages := fun hc => by
    have := List.count_pos_iff.mpr hc
    omega
  refine hi.moved hp rfl ⟨hi.maps.allocPageTbl hpg,fun _ => rfl,fun _ => rfl,hi.addrs,hi.real,fun m => ?_,fun g => ?_,
    hi.distinct,rfl,fun m hm _ => ?_,hi.locals _ (List.mem_of_getElem? hp),hi.fine⟩
  · change (if Table.Reserved (s.table.allocPageTbl pg) m then 1 else 0) + 0 = _ + 0
    simp only [reserved_alloc hpg]
  · change s.tblKernel.count g + s.table.tblPages.count g + (if some pg = some g then 1 else 0) =
      s.tblKernel.count g + (pg :: s.table.tblPages).count g + 0
    rw [List.count_cons]
    simp only [Option.some.injEq,beq_iff_eq]
    omega
  · change (if m.1 = pg then _ else s.table.entry m) = _
    have hmp : m.1 ≠ pg := fun hc => hpg (hc ▸ (mem_slots.mp hm.1).1)
    exact if_neg hmp

/- What a task sets in an entry that it has reserved. -/
theorem reserved_put {e : ContigMemlink} (h : Table.Reserved s.table mp) (m : Slot) :
    Table.Reserved (s.table.put mp e) m ↔ (Table.Reserved s.table m ∧ m ≠ mp) ∨ (m = mp ∧ e.pageAddr = reserved) := by
  rw [Table.Reserved,Table.Reserved,slots_put,put_entry]
  by_cases hm : m = mp
  · subst hm
    rw [if_pos rfl]
    exact ⟨fun hc => Or.inr ⟨rfl,hc.2⟩,fun hc => ⟨h.1,hc.elim (fun h1 => absurd rfl h1.2) And.right⟩⟩
  · rw [if_neg hm]
    exact ⟨fun hc => Or.inl ⟨hc,hm⟩,fun hc => hc.elim And.left fun h1 => absurd h1.1 hm⟩

theorem Inv.setEntry (hi : Inv s inuse) (hp : s.places[i]? = some p) {e : ContigMemlink} (hm : p.holds = some mp)
    (he : e.pageAddr = reserved) (hb : e.boundary = (s.table.entry mp).boundary) (hfr : p.frees = none)
    (htp : p.tblPage = none)
    (hq : q.frees = none ∧ q.apart = p.apart ∧ q.holds = some mp ∧ q.tblPage = none ∧ q.counted = p.counted ∧
      Local (s.table.put mp e) q) : Inv ({ s with table := s.table.put mp e }.move i q) inuse := by
  obtain ⟨h1,h2,h3,h4,h5,h6⟩ := hq
  have hres := hi.reserved_of_holds hp hm
  refine hi.moved hp rfl ⟨hi.maps.write (Or.inr hres.2) (Or.inr he) hb,fun x => ?_,fun x => ?_,hi.addrs,hi.real,
    fun m => ?_,fun pg => ?_,hi.distinct,?_,fun m _ hne => ?_,h6,hi.fine⟩
  · rw [hfr,h1]; rfl
  · rw [h2]; rfl
  · rw [hm,h3]
    change (if Table.Reserved (s.table.put mp e) m then 1 else 0) + _ = _
    simp only [reserved_put hres,he,and_true]
    by_cases hmm : m = mp
    · subst hmm
      rw [if_pos (Or.inr rfl),if_pos hres]
    · simp only [hmm,ne_eq,not_false_eq_true,and_true,or_false]
  · rw [htp,h4]; rfl
  · rw [h5]; rfl
  · change (s.table.put mp e).entry m = _
    rw [put_entry,if_neg]
    rintro rfl
    exact hne hm

/- The address is entered: the area is that of the caller now. -/
theorem Inv.enter (hi : Inv s inuse) (hp : s.places[i]? = some (.toAddr mp order a)) :
    Inv ({ s with table := s.table.setAddr mp a, owned := (a,order) :: s.owned }.move i .idle)
      ((a,order) :: inuse) := by
  have hres : Table.Reserved s.table mp := hi.reserved_of_holds hp rfl
  have hpos : 0 < standing Place.apart s.places (a,order) := standing_pos hp rfl
  have hk := hi.kernel (a,order)
  have hnd : s.kernel.Nodup := hi.addrs.of_map
  have hone := List.nodup_iff_count_le_one.mp hnd (a,order)
  have hmem : (a,order) ∈ s.kernel := List.count_pos_iff.mp (by omega)
  have hnew : a ∉ inuse.map Prod.fst := by
    intro hc
    obtain ⟨x,hx,hxa⟩ := List.mem_map.mp hc
    have hxk : x ∈ s.kernel := List.count_pos_iff.mp (by
      have := List.count_pos_iff.mpr hx
      have := hi.kernel x
      omega)
    obtain rfl : x = (a,order) := List.inj_on_of_nodup_map hi.addrs hxk hmem hxa
    have := List.count_pos_iff.mpr hx
    omega
  obtain ⟨h0,hr⟩ := hi.real _ hmem
  have hord : (s.table.entry mp).order = order := hi.locals _ (List.mem_of_getElem? hp)
  have hmaps := hi.maps.setAddr hres.1 hres.2 h0 hr hnew
  rw [hord] at hmaps
  refine hi.moved hp rfl ⟨hmaps,fun x => ?_,fun x => ?_,hi.addrs,hi.real,fun m => ?_,fun _ => rfl,hi.distinct,?_,
    fun m _ hne => ?_,trivial,hi.fine⟩
  · change ((a,order) :: inuse).count x + s.owned.count x + 0 = inuse.count x + ((a,order) :: s.owned).count x + 0
    rw [List.count_cons,List.count_cons]
    omega
  · change s.kernel.count x + inuse.count x + (if some (a,order) = some x then 1 else 0) =
      s.kernel.count x + ((a,order) :: inuse).count x + 0
    rw [List.count_cons]
    simp only [Option.some.injEq,beq_iff_eq]
    omega
  · change (if Table.Reserved (s.table.put mp _) m then 1 else 0) + (if some mp = some m then 1 else 0) =
      (if Table.Reserved s.table m then 1 else 0) + 0
    simp only [reserved_put hres,hr,and_false,or_false,Option.some.injEq]
    by_cases hmm : m = mp
    · subst hmm
      rw [if_neg fun hc => hc.2 rfl,if_pos rfl,if_pos hres]
    · rw [if_neg (show ¬ mp = m from fun hc => hmm hc.symm)]
      simp only [hmm,ne_eq,not_false_eq_true,and_true]
  · change s.table.contigBytes + _ + (areaBytes (a,order) : ℤ) = s.table.contigBytes + _ + 0
    rw [List.map_cons,List.sum_cons]
    push_cast
    ring
  · change (s.table.put mp _).entry m = _
    rw [put_entry,if_neg]
    rintro rfl
    exact hne rfl

/- The section of `lis_free_pages_fcn` finds the area. -/
theorem Inv.unlist (hi : Inv s inuse) (hp : s.places[i]? = some (.free a order)) :
    ∃ table, s.table.unlist a = (some (a,order),table) ∧
      Inv ({ s with table := table }.move i (.release a order)) (inuse.erase (a,order)) := by
  have hpos : 0 < standing Place.frees s.places (a,order) := standing_pos hp rfl
  have huse := hi.use (a,order)
  have hmem : (a,order) ∈ inuse := List.count_pos_iff.mp (by omega)
  obtain ⟨h0,hr⟩ := hi.maps.real _ hmem
  obtain ⟨mp,hmp,hma,hmo,hun,hmaps⟩ := hi.maps.unlist hmem
  refine ⟨s.table.clear mp,hun,?_⟩
  refine hi.moved hp rfl ⟨hmaps,fun x => ?_,fun x => ?_,hi.addrs,hi.real,fun m => ?_,fun _ => rfl,hi.distinct,?_,
    fun m hm _ => ?_,trivial,hi.fine⟩
  · change (inuse.erase (a,order)).count x + s.owned.count x + (if some (a,order) = some x then 1 else 0) =
      inuse.count x + s.owned.count x + 0
    have hpx : (a,order) = x → 0 < inuse.count x := fun hx => hx ▸ List.count_pos_iff.mpr hmem
    rw [List.count_erase]
    simp only [Option.some.injEq,beq_iff_eq]
    split_ifs with hx
    · have := hpx hx
      omega
    · omega
  · change s.kernel.count x + inuse.count x + 0 =
      s.kernel.count x + (inuse.erase (a,order)).count x + if some (a,order) = some x then 1 else 0
    have hpx : (a,order) = x → 0 < inuse.count x := fun hx => hx ▸ List.count_pos_iff.mpr hmem
    rw [List.count_erase]
    simp only [Option.some.injEq,beq_iff_eq]
    split_ifs with hx
    · have := hpx hx
      omega
    · omega
  · change (if Table.Reserved (s.table.clear mp) m then 1 else 0) + 0 = (if Table.Reserved s.table m then 1 else 0) + 0
    have hiff : Table.Reserved (s.table.clear mp) m ↔ Table.Reserved s.table m := by
      refine and_congr Iff.rfl ?_
      change ((s.table.put mp _).entry m).pageAddr = reserved ↔ _
      rw [put_entry]
      split_ifs with hmm
      · subst hmm
        exact iff_of_false (show ¬ 0 = reserved by decide) fun hc => hr (hma.symm.trans hc)
      · exact Iff.rfl
    simp only [hiff]
  · change s.table.contigBytes - 2 ^ (s.table.entry mp).order * pageSize + (inuse.map areaBytes).sum + 0 =
      s.table.contigBytes + ((inuse.erase (a,order)).map areaBytes).sum + 0
    have hsum := ((List.perm_cons_erase hmem).map areaBytes).sum_eq
    rw [List.map_cons,List.sum_cons] at hsum
    have hbytes : ((areaBytes (a,order) : ℕ) : ℤ) = 2 ^ order * pageSize := by
      rw [areaBytes]
      push_cast
      rfl
    rw [hmo,hsum,Nat.cast_add,hbytes]
    ring
  · change (s.table.put mp _).entry m = _
    rw [put_entry,if_neg]
    rintro rfl
    exact hr (hma.symm.trans hm.2)

theorem Inv.release (hi : Inv s inuse) (hp : s.places[i]? = some (.release a order)) :
    Inv ((s.freePages a order).move i .idle) inuse := by
  have hpos : 0 < standing Place.apart s.places (a,order) := standing_pos hp rfl
  have hk := hi.kernel (a,order)
  have hmem : (a,order) ∈ s.kernel := List.count_pos_iff.mp (by omega)
  have hfree : s.freePages a order = { s with kernel := s.kernel.erase (a,order) } := by
    rw [Pages.freePages,if_pos (List.contains_iff_mem.mpr hmem)]
  rw [hfree]
  refine hi.moved hp rfl ⟨hi.maps,fun _ => rfl,fun x => ?_,hi.addrs.sublist ((List.erase_sublist ..).map _),
    fun x hx => hi.real x (List.mem_of_mem_erase hx),fun _ => rfl,fun _ => rfl,hi.distinct,rfl,fun _ _ _ => rfl,trivial,
    hi.fine⟩
  change (s.kernel.erase (a,order)).count x + inuse.count x + (if some (a,order) = some x then 1 else 0) =
    s.kernel.count x + inuse.count x + 0
  have hpx : (a,order) = x → 0 < s.kernel.count x := fun hx => hx ▸ List.count_pos_iff.mpr hmem
  rw [List.count_erase]
  simp only [Option.some.injEq,beq_iff_eq]
  split_ifs with hx
  · have := hpx hx
    omega
  · omega

/-- A step of a task keeps what holds, when the kernel gives the pages that it is asked for. -/
theorem Inv.next (hi : Inv s inuse) (hp : s.places[i]? = some p) (hans : ans = none → p.asks = false)
    (h : s.next i ans p = some t) : ∃ inuse', Inv t inuse' := by
  have hl := hi.locals p (List.mem_of_getElem? hp)
  cases p with
  | idle => cases h
  | search nbytes order =>
    obtain rfl := Option.some.inj h
    exact ⟨_,hi.reserve hp hl rfl rfl rfl rfl rfl ⟨rfl,rfl,rfl,rfl,rfl,hl⟩⟩
  | full nbytes order =>
    cases ans with
    | none =>
      obtain rfl := Option.some.inj h
      exact ⟨_,hi.moved hp rfl ⟨hi.maps,fun _ => rfl,fun _ => rfl,hi.addrs,hi.real,fun _ => rfl,fun _ => rfl,
        hi.distinct,
        rfl,fun _ _ _ => rfl,trivial,hi.fine⟩⟩
    | some pg =>
      simp only [Pages.next,Option.ite_none_right_eq_some] at h
      obtain ⟨hfresh,heq⟩ := h
      obtain rfl := Option.some.inj heq
      refine ⟨_,hi.moved hp rfl ⟨hi.maps,fun _ => rfl,fun _ => rfl,hi.addrs,hi.real,fun _ => rfl,fun g => ?_,
        List.nodup_cons.mpr ⟨hfresh.2.2.2,hi.distinct⟩,rfl,fun _ _ _ => rfl,hl,hi.fine⟩⟩
      change (pg :: s.tblKernel).count g + s.table.tblPages.count g + 0 =
        s.tblKernel.count g + s.table.tblPages.count g + if some pg = some g then 1 else 0
      rw [List.count_cons]
      simp only [Option.some.injEq,beq_iff_eq]
      omega
  | blank nbytes order pg =>
    obtain rfl := Option.some.inj h
    exact ⟨_,hi.link hp⟩
  | again nbytes order =>
    obtain rfl := Option.some.inj h
    exact ⟨_,hi.reserve hp hl rfl rfl rfl rfl rfl ⟨rfl,rfl,rfl,rfl,rfl,trivial⟩⟩
  | alloc mp nbytes order =>
    cases ans with
    | none => exact Bool.noConfusion (hans rfl)
    | some a =>
      simp only [Pages.next,Option.ite_none_right_eq_some] at h
      obtain ⟨hfresh,heq⟩ := h
      obtain rfl := Option.some.inj heq
      have har : a ≠ reserved := by
        rintro rfl
        exact absurd hfresh.2.1 (by decide)
      refine ⟨_,hi.moved hp rfl ⟨hi.maps,fun _ => rfl,fun x => ?_,List.nodup_cons.mpr ⟨hfresh.2.2.1,hi.addrs⟩,?_,
        fun _ => rfl,fun _ => rfl,hi.distinct,rfl,fun _ _ _ => rfl,hl,hi.fine⟩⟩
      · change ((a,order) :: s.kernel).count x + inuse.count x + 0 =
          s.kernel.count x + inuse.count x + if some (a,order) = some x then 1 else 0
        rw [List.count_cons]
        simp only [Option.some.injEq,beq_iff_eq]
        omega
      · exact List.forall_mem_cons.mpr ⟨⟨Nat.ne_of_gt hfresh.1,har⟩,hi.real⟩
  | toCount mp nbytes order a =>
    obtain rfl := Option.some.inj h
    refine ⟨_,hi.moved hp rfl ⟨hi.maps.bytes _,fun _ => rfl,fun _ => rfl,hi.addrs,hi.real,fun _ => rfl,fun _ => rfl,
      hi.distinct,?_,fun _ _ _ => rfl,trivial,hi.fine⟩⟩
    change s.table.contigBytes + orderBytes order + _ + 0 = s.table.contigBytes + _ + (areaBytes (a,order) : ℤ)
    rw [orderBytes_eq hl,areaBytes]
    push_cast
    ring
  | toSize mp nbytes order a =>
    obtain rfl := Option.some.inj h
    have hres := hi.reserved_of_holds hp rfl
    exact ⟨_,hi.setEntry hp rfl hres.2 rfl rfl rfl ⟨rfl,rfl,rfl,rfl,rfl,trivial⟩⟩
  | toOrder mp order a =>
    obtain rfl := Option.some.inj h
    have hres := hi.reserved_of_holds hp rfl
    refine ⟨_,hi.setEntry hp rfl hres.2 rfl rfl rfl ⟨rfl,rfl,rfl,rfl,rfl,?_⟩⟩
    rw [Local,put_entry,if_pos rfl]
  | toAddr mp order a =>
    obtain rfl := Option.some.inj h
    exact ⟨_,hi.enter hp⟩
  | free ptr order =>
    obtain ⟨table,hu,hinv⟩ := hi.unlist hp
    rw [Pages.next,hu] at h
    obtain rfl := Option.some.inj h
    exact ⟨_,hinv⟩
  | release addr order =>
    obtain rfl := Option.some.inj h
    exact ⟨_,hi.release hp⟩

end CSLiS.Memory.PageTasks
