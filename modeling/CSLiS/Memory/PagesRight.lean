import CSLiS.Memory.PageInv

/-!
# The table in every run

The table is right in every state that is reached as long as the kernel gives the pages it is asked for, and at the end
all is freed if there are still areas, or no table.
-/

namespace CSLiS.Memory.PageTasks
open Lib.Exec Lib.Crew

variable {s t : Pages} {inuse inuse' : List (ℕ × ℕ)} {i fuel order a pg : ℕ} {p q : Place} {m mp : Slot} {nbytes : ℤ}
  {ans : Option ℕ} {x : ℕ × ℕ}

theorem exists_of_standing {ρ : Type*} [DecidableEq ρ] {role : Place → Option ρ} {r : ρ} {l : List Place}
    (h : 0 < standing role l r) : ∃ p ∈ l, role p = some r := by
  obtain ⟨p,hp,hr⟩ := List.countP_pos_iff.mp h
  exact ⟨p,hp,of_decide_eq_true hr⟩

theorem standing_idle {ρ : Type*} [DecidableEq ρ] {role : Place → Option ρ} (h0 : role .idle = none) {l : List Place}
    (hl : ∀ p ∈ l, p = .idle) (r : ρ) : standing role l r = 0 := by
  by_contra hc
  obtain ⟨p,hp,hr⟩ := exists_of_standing (Nat.pos_of_ne_zero hc)
  rw [hl p hp,h0] at hr
  exact Option.some_ne_none r hr.symm

/- When no call is in progress the table has the areas of the callers. -/
theorem Inv.perm_owned (hi : Inv s inuse) (hidle : ∀ p ∈ s.places, p = .idle) : inuse.Perm s.owned := by
  refine List.perm_iff_count.mpr fun x => ?_
  rw [hi.use,standing_idle rfl hidle,Nat.add_zero]

theorem Inv.kernel_perm (hi : Inv s inuse) (hidle : ∀ p ∈ s.places, p = .idle) : s.kernel.Perm inuse := by
  refine List.perm_iff_count.mpr fun x => ?_
  rw [hi.kernel,standing_idle rfl hidle,Nat.add_zero]

theorem Inv.pages_perm (hi : Inv s inuse) (hidle : ∀ p ∈ s.places, p = .idle) : s.tblKernel.Perm s.table.tblPages := by
  refine List.perm_iff_count.mpr fun x => ?_
  rw [hi.pages,standing_idle rfl hidle,Nat.add_zero]

theorem Inv.right (hi : Inv s inuse) (hc : s.closed = false) : Right s := by
  refine ⟨fun x hx => ?_,fun m hm => ?_,fun hidle _ => ?_,fun hidle => ?_,hi.fine,fun h => ?_⟩
  · have hmem : x ∈ inuse := List.count_pos_iff.mp (by
      have := hi.use x
      have := List.count_pos_iff.mpr hx
      omega)
    obtain ⟨m,hm,hma,hmo⟩ := hi.maps.entered x hmem
    obtain ⟨h0,hr⟩ := hi.maps.real x hmem
    exact ⟨m,hm,hma,hmo,fun n hn hna => hi.maps.once n hn m hm (hna.trans hma.symm) (hna ▸ h0) (hna ▸ hr)⟩
  · rcases hi.maps.use m hm with h | h | h
    · exact Or.inl h
    · refine Or.inr (Or.inl ⟨h,exists_of_standing ?_⟩)
      rw [hi.held,if_pos ⟨hm,h⟩]
      exact Nat.one_pos
    · refine Or.inr (Or.inr ⟨(s.table.entry m).order,?_⟩)
      have hpos := List.count_pos_iff.mpr h
      rw [hi.use] at hpos
      rcases Nat.add_pos_iff_pos_or_pos.mp hpos with h1 | h1
      · exact Or.inl (List.count_pos_iff.mp h1)
      · exact Or.inr (exists_of_standing h1)
  · have htot : total Place.counted s.places = 0 := total_zero fun p hp => by rw [hidle p hp]; rfl
    rw [hi.bytes,htot,Nat.add_zero,((hi.perm_owned hidle).map areaBytes).sum_eq]
  · exact (hi.kernel_perm hidle).trans (hi.perm_owned hidle)
  · exact absurd (hc.symm.trans h) (by decide)

/-! ### The calls -/

theorem Inv.get (hi : Inv s inuse) (hp : s.places[i]? = some .idle) (ho : order ≤ 18) :
    Inv (s.move i (.search nbytes order)) inuse :=
  hi.moved hp rfl ⟨hi.maps,fun _ => rfl,fun _ => rfl,hi.addrs,hi.real,fun _ => rfl,fun _ => rfl,hi.distinct,rfl,
    fun _ _ _ => rfl,ho,hi.fine⟩

theorem Inv.put (hi : Inv s inuse) (hp : s.places[i]? = some .idle) (hx : x ∈ s.owned) :
    Inv { s.move i (.free x.1 x.2) with owned := s.owned.erase x } inuse := by
  refine hi.moved hp rfl ⟨hi.maps,fun y => ?_,fun _ => rfl,hi.addrs,hi.real,fun _ => rfl,fun _ => rfl,hi.distinct,rfl,
    fun _ _ _ => rfl,trivial,hi.fine⟩
  change inuse.count y + s.owned.count y + 0 = inuse.count y + (s.owned.erase x).count y +
    if some (x.1,x.2) = some y then 1 else 0
  have hpx : x = y → 0 < s.owned.count y := fun hxy => hxy ▸ List.count_pos_iff.mpr hx
  rw [List.count_erase]
  simp only [Option.some.injEq,beq_iff_eq]
  split_ifs with hxy
  · have := hpx hxy
    omega
  · omega

/-! ### The end -/

/- What the loops of `lis_free_all_pages` go through. -/
structure Closing (s : Pages) (inuse : List (ℕ × ℕ)) : Prop where
  maps : s.table.Maps inuse
  kernel : s.kernel.Perm inuse
  fine : s.wrong = false

theorem read_eq (h : m.1 ∈ s.tblKernel) : s.read m = s := by
  rw [Pages.read,if_pos (List.contains_iff_mem.mpr h)]

theorem freeAreas_spec (l : List Slot) (hc : Closing s inuse) (hl : ∀ m ∈ l, m ∈ s.table.slots ∧ m.1 ∈ s.tblKernel) :
    ∃ inuse', Closing (s.freeAreas l) inuse' ∧ (s.freeAreas l).tblKernel = s.tblKernel ∧
      (s.freeAreas l).table.tblPages = s.table.tblPages ∧
      ∀ m, m ∈ l ∨ (s.table.entry m).pageAddr = 0 ∨ (s.table.entry m).pageAddr = reserved →
        ((s.freeAreas l).table.entry m).pageAddr = 0 ∨ ((s.freeAreas l).table.entry m).pageAddr = reserved := by
  induction l generalizing s inuse with
  | nil => exact ⟨inuse,hc,rfl,rfl,fun m hm => hm.resolve_left List.not_mem_nil⟩
  | cons mp l ih =>
    obtain ⟨⟨hslot,hpage⟩,hrest⟩ := List.forall_mem_cons.mp hl
    rw [Pages.freeAreas,read_eq hpage]
    split_ifs with hfree
    · obtain ⟨inuse',h1,h2,h3,h4⟩ := ih hc hrest
      refine ⟨inuse',h1,h2,h3,fun m hm => h4 m ?_⟩
      rcases hm with hm | hm
      · rcases List.mem_cons.mp hm with rfl | hm
        · exact Or.inr hfree
        · exact Or.inl hm
      · exact Or.inr hm
    · have hmem :=
        ((hc.maps.use mp hslot).resolve_left fun h => hfree (Or.inl h)).resolve_left fun h => hfree (Or.inr h)
      obtain ⟨m',hm',hma,-,hun,hmaps⟩ := hc.maps.unlist hmem
      obtain ⟨h0,hr⟩ := not_or.mp hfree
      obtain rfl : m' = mp := hc.maps.once m' hm' mp hslot hma (hma ▸ h0) (hma ▸ hr)
      rw [hun]
      have hker : ((s.table.entry m').pageAddr,(s.table.entry m').order) ∈ s.kernel := hc.kernel.mem_iff.mpr hmem
      have hfp : ({ s with table := s.table.clear m' } : Pages).freePages (s.table.entry m').pageAddr
          (s.table.entry m').order =
          { s with
            table := s.table.clear m'
            kernel := s.kernel.erase ((s.table.entry m').pageAddr,(s.table.entry m').order) } := by
        rw [Pages.freePages,if_pos (List.contains_iff_mem.mpr hker)]
      have hread (u : Pages) (hu : u.tblKernel = s.tblKernel) : u.read m' = u := read_eq (hu ▸ hpage)
      simp only
      rw [hfp,hread _ (by rfl)]
      have hclosing : Closing ({ s with
          table := s.table.clear m'
          kernel := s.kernel.erase ((s.table.entry m').pageAddr,(s.table.entry m').order) } : Pages) _ :=
        ⟨hmaps,hc.kernel.erase _,hc.fine⟩
      obtain ⟨inuse',h1,h2,h3,h4⟩ := ih hclosing hrest
      refine ⟨inuse',h1,h2,h3,fun m hm => h4 m ?_⟩
      by_cases hmm : m = m'
      · refine Or.inr (Or.inl ?_)
        change ((s.table.put m' _).entry m).pageAddr = 0
        rw [put_entry,if_pos hmm]
      · rcases hm with hm | hm
        · exact Or.inl ((List.mem_cons.mp hm).resolve_left hmm)
        · refine Or.inr ?_
          change ((s.table.put m' _).entry m).pageAddr = 0 ∨ ((s.table.put m' _).entry m).pageAddr = reserved
          rw [put_entry,if_neg hmm]
          exact hm

/- The other entries of a page are passed over. -/
theorem freeTable_skip (b : Option Slot) (l rest : List Slot)
    (hl : ∀ m ∈ l, (s.table.entry m).boundary = false ∧ m.1 ∈ s.tblKernel) :
    s.freeTable b (l ++ rest) = s.freeTable b rest := by
  induction l with
  | nil => rfl
  | cons mp l ih =>
    obtain ⟨⟨hb,hpage⟩,hl⟩ := List.forall_mem_cons.mp hl
    rw [List.cons_append,Pages.freeTable,read_eq hpage]
    simp only [hb,Bool.false_eq_true,if_false]
    rw [read_eq hpage]
    exact ih hl

theorem page_eq (pg : ℕ) : Table.page pg = (pg,0) :: (List.range 101).map fun i => (pg,i + 1) := by
  rw [Table.page,nentries,List.range_succ_eq_map,List.map_cons,List.map_map]
  rfl

/- The page `b` was passed, the others of the table are still to come. -/
theorem freeTable_spec (l : List ℕ) (b : Option Slot) (hb : ∀ m, b = some m → m.2 = 0)
    (hnd : s.tblKernel.Nodup) (hp : s.tblKernel.Perm ((b.map Prod.fst).toList ++ l)) (hf : s.wrong = false)
    (hh : ∀ pg ∈ l, ∀ m ∈ Table.page pg, (s.table.entry m).boundary = (m.2 == 0)) :
    (s.freeTable b (l.flatMap Table.page)).tblKernel = [] ∧ (s.freeTable b (l.flatMap Table.page)).wrong = false ∧
      (s.freeTable b (l.flatMap Table.page)).kernel = s.kernel := by
  induction l generalizing s b with
  | nil =>
    rw [List.flatMap_nil,Pages.freeTable]
    cases b with
    | none => exact ⟨hp.eq_nil,hf,rfl⟩
    | some m =>
      have hk : s.tblKernel = [m.1] := List.perm_singleton.mp hp
      rw [Pages.freeBoundary,Pages.freePage,hk,if_pos ⟨hb m rfl,by simp⟩]
      exact ⟨List.erase_cons_head ..,hf,rfl⟩
  | cons pg l ih =>
    obtain ⟨hhead,hh⟩ := List.forall_mem_cons.mp hh
    have hpg : pg ∈ s.tblKernel := hp.mem_iff.mpr (List.mem_append_right _ (List.mem_cons_self ..))
    rw [List.flatMap_cons,page_eq,List.cons_append,Pages.freeTable,read_eq hpg]
    have h0 : (s.table.entry (pg,0)).boundary = true := hhead _ (by rw [page_eq]; exact List.mem_cons_self ..)
    simp only [h0,if_true]
    have hrest : ∀ m ∈ (List.range 101).map fun i => (pg,i + 1), (s.table.entry m).boundary = false ∧ m.1 = pg := by
      intro m hm
      obtain ⟨i,-,rfl⟩ := List.mem_map.mp hm
      refine ⟨?_,rfl⟩
      rw [hhead _ (by rw [page_eq]; exact List.mem_cons_of_mem _ hm)]
      rfl
    have hskip (u : Pages) (ht : u.table = s.table) (hu : pg ∈ u.tblKernel) (b : Option Slot) :
        u.freeTable b (((List.range 101).map fun i => (pg,i + 1)) ++ l.flatMap Table.page) =
          u.freeTable b (l.flatMap Table.page) :=
      freeTable_skip b _ _ fun m hm => ⟨by rw [ht]; exact (hrest m hm).1,(hrest m hm).2.symm ▸ hu⟩
    cases b with
    | none =>
      rw [Pages.freeBoundary,read_eq hpg,hskip s rfl hpg]
      exact ih (some (pg,0)) (fun m hm => Option.some.inj hm ▸ rfl) hnd hp hf hh
    | some m =>
      have hm : m.1 ∈ s.tblKernel := hp.mem_iff.mpr (List.mem_cons_self ..)
      have hfree : s.freeBoundary (some m) = { s with tblKernel := s.tblKernel.erase m.1 } := by
        rw [Pages.freeBoundary,Pages.freePage,if_pos ⟨hb m rfl,List.contains_iff_mem.mpr hm⟩]
      have hp' : (s.tblKernel.erase m.1).Perm (pg :: l) := by
        refine (hp.erase m.1).trans ?_
        rw [Option.map_some,Option.toList_some,List.singleton_append,List.erase_cons_head]
      have hpg' : pg ∈ s.tblKernel.erase m.1 := hp'.mem_iff.mpr (List.mem_cons_self ..)
      have hread : ({ s with tblKernel := s.tblKernel.erase m.1 } : Pages).read (pg,0) = _ := read_eq hpg'
      rw [hfree,hread,hskip _ (by rfl) (by exact hpg')]
      exact ih (some (pg,0)) (fun m hm => Option.some.inj hm ▸ rfl) (hnd.erase _) hp' hf hh

/- All is freed, or there was nothing. -/
theorem Inv.freeAll (hi : Inv s inuse) (hidle : ∀ p ∈ s.places, p = .idle)
    (hg : s.table.contigBytes ≠ 0 ∨ s.table.tblPages = []) : Right s.lisFreeAllPages := by
  have hperm := hi.pages_perm hidle
  by_cases hb : s.table.contigBytes = 0
  · have hnil := hg.resolve_left (not_not.mpr hb)
    have hslots : s.table.slots = [] := by rw [Table.slots,hnil,List.flatMap_nil]
    have hinuse : inuse = [] := List.eq_nil_iff_forall_not_mem.mpr fun x hx => by
      obtain ⟨m,hm,-⟩ := hi.maps.entered x hx
      rw [hslots] at hm
      exact List.not_mem_nil hm
    have hkernel : s.kernel = [] := (hinuse ▸ hi.kernel_perm hidle).eq_nil
    have htbl : s.tblKernel = [] := (hnil ▸ hperm).eq_nil
    rw [Pages.lisFreeAllPages,if_neg (not_not.mpr hb)]
    refine ⟨by simp,fun m hm => ?_,fun _ h => Bool.noConfusion h,fun _ => ?_,hi.fine,fun _ => ⟨hkernel,htbl⟩⟩
    · change m ∈ s.table.slots at hm
      rw [hslots] at hm
      exact absurd hm List.not_mem_nil
    · rw [hkernel]
  · obtain ⟨inuse',h1,h2,h3,h4⟩ := freeAreas_spec s.table.slots ⟨hi.maps,hi.kernel_perm hidle,hi.fine⟩ fun m hm =>
      ⟨hm,hperm.mem_iff.mpr (mem_slots.mp hm).1⟩
    have hslots : (s.freeAreas s.table.slots).table.slots = s.table.slots := by rw [Table.slots,h3]; rfl
    -- an area would have an entry
    have hinuse : inuse' = [] := List.eq_nil_iff_forall_not_mem.mpr fun x hx => by
      obtain ⟨m,hm,hma,-⟩ := h1.maps.entered x hx
      obtain ⟨h0,hr⟩ := h1.maps.real x hx
      rw [hslots] at hm
      rcases h4 m (Or.inl hm) with h | h
      · exact h0 (hma.symm.trans h)
      · exact hr (hma.symm.trans h)
    have hkernel : (s.freeAreas s.table.slots).kernel = [] := (hinuse ▸ h1.kernel).eq_nil
    obtain ⟨h5,h6,h7⟩ := freeTable_spec (s := s.freeAreas s.table.slots) s.table.tblPages none (fun m hm => by cases hm)
      (h2 ▸ hi.distinct) (h2 ▸ hperm) h1.fine fun pg hpg m hm => h1.maps.heads m (by
        rw [hslots]
        exact List.mem_flatMap.mpr ⟨pg,hpg,hm⟩)
    have hflat : (s.freeAreas s.table.slots).table.slots = s.table.tblPages.flatMap Table.page := hslots
    rw [← hflat] at h5 h6 h7
    rw [Pages.lisFreeAllPages,if_pos hb]
    refine ⟨by simp,fun m hm => ?_,fun _ h => Bool.noConfusion h,fun _ => ?_,h6,fun _ => ⟨h7.trans hkernel,h5⟩⟩
    · change m ∈ List.flatMap Table.page [] at hm
      exact absurd hm List.not_mem_nil
    · change (Pages.freeTable _ none _).kernel.Perm []
      rw [h7,hkernel]

/-! ### Every run -/

/- At the end no call can be made. -/
def Holds (s : Pages) : Prop := if s.closed then ∀ p ∈ s.places, p = .idle else ∃ inuse, Inv s inuse

theorem closed_stuck (hc : s.closed = true) (hidle : ∀ p ∈ s.places, p = .idle) (act : Act) :
    step fuel s act = none := by
  cases act with
  | get i nbytes =>
    rw [step,if_neg]
    exact fun h => Bool.noConfusion (hc.symm.trans h.2)
  | put i ptr =>
    rw [step,if_neg]
    exact fun h => Bool.noConfusion (hc.symm.trans h.2)
  | run i ans =>
    refine Option.bind_eq_none_iff.mpr fun p hp => ?_
    rw [hidle p (List.mem_of_getElem? hp)]
    rfl
  | freeAll =>
    rw [step,if_neg]
    exact fun h => Bool.noConfusion (hc.symm.trans h.2)

/- The tasks go on as they were. -/
theorem next_closed (h : s.next i ans p = some t) : t.closed = s.closed := by
  cases p with
  | idle => cases h
  | full nbytes order =>
    cases ans with
    | none => exact Option.some.inj h ▸ rfl
    | some pg =>
      simp only [Pages.next,Option.ite_none_right_eq_some] at h
      exact Option.some.inj h.2 ▸ rfl
  | alloc mp nbytes order =>
    cases ans with
    | none => exact Option.some.inj h ▸ rfl
    | some a =>
      simp only [Pages.next,Option.ite_none_right_eq_some] at h
      exact Option.some.inj h.2 ▸ rfl
  | search nbytes order | again nbytes order =>
    obtain rfl := Option.some.inj h
    rw [Pages.reserve]
    cases s.table.findEntry 0 <;> rfl
  | free ptr order =>
    rw [Pages.next] at h
    obtain ⟨x,hx⟩ : ∃ x, s.table.unlist ptr = x := ⟨_,rfl⟩
    rw [hx] at h
    obtain ⟨x1,x2⟩ := x
    cases x1 <;> exact Option.some.inj h ▸ rfl
  | release addr order =>
    obtain rfl := Option.some.inj h
    rw [Pages.freePages]
    split_ifs <;> rfl
  | blank nbytes order pg => exact Option.some.inj h ▸ rfl
  | toCount mp nbytes order a => exact Option.some.inj h ▸ rfl
  | toSize mp nbytes order a => exact Option.some.inj h ▸ rfl
  | toOrder mp order a => exact Option.some.inj h ▸ rfl
  | toAddr mp order a => exact Option.some.inj h ▸ rfl

/- A failed call leaves its entry reserved. -/
theorem Inv.lost (hi : Inv s inuse) (hp : s.places[i]? = some (.alloc mp nbytes order)) : ¬ Right (s.move i .idle) := by
  intro hr
  have hres := hi.reserved_of_holds hp rfl
  have hmoves := standing_moves hp .idle Place.holds mp
  have hone := hi.held mp
  rw [if_pos hres] at hone
  have hzero : standing Place.holds (s.places.set i .idle) mp = 0 := by
    rw [hone,show Place.holds (.alloc mp nbytes order) = some mp from rfl,if_pos rfl,
      show Place.holds .idle = none from rfl,if_neg (by simp)] at hmoves
    omega
  rcases hr.entries mp hres.1 with h | h | ⟨o,h⟩
  · exact absurd (hres.2.symm.trans h) (by decide)
  · obtain ⟨-,p,hp',hpm⟩ := h
    exact standing_zero hzero hp' hpm
  · have hmem : ((s.table.entry mp).pageAddr,o) ∈ inuse := by
      refine List.count_pos_iff.mp ?_
      rw [hi.use]
      rcases h with h | ⟨p,hp',hpf⟩
      · have hown : 0 < s.owned.count ((s.table.entry mp).pageAddr,o) := List.count_pos_iff.mpr h
        omega
      · have hsame : Moves none none _ _ := standing_moves hp .idle Place.frees
        have hpos : 0 < standing Place.frees (s.places.set i .idle) ((s.table.entry mp).pageAddr,o) :=
          List.countP_pos_iff.mpr ⟨p,hp',decide_eq_true hpf⟩
        rw [Moves.same hsame] at hpos
        omega
    exact (hi.maps.real _ hmem).2 hres.2

theorem Holds.step (hs : Holds s) (act : Act) (h : step fuel s act = some t) :
    (Guard s act ↔ ∀ u, step fuel s act = some u → Right u) ∧ (Guard s act → Holds t) := by
  cases hc : s.closed with
  | true =>
    rw [Holds,hc,if_pos rfl] at hs
    rw [closed_stuck hc hs] at h
    cases h
  | false =>
    rw [Holds,hc,if_neg (by decide)] at hs
    obtain ⟨inuse,hi⟩ := hs
    have honly : (∀ u, PageTasks.step fuel s act = some u → Right u) ↔ Right t :=
      ⟨fun hr => hr t h,fun hr u hu => Option.some.inj (h.symm.trans hu) ▸ hr⟩
    rw [honly]
    -- a step that keeps the invariant
    have hgood {inuse' : List (ℕ × ℕ)} (hinv : Inv t inuse') (ht : t.closed = false) (hg : Guard s act) :
        (Guard s act ↔ Right t) ∧ (Guard s act → Holds t) := by
      refine ⟨iff_of_true hg (hinv.right ht),fun _ => ?_⟩
      rw [Holds,ht,if_neg (by decide)]
      exact ⟨inuse',hinv⟩
    cases act with
    | get i nbytes =>
      simp only [PageTasks.step,Option.ite_none_right_eq_some] at h
      obtain ⟨⟨hp,-⟩,h⟩ := h
      obtain ⟨order,ho,rfl⟩ := Option.map_eq_some_iff.mp h
      exact hgood (hi.get hp (findOrder_le (Nat.zero_le 18) ho)) hc trivial
    | put i ptr =>
      simp only [PageTasks.step,Option.ite_none_right_eq_some] at h
      obtain ⟨⟨hp,-⟩,h⟩ := h
      split_ifs at h
      · obtain rfl := Option.some.inj h
        exact hgood hi hc trivial
      · obtain ⟨x,hx,rfl⟩ := Option.map_eq_some_iff.mp h
        have hptr := List.find?_some hx
        obtain rfl : x.1 = ptr := beq_iff_eq.mp hptr
        exact hgood (hi.put hp (List.mem_of_find?_eq_some hx)) hc trivial
    | run i ans =>
      obtain ⟨p,hp,hn⟩ := Option.bind_eq_some_iff.mp h
      have ht : t.closed = false := (next_closed hn).trans hc
      by_cases hans : ans = none → p.asks = false
      · obtain ⟨inuse',hinv⟩ := hi.next hp hans hn
        refine hgood hinv ht fun ha q hq => ?_
        obtain rfl := Option.some.inj (hp.symm.trans hq)
        exact hans ha
      · obtain ⟨rfl,hasks⟩ := Classical.not_imp.mp hans
        have hnot : ¬ Guard s (.run i none) := fun hg => hasks (hg rfl p hp)
        refine ⟨iff_of_false hnot ?_,fun hg => absurd hg hnot⟩
        cases p with
        | alloc mp nbytes order =>
          obtain rfl := Option.some.inj hn
          exact hi.lost hp
        | _ => exact absurd rfl hasks
    | freeAll =>
      simp only [PageTasks.step,Option.ite_none_right_eq_some] at h
      obtain ⟨⟨hidle,-⟩,h⟩ := h
      obtain rfl := Option.some.inj h
      by_cases hg : Guard s .freeAll
      · refine ⟨iff_of_true hg (hi.freeAll hidle hg),fun _ => ?_⟩
        have hcl : s.lisFreeAllPages.closed = true ∧ s.lisFreeAllPages.places = s.places := by
          rw [Pages.lisFreeAllPages]
          split_ifs <;> exact ⟨rfl,rfl⟩
        rw [Holds,hcl.1,if_pos rfl,hcl.2]
        exact hidle
      · refine ⟨iff_of_false hg fun hr => ?_,fun h => absurd h hg⟩
        obtain ⟨hb,hne⟩ := not_or.mp hg
        rw [Pages.lisFreeAllPages,if_neg hb] at hr
        have hnil : s.tblKernel = [] := (hr.clean rfl).2
        exact hne (hnil ▸ hi.pages_perm hidle).symm.eq_nil

theorem holds_init (tasks : ℕ) : Holds (.init tasks) := by
  rw [Holds,if_neg (by simp [Pages.init])]
  refine ⟨[],.empty,fun x => ?_,fun x => ?_,List.nodup_nil,by simp [Pages.init],fun m => ?_,fun pg => ?_,
    List.nodup_nil,?_,
    fun p hp => ?_,rfl⟩
  · rw [Pages.init,standing_replicate _ rfl]
    rfl
  · rw [Pages.init,standing_replicate _ rfl]
    rfl
  · rw [Pages.init,standing_replicate _ rfl]
    simp [Table.Reserved,Table.empty,Table.slots]
  · rw [Pages.init,standing_replicate _ rfl]
    rfl
  · rw [Pages.init]
    simp [Table.empty,total,Place.counted]
  · rw [List.eq_of_mem_replicate hp]
    trivial

theorem pages_right (fuel tasks : ℕ) (acts : List Act) (s : Pages) (h : exec (step fuel) (.init tasks) acts = some s) :
    Meets (step fuel) Guard (.init tasks) acts ↔
      Meets (step fuel) (fun s act => ∀ t, step fuel s act = some t → Right t) (.init tasks) acts :=
  meets_congr (fun _ act _ hs ha => hs.step act ha) (holds_init tasks) h

/- Two tasks link a page in at the same time, one area is freed, the other one at the end. -/
def twoTasks : List Act :=
  [.get 0 5000,.run 0 none,.get 1 1,.run 1 none,.run 0 (some 4096),.run 1 (some 8192),.run 0 none,.run 1 none,
    .run 0 none,.run 1 none,.run 0 (some 65536),.run 1 (some 131072),.run 0 none,.run 1 none,.run 0 none,.run 1 none,
    .run 0 none,.run 0 none,.put 0 65536,.run 1 none,.run 0 none,.run 1 none,.run 0 none,.freeAll]

theorem pages_right_twoTasks : ∃ s, exec (step 19) (.init 2) twoTasks = some s ∧
    Meets (step 19) (fun s act => ∀ t, step 19 s act = some t → Right t) (.init 2) twoTasks :=
  ⟨_,rfl,(pages_right 19 2 twoTasks _ rfl).mp (by decide +kernel)⟩

/- The page allocator fails, and the entry stays reserved. -/
def noPage : List Act := [.get 0 1,.run 0 none,.run 0 (some 4096),.run 0 none,.run 0 none,.run 0 none]

theorem reserved_for_ever : ¬ ∀ acts s, exec (step 19) (.init 1) acts = some s →
    Meets (step 19) (fun s act => ∀ t, step 19 s act = some t → Right t) (.init 1) acts := by
  intro h
  have hg := (meets_congr (fun _ act _ hs ha => hs.step act ha) (holds_init 1) rfl).mpr (h noPage _ rfl)
  exact absurd hg (by decide +kernel)

end CSLiS.Memory.PageTasks
