import CSLiS.Memory.Sized

/-!
# Requests for memory

A request keeps its area inside of what the allocator gives exactly when its size, header and guard word included, is at
most 2^30, or nothing is given.
-/

namespace CSLiS.Memory
open Lib Lib.Exec

variable {s t u : Mem} {r r' : Region} {nbytes z : ℤ} {fuel o p ptr : ℕ} {cls : Class} {useCache : Bool}
  {tbl mem res : Option ℕ}

/-! ### Which allocator is asked -/

theorem big_of_over (h0 : 0 ≤ nbytes) (hn : nbytes < 2 ^ 31) (h : 2 ^ 31 ≤ need nbytes) :
    big (abytes nbytes) = true := by
  have hlt : abytes nbytes < 2 ^ 31 := by
    have := @Int.bmod_lt (nbytes + 15) (2 ^ 32) (by decide)
    rw [abytes,toInt]
    omega
  have hge : -2 ^ 31 ≤ abytes nbytes := by
    have := @Int.le_bmod (nbytes + 15) (2 ^ 32) (by decide)
    rw [abytes,toInt]
    omega
  rcases abytes_over h0 h hn with h1 | h1
  · exact big_of_neg (by rw [linkSpace] at h1; omega) hge
  · exact (big_iff (by omega) hlt).mpr (by rw [maxKmallocSize,linkSpace,word]; omega)

/- What is not big enough for pages fits. -/
theorem need_of_small (h0 : 0 ≤ nbytes) (hn : nbytes < 2 ^ 31) (h : big (abytes nbytes) = false) :
    need nbytes ≤ 2 ^ 17 := by
  by_cases hover : 2 ^ 31 ≤ need nbytes
  · exact absurd ((big_of_over h0 hn hover).symm.trans h) (by decide)
  · rw [abytes_eq h0 (by omega)] at h
    have hb := mt (big_iff (z := (nbytes + 15) / 16 * 16) (by omega) (by rw [need,linkSpace,word] at hover; omega)).mpr
    rw [h,maxKmallocSize,linkSpace,word] at hb
    rw [need,linkSpace,word]
    have := hb (by decide)
    omega

theorem le_abytes (h0 : 0 ≤ nbytes) (h : need nbytes < 2 ^ 31) : nbytes ≤ abytes nbytes := by
  rw [abytes_eq h0 h]
  omega

namespace Mem

theorem Inv.congr (hi : Inv s) (h : t = { s with hung := t.hung, maxMem := t.maxMem }) : Inv t := by
  rw [h]
  exact ⟨⟨hi.kept.1,hi.kept.2,hi.kept.3,hi.kept.4⟩,hi.bases,hi.header,hi.table,hi.right,hi.fits,hi.sizes,hi.alloced,
    hi.list,hi.stray⟩

/-! ### A request -/

/- The page allocator is asked, and gives nothing. -/
theorem Inv.failed (hi : Inv s) (ht : t = { s with table := t.table })
    (hm : t.table.Maps (s.regions.filterMap Region.area)) : Inv t := by
  rw [ht]
  exact ⟨⟨hi.kept.1,hi.kept.2,hi.kept.3,hm.nodup⟩,hi.bases,hi.header,hm,hi.right,hi.fits,hi.sizes,hi.alloced,hi.list,
    hi.stray⟩

/- An address of new pages is not that of an area. -/
theorem Inv.page_new (hi : Inv s) {len : ℕ} (hg : Gives s t ⟨p,len,.pages o⟩) (hk : t.Kept) (hlen : linkSpace ≤ len) :
    p ≠ 0 ∧ p ≠ reserved ∧ p ∉ (s.regions.filterMap Region.area).map Prod.fst := by
  have hmem : (⟨p,len,.pages o⟩ : Region) ∈ t.regions := by
    rw [hg.regions]
    exact List.mem_append_right _ (List.mem_singleton_self _)
  refine ⟨Nat.ne_of_gt (hk.real _ hmem),fun hc => ?_,fun hc => ?_⟩
  · have hal := hk.aligned _ hmem rfl
    rw [hc] at hal
    exact absurd hal (show ¬ reserved % pageSize = 0 by decide)
  · obtain ⟨x,hx,hxp⟩ := List.mem_map.mp hc
    obtain ⟨r,hr,hrx⟩ := List.mem_filterMap.mp hx
    have hother := (hi.other hg hk (show p + linkSpace ≤ p + len by omega) hr).2
    have haddr : r.addr = x.1 := by
      revert hrx
      rw [Region.area]
      cases r.src <;> simp +contextual [Prod.ext_iff]
    exact hother (haddr.trans hxp)

/- The pages that were given are enough, unless the size has overflowed. -/
theorem Inv.pages (hi : Inv s) (h0 : 0 ≤ nbytes) (hn : nbytes < 2 ^ 31) (hbig : big (abytes nbytes) = true)
    (ho : o ≤ 18)
    (hz : tbytes nbytes ≤ 2 ^ o * pageSize) (hg : Gives s t ⟨p,2 ^ o * pageSize,.pages o⟩) (hk : t.Kept)
    (hm : p ≠ 0 → p ≠ reserved → p ∉ (s.regions.filterMap Region.area).map Prod.fst →
      t.table.Maps ((p,o) :: s.regions.filterMap Region.area)) :
    Inv { t.enlist p (abytes nbytes) with areas := t.areas ++ [(p,nbytes)] } ∧
      ((t.enlist p (abytes nbytes)).wild = false ↔ s.wild = false ∧ need nbytes < 2 ^ 31) := by
  have hlen : pageSize ≤ 2 ^ o * pageSize := Nat.le_mul_of_pos_left _ (Nat.two_pow_pos o)
  have hlen' : 2 ^ o * pageSize ≤ 2 ^ 18 * pageSize := Nat.mul_le_mul_right _ (Nat.pow_le_pow_right (by decide) ho)
  have hhead : p + linkSpace ≤ p + 2 ^ o * pageSize :=
    Nat.add_le_add_left (le_trans (by decide) hlen) p
  have hcast : ((2 ^ o * pageSize : ℕ) : ℤ) = 2 ^ o * pageSize := by push_cast; rfl
  have hwild : (t.enlist p (abytes nbytes)).wild = false ↔ s.wild = false ∧ need nbytes < 2 ^ 31 := by
    refine (hg.enlist_wild hk hhead (abytes nbytes)).trans (and_congr_right fun _ => ?_)
    simp only [Region.base,hcast]
    rw [pageSize,Nat.cast_ofNat] at hz ⊢
    rw [pageSize] at hlen'
    constructor
    · rintro ⟨h1,h2⟩
      by_contra hc
      rcases abytes_over h0 (not_lt.mp hc) hn with h3 | h3
      · omega
      · have hcap : (2 : ℤ) ^ o * 4096 ≤ 2 ^ 30 := by exact_mod_cast hlen'
        rw [linkSpace,word] at h2
        omega
    · intro hneed
      rw [tbytes_eq h0 hneed,need] at hz
      rw [abytes_eq h0 hneed]
      rw [linkSpace,word] at hz ⊢
      omega
  refine ⟨?_,hwild⟩
  obtain ⟨hp0,hpr,hpn⟩ := hi.page_new hg hk (le_trans (by decide) hlen)
  refine hi.add hg hk hhead h0 ?_ ?_ fun hw => le_abytes h0 (hwild.mp hw).2
  · rw [hg.regions,List.filterMap_append]
    exact (hm hp0 hpr hpn).perm (List.perm_append_singleton ..).symm
  · change big ((t.enlist p (abytes nbytes)).size p) = true
    rw [show (t.enlist p (abytes nbytes)).size p = abytes nbytes from Function.update_self ..]
    exact hbig

/- What the general allocator has given is enough. -/
theorem Inv.kmalloc (hi : Inv s) (h0 : 0 ≤ nbytes) (hneed : need nbytes ≤ 2 ^ 17) (hbig : big (abytes nbytes) = false)
    (hg : Gives s t r) (hk : t.Kept) (htab : t.table = s.table)
    (hz : (r.base : ℤ) + tbytes nbytes ≤ r.addr + r.len)
    (hsrc : (r.src = .kmalloc ∧ t.slabPtr r.addr = none) ∨ ∃ i, r.src = .slab i ∧ t.slabPtr r.addr = some i) :
    Inv { t.enlist r.base (abytes nbytes) with areas := t.areas ++ [(r.base,nbytes)] } ∧
      ((t.enlist r.base (abytes nbytes)).wild = false ↔ s.wild = false) := by
  have hlt : need nbytes < 2 ^ 31 := by omega
  rw [tbytes_eq h0 hlt,need] at hz
  have hhead : r.base + linkSpace ≤ r.addr + r.len := by
    rw [linkSpace,word] at hz
    rw [linkSpace]
    omega
  have hle := r.addr_le_base
  refine ⟨hi.add hg hk hhead h0 ?_ ?_ fun _ => le_abytes h0 hlt,?_⟩
  · rw [htab,hg.regions,List.filterMap_append]
    have hnone : r.area = none := by
      rcases hsrc with ⟨h,-⟩ | ⟨i,h,-⟩ <;> rw [Region.area,h]
    rw [List.filterMap_cons_none hnone,List.filterMap_nil,List.append_nil]
    exact hi.table
  · have hsize : (t.enlist r.base (abytes nbytes)).size r.base = abytes nbytes := Function.update_self ..
    rcases hsrc with ⟨h,hp⟩ | ⟨i,h,hp⟩
    · rw [Right,h,hsize]
      exact ⟨hbig,hp⟩
    · rw [Right,h,hsize]
      exact ⟨hbig,hp⟩
  · rw [hg.enlist_wild hk hhead,abytes_eq h0 hlt]
    refine and_iff_left ⟨?_,?_⟩
    · omega
    · rw [linkSpace,word] at hz ⊢
      omega

theorem step_malloc (hi : Inv s) (hf : 19 ≤ fuel) (h : step fuel s (.malloc nbytes cls useCache tbl mem) = some t) :
    Inv t ∧ ((t.hung = false ∧ t.wild = false) ↔
      (s.hung = false ∧ s.wild = false) ∧ Guard s (.malloc nbytes cls useCache tbl mem)) := by
  simp only [step] at h
  split_ifs at h with hn
  obtain ⟨h0,hn⟩ := hn
  by_cases href : s.Refuses
  · rw [lisMalloc,if_pos href] at h
    simp only [Option.ite_none_right_eq_some] at h
    obtain ⟨-,heq⟩ := h
    obtain rfl := Option.some.inj heq
    exact ⟨hi,(and_iff_left (Or.inl href)).symm⟩
  · rw [lisMalloc,if_neg href] at h
    cases hbig : big (abytes nbytes) with
    | false =>
      have hneed := need_of_small h0 hn hbig
      have hguard : Guard s (.malloc nbytes cls useCache tbl mem) := Or.inr (Or.inl (by omega))
      rw [if_neg (by rw [hbig]; decide),Option.map_some] at h
      obtain ⟨⟨res,u⟩,hk⟩ : ∃ r, s.lisKmalloc (tbytes nbytes) cls useCache mem = r := ⟨_,rfl⟩
      rw [hk] at h
      have htb : tbytes nbytes = need nbytes := tbytes_eq h0 (by omega)
      have hpos : 0 ≤ need nbytes := by
        rw [need]
        omega
      rcases lisKmalloc_spec (by omega) (by omega) hk with ⟨rfl,rfl⟩ | ⟨r,rfl,hg,htab,hz,hsrc⟩
      · simp only [Option.ite_none_right_eq_some] at h
        obtain rfl := Option.some.inj h.2
        exact ⟨hi,(and_iff_left hguard).symm⟩
      · simp only [Option.ite_none_right_eq_some,Nat.add_sub_cancel] at h
        obtain ⟨hkept,heq⟩ := h
        obtain rfl := Option.some.inj heq
        obtain ⟨hinv,hw⟩ := hi.kmalloc h0 hneed hbig hg ⟨hkept.1,hkept.2,hkept.3,hkept.4⟩ htab hz hsrc
        have hhung : u.hung = s.hung := by rw [hg.rest]
        refine ⟨hinv,Iff.trans ?_ (and_iff_left hguard).symm⟩
        exact and_congr (by rw [← hhung]; exact Iff.rfl) hw
    | true =>
      rw [if_pos (by rw [hbig])] at h
      by_cases hmid : 2 ^ 30 < need nbytes ∧ need nbytes < 2 ^ 31
      · -- the search for the order has no end
        have hnone : s.lisGetFreePages fuel (tbytes nbytes) tbl mem = none := by
          rw [lisGetFreePages,tbytes_eq h0 hmid.2,findOrder_none hmid.1]
          rfl
        rw [hnone] at h
        obtain rfl := Option.some.inj h
        refine ⟨hi.congr rfl,iff_of_false (fun hc => Bool.noConfusion hc.1) fun hc => ?_⟩
        rcases hc.2 with h1 | h1 | h1
        · exact href h1
        · omega
        · omega
      · have hz : tbytes nbytes ≤ 2 ^ 30 := by
          by_cases hover : 2 ^ 31 ≤ need nbytes
          · have := tbytes_over h0 hover hn
            omega
          · rw [tbytes_eq h0 (by omega)]
            omega
        obtain ⟨o,ho,hfo,hfit⟩ := findOrder_some hz (Nat.zero_le 18) hf
        cases hgot : s.lisGetFreePages fuel (tbytes nbytes) tbl mem with
        | none =>
          rw [lisGetFreePages,hfo] at hgot
          exact absurd hgot (by simp)
        | some got =>
          obtain ⟨res,u⟩ := got
          rw [hgot] at h
          cases res with
          | none =>
            simp only [Option.map_some,Option.ite_none_right_eq_some] at h
            obtain ⟨hkept,heq⟩ := h
            obtain rfl := Option.some.inj heq
            obtain ⟨o',-,⟨-,hu,hmaps,hfail⟩ | ⟨a,ha,-⟩⟩ := lisGetFreePages_spec hi.table hgot hkept.pages
            · have hguard : Guard s (.malloc nbytes cls useCache tbl mem) := by
                by_cases hover : 2 ^ 31 ≤ need nbytes
                · exact Or.inr (Or.inr ⟨hover,hfail⟩)
                · exact Or.inr (Or.inl (by omega))
              refine ⟨hi.failed hu hmaps,Iff.trans ?_ (and_iff_left hguard).symm⟩
              rw [hu]
            · cases ha
          | some a =>
            simp only [Option.map_some,Option.ite_none_right_eq_some,Nat.add_sub_cancel] at h
            obtain ⟨hkept,heq⟩ := h
            obtain rfl := Option.some.inj heq
            obtain ⟨o',ho',⟨hc,-⟩ | ⟨b,hb,hg,hnf,hmaps⟩⟩ := lisGetFreePages_spec hi.table hgot hkept.pages
            · cases hc
            · obtain rfl := Option.some.inj hb
              obtain rfl := Option.some.inj (hfo.symm.trans ho')
              obtain ⟨hinv,hw⟩ := hi.pages h0 hn hbig ho hfit hg ⟨hkept.1,hkept.2,hkept.3,hkept.4⟩ hmaps
              have hhung : u.hung = s.hung := by rw [hg.rest]
              have hguard : Guard s (.malloc nbytes cls useCache tbl mem) ↔ need nbytes < 2 ^ 31 := by
                constructor
                · rintro (h1 | h1 | h1)
                  · exact absurd h1 href
                  · omega
                  · exact absurd h1.2 hnf
                · exact fun h1 => Or.inr (Or.inl (by omega))
              rw [hguard,and_assoc]
              refine ⟨hinv,and_congr (by rw [← hhung]; exact Iff.rfl) hw⟩

/-! ### An area is given back -/

theorem erase_split {α : Type*} [DecidableEq α] {a : α} {l m : List α} (h : (l ++ a :: m).Nodup) :
    (l ++ a :: m).erase a = l ++ m := by
  have hnot : a ∉ l := fun hc => (List.nodup_append.mp h).2.2 a hc a (List.mem_cons_self ..) rfl
  rw [List.erase_append_right _ hnot,List.erase_cons_head]

theorem Inv.giveBack_eq (hi : Inv s) (hr : r ∈ s.regions) (hu : u.regions = s.regions) :
    u.giveBack r.addr r.src = { u with regions := s.regions.erase r } := by
  have hsome : (u.regions.find? fun x => x.addr == r.addr && x.src == r.src).isSome :=
    List.find?_isSome.mpr ⟨r,hu ▸ hr,by simp⟩
  obtain ⟨x,hx⟩ := Option.isSome_iff_exists.mp hsome
  have hp := List.find?_some hx
  have hmem : x ∈ s.regions := hu ▸ List.mem_of_find?_eq_some hx
  have hxr : x = r := by
    have haddr : x.addr = r.addr := beq_iff_eq.mp (Bool.and_eq_true_iff.mp hp).1
    have h1 := hi.base_mem hr
    have h2 := hi.base_mem hmem
    have h3 := r.addr_le_base
    have h4 := x.addr_le_base
    exact hi.kept.eq_of_inside hr hmem le_rfl (by omega) haddr.le (by omega)
  rw [giveBack,hx,hu,hxr]

/- `lis_free` asks the allocator that has given the region. -/
theorem Inv.given_back (hi : Inv s) (hr : r ∈ s.regions) (hregs : u.regions = s.regions) (htab : u.table = s.table)
    (hslab : u.slabPtr = s.slabPtr) : ∃ tb, tb.Maps ((s.regions.erase r).filterMap Region.area) ∧
      (if big (s.size r.base) then u.lisFreePages r.base else u.lisKfree r.base) =
        { u with table := tb, regions := s.regions.erase r } := by
  have hright := hi.right r hr
  obtain ⟨l1,l2,hl⟩ := List.append_of_mem hr
  have hnd : s.regions.Nodup := hi.bases_nodup.of_map
  have herase : s.regions.erase r = l1 ++ l2 := by
    rw [hl] at hnd ⊢
    exact erase_split hnd
  have hsame (hnone : r.area = none) : s.table.Maps ((s.regions.erase r).filterMap Region.area) := by
    have hm := hi.table
    rw [hl,List.filterMap_append,List.filterMap_cons_none hnone,← List.filterMap_append] at hm
    rw [herase]
    exact hm
  rw [Right] at hright
  cases hsrc : r.src with
  | pages o =>
    rw [hsrc] at hright
    have harea : r.area = some (r.base,o) := by rw [Region.area,Region.base,hsrc]
    have hmem : (r.base,o) ∈ s.regions.filterMap Region.area := List.mem_filterMap.mpr ⟨r,hr,harea⟩
    obtain ⟨m,-,-,-,hun,hmaps⟩ := hi.table.unlist hmem
    have hbase : r.base = r.addr := by rw [Region.base,hsrc]
    refine ⟨s.table.clear m,?_,?_⟩
    · refine hmaps.perm ?_
      rw [herase,hl,List.filterMap_append,List.filterMap_cons_some harea,List.filterMap_append]
      refine (List.perm_middle.erase _).trans ?_
      rw [List.erase_cons_head]
    · rw [if_pos hright,lisFreePages,htab,hun]
      simp only
      rw [hbase,← hsrc]
      exact hi.giveBack_eq hr hregs
  | kmalloc =>
    rw [hsrc] at hright
    refine ⟨s.table,hsame (by rw [Region.area,hsrc]),?_⟩
    have hp : r.base - hdrSpace = r.addr := by
      rw [Region.base,hsrc]
      exact Nat.add_sub_cancel ..
    have hk : u.lisKfree r.base = u.giveBack r.addr r.src := by rw [lisKfree,hp,hslab,hright.2,hsrc]
    rw [if_neg (by rw [hright.1]; decide),hk,← htab]
    exact hi.giveBack_eq hr hregs
  | slab i =>
    rw [hsrc] at hright
    refine ⟨s.table,hsame (by rw [Region.area,hsrc]),?_⟩
    have hp : r.base - hdrSpace = r.addr := by
      rw [Region.base,hsrc]
      exact Nat.add_sub_cancel ..
    have hk : u.lisKfree r.base = u.giveBack r.addr r.src := by rw [lisKfree,hp,hslab,hright.2,hsrc]
    rw [if_neg (by rw [hright.1]; decide),hk,← htab]
    exact hi.giveBack_eq hr hregs

/- The area is taken out of the list. -/
theorem Inv.unlink (hi : Inv s) {l1 l2 : List (ℕ × ℤ)} (hl : s.areas = l1 ++ (p,nbytes) :: l2) :
    Ring (Function.update (Function.update s.next ((s.prev p).getD 0) (s.next p)) p none)
      (Function.update (Function.update s.prev ((s.next p).getD 0) (s.prev p)) p none) 0 ((l1 ++ l2).map Prod.fst) := by
  have hring := hi.list
  rw [hl,List.map_append,List.map_cons] at hring
  have hnd := hring.nodup
  rw [List.map_append]
  -- the area is neither the head nor another one
  have hp : p ∉ 0 :: (l1.map Prod.fst ++ l2.map Prod.fst) :=
    (List.nodup_cons.mp ((@List.perm_middle ℕ p (0 :: l1.map Prod.fst) _).nodup_iff.mp hnd)).1
  have hprev : s.prev p = some ((l1.map Prod.fst).getLast?.getD 0) := hring.parts.2.1
  have hnext : s.next p = some ((l2.map Prod.fst).head?.getD 0) := by
    rw [← Ring.head?_or]
    exact hring.parts.2.2.1
  have hlast := Ring.last_mem 0 (l1.map Prod.fst)
  have hhead := Ring.head_mem 0 (l2.map Prod.fst)
  have hplast : (l1.map Prod.fst).getLast?.getD 0 ≠ p := by
    rintro rfl
    refine hp ?_
    rcases List.mem_cons.mp hlast with h | h
    · rw [h]
      exact List.mem_cons_self ..
    · exact List.mem_cons_of_mem _ (List.mem_append_left _ h)
  have hphead : (l2.map Prod.fst).head?.getD 0 ≠ p := by
    rintro rfl
    refine hp ?_
    rcases List.mem_cons.mp hhead with h | h
    · rw [h]
      exact List.mem_cons_self ..
    · exact List.mem_cons_of_mem _ (List.mem_append_right _ h)
  rw [hprev,hnext,Option.getD_some,Option.getD_some]
  refine hring.remove ?_ ?_ (fun x hx hxl => ?_) fun x hx hxh => ?_
  · rw [Function.update_of_ne hplast,Function.update_self]
  · rw [Function.update_of_ne hphead,Function.update_self]
  · have hxp : x ≠ p := fun hc => hp (hc ▸ hx)
    rw [Function.update_of_ne hxp,Function.update_of_ne hxl]
  · have hxp : x ≠ p := fun hc => hp (hc ▸ hx)
    rw [Function.update_of_ne hxp,Function.update_of_ne hxh]

theorem Inv.free (hi : Inv s) (hr : r ∈ s.regions) (ha : (r.base,nbytes) ∈ s.areas) :
    Inv { s.lisFree (r.base + linkSpace) with
      areas := s.areas.eraseP fun a => a.1 + linkSpace == r.base + linkSpace } ∧
      (s.lisFree (r.base + linkSpace)).hung = s.hung ∧ (s.lisFree (r.base + linkSpace)).wild = s.wild := by
  let u : Mem := { s with
    memAlloced := s.memAlloced - s.size r.base
    next := Function.update (Function.update s.next ((s.prev r.base).getD 0) (s.next r.base)) r.base none
    prev := Function.update (Function.update s.prev ((s.next r.base).getD 0) (s.prev r.base)) r.base none }
  obtain ⟨tb,htb,hback⟩ := hi.given_back (u := u) hr rfl rfl rfl
  have hfree : s.lisFree (r.base + linkSpace) = { u with table := tb, regions := s.regions.erase r } := by
    rw [← hback,lisFree,Nat.add_sub_cancel]
  obtain ⟨l1,l2,hl⟩ := List.append_of_mem ha
  have hkeys := (List.nodup_cons.mp hi.list.nodup).2
  rw [hl,List.map_append,List.map_cons] at hkeys
  have hnot : ∀ a ∈ l1, ¬ (a.1 + linkSpace == r.base + linkSpace) = true := by
    intro a ha hc
    have heq : a.1 = r.base := Nat.add_right_cancel (beq_iff_eq.mp hc)
    exact (List.nodup_append.mp hkeys).2.2 a.1 (List.mem_map_of_mem ha) r.base (List.mem_cons_self ..) heq
  have hareas : s.areas.eraseP (fun a => a.1 + linkSpace == r.base + linkSpace) = l1 ++ l2 := by
    rw [hl,List.eraseP_append_right _ hnot,List.eraseP_cons_of_pos (by simp)]
  have hsub : ∀ x ∈ s.regions.erase r, x ∈ s.regions := fun x hx => List.mem_of_mem_erase hx
  have hsubA : ∀ a ∈ l1 ++ l2, a ∈ s.areas := by
    intro a ha
    rw [hl]
    exact (List.Sublist.append_left (List.sublist_cons_self ..) l1).subset ha
  rw [hareas,hfree]
  refine ⟨⟨⟨hi.kept.apart.sublist (List.erase_sublist ..),fun x hx => hi.kept.real x (hsub x hx),
    fun x hx => hi.kept.aligned x (hsub x hx),htb.nodup⟩,?_,fun x hx => hi.header x (hsub x hx),htb,
    fun x hx => hi.right x (hsub x hx),fun hw x hx => hi.fits hw x (hsub x hx),
    fun hw a ha => hi.sizes hw a (hsubA a ha),
    ?_,hi.unlink hl,hi.stray⟩,rfl,rfl⟩
  · obtain ⟨r1,r2,hsplit⟩ := List.append_of_mem hr
    have hnd := hi.bases_nodup
    have hndr : s.regions.Nodup := hnd.of_map
    have hb := congrArg (List.erase · r.base) hi.bases
    rw [hl,hsplit] at hb
    rw [hsplit] at hnd hndr
    simp only [List.map_append,List.map_cons] at hb hnd
    rw [erase_split hnd,erase_split hkeys] at hb
    rw [hsplit,erase_split hndr,List.map_append,List.map_append]
    exact hb
  · have hall := hi.alloced
    rw [hl,List.map_append,List.map_cons,List.sum_append,List.sum_cons] at hall
    change s.memAlloced - s.size r.base = _
    rw [hall,List.map_append,List.sum_append]
    ring

/-! ### Every sequence of calls -/

theorem step_inv (hf : 19 ≤ fuel) (call : MemCall) (hi : Inv s) (h : step fuel s call = some t) :
    Inv t ∧ ((t.hung = false ∧ t.wild = false) ↔ (s.hung = false ∧ s.wild = false) ∧ Guard s call) := by
  cases call with
  | malloc nbytes cls useCache tbl mem => exact step_malloc hi hf h
  | free ptr =>
    simp only [step] at h
    split_ifs at h with h0 hany
    · obtain rfl := Option.some.inj h
      exact ⟨hi,(and_iff_left trivial).symm⟩
    · obtain rfl := Option.some.inj h
      obtain ⟨⟨p,nbytes⟩,ha,hp⟩ := List.any_eq_true.mp hany
      obtain rfl : p + linkSpace = ptr := beq_iff_eq.mp hp
      have hmem : p ∈ s.regions.map Region.base := hi.bases ▸ List.mem_map_of_mem ha
      obtain ⟨r,hr,rfl⟩ := List.mem_map.mp hmem
      obtain ⟨hinv,hh,hw⟩ := hi.free hr ha
      refine ⟨hinv,Iff.trans ?_ (and_iff_left trivial).symm⟩
      rw [← hh,← hw]
  | setMaxMem maxMem =>
    obtain rfl := Option.some.inj h
    exact ⟨hi.congr rfl,(and_iff_left trivial).symm⟩

theorem requests_sound (fuel : ℕ) (hf : 19 ≤ fuel) (made : ℕ → Bool) (calls : List MemCall) (s : Mem)
    (h : exec (step fuel) (init made) calls = some s) : Sound s ↔ Meets (step fuel) Guard (init made) calls := by
  have hiff : s.hung = false ∧ s.wild = false ↔ _ ∧ Meets (step fuel) Guard (init made) calls :=
    exec_keeps_iff (I := Inv) (fun s a t hi ha => step_inv hf a hi ha) (inv_init made) h
  have hinv : Inv s := exec_invariant (fun s a t hi ha => (step_inv hf a hi ha).1) (inv_init made) h
  rw [hinv.sound_iff,hiff]
  exact and_iff_right ⟨rfl,rfl⟩

def request (n : ℤ) (tbl mem : Option ℕ) : MemCall := .malloc n .kernel true tbl mem

/- A small area from a cache, a large one on pages, and a limit; the small one is freed first. -/
def mixed : List MemCall :=
  [request 100 none (some 512),request 200000 (some 4096) (some 65536),.free 704,.setMaxMem 5,request 3 none none]

theorem requests_sound_mixed : ∃ s, exec (step 19) (init fun _ => true) mixed = some s ∧ Sound s :=
  ⟨_,rfl,(requests_sound 19 le_rfl (fun _ => true) mixed _ rfl).mpr (by decide +kernel)⟩

/- The size becomes negative, and one page is asked for. -/
theorem largest_int : ¬ ∀ calls s, exec (step 19) (init fun _ => true) calls = some s → Sound s := by
  intro h
  have hs := h [request (2 ^ 31 - 1) (some 4096) (some 65536)] _ rfl
  exact absurd hs.guarded (by decide +kernel)

end Mem

end CSLiS.Memory
