import CSLiS.Bufcall.Table
import CSLiS.Lib.Threaded

/-!
# The lists of the bufcall table (head/buffcall.c)

`Shape` ties the links, the list heads and the counters to the lists they stand for. Linking
an entry appends it to one hash list. Unlinking one that is on the list of its id moves it to
the free list; of an entry that is not, nothing can be said.
-/

namespace CSLiS.Bufcall.BcTable
open Lib

variable {s : BcTable} {b c h f arg x : ℕ} {id : Bcid} {free l m : List ℕ} {q : ℕ → List ℕ}

/- How many entries the lists have. -/
def total (q : ℕ → List ℕ) : ℤ := ∑ h ∈ Finset.range N_BCHASH, ((q h).length : ℤ)

structure Shape (s : BcTable) (free : List ℕ) (q : ℕ → List ℕ) : Prop where
  freel : Threaded (fun a => (s.bc a).next) s.lisBcfreel free
  heads : ∀ h, s.lisBchash h = ⟨(q h).head?,(q h).getLast?,(q h).length⟩
  links : ∀ h, Linked (fun a => (s.bc a).next) (fun a => (s.bc a).prev) none (q h) none
  cnt : s.lisBcCnt = total q
  freeNodup : free.Nodup
  nodup : ∀ h, (q h).Nodup
  freeLt : ∀ b ∈ free, b < s.brk
  mem : ∀ h, ∀ b ∈ q h, hash (s.bc b).id = h ∧ b < s.brk
  apart : ∀ b ∈ free, ∀ h, b ∉ q h

theorem hash_lt (id : Bcid) : hash id < N_BCHASH := by
  have h : hash id ≤ (127#32 : Bcid).toNat := by
    rw [hash,BitVec.toNat_and]
    exact Nat.and_le_right
  exact Nat.lt_succ_of_le h

theorem total_update (h : ℕ) (hh : h < N_BCHASH) (l : List ℕ) :
    total (Function.update q h l) = total q - (q h).length + l.length := by
  have hm : h ∈ Finset.range N_BCHASH := Finset.mem_range.mpr hh
  have h1 := Finset.add_sum_erase (Finset.range N_BCHASH) (fun h => ((q h).length : ℤ)) hm
  have h2 := Finset.add_sum_erase (Finset.range N_BCHASH) (fun k => ((Function.update q h l k).length : ℤ)) hm
  have h3 : ∑ k ∈ (Finset.range N_BCHASH).erase h, ((Function.update q h l k).length : ℤ) =
      ∑ k ∈ (Finset.range N_BCHASH).erase h, ((q k).length : ℤ) :=
    Finset.sum_congr rfl fun k hk => by rw [Function.update_of_ne (Finset.ne_of_mem_erase hk)]
  simp only [Function.update_self] at h2
  rw [total,← h2,h3,total,← h1]
  omega

theorem setBc_bc (b : ℕ) (y : Bcinfo) (x : ℕ) : (s.setBc b y).bc x = if x = b then y else s.bc x :=
  Function.update_apply ..

theorem setNextOf_bc (o y : Option ℕ) (x : ℕ) :
    (s.setNextOf o y).bc x = if o = some x then { s.bc x with next := y } else s.bc x := by
  cases o with
  | none => simp [setNextOf]
  | some p =>
    by_cases hx : x = p
    · simp [setNextOf,setNext,setBc,hx]
    · simp [setNextOf,setNext,setBc,hx,Ne.symm hx]

theorem setPrevOf_bc (o y : Option ℕ) (x : ℕ) :
    (s.setPrevOf o y).bc x = if o = some x then { s.bc x with prev := y } else s.bc x := by
  cases o with
  | none => simp [setPrevOf]
  | some p =>
    by_cases hx : x = p
    · simp [setPrevOf,setPrev,setBc,hx]
    · simp [setPrevOf,setPrev,setBc,hx,Ne.symm hx]

/- Links of other entries are all that these change. -/
theorem setNextOf_eq (o y : Option ℕ) : s.setNextOf o y = { s with bc := (s.setNextOf o y).bc } := by
  cases o <;> rfl

theorem setPrevOf_eq (o y : Option ℕ) : s.setPrevOf o y = { s with bc := (s.setPrevOf o y).bc } := by
  cases o <;> rfl

theorem link_bc (f arg : ℕ) (hne : (s.lisBchash (hash id)).last ≠ some b) (x : ℕ) :
    (s.link b f arg id).bc x =
      if x = b then ⟨none,(s.lisBchash (hash id)).last,id,.active,some f,arg,s.ids.length⟩
      else if (s.lisBchash (hash id)).last = some x then { s.bc x with next := some b } else s.bc x := by
  have heq : (s.link b f arg id).bc = ((s.setBc b ⟨none,(s.lisBchash (hash id)).last,id,.active,some f,arg,
      s.ids.length⟩).setNextOf (s.lisBchash (hash id)).last (some b)).bc := rfl
  rw [heq,setNextOf_bc,setBc_bc]
  by_cases hx : x = b
  · subst hx
    simp [hne]
  · simp [hx]

theorem link_eq (b f arg : ℕ) (id : Bcid) : s.link b f arg id =
    { s with
      bc := (s.link b f arg id).bc, lisBcCnt := s.lisBcCnt + 1, ids := s.ids ++ [id]
      lisBchash := Function.update s.lisBchash (hash id)
        ⟨if (s.lisBchash (hash id)).first = none then some b else (s.lisBchash (hash id)).first,some b,
          (s.lisBchash (hash id)).nElts + 1⟩ } := by
  simp only [link]
  rw [setNextOf_eq]
  rfl

/- The neighbours of an entry, that are not the entry itself and not each other. -/
structure Apart (s : BcTable) (b : ℕ) : Prop where
  prev : (s.bc b).prev ≠ some b
  next : (s.bc b).next ≠ some b
  both : ∀ x, (s.bc b).prev = some x → (s.bc b).next ≠ some x

/- The first half of `bc_ulink`: the neighbours are linked to each other. -/
def around (s : BcTable) (b : ℕ) : BcTable :=
  let s := s.setNextOf (s.bc b).prev (s.bc b).next
  s.setPrevOf (s.bc b).next (s.bc b).prev

theorem around_bc (ha : s.Apart b) (x : ℕ) :
    (s.around b).bc x =
      if (s.bc b).prev = some x then { s.bc x with next := (s.bc b).next }
      else if (s.bc b).next = some x then { s.bc x with prev := (s.bc b).prev } else s.bc x := by
  have hb : (s.setNextOf (s.bc b).prev (s.bc b).next).bc b = s.bc b := by rw [setNextOf_bc,if_neg ha.prev]
  rw [around,setPrevOf_bc,hb,setNextOf_bc]
  by_cases hp : (s.bc b).prev = some x
  · simp [hp,ha.both x hp]
  · simp [hp]

theorem around_eq (b : ℕ) : s.around b = { s with bc := (s.around b).bc } := by
  rw [around,setPrevOf_eq,setNextOf_eq]

theorem bcUlink_bc (ha : s.Apart b) (x : ℕ) :
    (s.bcUlink b).bc x =
      if x = b then { s.bc b with usrF := none, id := 0, next := s.lisBcfreel }
      else if (s.bc b).prev = some x then { s.bc x with next := (s.bc b).next }
      else if (s.bc b).next = some x then { s.bc x with prev := (s.bc b).prev } else s.bc x := by
  have heq : (s.bcUlink b).bc x = if x = b then
      { (s.around b).bc b with usrF := none, id := 0, next := (s.around b).lisBcfreel }
      else (s.around b).bc x := setBc_bc ..
  have hb : (s.around b).bc b = s.bc b := by rw [around_bc ha,if_neg ha.prev,if_neg ha.next]
  rw [heq,hb,around_bc ha,around_eq]

theorem bcUlink_eq (ha : s.Apart b) : s.bcUlink b =
    { s with
      bc := (s.bcUlink b).bc, lisBcCnt := s.lisBcCnt - 1, lisBcfreel := some b
      lisBchash := Function.update s.lisBchash (hash (s.bc b).id)
        ⟨if (s.lisBchash (hash (s.bc b).id)).first = some b then (s.bc b).next
            else (s.lisBchash (hash (s.bc b).id)).first,
          if (s.lisBchash (hash (s.bc b).id)).last = some b then (s.bc b).prev
            else (s.lisBchash (hash (s.bc b).id)).last,
          (s.lisBchash (hash (s.bc b).id)).nElts - 1⟩ } := by
  have hb : (s.around b).bc b = s.bc b := by rw [around_bc ha,if_neg ha.prev,if_neg ha.next]
  have heq : s.bcUlink b = { s.around b with
      bc := (s.bcUlink b).bc, lisBcCnt := (s.around b).lisBcCnt - 1, lisBcfreel := some b
      lisBchash := Function.update (s.around b).lisBchash (hash (s.bc b).id)
        ⟨if ((s.around b).lisBchash (hash (s.bc b).id)).first = some b then ((s.around b).bc b).next
            else ((s.around b).lisBchash (hash (s.bc b).id)).first,
          if ((s.around b).lisBchash (hash (s.bc b).id)).last = some b then ((s.around b).bc b).prev
            else ((s.around b).lisBchash (hash (s.bc b).id)).last,
          ((s.around b).lisBchash (hash (s.bc b).id)).nElts - 1⟩ } := rfl
  rw [heq,hb,around_eq]

/- An entry that is on no list is linked to the end of the list of its id. -/
theorem Shape.link (hs : s.Shape free q) (hf : b ∉ free) (hq : ∀ h, b ∉ q h) (hlt : b < s.brk) :
    (s.link b f arg id).Shape free (Function.update q (hash id) (q (hash id) ++ [b])) := by
  have hlast : (s.lisBchash (hash id)).last = (q (hash id)).getLast? := by rw [hs.heads]
  have hne : (s.lisBchash (hash id)).last ≠ some b := fun h => hq _ (List.mem_of_getLast? (hlast ▸ h))
  have hbc := link_bc f arg hne
  rw [hlast] at hbc
  -- a neighbour whose link is set is on the list of the id
  have hnb : ∀ x, (q (hash id)).getLast? = some x → x ∈ q (hash id) := fun x h => List.mem_of_getLast? h
  have hid : ∀ x, x ≠ b → ((s.link b f arg id).bc x).id = (s.bc x).id := by
    intro x hx
    rw [hbc,if_neg hx]
    split_ifs <;> rfl
  refine ⟨?_,fun h => ?_,fun h => ?_,?_,hs.freeNodup,fun h => ?_,?_,fun h x hx => ?_,fun x hx h => ?_⟩
  · rw [link_eq]
    refine hs.freel.congr fun x hx => ?_
    simp only
    rw [hbc,if_neg fun he : x = b => hf (he ▸ hx),if_neg fun he => hs.apart x hx _ (hnb x he)]
  · rw [link_eq]
    by_cases hh : h = hash id
    · subst hh
      simp only [Function.update_self,hs.heads,List.getLast?_concat,List.head?_append,List.length_append]
      cases (q (hash id)).head? <;> simp
    · simp only [Function.update_of_ne hh]
      exact hs.heads h
  · by_cases hh : h = hash id
    · subst hh
      rw [Function.update_self]
      have hins := Linked.insert (m := []) (by simpa using hs.nodup (hash id)) (by simpa using hq (hash id))
        (by simpa using hs.links (hash id))
      refine hins.congr (fun x _ => ?_) (fun x _ => ?_)
      · rw [hbc]
        by_cases hx : x = b
        · simp [hx]
        · rw [if_neg hx,Function.update_of_ne hx]
          by_cases hl : (q (hash id)).getLast? = some x
          · rw [if_pos hl,Linked.relink_self hl]
          · rw [if_neg hl,Linked.relink_of_ne hl]
      · rw [hbc]
        by_cases hx : x = b
        · simp [hx]
        · rw [if_neg hx,Function.update_of_ne hx]
          split_ifs <;> rfl
    · rw [Function.update_of_ne hh]
      have hkeep : ∀ x ∈ q h, (s.link b f arg id).bc x = s.bc x := by
        intro x hx
        rw [hbc,if_neg fun he : x = b => hq h (he ▸ hx),if_neg]
        exact fun he => hh ((hs.mem h x hx).1.symm.trans (hs.mem _ x (hnb x he)).1)
      exact (hs.links h).congr (fun x hx => by rw [hkeep x hx]) (fun x hx => by rw [hkeep x hx])
  · rw [link_eq,total_update _ (hash_lt id)]
    simp only [hs.cnt,List.length_append,List.length_singleton]
    push_cast
    ring
  · by_cases hh : h = hash id
    · subst hh
      rw [Function.update_self]
      exact List.nodup_append.mpr ⟨hs.nodup _,List.nodup_singleton _,fun x hx y hy he =>
        hq _ (List.mem_singleton.mp hy ▸ he ▸ hx)⟩
    · rw [Function.update_of_ne hh]
      exact hs.nodup h
  · rw [link_eq]
    exact hs.freeLt
  · have hbrk : (s.link b f arg id).brk = s.brk := by rw [link_eq]
    rw [hbrk]
    have hself : ((s.link b f arg id).bc b).id = id := by rw [hbc,if_pos rfl]
    have hold : ∀ k, x ∈ q k → hash ((s.link b f arg id).bc x).id = k ∧ x < s.brk := by
      intro k hk
      rw [hid x fun he => hq k (he ▸ hk)]
      exact hs.mem k x hk
    by_cases hh : h = hash id
    · subst hh
      rw [Function.update_self] at hx
      rcases List.mem_append.mp hx with hx | hx
      · exact hold _ hx
      · obtain rfl := List.mem_singleton.mp hx
        exact ⟨by rw [hself],hlt⟩
    · rw [Function.update_of_ne hh] at hx
      exact hold h hx
  · by_cases hh : h = hash id
    · subst hh
      rw [Function.update_self]
      intro hm
      rcases List.mem_append.mp hm with hm | hm
      · exact hs.apart x hx _ hm
      · exact hf (List.mem_singleton.mp hm ▸ hx)
    · rw [Function.update_of_ne hh]
      exact hs.apart x hx h

/- The neighbours of an entry on its list. -/
theorem Shape.neighbours (hs : s.Shape free q) (hq : q h = l ++ b :: m) :
    (s.bc b).prev = l.getLast? ∧ (s.bc b).next = m.head? ∧ s.Apart b := by
  have hl := hs.links h
  have hnd := hs.nodup h
  rw [hq] at hl hnd
  have hp : (s.bc b).prev = l.getLast? := by simpa using Linked.prev_eq hl
  have hn : (s.bc b).next = m.head? := by simpa using Linked.next_eq hl
  obtain ⟨hb,hlm⟩ := List.nodup_cons.mp (List.nodup_middle.mp hnd)
  refine ⟨hp,hn,fun he => hb ?_,fun he => hb ?_,fun x hx he => ?_⟩
  · exact List.mem_append_left _ (List.mem_of_getLast? (hp ▸ he))
  · exact List.mem_append_right _ (List.mem_of_head? (hn ▸ he))
  · exact (List.nodup_append.mp hlm).2.2 x (List.mem_of_getLast? (hp ▸ hx)) x (List.mem_of_head? (hn ▸ he)) rfl

/- An entry on the list of its id moves to the free list. -/
theorem Shape.ulink (hs : s.Shape free q) (hb : b ∈ q h) :
    (s.bcUlink b).Shape (b :: free) (Function.update q h ((q h).erase b)) := by
  obtain ⟨l,m,hq⟩ := List.append_of_mem hb
  obtain ⟨hp,hn,ha⟩ := hs.neighbours hq
  have hid := (hs.mem h b hb).1
  have hnd := hs.nodup h
  rw [hq] at hnd
  obtain ⟨hblm,hlm⟩ := List.nodup_cons.mp (List.nodup_middle.mp hnd)
  have hbl : b ∉ l := fun hm => hblm (List.mem_append_left _ hm)
  have hsub : ∀ x, x ∈ l ++ m → x ∈ q h := by
    intro x hx
    rw [hq]
    rcases List.mem_append.mp hx with hx | hx
    · exact List.mem_append_left _ hx
    · exact List.mem_append_right _ (List.mem_cons_of_mem _ hx)
  have herase : (q h).erase b = l ++ m := by
    rw [hq,List.erase_append_right _ hbl,List.erase_cons_head]
  have hbc := bcUlink_bc ha
  rw [hp,hn] at hbc
  have hidx : ∀ x, x ≠ b → ((s.bcUlink b).bc x).id = (s.bc x).id := by
    intro x hx
    rw [hbc,if_neg hx]
    split_ifs <;> rfl
  -- entries that are no neighbours stay as they are
  have hkeep : ∀ x, x ≠ b → x ∉ q h → (s.bcUlink b).bc x = s.bc x := by
    intro x hx hm
    rw [hbc,if_neg hx,if_neg fun he => hm (hsub x (List.mem_append_left _ (List.mem_of_getLast? he))),
      if_neg fun he => hm (hsub x (List.mem_append_right _ (List.mem_of_head? he)))]
  have hfree : b ∉ free := fun hm => hs.apart b hm h hb
  rw [herase]
  have hlists : ∀ k, ∀ x ∈ Function.update q h (l ++ m) k, x ≠ b ∧ x ∈ q k := by
    intro k x hx
    by_cases hk : k = h
    · subst hk
      rw [Function.update_self] at hx
      exact ⟨fun he => hblm (he ▸ hx),hsub x hx⟩
    · rw [Function.update_of_ne hk] at hx
      exact ⟨fun he => hk ((hs.mem k x hx).1.symm.trans (he ▸ hid)),hx⟩
  refine ⟨?_,fun k => ?_,fun k => ?_,?_,?_,fun k => ?_,fun x hx => ?_,fun k x hx => ?_,fun x hx k => ?_⟩
  · rw [bcUlink_eq ha]
    refine (hs.freel.push hfree).congr fun x hx => ?_
    simp only
    rcases List.mem_cons.mp hx with rfl | hx
    · rw [Function.update_self,hbc,if_pos rfl]
    · have hxb : x ≠ b := fun he => hfree (he ▸ hx)
      rw [Function.update_of_ne hxb,hkeep x hxb (hs.apart x hx h)]
  · rw [bcUlink_eq ha,hid,hp,hn]
    by_cases hk : k = h
    · subst hk
      simp only [Function.update_self,hs.heads,hq,Linked.head?_remove hblm,Linked.getLast?_remove hblm,
        List.length_append,List.length_cons]
      push_cast
      rw [← add_assoc,add_sub_cancel_right]
    · simp only [Function.update_of_ne hk]
      exact hs.heads k
  · by_cases hk : k = h
    · subst hk
      rw [Function.update_self]
      have hl := hs.links k
      rw [hq] at hl
      refine (Linked.remove (hq ▸ hs.nodup k) hl).congr (fun x hx => ?_) (fun x hx => ?_)
      all_goals
        have hxb : x ≠ b := fun he => hblm (he ▸ hx)
        rw [Function.update_of_ne hxb]
        simp only [hbc,if_neg hxb]
      · by_cases h1 : l.getLast? = some x
        · rw [if_pos h1,Linked.relink_self h1]
        · rw [if_neg h1,Linked.relink_of_ne h1]
          split_ifs <;> rfl
      · by_cases h2 : m.head? = some x
        · have h1 : l.getLast? ≠ some x := Linked.getLast?_mem_ne hlm (List.mem_of_head? h2)
          rw [if_neg h1,if_pos h2,Linked.relink_self h2]
        · rw [if_neg h2,Linked.relink_of_ne h2]
          split_ifs <;> rfl
    · rw [Function.update_of_ne hk]
      have hx : ∀ x ∈ q k, (s.bcUlink b).bc x = s.bc x := by
        intro x hx
        have hne : x ∉ q h := fun hm => hk ((hs.mem k x hx).1.symm.trans (hs.mem h x hm).1)
        exact hkeep x (fun he => hne (he ▸ hb)) hne
      exact (hs.links k).congr (fun x hm => by rw [hx x hm]) (fun x hm => by rw [hx x hm])
  · rw [bcUlink_eq ha,total_update _ (hid ▸ hash_lt _)]
    simp only [hs.cnt,hq,List.length_append,List.length_cons]
    push_cast
    ring
  · exact List.nodup_cons.mpr ⟨hfree,hs.freeNodup⟩
  · by_cases hk : k = h
    · rw [hk,Function.update_self]
      exact hlm
    · rw [Function.update_of_ne hk]
      exact hs.nodup k
  · rw [bcUlink_eq ha]
    rcases List.mem_cons.mp hx with rfl | hx
    · exact (hs.mem h _ hb).2
    · exact hs.freeLt x hx
  · obtain ⟨hxb,hx⟩ := hlists k x hx
    rw [hidx x hxb,bcUlink_eq ha]
    exact hs.mem k x hx
  · intro hm
    obtain ⟨hxb,hm⟩ := hlists k x hm
    rcases List.mem_cons.mp hx with rfl | hx
    · exact hxb rfl
    · exact hs.apart x hx k hm

end CSLiS.Bufcall.BcTable
