import CSLiS.Bufcall.Shape

/-!
# The entries of the bufcall table (head/buffcall.c)

What the lists say about the entries on them, and about the calls and cancellations so far,
whatever the tasks are doing: no two are the same registration, and a queued function has been
neither called nor cancelled, unless it is being called just now.
-/

namespace CSLiS.Bufcall
open Lib

def Event.reg : Event → ℕ
  | .called r => r
  | .cancelled r => r

/- No call after a call or a cancellation of the same registration. -/
def Quiet (e e' : Event) : Prop := ∀ r, e' = .called r → e.reg ≠ r

namespace BcTable

variable {s : BcTable} {b c h k f arg t n : ℕ} {id bcid : Bcid} {free l m : List ℕ} {q : ℕ → List ℕ}

structure Entries (s : BcTable) (free : List ℕ) (q : ℕ → List ℕ) : Prop where
  shape : s.Shape free q
  unused : ∀ b, (∀ h, b ∉ q h) → (s.bc b).id = 0 ∧ (s.bc b).state = .unused
  used : ∀ h, ∀ b ∈ q h, (s.bc b).id ≠ 0 ∧ (s.bc b).usrF ≠ none ∧ (s.bc b).state ≠ .unused
  distinct : ∀ h, ∀ b ∈ q h, ∀ k, ∀ c ∈ q k, (s.bc b).reg = (s.bc c).reg → b = c
  reg : ∀ h, ∀ b ∈ q h, s.ids[(s.bc b).reg]? = some (s.bc b).id
  logLt : ∀ e ∈ s.log, e.reg < s.ids.length
  uncancelled : ∀ h, ∀ b ∈ q h, .cancelled (s.bc b).reg ∉ s.log
  uncalled : ∀ h, ∀ b ∈ q h, (s.bc b).state = .active → .called (s.bc b).reg ∉ s.log
  quiet : s.log.Pairwise Quiet

theorem nextId_ne (s : BcTable) : s.nextId ≠ 0 := by
  unfold nextId
  split_ifs with h
  · decide
  · exact h

/- Entries whose links and ids are the same have the same lists. -/
theorem Shape.congr {u : BcTable} (hs : s.Shape free q)
    (hb : ∀ x, (u.bc x).next = (s.bc x).next ∧ (u.bc x).prev = (s.bc x).prev ∧ (u.bc x).id = (s.bc x).id)
    (hbrk : s.brk ≤ u.brk) (hl : u.lisBchash = s.lisBchash) (hf : u.lisBcfreel = s.lisBcfreel)
    (hc : u.lisBcCnt = s.lisBcCnt) : u.Shape free q := by
  refine ⟨hf ▸ hs.freel.congr fun x _ => (hb x).1,fun h => hl ▸ hs.heads h,fun h => ?_,hc.trans hs.cnt,hs.freeNodup,
    hs.nodup,fun x hx => (hs.freeLt x hx).trans_le hbrk,fun h x hx => ?_,hs.apart⟩
  · exact (hs.links h).congr (fun x _ => (hb x).1) (fun x _ => (hb x).2.1)
  · rw [(hb x).2.2]
    exact ⟨(hs.mem h x hx).1,(hs.mem h x hx).2.trans_le hbrk⟩

/- The first free entry is taken. -/
theorem Shape.pop (hs : s.Shape free q) (hf : s.lisBcfreel = some b) (id : Bcid) :
    ∃ free', free = b :: free' ∧ { s with lisBcfreel := (s.bc b).next, idNum := id }.Shape free' q := by
  cases free with
  | nil => exact absurd (hs.freel.symm.trans hf) nofun
  | cons x free' =>
    obtain rfl := Option.some.inj (hs.freel.1.symm.trans hf)
    exact ⟨free',rfl,hs.freel.2,hs.heads,hs.links,hs.cnt,(List.nodup_cons.mp hs.freeNodup).2,hs.nodup,
      fun y hy => hs.freeLt y (List.mem_cons_of_mem _ hy),hs.mem,fun y hy => hs.apart y (List.mem_cons_of_mem _ hy)⟩

theorem link_other {x : ℕ} (f arg : ℕ) (id : Bcid) (hs : s.Shape free q) (hq : ∀ h, b ∉ q h) (hx : x ≠ b) :
    ((s.link b f arg id).bc x).id = (s.bc x).id ∧ ((s.link b f arg id).bc x).usrF = (s.bc x).usrF ∧
      ((s.link b f arg id).bc x).state = (s.bc x).state ∧ ((s.link b f arg id).bc x).reg = (s.bc x).reg := by
  have hne : (s.lisBchash (hash id)).last ≠ some b := by
    rw [hs.heads]
    exact fun h => hq _ (List.mem_of_getLast? h)
  rw [link_bc f arg hne,if_neg hx]
  split_ifs <;> exact ⟨rfl,rfl,rfl,rfl⟩

theorem link_self (f arg : ℕ) (id : Bcid) (hs : s.Shape free q) (hq : ∀ h, b ∉ q h) :
    ∃ last, (s.link b f arg id).bc b = ⟨none,last,id,.active,some f,arg,s.ids.length⟩ := by
  have hne : (s.lisBchash (hash id)).last ≠ some b := by
    rw [hs.heads]
    exact fun h => hq _ (List.mem_of_getLast? h)
  exact ⟨_,by rw [link_bc f arg hne,if_pos rfl]⟩

theorem mem_update_append {x : ℕ} : x ∈ Function.update q h (q h ++ [b]) k ↔ x ∈ q k ∨ k = h ∧ x = b := by
  by_cases hk : k = h
  · subst hk
    simp
  · simp [hk]

theorem Entries.regLt (he : s.Entries free q) (hb : b ∈ q h) : (s.bc b).reg < s.ids.length :=
  (List.getElem?_eq_some_iff.mp (he.reg h b hb)).1

/- A new registration. -/
theorem Entries.link (f arg : ℕ) (he : s.Entries free q) (hf : b ∉ free) (hq : ∀ h, b ∉ q h) (hlt : b < s.brk)
    (hid : id ≠ 0) :
    (s.link b f arg id).Entries free (Function.update q (hash id) (q (hash id) ++ [b])) := by
  obtain ⟨last,hself⟩ := link_self f arg id he.shape hq
  have hids : (s.link b f arg id).ids = s.ids ++ [id] := by rw [link_eq]
  have hlog : (s.link b f arg id).log = s.log := by rw [link_eq]
  have hother : ∀ k, ∀ x ∈ q k, x ≠ b ∧ _ := fun k x hx =>
    have hne : x ≠ b := fun h => hq k (h ▸ hx)
    ⟨hne,link_other f arg id he.shape hq hne⟩
  refine ⟨he.shape.link hf hq hlt,fun x hx => ?_,fun k x hx => ?_,fun k x hx j y hy => ?_,fun k x hx => ?_,?_,
    fun k x hx => ?_,fun k x hx => ?_,hlog ▸ he.quiet⟩
  · simp only [mem_update_append,not_or,not_and] at hx
    have hne : x ≠ b := (hx (hash id)).2 rfl
    rw [(link_other f arg id he.shape hq hne).1,(link_other f arg id he.shape hq hne).2.2.1]
    exact he.unused x fun h => (hx h).1
  · rcases mem_update_append.mp hx with hx | ⟨-,rfl⟩
    · obtain ⟨-,h1,h2,h3,-⟩ := hother k x hx
      rw [h1,h2,h3]
      exact he.used k x hx
    · rw [hself]
      exact ⟨hid,nofun,nofun⟩
  · rcases mem_update_append.mp hx with h1 | ⟨-,h1⟩ <;> rcases mem_update_append.mp hy with h2 | ⟨-,h2⟩
    · rw [(hother k x h1).2.2.2.2,(hother j y h2).2.2.2.2]
      exact he.distinct k x h1 j y h2
    · rw [(hother k x h1).2.2.2.2,h2,hself]
      exact fun h => absurd h (he.regLt h1).ne
    · rw [(hother j y h2).2.2.2.2,h1,hself]
      exact fun h => absurd h.symm (he.regLt h2).ne
    · exact fun _ => h1.trans h2.symm
  · rw [hids]
    rcases mem_update_append.mp hx with hx | ⟨-,rfl⟩
    · obtain ⟨-,h1,-,-,h4⟩ := hother k x hx
      rw [h1,h4,List.getElem?_append_left (he.regLt hx)]
      exact he.reg k x hx
    · rw [hself]
      simp
  · rw [hlog,hids]
    intro e hm
    have := he.logLt e hm
    simp
    omega
  · rw [hlog]
    rcases mem_update_append.mp hx with hx | ⟨-,rfl⟩
    · rw [(hother k x hx).2.2.2.2]
      exact he.uncancelled k x hx
    · rw [hself]
      exact fun h => lt_irrefl _ (he.logLt _ h)
  · rw [hlog]
    rcases mem_update_append.mp hx with hx | ⟨-,rfl⟩
    · rw [(hother k x hx).2.2.2.2,(hother k x hx).2.2.2.1]
      exact he.uncalled k x hx
    · rw [hself]
      exact fun _ h => lt_irrefl _ (he.logLt _ h)

theorem mem_update_erase {x : ℕ} (hs : s.Shape free q) (hb : b ∈ q h) :
    x ∈ Function.update q h ((q h).erase b) k ↔ x ≠ b ∧ x ∈ q k := by
  by_cases hk : k = h
  · subst hk
    rw [Function.update_self]
    exact (hs.nodup k).mem_erase_iff
  · rw [Function.update_of_ne hk]
    refine ⟨fun hx => ⟨?_,hx⟩,And.right⟩
    rintro rfl
    exact hk ((hs.mem k x hx).1.symm.trans (hs.mem h x hb).1)

/- Entries whose links are left alone except that `state` of one changes. -/
theorem setBc_other {x : ℕ} {y : Bcinfo} (hx : x ≠ b) : (s.setBc b y).bc x = s.bc x :=
  Function.update_of_ne hx ..

theorem Shape.setState (hs : s.Shape free q) (b : ℕ) (st : BcState) :
    (s.setBc b { s.bc b with state := st }).Shape free q := by
  refine hs.congr (fun x => ?_) le_rfl rfl rfl rfl
  rw [setBc_bc]
  split_ifs with hx
  · subst hx
    exact ⟨rfl,rfl,rfl⟩
  · exact ⟨rfl,rfl,rfl⟩

theorem release_shape (hs : s.Shape free q) (hb : b ∈ q h) :
    (s.release b).Shape (b :: free) (Function.update q h ((q h).erase b)) :=
  (hs.setState b .unused).ulink hb

theorem release_bc {x : ℕ} (hs : s.Shape free q) (hb : b ∈ q h) :
    (x = b → ((s.release b).bc x).id = 0 ∧ ((s.release b).bc x).state = .unused) ∧ (x ≠ b → ((s.release b).bc x).id = (s.bc x).id ∧
      ((s.release b).bc x).usrF = (s.bc x).usrF ∧ ((s.release b).bc x).state = (s.bc x).state ∧
      ((s.release b).bc x).reg = (s.bc x).reg) := by
  obtain ⟨l,m,hq⟩ := List.append_of_mem hb
  obtain ⟨-,-,ha⟩ := (hs.setState b .unused).neighbours hq
  refine ⟨fun hx => ?_,fun hx => ?_⟩
  · rw [release,bcUlink_bc ha,if_pos hx,setBc_bc,if_pos rfl]
    exact ⟨rfl,rfl⟩
  · rw [release,bcUlink_bc ha,if_neg hx,setBc_other hx]
    split_ifs <;> exact ⟨rfl,rfl,rfl,rfl⟩

theorem release_eq (hs : s.Shape free q) (hb : b ∈ q h) : s.release b = { s with
    bc := (s.release b).bc, lisBcCnt := (s.release b).lisBcCnt, lisBcfreel := (s.release b).lisBcfreel
    lisBchash := (s.release b).lisBchash } := by
  obtain ⟨l,m,hq⟩ := List.append_of_mem hb
  obtain ⟨-,-,ha⟩ := (hs.setState b .unused).neighbours hq
  rw [release,bcUlink_eq ha]
  rfl

theorem Entries.release (he : s.Entries free q) (hb : b ∈ q h) :
    (s.release b).Entries (b :: free) (Function.update q h ((q h).erase b)) := by
  have hbc := fun x => release_bc (x := x) he.shape hb
  have hlog : (s.release b).log = s.log := by rw [release_eq he.shape hb]
  have hids : (s.release b).ids = s.ids := by rw [release_eq he.shape hb]
  have hold : ∀ k, ∀ x ∈ Function.update q h ((q h).erase b) k, x ∈ q k ∧ _ := fun k x hx =>
    have h := (mem_update_erase he.shape hb).mp hx
    ⟨h.2,(hbc x).2 h.1⟩
  refine ⟨release_shape he.shape hb,fun x hx => ?_,fun k x hx => ?_,fun k x hx j y hy => ?_,fun k x hx => ?_,?_,
    fun k x hx => ?_,fun k x hx => ?_,hlog ▸ he.quiet⟩
  · by_cases hxb : x = b
    · exact (hbc x).1 hxb
    · rw [((hbc x).2 hxb).1,((hbc x).2 hxb).2.2.1]
      exact he.unused x fun k hk => hx k ((mem_update_erase he.shape hb).mpr ⟨hxb,hk⟩)
  · obtain ⟨hx,h1,h2,h3,-⟩ := hold k x hx
    rw [h1,h2,h3]
    exact he.used k x hx
  · obtain ⟨hx,-,-,-,h1⟩ := hold k x hx
    obtain ⟨hy,-,-,-,h2⟩ := hold j y hy
    rw [h1,h2]
    exact he.distinct k x hx j y hy
  · obtain ⟨hx,h1,-,-,h4⟩ := hold k x hx
    rw [h1,h4,hids]
    exact he.reg k x hx
  · rw [hlog,hids]
    exact he.logLt
  · obtain ⟨hx,-,-,-,h4⟩ := hold k x hx
    rw [h4,hlog]
    exact he.uncancelled k x hx
  · obtain ⟨hx,-,-,h3,h4⟩ := hold k x hx
    rw [h3,h4,hlog]
    exact he.uncalled k x hx

/- The function of a queued entry is called. -/
theorem Entries.mark (he : s.Entries free q) (hb : b ∈ q h) (ha : (s.bc b).state = .active) :
    ({ s with log := s.log ++ [Event.called (s.bc b).reg] }.setBc b { s.bc b with state := .callout }).Entries
      free q := by
  have hbc : ∀ x, x ≠ b → ({ s with log := s.log ++ [Event.called (s.bc b).reg] }.setBc b
      { s.bc b with state := .callout }).bc x = s.bc x := fun x hx => setBc_other hx
  have hself : ({ s with log := s.log ++ [Event.called (s.bc b).reg] }.setBc b
      { s.bc b with state := .callout }).bc b = { s.bc b with state := .callout } := Function.update_self ..
  have hid : ∀ x, (({ s with log := s.log ++ [Event.called (s.bc b).reg] }.setBc b
      { s.bc b with state := .callout }).bc x).id = (s.bc x).id ∧
      (({ s with log := s.log ++ [Event.called (s.bc b).reg] }.setBc b
      { s.bc b with state := .callout }).bc x).reg = (s.bc x).reg := by
    intro x
    by_cases hx : x = b
    · rw [hx,hself]
      exact ⟨rfl,rfl⟩
    · rw [hbc x hx]
      exact ⟨rfl,rfl⟩
  have hshape : ({ s with log := s.log ++ [Event.called (s.bc b).reg] } : BcTable).Shape free q :=
    ⟨he.shape.freel,he.shape.heads,he.shape.links,he.shape.cnt,he.shape.freeNodup,he.shape.nodup,he.shape.freeLt,
      he.shape.mem,he.shape.apart⟩
  refine ⟨hshape.setState b .callout,fun x hx => ?_,fun k x hx => ?_,
    fun k x hx j y hy => ?_,fun k x hx => ?_,fun e hm => ?_,fun k x hx hm => ?_,fun k x hx hst hm => ?_,?_⟩
  · rw [hbc x fun hxb => hx h (hxb ▸ hb)]
    exact he.unused x hx
  · by_cases hxb : x = b
    · rw [hxb,hself]
      obtain ⟨h1,h2,-⟩ := he.used h b hb
      exact ⟨h1,h2,nofun⟩
    · rw [hbc x hxb]
      exact he.used k x hx
  · rw [(hid x).2,(hid y).2]
    exact he.distinct k x hx j y hy
  · rw [(hid x).1,(hid x).2]
    exact he.reg k x hx
  · rcases List.mem_append.mp hm with hm | hm
    · exact he.logLt e hm
    · obtain rfl := List.mem_singleton.mp hm
      exact he.regLt hb
  · rw [(hid x).2] at hm
    rcases List.mem_append.mp hm with hm | hm
    · exact he.uncancelled k x hx hm
    · cases List.mem_singleton.mp hm
  · rw [(hid x).2] at hm
    by_cases hxb : x = b
    · rw [hxb,hself] at hst
      cases hst
    · rw [hbc x hxb] at hst
      rcases List.mem_append.mp hm with hm | hm
      · exact he.uncalled k x hx hst hm
      · exact hxb (he.distinct k x hx h b hb (Event.called.inj (List.mem_singleton.mp hm)))
  · refine List.pairwise_append.mpr ⟨he.quiet,List.pairwise_singleton ..,?_⟩
    intro e hm f hf r hr hreg
    obtain rfl := List.mem_singleton.mp hf
    obtain rfl := Event.called.inj hr
    cases e with
    | called r' =>
      obtain rfl : r' = _ := hreg
      exact he.uncalled h b hb ha hm
    | cancelled r' =>
      obtain rfl : r' = _ := hreg
      exact he.uncancelled h b hb hm

/- What the tasks are doing is nothing to the entries. -/
theorem Entries.same {u : BcTable} (he : s.Entries free q) (hbc : u.bc = s.bc) (hbrk : s.brk ≤ u.brk)
    (hl : u.lisBchash = s.lisBchash) (hf : u.lisBcfreel = s.lisBcfreel) (hc : u.lisBcCnt = s.lisBcCnt)
    (hids : u.ids = s.ids) (hlog : u.log = s.log) : u.Entries free q := by
  refine ⟨he.shape.congr (fun x => by simp only [hbc,and_self]) hbrk hl hf hc,?_,?_,?_,?_,?_,?_,?_,hlog ▸ he.quiet⟩
  all_goals simp only [hbc,hids,hlog]
  · exact he.unused
  · exact he.used
  · exact he.distinct
  · exact he.reg
  · exact he.logLt
  · exact he.uncancelled
  · exact he.uncalled

theorem Entries.pop (he : s.Entries free q) (hf : s.lisBcfreel = some b) (id : Bcid) :
    ∃ free', free = b :: free' ∧ { s with lisBcfreel := (s.bc b).next, idNum := id }.Entries free' q := by
  obtain ⟨free',hfree,hs⟩ := he.shape.pop hf id
  exact ⟨free',hfree,hs,he.unused,he.used,he.distinct,he.reg,he.logLt,he.uncancelled,he.uncalled,he.quiet⟩

theorem mem_regsOf {r : ℕ} (h : r ∈ s.regsOf bcid n) : s.ids[r]? = some bcid := by
  simpa using (List.mem_filter.mp h).2

/- No function is queued under an id that has been cancelled. -/
theorem Entries.cancel (he : s.Entries free q) (hno : ∀ h, ∀ b ∈ q h, (s.bc b).id ≠ bcid) :
    { s with log := s.log ++ (s.regsOf bcid n).map Event.cancelled }.Entries free q := by
  have hs : { s with log := s.log ++ (s.regsOf bcid n).map Event.cancelled }.Shape free q :=
    he.shape.congr (fun _ => ⟨rfl,rfl,rfl⟩) le_rfl rfl rfl rfl
  have hnew : ∀ e ∈ (s.regsOf bcid n).map Event.cancelled, ∃ r, e = .cancelled r ∧ s.ids[r]? = some bcid := by
    intro e hm
    obtain ⟨r,hr,rfl⟩ := List.mem_map.mp hm
    exact ⟨r,rfl,mem_regsOf hr⟩
  refine ⟨hs,he.unused,he.used,he.distinct,he.reg,fun e hm => ?_,fun h b hb hm => ?_,fun h b hb ha hm => ?_,?_⟩
  · rcases List.mem_append.mp hm with hm | hm
    · exact he.logLt e hm
    · obtain ⟨r,rfl,hr⟩ := hnew e hm
      exact (List.getElem?_eq_some_iff.mp hr).1
  · rcases List.mem_append.mp hm with hm | hm
    · exact he.uncancelled h b hb hm
    · obtain ⟨r,hr,hid⟩ := hnew _ hm
      obtain rfl := Event.cancelled.inj hr
      exact hno h b hb (Option.some.inj ((he.reg h b hb).symm.trans hid))
  · rcases List.mem_append.mp hm with hm | hm
    · exact he.uncalled h b hb ha hm
    · obtain ⟨r,hr,-⟩ := hnew _ hm
      cases hr
  · have hq : ∀ e, ∀ e' ∈ (s.regsOf bcid n).map Event.cancelled, Quiet e e' := by
      intro e e' hm r hr
      obtain ⟨r',rfl,-⟩ := hnew e' hm
      cases hr
    exact List.pairwise_append.mpr ⟨he.quiet,List.pairwise_of_forall_mem_list fun e _ e' hm => hq e e' hm,
      fun e _ e' hm => hq e e' hm⟩

/- The search of `lis_unbufcall` sees the whole list. -/
theorem find_none {o p : Option ℕ} (hl : Linked (fun a => (s.bc a).next) (fun a => (s.bc a).prev) p l none)
    (ho : o = l.head?) (h : s.find bcid n o = some none) : ∀ b ∈ l, (s.bc b).id ≠ bcid := by
  induction l generalizing n o p with
  | nil => exact fun b hb => absurd hb List.not_mem_nil
  | cons a l ih =>
    subst ho
    cases n with
    | zero => cases h
    | succ n =>
      simp only [List.head?_cons,find] at h
      split_ifs at h with hid
      · cases h
      · intro b hb
        rcases List.mem_cons.mp hb with rfl | hb
        · exact hid
        · exact ih hl.2.2 (by simpa using hl.2.1) h b hb

end BcTable

end CSLiS.Bufcall
