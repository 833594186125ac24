import CSLiS.Apush.ChainOrder

/-!
# Which lookups `find_apush_entry` answers (mod.c:671-693)

A range entry ends the search when `a->lastminor <= minor` (`mod.c:685`). So the
search passes by a minor strictly inside a range, and answers every minor above
a range with that range.
-/

namespace CSLiS.Apush

/-- The claim about one lookup, for the entry and for the module list. -/
def LookupFaithful (env : Env) (major minor : ℕ) (st : State) : Prop :=
  (∀ e, findApushEntry minor (st.apush major) = some e →
    e ∈ st.apush major ∧ minor ∈ minors e) ∧
  (findApushEntry minor (st.apush major) = none ↔ ∀ e ∈ st.apush major, minor ∉ minors e) ∧
  (∀ e ∈ st.apush major, minor ∈ minors e →
    lisApushm env major minor st = e.push.map env.fName) ∧
  ((∀ e ∈ st.apush major, minor ∉ minors e) → lisApushm env major minor st = [])

/-- No range of the chain has the minor strictly inside it or above it. -/
def RangesClear (minor : ℕ) (c : Chain) : Prop :=
  ∀ e ∈ c, e.cmd = sapRange →
    ¬ (e.minor < minor ∧ minor < e.lastminor) ∧ ¬ e.lastminor < minor

theorem find_above {c : Chain} {m : ℕ} (hna : ∀ e ∈ c, e.cmd ≠ sapAll)
    (h : ∀ e ∈ c, m < e.minor) : findApushEntry m c = none := by
  cases c with
  | nil => rfl
  | cons a rest =>
    have hm := h a (List.mem_cons_self ..)
    rw [findApushEntry,if_neg (hna a (List.mem_cons_self ..)),if_pos hm]

theorem RangesClear.tail {a : Autopush} {c : Chain} {m : ℕ} (h : RangesClear m (a :: c)) :
    RangesClear m c := fun e he => h e (List.mem_cons_of_mem _ he)

/-- An entry found on a chain whose ranges leave the minor clear contains it. -/
theorem find_clear_some {c : Chain} {m : ℕ} (hok : ChainOk c) (hcl : RangesClear m c)
    {e : Autopush} (h : findApushEntry m c = some e) : e ∈ c ∧ m ∈ minors e := by
  induction c with
  | nil => cases h
  | cons a rest ih =>
    have hw := hok.wellFormed a (List.mem_cons_self ..)
    unfold findApushEntry at h
    split_ifs at h with hall hgt heq hr
    · rw [← Option.some.inj h]
      exact ⟨List.mem_cons_self ..,mem_minors_all hall m⟩
    · rw [← Option.some.inj h,← heq]
      exact ⟨List.mem_cons_self ..,minor_mem_minors hw⟩
    · rw [← Option.some.inj h]
      have hnl := (hcl a (List.mem_cons_self ..) hr.1).2
      exact ⟨List.mem_cons_self ..,(mem_minors_range hr.1 m).mpr ⟨by omega,by omega⟩⟩
    · obtain ⟨h1,h2⟩ := ih hok.tail hcl.tail h
      exact ⟨List.mem_cons_of_mem _ h1,h2⟩

theorem find_clear_none {c : Chain} {m : ℕ} (hok : ChainOk c) (hcl : RangesClear m c)
    (h : findApushEntry m c = none) : ∀ e ∈ c, m ∉ minors e := by
  induction c with
  | nil => exact fun e he => nomatch he
  | cons a rest ih =>
    have hw := hok.wellFormed a (List.mem_cons_self ..)
    have hcla := hcl a (List.mem_cons_self ..)
    unfold findApushEntry at h
    split_ifs at h with hall hgt heq hr
    · intro e he hm
      have hae := hok.above_head hgt e he
      by_cases hea : e.cmd = sapAll
      · have hone := hok.all_alone he hea
        rw [List.cons.injEq] at hone
        exact hall (hone.1 ▸ hea)
      · have hin := (mem_minors_of_ne_all (hok.wellFormed e he) hea m).mp hm
        omega
    · intro e he
      rcases List.mem_cons.mp he with rfl | he
      · rw [mem_minors_of_ne_all hw hall]
        rintro ⟨hl,hu⟩
        rcases hw with h1 | ⟨h2,_⟩ | h3
        · have hle : lastMinor e = e.minor := by simp [lastMinor,h1,sapOne,sapRange]
          omega
        · rw [lastMinor,if_pos h2] at hu
          have hins := (hcla h2).1
          have hnr : ¬ e.lastminor ≤ m := fun hc => hr ⟨h2,hc⟩
          omega
        · exact hall h3
      · exact ih hok.tail hcl.tail h e he

/-- A range that does not leave the minor clear makes the search wrong: the
answer is an entry without the minor, or a minor in the chain is not found. -/
theorem find_not_clear {c : Chain} {m : ℕ} (hok : ChainOk c) {e : Autopush} (he : e ∈ c)
    (hr : e.cmd = sapRange)
    (hbad : (e.minor < m ∧ m < e.lastminor) ∨ e.lastminor < m) :
    (∃ x, findApushEntry m c = some x ∧ m ∉ minors x) ∨
      (findApushEntry m c = none ∧ ∃ x ∈ c, m ∈ minors x) := by
  have hwe := hok.wellFormed e he
  have hle := minor_le_lastMinor hwe
  rw [lastMinor,if_pos hr] at hle
  induction c with
  | nil => cases he
  | cons a rest ih =>
    have hna : ∀ x ∈ a :: rest, x.cmd ≠ sapAll := fun x hx ha => by
      rw [hok.all_alone hx ha,List.mem_singleton] at he
      rw [he,ha] at hr
      cases hr
    have hbelow : e = a ∨ (e ∈ rest ∧ lastMinor a < e.minor) := by
      rcases List.mem_cons.mp he with rfl | hm
      · exact .inl rfl
      · exact .inr ⟨hm,(hok.below e hm).2.2⟩
    have hwa := hok.wellFormed a (List.mem_cons_self ..)
    have hla := minor_le_lastMinor hwa
    unfold findApushEntry
    rw [if_neg (hna a (List.mem_cons_self ..))]
    have hgt : ¬ a.minor > m := by rcases hbelow with rfl | ⟨_,h⟩ <;> omega
    have hne : ¬ a.minor = m := by
      rcases hbelow with rfl | ⟨_,h⟩
      · have hlt : e.minor < e.lastminor := by
          rcases hwe with h1 | ⟨_,h2⟩ | h3
          · rw [h1] at hr; cases hr
          · exact h2
          · rw [h3] at hr; cases hr
        omega
      · omega
    rw [if_neg hgt,if_neg hne]
    split_ifs with hstop
    · refine .inl ⟨a,rfl,fun hm => ?_⟩
      rw [mem_minors_range hstop.1] at hm
      rw [lastMinor,if_pos hstop.1] at hbelow
      rcases hbelow with rfl | ⟨_,h⟩ <;> omega
    · rcases hbelow with rfl | ⟨hmem,_⟩
      · have hin : m < e.lastminor := by
          have hnl : ¬ e.lastminor ≤ m := fun hc => hstop ⟨hr,hc⟩
          omega
        refine .inr ⟨find_above (fun x hx => hna x (List.mem_cons_of_mem _ hx)) ?_,e,he,?_⟩
        · intro x hx
          have hb := (hok.below x hx).2.2
          rw [lastMinor,if_pos hr] at hb
          omega
        · exact (mem_minors_range hr m).mpr ⟨by omega,hin.le⟩
      · rcases ih hok.tail hmem with h | ⟨h,x,hx,hm⟩
        · exact .inl h
        · exact .inr ⟨h,x,List.mem_cons_of_mem _ hx,hm⟩

/-- The entry that contains a minor is the only one. -/
theorem minors_unique {c : Chain} (hok : ChainOk c) {x y : Autopush} (hx : x ∈ c) (hy : y ∈ c)
    {m : ℕ} (hmx : m ∈ minors x) (hmy : m ∈ minors y) : x = y := by
  by_contra hne
  have hp : c.Pairwise fun x y => Disjoint (minors x) (minors y) :=
    hok.sortedDisjoint.imp fun h => h.2
  exact Set.disjoint_left.mp (hp.forall hx hy hne) hmx hmy

/-- Majors above the table have no entries. -/
theorem reachable_major {st : State} (h : Reachable st) {major : ℕ} (hm : maxStrdev ≤ major) :
    st.apush major = [] := by
  obtain ⟨calls,hc⟩ := h
  refine Lib.Exec.exec_invariant (I := fun s => s.apush major = []) ?_ rfl hc
  intro s call t hs ht
  rw [← Option.some.inj ht]
  have hset : ∀ (j : ℕ) (c : Chain), ¬ j ≥ maxStrdev → (setChain s j c).apush major = [] := by
    intro j c hj
    have hne : major ≠ j := by omega
    simp [setChain,hne,hs]
  have hins : ∀ (j : ℕ) (a : Autopush) (c : Option Chain), ¬ j ≥ maxStrdev →
      (insertEntry s j a c).2.apush major = [] := by
    intro j a c hj
    cases c with
    | none => exact hs
    | some c => exact hset j c hj
  have hconf : ∀ (j : ℕ) (a : Autopush), (apushConf call.1 j a s).2.apush major = [] := by
    intro j a
    unfold apushConf
    split_ifs with h1
    all_goals first
      | exact hs
      | exact hins j a _ h1
      | skip
    split
    · exact hs
    · split_ifs
      · exact hset j _ h1
      · split
        · exact hs
        · exact hset j _ h1
  unfold lisApushSet
  split_ifs
  all_goals first
    | exact hs
    | skip
  split
  · exact hs
  · split_ifs
    · exact hconf _ _
    · exact hs

/-- For every reachable configuration, major and minor: the lookup is right
exactly when no range of that major has the minor strictly inside or above it. -/
theorem findApushEntry_faithful_iff {st : State} (hst : Reachable st) (env : Env)
    (major minor : ℕ) :
    LookupFaithful env major minor st ↔ RangesClear minor (st.apush major) := by
  have hok := reachable_ok hst major
  constructor
  · rintro ⟨hsome,hnone,_,_⟩ e he hr
    have hgood : ¬ ((e.minor < minor ∧ minor < e.lastminor) ∨ e.lastminor < minor) := by
      intro hbad
      rcases find_not_clear hok he hr hbad with ⟨x,hx,hm⟩ | ⟨hn,x,hx,hm⟩
      · exact hm (hsome x hx).2
      · exact hnone.mp hn x hx hm
    exact ⟨fun h => hgood (.inl h),fun h => hgood (.inr h)⟩
  · intro hcl
    have hsome := fun e => find_clear_some (e := e) hok hcl
    have hnone := find_clear_none hok hcl
    have hfind : ∀ e ∈ st.apush major, minor ∈ minors e →
        findApushEntry minor (st.apush major) = some e := by
      intro e he hm
      cases hf : findApushEntry minor (st.apush major) with
      | none => exact absurd hm (hnone hf e he)
      | some x => rw [minors_unique hok (hsome x hf).1 he (hsome x hf).2 hm]
    have hempty : (∀ e ∈ st.apush major, minor ∉ minors e) →
        findApushEntry minor (st.apush major) = none := by
      intro h
      cases hf : findApushEntry minor (st.apush major) with
      | none => rfl
      | some x => exact absurd (hsome x hf).2 (h x (hsome x hf).1)
    refine ⟨hsome,⟨hnone,hempty⟩,fun e he hm => ?_,fun h => ?_⟩
    · have hmaj : ¬ major ≥ maxStrdev := fun hge => by
        rw [reachable_major hst hge] at he
        cases he
      rw [lisApushm,if_neg hmaj,hfind e he hm]
    · rw [lisApushm,hempty h,ite_self]

/-- Minor 6 is inside the range 4 to 9 and is not found. -/
theorem minor_inside_range_missed :
    Reachable sampleState ∧ ¬ LookupFaithful sampleEnv 5 6 sampleState := by
  refine ⟨sampleState_reachable,fun h => ?_⟩
  have hnone : findApushEntry 6 (sampleState.apush 5) = none := by decide
  have hmem : (⟨sapRange,4,9,[1]⟩ : Autopush) ∈ sampleState.apush 5 := by decide
  exact h.2.1.mp hnone _ hmem ((mem_minors_range rfl 6).mpr (by decide))

theorem range_end_faithful : LookupFaithful sampleEnv 5 9 sampleState :=
  (findApushEntry_faithful_iff sampleState_reachable sampleEnv 5 9).mpr (by
    rw [sampleState_chain]
    intro e he _
    rw [List.mem_singleton.mp he]
    decide)

end CSLiS.Apush
