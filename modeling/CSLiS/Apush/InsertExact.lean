import CSLiS.Apush.ChainOrder

/-!
# Which entries `apush_conf` accepts (mod.c:584-663)

The intended test is that the new set of minors is disjoint from every set in
the chain. The range loop misses it in one situation: its last condition
`ar->lastminor <= a->lastminor || ar->lastminor >= a->minor` (`mod.c:645-646`)
holds for every range that starts below the new one, so a range is refused as
soon as the chain holds a range below it, however far below.
-/

namespace CSLiS.Apush

/-- The claim about one insertion: success exactly on disjoint sets, the new
chain on success, nothing changed on error. -/
def InsertFaithful (env : Env) (major : ℕ) (a : Autopush) (st : State) : Prop :=
  ((apushConf env major a st).1 = 0 ↔ ∀ e ∈ st.apush major, Disjoint (minors a) (minors e)) ∧
  ((apushConf env major a st).1 = 0 →
    SortedDisjoint ((apushConf env major a st).2.apush major) ∧
    ((apushConf env major a st).2.apush major).Perm (a :: st.apush major)) ∧
  ((apushConf env major a st).1 ≠ 0 → (apushConf env major a st).2 = st)

/-- A range that is disjoint from the whole chain, above another range. -/
def RangeAboveRange (a : Autopush) (c : Chain) : Prop :=
  a.cmd = sapRange ∧ (∀ e ∈ c, Disjoint (minors a) (minors e)) ∧
    ∃ e ∈ c, e.cmd = sapRange ∧ e.lastminor < a.minor

/-- What `apush_conf` does with a well-formed entry for a configured major, as
one equation: the loop of the entry's kind is all that is left. -/
def insertChain (a : Autopush) (c : Chain) : Option Chain :=
  if a.cmd = sapAll then if c.isEmpty then some [a] else none
  else if headIsAll c then none
  else if a.cmd = sapRange then insertRange a c else insertOne a c

theorem apushConf_eq {env : Env} {major : ℕ} {a : Autopush} {st : State}
    (hm : major < maxStrdev) (hcfg : env.fstrSw major = true ∨ env.drvObjname major = true)
    (hw : WellFormed a) :
    apushConf env major a st = insertEntry st major a (insertChain a (st.apush major)) := by
  have h1 : ¬ major ≥ maxStrdev := by omega
  have h2 : (!env.fstrSw major && !env.drvObjname major) = false := by
    rcases hcfg with h | h <;> simp [h]
  rcases hw with h | ⟨h,hlt⟩ | h
  · simp only [apushConf,insertChain,h1,h2,h,Bool.false_eq_true,if_false,if_true,sapOne,sapAll,sapRange,sapClear,
      OfNat.one_ne_ofNat,one_ne_zero]
    split <;> rfl
  · have h3 : ¬ a.minor ≥ a.lastminor := by omega
    simp only [apushConf,insertChain,h1,h2,h,h3,Bool.false_eq_true,if_false,if_true,sapOne,sapAll,sapRange,sapClear,
      OfNat.ofNat_ne_zero,OfNat.ofNat_ne_one,Nat.reduceEqDiff]
    split <;> rfl
  · simp only [apushConf,insertChain,h1,h2,h,Bool.false_eq_true,if_false,if_true,sapOne,sapAll,sapRange,sapClear,
      OfNat.ofNat_ne_zero,OfNat.ofNat_ne_one,Nat.reduceEqDiff]
    split <;> rfl

theorem insertEntry_ret (st : State) (major : ℕ) (a : Autopush) (c : Option Chain) :
    (insertEntry st major a c).1 = 0 ↔ c.isSome = true := by
  cases c <;> simp [insertEntry,EEXIST]

theorem insertEntry_chain {st : State} {major : ℕ} {a : Autopush} {c : Chain} :
    (insertEntry st major a (some c)).2.apush major = c := by
  simp [insertEntry,setChain]

theorem insertChain_perm {a : Autopush} {c c' : Chain} (hok : ChainOk c) (hw : WellFormed a)
    (h : insertChain a c = some c') : c'.Perm (a :: c) := by
  unfold insertChain at h
  split_ifs at h with hall hemp hhead hr
  · cases c with
    | nil => rw [← Option.some.inj h]
    | cons b c => cases hemp
  · have hlt : a.minor < a.lastminor := by
      rcases hw with h1 | ⟨_,h2⟩ | h3
      · rw [h1] at hr; cases hr
      · exact h2
      · exact absurd h3 hall
    obtain ⟨pre,post,rfl,rfl,_,_⟩ := insertRange_some hok hlt h
    exact List.perm_middle
  · obtain ⟨pre,post,rfl,rfl,_,_⟩ :=
      insertOne_some hok (not_headIsAll hok (by simpa using hhead)) h
    exact List.perm_middle

theorem insertChain_ok {a : Autopush} {c c' : Chain} (hok : ChainOk c) (hw : WellFormed a)
    (h : insertChain a c = some c') : ChainOk c' := by
  unfold insertChain at h
  split_ifs at h with hall hemp hhead hr
  · rw [← Option.some.inj h]
    exact ⟨by simpa using hw,List.pairwise_singleton _ _⟩
  · have hna := not_headIsAll hok (by simpa using hhead)
    rcases hw with h1 | ⟨_,h2⟩ | h3
    · rw [h1] at hr; cases hr
    · exact insertRange_ok hok hr h2 hna h
    · exact absurd h3 hall
  · have hna := not_headIsAll hok (by simpa using hhead)
    rcases hw with h1 | ⟨h2,_⟩ | h3
    · exact insertOne_ok hok h1 hna h
    · exact absurd h2 hr
    · exact absurd h3 hall

/-- An accepted entry is disjoint from the whole chain. -/
theorem insertChain_disjoint {a : Autopush} {c c' : Chain} (hok : ChainOk c) (hw : WellFormed a)
    (h : insertChain a c = some c') : ∀ e ∈ c, Disjoint (minors a) (minors e) := by
  have hok' := insertChain_ok hok hw h
  have hp := (insertChain_perm hok hw h)
  have hd : c'.Pairwise fun x y => Disjoint (minors x) (minors y) :=
    hok'.sortedDisjoint.imp fun hxy => hxy.2
  have hd' := (hp.pairwise_iff fun {x y} hxy => hxy.symm).mp hd
  exact (List.pairwise_cons.mp hd').1

/-- A refused entry overlaps the chain, or is a range above another range. -/
theorem insertChain_refused {a : Autopush} {c : Chain} (hok : ChainOk c) (hw : WellFormed a)
    (hn : ¬ RangeAboveRange a c) (h : insertChain a c = none) :
    ∃ e ∈ c, ¬ Disjoint (minors a) (minors e) := by
  unfold insertChain at h
  split_ifs at h with hall hemp hhead hr
  · cases c with
    | nil => exact absurd rfl hemp
    | cons b c =>
      exact ⟨b,List.mem_cons_self ..,
        not_disjoint_all hall (hok.wellFormed b (List.mem_cons_self ..))⟩
  · obtain ⟨e,he,ha⟩ := (headIsAll_iff hok).mp hhead
    exact ⟨e,he,fun hd => not_disjoint_all ha hw hd.symm⟩
  · have hna := not_headIsAll hok (by simpa using hhead)
    have hl : lastMinor a = a.lastminor := by simp [lastMinor,hr]
    rcases insertRange_none h with ⟨e,he,h1,h2⟩ | ⟨e,he,hne,hlt⟩
    · have hwe := hok.wellFormed e he
      have hle := minor_le_lastMinor hwe
      refine ⟨e,he,fun hd => ?_⟩
      rcases (disjoint_iff hw hwe hall (hna e he)).mp hd with h3 | h3 <;> omega
    · have hwe := hok.wellFormed e he
      have her : e.cmd = sapRange := by
        rcases hwe with h1 | ⟨h2,_⟩ | h3
        · exact absurd h1 hne
        · exact h2
        · exact absurd h3 (hna e he)
      have hel : lastMinor e = e.lastminor := by simp [lastMinor,her]
      by_contra hcon
      have hdis : ∀ e ∈ c, Disjoint (minors a) (minors e) := fun e he => by
        by_contra hnd
        exact hcon ⟨e,he,hnd⟩
      refine hn ⟨hr,hdis,e,he,her,?_⟩
      have hla := minor_le_lastMinor hw
      rcases (disjoint_iff hw hwe hall (hna e he)).mp (hdis e he) with h3 | h3 <;> omega
  · have hna := not_headIsAll hok (by simpa using hhead)
    obtain ⟨e,he,hm⟩ := insertOne_none hok hna h
    exact ⟨e,he,fun hd => Set.disjoint_left.mp hd (minor_mem_minors hw) hm⟩

/-- For every reachable configuration, configured major and well-formed entry:
`apush_conf` does what is intended exactly when the entry is not a range that
is disjoint from the chain and above another range. -/
theorem apushConf_faithful_iff {st : State} (hst : Reachable st) (env : Env) {major : ℕ}
    (hm : major < maxStrdev) (hcfg : env.fstrSw major = true ∨ env.drvObjname major = true)
    {a : Autopush} (hw : WellFormed a) :
    InsertFaithful env major a st ↔ ¬ RangeAboveRange a (st.apush major) := by
  have hok := reachable_ok hst major
  rw [InsertFaithful,apushConf_eq hm hcfg hw,insertEntry_ret]
  constructor
  · rintro ⟨hiff,_,_⟩ ⟨hr,hdis,e,he,her,hlt⟩
    have hab : a.minor < a.lastminor := by
      rcases hw with h1 | ⟨_,h2⟩ | h3
      · rw [h1] at hr; cases hr
      · exact h2
      · rw [h3] at hr; cases hr
    have hwe := hok.wellFormed e he
    have hle := minor_le_lastMinor hwe
    rw [lastMinor,if_pos her] at hle
    have hnone : insertChain a (st.apush major) = none := by
      have hne : a.cmd ≠ sapAll := by rw [hr]; decide
      rw [insertChain,if_neg hne,if_pos hr,insertRange_refuses hok hab he her (by omega),ite_self]
    rw [hnone] at hiff
    exact absurd (hiff.mpr hdis) (by simp)
  · intro hn
    cases hi : insertChain a (st.apush major) with
    | none =>
      obtain ⟨e,he,hnd⟩ := insertChain_refused hok hw hn hi
      refine ⟨⟨fun h => ?_,fun h => absurd (h e he) hnd⟩,fun h => ?_,fun _ => rfl⟩ <;> cases h
    | some c' =>
      refine ⟨⟨fun _ => insertChain_disjoint hok hw hi,fun _ => rfl⟩,fun _ => ?_,fun h => ?_⟩
      · rw [insertEntry_chain]
        exact ⟨(insertChain_ok hok hw hi).sortedDisjoint,insertChain_perm hok hw hi⟩
      · exact absurd rfl h

/-- Minors 20 to 30 are refused because minors 4 to 9 are configured. -/
theorem range_above_range_refused :
    Reachable sampleState ∧ WellFormed ⟨sapRange,20,30,[1]⟩ ∧
      ¬ InsertFaithful sampleEnv 5 ⟨sapRange,20,30,[1]⟩ sampleState := by
  refine ⟨sampleState_reachable,.inr (.inl ⟨rfl,by decide⟩),fun h => ?_⟩
  have hret : (apushConf sampleEnv 5 ⟨sapRange,20,30,[1]⟩ sampleState).1 = -EEXIST := by decide
  have hdis : ∀ e ∈ sampleState.apush 5, Disjoint (minors ⟨sapRange,20,30,[1]⟩) (minors e) := by
    intro e he
    rw [sampleState_chain,List.mem_singleton] at he
    rw [he,disjoint_iff (.inr (.inl ⟨rfl,by decide⟩)) (.inr (.inl ⟨rfl,by decide⟩))
      (by decide) (by decide)]
    decide
  have hzero := h.1.mpr hdis
  rw [hret] at hzero
  exact absurd hzero (by decide)

theorem single_minor_faithful : InsertFaithful sampleEnv 5 ⟨sapOne,12,12,[1]⟩ sampleState :=
  (apushConf_faithful_iff sampleState_reachable sampleEnv (show 5 < maxStrdev by decide) (.inl rfl)
    (.inl rfl)).mpr fun h => absurd h.1 (by decide)

end CSLiS.Apush
