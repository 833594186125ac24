import CSLiS.Apush.Chain

/-!
# The order of an autopush chain

The set of minors of an entry, and the invariant of every chain that
`lis_apush_set` calls can build: well-formed entries, each lying entirely below
the ones that follow it. A catch-all entry is alone in its chain.
-/

namespace CSLiS.Apush
open Lib.Exec

/-- The configured minors of an entry (`sad.h:39-42`). -/
def minors (e : Autopush) : Set ℕ :=
  if e.cmd = sapAll then Set.univ
  else if e.cmd = sapRange then Set.Icc e.minor e.lastminor
  else {e.minor}

/-- An entry that `apush_conf` may link in. -/
def WellFormed (e : Autopush) : Prop :=
  e.cmd = sapOne ∨ (e.cmd = sapRange ∧ e.minor < e.lastminor) ∨ e.cmd = sapAll

def lastMinor (e : Autopush) : ℕ := if e.cmd = sapRange then e.lastminor else e.minor

/-- `x` lies entirely below `y`. -/
def Below (x y : Autopush) : Prop :=
  x.cmd ≠ sapAll ∧ y.cmd ≠ sapAll ∧ lastMinor x < y.minor

structure ChainOk (c : Chain) : Prop where
  wellFormed : ∀ e ∈ c, WellFormed e
  order : c.Pairwise Below

/-- The wording of the invariant in terms of minors and sets. -/
def SortedDisjoint (c : Chain) : Prop :=
  c.Pairwise fun x y => x.minor < y.minor ∧ Disjoint (minors x) (minors y)

theorem mem_minors_all {e : Autopush} (h : e.cmd = sapAll) (m : ℕ) : m ∈ minors e := by
  simp [minors,h]

theorem mem_minors_range {e : Autopush} (h : e.cmd = sapRange) (m : ℕ) :
    m ∈ minors e ↔ e.minor ≤ m ∧ m ≤ e.lastminor := by
  simp [minors,h,sapRange,sapAll]

theorem mem_minors_of_ne_all {e : Autopush} (hw : WellFormed e) (h : e.cmd ≠ sapAll) (m : ℕ) :
    m ∈ minors e ↔ e.minor ≤ m ∧ m ≤ lastMinor e := by
  rcases hw with h1 | ⟨h2,_⟩ | h3
  · simp only [minors,lastMinor,h1,sapOne,sapAll,sapRange]
    norm_num
    omega
  · rw [mem_minors_range h2,lastMinor,if_pos h2]
  · exact absurd h3 h

theorem minor_le_lastMinor {e : Autopush} (hw : WellFormed e) : e.minor ≤ lastMinor e := by
  unfold lastMinor
  split
  next h =>
    rcases hw with h1 | ⟨_,h2⟩ | h3
    · rw [h1] at h; cases h
    · exact h2.le
    · rw [h3] at h; cases h
  next => exact le_rfl

theorem minor_mem_minors {e : Autopush} (hw : WellFormed e) : e.minor ∈ minors e := by
  by_cases h : e.cmd = sapAll
  · exact mem_minors_all h _
  · rw [mem_minors_of_ne_all hw h]
    exact ⟨le_rfl,minor_le_lastMinor hw⟩

/-- Two entries that are not catch-alls are disjoint exactly when one lies
below the other. -/
theorem disjoint_iff {x y : Autopush} (hx : WellFormed x) (hy : WellFormed y)
    (hxa : x.cmd ≠ sapAll) (hya : y.cmd ≠ sapAll) :
    Disjoint (minors x) (minors y) ↔ lastMinor x < y.minor ∨ lastMinor y < x.minor := by
  have hlx := minor_le_lastMinor hx
  have hly := minor_le_lastMinor hy
  constructor
  · intro hd
    by_contra hn
    rw [not_or,not_lt,not_lt] at hn
    have hmx : max x.minor y.minor ∈ minors x := by rw [mem_minors_of_ne_all hx hxa]; omega
    have hmy : max x.minor y.minor ∈ minors y := by rw [mem_minors_of_ne_all hy hya]; omega
    exact Set.disjoint_left.mp hd hmx hmy
  · intro h
    rw [Set.disjoint_left]
    intro m hmx hmy
    rw [mem_minors_of_ne_all hx hxa] at hmx
    rw [mem_minors_of_ne_all hy hya] at hmy
    omega

theorem not_disjoint_all {x y : Autopush} (hx : x.cmd = sapAll) (hy : WellFormed y) :
    ¬ Disjoint (minors x) (minors y) := fun hd =>
  Set.disjoint_left.mp hd (mem_minors_all hx y.minor) (minor_mem_minors hy)

theorem ChainOk.nil : ChainOk [] := ⟨by simp,.nil⟩

theorem ChainOk.tail {a : Autopush} {c : Chain} (h : ChainOk (a :: c)) : ChainOk c :=
  ⟨fun e he => h.wellFormed e (List.mem_cons_of_mem _ he),(List.pairwise_cons.mp h.order).2⟩

theorem ChainOk.below {a : Autopush} {c : Chain} (h : ChainOk (a :: c)) :
    ∀ e ∈ c, Below a e := (List.pairwise_cons.mp h.order).1

theorem ChainOk.sublist {c d : Chain} (h : ChainOk c) (hs : d.Sublist c) : ChainOk d :=
  ⟨fun e he => h.wellFormed e (hs.subset he),h.order.sublist hs⟩

theorem ChainOk.sortedDisjoint {c : Chain} (h : ChainOk c) : SortedDisjoint c := by
  refine List.Pairwise.imp_of_mem ?_ h.order
  intro x y hx hy hb
  have hwx := h.wellFormed x hx
  have hwy := h.wellFormed y hy
  refine ⟨(minor_le_lastMinor hwx).trans_lt hb.2.2,?_⟩
  exact (disjoint_iff hwx hwy hb.1 hb.2.1).mpr (.inl hb.2.2)

/-- The chain either consists of one catch-all entry or holds none. -/
theorem ChainOk.all_alone {c : Chain} (h : ChainOk c) {e : Autopush} (he : e ∈ c)
    (ha : e.cmd = sapAll) : c = [e] := by
  cases c with
  | nil => cases he
  | cons a rest =>
    rcases List.mem_cons.mp he with rfl | hr
    · cases rest with
      | nil => rfl
      | cons b rest => exact absurd ha (h.below b (List.mem_cons_self ..)).1
    · exact absurd ha (h.below e hr).2.1

theorem headIsAll_iff {c : Chain} (h : ChainOk c) :
    headIsAll c = true ↔ ∃ e ∈ c, e.cmd = sapAll := by
  constructor
  · intro ht
    cases c with
    | nil => cases ht
    | cons a rest => exact ⟨a,List.mem_cons_self ..,by simpa [headIsAll] using ht⟩
  · rintro ⟨e,he,ha⟩
    rw [h.all_alone he ha]
    simp [headIsAll,ha]

/-- Linking an entry in between the entries below it and those above it. -/
theorem ChainOk.insert {pre post : Chain} {a : Autopush} (h : ChainOk (pre ++ post))
    (hw : WellFormed a) (hpre : ∀ e ∈ pre, Below e a) (hpost : ∀ e ∈ post, Below a e) :
    ChainOk (pre ++ a :: post) := by
  have hp := List.pairwise_append.mp h.order
  refine ⟨?_,?_⟩
  · intro e he
    simp only [List.mem_append,List.mem_cons] at he
    rcases he with he | rfl | he
    · exact h.wellFormed e (List.mem_append_left _ he)
    · exact hw
    · exact h.wellFormed e (List.mem_append_right _ he)
  · refine List.pairwise_append.mpr ⟨hp.1,List.pairwise_cons.mpr ⟨hpost,hp.2.1⟩,?_⟩
    intro x hx y hy
    rcases List.mem_cons.mp hy with rfl | hy
    · exact hpre x hx
    · exact hp.2.2 x hx y hy

/-- Entries from the first one above `m` on all lie above `m`. -/
theorem ChainOk.above_head {ar : Autopush} {rest : Chain} {m : ℕ} (h : ChainOk (ar :: rest))
    (hm : m < ar.minor) : ∀ e ∈ ar :: rest, m < e.minor := by
  intro e he
  rcases List.mem_cons.mp he with rfl | he
  · exact hm
  · have hb := (h.below e he).2.2
    have hl := minor_le_lastMinor (h.wellFormed ar (List.mem_cons_self ..))
    omega

/-! ### Insertion of a single minor -/

theorem insertOne_some {a : Autopush} {c c' : Chain} (hok : ChainOk c)
    (hna : ∀ e ∈ c, e.cmd ≠ sapAll) (h : insertOne a c = some c') :
    ∃ pre post, c = pre ++ post ∧ c' = pre ++ a :: post ∧
      (∀ e ∈ pre, lastMinor e < a.minor) ∧ ∀ e ∈ post, a.minor < e.minor := by
  induction c generalizing c' with
  | nil => exact ⟨[],[],rfl,by simpa [insertOne] using h.symm,by simp,by simp⟩
  | cons ar rest ih =>
    have hw := hok.wellFormed ar (List.mem_cons_self ..)
    have har := hna ar (List.mem_cons_self ..)
    have hrec : ∀ d, (insertOne a rest).map (ar :: ·) = some d → lastMinor ar < a.minor →
        ∃ pre post, ar :: rest = pre ++ post ∧ d = pre ++ a :: post ∧
          (∀ e ∈ pre, lastMinor e < a.minor) ∧ ∀ e ∈ post, a.minor < e.minor := by
      intro d hd hlt
      obtain ⟨d',hd',rfl⟩ := Option.map_eq_some_iff.mp hd
      obtain ⟨pre,post,hc,hc',hpre,hpost⟩ :=
        ih hok.tail (fun e he => hna e (List.mem_cons_of_mem _ he)) hd'
      refine ⟨ar :: pre,post,by rw [hc]; rfl,by rw [hc']; rfl,?_,hpost⟩
      intro e he
      rcases List.mem_cons.mp he with rfl | he
      · exact hlt
      · exact hpre e he
    unfold insertOne at h
    split_ifs at h with hgt hone heq hle
    · exact ⟨[],ar :: rest,rfl,(Option.some.inj h).symm,by simp,hok.above_head hgt⟩
    · refine hrec c' h ?_
      have hl : lastMinor ar = ar.minor := by simp [lastMinor,hone,sapOne,sapRange]
      omega
    · refine hrec c' h ?_
      rcases hw with h1 | ⟨h2,_⟩ | h3
      · exact absurd h1 hone
      · rw [lastMinor,if_pos h2]; omega
      · exact absurd h3 har

theorem insertOne_none {a : Autopush} {c : Chain} (hok : ChainOk c)
    (hna : ∀ e ∈ c, e.cmd ≠ sapAll) (h : insertOne a c = none) :
    ∃ e ∈ c, a.minor ∈ minors e := by
  induction c with
  | nil => cases h
  | cons ar rest ih =>
    have hw := hok.wellFormed ar (List.mem_cons_self ..)
    have har := hna ar (List.mem_cons_self ..)
    have hrec : (insertOne a rest).map (ar :: ·) = none → ∃ e ∈ ar :: rest, a.minor ∈ minors e := by
      intro hd
      obtain ⟨e,he,hm⟩ := ih hok.tail (fun e he => hna e (List.mem_cons_of_mem _ he))
        (Option.map_eq_none_iff.mp hd)
      exact ⟨e,List.mem_cons_of_mem _ he,hm⟩
    unfold insertOne at h
    split_ifs at h with hgt hone heq hle
    · exact ⟨ar,List.mem_cons_self ..,heq ▸ minor_mem_minors hw⟩
    · exact hrec h
    · refine ⟨ar,List.mem_cons_self ..,(mem_minors_of_ne_all hw har _).mpr ⟨by omega,?_⟩⟩
      rcases hw with h1 | ⟨h2,_⟩ | h3
      · exact absurd h1 hone
      · rwa [lastMinor,if_pos h2]
      · exact absurd h3 har
    · exact hrec h

/-! ### Insertion of a range -/

theorem insertRange_some {a : Autopush} {c c' : Chain} (hok : ChainOk c)
    (ha : a.minor < a.lastminor) (h : insertRange a c = some c') :
    ∃ pre post, c = pre ++ post ∧ c' = pre ++ a :: post ∧
      (∀ e ∈ pre, e.cmd = sapOne ∧ e.minor < a.minor) ∧ ∀ e ∈ post, a.lastminor < e.minor := by
  induction c generalizing c' with
  | nil => exact ⟨[],[],rfl,by simpa [insertRange] using h.symm,by simp,by simp⟩
  | cons ar rest ih =>
    unfold insertRange at h
    split_ifs at h with hgt hge hone hor
    · exact ⟨[],ar :: rest,rfl,(Option.some.inj h).symm,by simp,hok.above_head hgt⟩
    · omega
    · obtain ⟨d',hd',rfl⟩ := Option.map_eq_some_iff.mp h
      obtain ⟨pre,post,hc,hc',hpre,hpost⟩ := ih hok.tail hd'
      refine ⟨ar :: pre,post,by rw [hc]; rfl,by rw [hc']; rfl,?_,hpost⟩
      intro e he
      rcases List.mem_cons.mp he with rfl | he
      · exact ⟨by simpa using hone,by omega⟩
      · exact hpre e he

/-- The range loop refuses an entry because of an overlap at or above its first
minor, or because of a range that starts below it, wherever that one ends. -/
theorem insertRange_none {a : Autopush} {c : Chain} (h : insertRange a c = none) :
    (∃ e ∈ c, a.minor ≤ e.minor ∧ e.minor ≤ a.lastminor) ∨
      ∃ e ∈ c, e.cmd ≠ sapOne ∧ e.minor < a.minor := by
  induction c with
  | nil => cases h
  | cons ar rest ih =>
    have hrec : (insertRange a rest).map (ar :: ·) = none →
        (∃ e ∈ ar :: rest, a.minor ≤ e.minor ∧ e.minor ≤ a.lastminor) ∨
          ∃ e ∈ ar :: rest, e.cmd ≠ sapOne ∧ e.minor < a.minor := by
      intro hd
      rcases ih (Option.map_eq_none_iff.mp hd) with ⟨e,he,hm⟩ | ⟨e,he,hm⟩
      · exact .inl ⟨e,List.mem_cons_of_mem _ he,hm⟩
      · exact .inr ⟨e,List.mem_cons_of_mem _ he,hm⟩
    unfold insertRange at h
    split_ifs at h with hgt hge hone hor
    · exact .inl ⟨ar,List.mem_cons_self ..,hge,by omega⟩
    · exact .inr ⟨ar,List.mem_cons_self ..,hone,by omega⟩
    · exact hrec h
    · exact hrec h

theorem insertRange_refuses {a e : Autopush} {c : Chain} (hok : ChainOk c)
    (ha : a.minor < a.lastminor) (he : e ∈ c) (hr : e.cmd = sapRange)
    (hlt : e.minor < a.minor) : insertRange a c = none := by
  cases hi : insertRange a c with
  | none => rfl
  | some c' =>
    obtain ⟨pre,post,rfl,_,hpre,hpost⟩ := insertRange_some hok ha hi
    rcases List.mem_append.mp he with hm | hm
    · rw [(hpre e hm).1] at hr; cases hr
    · have := hpost e hm; omega

/-! ### Removal and reachable configurations -/

theorem clearEntry_sublist {m : ℕ} {c : Chain} {p : Autopush × Chain}
    (h : clearEntry m c = some p) : p.2.Sublist c := by
  induction c generalizing p with
  | nil => cases h
  | cons ar rest ih =>
    unfold clearEntry at h
    split_ifs at h with hgt heq
    · rw [← Option.some.inj h]
      exact List.sublist_cons_self ar rest
    · obtain ⟨q,hq,rfl⟩ := Option.map_eq_some_iff.mp h
      exact (ih hq).cons_cons ar

def StateOk (st : State) : Prop := ∀ major, ChainOk (st.apush major)

theorem setChain_ok {st : State} (h : StateOk st) {major : ℕ} {c : Chain} (hc : ChainOk c) :
    StateOk (setChain st major c) := by
  intro j
  by_cases hj : j = major
  · subst hj; simpa [setChain] using hc
  · simpa [setChain,hj] using h j

theorem insertEntry_ok {st : State} (h : StateOk st) (major : ℕ) (a : Autopush) {c : Option Chain}
    (hc : ∀ d, c = some d → ChainOk d) : StateOk (insertEntry st major a c).2 := by
  cases c with
  | none => exact h
  | some d => exact setChain_ok h (hc d rfl)

theorem insertOne_ok {a : Autopush} {c c' : Chain} (hok : ChainOk c) (ha : a.cmd = sapOne)
    (hna : ∀ e ∈ c, e.cmd ≠ sapAll) (h : insertOne a c = some c') : ChainOk c' := by
  obtain ⟨pre,post,rfl,rfl,hpre,hpost⟩ := insertOne_some hok hna h
  have hne : a.cmd ≠ sapAll := by rw [ha]; decide
  have hl : lastMinor a = a.minor := by simp [lastMinor,ha,sapOne,sapRange]
  refine hok.insert (.inl ha) (fun e he => ?_) (fun e he => ?_)
  · exact ⟨hna e (List.mem_append_left _ he),hne,hpre e he⟩
  · exact ⟨hne,hna e (List.mem_append_right _ he),hl ▸ hpost e he⟩

theorem insertRange_ok {a : Autopush} {c c' : Chain} (hok : ChainOk c) (ha : a.cmd = sapRange)
    (hlt : a.minor < a.lastminor) (hna : ∀ e ∈ c, e.cmd ≠ sapAll)
    (h : insertRange a c = some c') : ChainOk c' := by
  obtain ⟨pre,post,rfl,rfl,hpre,hpost⟩ := insertRange_some hok hlt h
  have hne : a.cmd ≠ sapAll := by rw [ha]; decide
  have hl : lastMinor a = a.lastminor := by simp [lastMinor,ha]
  refine hok.insert (.inr (.inl ⟨ha,hlt⟩)) (fun e he => ?_) (fun e he => ?_)
  · have hp := hpre e he
    have hle : lastMinor e = e.minor := by simp [lastMinor,hp.1,sapOne,sapRange]
    exact ⟨hna e (List.mem_append_left _ he),hne,hle ▸ hp.2⟩
  · exact ⟨hne,hna e (List.mem_append_right _ he),hl ▸ hpost e he⟩

theorem not_headIsAll {c : Chain} (hok : ChainOk c) (h : headIsAll c = false) :
    ∀ e ∈ c, e.cmd ≠ sapAll := fun e he ha => by
  rw [(headIsAll_iff hok).mpr ⟨e,he,ha⟩] at h
  cases h

theorem apushConf_ok {st : State} (h : StateOk st) (env : Env) (major : ℕ) (a : Autopush) :
    StateOk (apushConf env major a st).2 := by
  have hok := h major
  unfold apushConf
  split_ifs with h1 h2 h3 h4 h5 h6 h7 h8 h9 h10
  · exact h
  · exact h
  · cases hc : st.apush major with
    | nil => exact h
    | cons ar rest =>
      rw [hc] at hok
      by_cases hall : a.minor = 0 ∧ ar.cmd = sapAll
      · simp only [if_pos hall]
        exact setChain_ok h hok.tail
      · simp only [if_neg hall]
        cases he : clearEntry a.minor (ar :: rest) with
        | none => exact h
        | some p => exact setChain_ok h (hok.sublist (clearEntry_sublist he))
  · exact h
  · exact insertEntry_ok h major a fun d hd =>
      insertOne_ok hok h4 (not_headIsAll hok (by simpa using h5)) hd
  · exact h
  · exact h
  · exact insertEntry_ok h major a fun d hd =>
      insertRange_ok hok h6 (by omega) (not_headIsAll hok (by simpa using h8)) hd
  · refine insertEntry_ok h major a fun d hd => ?_
    rw [← Option.some.inj hd]
    exact ⟨by simpa [WellFormed] using .inr (.inr h9),List.pairwise_singleton _ _⟩
  · exact h
  · exact h

theorem lisApushSet_ok {st : State} (h : StateOk st) (env : Env) (ap : Strapush) :
    StateOk (lisApushSet env ap st).2 := by
  unfold lisApushSet
  split_ifs
  · exact h
  · exact h
  · exact h
  · split
    · exact h
    · split_ifs
      · exact apushConf_ok h env _ _
      · exact h

/-- One `lis_apush_set` call, with what it finds outside the tables. -/
def step (st : State) (call : Env × Strapush) : Option State :=
  some (lisApushSet call.1 call.2 st).2

/-- The configurations that sequences of `lis_apush_set` calls lead to. -/
def Reachable (st : State) : Prop := ∃ calls, exec step .initial calls = some st

theorem reachable_ok {st : State} (h : Reachable st) : StateOk st := by
  obtain ⟨calls,hc⟩ := h
  refine exec_invariant (I := StateOk) ?_ (fun _ => ChainOk.nil) hc
  intro s call t hs ht
  exact Option.some.inj ht ▸ lisApushSet_ok hs call.1 call.2

/-- A configuration with one driver, at major 5, after one range of minors has
been set for it. -/
def sampleEnv : Env := ⟨fun j => j == 5,fun _ => false,fun _ => true,fun _ => "relay",fun _ => 1,true⟩
def sampleRange : Strapush := ⟨sapRange,5,4,9,1,fun _ => "relay"⟩
def sampleState : State := (lisApushSet sampleEnv sampleRange .initial).2

theorem sampleState_reachable : Reachable sampleState := ⟨[(sampleEnv,sampleRange)],rfl⟩

theorem sampleState_chain : sampleState.apush 5 = [⟨sapRange,4,9,[1]⟩] := by decide

end CSLiS.Apush
