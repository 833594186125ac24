import CSLiS.Apush.Strconf

/-!
# When `strconf` and `apush_conf` agree

`strconf` lets a single minor pass into an earlier range, and `apush_conf` takes no range above another. The lookup
answers a range's minors at its ends only, and everything above it. `build_modconf` writes the first major.
-/

namespace CSLiS.Apush

namespace Info

variable {a k l : Info} {dp : List Info} {m : ℕ}

def last (a : Info) : ℤ := if a.lastminor = 0 then a.minor else a.lastminor

def minors (a : Info) : Set ℕ := {m | a.minor = -1 ∨ (a.minor ≤ m ∧ (m : ℤ) ≤ a.last)}

def IsRange (a : Info) : Prop := a.minor ≠ -1 ∧ a.lastminor ≠ 0

structure Ok (a : Info) : Prop where
  least : -1 ≤ a.minor
  le : a.minor ≤ intMax
  nonneg : 0 ≤ a.lastminor
  last_le : a.lastminor ≤ intMax
  all : a.minor = -1 → a.lastminor = 0
  range : a.lastminor ≠ 0 → a.minor < a.lastminor

def Overlap (k l : Info) : Prop := ∃ m, m ∈ k.minors ∧ m ∈ l.minors

theorem Ok.minor_le_last (h : Ok a) : a.minor ≤ a.last := by
  unfold last
  split_ifs with h0
  · exact le_rfl
  · exact (h.range h0).le

/- Every entry has a minor of which it can be asked. -/
theorem Ok.toNat_mem (h : Ok a) : a.minor.toNat ∈ a.minors := by
  have hm := h.minor_le_last
  have hl := h.least
  by_cases ha : a.minor = -1
  · exact .inl ha
  · exact .inr ⟨by omega,by omega⟩

theorem overlap_all (hk : k.minor = -1) (hl : Ok l) : Overlap k l := ⟨l.minor.toNat,.inl hk,hl.toNat_mem⟩

theorem Overlap.symm (h : Overlap k l) : Overlap l k := by
  obtain ⟨m,h1,h2⟩ := h
  exact ⟨m,h2,h1⟩

instance : Std.Symm fun x y : Info => ¬ Overlap x y := ⟨fun _ _ h h1 => h h1.symm⟩

theorem overlap_iff (hk : Ok k) (hl : Ok l) (hka : k.minor ≠ -1) (hla : l.minor ≠ -1) :
    Overlap k l ↔ k.minor ≤ l.last ∧ l.minor ≤ k.last := by
  have h1 := hk.minor_le_last
  have h2 := hl.minor_le_last
  have h3 := hk.least
  have h4 := hl.least
  constructor
  · rintro ⟨m,hm1 | hm1,hm2 | hm2⟩
    · exact absurd hm1 hka
    · exact absurd hm1 hka
    · exact absurd hm2 hla
    · omega
  · rintro ⟨h5,h6⟩
    exact ⟨(max k.minor l.minor).toNat,.inr ⟨by omega,by omega⟩,.inr ⟨by omega,by omega⟩⟩

/-! ## The test of `strconf` -/

/- A single minor other than 0 in a range that is there already. -/
def Missed (dp : List Info) (l : Info) : Prop :=
  l.minor ≠ -1 ∧ l.lastminor = 0 ∧ l.minor ≠ 0 ∧ ∃ k ∈ dp, k.IsRange ∧ k.minor ≤ l.minor ∧ l.minor ≤ k.lastminor

theorem clashOne_iff (hk : Ok k) (hl : Ok l) (hla : l.minor ≠ -1) (h0 : l.lastminor = 0)
    (hm : ¬ (l.minor ≠ 0 ∧ k.IsRange ∧ k.minor ≤ l.minor ∧ l.minor ≤ k.lastminor)) :
    l.clashOne k = true ↔ Overlap k l := by
  by_cases hka : k.minor = -1
  · exact iff_of_true (by simp [clashOne,hka]) (overlap_all hka hl)
  · have h1 := hk.least
    have h2 := hl.least
    have h3 := hk.range
    have h4 := hk.nonneg
    rw [overlap_iff hk hl hka hla]
    unfold IsRange at hm
    simp only [clashOne,inrange,Bool.or_eq_true,Bool.and_eq_true,beq_iff_eq,bne_iff_ne,decide_eq_true_eq,last]
    grind

theorem clashRange_iff (hk : Ok k) (hl : Ok l) (hla : l.minor ≠ -1) (h0 : l.lastminor ≠ 0) :
    l.clashRange k = true ↔ Overlap k l := by
  by_cases hka : k.minor = -1
  · exact iff_of_true (by simp [clashRange,hka]) (overlap_all hka hl)
  · have h3 := hk.range
    have h5 := hl.range h0
    rw [overlap_iff hk hl hka hla]
    simp only [clashRange,inrange,Bool.or_eq_true,Bool.and_eq_true,beq_iff_eq,bne_iff_ne,decide_eq_true_eq,last]
    grind

theorem refused_iff (hdp : ∀ k ∈ dp, Ok k) (hl : Ok l) (hm : ¬ Missed dp l) :
    l.refused dp = true ↔ ∃ k ∈ dp, Overlap k l := by
  unfold refused
  split_ifs with h1 h2 h3
  · cases dp with
    | nil => simp
    | cons k dp => exact iff_of_true (by simp) ⟨k,List.mem_cons_self,(overlap_all h1 (hdp k List.mem_cons_self)).symm⟩
  · rw [List.any_eq_true]
    refine exists_congr fun k => and_congr_right fun hk => clashOne_iff (hdp k hk) hl h1 h2 fun h => ?_
    exact hm ⟨h1,h2,h.1,k,hk,h.2⟩
  · rw [List.any_eq_true]
    exact exists_congr fun k => and_congr_right fun hk => clashRange_iff (hdp k hk) hl h1 h2
  · exact absurd (hl.range h2) h3

/- Such a minor is let in. -/
theorem Missed.accepted (hdp : ∀ k ∈ dp, Ok k) (hd : dp.Pairwise fun x y => ¬ Overlap x y) (hl : Ok l)
    (hm : Missed dp l) : l.refused dp = false ∧ ∃ k ∈ dp, Overlap k l := by
  obtain ⟨h1,h2,h3,r,hr,⟨hra,hr0⟩,h4,h5⟩ := hm
  have hrl : r.last = r.lastminor := if_neg hr0
  have hll : l.last = l.minor := if_pos h2
  refine ⟨?_,r,hr,(overlap_iff (hdp r hr) hl hra h1).mpr ⟨by omega,by omega⟩⟩
  rw [refused,if_neg h1,if_pos h2,List.any_eq_false]
  intro k hk hc
  have hne : k = r ∨ ¬ Overlap k r := by
    by_cases he : k = r
    · exact .inl he
    · exact .inr (hd.forall hk hr he)
  have hpos : 0 < l.minor := by
    have := hl.least
    omega
  have hkl := (hdp k hk).least
  rcases hne with rfl | hne
  · simp [clashOne,inrange,hra,hr0,h2] at hc
    omega
  · by_cases hka : k.minor = -1
    · exact hne (overlap_all hka (hdp r hr))
    · rw [overlap_iff (hdp k hk) (hdp r hr) hka hra] at hne
      simp [clashOne,inrange,hka,h2] at hc
      unfold last at hne
      grind

end Info

open Info

theorem Line.ok {modules : List String} (l : Line modules) : Ok l.info := by
  have h1 := l.least
  have h2 := l.last_nonneg
  have h3 := l.range
  refine ⟨h1,l.minor_le,?_,?_,fun h => if_pos h,fun h => ?_⟩
  · show 0 ≤ if l.minor = -1 then 0 else l.lastminor
    split_ifs <;> omega
  · show (if l.minor = -1 then 0 else l.lastminor) ≤ intMax
    split_ifs
    · decide
    · exact l.last_le
  · show l.minor < if l.minor = -1 then 0 else l.lastminor
    have h0 : (if l.minor = -1 then 0 else l.lastminor) ≠ 0 := h
    split_ifs at h0 ⊢ with h4
    · exact absurd rfl h0
    · omega

theorem Line.processLine {modules : List String} (l : Line modules) (dp : List Info) :
    processLine modules l.minor l.lastminor l.mods dp = if l.info.refused dp then none else some (l.info :: dp) := by
  have htake : l.mods.take maxApush = l.mods := List.take_of_length_le l.length_le
  have h1 := l.least
  have h2 := l.minor_le
  have h3 := l.last_nonneg
  have h4 := l.last_le
  have h5 := l.range
  rw [Apush.processLine,if_neg (by omega),if_neg (by omega),if_neg (by omega),htake,if_neg (not_not.mpr l.known)]
  rfl

/-! ## Which lines are kept -/

open Classical in
/- A line is kept when it has no minor of an earlier one. -/
noncomputable def keep (dp : List Info) (l : Info) : List Info := if ∃ k ∈ dp, Overlap k l then dp else l :: dp

noncomputable def kept {modules : List String} (lines : List (Line modules)) : List Info :=
  lines.foldl (fun dp l => keep dp l.info) []

section
variable {modules : List String} {lines pre post : List (Line modules)} {l : Line modules} {k : Info}

theorem kept_append : kept (pre ++ [l]) = keep (kept pre) l.info := by simp [kept]

theorem keep_eq {dp : List Info} {l : Info} (h : l.refused dp = true ↔ ∃ k ∈ dp, Overlap k l) :
    keep dp l = if l.refused dp then dp else l :: dp := by
  unfold keep
  by_cases hr : l.refused dp = true
  · rw [if_pos hr,if_pos (h.mp hr)]
  · rw [if_neg hr,if_neg fun hc => hr (h.mpr hc)]

theorem kept_line (hk : k ∈ kept lines) : ∃ l ∈ lines, k = l.info := by
  induction lines using List.reverseRecOn with
  | nil => cases hk
  | append_singleton pre l ih =>
    rw [kept_append,keep] at hk
    have hpre : k ∈ kept pre → ∃ l1 ∈ pre ++ [l], k = l1.info := fun h => by
      obtain ⟨l1,h1,h2⟩ := ih h
      exact ⟨l1,List.mem_append_left _ h1,h2⟩
    split_ifs at hk
    · exact hpre hk
    · rcases List.mem_cons.mp hk with h | h
      · exact ⟨l,by simp,h⟩
      · exact hpre h

theorem kept_ok (hk : k ∈ kept lines) : Ok k := by
  obtain ⟨l,-,rfl⟩ := kept_line hk
  exact l.ok

theorem kept_disjoint : (kept lines).Pairwise fun x y => ¬ Overlap x y := by
  induction lines using List.reverseRecOn with
  | nil => exact List.Pairwise.nil
  | append_singleton pre l ih =>
    rw [kept_append,keep]
    split_ifs with h
    · exact ih
    · exact List.pairwise_cons.mpr ⟨fun k hk ho => h ⟨k,hk,ho.symm⟩,ih⟩

theorem kept_ne_nil (h : lines ≠ []) : kept lines ≠ [] := by
  cases lines using List.reverseRecOn with
  | nil => exact absurd rfl h
  | append_singleton pre l =>
    rw [kept_append,keep]
    split_ifs with h1
    · obtain ⟨k,hk,-⟩ := h1
      exact List.ne_nil_of_mem hk
    · exact List.cons_ne_nil _ _

end

namespace Boot

variable {b : Boot} {lines pre post : List (Line b.modules)} {l : Line b.modules}

theorem accepted_append : b.accepted (pre ++ [l]) =
    if l.info.refused (b.accepted pre) then b.accepted pre else l.info :: b.accepted pre := by
  rw [accepted,List.foldl_append]
  show (Apush.processLine b.modules l.minor l.lastminor l.mods (b.accepted pre)).getD (b.accepted pre) = _
  rw [l.processLine]
  split_ifs <;> rfl

/- A line is rejected when it has a minor of an earlier accepted line, and only then. -/
def Rejects (b : Boot) (lines : List (Line b.modules)) : Prop :=
  ∀ pre l post, lines = pre ++ l :: post →
    (processLine b.modules l.minor l.lastminor l.mods (b.accepted pre) = none ↔
      ∃ k ∈ b.accepted pre, Overlap k l.info)

theorem rejected_iff : processLine b.modules l.minor l.lastminor l.mods (b.accepted pre) = none ↔
    l.info.refused (b.accepted pre) = true := by
  rw [l.processLine]
  split_ifs with h <;> simp [h]

theorem Rejects.before (h : Rejects b (pre ++ post)) : Rejects b pre := by
  intro p l q he
  exact h p l (q ++ post) (by rw [he,List.append_assoc,List.cons_append])

/- While `strconf` decides rightly it keeps what is to be kept. -/
theorem Rejects.accepted (h : Rejects b lines) : b.accepted lines = kept lines := by
  induction lines using List.reverseRecOn with
  | nil => rfl
  | append_singleton pre l ih =>
    have hstep := rejected_iff.symm.trans (h pre l [] rfl)
    rw [ih h.before] at hstep
    rw [accepted_append,ih h.before,kept_append,keep_eq hstep]

def Clear (b : Boot) (lines : List (Line b.modules)) : Prop :=
  ∀ pre l post, lines = pre ++ l :: post → ¬ Missed (kept pre) l.info

theorem Clear.before (h : Clear b (pre ++ post)) : Clear b pre := by
  intro p l q he
  exact h p l (q ++ post) (by rw [he,List.append_assoc,List.cons_append])

theorem Clear.accepted (h : Clear b lines) : b.accepted lines = kept lines := by
  induction lines using List.reverseRecOn with
  | nil => rfl
  | append_singleton pre l ih =>
    rw [accepted_append,ih h.before,kept_append,keep_eq (refused_iff (fun k hk => kept_ok hk) l.ok (h pre l [] rfl))]

theorem rejects_iff : Rejects b lines ↔ Clear b lines := by
  constructor
  · intro h pre l post he hm
    have hpre : Rejects b pre := Rejects.before (he ▸ h)
    have hstep := rejected_iff.symm.trans (h pre l post he)
    rw [hpre.accepted] at hstep
    obtain ⟨h1,h2⟩ := hm.accepted (fun k hk => kept_ok hk) kept_disjoint l.ok
    exact absurd (hstep.mpr h2) (by rw [h1]; decide)
  · intro h pre l post he
    have hpre : Clear b pre := Clear.before (he ▸ h)
    rw [rejected_iff,hpre.accepted]
    exact refused_iff (fun k hk => kept_ok hk) l.ok (h pre l post he)

end Boot

/-! ## Installation -/

/- No range is put above another. -/
def Down (x y : Autopush) : Prop := x.cmd = sapRange → y.cmd = sapRange → y.minor < x.minor

theorem range_lt {a : Autopush} (hw : WellFormed a) (hr : a.cmd = sapRange) : a.minor < a.lastminor := by
  rcases hw with h1 | ⟨-,h2⟩ | h3
  · rw [h1] at hr
    cases hr
  · exact h2
  · rw [h3] at hr
    cases hr

theorem insertChain_iff {a : Autopush} {c : Chain} (hok : ChainOk c) (hw : WellFormed a)
    (hd : ∀ e ∈ c, Disjoint (minors a) (minors e)) : (insertChain a c).isSome = true ↔ ∀ e ∈ c, Down e a := by
  constructor
  · intro hs e he hr ha
    by_contra hlt
    have hwe := hok.wellFormed e he
    have hne : a.cmd ≠ sapAll := by
      rw [ha]
      decide
    have hea : e.cmd ≠ sapAll := by
      rw [hr]
      decide
    have hl := minor_le_lastMinor hwe
    have hla : lastMinor a = a.lastminor := if_pos ha
    have hlt1 : e.minor < a.minor := by
      rcases (disjoint_iff hw hwe hne hea).mp (hd e he) with h | h
      · have := range_lt hw ha
        omega
      · omega
    rw [insertChain,if_neg hne,if_pos ha,insertRange_refuses hok (range_lt hw ha) he hr hlt1,ite_self] at hs
    cases hs
  · intro h
    rw [Option.isSome_iff_ne_none]
    intro hn
    have hnot : ¬ RangeAboveRange a c := by
      rintro ⟨ha,-,e,he,hr,hlt⟩
      have := h e he hr ha
      have := range_lt (hok.wellFormed e he) hr
      omega
    obtain ⟨e,he,hnd⟩ := insertChain_refused hok hw hnot hn
    exact hnd (hd e he)

namespace Boot

variable (b : Boot)

/- What is installed for an entry of `dp->ap`. -/
def entry (k : Info) : Autopush := b.initEntry ⟨b.major,k.minor,k.lastminor,k.mods⟩

def Present : Prop := b.major < maxStrdev ∧ (b.env.fstrSw b.major = true ∨ b.env.drvObjname b.major = true)

variable {b} {k l : Info} {dp : List Info} {st : State}

theorem entry_all (h : k.minor = -1) : (b.entry k).cmd = sapAll := if_pos h

theorem entry_one (h : k.minor ≠ -1) (h0 : k.lastminor = 0) :
    (b.entry k).cmd = sapOne ∧ (b.entry k).minor = k.minor.toNat := by
  simp [entry,initEntry,h,h0]

theorem entry_range (h : IsRange k) : (b.entry k).cmd = sapRange ∧ (b.entry k).minor = k.minor.toNat ∧
    (b.entry k).lastminor = k.lastminor.toNat := by
  simp [entry,initEntry,h.1,h.2]

theorem entry_range_iff : (b.entry k).cmd = sapRange ↔ IsRange k := by
  refine ⟨fun hr => ?_,fun h => (entry_range h).1⟩
  by_contra hn
  by_cases ha : k.minor = -1
  · rw [entry_all ha] at hr
    cases hr
  · have h0 : k.lastminor = 0 := by
      by_contra h0
      exact hn ⟨ha,h0⟩
    rw [(entry_one ha h0).1] at hr
    cases hr

theorem entry_wellFormed (hk : Ok k) : WellFormed (b.entry k) := by
  by_cases ha : k.minor = -1
  · exact .inr (.inr (entry_all ha))
  · by_cases h0 : k.lastminor = 0
    · exact .inl (entry_one ha h0).1
    · obtain ⟨h1,h2,h3⟩ := entry_range (b := b) ⟨ha,h0⟩
      have := hk.range h0
      have := hk.nonneg
      exact .inr (.inl ⟨h1,by omega⟩)

theorem entry_minors (hk : Ok k) : Apush.minors (b.entry k) = k.minors := by
  have hl := hk.least
  have hn := hk.nonneg
  ext m
  by_cases ha : k.minor = -1
  · exact iff_of_true (mem_minors_all (entry_all ha) m) (.inl ha)
  · have hmem : m ∈ k.minors ↔ k.minor ≤ m ∧ (m : ℤ) ≤ k.last := or_iff_right ha
    rw [hmem]
    by_cases h0 : k.lastminor = 0
    · obtain ⟨h1,h2⟩ := entry_one (b := b) ha h0
      have hmin : Apush.minors (b.entry k) = {(b.entry k).minor} := by simp [Apush.minors,h1,sapOne,sapAll,sapRange]
      rw [hmin,h2,Set.mem_singleton_iff,Info.last,if_pos h0]
      omega
    · obtain ⟨h1,h2,h3⟩ := entry_range (b := b) ⟨ha,h0⟩
      rw [mem_minors_range h1,h2,h3,Info.last,if_neg h0]
      omega

theorem entry_disjoint (hk : Ok k) (hl : Ok l) (h : ¬ Overlap k l) :
    Disjoint (Apush.minors (b.entry k)) (Apush.minors (b.entry l)) := by
  rw [entry_minors hk,entry_minors hl,Set.disjoint_left]
  exact fun m h1 h2 => h ⟨m,h1,h2⟩

/- The names of the modules come back. -/
theorem entry_names (hm : ∀ n ∈ k.mods, n ∈ b.names) : (b.entry k).push.map b.env.fName = k.mods := by
  show (k.mods.filterMap b.findMod).map b.env.fName = k.mods
  generalize k.mods = ms at hm
  induction ms with
  | nil => rfl
  | cons n ms ih =>
    obtain ⟨i,hi⟩ : ∃ i, b.names.findIdx? (fun n1 => n1 = n) = some i :=
      Option.isSome_iff_exists.mp (by simpa using hm n List.mem_cons_self)
    have hget : b.names[i]? = some n := by
      obtain ⟨h1,h2,-⟩ := List.findIdx?_eq_some_iff_getElem.mp hi
      rw [List.getElem?_eq_getElem h1]
      simpa using h2
    have hf : b.findMod n = some (i + 1) := by rw [findMod,hi]; rfl
    rw [List.filterMap_cons_some hf,List.map_cons,b.fName i n hget,ih fun x hx => hm x (List.mem_cons_of_mem _ hx)]

theorem lisInitMod_cons : b.lisInitMod (b.buildModconf (k :: dp)) st =
    ((apushConf b.env b.major (b.entry k) st).1 :: (b.lisInitMod (b.buildModconf dp)
      (apushConf b.env b.major (b.entry k) st).2).1,
     (b.lisInitMod (b.buildModconf dp) (apushConf b.env b.major (b.entry k) st).2).2) := rfl

/- The driver is not there. -/
theorem lisInitMod_absent (st : State) (hn : ¬ b.Present) (hne : dp ≠ []) :
    ∃ r ∈ (b.lisInitMod (b.buildModconf dp) st).1, r ≠ 0 := by
  cases dp with
  | nil => exact absurd rfl hne
  | cons k dp =>
    rw [lisInitMod_cons]
    refine ⟨_,List.mem_cons_self,?_⟩
    have hret : (apushConf b.env b.major (b.entry k) st).1 = - ENODEV := by
      unfold apushConf
      split_ifs with h1 h2
      · rfl
      · rfl
      all_goals
        refine absurd ⟨not_le.mp h1,?_⟩ hn
        simpa using Classical.or_iff_not_imp_left.mpr (by simpa using h2)
    rw [hret]
    decide

/- Every entry is installed when each range is put below the earlier ones, and then the chain is made of them. -/
theorem lisInitMod_present (st : State) (hp : b.Present) (hdp : ∀ k ∈ dp, Ok k)
    (hdis : dp.Pairwise fun x y => ¬ Overlap x y)
    (hok : ChainOk (st.apush b.major))
    (hst : ∀ e ∈ st.apush b.major, ∀ k ∈ dp, Disjoint (Apush.minors (b.entry k)) (Apush.minors e)) :
    ((∀ r ∈ (b.lisInitMod (b.buildModconf dp) st).1, r = 0) ↔
      (dp.map b.entry).Pairwise Down ∧ ∀ e ∈ st.apush b.major, ∀ k ∈ dp, Down e (b.entry k)) ∧
    ((∀ r ∈ (b.lisInitMod (b.buildModconf dp) st).1, r = 0) →
      ChainOk ((b.lisInitMod (b.buildModconf dp) st).2.apush b.major) ∧
      ((b.lisInitMod (b.buildModconf dp) st).2.apush b.major).Perm (dp.map b.entry ++ st.apush b.major) ∧
      ∀ j, j ≠ b.major → (b.lisInitMod (b.buildModconf dp) st).2.apush j = st.apush j) := by
  induction dp generalizing st with
  | nil => exact ⟨iff_of_true (by simp [buildModconf,lisInitMod]) ⟨List.Pairwise.nil,by simp⟩,
      fun _ => ⟨hok,List.Perm.refl _,fun _ _ => rfl⟩⟩
  | cons k dp ih =>
    obtain ⟨hk,hdp1⟩ := List.forall_mem_cons.mp hdp
    obtain ⟨hkd,hdis1⟩ := List.pairwise_cons.mp hdis
    have hw := entry_wellFormed (b := b) hk
    have hconf : apushConf b.env b.major (b.entry k) st =
        insertEntry st b.major (b.entry k) (insertChain (b.entry k) (st.apush b.major)) := apushConf_eq hp.1 hp.2 hw
    have hsome := insertChain_iff hok hw fun e he => hst e he k List.mem_cons_self
    rw [lisInitMod_cons,hconf]
    cases hi : insertChain (b.entry k) (st.apush b.major) with
    | none =>
      rw [hi] at hsome
      have hnot : ¬ ∀ e ∈ st.apush b.major, Down e (b.entry k) := fun h => absurd (hsome.mpr h) (by simp)
      have hret : ¬ ∀ r ∈ (insertEntry st b.major (b.entry k) none).1 ::
          (b.lisInitMod (b.buildModconf dp) (insertEntry st b.major (b.entry k) none).2).1, r = 0 :=
        fun h => absurd (h _ List.mem_cons_self) (by simp [insertEntry,EEXIST])
      exact ⟨iff_of_false hret fun h => hnot fun e he => h.2 e he k List.mem_cons_self,fun h => absurd h hret⟩
    | some c =>
      rw [hi] at hsome
      have hdown := hsome.mp rfl
      have hperm := insertChain_perm hok hw hi
      have hchain : (insertEntry st b.major (b.entry k) (some c)).2.apush b.major = c := insertEntry_chain
      have hmem : ∀ e, e ∈ c ↔ e = b.entry k ∨ e ∈ st.apush b.major := fun e => by rw [hperm.mem_iff,List.mem_cons]
      have hok1 : ChainOk ((insertEntry st b.major (b.entry k) (some c)).2.apush b.major) := by
        rw [hchain]
        exact insertChain_ok hok hw hi
      have hst1 : ∀ e ∈ (insertEntry st b.major (b.entry k) (some c)).2.apush b.major, ∀ x ∈ dp,
          Disjoint (Apush.minors (b.entry x)) (Apush.minors e) := by
        rw [hchain]
        intro e he x hx
        rcases (hmem e).mp he with rfl | he
        · exact (entry_disjoint hk (hdp1 x hx) (hkd x hx)).symm
        · exact hst e he x (List.mem_cons_of_mem _ hx)
      obtain ⟨ih1,ih2⟩ := ih _ hdp1 hdis1 hok1 hst1
      rw [hchain] at ih1 ih2
      have hzero : (∀ r ∈ (insertEntry st b.major (b.entry k) (some c)).1 ::
          (b.lisInitMod (b.buildModconf dp) (insertEntry st b.major (b.entry k) (some c)).2).1, r = 0) ↔
          ∀ r ∈ (b.lisInitMod (b.buildModconf dp) (insertEntry st b.major (b.entry k) (some c)).2).1, r = 0 := by
        rw [List.forall_mem_cons]
        exact and_iff_right rfl
      rw [hzero]
      refine ⟨ih1.trans ⟨fun h => ⟨?_,?_⟩,fun h => ⟨?_,?_⟩⟩,fun h => ?_⟩
      · rw [List.map_cons,List.pairwise_cons]
        refine ⟨fun e he => ?_,h.1⟩
        obtain ⟨x,hx,rfl⟩ := List.mem_map.mp he
        exact h.2 _ ((hmem _).mpr (.inl rfl)) x hx
      · intro e he
        exact List.forall_mem_cons.mpr ⟨hdown e he,fun x hx => h.2 e ((hmem e).mpr (.inr he)) x hx⟩
      · rw [List.map_cons,List.pairwise_cons] at h
        exact h.1.2
      · intro e he x hx
        rw [List.map_cons,List.pairwise_cons] at h
        rcases (hmem e).mp he with rfl | he
        · exact h.1.1 _ (List.mem_map_of_mem hx)
        · exact h.2 e he x (List.mem_cons_of_mem _ hx)
      · obtain ⟨h1,h2,h3⟩ := ih2 h
        refine ⟨h1,(h2.trans (hperm.append_left _)).trans List.perm_middle,fun j hj => ?_⟩
        rw [h3 j hj]
        exact Function.update_of_ne hj _ _

end Boot

/-! ## Lookup -/

theorem find_cases {m : ℕ} {c : Chain} {a : Autopush} (h : findApushEntry m c = some a) :
    a ∈ c ∧ (a.cmd = sapAll ∨ a.minor = m ∨ (a.cmd = sapRange ∧ a.lastminor ≤ m)) := by
  induction c with
  | nil => cases h
  | cons x rest ih =>
    unfold findApushEntry at h
    split_ifs at h with h1 h2 h3 h4
    · cases h
      exact ⟨List.mem_cons_self,.inl h1⟩
    · cases h
      exact ⟨List.mem_cons_self,.inr (.inl h3)⟩
    · cases h
      exact ⟨List.mem_cons_self,.inr (.inr h4)⟩
    · exact ⟨List.mem_cons_of_mem _ (ih h).1,(ih h).2⟩

/- The lowest range answers everything from its last minor on. -/
theorem find_range {m : ℕ} {pre post : Chain} {r : Autopush} (hpre : ∀ e ∈ pre, e.cmd = sapOne ∧ e.minor < m)
    (hr : r.cmd = sapRange) (hlt : r.minor < m) (hl : r.lastminor ≤ m) :
    findApushEntry m (pre ++ r :: post) = some r := by
  induction pre with
  | nil =>
    have hall : r.cmd ≠ sapAll := by
      rw [hr]
      decide
    rw [List.nil_append,findApushEntry,if_neg hall,if_neg (by omega),if_neg (by omega),if_pos ⟨hr,hl⟩]
  | cons x pre ih =>
    obtain ⟨⟨h1,h2⟩,h3⟩ := List.forall_mem_cons.mp hpre
    have hall : x.cmd ≠ sapAll := by
      rw [h1]
      decide
    have hrange : x.cmd ≠ sapRange := by
      rw [h1]
      decide
    rw [List.cons_append,findApushEntry,if_neg hall,if_neg (by omega),if_neg (by omega),
      if_neg fun h => hrange h.1,ih h3]

theorem first_range {c : Chain} (hok : ChainOk c) {r : Autopush} (hr : r ∈ c) (hrange : r.cmd = sapRange) :
    ∃ pre x post, c = pre ++ x :: post ∧ x.cmd = sapRange ∧ x.minor ≤ r.minor ∧ ∀ e ∈ pre, e.cmd = sapOne := by
  induction c with
  | nil => cases hr
  | cons a rest ih =>
    have hle := minor_le_lastMinor (hok.wellFormed a List.mem_cons_self)
    by_cases ha : a.cmd = sapRange
    · refine ⟨[],a,rest,rfl,ha,?_,by simp⟩
      rcases List.mem_cons.mp hr with rfl | hr
      · exact le_rfl
      · have := (hok.below r hr).2.2
        omega
    · have hmem : r ∈ rest := by
        rcases List.mem_cons.mp hr with rfl | hr
        · exact absurd hrange ha
        · exact hr
      obtain ⟨pre,x,post,rfl,h1,h2,h3⟩ := ih hok.tail hmem
      refine ⟨a :: pre,x,post,rfl,h1,h2,List.forall_mem_cons.mpr ⟨?_,h3⟩⟩
      rcases hok.wellFormed a List.mem_cons_self with h | h | h
      · exact h
      · exact absurd h.1 ha
      · exact absurd h (hok.below r hmem).1

/- Every minor is answered with what its entry has, when the ranges and all above them have nothing. -/
theorem lookup_iff {α : Type*} (f : Autopush → List α) {c : Chain} (hok : ChainOk c) {top : ℕ}
    (htop : ∀ e ∈ c, lastMinor e < top) :
    (∀ m ≤ top, (∀ e ∈ c, m ∈ minors e → (findApushEntry m c).elim [] f = f e) ∧
      ((∀ e ∈ c, m ∉ minors e) → (findApushEntry m c).elim [] f = [])) ↔
    ∀ r ∈ c, r.cmd = sapRange → ∀ e ∈ c, r.minor ≤ e.minor → f e = [] := by
  constructor
  · intro h r hr hrange e he hre
    obtain ⟨pre,x,post,rfl,hx,hxr,hpre⟩ := first_range hok hr hrange
    have hxlt := range_lt (hok.wellFormed x (by simp)) hx
    have hxl : lastMinor x = x.lastminor := if_pos hx
    obtain ⟨-,hord,hcross⟩ := List.pairwise_append.mp hok.order
    have hprex : ∀ y ∈ pre, y.minor < x.minor := fun y hy => by
      have h1 := (hcross y hy x List.mem_cons_self).2.2
      have h2 := minor_le_lastMinor (hok.wellFormed y (List.mem_append_left _ hy))
      omega
    have hfind : ∀ m, x.lastminor ≤ m → findApushEntry m (pre ++ x :: post) = some x := fun m hm =>
      find_range (fun y hy => ⟨hpre y hy,by have := hprex y hy; omega⟩) hx (by omega) hm
    have hnil : f x = [] := by
      have h1 := (h top le_rfl).2 fun y hy hm => ?_
      · rw [hfind top (by have := htop x (by simp); omega)] at h1
        exact h1
      · have hya : y.cmd ≠ sapAll := fun hya => by
          have h2 := hok.all_alone hy hya
          have h3 : x ∈ [y] := h2 ▸ List.mem_append_right _ List.mem_cons_self
          rw [List.mem_singleton.mp h3,hya] at hx
          cases hx
        have h2 := (mem_minors_of_ne_all (hok.wellFormed y hy) hya top).mp hm
        have := htop y hy
        omega
    rcases List.mem_append.mp he with he | he
    · have := hprex e he
      omega
    · rcases List.mem_cons.mp he with rfl | hep
      · exact hnil
      · have hxe := ((List.pairwise_cons.mp hord).1 e hep).2.2
        have hle := minor_le_lastMinor (hok.wellFormed e (by simp [hep]))
        have hte := htop e (by simp [hep])
        have h1 := (h e.minor (by omega)).1 e (by simp [hep]) (minor_mem_minors (hok.wellFormed e (by simp [hep])))
        rw [hfind e.minor (by omega)] at h1
        exact h1.symm.trans hnil
  · intro h m _
    by_cases hcl : RangesClear m c
    · have hcover : ∀ e ∈ c, m ∈ minors e → findApushEntry m c = some e := by
        intro e he hm
        cases hf : findApushEntry m c with
        | none => exact absurd hm (find_clear_none hok hcl hf e he)
        | some x =>
          obtain ⟨h1,h2⟩ := find_clear_some hok hcl hf
          rw [minors_unique hok h1 he h2 hm]
      refine ⟨fun e he hm => by rw [hcover e he hm]; rfl,fun hno => ?_⟩
      cases hf : findApushEntry m c with
      | none => rfl
      | some x =>
        obtain ⟨h1,h2⟩ := find_clear_some hok hcl hf
        exact absurd h2 (hno x h1)
    · unfold RangesClear at hcl
      push Not at hcl
      obtain ⟨r,hr,hrange,hbad⟩ := hcl
      have hrl : lastMinor r = r.lastminor := if_pos hrange
      have hna : ∀ e ∈ c, e.cmd ≠ sapAll := by
        intro e he ha
        have h1 := hok.all_alone he ha
        rw [h1,List.mem_singleton] at hr
        rw [hr,ha] at hrange
        cases hrange
      have hrlt := range_lt (hok.wellFormed r hr) hrange
      have habove : ∀ e ∈ c, m ∈ minors e → f e = [] := by
        intro e he hm
        refine h r hr hrange e he ?_
        obtain ⟨h1,h2⟩ := (mem_minors_of_ne_all (hok.wellFormed e he) (hna e he) m).mp hm
        by_cases her : e = r
        · rw [her]
        · have hd : Disjoint (minors e) (minors r) :=
            (hok.sortedDisjoint.imp fun h => h.2).forall he hr her
          rcases (disjoint_iff (hok.wellFormed e he) (hok.wellFormed r hr) (hna e he) (hna r hr)).mp hd with h3 | h3
          · by_cases h4 : r.minor < m ∧ m < r.lastminor
            · omega
            · have := hbad
              grind
          · omega
      have hans : (findApushEntry m c).elim [] f = [] := by
        cases hf : findApushEntry m c with
        | none => rfl
        | some a =>
          obtain ⟨h1,h2 | h2 | h2⟩ := find_cases hf
          · exact absurd h2 (hna a h1)
          · exact habove a h1 (h2 ▸ minor_mem_minors (hok.wellFormed a h1))
          · exact h a h1 h2.1 a h1 le_rfl
      exact ⟨fun e he hm => hans.trans (habove e he hm).symm,fun _ => hans⟩

namespace Boot

variable (b : Boot)

/- The tables after `lis_init_mod`, and what `apush_conf` returned. -/
def installed (lines : List (Line b.modules)) : List ℤ × State :=
  b.lisInitMod (b.buildModconf (b.accepted lines)) .initial

/- `strconf` and the kernel agree about the lines of the driver. -/
structure Agree (lines : List (Line b.modules)) : Prop where
  rejects : Rejects b lines
  installs : ∀ r ∈ (b.installed lines).1, r = 0
  pushes : ∀ major ∈ b.majors, ∀ minor < 2 ^ 32,
    (∀ k ∈ b.accepted lines, minor ∈ k.minors → lisApushm b.env major minor (b.installed lines).2 = k.mods) ∧
    ((∀ k ∈ b.accepted lines, minor ∉ k.minors) → lisApushm b.env major minor (b.installed lines).2 = [])

/- The lines for which they do, in terms of the lines that are to be kept, newest first. -/
structure Suits (lines : List (Line b.modules)) : Prop where
  clear : Clear b lines
  ascend : (kept lines).Pairwise fun x y => IsRange x → IsRange y → y.minor < x.minor
  plain : ∀ r ∈ kept lines, IsRange r → ∀ k ∈ kept lines, r.minor ≤ k.minor → k.mods = []
  one : ∀ j ∈ b.others, j ≠ b.major → ∀ k ∈ kept lines, k.mods = []
  present : lines ≠ [] → b.Present

variable {b} {lines : List (Line b.modules)} {st : State}

theorem kept_known {k : Info} (hk : k ∈ kept lines) : ∀ n ∈ k.mods, n ∈ b.names := by
  obtain ⟨l,-,rfl⟩ := kept_line hk
  exact fun n hn => b.registered n (l.known n hn)

/- Beside a range there is no entry for all minors. -/
theorem kept_not_all {r k : Info} (hr : r ∈ kept lines) (hrange : IsRange r) (hk : k ∈ kept lines) : k.minor ≠ -1 := by
  intro ha
  have hne : k ≠ r := by
    rintro rfl
    exact hrange.1 ha
  exact kept_disjoint.forall hk hr hne (overlap_all ha (kept_ok hr))

theorem entry_minor {k : Info} (ha : k.minor ≠ -1) : (b.entry k).minor = k.minor.toNat := if_neg ha

theorem down_iff {x y : Info} (hx : Ok x) (hy : Ok y) :
    Down (b.entry x) (b.entry y) ↔ (IsRange x → IsRange y → y.minor < x.minor) := by
  unfold Down
  rw [entry_range_iff,entry_range_iff]
  refine imp_congr_right fun h1 => imp_congr_right fun h2 => ?_
  rw [(entry_range (b := b) h1).2.1,(entry_range (b := b) h2).2.1]
  have := hx.least
  have := h1.1
  have := hy.least
  have := h2.1
  omega

theorem lisApushm_eq {major minor : ℕ} (hm : major < maxStrdev) : lisApushm b.env major minor st =
    (findApushEntry minor (st.apush major)).elim [] fun a => a.push.map b.env.fName := by
  rw [lisApushm,if_neg (by omega)]
  cases findApushEntry minor (st.apush major) <;> rfl

theorem lisApushm_nil {major minor : ℕ} (h : st.apush major = []) : lisApushm b.env major minor st = [] := by
  rw [lisApushm,h]
  split_ifs <;> rfl

/- The first major. -/
theorem pushes_iff (hp : b.Present) (hok : ChainOk (st.apush b.major))
    (hperm : (st.apush b.major).Perm ((kept lines).map b.entry)) :
    (∀ minor < 2 ^ 32, (∀ k ∈ kept lines, minor ∈ k.minors → lisApushm b.env b.major minor st = k.mods) ∧
      ((∀ k ∈ kept lines, minor ∉ k.minors) → lisApushm b.env b.major minor st = [])) ↔
    ∀ r ∈ kept lines, IsRange r → ∀ k ∈ kept lines, r.minor ≤ k.minor → k.mods = [] := by
  have hmem : ∀ e, e ∈ st.apush b.major ↔ ∃ k ∈ kept lines, b.entry k = e := fun e => by
    rw [hperm.mem_iff,List.mem_map]
  have htop : ∀ e ∈ st.apush b.major, lastMinor e < 2 ^ 32 - 1 := by
    intro e he
    obtain ⟨k,hk,rfl⟩ := (hmem e).mp he
    have h1 := (kept_ok hk).le
    have h2 := (kept_ok hk).last_le
    unfold intMax at h1 h2
    unfold lastMinor entry initEntry
    dsimp only
    split_ifs <;> omega
  have hnames : ∀ k ∈ kept lines, (b.entry k).push.map b.env.fName = k.mods := fun k hk => entry_names (kept_known hk)
  have hin : ∀ k ∈ kept lines, ∀ m, m ∈ Apush.minors (b.entry k) ↔ m ∈ k.minors := fun k hk m => by
    rw [entry_minors (kept_ok hk)]
  have hle : ∀ r ∈ kept lines, IsRange r → ∀ k ∈ kept lines,
      ((b.entry r).minor ≤ (b.entry k).minor ↔ r.minor ≤ k.minor) := by
    intro r hr hrange k hk
    have hka := kept_not_all hr hrange hk
    have h1 := (kept_ok hr).least
    have h2 := (kept_ok hk).least
    have h3 := hrange.1
    rw [entry_minor hka,entry_minor hrange.1]
    omega
  refine Iff.trans ⟨fun h m hm => ?_,fun h m hm => ?_⟩ ((lookup_iff (fun a => a.push.map b.env.fName) hok htop).trans
    ⟨fun h r hr hrange k hk hrk => ?_,fun h e he hr x hx hex => ?_⟩)
  · rw [← lisApushm_eq hp.1]
    refine ⟨fun e he hem => ?_,fun hno => (h m (by omega)).2 fun k hk hkm => ?_⟩
    · obtain ⟨k,hk,rfl⟩ := (hmem e).mp he
      exact ((h m (by omega)).1 k hk ((hin k hk m).mp hem)).trans (hnames k hk).symm
    · exact hno _ ((hmem _).mpr ⟨k,hk,rfl⟩) ((hin k hk m).mpr hkm)
  · have h1 := h m (by omega)
    rw [← lisApushm_eq hp.1] at h1
    refine ⟨fun k hk hkm => ?_,fun hno => h1.2 fun e he hem => ?_⟩
    · exact (h1.1 _ ((hmem _).mpr ⟨k,hk,rfl⟩) ((hin k hk m).mpr hkm)).trans (hnames k hk)
    · obtain ⟨k,hk,rfl⟩ := (hmem e).mp he
      exact hno k hk ((hin k hk m).mp hem)
  · rw [← hnames k hk]
    exact h _ ((hmem _).mpr ⟨r,hr,rfl⟩) (entry_range hrange).1 _ ((hmem _).mpr ⟨k,hk,rfl⟩)
      ((hle r hr hrange k hk).mpr hrk)
  · obtain ⟨r,hr1,rfl⟩ := (hmem e).mp he
    obtain ⟨k,hk,rfl⟩ := (hmem x).mp hx
    have hrange := entry_range_iff.mp hr
    exact (hnames k hk).trans (h r hr1 hrange k hk ((hle r hr1 hrange k hk).mp hex))

/- `strconf` and the kernel agree exactly when no single minor other than 0 lies in an earlier range, the ranges ascend,
the ranges and what lies above one push nothing, and with other majors nothing is pushed. -/
theorem strconf_agrees_iff (b : Boot) (lines : List (Line b.modules)) : b.Agree lines ↔ b.Suits lines := by
  by_cases hne : lines = []
  · subst hne
    have hst : (b.installed []).2 = .initial := rfl
    refine iff_of_true ⟨rejects_iff.mpr fun pre l post he => ?_,fun r hr => ?_,fun j _ m _ => ?_⟩
      ⟨fun pre l post he => ?_,List.Pairwise.nil,fun r hr => ?_,fun _ _ _ k hk => ?_,fun h => absurd rfl h⟩
    · exact absurd he.symm (by simp)
    · cases hr
    · exact ⟨fun k hk => (by cases hk),fun _ => lisApushm_nil (by rw [hst]; rfl)⟩
    · exact absurd he.symm (by simp)
    · cases hr
    · cases hk
  by_cases hacc : Rejects b lines
  swap
  · exact iff_of_false (fun h => hacc h.rejects) fun h => hacc (rejects_iff.mpr h.clear)
  have heq := hacc.accepted
  by_cases hp : b.Present
  swap
  · refine iff_of_false (fun h => ?_) fun h => hp (h.present hne)
    obtain ⟨r,hr,h0⟩ := lisInitMod_absent .initial hp (heq ▸ kept_ne_nil hne)
    exact h0 (h.installs r hr)
  obtain ⟨hret,hchain⟩ := lisInitMod_present .initial hp (fun k hk => kept_ok hk) (@kept_disjoint _ lines)
    ChainOk.nil (by simp [State.initial])
  have hdown : ((kept lines).map b.entry).Pairwise Down ↔
      (kept lines).Pairwise fun x y => IsRange x → IsRange y → y.minor < x.minor := by
    rw [List.pairwise_map]
    exact List.Pairwise.iff_of_mem fun hx hy => down_iff (kept_ok hx) (kept_ok hy)
  have hret1 : (∀ r ∈ (b.installed lines).1, r = 0) ↔ ((kept lines).map b.entry).Pairwise Down := by
    rw [installed,heq,hret]
    exact and_iff_left (by simp [State.initial])
  by_cases hin : ∀ r ∈ (b.installed lines).1, r = 0
  swap
  · exact iff_of_false (fun h => hin h.installs) fun h => hin (hret1.mpr (hdown.mpr h.ascend))
  have hin1 := hin
  rw [installed,heq] at hin1
  obtain ⟨hok,hperm,hother⟩ := hchain hin1
  have hinst : b.installed lines = b.lisInitMod (b.buildModconf (kept lines)) .initial := by rw [installed,heq]
  have hfirst := pushes_iff hp hok (by simpa [State.initial] using hperm)
  rw [← hinst] at hfirst hother
  have hnone : ∀ j ∈ b.others, j ≠ b.major → ∀ m, lisApushm b.env j m (b.installed lines).2 = [] :=
    fun j _ hj m => lisApushm_nil (by rw [hother j hj]; rfl)
  constructor
  · intro h
    have hpush := h.pushes
    rw [heq] at hpush
    refine ⟨rejects_iff.mp hacc,hdown.mp (hret1.mp hin),hfirst.mp (hpush b.major List.mem_cons_self),
      fun j hj hjm k hk => ?_,fun _ => hp⟩
    have hk1 := (kept_ok hk).le
    unfold intMax at hk1
    rw [← (hpush j (List.mem_cons_of_mem _ hj) k.minor.toNat (by omega)).1 k hk (kept_ok hk).toNat_mem]
    exact hnone j hj hjm _
  · intro h
    refine ⟨hacc,hin,fun j hj m hm => ?_⟩
    rw [heq]
    by_cases hjm : j = b.major
    · rw [hjm]
      exact hfirst.mpr h.plain m hm
    · have hjo : j ∈ b.others := (List.mem_cons.mp hj).resolve_left hjm
      rw [hnone j hjo hjm m]
      exact ⟨fun k hk _ => (h.one j hjo hjm k hk).symm,fun _ => rfl⟩

/- One driver with major 5 and one module. -/
def sampleBoot : Boot where
  modules := ["relay"]
  major := 5
  others := []
  env := sampleEnv
  names := ["relay"]
  registered := fun _ hn => hn
  fName := by
    intro i n h
    obtain ⟨hi,rfl⟩ := List.getElem?_eq_some_iff.mp h
    have h0 : i = 0 := by simpa using hi
    subst h0
    rfl

def rangeLine : Line sampleBoot.modules where
  minor := 4
  lastminor := 9
  mods := ["relay"]
  least := by decide
  minor_le := by decide
  last_nonneg := by decide
  last_le := by decide
  range := by decide
  length_le := by decide
  known := fun _ hn => hn

def oneLine : Line sampleBoot.modules :=
  { rangeLine with minor := 6, lastminor := 0, least := by decide, minor_le := by decide, last_nonneg := by decide
                   last_le := by decide, range := by decide }

/- Minor 6 after the range from 4 to 9 is not rejected. -/
theorem single_in_range : ¬ ∀ (b : Boot) (lines : List (Line b.modules)), b.Present → b.Agree lines := by
  intro h
  have hp : sampleBoot.Present := ⟨by decide,.inl rfl⟩
  have hagree := (h sampleBoot [rangeLine,oneLine] hp).rejects [rangeLine] oneLine [] rfl
  have hmem : (⟨4,9,["relay"]⟩ : Info) ∈ sampleBoot.accepted [rangeLine] := by decide
  have hnone := hagree.mpr ⟨_,hmem,6,.inr (by decide),.inr (by decide)⟩
  exact absurd hnone (by decide)

end Boot

end CSLiS.Apush
