import CSLiS.Mod.Strdev

/-!
# When the registry guards the drivers

The slots follow the kernel's table as long as every major is below MAX_STRDEV. Nothing counts the opens in `f_count`, so a
driver with open streams is unregistered like any other.
-/

namespace CSLiS.Mod.Strdev.Registry
open Lib.Exec

structure Inv (s : Registry) : Prop where
  inside : s.outside = false
  slots : ∀ m, (s.slots m).fStr.isSome = true ↔ s.chrdev m = true
  low : ∀ m, s.chrdev m = true → m < MAX_STRDEV
  hds : ∀ hd ∈ s.hds, hd.major < MAX_STRDEV
  unregs : ∀ m ∈ s.unregs, m < MAX_STRDEV

variable {s t : Registry} {major minor i : ℕ} {strtab : Option ℕ} {name : Option (List Char)} {down rslt option : ℤ}
  {f : Slot} {l : List Hd} {hd : Hd}

theorem index_outside (hm : major < MAX_STRDEV) : (s.index major).outside = s.outside := by
  simp [index,Nat.not_le.mpr hm]

theorem Inv.index (h : Inv s) (hm : major < MAX_STRDEV) : Inv (s.index major) :=
  ⟨(index_outside hm).trans h.inside,h.slots,h.low,h.hds,h.unregs⟩

theorem Inv.withHds (h : Inv s) (hl : ∀ hd ∈ l, hd.major < MAX_STRDEV) : Inv { s with hds := l } :=
  ⟨h.inside,h.slots,h.low,hl,h.unregs⟩

/- A slot and the kernel's entry for its major change together. -/
theorem Inv.change (h : Inv s) (hm : major < MAX_STRDEV) {b : Bool} (hf : f.fStr.isSome = b) :
    Inv { s.setSlot major f with chrdev := Function.update s.chrdev major b } := by
  refine ⟨h.inside,fun m => ?_,fun m hc => ?_,h.hds,h.unregs⟩
  · show (Function.update s.slots major f m).fStr.isSome = true ↔ Function.update s.chrdev major b m = true
    by_cases he : m = major
    · subst he
      rw [Function.update_self,Function.update_self,hf]
    · rw [Function.update_of_ne he,Function.update_of_ne he]
      exact h.slots m
  · by_cases he : m = major
    · rw [he]
      exact hm
    · have hc1 : Function.update s.chrdev major b m = true := hc
      rw [Function.update_of_ne he] at hc1
      exact h.low m hc1

/-! ## Registration -/

/- The kernel gives only majors of which the slot is empty. -/
theorem Inv.free (h : Inv s) (hc : s.Chrdev major rslt) (hr : 0 ≤ rslt) : (s.slots (given major rslt)).fStr = none := by
  have hfree : s.chrdev (given major rslt) = false := by
    unfold given
    rcases hc with hc | ⟨h0,-,hc⟩ | ⟨h0,-,hc⟩
    · omega
    · rw [if_neg h0]
      exact hc
    · rw [if_pos h0]
      exact hc
  have hs := h.slots (given major rslt)
  rw [hfree] at hs
  exact Option.not_isSome_iff_eq_none.mp fun hc => absurd (hs.mp hc) (by decide)

/- So a registration fails before anything has changed, and else it succeeds. -/
theorem Inv.register_cases (h : Inv s) (hc : s.Chrdev major rslt) (strtab : Option ℕ) (name : Option (List Char))
    (down : ℤ) :
    ((s.lisRegisterStrdev major strtab name down rslt).2 = s) ∨
    (∃ tab, strtab = some tab ∧ 0 ≤ down ∧ 0 ≤ rslt ∧
      (s.lisRegisterStrdev major strtab name down rslt).1 = given major rslt ∧
      (s.lisRegisterStrdev major strtab name down rslt).2 =
        { (s.index (given major rslt)).setSlot (given major rslt) { s.slots (given major rslt) with
            fStr := some tab
            fCount := 0
            fQlockOption := LIS_QLOCK_QUEUE
            fName := (name.getD []).take LIS_NAMESZ } with
          chrdev := Function.update s.chrdev (given major rslt) true }) := by
  cases strtab with
  | none => exact .inl rfl
  | some tab =>
    by_cases hd : down < 0
    · apply Or.inl
      rw [lisRegisterStrdev,if_pos hd]
    · by_cases hr : rslt < 0
      · apply Or.inl
        rw [lisRegisterStrdev,if_neg hd,if_pos hr]
      · have hnone := h.free hc (by omega)
        apply Or.inr
        refine ⟨tab,rfl,by omega,by omega,?_,?_⟩
        · rw [lisRegisterStrdev,if_neg hd,if_neg hr]
          simp only [hnone,ne_eq,not_true_eq_false,and_false,if_false]
        · rw [lisRegisterStrdev,if_neg hd,if_neg hr]
          simp only [hnone,ne_eq,not_true_eq_false,and_false,if_false]
          rfl

theorem Inv.register (h : Inv s) (hc : s.Chrdev major rslt)
    (ha : strtab ≠ none → 0 ≤ down → 0 ≤ rslt → given major rslt < MAX_STRDEV) :
    Inv (s.lisRegisterStrdev major strtab name down rslt).2 := by
  rcases h.register_cases hc strtab name down with he | ⟨tab,hs,hd,hr,-,he⟩
  · rw [he]
    exact h
  · rw [he]
    have hm := ha (by simp [hs]) hd hr
    exact (h.index hm).change hm (b := true) rfl

theorem Inv.register_failed (h : Inv s) (hc : s.Chrdev major rslt)
    (hf : (s.lisRegisterStrdev major strtab name down rslt).1 < 0) :
    (s.lisRegisterStrdev major strtab name down rslt).2 = s := by
  rcases h.register_cases hc strtab name down with he | ⟨-,-,-,-,hret,-⟩
  · exact he
  · rw [hret] at hf
    omega

theorem Inv.qlock (h : Inv s) (ha : 0 ≤ down → major < MAX_STRDEV) :
    Inv (s.lisRegisterDriverQlockOption major option down).2 := by
  unfold lisRegisterDriverQlockOption
  split_ifs with hd
  · exact h
  · have hm := ha (by omega)
    have hi := h.index hm
    refine ⟨hi.inside,fun m => ?_,h.low,h.hds,h.unregs⟩
    show (Function.update s.slots major _ m).fStr.isSome = true ↔ s.chrdev m = true
    by_cases he : m = major
    · subst he
      rw [Function.update_self]
      exact h.slots m
    · rw [Function.update_of_ne he]
      exact h.slots m

theorem Inv.unregister (h : Inv s) (hm : major < MAX_STRDEV) (down : ℤ) : Inv (s.lisUnregisterStrdev major down).2 := by
  unfold lisUnregisterStrdev
  split_ifs with hd
  · exact h
  · exact (h.index hm).change hm rfl

theorem unregister_ok (h : (s.lisUnregisterStrdev major down).1 = 0) : 0 ≤ down := by
  unfold lisUnregisterStrdev at h
  split_ifs at h with hd
  · exact absurd h (by omega)
  · omega

/-! ## Opens and closes -/

theorem Inv.openNew (h : Inv s) (hc : s.chrdev major = true) (hm : minor < 1024) : Inv (s.openNew major minor) := by
  have hmaj := h.low major hc
  have hi := h.index hmaj
  have hall : ∀ hd ∈ s.hds ++ [⟨major,(s.slots major).fStr,0,false⟩], hd.major < MAX_STRDEV := by
    intro hd hmem
    rcases List.mem_append.mp hmem with hmem | hmem
    · exact h.hds hd hmem
    · rw [List.mem_singleton.mp hmem]
      exact hmaj
  unfold Registry.openNew
  split_ifs with hok hclone
  · exact hi
  · exact (hi.index hm).withHds hall
  · exact hi.withHds hall

theorem Inv.set (h : Inv s) (hm : hd.major < MAX_STRDEV) : Inv { s with hds := s.hds.set i hd } := by
  refine h.withHds fun x hx => ?_
  rcases List.mem_or_eq_of_mem_set hx with hx | hx
  · exact h.hds x hx
  · rw [hx]
    exact hm

theorem Inv.erase (h : Inv s) (i : ℕ) : Inv { s with hds := s.hds.eraseIdx i } :=
  h.withHds fun hd hm => h.hds hd (List.mem_of_mem_eraseIdx hm)

theorem unregTests_low (h : s.unregisterTests major = 0) : major < MAX_STRDEV := by
  unfold unregisterTests at h
  by_contra hm
  rw [if_pos (.inl (Nat.not_lt.mp hm))] at h
  exact absurd h (by decide)

theorem inv_step {a : Act} (h : Inv s) (ha : Allowed s a) (hs : step s a = some t) : Inv t := by
  cases a with
  | register major strtab name down rslt =>
    simp only [step] at hs
    split_ifs at hs with hc
    cases hs
    exact h.register hc ha
  | qlock major option down =>
    cases hs
    exact h.qlock ha
  | unregTests major =>
    cases hs
    split_ifs with h0
    · refine ⟨h.inside,h.slots,h.low,h.hds,fun m hm => ?_⟩
      rcases List.mem_append.mp hm with hm | hm
      · exact h.unregs m hm
      · rw [List.mem_singleton.mp hm]
        exact unregTests_low h0
    · exact h
  | unreg i down =>
    simp only [step] at hs
    split at hs
    · cases hs
    next major hi =>
      cases hs
      have hu := h.unregister (h.unregs major (List.mem_of_getElem? hi)) down
      exact ⟨hu.inside,hu.slots,hu.low,hu.hds,fun m hm => h.unregs m (List.mem_of_mem_eraseIdx hm)⟩
  | openNew major minor =>
    simp only [step] at hs
    split_ifs at hs with hc
    cases hs
    exact h.openNew hc.1 hc.2
  | attached i ndev ok =>
    simp only [step] at hs
    split at hs
    · cases hs
    next hd hi =>
      have hm : ndev.getD hd.major < MAX_STRDEV := by
        cases ndev with
        | none => exact h.hds hd (List.mem_of_getElem? hi)
        | some m => exact ha m rfl
      have hx := h.index hm
      split_ifs at hs <;> cases hs
      · exact hx.set hm
      · exact hx.set hm
      · exact hx.erase i
  | openFailed i =>
    simp only [step] at hs
    split at hs
    · cases hs
    next hd hi =>
      split_ifs at hs
      cases hs
      exact h.erase i
  | reopen i =>
    simp only [step] at hs
    split at hs
    · cases hs
    next hd hi =>
      have hm := h.hds hd (List.mem_of_getElem? hi)
      split_ifs at hs <;> cases hs
      · exact h.index hm
      · exact (h.index hm).set hm
  | close i =>
    simp only [step] at hs
    split at hs
    · cases hs
    next hd hi =>
      have hm := h.hds hd (List.mem_of_getElem? hi)
      split_ifs at hs <;> cases hs
      · exact h.index hm
      · exact (h.index hm).erase i
      · exact (h.index hm).set hm

/- Every step of a run whose steps are all allowed is as it should be. -/
theorem drivers_guarded (fFlags : ℕ → ℕ) (as : List Act) (a : Act) (hm : Meets step Allowed (start fFlags) as)
    (h : exec step (start fFlags) as = some s) (ha : Allowed s a) (hs : step s a = some t) : Guarded s a t := by
  have hstart : Inv (start fFlags) := by
    refine ⟨rfl,fun m => ?_,fun m hc => ?_,by simp [start],by simp [start]⟩
    · exact iff_of_false (by simp [start]) (by simp [start])
    · cases hc
  have hinv := exec_preserves (fun _ _ _ hI hc hs => inv_step hI hc hs) hstart hm h
  have hnext := inv_step hinv ha hs
  refine ⟨hnext.inside,hnext.slots,fun major strtab name down rslt he hf => ?_,fun i down major he hi hret => ?_⟩
  · subst he
    have hc : s.Chrdev major rslt := by
      by_contra hc
      simp [step,hc] at hs
    have ht : t = (s.lisRegisterStrdev major strtab name down rslt).2 := by
      simpa [step,hc] using hs.symm
    rw [ht,hinv.register_failed hc hf]
    exact ⟨rfl,rfl⟩
  · subst he
    exact ha (unregister_ok hret) major hi

/- A driver comes, a stream of it is opened, and a call unregisters the driver. -/
def opened : List Act := [.register 5 (some 1) none 0 0,.openNew 5 0,.attached 0 none true,.unregTests 5]

theorem drivers_guarded_opened : ∃ s t, exec step (start fun _ => 0) (opened ++ [.close 0]) = some s ∧
    step s (.unreg 0 0) = some t ∧ t.chrdev 5 = false ∧ Guarded s (.unreg 0 0) t := by
  obtain ⟨s,hs,hc⟩ := (Option.any_eq_true _ _).mp (show (exec step (start fun _ => 0) (opened ++ [.close 0])).any
      (fun s => decide (Allowed s (.unreg 0 0)) && (step s (.unreg 0 0)).any fun t => !t.chrdev 5) = true by
    decide +kernel)
  simp only [Bool.and_eq_true,decide_eq_true_eq] at hc
  obtain ⟨t,ht,h5⟩ := (Option.any_eq_true _ _).mp hc.2
  exact ⟨s,t,hs,ht,by simpa using h5,
    drivers_guarded (fun _ => 0) (opened ++ [.close 0]) (.unreg 0 0) (by decide +kernel) hs hc.1 ht⟩

/- While the stream is open. -/
theorem open_unregistered : ¬ ∀ (fFlags : ℕ → ℕ) (as : List Act) (a : Act) (s t : Registry),
    exec step (start fFlags) as = some s → step s a = some t → Guarded s a t := by
  intro h
  obtain ⟨s,hs,hc⟩ := (Option.any_eq_true _ _).mp (show (exec step (start fun _ => 0) opened).any
      (fun s => s.hds == [⟨5,some 1,1,true⟩] && s.unregs == [5]) = true by decide +kernel)
  simp only [Bool.and_eq_true,beq_iff_eq] at hc
  have hget : s.unregs[0]? = some 5 := by
    rw [hc.2]
    rfl
  have hstep : step s (.unreg 0 0) = some { (s.lisUnregisterStrdev 5 0).2 with unregs := s.unregs.eraseIdx 0 } := by
    simp only [step,hget]
  have hopen := (h (fun _ => 0) opened (.unreg 0 0) s _ hs hstep).closed 0 0 5 rfl hget rfl ⟨5,some 1,1,true⟩
    (by rw [hc.1]; exact List.mem_singleton.mpr rfl) rfl
  exact absurd hopen (by decide)

end CSLiS.Mod.Strdev.Registry
