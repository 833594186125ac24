import CSLiS.Bufcall.Integrity

/-!
# One pass over the bufcall table (head/buffcall.c)

The functions that a pass calls queue new ones, on lists that are still to come or on the list that the pass is at. Ids
run on, so that two registrations in a row are never on the same list: a list gets shorter with every callout, or the
next registration is for another list.
-/

namespace CSLiS.Bufcall.BcTable
open Lib Exec

/- What a callback asks of `lis_bufcall`, and whether ALLOCF gives it an entry when there is no free one. -/
structure Reg where
  f : Option ℕ
  arg : ℕ
  ok : Bool
  deriving DecidableEq, Repr

/- The next step of task `u` in `lis_bufcall`. -/
def proceed (s : BcTable) (u : ℕ) (ok : Bool) : Option BcTable :=
  match s.tasks u with
  | .alloc .. => s.step (.alloc u ok)
  | .fill .. => s.step (.fill u)
  | .tmout => s.step (.tmout u)
  | _ => some s

/- `lis_bufcall` without a stop. -/
def lisBufcall (s : BcTable) (u : ℕ) (r : Reg) : Option BcTable :=
  (((s.step (.bufcall u r.f r.arg)).bind (·.proceed u r.ok)).bind (·.proceed u r.ok)).bind (·.proceed u r.ok)

/- A callback registers one function or none. -/
def callback (s : BcTable) (u : ℕ) : Option Reg → Option BcTable
  | none => some s
  | some r => s.lisBufcall u r

/- The callouts of task `t` from the `k`-th one on, whose callback registers `cb k`, and how many there are. -/
def callouts (t u : ℕ) (cb : ℕ → Option Reg) : ℕ → ℕ → BcTable → Option (ℕ × BcTable)
  | 0, _, _ => none
  | fuel + 1, k, s =>
      match s.tasks t with
      | .callout .. =>
          ((s.callback u (cb k)).bind fun s => s.step (.returned t)).bind (callouts t u cb fuel (k + 1))
      | _ => some (k,s)

/-- `buffcall.c:340-406`, with the callbacks as parts of `lis_dobufcall` -/
def lisDobufcall (t u : ℕ) (cb : ℕ → Option Reg) (fuel : ℕ) (s : BcTable) : Option (ℕ × BcTable) :=
  ((s.step (.dobufcall t)).bind (callouts t u cb fuel 0)).bind fun r => (r.2.proceed t true).map fun s => (r.1,s)

variable {s w : BcTable} {t u b c h i j k n f arg r : ℕ} {free : List ℕ} {q : ℕ → List ℕ} {id : Bcid}
  {cb : ℕ → Option Reg}

/-! ## The next callout -/

theorem Shape.empty (hs : s.Shape free q) (hcnt : s.lisBcCnt = 0) (k : ℕ) : q k = [] := by
  by_contra hne
  obtain ⟨b,hb⟩ := List.exists_mem_of_ne_nil _ hne
  have hk : k ∈ Finset.range N_BCHASH := by
    rw [Finset.mem_range,← (hs.mem k b hb).1]
    exact hash_lt _
  have hzero : ∑ h ∈ Finset.range N_BCHASH, ((q h).length : ℤ) = 0 := hs.cnt.symm.trans hcnt
  have h0 := (Finset.sum_eq_zero_iff_of_nonneg fun h _ => Int.natCast_nonneg _).mp hzero k hk
  exact hne (List.length_eq_zero_iff.mp (Int.natCast_eq_zero.mp h0))

theorem Shape.empty_above (hs : s.Shape free q) (hk : N_BCHASH ≤ k) : q k = [] := by
  by_contra hne
  obtain ⟨b,hb⟩ := List.exists_mem_of_ne_nil _ hne
  have := hash_lt (s.bc b).id
  rw [(hs.mem k b hb).1] at this
  omega

/- The pass goes on to the first list that is not empty. -/
theorem Shape.nextCallout (hs : s.Shape free q) (hin : i + n = N_BCHASH) :
    (∀ j b, s.nextCallout i n = some (j,b) → i ≤ j ∧ b ∈ q j ∧ ∀ k, i ≤ k → k < j → q k = []) ∧
      (s.nextCallout i n = none → ∀ k, i ≤ k → q k = []) := by
  induction n generalizing i with
  | zero =>
    refine ⟨fun j b hj => ?_,fun _ k hk => hs.empty_above (by omega)⟩
    cases hj
  | succ n ih =>
    have hin' : i + 1 + n = N_BCHASH := by omega
    obtain ⟨ih1,ih2⟩ := ih hin'
    rw [BcTable.nextCallout,hs.heads]
    by_cases hcnt : s.lisBcCnt = 0
    · rw [if_pos hcnt]
      refine ⟨fun j b hj => ?_,fun _ k _ => hs.empty hcnt k⟩
      cases hj
    · rw [if_neg hcnt]
      cases hqi : q i with
      | nil =>
        rw [if_pos (by simp)]
        have hstep : ∀ k, i ≤ k → k = i ∨ i + 1 ≤ k := by omega
        refine ⟨fun j b hj => ?_,fun hnone k hk => ?_⟩
        · obtain ⟨h1,h2,h3⟩ := ih1 j b hj
          refine ⟨by omega,h2,fun k hk hkj => ?_⟩
          rcases hstep k hk with rfl | hk
          · exact hqi
          · exact h3 k hk hkj
        · rcases hstep k hk with rfl | hk
          · exact hqi
          · exact ih2 hnone k hk
      | cons a l =>
        rw [if_neg (by simp; omega)]
        refine ⟨fun j b hj => ?_,fun hnone => ?_⟩
        · obtain ⟨rfl,rfl⟩ := Prod.mk.inj (Option.some.inj hj)
          refine ⟨le_rfl,?_,fun k h1 h2 => ?_⟩
          · rw [hqi]
            exact List.mem_cons_self
          · omega
        · cases hnone

theorem Shape.resumeCallout (hs : s.Shape free q) (hi : i < N_BCHASH) :
    (∀ j b, s.resumeCallout i = some (j,b) → i ≤ j ∧ b ∈ q j ∧ ∀ k, i ≤ k → k < j → q k = []) ∧
      (s.resumeCallout i = none → ∀ k, i ≤ k → q k = []) := by
  have hn : i + 1 + (N_BCHASH - (i + 1)) = N_BCHASH := by omega
  obtain ⟨h1,h2⟩ := hs.nextCallout hn
  have hstep : ∀ k, i ≤ k → k = i ∨ i + 1 ≤ k := by omega
  rw [BcTable.resumeCallout,hs.heads]
  cases hqi : q i with
  | nil =>
    rw [if_pos (by simp)]
    refine ⟨fun j b hj => ?_,fun hnone k hk => ?_⟩
    · obtain ⟨h3,h4,h5⟩ := h1 j b hj
      refine ⟨by omega,h4,fun k hk hkj => ?_⟩
      rcases hstep k hk with rfl | hk
      · exact hqi
      · exact h5 k hk hkj
    · rcases hstep k hk with rfl | hk
      · exact hqi
      · exact h2 hnone k hk
  | cons a l =>
    rw [if_neg (by simp; omega)]
    refine ⟨fun j b hj => ?_,fun hnone => ?_⟩
    · obtain ⟨rfl,rfl⟩ := Prod.mk.inj (Option.some.inj hj)
      refine ⟨le_rfl,?_,fun k h1 h2 => ?_⟩
      · rw [hqi]
        exact List.mem_cons_self
      · omega
    · cases hnone

/-! ## A callback -/

/- Two registrations in a row are on different lists. -/
theorem hash_nextId (s : BcTable) : hash s.nextId ≠ hash s.idNum := by
  unfold nextId hash
  split_ifs with h0
  · have h1 : s.idNum = -1 := by
      rw [← add_eq_zero_iff_eq_neg]
      exact h0
    rw [h1]
    decide
  · generalize s.idNum = a
    intro hc
    have h1 : a &&& 127#32 = (a + 1) &&& 127#32 := (BitVec.eq_of_toNat_eq hc).symm
    have h2 : ∀ x : BitVec 32, (x &&& 127#32).toNat = x.toNat % 128 := by
      intro x
      rw [BitVec.toNat_and]
      exact Nat.and_two_pow_sub_one_eq_mod x.toNat 7
    rw [h2,h2,BitVec.toNat_add] at hc
    have h3 := a.isLt
    have h4 : (1 : BitVec 32).toNat = 1 := rfl
    rw [h4] at hc
    omega

/- What a callback leaves: the entries that are queued and what they are, and at most one more behind them, on the list
of an id that has just been given. -/
structure Called (s w : BcTable) (u : ℕ) (q q' : ℕ → List ℕ) : Prop where
  inv : ∃ free', w.Inv free' q'
  tasks : ∀ v, v ≠ u → w.tasks v = s.tasks v
  idle : w.tasks u = .idle
  log : w.log = s.log
  queued : ∀ k, ∀ c ∈ q k, c ∈ q' k ∧ (w.bc c).reg = (s.bc c).reg
  grown : q' = q ∨ ∃ c, q' = Function.update q (hash w.idNum) (q (hash w.idNum) ++ [c]) ∧ hash w.idNum ≠ hash s.idNum

theorem proceed_idle (h : s.tasks u = .idle) (ok : Bool) : s.proceed u ok = some s := by
  rw [proceed,h]

/- The end of `bc_link`, and of the start of the timer. -/
theorem Inv.settle (hi : (s.startTimer u).Inv free q) (ok : Bool) : ∃ w, (s.startTimer u).proceed u ok = some w ∧
    w.Inv free q ∧ w.tasks u = .idle ∧ (∀ v, v ≠ u → w.tasks v = s.tasks v) ∧ w.bc = s.bc ∧ w.log = s.log ∧
      w.idNum = s.idNum := by
  unfold startTimer at hi ⊢
  split_ifs at hi ⊢ with ht
  · have hidle : (s.goto u .idle).tasks u = .idle := Function.update_self ..
    exact ⟨_,proceed_idle hidle ok,hi,hidle,fun v hv => Function.update_of_ne hv ..,rfl,rfl,rfl⟩
  · have hw : ({ s with lisStrbctimer := true }.goto u .tmout).tasks u = .tmout := Function.update_self ..
    refine ⟨_,?_,hi.tmout hw,Function.update_self ..,fun v hv => ?_,rfl,rfl,rfl⟩
    · rw [proceed,hw]
      simp only [step,hw,if_true]
    · exact (Function.update_of_ne hv ..).trans (Function.update_of_ne hv ..)

/- An entry is filled in. -/
theorem called_link (hs : w.Shape free q) (hb : ∀ h, b ∉ q h) (hbc : w.bc = s.bc) (hlog : w.log = s.log)
    (htasks : ∀ v, v ≠ u → w.tasks v = s.tasks v) (hnum : w.idNum = s.nextId)
    (hi : ((w.link b f arg s.nextId).startTimer u).Inv free
      (Function.update q (hash s.nextId) (q (hash s.nextId) ++ [b]))) (ok : Bool) :
    ∃ x, ((w.link b f arg s.nextId).startTimer u).proceed u ok = some x ∧
      Called s x u q (Function.update q (hash s.nextId) (q (hash s.nextId) ++ [b])) := by
  obtain ⟨x,hx,hinv,hidle,hrest,hxbc,hxlog,hxnum⟩ := hi.settle ok
  have hl := link_eq (s := w) b f arg s.nextId
  have hnum' : x.idNum = s.nextId := by rw [hxnum,hl,hnum]
  refine ⟨x,hx,⟨_,hinv⟩,fun v hv => ?_,hidle,?_,fun k c hc => ⟨mem_update_append.mpr (.inl hc),?_⟩,.inr ⟨b,?_,?_⟩⟩
  · rw [hrest v hv,hl]
    exact htasks v hv
  · rw [hxlog,hl]
    exact hlog
  · have hcb : c ≠ b := by
      rintro rfl
      exact hb k hc
    rw [hxbc,(link_other f arg s.nextId hs hb hcb).2.2.2,hbc]
  · rw [hnum']
  · rw [hnum']
    exact hash_nextId s

theorem Called.refl (hi : s.Inv free q) (hu : s.tasks u = .idle) : Called s s u q q :=
  ⟨⟨free,hi⟩,fun _ _ => rfl,hu,rfl,fun _ _ hc => ⟨hc,rfl⟩,.inl rfl⟩

theorem Inv.lisBufcall (hi : s.Inv free q) (hu : s.tasks u = .idle) (x : Reg) :
    ∃ w q', s.lisBufcall u x = some w ∧ Called s w u q q' := by
  obtain ⟨o,arg,ok⟩ := x
  unfold BcTable.lisBufcall
  cases o with
  | none =>
    refine ⟨s,q,?_,Called.refl hi hu⟩
    simp only [step,hu,if_true,Option.bind_some,proceed_idle hu]
  | some f =>
    simp only [step,hu,if_true,Option.bind_some]
    cases hfree : s.lisBcfreel with
    | some b =>
      obtain ⟨free',rfl,hinv⟩ := hi.bcLink_free f arg hu hfree
      have hb : ∀ h, b ∉ q h := hi.entries.shape.apart b List.mem_cons_self
      obtain ⟨free2,h2,hw⟩ := hi.entries.pop hfree s.nextId
      obtain ⟨-,rfl⟩ := List.cons.inj h2
      have hlink : s.bcLink u f arg =
          ({ s with lisBcfreel := (s.bc b).next, idNum := s.nextId }.link b f arg s.nextId).startTimer u := by
        rw [BcTable.bcLink,hfree]
      rw [hlink] at hinv ⊢
      obtain ⟨w,hrun,hcalled⟩ := called_link (s := s) hw.shape hb rfl rfl (fun _ _ => rfl) rfl hinv ok
      refine ⟨w,_,?_,hcalled⟩
      rw [hrun,Option.bind_some,proceed_idle hcalled.idle,Option.bind_some,proceed_idle hcalled.idle]
    | none =>
      have hlink : s.bcLink u f arg = { s with idNum := s.nextId }.goto u (.alloc f arg s.nextId) := by
        rw [BcTable.bcLink,hfree]
      have hinv := hi.bcLink_alloc f arg hu hfree
      rw [hlink] at hinv ⊢
      set a := { s with idNum := s.nextId }.goto u (.alloc f arg s.nextId) with ha
      have hau : a.tasks u = .alloc f arg s.nextId := Function.update_self ..
      have hrest : ∀ v, v ≠ u → a.tasks v = s.tasks v := fun v hv => Function.update_of_ne hv ..
      have hpa : a.proceed u ok = a.step (.alloc u ok) := by rw [proceed,hau]
      rw [hpa]
      cases ok with
      | false =>
        have hstep : a.step (.alloc u false) = some (a.goto u .idle) := by simp [step,hau]
        have hidle : (a.goto u .idle).tasks u = .idle := Function.update_self ..
        have hinv' : (a.goto u .idle).Inv free q := by
          refine hinv.move (t := u) (p := .idle) (hinv.entries.same rfl le_rfl rfl rfl rfl rfl rfl)
            rfl rfl rfl rfl rfl rfl ?_ rfl rfl ?_
          · simp [Phase.newId]
          · rw [hau]
            exact ⟨rfl,rfl⟩
        refine ⟨a.goto u .idle,q,?_,⟨free,hinv'⟩,fun v hv => ?_,hidle,rfl,fun _ _ hc => ⟨hc,rfl⟩,.inl rfl⟩
        · rw [hstep,Option.bind_some,proceed_idle hidle,Option.bind_some,proceed_idle hidle]
        · exact (Function.update_of_ne hv ..).trans (hrest v hv)
      | true =>
        have hfresh : ∀ h, a.brk ∉ q h := fun h hm => lt_irrefl _ (hinv.entries.shape.mem h _ hm).2
        have hinv' := hinv.alloc hau
        set x := { a with brk := a.brk + 1 }.goto u (.fill a.brk f arg s.nextId) with hx
        have hstep : a.step (.alloc u true) = some x := by simp [step,hau,hx]
        have hxu : x.tasks u = .fill a.brk f arg s.nextId := Function.update_self ..
        have hpx : x.proceed u true = some ((x.link a.brk f arg s.nextId).startTimer u) := by
          simp only [proceed,hxu,step]
        have hxrest : ∀ v, v ≠ u → x.tasks v = s.tasks v := fun v hv =>
          (Function.update_of_ne hv ..).trans (hrest v hv)
        obtain ⟨w,hrun,hcalled⟩ := called_link (s := s) hinv'.entries.shape hfresh rfl rfl hxrest rfl
          (hinv'.fill hxu) true
        refine ⟨w,_,?_,hcalled⟩
        rw [hstep,Option.bind_some,hpx,Option.bind_some,hrun]

theorem Inv.callback (hi : s.Inv free q) (hu : s.tasks u = .idle) (x : Option Reg) :
    ∃ w q', s.callback u x = some w ∧ Called s w u q q' := by
  cases x with
  | none => exact ⟨s,q,rfl,Called.refl hi hu⟩
  | some x => exact hi.lisBufcall hu x

/-! ## A callout -/

/- Task `t` is in a callback, for an entry of list `i`. -/
structure At (s : BcTable) (t u b i : ℕ) (q : ℕ → List ℕ) : Prop where
  inv : ∃ free, s.Inv free q
  runner : s.tasks t = .callout b i
  caller : s.tasks u = .idle
  mem : b ∈ q i
  called : .called (s.bc b).reg ∈ s.log

/- Registration `r` has been called, or is still to come on list `i` or behind it. -/
def Due (s : BcTable) (q : ℕ → List ℕ) (i r : ℕ) : Prop :=
  .called r ∈ s.log ∨ ∃ k, i ≤ k ∧ ∃ c ∈ q k, (s.bc c).reg = r

/- What list `i` has still to go. After a registration for the list the next one is for another list. -/
def left (s : BcTable) (q : ℕ → List ℕ) (i : ℕ) : ℕ := 2 * (q i).length + if hash s.idNum = i then 0 else 1

/- The pass is through. -/
structure Through (s w : BcTable) (t i : ℕ) (q : ℕ → List ℕ) : Prop where
  inv : ∃ free' q', w.Inv free' q'
  runner : w.tasks t = .idle ∨ w.tasks t = .tmout
  log : w.log = s.log
  done : ∀ r, s.Due q i r → .called r ∈ w.log

/- It is at an entry of list `j`. -/
structure Onward (s w : BcTable) (t u b i j : ℕ) (q q' : ℕ → List ℕ) : Prop where
  place : w.At t u b j q'
  le : i ≤ j
  log : ∃ r, w.log = s.log ++ [.called r]
  due : ∀ r, s.Due q i r → w.Due q' j r

/- The next callout, if there is one. -/
theorem Between.next (hb : s.Between t free q) (hut : u ≠ t) (hu : s.tasks u = .idle) {o : Option (ℕ × ℕ)}
    (hsome : ∀ j b, o = some (j,b) → i ≤ j ∧ b ∈ q j ∧ ∀ k, i ≤ k → k < j → q k = [])
    (hnone : o = none → ∀ k, i ≤ k → q k = []) :
    Through s (s.callout t o) t i q ∨
      ∃ j b, Onward s (s.callout t o) t u b i j q q ∧ (s.callout t o).idNum = s.idNum := by
  have hinv : (s.callout t o).Inv free q := hb.callout fun j b hj => (hsome j b hj).2.1
  cases o with
  | none =>
    have hempty := hnone rfl
    have hlog : (s.callout t none).log = s.log := by
      unfold BcTable.callout
      split_ifs <;> rfl
    refine .inl ⟨⟨_,_,hinv⟩,?_,hlog,fun r hr => ?_⟩
    · unfold BcTable.callout
      split_ifs
      · exact .inr (Function.update_self ..)
      · exact .inl (Function.update_self ..)
    · rcases hr with hr | ⟨k,hk,c,hc,-⟩
      · rw [hlog]
        exact hr
      · rw [hempty k hk] at hc
        cases hc
  | some o =>
    obtain ⟨j,b⟩ := o
    obtain ⟨hij,hmem,hskip⟩ := hsome j b rfl
    have husr := (hb.entries.used j b hmem).2.1
    have hlog : (s.callout t (some (j,b))).log = s.log ++ [.called (s.bc b).reg] := by
      simp only [BcTable.callout,if_neg husr]
      rfl
    have hreg : ∀ c, ((s.callout t (some (j,b))).bc c).reg = (s.bc c).reg := by
      intro c
      simp only [BcTable.callout,goto,setBc]
      by_cases hc : c = b
      · subst hc
        simp
      · simp [hc]
    refine .inr ⟨j,b,⟨⟨⟨free,hinv⟩,Function.update_self ..,?_,hmem,?_⟩,hij,⟨_,hlog⟩,fun r hr => ?_⟩,rfl⟩
    · exact (Function.update_of_ne hut ..).trans hu
    · rw [hlog,hreg]
      simp
    · rcases hr with hr | ⟨k,hk,c,hc,hr⟩
      · exact .inl (hlog ▸ List.mem_append_left _ hr)
      · refine .inr ⟨k,?_,c,hc,(hreg c).trans hr⟩
        by_contra hkj
        rw [hskip k hk (by omega)] at hc
        cases hc

/- What the callback and the return of it do to what is due, and to what list `i` has to go. -/
theorem At.returned (ha : s.At t u b i q) (hut : u ≠ t) (x : Option Reg) : ∃ v q', s.callback u x = some v ∧
    v.step (.returned t) = some ((v.release b).callout t ((v.release b).resumeCallout i)) ∧
      (v.release b).tasks u = .idle ∧ (∃ free, (v.release b).Between t free q') ∧ (v.release b).log = s.log ∧
        (∀ r, s.Due q i r → (v.release b).Due q' i r) ∧ (v.release b).left q' i < s.left q i := by
  obtain ⟨free,hi⟩ := ha.inv
  obtain ⟨v,q',hrun,⟨free',hv⟩,htasks,hidle,hlog,hqueued,hgrown⟩ := hi.callback ha.caller x
  have hrunner : v.tasks t = .callout b i := (htasks t (Ne.symm hut)).trans ha.runner
  have hmem : b ∈ q' i := (hqueued i b ha.mem).1
  have hs := hv.entries.shape
  have hrel := release_eq hs hmem
  have hrlog : (v.release b).log = s.log := by rw [hrel,hlog]
  refine ⟨v,Function.update q' i ((q' i).erase b),hrun,?_,?_,⟨_,hv.returned hrunner hmem⟩,hrlog,fun r hr => ?_,?_⟩
  · simp only [step,hrunner]
  · rw [hrel]
    exact hidle
  · rcases hr with hr | ⟨k,hk,c,hc,hcr⟩
    · exact .inl (hrlog ▸ hr)
    · by_cases hcb : c = b
      · subst hcb
        exact .inl (hrlog ▸ hcr ▸ ha.called)
      · obtain ⟨hc',hreg⟩ := hqueued k c hc
        refine .inr ⟨k,hk,c,(mem_update_erase hs hmem).mpr ⟨hcb,hc'⟩,?_⟩
        rw [((release_bc hs hmem).2 hcb).2.2.2,hreg]
        exact hcr
  · have hnum : (v.release b).idNum = v.idNum := by rw [hrel]
    have hpos : 0 < (q i).length := List.length_pos_of_mem ha.mem
    have hlen : (Function.update q' i ((q' i).erase b) i).length = (q' i).length - 1 := by
      rw [Function.update_self]
      exact List.length_erase_of_mem hmem
    unfold left
    rw [hlen,hnum]
    have hsame : (q' i).length = (q i).length ∨
        (q' i).length = (q i).length + 1 ∧ hash v.idNum = i ∧ hash s.idNum ≠ i := by
      rcases hgrown with rfl | ⟨c,rfl,hne⟩
      · exact .inl rfl
      · by_cases hh : hash v.idNum = i
        · right
          rw [hh,Function.update_self,List.length_append,List.length_singleton]
          exact ⟨rfl,rfl,fun he => hne (hh.trans he.symm)⟩
        · left
          rw [Function.update_of_ne (Ne.symm hh)]
    rcases hsame with hsame | ⟨hsame,hh,hne⟩
    · rw [hsame]
      split_ifs <;> omega
    · rw [hsame,if_pos hh,if_neg hne]
      omega

/- One callout: the pass is through, or it is further on. -/
theorem At.step (ha : s.At t u b i q) (hut : u ≠ t) (x : Option Reg) :
    ∃ w, ((s.callback u x).bind fun s => s.step (.returned t)) = some w ∧
      (Through s w t i q ∨
        ∃ c j q', Onward s w t u c i j q q' ∧ (i < j ∨ j = i ∧ w.left q' i < s.left q i)) := by
  obtain ⟨v,q',hrun,hret,hidle,⟨free,hb⟩,hlog,hdue,hleft⟩ := ha.returned hut x
  have hin : i < N_BCHASH := by
    obtain ⟨free,hi⟩ := ha.inv
    rw [← (hi.entries.shape.mem i b ha.mem).1]
    exact hash_lt _
  obtain ⟨hsome,hnone⟩ := hb.entries.shape.resumeCallout hin
  refine ⟨(v.release b).callout t ((v.release b).resumeCallout i),?_,?_⟩
  · rw [hrun,Option.bind_some]
    exact hret
  · rcases hb.next hut hidle hsome hnone with hw | ⟨j,c,hw,hnum⟩
    · exact .inl ⟨hw.inv,hw.runner,hw.log.trans hlog,fun r hr => hw.done r (hdue r hr)⟩
    · refine .inr ⟨c,j,q',⟨hw.place,hw.le,?_,fun r hr => hw.due r (hdue r hr)⟩,?_⟩
      · rw [← hlog]
        exact hw.log
      · rcases hw.le.lt_or_eq with hlt | rfl
        · exact .inl hlt
        · refine .inr ⟨rfl,?_⟩
          unfold left at hleft ⊢
          rw [hnum]
          exact hleft

/-! ## The pass -/

/- What a pass leaves: `n` more functions have been called, among them all that were due. -/
structure Passed (s w : BcTable) (t n i : ℕ) (q : ℕ → List ℕ) : Prop where
  inv : ∃ free' q', w.Inv free' q'
  runner : w.tasks t = .idle ∨ w.tasks t = .tmout
  log : ∃ es : List ℕ, w.log = s.log ++ es.map Event.called ∧ es.length = n
  done : ∀ r, s.Due q i r → .called r ∈ w.log

theorem callouts_succ (hr : s.tasks t = .callout b i) (cb : ℕ → Option Reg) (n k : ℕ) :
    callouts t u cb (n + 1) k s =
      ((s.callback u (cb k)).bind fun s => s.step (.returned t)).bind (callouts t u cb n (k + 1)) := by
  simp only [callouts,hr]

theorem callouts_done (hr : s.tasks t = .idle ∨ s.tasks t = .tmout) (cb : ℕ → Option Reg) (n k : ℕ) :
    callouts t u cb (n + 1) k s = some (k,s) := by
  rcases hr with hr | hr <;> simp only [callouts,hr]

/- The lists are gone through in their order, and each gets shorter in the end. -/
theorem At.callouts (cb : ℕ → Option Reg) (hut : u ≠ t) (d m : ℕ) :
    ∀ {s : BcTable} {b i : ℕ} {q : ℕ → List ℕ}, s.At t u b i q → N_BCHASH - i = d → s.left q i = m → ∀ k,
      ∃ n w, (∀ fuel, n + 1 < fuel → callouts t u cb fuel k s = some (k + (n + 1),w)) ∧ Passed s w t n i q := by
  induction d using Nat.strong_induction_on generalizing m with
  | _ d ihd =>
    induction m using Nat.strong_induction_on with
    | _ m ihm =>
      intro s b i q ha hd hm k
      obtain ⟨w,hrun,hw | ⟨c,j,q',hw,hsmall⟩⟩ := ha.step hut (cb k)
      · refine ⟨0,w,fun fuel hfuel => ?_,hw.inv,hw.runner,⟨[],by simp [hw.log],rfl⟩,hw.done⟩
        obtain ⟨n,rfl⟩ : ∃ n, fuel = n + 1 + 1 := ⟨fuel - 2,by omega⟩
        rw [callouts_succ ha.runner,hrun,Option.bind_some]
        exact callouts_done hw.runner cb n (k + 1)
      · have hrest : ∃ n x, (∀ fuel, n + 1 < fuel → BcTable.callouts t u cb fuel (k + 1) w =
            some (k + 1 + (n + 1),x)) ∧ Passed w x t n j q' := by
          rcases hsmall with hij | ⟨rfl,hlt⟩
          · have hj : j < N_BCHASH := by
              obtain ⟨free,hi⟩ := hw.place.inv
              rw [← (hi.entries.shape.mem j c hw.place.mem).1]
              exact hash_lt _
            have hdj : N_BCHASH - j < d := by omega
            exact ihd _ hdj _ hw.place rfl rfl (k + 1)
          · rw [hm] at hlt
            exact ihm _ hlt hw.place hd rfl (k + 1)
        obtain ⟨n,x,hx,hp⟩ := hrest
        obtain ⟨r,hlog⟩ := hw.log
        obtain ⟨es,hes,hlen⟩ := hp.log
        refine ⟨n + 1,x,fun fuel hfuel => ?_,hp.inv,hp.runner,⟨r :: es,?_,?_⟩,fun r hr => hp.done r (hw.due r hr)⟩
        · obtain ⟨m,rfl⟩ : ∃ m, fuel = m + 1 := ⟨fuel - 1,by omega⟩
          rw [callouts_succ ha.runner,hrun,Option.bind_some,hx m (by omega)]
          congr 2
          omega
        · rw [hes,hlog]
          simp
        · rw [List.length_cons,hlen]

theorem proceed_runner (hr : s.tasks t = .idle ∨ s.tasks t = .tmout) :
    ∃ w, s.proceed t true = some w ∧ w.log = s.log := by
  rcases hr with hr | hr
  · exact ⟨s,proceed_idle hr true,rfl⟩
  · refine ⟨{ s with lisBctl := true }.goto t .idle,?_,rfl⟩
    simp only [proceed,hr,BcTable.step,if_true]

/- No registration is called twice. -/
theorem nodup_called {es : List ℕ} {l : List Event} (h : (l ++ es.map Event.called).Pairwise Quiet) : es.Nodup := by
  have h1 := (List.pairwise_append.mp h).2.1
  rw [List.pairwise_map] at h1
  exact h1.imp fun hq he => hq _ rfl he

/-- A pass over the table ends after `n` callouts, whatever each callback registers, and calls every function that was
queued at its start, and calls it once. Without the flag of the timer there is no pass. -/
theorem lisDobufcall_through (hi : s.Inv free q) (ht : s.tasks t = .idle) (hu : s.tasks u = .idle) (hut : u ≠ t)
    (cb : ℕ → Option Reg) : ∃ n w, (∀ fuel, n < fuel → lisDobufcall t u cb fuel s = some (n,w)) ∧
      (s.lisStrbcflag = false → n = 0 ∧ w = s) ∧
      (s.lisStrbcflag = true → ∃ es : List ℕ, w.log = s.log ++ es.map Event.called ∧ es.length = n ∧
        ∀ h, ∀ b ∈ q h, es.count (s.bc b).reg = 1) := by
  cases hf : s.lisStrbcflag with
  | false =>
    refine ⟨0,s,fun fuel hfuel => ?_,fun _ => ⟨rfl,rfl⟩,fun hc => ?_⟩
    · obtain ⟨n,rfl⟩ := Nat.exists_eq_succ_of_ne_zero hfuel.ne'
      have hstep : s.step (.dobufcall t) = some s := by simp [BcTable.step,ht,hf]
      rw [lisDobufcall,hstep,Option.bind_some,callouts_done (.inl ht),Option.bind_some,proceed_idle ht]
      rfl
    · cases hc
  | true =>
    have hb := hi.dobufcall ht hf
    set a : BcTable := { s with lisStrbcflag := false } with ha
    have hstep : s.step (.dobufcall t) = some (a.callout t (a.nextCallout 0 N_BCHASH)) := by
      simp [BcTable.step,ht,hf,ha]
    obtain ⟨hsome,hnone⟩ := hb.entries.shape.nextCallout (Nat.zero_add _)
    -- the functions that are queued are due and have not been called
    have hdue : ∀ h, ∀ b ∈ q h, a.Due q 0 (s.bc b).reg ∧ .called (s.bc b).reg ∉ s.log := by
      intro h b hmem
      refine ⟨.inr ⟨h,Nat.zero_le _,b,hmem,rfl⟩,?_⟩
      apply hi.entries.uncalled h b hmem
      cases hst : (s.bc b).state with
      | unused => exact absurd hst (hi.entries.used h b hmem).2.2
      | active => rfl
      | callout => exact absurd ⟨⟨h,hmem⟩,hst⟩ (hb.quiet b)
    have hpass : ∃ n w, (∀ fuel, n < fuel →
        callouts t u cb fuel 0 (a.callout t (a.nextCallout 0 N_BCHASH)) = some (n,w)) ∧ Passed a w t n 0 q := by
      rcases hb.next hut hu hsome hnone with hw | ⟨j,b,hw,-⟩
      · refine ⟨0,_,fun fuel hfuel => ?_,hw.inv,hw.runner,⟨[],by simp [hw.log],rfl⟩,hw.done⟩
        obtain ⟨n,rfl⟩ := Nat.exists_eq_succ_of_ne_zero hfuel.ne'
        exact callouts_done hw.runner cb n 0
      · obtain ⟨n,w,hrun,hp⟩ := hw.place.callouts cb hut _ _ rfl rfl 0
        obtain ⟨r,hlog⟩ := hw.log
        obtain ⟨es,hes,hlen⟩ := hp.log
        refine ⟨n + 1,w,fun fuel hfuel => ?_,hp.inv,hp.runner,⟨r :: es,?_,?_⟩,fun r hr => hp.done r (hw.due r hr)⟩
        · rw [hrun fuel hfuel,Nat.zero_add]
        · rw [hes,hlog]
          simp
        · rw [List.length_cons,hlen]
    obtain ⟨n,w,hrun,hp⟩ := hpass
    obtain ⟨es,hes,hlen⟩ := hp.log
    obtain ⟨x,hx,hxlog⟩ := proceed_runner hp.runner
    refine ⟨n,x,fun fuel hfuel => ?_,fun hc => ?_,fun _ => ⟨es,hxlog.trans hes,hlen,fun h b hmem => ?_⟩⟩
    · rw [lisDobufcall,hstep,Option.bind_some,hrun fuel hfuel,Option.bind_some,hx]
      rfl
    · cases hc
    · obtain ⟨hd,hno⟩ := hdue h b hmem
      have hcalled := hp.done _ hd
      rw [hes] at hcalled
      obtain ⟨free',q',hinv⟩ := hp.inv
      have hnd : es.Nodup := nodup_called (hes ▸ hinv.entries.quiet)
      refine List.count_eq_one_of_mem hnd ?_
      rcases List.mem_append.mp hcalled with hc | hc
      · exact absurd hc hno
      · obtain ⟨r,hr,he⟩ := List.mem_map.mp hc
        exact Event.called.inj he ▸ hr

/- Every callback registers a function again. -/
theorem lisDobufcall_again : ∃ s free q, exec step init [.bufcall 0 (some 7) 0,.alloc 0 true,.fill 0,.tmout 0,
    .bufcall 0 (some 8) 0,.alloc 0 true,.fill 0,.bcTimeout] = some s ∧ s.Shape free q ∧ ∃ n w,
      (∀ fuel, n < fuel → lisDobufcall 0 1 (fun _ => some ⟨some 7,0,true⟩) fuel s = some (n,w)) ∧
        ∃ es : List ℕ, w.log = s.log ++ es.map Event.called ∧ es.length = n ∧
          ∀ h, ∀ b ∈ q h, es.count (s.bc b).reg = 1 := by
  obtain ⟨s,hs⟩ := Option.isSome_iff_exists.mp (show (exec step init [.bufcall 0 (some 7) 0,.alloc 0 true,.fill 0,
    .tmout 0,.bufcall 0 (some 8) 0,.alloc 0 true,.fill 0,.bcTimeout]).isSome from rfl)
  have hfacts : ((exec step init [.bufcall 0 (some 7) 0,.alloc 0 true,.fill 0,.tmout 0,.bufcall 0 (some 8) 0,
      .alloc 0 true,.fill 0,.bcTimeout]).map fun s => (s.tasks 0,s.tasks 1,s.lisStrbcflag)) =
      some (.idle,.idle,true) := rfl
  rw [hs,Option.map_some,Option.some.injEq,Prod.mk.injEq,Prod.mk.injEq] at hfacts
  obtain ⟨h0,h1,hf⟩ := hfacts
  obtain ⟨free,q,hi⟩ : ∃ free q, s.Inv free q :=
    exec_preserves (fun _ _ _ => step_inv) init_inv (by decide) hs
  obtain ⟨n,w,hrun,-,hw⟩ := lisDobufcall_through hi h0 h1 (by decide) fun _ => some ⟨some 7,0,true⟩
  exact ⟨s,free,q,hs,hi.entries.shape,n,w,hrun,hw hf⟩

end CSLiS.Bufcall.BcTable
