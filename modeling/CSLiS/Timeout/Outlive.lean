import CSLiS.Timeout.Heads

/-!
# When no timer outlives its stream head

A running timer is where its handle is kept: the scan timer in `sd_scantimer`, a close timer in `sd_close_timer` while
`close_action` waits for it. Cancellation through these then hits the right timer, and what `lis_free_stdata` and
`close_action` cancel is all there is.
-/

namespace CSLiS.Timeout.HeadTimers
open Lib.Exec

variable {tl tl' : List Tmo} {sk sk' : List Stacked} {rs rs' : List Run} {s u : HeadTimers} {d e handle call : ℕ}
  {x : Hd} {t : Tmo} {k : Stacked} {r : Run} {fcn : Fcn}

/- Where the handle of a running timer is. -/
def Placed (x : Hd) (t : Tmo) : Prop :=
  match t.fcn with
  | .addToScanl => x.writer = .assign t.handle ∨ (x.sdScantimer = t.handle ∧ x.writer ≠ .clear)
  | .lisWakeupClose => x.closer = .assignClose t.handle ∨ (x.closer = .waitClose ∧ x.sdCloseTimer = t.handle)
  | .lisWakeupFlush => x.closer = .assignFlush t.handle ∨ (x.closer = .waitFlush ∧ x.sdCloseTimer = t.handle)
  | _ => False

/- The handle of a running timer is kept for it alone. -/
structure Owned (x : Hd) (d : ℕ) (t : Tmo) : Prop where
  scan : x.sdScantimer = t.handle → t.hd = d ∧ t.fcn = .addToScanl
  close : x.sdCloseTimer = t.handle → t.hd = d ∧ (t.fcn = .lisWakeupClose ∨ t.fcn = .lisWakeupFlush)
  writer : x.writer = .assign t.handle → t.hd = d ∧ t.fcn = .addToScanl
  assignClose : x.closer = .assignClose t.handle → t.hd = d ∧ t.fcn = .lisWakeupClose
  assignFlush : x.closer = .assignFlush t.handle → t.hd = d ∧ t.fcn = .lisWakeupFlush

/- The scan timer and the close timers do not depend on each other. -/
theorem Placed.scan {y : Hd} (hp : Placed x t) (hc : y.closer = x.closer) (hk : y.sdCloseTimer = x.sdCloseTimer)
    (h : x.writer = .assign t.handle ∨ (x.sdScantimer = t.handle ∧ x.writer ≠ .clear) →
      y.writer = .assign t.handle ∨ (y.sdScantimer = t.handle ∧ y.writer ≠ .clear)) : Placed y t := by
  unfold Placed at hp ⊢
  rw [hc,hk]
  split at hp
  · exact h hp
  · exact hp
  · exact hp
  · exact hp

theorem Placed.close {y : Hd} (hp : Placed x t) (hw : y.writer = x.writer) (hs : y.sdScantimer = x.sdScantimer)
    (hclose : x.closer = .assignClose t.handle ∨ (x.closer = .waitClose ∧ x.sdCloseTimer = t.handle) →
      y.closer = .assignClose t.handle ∨ (y.closer = .waitClose ∧ y.sdCloseTimer = t.handle))
    (hflush : x.closer = .assignFlush t.handle ∨ (x.closer = .waitFlush ∧ x.sdCloseTimer = t.handle) →
      y.closer = .assignFlush t.handle ∨ (y.closer = .waitFlush ∧ y.sdCloseTimer = t.handle)) : Placed y t := by
  unfold Placed at hp ⊢
  rw [hw,hs]
  split at hp
  · exact hp
  · exact hclose hp
  · exact hflush hp
  · exact hp

/- `close_action` keeps no handle in `sd_close_timer`. -/
def Closer.settled : Closer → Bool
  | .waitClose | .clearClose | .waitFlush | .clearFlush => false
  | _ => true

/- The flush timer was set. -/
def Closer.late : Closer → Bool
  | .assignFlush _ | .waitFlush | .clearFlush | .done => true
  | _ => false

structure HdOk (tl : List Tmo) (sk : List Stacked) (rs : List Run) (d : ℕ) (x : Hd) : Prop where
  placed : ∀ t ∈ tl, t.hd = d → Placed x t
  owned : ∀ t ∈ tl, Owned x d t
  writerZero : ∀ h, x.writer = .assign h → x.sdScantimer = 0
  closerZero : Closer.settled x.closer = true → x.sdCloseTimer = 0
  late : ∀ r ∈ rs, r.hd = d → r.fcn = .lisWakeupFlush → Closer.late x.closer = true
  ioc : ∀ k ∈ sk, k.hd = d → k.fcn = .lisDoTmout → x.ioc = some k.call ∧ x.stioctmr = true
  reads : ∀ k ∈ sk, k.hd = d → k.fcn = .lisDoRdTmout → k.call ∈ x.reads
  gone : x.released = true → x.closer = .done ∧ x.writer = .idle ∧ x.ioc = none ∧ x.reads = [] ∧
    (∀ t ∈ tl, t.hd ≠ d) ∧ (∀ k ∈ sk, k.hd ≠ d) ∧ ∀ r ∈ rs, r.hd ≠ d

structure Inv (s : HeadTimers) : Prop where
  nonzero : ∀ t ∈ s.tlist, t.handle ≠ 0
  nodup : (s.tlist.map Tmo.handle).Nodup
  kinds : ∀ k ∈ s.stack, k.fcn = .lisDoTmout ∨ k.fcn = .lisDoRdTmout
  calls : (s.stack.map Stacked.call).Nodup
  lt : ∀ k ∈ s.stack, k.call < s.next
  spent : ∀ r ∈ s.running, r.fcn = .lisDoTmout → r.call < s.next ∧ ∀ k ∈ s.stack, k.call ≠ r.call
  body : ∀ r ∈ s.running, ∀ c ∈ r.todo, c ∈ r.fcn.body
  hds : ∀ d, HdOk s.tlist s.stack s.running d (s.hds d)
  hits : ∀ h ∈ s.hits, h.tmo.fcn ∈ h.purpose ∧ h.tmo.hd = h.hd

theorem HdOk.mono (h : HdOk tl sk rs d x) (ht : tl' ⊆ tl) (hk : sk' ⊆ sk) (hr : rs' ⊆ rs) : HdOk tl' sk' rs' d x := by
  obtain ⟨hp,ho,hw,hc,hl,hi,hrd,hg⟩ := h
  refine ⟨fun t h => hp t (ht h),fun t h => ho t (ht h),hw,hc,fun r h => hl r (hr h),fun k h => hi k (hk h),
    fun k h => hrd k (hk h),fun h => ?_⟩
  obtain ⟨g1,g2,g3,g4,g5,g6,g7⟩ := hg h
  exact ⟨g1,g2,g3,g4,fun t h => g5 t (ht h),fun k h => g6 k (hk h),fun r h => g7 r (hr h)⟩

theorem Inv.safe (h : Inv s) : Safe s := by
  have halive : ∀ d, (s.hds d).released = false ∨ (∀ t ∈ s.tlist, t.hd ≠ d) ∧ (∀ k ∈ s.stack, k.hd ≠ d) ∧
      ∀ r ∈ s.running, r.hd ≠ d := by
    intro d
    by_cases hr : (s.hds d).released = true
    · obtain ⟨-,-,-,-,hg⟩ := (h.hds d).gone hr
      exact .inr hg
    · exact .inl (by simpa using hr)
  refine ⟨fun t ht => ?_,fun k hk => ?_,fun r hr => ?_,fun k hk => ?_,h.hits⟩
  · exact (halive t.hd).resolve_right fun hg => hg.1 t ht rfl
  · exact (halive k.hd).resolve_right fun hg => hg.2.1 k hk rfl
  · exact (halive r.hd).resolve_right fun hg => hg.2.2 r hr rfl
  · rcases h.kinds k hk with hf | hf
    · exact .inl ((h.hds k.hd).ioc k hk rfl hf).1
    · exact .inr ((h.hds k.hd).reads k hk rfl hf)

/- One stream head changes. -/
theorem Inv.setHd (h : Inv s) (hx : HdOk s.tlist s.stack s.running d x) : Inv (s.setHd d x) := by
  refine ⟨h.nonzero,h.nodup,h.kinds,h.calls,h.lt,h.spent,h.body,fun e => ?_,h.hits⟩
  show HdOk s.tlist s.stack s.running e (Function.update s.hds d x e)
  by_cases he : e = d
  · rw [he,Function.update_self]
    exact hx
  · rw [Function.update_of_ne he]
    exact h.hds e

/- Timers are cancelled. -/
theorem Inv.untimeout (h : Inv s) (id : ℕ) (purpose : List Fcn) (d : ℕ)
    (hp : ∀ t ∈ s.tlist, t.handle = id → t.fcn ∈ purpose ∧ t.hd = d) : Inv (s.untimeout id purpose d) := by
  have hsub : (s.untimeout id purpose d).tlist ⊆ s.tlist := List.filter_subset_self _
  refine ⟨fun t ht => h.nonzero t (hsub ht),h.nodup.sublist (List.filter_sublist.map _),h.kinds,h.calls,h.lt,h.spent,
    h.body,fun e => (h.hds e).mono hsub (List.Subset.refl _) (List.Subset.refl _),fun hit hh => ?_⟩
  rcases List.mem_append.mp hh with hh | hh
  · exact h.hits hit hh
  · obtain ⟨t,ht,rfl⟩ := List.mem_map.mp hh
    obtain ⟨hm,he⟩ := List.mem_filter.mp ht
    exact hp t hm (by simpa using he)

theorem untimeoutIf_sub (id : ℕ) (purpose : List Fcn) (d : ℕ) :
    (s.untimeoutIf id purpose d).tlist ⊆ s.tlist ∧ (s.untimeoutIf id purpose d).stack = s.stack ∧
      (s.untimeoutIf id purpose d).running = s.running := by
  unfold untimeoutIf
  split_ifs
  · exact ⟨List.Subset.refl _,rfl,rfl⟩
  · exact ⟨List.filter_subset_self _,rfl,rfl⟩

theorem untimeoutIf_expired (h : Inv s) (id : ℕ) (purpose : List Fcn) (d : ℕ) :
    Expired (s.untimeoutIf id purpose d) id := by
  unfold untimeoutIf
  split_ifs with h0
  · intro t ht he
    exact h.nonzero t ht (he.trans h0)
  · intro t ht
    simpa using (List.mem_filter.mp ht).2

theorem Inv.untimeoutIf (h : Inv s) (id : ℕ) (purpose : List Fcn) (d : ℕ)
    (hp : ∀ t ∈ s.tlist, t.handle = id → t.fcn ∈ purpose ∧ t.hd = d) : Inv (s.untimeoutIf id purpose d) := by
  unfold HeadTimers.untimeoutIf
  split_ifs
  · exact h
  · exact h.untimeout id purpose d hp

/- A timer is set for a stream head that is about to keep its handle. -/
theorem Inv.timeoutFcn (h : Inv s) (hf : Fresh s handle) (hnew : handle ∉ s.tlist.map Tmo.handle)
    (hx : HdOk s.tlist s.stack s.running d x) (hrel : x.released = false)
    (hp : handle ≠ 0 → Placed x ⟨handle,fcn,d⟩) (ho : handle ≠ 0 → Owned x d ⟨handle,fcn,d⟩) :
    Inv ((s.timeoutFcn handle fcn d).setHd d x) := by
  unfold HeadTimers.timeoutFcn
  split_ifs with h0
  · exact h.setHd hx
  refine ⟨?_,?_,h.kinds,h.calls,h.lt,h.spent,h.body,fun e => ?_,h.hits⟩
  · exact List.forall_mem_cons.mpr ⟨h0,h.nonzero⟩
  · exact List.nodup_cons.mpr ⟨hnew,h.nodup⟩
  show HdOk (⟨handle,fcn,d⟩ :: s.tlist) s.stack s.running e (Function.update s.hds d x e)
  by_cases he : e = d
  · rw [he,Function.update_self]
    obtain ⟨hp1,ho1,hw,hc,hl,hi,hrd,-⟩ := hx
    exact ⟨List.forall_mem_cons.mpr ⟨fun _ => hp h0,hp1⟩,List.forall_mem_cons.mpr ⟨ho h0,ho1⟩,hw,hc,hl,hi,hrd,
      fun hg => absurd hg (by rw [hrel]; decide)⟩
  · rw [Function.update_of_ne he]
    obtain ⟨hp1,ho1,hw,hc,hl,hi,hrd,hg⟩ := h.hds e
    have hk := hf h0 e
    have hown : Owned (s.hds e) e ⟨handle,fcn,d⟩ :=
      ⟨fun h1 => absurd (.inl h1) hk,fun h1 => absurd (.inr (.inl h1)) hk,fun h1 => absurd (.inr (.inr (.inl h1))) hk,
        fun h1 => absurd (.inr (.inr (.inr (.inl h1)))) hk,fun h1 => absurd (.inr (.inr (.inr (.inr h1)))) hk⟩
    refine ⟨List.forall_mem_cons.mpr ⟨fun h1 => absurd h1.symm he,hp1⟩,List.forall_mem_cons.mpr ⟨hown,ho1⟩,hw,hc,hl,hi,
      hrd,fun h1 => ?_⟩
    obtain ⟨g1,g2,g3,g4,g5,g6,g7⟩ := hg h1
    exact ⟨g1,g2,g3,g4,List.forall_mem_cons.mpr ⟨fun h2 => he h2.symm,g5⟩,g6,g7⟩

/- Handlers end, or go on. -/
theorem Inv.running (h : Inv s) (hr : ∀ r ∈ rs, ∃ q ∈ s.running, r.fcn = q.fcn ∧ r.hd = q.hd ∧ r.call = q.call ∧
    r.todo ⊆ q.todo) : Inv { s with running := rs } := by
  refine ⟨h.nonzero,h.nodup,h.kinds,h.calls,h.lt,fun r hm hf => ?_,fun r hm c hc => ?_,fun d => ?_,h.hits⟩
  · obtain ⟨q,hq,e1,-,e2,-⟩ := hr r hm
    rw [e2]
    exact h.spent q hq (e1 ▸ hf)
  · obtain ⟨q,hq,e1,-,-,hsub⟩ := hr r hm
    rw [e1]
    exact h.body q hq c (hsub hc)
  · obtain ⟨hp,ho,hw,hc,hl,hi,hrd,hg⟩ := h.hds d
    refine ⟨hp,ho,hw,hc,fun r hm hd hf => ?_,hi,hrd,fun h1 => ?_⟩
    · obtain ⟨q,hq,e1,e2,-,-⟩ := hr r hm
      exact hl q hq (e2 ▸ hd) (e1 ▸ hf)
    · obtain ⟨g1,g2,g3,g4,g5,g6,g7⟩ := hg h1
      refine ⟨g1,g2,g3,g4,g5,g6,fun r hm => ?_⟩
      obtain ⟨q,hq,-,e2,-,-⟩ := hr r hm
      rw [e2]
      exact g7 q hq

/- A handler starts. -/
theorem Inv.starts (h : Inv s) (hrel : (s.hds r.hd).released = false) (hbody : r.todo = r.fcn.body)
    (hlate : r.fcn = .lisWakeupFlush → Closer.late (s.hds r.hd).closer = true)
    (hspent : r.fcn = .lisDoTmout → r.call < s.next ∧ ∀ k ∈ s.stack, k.call ≠ r.call) :
    Inv { s with running := r :: s.running } := by
  refine ⟨h.nonzero,h.nodup,h.kinds,h.calls,h.lt,List.forall_mem_cons.mpr ⟨hspent,h.spent⟩,
    List.forall_mem_cons.mpr ⟨fun c hc => hbody ▸ hc,h.body⟩,fun d => ?_,h.hits⟩
  obtain ⟨hp,ho,hw,hc,hl,hi,hrd,hg⟩ := h.hds d
  refine ⟨hp,ho,hw,hc,List.forall_mem_cons.mpr ⟨fun hd hf => hd ▸ hlate hf,hl⟩,hi,hrd,fun h1 => ?_⟩
  obtain ⟨g1,g2,g3,g4,g5,g6,g7⟩ := hg h1
  refine ⟨g1,g2,g3,g4,g5,g6,List.forall_mem_cons.mpr ⟨fun hd => ?_,g7⟩⟩
  rw [hd,h1] at hrel
  exact absurd hrel (by decide)

/- A call that waits puts a timer on its stack. -/
theorem Inv.push (h : Inv s) (hf : fcn = .lisDoTmout ∨ fcn = .lisDoRdTmout)
    (hx : HdOk s.tlist (⟨s.next,fcn,d⟩ :: s.stack) s.running d x) :
    Inv { s.setHd d x with next := s.next + 1, stack := ⟨s.next,fcn,d⟩ :: s.stack } := by
  refine ⟨h.nonzero,h.nodup,List.forall_mem_cons.mpr ⟨hf,h.kinds⟩,?_,?_,fun r hr hf => ?_,h.body,fun e => ?_,h.hits⟩
  · refine List.nodup_cons.mpr ⟨fun hm => ?_,h.calls⟩
    obtain ⟨k,hk,he⟩ := List.mem_map.mp hm
    exact Nat.ne_of_lt (h.lt k hk) he
  · exact List.forall_mem_cons.mpr ⟨Nat.lt_succ_self _,fun k hk => Nat.lt_succ_of_lt (h.lt k hk)⟩
  · obtain ⟨hlt,hne⟩ := h.spent r hr hf
    exact ⟨Nat.lt_succ_of_lt hlt,List.forall_mem_cons.mpr ⟨Nat.ne_of_gt hlt,hne⟩⟩
  show HdOk s.tlist (⟨s.next,fcn,d⟩ :: s.stack) s.running e (Function.update s.hds d x e)
  by_cases he : e = d
  · rw [he,Function.update_self]
    exact hx
  · rw [Function.update_of_ne he]
    obtain ⟨hp,ho,hw,hc,hl,hi,hrd,hg⟩ := h.hds e
    refine ⟨hp,ho,hw,hc,hl,List.forall_mem_cons.mpr ⟨fun h1 => absurd h1.symm he,hi⟩,
      List.forall_mem_cons.mpr ⟨fun h1 => absurd h1.symm he,hrd⟩,fun h1 => ?_⟩
    obtain ⟨g1,g2,g3,g4,g5,g6,g7⟩ := hg h1
    exact ⟨g1,g2,g3,g4,g5,List.forall_mem_cons.mpr ⟨fun h2 => he h2.symm,g6⟩,g7⟩

theorem Inv.lisUntmout (h : Inv s) (call : ℕ) : Inv (s.lisUntmout call) := by
  have hsub : (s.lisUntmout call).stack ⊆ s.stack := List.filter_subset_self _
  refine ⟨h.nonzero,h.nodup,fun k hk => h.kinds k (hsub hk),h.calls.sublist (List.filter_sublist.map _),
    fun k hk => h.lt k (hsub hk),fun r hr hf => ?_,h.body,
    fun e => (h.hds e).mono (List.Subset.refl _) hsub (List.Subset.refl _),h.hits⟩
  obtain ⟨hlt,hne⟩ := h.spent r hr hf
  exact ⟨hlt,fun k hk => hne k (hsub hk)⟩

theorem lisUntmout_ne {s : HeadTimers} (call : ℕ) : ∀ k ∈ (s.lisUntmout call).stack, k ∈ s.stack ∧ k.call ≠ call := by
  intro k hk
  obtain ⟨hm,hne⟩ := List.mem_filter.mp hk
  exact ⟨hm,by simpa using hne⟩

/-! ## The scan timer -/

theorem Inv.hold (h : Inv s) (hrel : (s.hds d).released = false) (hidle : (s.hds d).writer = .idle)
    (hnew : handle ∉ s.tlist.map Tmo.handle) (h0 : (s.hds d).sdScantimer = 0) (hf : Fresh s handle) :
    Inv ((s.timeoutFcn handle .addToScanl d).setHd d { s.hds d with writer := .assign handle }) := by
  have hx := h.hds d
  have hk : handle ≠ 0 → ¬ Keeps (s.hds d) handle := fun hz => hf hz d
  refine h.timeoutFcn hf hnew ?_ hrel (fun _ => .inl rfl) fun hz => ?_
  · refine { hx with placed := fun t ht hd => ?_, owned := fun t ht => ?_, writerZero := fun _ _ => h0,
                     gone := fun h1 => absurd (hrel.symm.trans h1) (by decide) }
    · refine (hx.placed t ht hd).scan rfl rfl fun hp => .inr ⟨?_,by simp⟩
      rcases hp with hp | hp
      · exact absurd (hidle.symm.trans hp) (by simp)
      · exact hp.1
    · obtain ⟨o1,o2,o3,o4,o5⟩ := hx.owned t ht
      refine ⟨o1,o2,fun h1 => ?_,o4,o5⟩
      have he : handle = t.handle := by simpa using h1
      exact absurd (he ▸ List.mem_map_of_mem ht) hnew
  · refine ⟨fun h1 => absurd (h0.symm.trans h1).symm hz,fun h1 => absurd (.inr (.inl h1)) (hk hz),fun _ => ⟨rfl,rfl⟩,
      fun h1 => absurd (.inr (.inr (.inr (.inl h1)))) (hk hz),fun h1 => absurd (.inr (.inr (.inr (.inr h1)))) (hk hz)⟩

theorem Inv.assigned (h : Inv s) (hw : (s.hds d).writer = .assign handle) :
    Inv (s.setHd d { s.hds d with sdScantimer := handle, writer := .idle }) := by
  have hx := h.hds d
  refine h.setHd { hx with placed := fun t ht hd => ?_, owned := fun t ht => ?_, writerZero := fun _ h1 => ?_,
                           gone := fun h1 => ?_ }
  · refine (hx.placed t ht hd).scan rfl rfl fun hp => .inr ⟨?_,by simp⟩
    rcases hp with hp | ⟨hp,-⟩
    · rw [hw] at hp
      simpa using hp
    · exact absurd ((hx.writerZero handle hw).symm.trans hp).symm (h.nonzero t ht)
  · obtain ⟨o1,o2,o3,o4,o5⟩ := hx.owned t ht
    exact ⟨fun h1 => o3 (hw.trans (congrArg Writer.assign h1)),o2,fun h1 => absurd h1 (by simp),o4,o5⟩
  · simp at h1
  · obtain ⟨-,g2,-⟩ := hx.gone h1
    exact absurd (hw.symm.trans g2) (by simp)

theorem Inv.send (h : Inv s) (hrel : (s.hds d).released = false) (hidle : (s.hds d).writer = .idle) :
    Inv ((s.untimeout (s.hds d).sdScantimer [.addToScanl] d).setHd d { s.hds d with writer := .clear }) := by
  have hx := h.hds d
  refine (h.untimeout _ _ d fun t ht he => ?_).setHd ?_
  · obtain ⟨h1,h2⟩ := (hx.owned t ht).scan he.symm
    exact ⟨by simp [h2],h1⟩
  have hu : HdOk (s.untimeout (s.hds d).sdScantimer [.addToScanl] d).tlist s.stack s.running d (s.hds d) :=
    hx.mono (List.filter_subset_self _) (List.Subset.refl _) (List.Subset.refl _)
  refine { hu with placed := fun t ht hd => ?_, owned := fun t ht => ?_, writerZero := fun _ h1 => absurd h1 (by simp),
                   gone := fun h1 => absurd (hrel.symm.trans h1) (by decide) }
  · have hne : t.handle ≠ (s.hds d).sdScantimer := by simpa using (List.mem_filter.mp ht).2
    refine (hu.placed t ht hd).scan rfl rfl fun hp => ?_
    rcases hp with hp | ⟨hp,-⟩
    · exact absurd (hidle.symm.trans hp) (by simp)
    · exact absurd hp.symm hne
  · exact { hu.owned t ht with writer := fun h1 => absurd h1 (by simp) }

theorem Inv.cleared (h : Inv s) (hw : (s.hds d).writer = .clear) :
    Inv (s.setHd d { s.hds d with sdScantimer := 0, writer := .idle }) := by
  have hx := h.hds d
  refine h.setHd { hx with placed := fun t ht hd => ?_, owned := fun t ht => ?_, writerZero := fun _ _ => rfl,
                           gone := fun h1 => ?_ }
  · refine (hx.placed t ht hd).scan rfl rfl fun hp => ?_
    rcases hp with hp | ⟨-,hp⟩
    · exact absurd (hw.symm.trans hp) (by simp)
    · exact absurd hw hp
  · exact { hx.owned t ht with scan := fun h1 => absurd h1.symm (h.nonzero t ht), writer := fun h1 => absurd h1 (by simp) }
  · obtain ⟨-,g2,-⟩ := hx.gone h1
    exact absurd (hw.symm.trans g2) (by simp)

/- `add_to_scanl` where the handle is that of the timer that has expired. -/
theorem Inv.clearScantimer (h : Inv s) (he : Expired s (s.hds d).sdScantimer) :
    Inv (s.setHd d { s.hds d with sdScantimer := 0 }) := by
  have hx := h.hds d
  refine h.setHd { hx with placed := fun t ht hd => ?_, owned := fun t ht => ?_, writerZero := fun _ _ => rfl }
  · exact (hx.placed t ht hd).scan rfl rfl fun hp => hp.imp id fun hp => absurd hp.1.symm (he t ht)
  · exact { hx.owned t ht with scan := fun h1 => absurd h1.symm (h.nonzero t ht) }

/-! ## The timers on the stack -/

theorem Inv.ioctl (h : Inv s) (hrel : (s.hds d).released = false) (hioc : (s.hds d).ioc = none) (timed : Bool) :
    Inv { s.setHd d { s.hds d with stioctmr := true, ioc := some s.next } with
      next := s.next + 1
      stack := if timed then ⟨s.next,.lisDoTmout,d⟩ :: s.stack else s.stack } := by
  have hx := h.hds d
  have hnone : ∀ k ∈ s.stack, k.hd = d → k.fcn ≠ .lisDoTmout := by
    intro k hk hd hf
    exact absurd (hioc.symm.trans (hx.ioc k hk hd hf).1) (by simp)
  have hy : HdOk s.tlist s.stack s.running d { s.hds d with stioctmr := true, ioc := some s.next } :=
    { hx with ioc := fun k hk hd hf => absurd hf (hnone k hk hd), gone := fun h1 => absurd (hrel.symm.trans h1) (by decide),
              owned := fun t ht => { hx.owned t ht with } }
  cases timed with
  | true =>
    refine h.push (.inl rfl) { hy with ioc := List.forall_mem_cons.mpr ⟨fun _ _ => ⟨rfl,rfl⟩,hy.ioc⟩,
                                       reads := List.forall_mem_cons.mpr ⟨fun _ h1 => absurd h1 (by simp),hy.reads⟩,
                                       gone := fun h1 => absurd (hrel.symm.trans h1) (by decide) }
  | false =>
    obtain ⟨i1,i2,i3,i4,i5,i6,i7,i8,i9⟩ := h.setHd hy
    exact ⟨i1,i2,i3,i4,fun k hk => Nat.lt_succ_of_lt (i5 k hk),
      fun r hr hf => ⟨Nat.lt_succ_of_lt (i6 r hr hf).1,(i6 r hr hf).2⟩,i7,i8,i9⟩

theorem Inv.iocEnd (h : Inv s) (hioc : (s.hds d).ioc = some call) :
    Inv ((s.lisUntmout call).setHd d { s.hds d with stioctmr := false, ioc := none }) := by
  have hx := (h.lisUntmout call).hds d
  refine (h.lisUntmout call).setHd { hx with owned := fun t ht => { hx.owned t ht with }, ioc := fun k hk hd hf => ?_,
                                             gone := fun h1 => ?_ }
  · obtain ⟨h1,-⟩ := hx.ioc k hk hd hf
    exact absurd (Option.some.inj (h1.symm.trans hioc)) (lisUntmout_ne call k hk).2
  · obtain ⟨-,-,g3,-⟩ := hx.gone h1
    exact absurd (hioc.symm.trans g3) (by simp)

/- The ioctl ends without `lis_untmout` when STIOCTMR was cleared. -/
theorem Inv.iocDone (h : Inv s) (hioc : (s.hds d).ioc = some call) (htmr : (s.hds d).stioctmr = false) :
    Inv (s.setHd d { s.hds d with ioc := none }) := by
  have hx := h.hds d
  refine h.setHd { hx with owned := fun t ht => { hx.owned t ht with }, ioc := fun k hk hd hf => ?_, gone := fun h1 => ?_ }
  · exact absurd (htmr.symm.trans (hx.ioc k hk hd hf).2) (by decide)
  · obtain ⟨-,-,g3,-⟩ := hx.gone h1
    exact absurd (hioc.symm.trans g3) (by simp)

/- `lis_do_tmout` where STIOCTMR is set for the call of its own. -/
theorem Inv.clearIoctmr (h : Inv s) (hr : r ∈ s.running) (hf : r.fcn = .lisDoTmout)
    (ha : (s.hds r.hd).stioctmr = true → (s.hds r.hd).ioc = some r.call) :
    Inv (s.setHd r.hd { s.hds r.hd with stioctmr := false }) := by
  have hx := h.hds r.hd
  refine h.setHd { hx with owned := fun t ht => { hx.owned t ht with }, ioc := fun k hk hd hfk => ?_ }
  obtain ⟨h1,h2⟩ := hx.ioc k hk hd hfk
  exact absurd (Option.some.inj (h1.symm.trans (ha h2))) ((h.spent r hr hf).2 k hk)

theorem Inv.recvfd (h : Inv s) (hrel : (s.hds d).released = false) :
    Inv { s.setHd d { s.hds d with reads := s.next :: (s.hds d).reads } with
      next := s.next + 1
      stack := ⟨s.next,.lisDoRdTmout,d⟩ :: s.stack } := by
  have hx := h.hds d
  refine h.push (.inr rfl) { hx with owned := fun t ht => { hx.owned t ht with },
                                     ioc := List.forall_mem_cons.mpr ⟨fun _ h1 => absurd h1 (by simp),hx.ioc⟩,
                                     reads := List.forall_mem_cons.mpr ⟨fun _ _ => by simp,fun k hk hd hf => ?_⟩,
                                     gone := fun h1 => absurd (hrel.symm.trans h1) (by decide) }
  exact List.mem_cons_of_mem _ (hx.reads k hk hd hf)

theorem Inv.rdEnd (h : Inv s) (hr : call ∈ (s.hds d).reads) :
    Inv ((s.lisUntmout call).setHd d { s.hds d with reads := (s.hds d).reads.filter fun n => n ≠ call }) := by
  have hx := (h.lisUntmout call).hds d
  refine (h.lisUntmout call).setHd { hx with owned := fun t ht => { hx.owned t ht with }, reads := fun k hk hd hf => ?_,
                                             gone := fun h1 => ?_ }
  · exact List.mem_filter.mpr ⟨hx.reads k hk hd hf,by simpa using (lisUntmout_ne call k hk).2⟩
  · obtain ⟨-,-,-,g4,-⟩ := hx.gone h1
    rw [show (s.hds d).reads = [] from g4] at hr
    exact absurd hr (by simp)

/-! ## The close timers -/

/- Only while `close_action` is in it can a close timer run. -/
theorem Placed.closer (hp : Placed x t) (hc : ∀ n, x.closer ≠ .assignClose n ∧ x.closer ≠ .assignFlush n)
    (hw : x.closer ≠ .waitClose ∧ x.closer ≠ .waitFlush) : t.fcn ≠ .lisWakeupClose ∧ t.fcn ≠ .lisWakeupFlush := by
  unfold Placed at hp
  refine ⟨fun hf => ?_,fun hf => ?_⟩
  · rw [hf] at hp
    exact hp.elim (hc _).1 fun hp => hw.1 hp.1
  · rw [hf] at hp
    exact hp.elim (hc _).2 fun hp => hw.2 hp.1

/- `close_action` has no close timer, and has not come to the flush. -/
def Closer.between : Closer → Bool
  | .none | .start | .middle => true
  | _ => false

theorem Closer.between_cases {c : Closer} (h : Closer.between c = true) :
    Closer.settled c = true ∧ Closer.late c = false ∧ c ≠ .done ∧ (c ≠ .waitClose ∧ c ≠ .waitFlush) ∧
      ∀ n, c ≠ .assignClose n ∧ c ≠ .assignFlush n := by
  cases c <;> simp [Closer.between,Closer.settled,Closer.late] at h ⊢

/- Any head record of which only the place in `close_action` differs. -/
theorem HdOk.goOn (hx : HdOk tl sk rs d x) {c : Closer} (hb : Closer.between x.closer = true)
    (hc : ∀ t ∈ tl, c ≠ .assignClose t.handle ∧ c ≠ .assignFlush t.handle) : HdOk tl sk rs d { x with closer := c } := by
  obtain ⟨hset,hlate,hdone,hwait,hassign⟩ := Closer.between_cases hb
  refine { hx with placed := fun t ht he => ?_, owned := fun t ht => ?_, closerZero := fun _ => hx.closerZero hset,
                   late := fun r hr hd hf => absurd ((hx.late r hr hd hf).symm.trans hlate) (by decide),
                   gone := fun h1 => absurd (hx.gone h1).1 hdone }
  · obtain ⟨h1,h2⟩ := (hx.placed t ht he).closer hassign hwait
    have hp := hx.placed t ht he
    unfold Placed at hp ⊢
    split at hp
    · exact hp
    · exact absurd ‹_› h1
    · exact absurd ‹_› h2
    · exact hp
  · exact { hx.owned t ht with assignClose := fun h1 => absurd h1 (hc t ht).1,
                               assignFlush := fun h1 => absurd h1 (hc t ht).2 }

theorem Inv.goOn (h : Inv s) {c : Closer} (hb : Closer.between (s.hds d).closer = true)
    (hc : ∀ n, c ≠ .assignClose n ∧ c ≠ .assignFlush n) : Inv (s.setHd d { s.hds d with closer := c }) :=
  h.setHd ((h.hds d).goOn hb fun t _ => hc t.handle)

/- `close_action` sets a close timer. -/
theorem Inv.setTimer (h : Inv s) {c : Closer} (b : Bool) (hb : Closer.between (s.hds d).closer = true)
    (hnew : handle ∉ s.tlist.map Tmo.handle) (hf : Fresh s handle)
    (hc : (c = .assignClose handle ∧ fcn = .lisWakeupClose) ∨ (c = .assignFlush handle ∧ fcn = .lisWakeupFlush)) :
    Inv ((s.timeoutFcn handle fcn d).setHd d { s.hds d with strflushwt := b, closer := c }) := by
  have hx := h.hds d
  have hrel : (s.hds d).released = false := by
    by_contra hr
    exact (Closer.between_cases hb).2.2.1 (hx.gone (by simpa using hr)).1
  have hother : ∀ t ∈ s.tlist, c ≠ .assignClose t.handle ∧ c ≠ .assignFlush t.handle := by
    intro t ht
    have hne : t.handle ≠ handle := fun he => hnew (he ▸ List.mem_map_of_mem ht)
    rcases hc with ⟨rfl,-⟩ | ⟨rfl,-⟩
    · exact ⟨fun h1 => hne (Closer.assignClose.inj h1).symm,by simp⟩
    · exact ⟨by simp,fun h1 => hne (Closer.assignFlush.inj h1).symm⟩
  have hy := hx.goOn hb hother
  refine h.timeoutFcn hf hnew { hy with owned := fun t ht => { hy.owned t ht with } } hrel (fun _ => ?_) fun hz => ?_
  · rcases hc with ⟨rfl,rfl⟩ | ⟨rfl,rfl⟩
    · exact .inl rfl
    · exact .inl rfl
  · have hk := hf hz d
    refine ⟨fun h1 => absurd (.inl h1) hk,fun h1 => absurd (.inr (.inl h1)) hk,
      fun h1 => absurd (.inr (.inr (.inl h1))) hk,fun h1 => ?_,fun h1 => ?_⟩
    · rcases hc with ⟨rfl,rfl⟩ | ⟨rfl,rfl⟩
      · exact ⟨rfl,rfl⟩
      · exact absurd h1 (by simp)
    · rcases hc with ⟨rfl,rfl⟩ | ⟨rfl,rfl⟩
      · exact absurd h1 (by simp)
      · exact ⟨rfl,rfl⟩

theorem Inv.closeAssigned (h : Inv s) {c : Closer}
    (hc : ((s.hds d).closer = .assignClose handle ∧ c = .waitClose) ∨
      ((s.hds d).closer = .assignFlush handle ∧ c = .waitFlush)) :
    Inv (s.setHd d { s.hds d with sdCloseTimer := handle, closer := c }) := by
  have hx := h.hds d
  refine h.setHd { hx with placed := fun t ht he => ?_, owned := fun t ht => ?_, closerZero := fun h1 => ?_,
                           late := fun r hr hd hf => ?_, gone := fun h1 => ?_ }
  · refine (hx.placed t ht he).close rfl rfl (fun hp => .inr ?_) fun hp => .inr ?_
    · rcases hc with ⟨hc,rfl⟩ | ⟨hc,rfl⟩
      · exact ⟨rfl,by simpa [hc] using hp⟩
      · exact absurd hp (by simp [hc])
    · rcases hc with ⟨hc,rfl⟩ | ⟨hc,rfl⟩
      · exact absurd hp (by simp [hc])
      · exact ⟨rfl,by simpa [hc] using hp⟩
  · obtain ⟨o1,o2,o3,o4,o5⟩ := hx.owned t ht
    refine ⟨o1,fun h1 => ?_,o3,fun h1 => ?_,fun h1 => ?_⟩
    · rcases hc with ⟨hc,-⟩ | ⟨hc,-⟩
      · exact ⟨(o4 (hc.trans (congrArg Closer.assignClose h1))).1,.inl (o4 (hc.trans (congrArg Closer.assignClose h1))).2⟩
      · exact ⟨(o5 (hc.trans (congrArg Closer.assignFlush h1))).1,.inr (o5 (hc.trans (congrArg Closer.assignFlush h1))).2⟩
    · rcases hc with ⟨-,rfl⟩ | ⟨-,rfl⟩ <;> cases h1
    · rcases hc with ⟨-,rfl⟩ | ⟨-,rfl⟩ <;> cases h1
  · rcases hc with ⟨-,rfl⟩ | ⟨-,rfl⟩ <;> cases h1
  · have h1 := hx.late r hr hd hf
    rcases hc with ⟨hc,rfl⟩ | ⟨-,rfl⟩
    · rw [hc] at h1
      exact h1
    · rfl
  · have h2 := (hx.gone h1).1
    rcases hc with ⟨hc,-⟩ | ⟨hc,-⟩
    · exact absurd (hc.symm.trans h2) (by simp)
    · exact absurd (hc.symm.trans h2) (by simp)

/- The wait is over and `close_action` cancels its timer. -/
theorem Inv.waited (h : Inv s) {c : Closer} {n : ℕ}
    (hc : ((s.hds d).closer = .waitClose ∧ c = .clearClose ∧ fcn = .lisWakeupClose) ∨
      ((s.hds d).closer = .waitFlush ∧ c = .clearFlush ∧ fcn = .lisWakeupFlush)) :
    Inv ((s.untimeoutIf (s.hds d).sdCloseTimer [fcn] d).setHd d { s.hds d with sdClosing := n, closer := c }) := by
  have hx := h.hds d
  obtain ⟨hsub,hstack,hrun⟩ := untimeoutIf_sub (s := s) (s.hds d).sdCloseTimer [fcn] d
  have hexp := untimeoutIf_expired h (s.hds d).sdCloseTimer [fcn] d
  refine (h.untimeoutIf _ _ d fun t ht he => ?_).setHd ?_
  · obtain ⟨h1,h2⟩ := (hx.owned t ht).close he.symm
    refine ⟨?_,h1⟩
    have hp := hx.placed t ht h1
    unfold Placed at hp
    rcases h2 with h2 | h2 <;> rw [h2] at hp ⊢
    · rcases hc with ⟨hc,-,rfl⟩ | ⟨hc,-,rfl⟩
      · simp
      · exact absurd hp (by simp [hc])
    · rcases hc with ⟨hc,-,rfl⟩ | ⟨hc,-,rfl⟩
      · exact absurd hp (by simp [hc])
      · simp
  · have hu : HdOk (s.untimeoutIf (s.hds d).sdCloseTimer [fcn] d).tlist
        (s.untimeoutIf (s.hds d).sdCloseTimer [fcn] d).stack (s.untimeoutIf (s.hds d).sdCloseTimer [fcn] d).running d
        (s.hds d) :=
      hx.mono hsub (hstack ▸ List.Subset.refl _) (hrun ▸ List.Subset.refl _)
    refine { hu with placed := fun t ht he => ?_, owned := fun t ht => ?_, closerZero := fun h1 => ?_,
                     late := fun r hr hd hf => ?_, gone := fun h1 => ?_ }
    · refine (hu.placed t ht he).close rfl rfl (fun hp => ?_) fun hp => ?_
      · rcases hp with hp | ⟨-,hp⟩
        · rcases hc with ⟨hc,-⟩ | ⟨hc,-⟩ <;> simp [hc] at hp
        · exact absurd hp.symm (hexp t ht)
      · rcases hp with hp | ⟨-,hp⟩
        · rcases hc with ⟨hc,-⟩ | ⟨hc,-⟩ <;> simp [hc] at hp
        · exact absurd hp.symm (hexp t ht)
    · refine { hu.owned t ht with assignClose := fun h1 => ?_, assignFlush := fun h1 => ?_ }
      · rcases hc with ⟨-,rfl,-⟩ | ⟨-,rfl,-⟩ <;> cases h1
      · rcases hc with ⟨-,rfl,-⟩ | ⟨-,rfl,-⟩ <;> cases h1
    · rcases hc with ⟨-,rfl,-⟩ | ⟨-,rfl,-⟩ <;> cases h1
    · have h1 := hu.late r hr hd hf
      rcases hc with ⟨hc,rfl,-⟩ | ⟨-,rfl,-⟩
      · rw [hc] at h1
        exact h1
      · rfl
    · have h2 := (hu.gone h1).1
      rcases hc with ⟨hc,-⟩ | ⟨hc,-⟩
      · exact absurd (hc.symm.trans h2) (by simp)
      · exact absurd (hc.symm.trans h2) (by simp)

theorem Inv.closeCleared (h : Inv s) {c : Closer} (hc : ((s.hds d).closer = .clearClose ∧ c = .middle) ∨
    ((s.hds d).closer = .clearFlush ∧ c = .done)) :
    Inv (s.setHd d { s.hds d with sdCloseTimer := 0, closer := c }) := by
  have hx := h.hds d
  have hnone : ∀ t ∈ s.tlist, t.hd = d → t.fcn ≠ .lisWakeupClose ∧ t.fcn ≠ .lisWakeupFlush := by
    intro t ht he
    rcases hc with ⟨hc,-⟩ | ⟨hc,-⟩
    · exact (hx.placed t ht he).closer (by simp [hc]) (by simp [hc])
    · exact (hx.placed t ht he).closer (by simp [hc]) (by simp [hc])
  refine h.setHd { hx with placed := fun t ht he => ?_, owned := fun t ht => ?_, closerZero := fun _ => rfl,
                           late := fun r hr hd hf => ?_, gone := fun h1 => ?_ }
  · have hp := hx.placed t ht he
    obtain ⟨h1,h2⟩ := hnone t ht he
    unfold Placed at hp ⊢
    split at hp
    · exact hp
    · exact absurd ‹_› h1
    · exact absurd ‹_› h2
    · exact hp
  · refine { hx.owned t ht with close := fun h1 => absurd h1.symm (h.nonzero t ht), assignClose := fun h1 => ?_,
                                assignFlush := fun h1 => ?_ }
    · rcases hc with ⟨-,rfl⟩ | ⟨-,rfl⟩ <;> cases h1
    · rcases hc with ⟨-,rfl⟩ | ⟨-,rfl⟩ <;> cases h1
  · have h1 := hx.late r hr hd hf
    rcases hc with ⟨hc,rfl⟩ | ⟨-,rfl⟩
    · rw [hc] at h1
      exact h1
    · rfl
  · have h2 := (hx.gone h1).1
    rcases hc with ⟨hc,-⟩ | ⟨hc,-⟩
    · exact absurd (hc.symm.trans h2) (by simp)
    · exact absurd (hc.symm.trans h2) (by simp)

/- A handler that wakes the closer. -/
theorem Inv.clearCloseTimer (h : Inv s) (he : Expired s (s.hds d).sdCloseTimer) :
    Inv (s.setHd d { s.hds d with sdCloseTimer := 0 }) := by
  have hx := h.hds d
  refine h.setHd { hx with placed := fun t ht hd => ?_, owned := fun t ht => ?_, closerZero := fun _ => rfl }
  · exact (hx.placed t ht hd).close rfl rfl (fun hp => hp.imp id fun hp => absurd hp.2.symm (he t ht))
      fun hp => hp.imp id fun hp => absurd hp.2.symm (he t ht)
  · exact { hx.owned t ht with close := fun h1 => absurd h1.symm (h.nonzero t ht) }

theorem Inv.wakeup (h : Inv s) (hr : r ∈ s.running) (ha : r.fcn ≠ .lisWakeupFlush → (s.hds r.hd).closer ≠ .waitFlush) :
    Inv (s.untimeout (s.hds r.hd).sdCloseTimer
      [if r.fcn = .lisWakeupFlush then .lisWakeupFlush else .lisWakeupClose] r.hd) := by
  have hx := h.hds r.hd
  refine h.untimeout _ _ r.hd fun t ht he => ?_
  obtain ⟨h1,h2⟩ := (hx.owned t ht).close he.symm
  refine ⟨?_,h1⟩
  have hp := hx.placed t ht h1
  have hassign : Closer.settled (s.hds r.hd).closer = false := by
    by_contra hs
    have hs1 : Closer.settled (s.hds r.hd).closer = true := by simpa using hs
    exact h.nonzero t ht (he.trans (hx.closerZero hs1))
  unfold Placed at hp
  by_cases hf : r.fcn = .lisWakeupFlush
  · have hlate := hx.late r hr rfl hf
    rw [if_pos hf]
    rcases h2 with h2 | h2
    · rw [h2] at hp
      rcases hp with hp | ⟨hp,-⟩ <;> rw [hp] at hlate <;> cases hlate
    · simp [h2]
  · rw [if_neg hf]
    rcases h2 with h2 | h2
    · simp [h2]
    · rw [h2] at hp
      rcases hp with hp | ⟨hp,-⟩
      · rw [hp] at hassign
        exact absurd hassign (by simp [Closer.settled])
      · exact absurd hp (ha hf)

/-! ## Release -/

theorem Inv.free (h : Inv s) (hc : (s.hds d).closer = .done) (hw : (s.hds d).writer = .idle)
    (hi : (s.hds d).ioc = none) (hrd : (s.hds d).reads = []) (he : Expired s (s.hds d).sdScantimer)
    (hr : ∀ r ∈ s.running, r.hd ≠ d) : Inv (s.setHd d { s.hds d with released := true }) := by
  have hx := h.hds d
  have hnone : ∀ t ∈ s.tlist, t.hd ≠ d := by
    intro t ht hd
    have hp := hx.placed t ht hd
    unfold Placed at hp
    split at hp
    · rcases hp with hp | ⟨hp,-⟩
      · exact absurd (hw.symm.trans hp) (by simp)
      · exact he t ht hp.symm
    · simp [hc] at hp
    · simp [hc] at hp
    · exact hp
  have hstack : ∀ k ∈ s.stack, k.hd ≠ d := by
    intro k hk hd
    rcases h.kinds k hk with hf | hf
    · exact absurd (hi.symm.trans (hx.ioc k hk hd hf).1) (by simp)
    · have hm := hx.reads k hk hd hf
      rw [hrd] at hm
      exact absurd hm (by simp)
  exact h.setHd { hx with owned := fun t ht => { hx.owned t ht with }, gone := fun _ => ⟨hc,hw,hi,hrd,hnone,hstack,hr⟩ }

/-! ## Expiry -/

theorem Inv.expire (h : Inv s) (ht : t ∈ s.tlist) :
    Inv { s with
      tlist := s.tlist.filter fun t => t.handle ≠ handle
      running := ⟨t.fcn,t.hd,0,t.fcn.body⟩ :: s.running } := by
  have hp := (h.hds t.hd).placed t ht rfl
  have hcut : Inv { s with tlist := s.tlist.filter fun t => t.handle ≠ handle } := by
    have hsub : (s.tlist.filter fun t => t.handle ≠ handle) ⊆ s.tlist := List.filter_subset_self _
    exact ⟨fun t ht => h.nonzero t (hsub ht),h.nodup.sublist (List.filter_sublist.map _),h.kinds,h.calls,h.lt,h.spent,
      h.body,fun e => (h.hds e).mono hsub (List.Subset.refl _) (List.Subset.refl _),h.hits⟩
  refine Inv.starts (r := ⟨t.fcn,t.hd,0,t.fcn.body⟩) hcut (h.safe.starts t ht) rfl (fun hf => ?_) fun hf => ?_
  · have hf1 : t.fcn = .lisWakeupFlush := hf
    unfold Placed at hp
    rw [hf1] at hp
    rcases hp with hp | ⟨hp,-⟩
    · exact congrArg Closer.late hp
    · exact congrArg Closer.late hp
  · have hf1 : t.fcn = .lisDoTmout := hf
    unfold Placed at hp
    rw [hf1] at hp
    exact hp.elim

theorem Inv.expireStacked (h : Inv s) (hk : k ∈ s.stack) :
    Inv { s.lisUntmout k.call with running := ⟨k.fcn,k.hd,k.call,k.fcn.body⟩ :: s.running } := by
  refine Inv.starts (r := ⟨k.fcn,k.hd,k.call,k.fcn.body⟩) (h.lisUntmout k.call) (h.safe.startsStacked k hk) rfl
    (fun hf => ?_) fun _ => ⟨h.lt k hk,fun m hm => (lisUntmout_ne k.call m hm).2⟩
  have hf1 : k.fcn = .lisWakeupFlush := hf
  rcases h.kinds k hk with h1 | h1
  · exact absurd (hf1.symm.trans h1) (by decide)
  · exact absurd (hf1.symm.trans h1) (by decide)

/-! ## One step -/

theorem Inv.part (h : Inv s) (hr : r ∈ s.running) {c : Part} (hc : c ∈ r.todo) (ha : PartAllowed s r c) :
    Inv (s.part r c) := by
  have hx := h.hds r.hd
  cases c with
  | clearScantimer => exact h.clearScantimer ha
  | untimeout => exact h.wakeup hr ha
  | clearCloseTimer => exact h.clearCloseTimer ha
  | up => exact h.setHd { hx with owned := fun t ht => { hx.owned t ht with } }
  | clearFlushwt => exact h.setHd { hx with owned := fun t ht => { hx.owned t ht with } }
  | clearIoctmr =>
    have hf : r.fcn = .lisDoTmout := by
      have hb := h.body r hr _ hc
      cases hf : r.fcn <;> rw [hf] at hb <;> simp [Fcn.body] at hb ⊢
    exact h.clearIoctmr hr hf ha
  | link => exact h
  | wake => exact h

theorem part_running (s : HeadTimers) (r : Run) (c : Part) : (s.part r c).running = s.running := by
  cases c <;> rfl

theorem step_run {i : ℕ} (hs : s.step (.run i) = some u) : ∃ r c l, s.running[i]? = some r ∧ r.todo = c :: l ∧
    u = { s.part r c with running := if l = [] then s.running.eraseIdx i else s.running.set i { r with todo := l } } := by
  simp only [step] at hs
  split at hs
  · cases hs
  next r hr =>
    split at hs
    · cases hs
    next c l hl =>
      exact ⟨r,c,l,hr,hl,(Option.some.inj hs).symm⟩

theorem Inv.run (h : Inv s) {i : ℕ} (ha : Allowed s (.run i)) (hs : s.step (.run i) = some u) : Inv u := by
  obtain ⟨r,c,l,hr,hl,rfl⟩ := step_run hs
  have hmem : r ∈ s.running := List.mem_of_getElem? hr
  have hpart := h.part hmem (hl ▸ List.mem_cons_self) (ha r hr c (by simp [hl]))
  refine hpart.running fun q hq => ?_
  rw [part_running]
  split_ifs at hq with h0
  · exact ⟨q,List.mem_of_mem_eraseIdx hq,rfl,rfl,rfl,List.Subset.refl _⟩
  · rcases List.mem_or_eq_of_mem_set hq with hq | rfl
    · exact ⟨q,hq,rfl,rfl,rfl,List.Subset.refl _⟩
    · exact ⟨r,hmem,rfl,rfl,rfl,hl ▸ List.subset_cons_self _ _⟩

theorem inv_step (h : Inv s) {a : Act} (ha : Allowed s a) (hs : s.step a = some u) : Inv u := by
  cases a with
  | hold d handle =>
    simp only [step] at hs
    split_ifs at hs with h1 h2 <;> cases hs
    · simp only [not_or,not_not,Bool.not_eq_true] at h1
      exact h.hold h1.1 h1.2.1 h1.2.2 h2 (ha h2)
    · exact h
  | assigned d =>
    simp only [step] at hs
    split at hs
    · cases hs
      exact h.assigned ‹_›
    · cases hs
  | send d =>
    simp only [step] at hs
    split_ifs at hs with h1 h2 <;> cases hs
    · exact h
    · simp only [not_or,not_not,Bool.not_eq_true] at h1
      exact h.send h1.1 h1.2
  | cleared d =>
    simp only [step] at hs
    split_ifs at hs with h1
    cases hs
    exact h.cleared h1
  | ioctl d timed =>
    simp only [step] at hs
    split_ifs at hs with h1 h2 <;> cases hs <;> simp only [not_or,not_not,Bool.not_eq_true] at h1
    · simpa [h2] using h.ioctl h1.1 h1.2 timed
    · simpa [h2] using h.ioctl h1.1 h1.2 timed
  | iocEnd d error =>
    simp only [step] at hs
    split at hs
    · cases hs
    next call hc =>
      split_ifs at hs with h1 <;> cases hs
      · simp only [Bool.and_eq_true,Bool.not_eq_true'] at h1
        exact h.iocDone hc h1.2
      · exact h.iocEnd hc
  | recvfd d =>
    simp only [step] at hs
    split_ifs at hs with h1
    cases hs
    exact h.recvfd (by simpa using h1)
  | rdEnd d call =>
    simp only [step] at hs
    split_ifs at hs with h1
    cases hs
    exact h.rdEnd h1
  | close d =>
    simp only [step] at hs
    split_ifs at hs with h1
    cases hs
    exact h.goOn (congrArg Closer.between h1) (by simp)
  | closeTimer d queued handle =>
    simp only [step] at hs
    split_ifs at hs with h1 h2 <;> cases hs <;> simp only [not_or,not_not] at h1
    · exact h.setTimer _ (congrArg Closer.between h1.1) h1.2 (ha h2) (.inl ⟨rfl,rfl⟩)
    · exact h.goOn (congrArg Closer.between h1.1) (by simp)
  | closeAssigned d =>
    simp only [step] at hs
    split at hs
    · cases hs
      exact h.closeAssigned (.inl ⟨‹_›,rfl⟩)
    · cases hs
      exact h.closeAssigned (.inr ⟨‹_›,rfl⟩)
    · cases hs
  | waited d signal =>
    simp only [step] at hs
    split_ifs at hs with h1 <;> cases hs
    · exact h.waited (.inl ⟨h1.1,rfl,rfl⟩)
    · exact h.waited (.inl ⟨h1.1,rfl,rfl⟩)
  | flushTimer d samestr handle =>
    simp only [step] at hs
    split_ifs at hs with h1 h2 <;> cases hs <;> simp only [not_or,not_not] at h1
    · exact h.setTimer _ (congrArg Closer.between h1.1) h1.2 (ha h2) (.inr ⟨rfl,rfl⟩)
    · exact h.goOn (congrArg Closer.between h1.1) (by simp)
  | flushed d signal =>
    simp only [step] at hs
    split_ifs at hs with h1
    cases hs
    exact h.waited (.inr ⟨h1.1,rfl,rfl⟩)
  | closeCleared d =>
    simp only [step] at hs
    split at hs
    · cases hs
      exact h.closeCleared (.inl ⟨‹_›,rfl⟩)
    · cases hs
      exact h.closeCleared (.inr ⟨‹_›,rfl⟩)
    · cases hs
  | answer d =>
    cases hs
    have hx := h.hds d
    exact h.setHd { hx with owned := fun t ht => { hx.owned t ht with } }
  | strwsrv d =>
    simp only [step] at hs
    split_ifs at hs with h1
    cases hs
    simp only [not_or,Bool.not_eq_true] at h1
    exact Inv.starts (r := ⟨.lisStrwsrv,d,0,Fcn.lisStrwsrv.body⟩) h h1.1 rfl (by simp) (by simp)
  | free d =>
    simp only [step] at hs
    split_ifs at hs with h1
    obtain ⟨hc,-,hw,hi,hrd,-⟩ := h1
    have hz : (s.hds d).sdCloseTimer = 0 := (h.hds d).closerZero (by simp [hc,Closer.settled])
    rw [untimeoutIf,if_pos hz] at hs
    cases hs
    exact h.free hc hw hi hrd ha.1 ha.2
  | expire handle =>
    simp only [step] at hs
    split at hs
    · cases hs
    next t ht =>
      cases hs
      exact h.expire (List.mem_of_find?_eq_some ht)
  | expireStacked call =>
    simp only [step] at hs
    split at hs
    · cases hs
    next k hk =>
      cases hs
      have he : k.call = call := by simpa using List.find?_some hk
      subst he
      exact h.expireStacked (List.mem_of_find?_eq_some hk)
  | run i => exact h.run ha hs

/-! ## Runs -/

/- A write that is held, the next one, and the close. -/
def written : List Act :=
  [.hold 0 1,.assigned 0,.send 0,.cleared 0,.close 0,.closeTimer 0 false 0,.flushTimer 0 false 0,.free 0]

end CSLiS.Timeout.HeadTimers
