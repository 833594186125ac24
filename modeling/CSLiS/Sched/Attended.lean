import CSLiS.Sched.Runners

/-!
# Work that is scheduled has a runner

Work is watched as long as a runner thread is going to read `lis_runq_req_cnt` again, or has an up
pending, or a call of `lis_setqsched` has still to decide. A thread leaves its loop only when it has read
that nothing is counted, so that what counts is that the count never says less than there is.
-/

namespace CSLiS.RunQueues
open Lib Lib.Exec Lib.Crew

/- The thread is going to read `lis_runq_req_cnt`. -/
def Place.looks (p : Place) : Bool := p.inside && p != .out

def Cpu.attends (x : Cpu) : Bool := x.place.looks || (x.place.lives && decide (0 < x.sem))

/- The thread handles the bufcalls: it has found the flag set; it has counted it down, too. -/
def Cpu.found (x : Cpu) : Bool := x.place == .bcDec || x.place == .dobufcall
def Cpu.held (x : Cpu) : Bool := x.place == .dobufcall

/- The flag is set, and not counted yet. -/
def Task.pending : Task → Bool
  | .flagged _ => true
  | _ => false

/- The call has not seen another CPU, nor a count of running threads but zero. -/
def Task.decides (n : ℕ) : Task → Bool
  | .flagged _ | .calls _ | .runqCnt _ | .queuesRunning _ | .raise _ _ _ | .lastRaise _ => true
  | .reqCnt _ running => running == 0
  | .loop my cpu _ => (List.range cpu).all (· == my)
  | .last my => (List.range n).all (· == my)
  | _ => false

namespace Runners

variable (s : Runners)

def Busy : Prop := s.lisQhead ≠ [] ∨ s.lisScanqhead ≠ [] ∨ s.lisStrbcflag = true

def Started (c : ℕ) : Prop := ∃ x, s.cpus[c]? = some x ∧ x.place.started = true

/-- Work has a runner, when no task is at linking some or in `lis_setqsched`; and no semaphore of a CPU
without a thread has been raised. -/
structure Served : Prop where
  runner : s.Busy → (∃ x ∈ s.cpus, x.place.lives = true) → (∀ k ∈ s.tasks, k = .idle) →
    0 < s.lisRunqReqCnt ∧ ∃ x ∈ s.cpus, x.place.lives = true ∧ (x.place.inside = true ∨ 0 < x.sem)
  raised : ∀ c ∈ s.raised, s.Started c

def Awake : Prop := ∃ x ∈ s.cpus, x.attends = true

/-- Somebody is going to see what is linked now; another one than task `t`. -/
def Watched : Prop := s.Awake ∨ ∃ k ∈ s.tasks, k.decides s.lisRunqCnt = true
def WatchedBut (t : ℕ) : Prop := s.Awake ∨ ∃ u k, u ≠ t ∧ s.tasks[u]? = some k ∧ k.decides s.lisRunqCnt = true

/- A thread is between counting the bufcall flag down and clearing it. -/
def Handling : Prop := 0 < tally Cpu.held s.cpus

/- How many queues `deschedule` takes off. -/
def taken (rq wq : ℕ) (scan run : Bool) : ℕ :=
  (s.lisScanqhead.length - (if scan then s.lisScanqhead.filter (· != wq) else s.lisScanqhead).length) +
    (s.lisQhead.length - (if run then s.lisQhead.filter fun q => q != rq && q != wq else s.lisQhead).length)

/-- A queue is put on the scan list, and a call of `lis_setqsched` leaves its work to the one in progress, only
while it is watched; only one thread finds `lis_strbcflag`, and while it is set the count stays positive; the
semaphores are those of CPUs with a thread; no thread exits. -/
def Guard (s : Runners) : Act → Prop
  | .addToScanl _ => s.Watched
  | .deschedule rq wq scan run => s.Handling → (s.taken rq wq scan run : ℤ) < s.lisRunqReqCnt
  | .task t => ∀ k, s.tasks[t]? = some k →
      (∀ my, k = .calls my → s.qschedRunning = true → s.WatchedBut t) ∧
        (∀ my cpu thresh, k = .raise my cpu thresh → s.Started cpu) ∧ ∀ my, k = .lastRaise my → s.Started my
  | .run c => ∀ x, s.cpus[c]? = some x →
      (x.place = .scan → s.lisScanqhead ≠ [] → s.Handling → 1 < s.lisRunqReqCnt) ∧
        (x.place = .runq → s.lisQhead ≠ [] → s.Handling → 1 < s.lisRunqReqCnt) ∧
        (x.place = .bcTest → s.lisStrbcflag = true → ∀ y ∈ s.cpus, y.found = false) ∧
        (x.place = .bcDec → 1 < s.lisRunqReqCnt)
  | .signal c killed => killed = false ∧ ∀ x, s.cpus[c]? = some x → x.sigCnt < 4
  | _ => True

structure Inv : Prop where
  running : s.lisQueuesRunning = tally (fun x => x.place.running) s.cpus
  active : ∀ x ∈ s.cpus, x.active = x.place.active.toNat
  threads : s.lisRunqCnt = tally (fun x => x.place.started) s.cpus
  alive : ∀ x ∈ s.cpus, x.place ≠ .exited
  one : tally Cpu.found s.cpus ≤ 1
  flag : 0 < tally Cpu.found s.cpus → s.lisStrbcflag = true
  kept : s.Handling → 0 < s.lisRunqReqCnt
  counted : ((s.lisQhead.length + s.lisScanqhead.length +
    (if s.lisStrbcflag = true ∧ tally Cpu.held s.cpus = 0 then 1 else 0) : ℕ) : ℤ) ≤
      s.lisRunqReqCnt + (tally Task.pending s.tasks : ℕ)
  watched : 0 < s.lisRunqCnt → s.Busy → s.Watched
  raised : ∀ c ∈ s.raised, s.Started c

variable {s} {t : Runners} {c i : ℕ} {x y : Cpu} {k l : Task}

theorem held_le_found (l : List Cpu) : tally Cpu.held l ≤ tally Cpu.found l := by
  refine List.countP_mono_left fun x _ hx => ?_
  rw [Cpu.found,show (x.place == .dobufcall) = true from hx,Bool.or_true]

theorem tally_pos_mem {p : Cpu → Bool} {l : List Cpu} (h : 0 < tally p l) : ∃ x ∈ l, p x = true := List.countP_pos_iff.mp h

/- If nothing is counted, what there is is being looked after. -/
theorem Inv.uncounted (h : s.Inv) (h0 : s.lisRunqReqCnt ≤ 0) (hb : s.Busy) :
    (∃ y ∈ s.cpus, y.held = true) ∨ ∃ k ∈ s.tasks, k.pending = true := by
  by_cases hp : 0 < tally Task.pending s.tasks
  · exact Or.inr (List.countP_pos_iff.mp hp)
  · have hc := h.counted
    by_cases hh : 0 < tally Cpu.held s.cpus
    · exact Or.inl (tally_pos_mem hh)
    · have hlen : s.lisQhead.length = 0 ∧ s.lisScanqhead.length = 0 ∧
          ¬(s.lisStrbcflag = true ∧ tally Cpu.held s.cpus = 0) := by
        split_ifs at hc with hf
        · omega
        · exact ⟨by omega,by omega,hf⟩
      rcases hb with hb | hb | hb
      · exact absurd (List.length_eq_zero_iff.mp hlen.1) hb
      · exact absurd (List.length_eq_zero_iff.mp hlen.2.1) hb
      · exact absurd ⟨hb,by omega⟩ hlen.2.2

theorem held_attends (h : y.held = true) : y.attends = true := by
  have hp : y.place = .dobufcall := beq_iff_eq.mp h
  rw [Cpu.attends,hp]
  rfl

theorem pending_decides (h : k.pending = true) (n : ℕ) : k.decides n = true := by
  cases k <;> first | rfl | cases h

/- Who attends it is either the same as before, or it is the one that has moved. -/
theorem Awake.set (h : s.Awake) (hx : s.cpus[c]? = some x) (hc : t.cpus = s.cpus.set c y)
    (ha : x.attends = true → y.attends = true) : t.Awake := by
  obtain ⟨z,hz,hza⟩ := h
  rw [Awake,hc]
  obtain ⟨j,hj⟩ := List.mem_iff_getElem?.mp hz
  have hlt := (List.getElem?_eq_some_iff.mp hx).1
  by_cases hjc : j = c
  · subst hjc
    rw [hx] at hj
    obtain rfl := Option.some.inj hj
    exact ⟨y,List.mem_set hlt y,ha hza⟩
  · exact ⟨z,List.mem_iff_getElem?.mpr ⟨j,by rw [List.getElem?_set_ne (Ne.symm hjc)]; exact hj⟩,hza⟩

theorem awake_set (hx : s.cpus[c]? = some x) (hc : t.cpus = s.cpus.set c y) (ha : y.attends = true) : t.Awake := by
  rw [Awake,hc]
  exact ⟨y,List.mem_set (List.getElem?_eq_some_iff.mp hx).1 y,ha⟩

theorem started_set (hx : s.cpus[c]? = some x) (hc : t.cpus = s.cpus.set c y) (hs : y.place.started = x.place.started)
    (hi : s.Started i) : t.Started i := by
  obtain ⟨z,hz,hzs⟩ := hi
  have hlt := (List.getElem?_eq_some_iff.mp hx).1
  by_cases hic : i = c
  · subst hic
    rw [hx] at hz
    obtain rfl := Option.some.inj hz
    exact ⟨y,by rw [hc,List.getElem?_set_self hlt],hs.trans hzs⟩
  · exact ⟨z,by rw [hc,List.getElem?_set_ne (Ne.symm hic)]; exact hz,hzs⟩

/-- What a step of a runner thread keeps: the tallies go with the place of the one that moves. -/
theorem Inv.setCpu (h : s.Inv) (hx : s.cpus[c]? = some x) (hc : t.cpus = s.cpus.set c y) (ht : t.tasks = s.tasks)
    (hn : t.lisRunqCnt = s.lisRunqCnt) (hr : t.raised = s.raised) (hs : y.place.started = x.place.started)
    (hl : y.place ≠ .exited) (ha : y.active = y.place.active.toNat)
    (hq : t.lisQueuesRunning + x.place.running.toNat = s.lisQueuesRunning + y.place.running.toNat)
    (hone : tally Cpu.found s.cpus + y.found.toNat ≤ 1 + x.found.toNat)
    (hf : 0 < tally Cpu.found s.cpus + y.found.toNat - x.found.toNat → t.lisStrbcflag = true)
    (hk : 0 < tally Cpu.held s.cpus + y.held.toNat - x.held.toNat → 0 < t.lisRunqReqCnt)
    (hcount : ((t.lisQhead.length + t.lisScanqhead.length + (if t.lisStrbcflag = true ∧
      tally Cpu.held s.cpus + y.held.toNat = x.held.toNat then 1 else 0) : ℕ) : ℤ) ≤
        t.lisRunqReqCnt + (tally Task.pending s.tasks : ℕ))
    (hw : 0 < s.lisRunqCnt → t.Busy → t.Watched) : t.Inv := by
  have hrun := tally_set hx y fun x => x.place.running
  have hsta := tally_set hx y fun x => x.place.started
  have hfou := tally_set hx y Cpu.found
  have hhel := tally_set hx y Cpu.held
  rw [hs] at hsta
  have hset : ∀ z ∈ t.cpus, z ∈ s.cpus ∨ z = y := by
    rw [hc]
    exact fun z hz => List.mem_or_eq_of_mem_set hz
  have hrunning := h.running
  have hthreads := h.threads
  refine ⟨?_,fun z hz => ?_,?_,fun z hz => ?_,?_,fun hp => hf ?_,fun hp => hk ?_,?_,fun h0 hb => hw (hn ▸ h0) hb,fun i hi => ?_⟩
  · rw [hc]
    omega
  · rcases hset z hz with hz | rfl
    · exact h.active z hz
    · exact ha
  · rw [hc,hn]
    omega
  · rcases hset z hz with hz | rfl
    · exact h.alive z hz
    · exact hl
  · rw [hc]
    omega
  · rw [hc] at hp
    omega
  · rw [Handling,hc] at hp
    omega
  · have hiff : (t.lisStrbcflag = true ∧ tally Cpu.held t.cpus = 0) ↔
        (t.lisStrbcflag = true ∧ tally Cpu.held s.cpus + y.held.toNat = x.held.toNat) := by
      rw [hc]
      exact and_congr_right fun _ => ⟨fun h0 => by omega,fun h0 => by omega⟩
    simp only [hiff,ht]
    exact hcount
  · exact started_set hx hc hs (h.raised i (hr ▸ hi))

/-- A step within the loop that moves the thread, and neither finds nor clears the flag. -/
theorem Inv.move (h : s.Inv) (hx : s.cpus[c]? = some x) (n : ℕ) (hs : y.place.started = x.place.started)
    (hl : y.place ≠ .exited) (ha : y.active = y.place.active.toNat)
    (hq : n + x.place.running.toNat = s.lisQueuesRunning + y.place.running.toNat) (hfx : x.found = false)
    (hfy : y.found = false)
    (hw : y.attends = true ∨ (0 < s.lisRunqCnt → s.Busy → s.Watched → Watched ({ s with lisQueuesRunning := n }.setCpu c y))) :
    ({ s with lisQueuesRunning := n }.setCpu c y).Inv := by
  have hhx : x.held = false := (Bool.or_eq_false_iff.mp hfx).2
  have hhy : y.held = false := (Bool.or_eq_false_iff.mp hfy).2
  have hcount := h.counted
  refine h.setCpu hx rfl rfl rfl rfl hs hl ha hq ?_ (fun hp => h.flag ?_) (fun hp => h.kept ?_) ?_ fun h0 hb => ?_
  · rw [hfx,hfy]
    exact Nat.add_le_add_right h.one _
  · rw [hfx,hfy] at hp
    exact hp
  · rw [hhx,hhy] at hp
    exact hp
  · rw [hhx,hhy]
    exact hcount
  · exact hw.elim (fun ha => Or.inl (awake_set hx rfl ha)) fun hw => hw h0 hb (h.watched h0 hb)

/-- Queues are taken off the lists, and counted down. -/
theorem Inv.dequeue (h : s.Inv) {a b : List ℕ} {n : ℕ}
    (hlen : a.length + b.length + n = s.lisQhead.length + s.lisScanqhead.length)
    (hk : s.Handling → (n : ℤ) < s.lisRunqReqCnt) :
    ({ s with lisQhead := a, lisScanqhead := b, lisRunqReqCnt := s.lisRunqReqCnt - n } : Runners).Inv := by
  have hcount := h.counted
  refine ⟨h.running,h.active,h.threads,h.alive,h.one,h.flag,fun hh => ?_,?_,fun h0 hb => h.watched h0 ?_,h.raised⟩
  · have hn := hk hh
    show 0 < s.lisRunqReqCnt - n
    omega
  · show ((a.length + b.length + (if s.lisStrbcflag = true ∧ tally Cpu.held s.cpus = 0 then 1 else 0) : ℕ) : ℤ) ≤
      s.lisRunqReqCnt - n + (tally Task.pending s.tasks : ℕ)
    omega
  · by_contra hc
    simp only [Busy,not_or,not_not] at hc
    rw [hc.1,hc.2.1] at hlen
    simp only [List.length_nil] at hlen
    rcases hb with hb | hb | hb
    · have ha : 0 < a.length := List.length_pos_of_ne_nil hb
      omega
    · have hb : 0 < b.length := List.length_pos_of_ne_nil hb
      omega
    · exact hc.2.2 hb

theorem mem_set_of_ne {l : List Cpu} {z : Cpu} (hx : l[c]? = some x) (hz : z ∈ l) (hne : z ≠ x) : z ∈ l.set c y := by
  obtain ⟨j,hj⟩ := List.mem_iff_getElem?.mp hz
  have hjc : j ≠ c := by
    intro hc
    rw [hc,hx] at hj
    exact hne (Option.some.inj hj).symm
  exact List.mem_iff_getElem?.mpr ⟨j,by rw [List.getElem?_set_ne (Ne.symm hjc)]; exact hj⟩

/- A thread that reads that nothing is counted leaves nothing behind. -/
theorem Inv.left (h : s.Inv) (hx : s.cpus[c]? = some x) (hp : x.place = .test) (h0 : s.lisRunqReqCnt ≤ 0) (hb : s.Busy)
    (hc : t.cpus = s.cpus.set c y) (ht : t.tasks = s.tasks) : t.Watched := by
  rcases h.uncounted h0 hb with ⟨z,hz,hzh⟩ | ⟨k,hk,hkp⟩
  · have hne : z ≠ x := by
      intro hzx
      rw [hzx,Cpu.held,hp] at hzh
      cases hzh
    exact Or.inl ⟨z,hc ▸ mem_set_of_ne hx hz hne,held_attends hzh⟩
  · exact Or.inr ⟨k,ht ▸ hk,pending_decides hkp _⟩

theorem runStep_inv (h : s.Inv) (hx : s.cpus[c]? = some x) (hg : Guard s (.run c)) (ht : s.runStep c x = some t) : t.Inv := by
  have ha := h.active x (List.mem_of_getElem? hx)
  obtain ⟨hgs,hgr,hgb,hgd⟩ := hg x hx
  have hcount := h.counted
  rw [runStep] at ht
  cases hp : x.place with
  | absent | exited =>
    rw [hp] at ht
    cases ht
  | asleep =>
    rw [hp] at ht ha
    dsimp only at ht
    split_ifs at ht
    obtain rfl := Option.some.inj ht
    exact h.move hx s.lisQueuesRunning (by rw [hp]; rfl) Place.noConfusion ha (by rw [hp]; rfl) (by rw [Cpu.found,hp]; rfl) rfl
      (Or.inl rfl)
  | test =>
    rw [hp] at ht ha
    obtain rfl := Option.some.inj ht
    by_cases hc : 0 < s.lisRunqReqCnt
    · rw [if_pos hc]
      exact h.move hx s.lisQueuesRunning (by rw [hp]; rfl) Place.noConfusion ha (by rw [hp]; rfl) (by rw [Cpu.found,hp]; rfl) rfl
        (Or.inl rfl)
    · rw [if_neg hc]
      exact h.move hx s.lisQueuesRunning (by rw [hp]; rfl) Place.noConfusion ha (by rw [hp]; rfl) (by rw [Cpu.found,hp]; rfl) rfl
        (Or.inr fun _ hb _ => h.left hx hp (by omega) hb rfl rfl)
  | incRunning =>
    rw [hp] at ht ha
    obtain rfl := Option.some.inj ht
    exact h.move hx (s.lisQueuesRunning + 1) (by rw [hp]; rfl) Place.noConfusion ha (by rw [hp]; rfl) (by rw [Cpu.found,hp]; rfl) rfl
      (Or.inl rfl)
  | incActive =>
    rw [hp] at ht ha
    obtain rfl := Option.some.inj ht
    exact h.move hx s.lisQueuesRunning (by rw [hp]; rfl) Place.noConfusion (by rw [ha]; rfl) (by rw [hp]; rfl)
      (by rw [Cpu.found,hp]; rfl) rfl (Or.inl rfl)
  | scan =>
    rw [hp] at ht ha
    dsimp only at ht
    cases hl : s.lisScanqhead with
    | nil =>
      rw [hl] at ht
      obtain rfl := Option.some.inj ht
      exact h.move hx s.lisQueuesRunning (by rw [hp]; rfl) Place.noConfusion ha (by rw [hp]; rfl) (by rw [Cpu.found,hp]; rfl) rfl
        (Or.inl rfl)
    | cons q l =>
      rw [hl] at ht
      obtain rfl := Option.some.inj ht
      exact h.dequeue (n := 1) (by rw [hl]; rfl) (hgs hp (by rw [hl]; exact List.cons_ne_nil _ _))
  | bcTest =>
    rw [hp] at ht ha
    obtain rfl := Option.some.inj ht
    by_cases hf : s.lisStrbcflag = true
    · rw [if_pos hf]
      have hzero : tally Cpu.found s.cpus = 0 := List.countP_eq_zero.mpr fun y hy hc => Bool.noConfusion ((hgb hp hf y hy).symm.trans hc)
      have hfx : x.found = false := by rw [Cpu.found,hp]; rfl
      have hhx : x.held = false := by rw [Cpu.held,hp]; rfl
      refine h.setCpu hx rfl rfl rfl rfl (by rw [hp]; rfl) Place.noConfusion ha (by rw [hp]; rfl) ?_ (fun _ => hf) (fun hh => h.kept ?_) ?_
        fun _ _ => Or.inl (awake_set hx rfl rfl)
      · rw [hzero,hfx]
        exact le_rfl
      · rw [hhx] at hh
        exact hh
      · rw [hhx]
        exact hcount
    · rw [if_neg hf]
      exact h.move hx s.lisQueuesRunning (by rw [hp]; rfl) Place.noConfusion ha (by rw [hp]; rfl) (by rw [Cpu.found,hp]; rfl) rfl
        (Or.inl rfl)
  | bcDec =>
    rw [hp] at ht ha
    obtain rfl := Option.some.inj ht
    have hfx : x.found = true := by rw [Cpu.found,hp]; rfl
    have hhx : x.held = false := by rw [Cpu.held,hp]; rfl
    have hflag := h.flag (tally_pos hx hfx)
    have hzero : tally Cpu.held s.cpus = 0 :=
      tally_zero_of_alone h.one hx hfx (fun z hz => by rw [Cpu.found,show (z.place == .dobufcall) = true from hz,Bool.or_true]) hhx
    rw [if_pos ⟨hflag,hzero⟩] at hcount
    refine h.setCpu hx rfl rfl rfl rfl (by rw [hp]; rfl) Place.noConfusion ha (by rw [hp]; rfl) ?_ (fun _ => hflag) (fun _ => ?_) ?_
      fun _ _ => Or.inl (awake_set hx rfl rfl)
    · rw [hfx]
      exact Nat.add_le_add_right h.one _
    · have := hgd hp
      show 0 < s.lisRunqReqCnt - 1
      omega
    · rw [hzero,hhx,if_neg fun hc => absurd hc.2 (show ¬0 + 1 = 0 by decide)]
      show ((s.lisQhead.length + s.lisScanqhead.length + 0 : ℕ) : ℤ) ≤ s.lisRunqReqCnt - 1 + (tally Task.pending s.tasks : ℕ)
      omega
  | dobufcall =>
    rw [hp] at ht ha
    obtain rfl := Option.some.inj ht
    have hfx : x.found = true := by rw [Cpu.found,hp]; rfl
    have hhx : x.held = true := by rw [Cpu.held,hp]; rfl
    have hone := h.one
    have hle := held_le_found s.cpus
    refine h.setCpu hx rfl rfl rfl rfl (by rw [hp]; rfl) Place.noConfusion ha (by rw [hp]; rfl) ?_ (fun hc => ?_) (fun hc => ?_) ?_
      fun _ _ => Or.inl (awake_set hx rfl rfl)
    · rw [hfx]
      exact Nat.le_succ_of_le hone
    · rw [hfx] at hc
      have : 0 < tally Cpu.found s.cpus + 0 - 1 := hc
      omega
    · rw [hhx] at hc
      have : 0 < tally Cpu.held s.cpus + 0 - 1 := hc
      omega
    · rw [if_neg fun hc => Bool.noConfusion hc.1]
      show ((s.lisQhead.length + s.lisScanqhead.length + 0 : ℕ) : ℤ) ≤ s.lisRunqReqCnt + _
      omega
  | runq =>
    rw [hp] at ht ha
    dsimp only at ht
    cases hl : s.lisQhead with
    | cons q l =>
      rw [hl] at ht
      obtain rfl := Option.some.inj ht
      exact h.dequeue (n := 1) (by rw [hl,List.length_cons]; omega) (hgr hp (by rw [hl]; exact List.cons_ne_nil _ _))
    | nil =>
      rw [hl] at ht
      obtain rfl := Option.some.inj ht
      have hfx : x.found = false := by rw [Cpu.found,hp]; rfl
      have hhx : x.held = false := by rw [Cpu.held,hp]; rfl
      refine h.setCpu hx rfl rfl rfl rfl (by rw [hp]; rfl) Place.noConfusion ha (by rw [hp]; rfl) ?_ (fun hc => h.flag ?_) (fun hc => ?_) ?_
        fun _ _ => Or.inl (awake_set hx rfl rfl)
      · rw [hfx]
        exact Nat.add_le_add_right h.one _
      · rw [hfx] at hc
        exact hc
      · rw [hhx] at hc
        have hflag := h.flag (lt_of_lt_of_le hc (held_le_found s.cpus))
        show (0 : ℤ) < if s.lisRunqReqCnt ≠ 0 ∧ s.lisScanqhead = [] ∧ s.lisStrbcflag = false then 0 else s.lisRunqReqCnt
        rw [if_neg fun hz => Bool.noConfusion (hflag.symm.trans hz.2.2)]
        exact h.kept hc
      · rw [hhx]
        rw [hl] at hcount
        by_cases hz : s.lisRunqReqCnt ≠ 0 ∧ s.lisScanqhead = [] ∧ s.lisStrbcflag = false
        · rw [if_pos hz,if_neg fun hy => Bool.noConfusion (hz.2.2.symm.trans hy.1)]
          show (((0 + s.lisScanqhead.length + 0 : ℕ)) : ℤ) ≤ 0 + (tally Task.pending s.tasks : ℕ)
          rw [hz.2.1]
          exact (Int.zero_add _).symm ▸ Int.natCast_nonneg _
        · rw [if_neg hz]
          exact hcount
  | decActive =>
    rw [hp] at ht ha
    obtain rfl := Option.some.inj ht
    exact h.move hx s.lisQueuesRunning (by rw [hp]; rfl) Place.noConfusion (by rw [ha]; rfl) (by rw [hp]; rfl)
      (by rw [Cpu.found,hp]; rfl) rfl (Or.inl rfl)
  | decRunning =>
    rw [hp] at ht ha
    obtain rfl := Option.some.inj ht
    have hpos : 0 < s.lisQueuesRunning := h.running ▸ tally_pos hx (by rw [hp]; rfl)
    exact h.move hx (s.lisQueuesRunning - 1) (by rw [hp]; rfl) Place.noConfusion ha
      (by rw [hp]; exact Nat.sub_add_cancel hpos) (by rw [Cpu.found,hp]; rfl) rfl (Or.inl rfl)
  | out =>
    rw [hp] at ht ha
    obtain rfl := Option.some.inj ht
    refine h.move hx s.lisQueuesRunning (by rw [hp]; rfl) Place.noConfusion ha (by rw [hp]; rfl) (by rw [Cpu.found,hp]; rfl) rfl
      (Or.inr fun _ _ hw => ?_)
    exact hw.imp (fun hw => hw.set hx rfl fun hax => by rw [Cpu.attends,hp] at hax; exact hax) fun hw => hw

/-! ### Tasks -/

theorem watched_set (hk : s.tasks[i]? = some k) (ht : t.tasks = s.tasks.set i l) (hd : l.decides t.lisRunqCnt = true) : t.Watched :=
  Or.inr ⟨l,ht ▸ List.mem_set (List.getElem?_eq_some_iff.mp hk).1 l,hd⟩

/- Whoever watches does so from then on, too, or it is the task that has moved. -/
theorem Watched.set (h : s.Watched) (hk : s.tasks[i]? = some k) (hc : t.cpus = s.cpus) (hn : t.lisRunqCnt = s.lisRunqCnt)
    (ht : t.tasks = s.tasks.set i l) (hd : k.decides s.lisRunqCnt = true → t.Watched) : t.Watched := by
  rcases h with ⟨x,hx,hxa⟩ | ⟨m,hm,hmd⟩
  · exact Or.inl ⟨x,hc ▸ hx,hxa⟩
  · obtain ⟨j,hj⟩ := List.mem_iff_getElem?.mp hm
    by_cases hji : j = i
    · subst hji
      rw [hk] at hj
      obtain rfl := Option.some.inj hj
      exact hd hmd
    · exact Or.inr ⟨m,List.mem_iff_getElem?.mpr ⟨j,by rw [ht,List.getElem?_set_ne (Ne.symm hji)]; exact hj⟩,hn ▸ hmd⟩

theorem WatchedBut.set (h : s.WatchedBut i) (hc : t.cpus = s.cpus) (hn : t.lisRunqCnt = s.lisRunqCnt)
    (ht : t.tasks = s.tasks.set i l) : t.Watched := by
  rcases h with ⟨x,hx,hxa⟩ | ⟨j,m,hji,hj,hmd⟩
  · exact Or.inl ⟨x,hc ▸ hx,hxa⟩
  · exact Or.inr ⟨m,List.mem_iff_getElem?.mpr ⟨j,by rw [ht,List.getElem?_set_ne (Ne.symm hji)]; exact hj⟩,hn ▸ hmd⟩

/-- What a step of a task keeps. -/
theorem Inv.setTask (h : s.Inv) (hk : s.tasks[i]? = some k) (hc : t.cpus = s.cpus) (ht : t.tasks = s.tasks.set i l)
    (hq : t.lisQueuesRunning = s.lisQueuesRunning) (hn : t.lisRunqCnt = s.lisRunqCnt) (hr : t.raised = s.raised)
    (hf : s.lisStrbcflag = true → t.lisStrbcflag = true) (hreq : s.lisRunqReqCnt ≤ t.lisRunqReqCnt)
    (hcount : (t.lisQhead.length + t.lisScanqhead.length : ℤ) + s.lisRunqReqCnt + k.pending.toNat +
      (if t.lisStrbcflag = true ∧ tally Cpu.held s.cpus = 0 then 1 else 0 : ℕ) ≤
        s.lisQhead.length + s.lisScanqhead.length + t.lisRunqReqCnt + l.pending.toNat +
          (if s.lisStrbcflag = true ∧ tally Cpu.held s.cpus = 0 then 1 else 0 : ℕ))
    (hw : 0 < s.lisRunqCnt → t.Busy → t.Watched) : t.Inv := by
  have hpend := tally_set hk l Task.pending
  have hold := h.counted
  refine ⟨?_,?_,?_,?_,?_,fun h0 => hf (h.flag (hc ▸ h0)),fun h0 => lt_of_lt_of_le (h.kept ?_) hreq,?_,fun h0 hb => hw (hn ▸ h0) hb,
    fun c hcr => ?_⟩
  · rw [hq,hc]
    exact h.running
  · rw [hc]
    exact h.active
  · rw [hn,hc]
    exact h.threads
  · rw [hc]
    exact h.alive
  · rw [hc]
    exact h.one
  · rw [Handling,← hc]
    exact h0
  · rw [hc,ht]
    push_cast at hold ⊢
    push_cast at hcount
    omega
  · rw [Started,hc]
    exact h.raised c (hr ▸ hcr)

theorem Inv.setTask_unflagged (h : s.Inv) (hk : s.tasks[i]? = some k) (hc : t.cpus = s.cpus) (ht : t.tasks = s.tasks.set i l)
    (hq : t.lisQueuesRunning = s.lisQueuesRunning) (hn : t.lisRunqCnt = s.lisRunqCnt) (hr : t.raised = s.raised)
    (hf : t.lisStrbcflag = s.lisStrbcflag) (hreq : s.lisRunqReqCnt ≤ t.lisRunqReqCnt)
    (hcount : (t.lisQhead.length + t.lisScanqhead.length : ℤ) + s.lisRunqReqCnt + k.pending.toNat ≤
      s.lisQhead.length + s.lisScanqhead.length + t.lisRunqReqCnt + l.pending.toNat)
    (hw : 0 < s.lisRunqCnt → t.Busy → t.Watched) : t.Inv := by
  refine h.setTask hk hc ht hq hn hr (fun h1 => hf.trans h1) hreq ?_ hw
  rw [hf]
  omega

/-- The task has only gone on. -/
theorem Inv.goto (h : s.Inv) (hk : s.tasks[i]? = some k) (b : Bool) (hkp : k.pending = false) (hlp : l.pending = false)
    (hw : 0 < s.lisRunqCnt → s.Busy → s.Watched → Watched ({ s with qschedRunning := b }.goto i l)) :
    ({ s with qschedRunning := b }.goto i l : Runners).Inv := by
  refine h.setTask_unflagged hk rfl rfl rfl rfl rfl rfl le_rfl ?_ fun h0 hb => hw h0 hb (h.watched h0 hb)
  rw [hkp,hlp]
  exact le_rfl

theorem running_attends (h : x.place.running = true) : x.attends = true := by
  cases hp : x.place <;> rw [hp] at h <;> first | exact Bool.noConfusion h | (rw [Cpu.attends,hp]; rfl)

theorem active_attends (h : x.place.active = true) : x.attends = true := by
  cases hp : x.place <;> rw [hp] at h <;> first | exact Bool.noConfusion h | (rw [Cpu.attends,hp]; rfl)

/- A CPU whose active flag is set has its thread in the loop. -/
theorem Inv.awake_of_flag (h : s.Inv) (hc : s.activeFlag c ≠ 0) : s.Awake := by
  rw [activeFlag] at hc
  cases hx : s.cpus[c]? with
  | none =>
    rw [hx] at hc
    exact absurd rfl hc
  | some x =>
    rw [hx] at hc
    have hm := List.mem_of_getElem? hx
    have ha := h.active x hm
    refine ⟨x,hm,active_attends ?_⟩
    cases hp : x.place.active with
    | true => rfl
    | false =>
      rw [hp] at ha
      exact absurd ha hc

/- A semaphore is raised for a CPU that has a thread. -/
theorem Inv.up (h : s.Inv) (hc : s.Started c) : (s.up c).Inv ∧ (s.up c).Awake ∧ (s.up c).tasks = s.tasks ∧
    (s.up c).lisRunqCnt = s.lisRunqCnt := by
  obtain ⟨x,hx,hs⟩ := hc
  have hm := List.mem_of_getElem? hx
  have hcount := h.counted
  have hraised : ({ s with raised := s.raised ++ [c] } : Runners).Inv := by
    refine ⟨h.running,h.active,h.threads,h.alive,h.one,h.flag,h.kept,h.counted,h.watched,fun j hj => ?_⟩
    rcases List.mem_append.mp hj with hj | hj
    · exact h.raised j hj
    · obtain rfl := List.mem_singleton.mp hj
      exact ⟨x,hx,hs⟩
  have hy : ({ x with sem := x.sem + 1 } : Cpu).attends = true := by
    have hlives : x.place.lives = true := by
      rw [Place.lives,Bool.and_eq_true]
      exact ⟨hs,bne_iff_ne.mpr (h.alive x hm)⟩
    rw [Cpu.attends,show ({ x with sem := x.sem + 1 } : Cpu).place = x.place from rfl,hlives,
      decide_eq_true (Nat.succ_pos x.sem),Bool.and_true,Bool.or_true]
  have hup : s.up c = { s with raised := s.raised ++ [c] }.setCpu c { x with sem := x.sem + 1 } := by
    rw [Runners.up,hx]
    rfl
  rw [hup]
  refine ⟨hraised.setCpu hx rfl rfl rfl rfl rfl (h.alive x hm) (h.active x hm) rfl (Nat.add_le_add_right h.one _) (fun hp => h.flag ?_)
    (fun hp => h.kept ?_) ?_ fun _ _ => Or.inl (awake_set hx rfl hy),awake_set hx rfl hy,rfl,rfl⟩
  · have hp : 0 < tally Cpu.found s.cpus + x.found.toNat - x.found.toNat := hp
    omega
  · have hp : 0 < tally Cpu.held s.cpus + x.held.toNat - x.held.toNat := hp
    show 0 < tally Cpu.held s.cpus
    omega
  · have hiff : (s.lisStrbcflag = true ∧ tally Cpu.held s.cpus + x.held.toNat = x.held.toNat) ↔
        (s.lisStrbcflag = true ∧ tally Cpu.held s.cpus = 0) := and_congr_right fun _ => Nat.add_eq_right
    refine le_of_eq_of_le ?_ hcount
    exact congrArg (fun n : ℕ => ((s.lisQhead.length + s.lisScanqhead.length + n : ℕ) : ℤ)) (if_congr hiff rfl rfl)

theorem taskStep_inv (h : s.Inv) (hk : s.tasks[i]? = some k) (hg : Guard s (.task i)) (ht : s.taskStep i k = some t) : t.Inv := by
  obtain ⟨hgc,hgr,hgl⟩ := hg k hk
  -- what a task that does not decide leaves
  have hstay (hd : k.decides s.lisRunqCnt = false) (b : Bool) (l : Task) :
      0 < s.lisRunqCnt → s.Busy → s.Watched → Watched ({ s with qschedRunning := b }.goto i l) := fun _ _ hw =>
    hw.set hk rfl rfl rfl fun hc => Bool.noConfusion (hd.symm.trans hc)
  have hawake (ha : s.Awake) (b : Bool) (l : Task) :
      0 < s.lisRunqCnt → s.Busy → s.Watched → Watched ({ s with qschedRunning := b }.goto i l) := fun _ _ _ => Or.inl ha
  have hdecides {l : Task} (hd : l.decides s.lisRunqCnt = true) (b : Bool) :
      0 < s.lisRunqCnt → s.Busy → s.Watched → Watched ({ s with qschedRunning := b }.goto i l) := fun _ _ _ =>
    watched_set (t := { s with qschedRunning := b }.goto i l) hk rfl hd
  cases k with
  | idle => cases ht
  | flagged my =>
    obtain rfl := Option.some.inj ht
    refine h.setTask_unflagged hk rfl rfl rfl rfl rfl rfl (le_of_lt (lt_add_one s.lisRunqReqCnt)) ?_ fun _ _ => watched_set hk rfl rfl
    show (s.lisQhead.length + s.lisScanqhead.length : ℤ) + s.lisRunqReqCnt + 1 ≤
      s.lisQhead.length + s.lisScanqhead.length + (s.lisRunqReqCnt + 1) + 0
    omega
  | calls my =>
    simp only [taskStep] at ht
    split_ifs at ht with hb
    · obtain rfl := Option.some.inj ht
      exact h.goto hk s.qschedRunning rfl rfl fun _ _ _ => (hgc my rfl hb).set rfl rfl rfl
    · obtain rfl := Option.some.inj ht
      exact h.goto hk true rfl rfl (hdecides rfl true)
  | runqCnt my =>
    obtain rfl := Option.some.inj ht
    by_cases h0 : s.lisRunqCnt = 0
    · rw [if_pos h0]
      exact h.goto hk s.qschedRunning rfl rfl fun hc => absurd h0 (Nat.ne_of_gt hc)
    · rw [if_neg h0]
      exact h.goto hk s.qschedRunning rfl rfl (hdecides rfl _)
  | queuesRunning my =>
    obtain rfl := Option.some.inj ht
    refine h.goto hk s.qschedRunning rfl rfl ?_
    by_cases h0 : s.lisQueuesRunning = 0
    · exact hdecides (show Task.decides _ (.reqCnt my s.lisQueuesRunning) = true from beq_iff_eq.mpr h0) _
    · obtain ⟨x,hx,hxr⟩ := tally_pos_mem (h.running ▸ Nat.pos_of_ne_zero h0)
      exact hawake ⟨x,hx,running_attends hxr⟩ _ _
  | reqCnt my n =>
    simp only [taskStep] at ht
    split_ifs at ht with hc
    · obtain rfl := Option.some.inj ht
      refine h.goto hk s.qschedRunning rfl rfl fun h0 hb hw => ?_
      refine hw.set hk rfl rfl rfl fun hd => ?_
      have hn : n = 0 := beq_iff_eq.mp hd
      subst hn
      have hreq : s.lisRunqReqCnt ≤ 0 := hc.resolve_right (Nat.ne_of_lt h0)
      rcases h.uncounted hreq hb with ⟨x,hx,hxh⟩ | ⟨k,hkm,hkp⟩
      · exact Or.inl ⟨x,hx,held_attends hxh⟩
      · obtain ⟨j,hj⟩ := List.mem_iff_getElem?.mp hkm
        have hji : j ≠ i := by
          intro hji
          rw [hji,hk] at hj
          obtain rfl := Option.some.inj hj
          cases hkp
        exact Or.inr ⟨k,List.mem_iff_getElem?.mpr ⟨j,(List.getElem?_set_ne (Ne.symm hji)).trans hj⟩,pending_decides hkp _⟩
    · obtain rfl := Option.some.inj ht
      exact h.goto hk s.qschedRunning rfl rfl (hdecides rfl _)
  | loop my cpu thresh =>
    simp only [taskStep] at ht
    split_ifs at ht with hlt hc
    · obtain rfl := Option.some.inj ht
      exact h.goto hk s.qschedRunning rfl rfl (hdecides rfl _)
    · obtain rfl := Option.some.inj ht
      refine h.goto hk s.qschedRunning rfl rfl ?_
      by_cases hm : cpu = my
      · refine fun _ _ hw => hw.set hk rfl rfl rfl fun hd => watched_set hk rfl ?_
        simp only [Task.decides,List.range_succ,List.all_append,List.all_cons,List.all_nil,Bool.and_true,Bool.and_eq_true,
          beq_iff_eq] at hd ⊢
        exact ⟨hd,hm⟩
      · exact hawake (h.awake_of_flag fun h0 => hc ⟨hm,h0⟩) _ _
    · obtain rfl := Option.some.inj ht
      refine h.goto hk s.qschedRunning rfl rfl fun _ _ hw => hw.set hk rfl rfl rfl fun hd => watched_set hk rfl ?_
      simp only [Task.decides,List.all_eq_true,List.mem_range] at hd ⊢
      exact fun j hj => hd j (lt_of_lt_of_le hj (Nat.le_of_not_lt hlt))
  | raise my cpu thresh =>
    obtain rfl := Option.some.inj ht
    obtain ⟨hu,ha,htasks,-⟩ := h.up (hgr my cpu thresh rfl)
    exact hu.goto (htasks ▸ hk) (s.up cpu).qschedRunning rfl rfl fun _ _ _ => Or.inl ha
  | recheck my cpu thresh =>
    simp only [taskStep] at ht
    split_ifs at ht
    · obtain rfl := Option.some.inj ht
      exact h.goto hk s.qschedRunning rfl rfl (hstay rfl _ _)
    · obtain rfl := Option.some.inj ht
      exact h.goto hk s.qschedRunning rfl rfl (hstay rfl _ _)
  | last my =>
    obtain rfl := Option.some.inj ht
    by_cases h0 : s.activeFlag my = 0
    · rw [if_pos h0]
      exact h.goto hk s.qschedRunning rfl rfl (hdecides rfl _)
    · rw [if_neg h0]
      exact h.goto hk s.qschedRunning rfl rfl (hawake (h.awake_of_flag h0) _ _)
  | lastRaise my =>
    obtain rfl := Option.some.inj ht
    obtain ⟨hu,ha,htasks,-⟩ := h.up (hgl my rfl)
    exact hu.goto (htasks ▸ hk) (s.up my).qschedRunning rfl rfl fun _ _ _ => Or.inl ha
  | returnPoint =>
    obtain rfl := Option.some.inj ht
    exact h.goto hk false rfl rfl (hstay rfl _ _)

/-! ### Runs -/

theorem step_inv {a : Act} (h : s.Inv) (hg : Guard s a) (hs : step s a = some t) : t.Inv := by
  have hcount := h.counted
  cases a with
  | qenable i my q =>
    simp only [step] at hs
    split_ifs at hs with hk
    obtain rfl := Option.some.inj hs
    refine h.setTask_unflagged hk rfl rfl rfl rfl rfl rfl (le_of_lt (lt_add_one s.lisRunqReqCnt)) ?_ fun _ _ => watched_set hk rfl rfl
    show ((s.lisQhead ++ [q]).length + s.lisScanqhead.length : ℤ) + s.lisRunqReqCnt + 0 ≤
      s.lisQhead.length + s.lisScanqhead.length + (s.lisRunqReqCnt + 1) + 0
    rw [List.length_append,List.length_singleton]
    push_cast
    omega
  | addToScanl q =>
    obtain rfl := Option.some.inj hs
    refine ⟨h.running,h.active,h.threads,h.alive,h.one,h.flag,fun hh => ?_,?_,fun _ _ => hg,h.raised⟩
    · exact lt_trans (h.kept hh) (lt_add_one _)
    · show ((s.lisQhead.length + (s.lisScanqhead ++ [q]).length + (if s.lisStrbcflag = true ∧ tally Cpu.held s.cpus = 0 then 1 else 0) : ℕ) : ℤ) ≤
        s.lisRunqReqCnt + 1 + (tally Task.pending s.tasks : ℕ)
      rw [List.length_append,List.length_singleton]
      omega
  | bcTimeout i my =>
    simp only [step] at hs
    split_ifs at hs with hk
    obtain rfl := Option.some.inj hs
    refine h.setTask hk rfl rfl rfl rfl rfl (fun _ => rfl) le_rfl ?_ fun _ _ => watched_set hk rfl rfl
    show (s.lisQhead.length + s.lisScanqhead.length : ℤ) + s.lisRunqReqCnt + 0 + _ ≤ _ + s.lisRunqReqCnt + 1 + _
    split_ifs <;> omega
  | setqsched i my =>
    simp only [step] at hs
    split_ifs at hs with hk
    obtain rfl := Option.some.inj hs
    exact h.goto hk s.qschedRunning rfl rfl fun _ _ _ => watched_set hk rfl rfl
  | deschedule rq wq scan run =>
    obtain rfl := Option.some.inj hs
    refine h.dequeue (n := s.taken rq wq scan run) ?_ hg
    have h1 : (if scan then s.lisScanqhead.filter (· != wq) else s.lisScanqhead).length ≤ s.lisScanqhead.length := by
      split_ifs
      · exact List.length_filter_le ..
      · exact le_rfl
    have h2 : (if run then s.lisQhead.filter fun q => q != rq && q != wq else s.lisQhead).length ≤ s.lisQhead.length := by
      split_ifs
      · exact List.length_filter_le ..
      · exact le_rfl
    rw [taken]
    omega
  | task i =>
    obtain ⟨k,hk,ht⟩ := Option.bind_eq_some_iff.mp hs
    exact taskStep_inv h hk hg ht
  | run c =>
    obtain ⟨x,hx,ht⟩ := Option.bind_eq_some_iff.mp hs
    exact runStep_inv h hx hg ht
  | signal c killed =>
    obtain ⟨x,hx,ht⟩ := Option.bind_eq_some_iff.mp hs
    have ha := h.active x (List.mem_of_getElem? hx)
    have hlt := hg.2 x hx
    rw [signal] at ht
    split_ifs at ht with hp hc
    · rcases hc with hc | hc
      · exact Bool.noConfusion (hg.1.symm.trans hc)
      · omega
    · obtain rfl := Option.some.inj ht
      rw [hp] at ha
      exact h.move hx s.lisQueuesRunning (by rw [hp]; rfl) Place.noConfusion ha (by rw [hp]; rfl) (by rw [Cpu.found,hp]; rfl) rfl
        (Or.inl rfl)

theorem init_inv (threads : List Bool) (n : ℕ) : (init threads n).Inv := by
  have hcpu : ∀ x ∈ (init threads n).cpus, x.place = .test ∨ x.place = .absent := by
    intro x hx
    obtain ⟨b,-,rfl⟩ := List.mem_map.mp hx
    cases b
    · exact Or.inr rfl
    · exact Or.inl rfl
  have hnone {p : Cpu → Bool} (h1 : ∀ x : Cpu, x.place = .test ∨ x.place = .absent → p x = false) :
      tally p (init threads n).cpus = 0 :=
    List.countP_eq_zero.mpr fun x hx hc => Bool.noConfusion ((h1 x (hcpu x hx)).symm.trans hc)
  have hheld : tally Cpu.held (init threads n).cpus = 0 := hnone fun x hx => by
    rcases hx with hx | hx <;> rw [Cpu.held,hx] <;> rfl
  have hfound : tally Cpu.found (init threads n).cpus = 0 := hnone fun x hx => by
    rcases hx with hx | hx <;> rw [Cpu.found,hx] <;> rfl
  refine ⟨?_,fun x hx => ?_,?_,fun x hx hc => ?_,?_,fun hc => ?_,fun hc => ?_,?_,fun _ hb => ?_,fun c hc => absurd hc List.not_mem_nil⟩
  · exact (hnone fun x hx => by rcases hx with hx | hx <;> rw [hx] <;> rfl).symm
  · obtain ⟨b,-,rfl⟩ := List.mem_map.mp hx
    cases b <;> rfl
  · show tally id threads = tally _ (threads.map _)
    rw [tally,tally,List.countP_map]
    exact List.countP_congr fun b _ => by cases b <;> decide
  · rcases hcpu x hx with hx | hx <;> rw [hx] at hc <;> cases hc
  · rw [hfound]
    exact Nat.zero_le _
  · rw [hfound] at hc
    cases hc
  · rw [Handling,hheld] at hc
    cases hc
  · have h0 : (if (init threads n).lisStrbcflag = true ∧ tally Cpu.held (init threads n).cpus = 0 then 1 else 0) = 0 :=
      if_neg fun hc => Bool.noConfusion hc.1
    rw [h0]
    exact (Int.zero_add _).symm ▸ Int.natCast_nonneg _
  · rcases hb with hb | hb | hb
    · exact absurd rfl hb
    · exact absurd rfl hb
    · cases hb

theorem Inv.served (h : s.Inv) : s.Served := by
  refine ⟨fun hb hr hi => ?_,h.raised⟩
  have hpos : 0 < s.lisRunqCnt := by
    obtain ⟨x,hx,hxl⟩ := hr
    rw [h.threads]
    exact List.countP_pos_iff.mpr ⟨x,hx,(Bool.and_eq_true_iff.mp hxl).1⟩
  constructor
  · by_contra hc
    rcases h.uncounted (Int.not_lt.mp hc) hb with ⟨x,hx,hxh⟩ | ⟨k,hk,hkp⟩
    · exact hc (h.kept (List.countP_pos_iff.mpr ⟨x,hx,hxh⟩))
    · rw [hi k hk] at hkp
      cases hkp
  · rcases h.watched hpos hb with ⟨x,hx,hxa⟩ | ⟨k,hk,hkd⟩
    · rw [Cpu.attends,Bool.or_eq_true,Bool.and_eq_true,decide_eq_true_iff] at hxa
      refine ⟨x,hx,?_,?_⟩
      · rcases hxa with hxa | hxa
        · cases hp : x.place <;> rw [hp] at hxa <;> first | exact Bool.noConfusion hxa | rfl
        · exact hxa.1
      · exact hxa.imp (fun hl => (Bool.and_eq_true_iff.mp hl).1) fun hl => hl.2
    · rw [hi k hk] at hkd
      cases hkd

/-- In every state after a run whose steps all meet the guard, work has a runner. -/
theorem work_served {threads : List Bool} {n : ℕ} {xs : List Act} (hm : Meets step Guard (init threads n) xs)
    (h : exec step (init threads n) xs = some s) : s.Served :=
  (exec_preserves (I := Inv) (fun _ _ _ hi hc hs => step_inv hi hc hs) (init_inv threads n) hm h).served

/- A queue is linked, the thread is on its way to it. -/
def onWay : List Act := [.qenable 0 0 5,.run 0,.task 0]

theorem onWay_meets : Meets step Guard (init [true] 1) onWay := by
  refine ⟨trivial,fun s hs => ?_⟩
  obtain rfl := Option.some.inj hs
  refine ⟨fun x hx => ?_,fun t ht => ?_⟩
  · obtain rfl := Option.some.inj hx
    exact ⟨fun hc => Place.noConfusion hc,fun hc => Place.noConfusion hc,fun hc => Place.noConfusion hc,fun hc => Place.noConfusion hc⟩
  · obtain rfl := Option.some.inj ht
    refine ⟨fun k hk => ?_,fun _ _ => trivial⟩
    obtain rfl := Option.some.inj hk
    exact ⟨fun _ _ hc => Bool.noConfusion hc,fun _ _ _ hc => Task.noConfusion hc,fun _ hc => Task.noConfusion hc⟩

theorem work_served_onWay : ∃ s, exec step (init [true] 1) onWay = some s ∧ s.Served :=
  Exists.imp (fun _ hs => ⟨hs,work_served onWay_meets hs⟩) (Option.isSome_iff_exists.mp rfl)

/- The first task finds no thread running and nothing counted, since the thread has taken its queue by then. The
queue of the second one is linked when the thread has read that there is nothing to do, and the second task
leaves it to the first. -/
def lostWakeup : List Act :=
  [.qenable 0 0 5,.task 0,.task 0,.task 0,.run 0,.run 0,.run 0,.run 0,.run 0,.run 0,.task 0,.run 0,.run 0,.run 0,.run 0,
    .qenable 1 0 6,.task 1,.task 0,.run 0]

/-- The thread sleeps, and a queue is on the list. -/
theorem queue_unattended : ¬∀ (threads : List Bool) (n : ℕ) (xs : List Act) (s : Runners),
    exec step (init threads n) xs = some s → s.Served := by
  intro h
  have hs := h [true] 2 lostWakeup _ rfl
  obtain ⟨-,x,hx,-,hp⟩ := hs.runner (Or.inl (by decide)) ⟨_,List.mem_singleton_self _,rfl⟩ (by decide)
  obtain rfl := List.mem_singleton.mp hx
  exact hp.elim Bool.noConfusion fun hc => absurd hc (by decide)

end Runners

end CSLiS.RunQueues
