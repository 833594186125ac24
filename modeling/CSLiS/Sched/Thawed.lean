import CSLiS.Sched.Frozen

/-!
# After the freeze

What is handed to a frozen queue is not lost: after `lis_unfreezestr` its put procedure has been called with every
deferred message, in order, and a queue that is to be served is on the run list, from where `queuerun` serves it.
-/

namespace CSLiS.Sched.Freeze
open Lib.Crew Lib.Exec
open Qdetach (Queue RD WR)

/- The queue whose put or service procedure the task is about to enter, or is in. -/
def Place.enters : Place → Option Queue
  | .deliver q _ | .service q | .redeliver _ q _ => some q
  | _ => none

namespace Sys

variable {S : Stream} {s t u : Sys} {i n m : ℕ} {q k : Queue} {o : Place} {l : List Queue}

/- The stream is not frozen, and no task is under way. -/
def Settled (s : Sys) : Prop := s.phase = .running ∧ ∀ o ∈ s.tasks, o = .idle

/- Task `i` calls `queuerun`, takes `n` more steps, and the service procedure of the queue has been entered. -/
def Serves (S : Stream) (s : Sys) (i : ℕ) (q : Queue) : Prop :=
  ∃ n t, exec (step S) s (.call i .queuerun :: List.replicate n (.run i true)) = some t ∧ t.owed q = false

structure Sound (S : Stream) (s : Sys) : Prop where
  quiet : ∀ p, s.awaited p = true → ∀ o ∈ s.tasks, ∀ h, o.enters ≠ some (p,h)
  order : ∀ q, s.given q <+: s.kept q
  behind : ∀ q, s.verdict S q false = .deliver → s.given q = s.kept q
  handed : s.phase = .running → ∀ q, (s.flag q).qopening = false → s.given q = s.kept q
  due : ∀ q, s.owed q = true → q ∈ s.list ∨ (∃ o ∈ s.tasks, ∃ r, o.use = some (q,r) ∧ r ≠ .put) ∨
    (s.flag q).qwantenab = true ∧ ((s.flag q).qopening = true ∨ (s.flag q).qfrozen = true)
  served : s.Settled → ∀ q, s.owed q = true → (s.flag q).qopening = false →
    ∀ i, i ≠ 0 → i < s.tasks.length → s.Serves S i q

/- A task that counts for the queue. -/
theorem task_of_uses {r : Role} (hr : 0 < s.uses q r) : ∃ o ∈ s.tasks, o.use = some (q,r) := by
  obtain ⟨o,ho,hd⟩ := List.countP_pos_iff.mp hr
  refine ⟨o,ho,?_⟩
  obtain ⟨w,hw,hif⟩ := Option.bind_eq_some_iff.mp (of_decide_eq_true hd)
  split_ifs at hif with hq
  obtain rfl := Option.some.inj hif
  rw [hw,← hq]

section Held

variable (hi : s.Inv S)
include hi

theorem Inv.quiet {p : ℕ} (hp : s.awaited p = true) (ho : o ∈ s.tasks) (h : Bool) : o.enters ≠ some (p,h) := by
  obtain ⟨-,-,hr,hput⟩ := (hi.queue (p,h)).quiet hp
  have hrun := (hi.queue (p,h)).running
  rw [hr,Bool.toNat_false] at hrun
  have hno : ∀ r, s.uses (p,h) r = 0 → role (p,h) o ≠ some r := fun r hr => standing_zero hr ho
  intro he
  cases o with
  | deliver q mp =>
    obtain rfl := Option.some.inj he
    exact hno .put (by omega) (role_self _ rfl)
  | service q =>
    obtain rfl := Option.some.inj he
    exact hno .serve (by omega) (role_self _ rfl)
  | redeliver k q mp =>
    obtain rfl := Option.some.inj he
    -- Only task 0 is there, and it has not passed the message on.
    obtain ⟨j,hj⟩ := List.getElem?_of_mem ho
    obtain rfl := hi.first_of hj (by simp [Place.home])
    obtain ⟨a,ha,hs,-⟩ := hi.first
    obtain rfl := Option.some.inj (hj.symm.trans ha)
    obtain rfl : k = (p,h) := hs
    exact hno .reput (by omega) (role_self _ rfl)
  | _ => cases he

theorem Inv.kept_eq (q : Queue) : ∃ o, s.tasks[0]? = some o ∧ s.kept q = s.given q ++ o.carried q ++ s.defer q := by
  obtain ⟨o,ho,-,hd⟩ := hi.first
  exact ⟨o,ho,(hd q).kept⟩

/- Nothing is deferred behind the messages that have been given when a new one is let through. -/
theorem Inv.behind (hv : s.verdict S q false = .deliver) : s.given q = s.kept q := by
  rw [hi.verdict_eq] at hv
  split_ifs at hv with hb
  simp only [Bool.or_eq_true,not_or,Bool.not_eq_true,Bool.not_false,Bool.true_and,Bool.not_eq_false',
    List.isEmpty_iff] at hb
  obtain ⟨⟨⟨-,-⟩,hdef⟩,hl⟩ := hb
  obtain ⟨o,-,-,hd⟩ := hi.first
  have hc : o.carried q = [] := by
    by_cases hh : o.home = some q
    · have hst := ((hd q).work hh).2.2
      rw [hdef] at hst
      cases o with
      | retest | redeliver => exact Bool.noConfusion hst
      | _ => rfl
    · exact carried_none hh
  rw [(hd q).kept,hc,hl,List.append_nil,List.append_nil]

/- No queue is frozen when the stream is not. -/
theorem Inv.thawed (hr : s.phase = .running) (q : Queue) : (s.flag q).qfrozen = false := by
  by_contra hf
  exact (hi.phase.frozen q (by simpa using hf)).2.1 hr

theorem Inv.handed (hr : s.phase = .running) (hop : (s.flag q).qopening = false) : s.given q = s.kept q := by
  obtain ⟨o,ho,-,hd⟩ := hi.first
  have hidle := hi.phase.idle (by rw [hr]; exact fun _ hl => Phase.noConfusion hl)
  obtain rfl := Option.some.inj (ho.symm.trans hidle)
  have hl := ((hd q).rest (by simp [Place.home])).2 (hi.thawed hr q) hop
  rw [(hd q).kept,hl,List.append_nil]
  exact (List.append_nil _).symm

theorem Inv.due (ho : s.owed q = true) : q ∈ s.list ∨ (∃ o ∈ s.tasks, ∃ r, o.use = some (q,r) ∧ r ≠ .put) ∨
    (s.flag q).qwantenab = true ∧ ((s.flag q).qopening = true ∨ (s.flag q).qfrozen = true) := by
  obtain ⟨-,-,hen,hrun,-,hdue,-,-⟩ := hi.queue q
  have htask : ∀ r, r ≠ .put → 0 < s.uses q r → ∃ o ∈ s.tasks, ∃ r, o.use = some (q,r) ∧ r ≠ .put := by
    intro r hr hpos
    obtain ⟨o,ho,hu⟩ := task_of_uses hpos
    exact ⟨o,ho,r,hu,hr⟩
  by_cases hl : q ∈ s.list
  · exact Or.inl hl
  refine Or.inr ?_
  by_cases hex : ∃ o ∈ s.tasks, ∃ r, o.use = some (q,r) ∧ r ≠ .put
  · exact Or.inl hex
  refine Or.inr ?_
  have hz : ∀ r, r ≠ .put → s.uses q r = 0 := fun r hr => by
    by_contra hne
    exact hex (htask r hr (by omega))
  rw [List.count_eq_zero_of_not_mem hl,hz .link (by decide),hz .clear (by decide)] at hen hdue
  rw [hz .clear (by decide),hz .serve (by decide),hz .finish (by decide)] at hrun
  rw [hz .enable (by decide),hz .serve (by decide),hz .retry (by decide),hz .work (by decide),
    hz .reput (by decide)] at hdue
  have hqe : (s.flag q).qenab = false := by
    cases hb : (s.flag q).qenab with
    | false => rfl
    | true => rw [hb] at hen; cases hen
  have hqr : (s.flag q).qrunning = false := by
    cases hb : (s.flag q).qrunning with
    | false => rfl
    | true => rw [hb] at hrun; cases hrun
  rcases hdue ho with h | ⟨hw,h | h | h | h | h⟩
  · omega
  · exact absurd (hqe.symm.trans h) Bool.false_ne_true
  · exact absurd (hqr.symm.trans h) Bool.false_ne_true
  · exact ⟨hw,Or.inl h⟩
  · exact ⟨hw,Or.inr h⟩
  · omega

/- A queue that is to be served waits on the run list when all is quiet. -/
theorem Inv.settled (hs : s.Settled) (ho : s.owed q = true) (hop : (s.flag q).qopening = false) : q ∈ s.list := by
  rcases hi.due ho with h | ⟨o,hm,r,hu,-⟩ | ⟨-,h | h⟩
  · exact h
  · rw [hs.2 o hm] at hu
    cases hu
  · exact absurd (hop.symm.trans h) Bool.false_ne_true
  · exact absurd ((hi.thawed hs.1 q).symm.trans h) Bool.false_ne_true

end Held

/-! ### The queue runner -/

/- Task `i` is back in the loop of `queuerun`, and queues have only been added at the end of the list. -/
def Loops (S : Stream) (s : Sys) (i : ℕ) (l : List Queue) : Prop :=
  ∃ n t m, exec (step S) s (List.replicate n (.run i true)) = some t ∧ t.tasks[i]? = some .take ∧ t.list = l ++ m ∧
    t.phase = s.phase

theorem setPc_at (ha : s.tasks[i]? = some o) (p : Place) : (s.setPc i p).tasks[i]? = some p := by
  obtain ⟨hl,-⟩ := List.getElem?_eq_some_iff.mp ha
  exact List.getElem?_set_self hl

theorem step_run {r : Sys × Place} (ha : s.tasks[i]? = some o) (hr : s.perform S true o = some r) :
    step S s (.run i true) = some (r.1.setPc i r.2) := by
  simp only [step,ha,Option.bind_some,hr,Option.map_some]

theorem exec_succ (hs : step S s (.run i true) = some t)
    (h : exec (step S) t (List.replicate n (.run i true)) = some u) :
    exec (step S) s (List.replicate (n + 1) (.run i true)) = some u := by
  rw [List.replicate_succ,exec_cons,hs]
  exact h

theorem runs_inv (hi : s.Inv S) (h0 : i ≠ 0) (h : exec (step S) s (List.replicate n (.run i true)) = some t) :
    t.Inv S := by
  induction n generalizing s with
  | zero =>
    obtain rfl := Option.some.inj h
    exact hi
  | succ n ih =>
    obtain ⟨v,hv,h⟩ := exec_cons_eq_some h
    refine ih (step_inv s _ v hi ?_ hv) h
    intro o ho
    have hh := hi.others i o h0 ho
    cases o with
    | retest | redeliver => cases hh
    | service => exact fun hc => Bool.noConfusion hc
    | _ => trivial

theorem Loops.here (ha : s.tasks[i]? = some .take) {l' : List Queue} (hl : s.list = l ++ l') : s.Loops S i l :=
  ⟨0,s,l',rfl,ha,hl,rfl⟩

theorem Loops.run {r : Sys × Place} (ha : s.tasks[i]? = some o) (hr : s.perform S true o = some r)
    (hp : r.1.phase = s.phase) (h : (r.1.setPc i r.2).Loops S i l) : s.Loops S i l := by
  obtain ⟨n,v,l',he,ht,hl,hv⟩ := h
  exact ⟨n + 1,v,l',exec_succ (step_run ha hr) he,ht,hl,hv.trans hp⟩

theorem link_loops (ha : s.tasks[i]? = some (.link k true)) {l' : List Queue} (hl : s.list = l ++ l') :
    s.Loops S i l := by
  have hl' : s.list ++ [k] = l ++ (l' ++ [k]) := by rw [hl,List.append_assoc]
  exact Loops.run ha rfl rfl (Loops.here (setPc_at ha _) hl')

theorem qenable_loops (ha : s.tasks[i]? = some (.qenable k true)) {l' : List Queue} (hl : s.list = l ++ l') :
    s.Loops S i l := by
  have hp : (s.lisQenable S k true).1.phase = s.phase := by
    unfold lisQenable
    simp only
    split_ifs <;> rfl
  refine Loops.run ha rfl hp ?_
  unfold lisQenable
  simp only
  split_ifs
  · exact Loops.here (setPc_at ha _) hl
  · exact Loops.here (setPc_at ha _) hl
  · exact link_loops (setPc_at ha _) hl

theorem retry_loops (ha : s.tasks[i]? = some (.retry k true)) {l' : List Queue} (hl : s.list = l ++ l') :
    s.Loops S i l := by
  have hp : (s.lisRetryQenable k true).1.phase = s.phase := by
    unfold lisRetryQenable
    simp only
    split_ifs <;> rfl
  refine Loops.run ha rfl hp ?_
  unfold lisRetryQenable
  simp only
  split_ifs
  · exact qenable_loops (setPc_at ha _) hl
  · exact Loops.here (setPc_at ha _) hl

/- Nobody waits for the queue when the stream is not frozen. -/
theorem finish_loops (hi : s.Inv S) (hr : s.phase = .running) (ha : s.tasks[i]? = some (.finish k)) {l' : List Queue}
    (hl : s.list = l ++ l') : s.Loops S i l := by
  have hw : (s.flag k).qwaiting = false := by
    by_contra hc
    rcases hi.phase.waiting k (by simpa using hc) with h | h
    · exact Phase.noConfusion (hr.symm.trans h)
    · exact Phase.noConfusion (hr.symm.trans h)
  refine Loops.run ha rfl rfl ?_
  unfold finish
  simp only [hw,Bool.false_and,Bool.false_eq_true,if_false]
  split_ifs
  · exact retry_loops (setPc_at ha _) hl
  · exact Loops.here (setPc_at ha _) hl

/- The head of the run list is served. -/
theorem head_served (hi : s.Inv S) (ha : s.tasks[i]? = some .take) (hl : s.list = k :: l) :
    ∃ t, exec (step S) s (List.replicate 3 (.run i true)) = some t ∧ t.tasks[i]? = some (.finish k) ∧ t.list = l ∧
      t.phase = s.phase ∧ t.owed k = false := by
  have hon : ∀ f, ((s.setFlag k { s.flag k with qrunning := f }).flag k).qprocsoff = false := by
    intro f
    simp only [setFlag,Function.update_self]
    exact (hi.queue k).on.1
  obtain ⟨u,hu,hua,hul,hup,huf⟩ : ∃ u, step S s (.run i true) = some u ∧ u.tasks[i]? = some (.clear k) ∧ u.list = l ∧
      u.phase = s.phase ∧ (u.flag k).qprocsoff = false := by
    refine ⟨_,step_run ha rfl,?_⟩
    unfold take
    rw [hl]
    exact ⟨setPc_at ha _,rfl,rfl,hon true⟩
  obtain ⟨v,hv,hva,hvl,hvp⟩ : ∃ v, step S u (.run i true) = some v ∧ v.tasks[i]? = some (.service k) ∧ v.list = l ∧
      v.phase = s.phase := by
    refine ⟨_,step_run hua rfl,?_,hul,hup⟩
    simp only [clear,huf,Bool.false_eq_true,if_false]
    exact setPc_at hua _
  refine ⟨_,exec_succ hu (exec_succ hv (exec_succ (step_run hva rfl) rfl)),setPc_at hva _,hvl,hvp,?_⟩
  exact Function.update_self ..

theorem replicate_exec (h : exec (step S) s (List.replicate n (.run i true)) = some t)
    (h' : exec (step S) t (List.replicate m (.run i true)) = some u) :
    exec (step S) s (List.replicate (n + m) (.run i true)) = some u := by
  rw [List.replicate_add,exec_append,h]
  exact h'

/- Every queue on the run list is served: the ones before it leave the list and at most get to its end. -/
theorem list_served (h0 : i ≠ 0) (l l' : List Queue) (hi : s.Inv S) (hr : s.phase = .running)
    (ha : s.tasks[i]? = some .take) (hl : s.list = l ++ q :: l') :
    ∃ n t, exec (step S) s (List.replicate n (.run i true)) = some t ∧ t.owed q = false := by
  induction l generalizing s l' with
  | nil =>
    obtain ⟨t,ht,-,-,-,ho⟩ := head_served hi ha hl
    exact ⟨3,t,ht,ho⟩
  | cons k l ih =>
    obtain ⟨t,ht,hta,htl,htp,-⟩ := head_served hi ha hl
    have hti := runs_inv hi h0 ht
    obtain ⟨n,u,m,hu,hua,hul,hup⟩ := finish_loops hti (htp.trans hr) hta (htl.trans (List.append_nil _).symm)
    have hul : u.list = l ++ q :: (l' ++ m) := hul.trans (List.append_assoc l (q :: l') m)
    obtain ⟨n',v,hv,ho⟩ := ih (l' ++ m) (runs_inv hti h0 hu) (hup.trans (htp.trans hr)) hua hul
    exact ⟨3 + (n + n'),v,replicate_exec ht (replicate_exec hu hv),ho⟩

theorem Inv.served (hi : s.Inv S) (hs : s.Settled) (ho : s.owed q = true) (hop : (s.flag q).qopening = false)
    (h0 : i ≠ 0) (hl : i < s.tasks.length) : s.Serves S i q := by
  have hat : s.tasks[i]? = some .idle := by
    rw [List.getElem?_eq_getElem hl]
    exact congrArg some (hs.2 _ (List.getElem_mem hl))
  have hcall : step S s (.call i .queuerun) = some (s.setPc i .take) := if_pos ⟨h0,hat⟩
  have hi' : (s.setPc i .take).Inv S := step_inv s (.call i .queuerun) _ hi trivial hcall
  obtain ⟨l,l',heq⟩ := List.append_of_mem (hi.settled hs ho hop)
  obtain ⟨n,t,ht,hd⟩ := list_served h0 l l' hi' hs.1 (setPc_at hat _) heq
  refine ⟨n,t,?_,hd⟩
  rw [exec_cons,hcall]
  exact ht

theorem Inv.sound (hi : s.Inv S) : s.Sound S where
  quiet p hp o ho h := hi.quiet hp ho h
  order q := by
    obtain ⟨o,-,hk⟩ := hi.kept_eq q
    exact ⟨o.carried q ++ s.defer q,by rw [hk,List.append_assoc]⟩
  behind q hv := hi.behind hv
  handed hr q hop := hi.handed hr hop
  due q ho := hi.due ho
  served hs q ho hop i h0 hl := hi.served hs ho hop h0 hl

/-- While `lis_await_qsched` of a pair has succeeded and the stream is not thawed, nobody enters a put or service
procedure of the pair. The put procedure of each queue is called with the messages that were deferred, in order and
before new ones, and with all of them when the stream runs again. An enable leaves the queue on the run list, with a
task that is on its way to put it there or to serve it, or marked QWANTENAB and opening or frozen; when the stream
runs and the tasks are idle the next `queuerun` serves it. -/
theorem run_forgets_nothing (opening : Queue → Bool) (n : ℕ) {as : List Act}
    (hm : Meets (step S) Guard (init opening n) as) (h : exec (step S) (init opening n) as = some s) : s.Sound S :=
  (exec_preserves step_inv (init_inv S opening n) hm h).sound

def oneModule : Stream := ⟨fun _ => true,fun _ => none,[WR 0]⟩

/- While the stream is frozen one message is sent to the read queue and the write queue is enabled. -/
def freezeRun : List Act :=
  [.lisFreezestr,.next,.next,.next,.lisAwaitQsched 0,.next,.call 1 (.lisSafePutmsg (RD 0) 7),.run 1 true,
    .call 2 (.lisQenable (WR 0)),.run 2 true,.lisUnfreezestr,.next,.run 0 true,.run 0 true,.run 0 true,.run 0 true,.next,
    .run 0 true,.run 0 true,.run 0 true,.run 0 true,.run 0 true,.next]

theorem run_forgets_nothing_one : ∃ s, exec (step oneModule) (init (fun _ => false) 2) freezeRun = some s ∧
    (s.Sound oneModule) := by
  refine Exists.imp (fun s hs => ⟨hs,run_forgets_nothing _ _ ?_ hs⟩) (Option.isSome_iff_exists.mp rfl)
  decide

/- A putter has passed the tests of `lis_safe_do_putmsg` when the queues are marked. -/
def raceRun : List Act :=
  [.call 1 (.lisSafePutmsg (RD 0) 7),.run 1 true,.lisFreezestr,.next,.next,.next,.lisAwaitQsched 0,.next]

/- Two messages are deferred. The first one is put back on the list because of the second. -/
def twoRun : List Act :=
  [.lisFreezestr,.next,.next,.next,.lisAwaitQsched 0,.next,.call 1 (.lisSafePutmsg (RD 0) 7),.run 1 true,
    .call 1 (.lisSafePutmsg (RD 0) 8),.run 1 true,.lisUnfreezestr,.next,.run 0 true,.run 0 true,.next,.run 0 true,
    .run 0 true,.run 0 true,.run 0 true,.next]

/- The put procedure of a frozen queue is entered, and deferred messages are kept by a stream that runs. -/
theorem freeze_unsound :
    (¬∀ (S : Stream) (opening : Queue → Bool) (n : ℕ) (as : List Act) (s : Sys),
      exec (step S) (init opening n) as = some s → ∀ p, s.awaited p = true → ∀ o ∈ s.tasks, ∀ h, o.enters ≠ some (p,h)) ∧
    ¬∀ (S : Stream) (opening : Queue → Bool) (n : ℕ) (as : List Act) (s : Sys),
      exec (step S) (init opening n) as = some s → s.phase = .running → (∀ o ∈ s.tasks, o = .idle) →
      ∀ q, (s.flag q).qopening = false → s.given q = s.kept q := by
  constructor
  · intro h
    have hbad : ∃ s, exec (step oneModule) (init (fun _ => false) 2) raceRun = some s ∧ s.awaited 0 = true ∧
        Place.deliver (RD 0) 7 ∈ s.tasks := ⟨_,rfl,by decide,by decide⟩
    obtain ⟨s,hs,ha,hd⟩ := hbad
    exact h _ _ _ _ s hs 0 ha _ hd true rfl
  · intro h
    have hbad : ∃ s, exec (step oneModule) (init (fun _ => false) 2) twoRun = some s ∧ s.phase = .running ∧
        (∀ o ∈ s.tasks, o = .idle) ∧ (s.flag (RD 0)).qopening = false ∧ s.given (RD 0) ≠ s.kept (RD 0) :=
      ⟨_,rfl,rfl,by decide,by decide,by decide⟩
    obtain ⟨s,hs,hp,hi,hop,hne⟩ := hbad
    exact hne (h _ _ _ _ s hs hp hi _ hop)

end Sys

end CSLiS.Sched.Freeze
