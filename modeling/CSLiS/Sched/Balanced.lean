import CSLiS.Sched.Iterate

/-!
# References and wakeups of scheduled queues

The references held for a queue are those for its places on the lists, and those of the tasks and queue
runners that have taken one and not put it where it belongs. A task that sleeps in `lis_await_qsched` has set
QWAITING on both queues, and its semaphore is where the iteration that is at one of them will look for it.
-/

namespace CSLiS.Queuerun
open Lib Lib.Exec Lib.Crew

variable (isHead : ℕ → Bool)

/- The task has taken a reference for the queue. -/
def Task.holds (x : Queue) : Task → Bool
  | .link scan q => decide (x = q) && Sched.refd isHead scan q
  | _ => false

/- The queue runner is to drop a reference for the queue. -/
def Place.holds (x : Queue) : Place → Bool
  | .top _ => false
  | .took scan q | .lock scan q | .done scan q | .up scan q | .put scan q => decide (x = q) && Sched.refd isHead scan q

/- The queue runner has set QRUNNING, and is to clear it. -/
def Place.runs (x : Queue) : Place → Bool
  | .took _ q | .lock _ q | .done _ q => decide (x = q)
  | _ => false

/- The queue runner will find QWAITING of a queue of the pair, or has. -/
def Place.wakes (p : ℕ) : Place → Bool
  | .took _ q | .lock _ q | .done _ q | .up _ q => decide (q.pair = p)
  | _ => false

def Place.ups (p : ℕ) : Place → Bool
  | .up _ q => decide (q.pair = p)
  | _ => false

/- The task has set QWAITING on the pair. -/
def Task.waits (p : ℕ) : Task → Bool
  | .down x | .woken x _ => decide (x = p)
  | _ => false

namespace Sched

variable (s : Sched)

def listed (scan : Bool) (q : Queue) : ℕ := if refd isHead scan q then (s.list scan).count q else 0

def onLists (q : Queue) : ℕ := s.listed isHead true q + s.listed isHead false q

def Iterated (p : ℕ) : Prop := ∃ x ∈ s.runners, x.wakes p = true

/-- References and QRUNNING balance, no task sleeps for an idle pair unless an iteration is going to wake it,
and every up is on the semaphore of a task. -/
structure Sound : Prop where
  refs : ∀ q, s.refs q =
    (s.onLists isHead q + tally (Task.holds isHead q) s.tasks + tally (Place.holds isHead q) s.runners : ℕ)
  marks : ∀ q, s.marks q = (tally (Place.runs q) s.runners : ℕ)
  awake : ∀ i p, s.tasks[i]? = some (.down p) → s.busy p = false → 0 < s.sems i ∨ s.Iterated p
  whole : s.cut = false
  target : s.oops = false

/-- An iteration does not end early at the magic number, nor at the lock if it has a reference to drop or a
task to wake; a queue is linked only once; `deschedule` finds the magic number of a queue that is on a list, and
leaves no sleeping task behind; one task at a time waits for a pair, and does not leave before the up for it. -/
def Guard (s : Sched) : Act → Prop
  | .deschedule p magic =>
      (magic = true ∨ ∀ scan w, (⟨p,w⟩ : Queue) ∉ s.list scan) ∧
        ((s.qFlag ⟨p,true⟩).qwaiting = true → (s.qFlag ⟨p,false⟩).qrunning = true ∨ (s.qFlag ⟨p,true⟩).qrunning = true ∨
          s.Iterated p)
  | .task t _ => ∀ k, s.tasks[t]? = some k →
      (∀ scan q, k = .link scan q → q ∉ s.list scan) ∧
        (∀ p, k = .await p → (s.qFlag ⟨p,true⟩).qwaiting = false) ∧
        ∀ p rslt, k = .woken p rslt → (s.busy p && rslt) = false → ∀ x ∈ s.runners, x.ups p = false
  | .run c magic flags locked => ∀ x, s.runners[c]? = some x →
      (∀ scan q, x = .took scan q → magic = true ∨ (scan = false ∧ flags = false)) ∧
        ∀ scan q, x = .lock scan q → locked = true ∨ (refd isHead scan q = false ∧ ((s.qFlag q).qwaiting = true →
          (s.setFlag q { s.qFlag q with qrunning := false }).busy q.pair = true ∨
            ∃ d y, d ≠ c ∧ s.runners[d]? = some y ∧ y.wakes q.pair = true))
  | _ => True

/- The part about references. -/
structure Counted : Prop where
  refs : ∀ q, s.refs q =
    (s.onLists isHead q + tally (Task.holds isHead q) s.tasks + tally (Place.holds isHead q) s.runners : ℕ)
  marks : ∀ q, s.marks q = (tally (Place.runs q) s.runners : ℕ)
  whole : s.cut = false

def Waits (i p : ℕ) : Prop := ∃ k, s.tasks[i]? = some k ∧ k.waits p = true

/- The part about those who wait. -/
structure Waited : Prop where
  waiting : ∀ i p, s.Waits i p → ∀ w, (s.qFlag ⟨p,w⟩).qwaiting = true ∧ (s.qFlag ⟨p,w⟩).qWakeupSem = some i
  waiter : ∀ q, (s.qFlag q).qwaiting = true → ∃ i, (s.qFlag q).qWakeupSem = some i ∧ s.Waits i q.pair
  ups : ∀ x ∈ s.runners, ∀ p, x.ups p = true → ∃ w, (s.qFlag ⟨p,w⟩).qwaiting = true
  awake : ∀ i p, s.tasks[i]? = some (.down p) → s.busy p = true ∨ 0 < s.sems i ∨ s.Iterated p
  target : s.oops = false

variable {s} {isHead} {t : Sched} {c i : ℕ} {x y : Place} {k l : Task} {q : Queue} {scan b : Bool}

/-! ### References -/

theorem Counted.task (h : s.Counted isHead) (hk : s.tasks[i]? = some k) (ht : t.tasks = s.tasks.set i l)
    (hr : t.runners = s.runners) (hm : t.marks = s.marks) (hc : t.cut = false)
    (hb : ∀ q, t.refs q + (s.onLists isHead q + (k.holds isHead q).toNat : ℕ) =
      s.refs q + (t.onLists isHead q + (l.holds isHead q).toNat : ℕ)) : t.Counted isHead := by
  refine ⟨fun q => ?_,fun q => ?_,hc⟩
  · have hset := tally_set hk l (Task.holds isHead q)
    have href := h.refs q
    have hq := hb q
    rw [ht,hr]
    omega
  · rw [hm,hr]
    exact h.marks q

theorem Counted.runner (h : s.Counted isHead) (hx : s.runners[c]? = some x) (ht : t.runners = s.runners.set c y)
    (hr : t.tasks = s.tasks) (hc : t.cut = s.cut)
    (hm : ∀ q, t.marks q + (x.runs q).toNat = s.marks q + (y.runs q).toNat)
    (hb : ∀ q, t.refs q + (s.onLists isHead q + (x.holds isHead q).toNat : ℕ) =
      s.refs q + (t.onLists isHead q + (y.holds isHead q).toNat : ℕ)) : t.Counted isHead := by
  refine ⟨fun q => ?_,fun q => ?_,hc.trans h.whole⟩
  · have hset := tally_set hx y (Place.holds isHead q)
    have href := h.refs q
    have hq := hb q
    rw [ht,hr]
    omega
  · have hset := tally_set hx y (Place.runs q)
    have hmark := h.marks q
    have hq := hm q
    rw [ht]
    omega

theorem addRef_refs (b : Bool) (q : Queue) (n : ℤ) (x : Queue) :
    (s.addRef b q n).refs x = s.refs x + if (decide (x = q) && b) = true then n else 0 := by
  cases b with
  | false => simp [addRef]
  | true =>
    rw [addRef,if_pos rfl,Bool.and_true]
    by_cases hx : x = q
    · subst hx
      simp
    · simp [hx]

/- What a reference changes. -/
theorem addRef_same (b : Bool) (q : Queue) (n : ℤ) : (s.addRef b q n).tasks = s.tasks ∧ (s.addRef b q n).runners = s.runners ∧
    (s.addRef b q n).marks = s.marks ∧ (s.addRef b q n).cut = s.cut ∧ (s.addRef b q n).lisQhead = s.lisQhead ∧
      (s.addRef b q n).lisScanqhead = s.lisScanqhead ∧ (s.addRef b q n).qFlag = s.qFlag ∧ (s.addRef b q n).sems = s.sems ∧
        (s.addRef b q n).oops = s.oops := by
  cases b <;> exact ⟨rfl,rfl,rfl,rfl,rfl,rfl,rfl,rfl,rfl⟩

theorem listed_of_lists (h1 : t.lisQhead = s.lisQhead) (h2 : t.lisScanqhead = s.lisScanqhead) (q : Queue) :
    t.onLists isHead q = s.onLists isHead q := by
  simp only [onLists,listed,list,h1,h2]

theorem toNat_and (b : Bool) (p : Prop) [Decidable p] : (decide p && b).toNat = if p ∧ b = true then 1 else 0 := by
  by_cases hp : p <;> cases b <;> simp [hp]

theorem onLists_setList (isHead : ℕ → Bool) (scan : Bool) (l : List Queue) (x : Queue) :
    (s.setList scan l).onLists isHead x + (if refd isHead scan x then (s.list scan).count x else 0) =
      s.onLists isHead x + if refd isHead scan x then l.count x else 0 := by
  cases scan with
  | true =>
    show (if refd isHead true x then l.count x else 0) + s.listed isHead false x + s.listed isHead true x = _
    rw [onLists]
    omega
  | false =>
    show s.listed isHead true x + (if refd isHead false x then l.count x else 0) + s.listed isHead false x = _
    rw [onLists]
    omega

theorem refd_iff (x q : Queue) : (decide (x = q) && refd isHead scan q) = (decide (x = q) && refd isHead scan x) := by
  by_cases h : x = q
  · rw [h]
  · simp [h]

/- One more place on a list, or one place less. -/
theorem count_cons_if (q x : Queue) (l : List Queue) : (q :: l).count x = l.count x + if x = q then 1 else 0 := by
  rw [List.count_cons]
  exact congrArg _ (if_congr (by rw [beq_iff_eq]; exact eq_comm) rfl rfl)

theorem getTask_counted (h : s.Counted isHead) (hk : s.tasks[i]? = some (.get scan q)) :
    ((s.addRef (refd isHead scan q) q 1).goto i (.link scan q)).Counted isHead := by
  obtain ⟨h1,h2,h3,h4,h5,h6,-⟩ := addRef_same (s := s) (refd isHead scan q) q 1
  refine h.task (l := .link scan q) hk (congrArg (List.set · i _) h1) h2 h3 (h4.trans h.whole) fun x => ?_
  have hl : ((s.addRef (refd isHead scan q) q 1).goto i (.link scan q)).onLists isHead x = s.onLists isHead x :=
    listed_of_lists h5 h6 x
  rw [hl]
  show (s.addRef (refd isHead scan q) q 1).refs x + (s.onLists isHead x + 0 : ℕ) =
    s.refs x + (s.onLists isHead x + (decide (x = q) && refd isHead scan q).toNat : ℕ)
  rw [addRef_refs]
  cases decide (x = q) && refd isHead scan q <;> simp; omega

theorem link_counted (h : s.Counted isHead) (hk : s.tasks[i]? = some (.link scan q)) (hq : q ∉ s.list scan) :
    ({ s.setList scan (s.list scan ++ [q]) with cut := s.cut || decide (q ∈ s.list scan) }.goto i .idle).Counted isHead := by
  refine h.task (l := .idle) hk ?_ ?_ ?_ ?_ fun x => ?_
  · cases scan <;> rfl
  · cases scan <;> rfl
  · cases scan <;> rfl
  · show (s.cut || decide (q ∈ s.list scan)) = false
    rw [h.whole,decide_eq_false hq]
    rfl
  · have hrefs : (s.setList scan (s.list scan ++ [q])).refs = s.refs := by cases scan <;> rfl
    have hset := onLists_setList (s := s) isHead scan (s.list scan ++ [q]) x
    show (s.setList scan (s.list scan ++ [q])).refs x +
        (s.onLists isHead x + (decide (x = q) && refd isHead scan q).toNat : ℕ) =
      s.refs x + ((s.setList scan (s.list scan ++ [q])).onLists isHead x + 0 : ℕ)
    rw [hrefs,refd_iff,toNat_and]
    rw [List.count_append,count_cons_if] at hset
    simp only [List.count_nil] at hset
    cases hr : refd isHead scan x with
    | false =>
      rw [hr,if_neg Bool.noConfusion,if_neg Bool.noConfusion] at hset
      rw [if_neg fun hc => Bool.noConfusion hc.2]
      omega
    | true =>
      rw [hr,if_pos rfl,if_pos rfl] at hset
      by_cases hx : x = q
      · rw [if_pos hx] at hset
        rw [if_pos ⟨hx,rfl⟩]
        omega
      · rw [if_neg hx] at hset
        rw [if_neg fun hc => hx hc.1]
        omega

/- A queue is taken off a list altogether. -/
theorem unlink_counted (h : s.Counted isHead) (scan : Bool) (q : Queue) {magic : Bool} (hm : magic = true ∨ q ∉ s.list scan) :
    (s.unlink isHead scan q magic).Counted isHead := by
  rw [unlink]
  by_cases hq : q ∈ s.list scan
  · obtain rfl : magic = true := hm.resolve_right fun hc => hc hq
    rw [if_pos hq,if_pos rfl]
    obtain ⟨h1,h2,h3,h4,h5,h6,-⟩ := addRef_same (s := s) (refd isHead scan q) q (-(s.list scan).count q)
    generalize hu : s.addRef (refd isHead scan q) q (-(s.list scan).count q) = u at *
    have hlist : u.list scan = s.list scan := by rw [list,h5,h6,list]
    have hold : ∀ x, u.onLists isHead x = s.onLists isHead x := fun x => listed_of_lists h5 h6 x
    have hsame : (u.setList scan ((s.list scan).filter (· != q))).tasks = s.tasks ∧
        (u.setList scan ((s.list scan).filter (· != q))).runners = s.runners ∧
          (u.setList scan ((s.list scan).filter (· != q))).marks = s.marks ∧
            (u.setList scan ((s.list scan).filter (· != q))).cut = s.cut ∧
              (u.setList scan ((s.list scan).filter (· != q))).refs = u.refs := by
      cases scan <;> exact ⟨h1,h2,h3,h4,rfl⟩
    refine ⟨fun x => ?_,fun x => ?_,hsame.2.2.2.1.trans h.whole⟩
    · have hset := onLists_setList (s := u) isHead scan ((s.list scan).filter (· != q)) x
      have href := h.refs x
      have hadd : u.refs x = s.refs x + if (decide (x = q) && refd isHead scan q) = true then -((s.list scan).count q : ℤ) else 0 := by
        rw [← hu]
        exact addRef_refs ..
      rw [hsame.1,hsame.2.1,hsame.2.2.2.2]
      rw [hold,hlist] at hset
      rw [refd_iff] at hadd
      by_cases hx : x = q
      · subst hx
        have hz : ((s.list scan).filter (· != x)).count x = 0 :=
          List.count_eq_zero.mpr fun hc => absurd rfl (bne_iff_ne.mp (List.mem_filter.mp hc).2)
        rw [hz] at hset
        cases hr : refd isHead scan x <;> rw [hr] at hset hadd <;> simp at hset hadd <;> omega
      · have hz : ((s.list scan).filter (· != q)).count x = (s.list scan).count x :=
          List.count_filter (bne_iff_ne.mpr hx)
        rw [hz] at hset
        rw [decide_eq_false hx,Bool.false_and,if_neg Bool.noConfusion] at hadd
        omega
    · rw [hsame.2.1,hsame.2.2.1]
      exact h.marks x
  · rw [if_neg hq]
    exact h

/- Flags, semaphores and ups have nothing to do with it. -/
theorem Counted.congr (h : s.Counted isHead) (h1 : t.lisQhead = s.lisQhead) (h2 : t.lisScanqhead = s.lisScanqhead)
    (h3 : t.tasks = s.tasks) (h4 : t.runners = s.runners) (h5 : t.refs = s.refs) (h6 : t.marks = s.marks) (h7 : t.cut = s.cut) :
    t.Counted isHead := by
  refine ⟨fun q => ?_,fun q => ?_,h7.trans h.whole⟩
  · rw [h5,h3,h4,listed_of_lists h1 h2]
    exact h.refs q
  · rw [h6,h4]
    exact h.marks q

theorem Counted.setFlag (h : s.Counted isHead) (q : Queue) (f : Qflag) : (s.setFlag q f).Counted isHead :=
  h.congr rfl rfl rfl rfl rfl rfl rfl

/- The task goes on without a reference. -/
theorem Counted.goto (h : s.Counted isHead) (hk : s.tasks[i]? = some k) (hk0 : ∀ q, k.holds isHead q = false)
    (hl0 : ∀ q, l.holds isHead q = false) : (s.goto i l).Counted isHead := by
  refine h.task hk rfl rfl rfl h.whole fun q => ?_
  rw [hk0,hl0]
  rfl

theorem deschedule_counted {magic : Bool} {p : ℕ} (h : s.Counted isHead)
    (hm : magic = true ∨ ∀ scan w, (⟨p,w⟩ : Queue) ∉ s.list scan) : (s.deschedule isHead p magic).Counted isHead := by
  have hlist (v : Sched) (hv : magic = true ∨ ∀ scan w, (⟨p,w⟩ : Queue) ∉ v.list scan) (b u : Bool) :
      magic = true ∨ ∀ scan w, (⟨p,w⟩ : Queue) ∉ (v.unlink isHead b ⟨p,u⟩ magic).list scan := by
    rcases hv with hv | hv
    · exact Or.inl hv
    · have hu : v.unlink isHead b ⟨p,u⟩ magic = v := if_neg (hv b u)
      exact hu.symm ▸ Or.inr hv
  simp only [deschedule]
  have hfirst : ∀ v : Sched, v = (if (s.qFlag ⟨p,true⟩).qscan then
      (s.unlink isHead true ⟨p,true⟩ magic).setFlag ⟨p,true⟩
        { (s.unlink isHead true ⟨p,true⟩ magic).qFlag ⟨p,true⟩ with qscan := false } else s) →
      v.Counted isHead ∧ (magic = true ∨ ∀ scan w, (⟨p,w⟩ : Queue) ∉ v.list scan) := by
    rintro v rfl
    split_ifs
    · exact ⟨(unlink_counted h true ⟨p,true⟩ (hm.imp_right fun hn => hn true true)).setFlag _ _,hlist s hm true true⟩
    · exact ⟨h,hm⟩
  obtain ⟨hv,hvm⟩ := hfirst _ rfl
  generalize (if (s.qFlag ⟨p,true⟩).qscan = true then (s.unlink isHead true ⟨p,true⟩ magic).setFlag ⟨p,true⟩
    { (s.unlink isHead true ⟨p,true⟩ magic).qFlag ⟨p,true⟩ with qscan := false } else s) = v at hv hvm ⊢
  split_ifs
  · have h1 := unlink_counted hv false ⟨p,false⟩ (hvm.imp_right fun hn => hn false false)
    have h2 := unlink_counted h1 false ⟨p,true⟩ ((hlist v hvm false false).imp_right fun hn => hn false true)
    exact (h2.setFlag _ _).setFlag _ _
  · exact hv

theorem top_counted {a : List Queue} (h : s.Counted isHead) (hx : s.runners[c]? = some (.top scan)) (ha : s.list scan = q :: a) :
    ((((s.setList scan a).setFlag q { s.qFlag q with qrunning := true }).addMark q 1).move c (.took scan q)).Counted isHead := by
  refine h.runner (y := .took scan q) hx ?_ ?_ ?_ (fun x => ?_) fun x => ?_
  · cases scan <;> rfl
  · cases scan <;> rfl
  · cases scan <;> rfl
  · have hmarks : (s.setList scan a).marks = s.marks := by cases scan <;> rfl
    show Function.update (s.setList scan a).marks q ((s.setList scan a).marks q + 1) x + (0 : ℕ) =
      s.marks x + ((decide (x = q)).toNat : ℕ)
    rw [hmarks]
    by_cases hxq : x = q
    · subst hxq
      simp
    · simp [hxq]
  · have hrefs : (s.setList scan a).refs = s.refs := by cases scan <;> rfl
    have hset := onLists_setList (s := s) isHead scan a x
    show (s.setList scan a).refs x + (s.onLists isHead x + 0 : ℕ) =
      s.refs x + ((s.setList scan a).onLists isHead x + (decide (x = q) && refd isHead scan q).toNat : ℕ)
    rw [hrefs,refd_iff,toNat_and]
    rw [ha,count_cons_if] at hset
    cases hr : refd isHead scan x with
    | false =>
      rw [hr,if_neg Bool.noConfusion,if_neg Bool.noConfusion] at hset
      rw [if_neg fun hc => Bool.noConfusion hc.2]
      omega
    | true =>
      rw [hr,if_pos rfl,if_pos rfl] at hset
      by_cases hxq : x = q
      · rw [if_pos hxq] at hset
        rw [if_pos ⟨hxq,rfl⟩]
        omega
      · rw [if_neg hxq] at hset
        rw [if_neg fun hc => hxq hc.1]
        omega

/- QRUNNING is cleared by the one who has set it. -/
theorem marks_sub (q x : Queue) : (s.addMark q (-1)).marks x + (decide (x = q)).toNat = s.marks x := by
  show Function.update s.marks q (s.marks q + -1) x + _ = _
  by_cases hxq : x = q
  · subst hxq
    simp
  · simp [hxq]

theorem runStep_counted {magic flags locked : Bool} (h : s.Counted isHead) (hx : s.runners[c]? = some x)
    (hg : Guard isHead s (.run c magic flags locked)) (ht : s.runStep isHead c magic flags locked x = some t) :
    t.Counted isHead := by
  obtain ⟨hgt,hgl⟩ := hg x hx
  cases x with
  | top scan =>
    cases ha : s.list scan with
    | nil =>
      rw [runStep,ha] at ht
      obtain rfl := Option.some.inj ht
      exact h.runner (y := .top !scan) hx rfl rfl rfl (fun _ => rfl) fun _ => rfl
    | cons q a =>
      rw [runStep,ha] at ht
      obtain rfl := Option.some.inj ht
      exact top_counted h hx ha
  | took scan q =>
    have hmg : (!magic && (scan || flags)) = false := by
      rcases hgt scan q rfl with rfl | ⟨rfl,rfl⟩
      · rfl
      · exact Bool.and_false _
    simp only [runStep,hmg,Bool.false_eq_true,if_false] at ht
    obtain rfl := Option.some.inj ht
    exact h.runner (y := .lock scan q) hx rfl rfl rfl (fun _ => rfl) fun _ => rfl
  | lock scan q =>
    simp only [runStep] at ht
    split_ifs at ht with hl
    · obtain rfl := Option.some.inj ht
      exact h.runner (y := .done scan q) hx rfl rfl rfl (fun _ => rfl) fun _ => rfl
    · obtain rfl := Option.some.inj ht
      have hr : refd isHead scan q = false := ((hgl scan q rfl).resolve_left hl).1
      refine h.runner (y := .top scan) hx rfl rfl rfl (fun x => ?_) fun x => ?_
      · exact (marks_sub (s := s.setFlag q { s.qFlag q with qrunning := false }) q x).trans (Int.add_zero _).symm
      · show s.refs x + (s.onLists isHead x + (decide (x = q) && refd isHead scan q).toNat : ℕ) = s.refs x + (s.onLists isHead x + 0 : ℕ)
        rw [hr,Bool.and_false]
        rfl
  | done scan q =>
    obtain rfl := Option.some.inj ht
    have hmark := fun x => (marks_sub (s := s.setFlag q { s.qFlag q with qrunning := false }) q x).trans (Int.add_zero _).symm
    by_cases hc : ((s.qFlag q).qwaiting && (s.qFlag q).qWakeupSem.isSome) = true
    · rw [if_pos hc]
      exact h.runner (y := .up scan q) hx rfl rfl rfl hmark fun _ => rfl
    · rw [if_neg hc]
      exact h.runner (y := .put scan q) hx rfl rfl rfl hmark fun _ => rfl
  | up scan q =>
    cases hw : (s.qFlag q).qWakeupSem with
    | none =>
      rw [runStep,hw] at ht
      obtain rfl := Option.some.inj ht
      exact h.runner (y := .put scan q) hx rfl rfl rfl (fun _ => rfl) fun _ => rfl
    | some j =>
      rw [runStep,hw] at ht
      obtain rfl := Option.some.inj ht
      exact h.runner (y := .put scan q) hx rfl rfl rfl (fun _ => rfl) fun _ => rfl
  | put scan q =>
    obtain rfl := Option.some.inj ht
    obtain ⟨h1,h2,h3,h4,h5,h6,-⟩ := addRef_same (s := s) (refd isHead scan q) q (-1)
    refine h.runner (y := .top scan) hx (congrArg (List.set · c _) h2) h1 h4 (fun x => ?_) fun x => ?_
    · show (s.addRef (refd isHead scan q) q (-1)).marks x + (0 : ℕ) = s.marks x + (0 : ℕ)
      rw [h3]
    · have hl : ((s.addRef (refd isHead scan q) q (-1)).move c (.top scan)).onLists isHead x = s.onLists isHead x :=
        listed_of_lists h5 h6 x
      rw [hl]
      show (s.addRef (refd isHead scan q) q (-1)).refs x + (s.onLists isHead x + (decide (x = q) && refd isHead scan q).toNat : ℕ) =
        s.refs x + (s.onLists isHead x + 0 : ℕ)
      rw [addRef_refs]
      cases decide (x = q) && refd isHead scan q <;> simp; omega

/-! ### Waiting -/

/- The other flags may change. -/
def SameWaiting (s t : Sched) : Prop :=
  ∀ q, (t.qFlag q).qwaiting = (s.qFlag q).qwaiting ∧ (t.qFlag q).qWakeupSem = (s.qFlag q).qWakeupSem

theorem setFlag_self {f : Qflag} : (s.setFlag q f).qFlag q = f := Function.update_self ..

theorem setFlag_of_ne {f : Qflag} {z : Queue} (h : z ≠ q) : (s.setFlag q f).qFlag z = s.qFlag z := Function.update_of_ne h ..

theorem sameWaiting_setFlag {f : Qflag} (h1 : f.qwaiting = (s.qFlag q).qwaiting) (h2 : f.qWakeupSem = (s.qFlag q).qWakeupSem) :
    SameWaiting s (s.setFlag q f) := by
  intro x
  by_cases hx : x = q
  · subst hx
    rw [setFlag_self]
    exact ⟨h1,h2⟩
  · rw [setFlag_of_ne hx]
    exact ⟨rfl,rfl⟩

theorem busy_iff (p : ℕ) : s.busy p = true ↔ ∃ w, (s.qFlag ⟨p,w⟩).busy = true := by
  rw [busy,Bool.or_eq_true]
  constructor
  · rintro (h | h)
    · exact ⟨false,h⟩
    · exact ⟨true,h⟩
  · rintro ⟨w,h⟩
    cases w
    · exact Or.inl h
    · exact Or.inr h

theorem busy_congr {p : ℕ} (h : ∀ w, t.qFlag ⟨p,w⟩ = s.qFlag ⟨p,w⟩) : t.busy p = s.busy p := by
  rw [busy,busy,h,h]

theorem setFlag_of_pair {p : ℕ} (f : Qflag) (hp : p ≠ q.pair) (w : Bool) : (s.setFlag q f).qFlag ⟨p,w⟩ = s.qFlag ⟨p,w⟩ :=
  setFlag_of_ne fun hc => hp (congrArg Queue.pair hc)

theorem busy_mono {p : ℕ} {f : Qflag} (hf : f.busy = true) (h : s.busy p = true) : (s.setFlag q f).busy p = true := by
  obtain ⟨w,hw⟩ := (busy_iff p).mp h
  refine (busy_iff p).mpr ⟨w,?_⟩
  by_cases hx : (⟨p,w⟩ : Queue) = q
  · rw [hx,setFlag_self]
    exact hf
  · rw [setFlag_of_ne hx]
    exact hw

/-- What a step of a queue runner keeps. -/
theorem Waited.runner (h : s.Waited) (hx : s.runners[c]? = some x) (ht : t.runners = s.runners.set c y)
    (hr : t.tasks = s.tasks) (hf : SameWaiting s t) (hs : ∀ i, s.sems i ≤ t.sems i) (ho : t.oops = false)
    (hy : ∀ p, y.ups p = true → x.ups p = true ∨ ∃ w, (s.qFlag ⟨p,w⟩).qwaiting = true)
    (hw : ∀ i p, s.tasks[i]? = some (.down p) → s.busy p = true ∨ x.wakes p = true →
      t.busy p = true ∨ 0 < t.sems i ∨ t.Iterated p) : t.Waited := by
  have hwaits : ∀ i p, t.Waits i p ↔ s.Waits i p := fun i p => by rw [Waits,hr,Waits]
  refine ⟨fun i p hi w => ?_,fun q hq => ?_,fun z hz p hp => ?_,fun i p hi => ?_,ho⟩
  · rw [(hf _).1,(hf _).2]
    exact h.waiting i p ((hwaits i p).mp hi) w
  · rw [(hf q).1] at hq
    obtain ⟨i,hi,hiw⟩ := h.waiter q hq
    exact ⟨i,(hf q).2.trans hi,(hwaits i _).mpr hiw⟩
  · have hold : ∃ w, (s.qFlag ⟨p,w⟩).qwaiting = true := by
      rw [ht] at hz
      rcases List.mem_or_eq_of_mem_set hz with hz | rfl
      · exact h.ups z hz p hp
      · exact (hy p hp).elim (h.ups x (List.mem_of_getElem? hx) p) fun hq => hq
    exact hold.imp fun w hw => (hf _).1.trans hw
  · rw [hr] at hi
    rcases h.awake i p hi with hb | h0 | ⟨z,hz,hzp⟩
    · exact hw i p hi (Or.inl hb)
    · exact Or.inr (Or.inl (lt_of_lt_of_le h0 (hs i)))
    · obtain ⟨d,hd⟩ := List.mem_iff_getElem?.mp hz
      by_cases hdc : d = c
      · subst hdc
        rw [hx] at hd
        obtain rfl := Option.some.inj hd
        exact hw i p hi (Or.inr hzp)
      · exact Or.inr (Or.inr ⟨z,List.mem_iff_getElem?.mpr ⟨d,by rw [ht,List.getElem?_set_ne (Ne.symm hdc)]; exact hd⟩,hzp⟩)

theorem iterated_set {p : ℕ} (hx : s.runners[c]? = some x) (ht : t.runners = s.runners.set c y) (hy : y.wakes p = true) :
    t.Iterated p :=
  ⟨y,ht ▸ List.mem_set (List.getElem?_eq_some_iff.mp hx).1 y,hy⟩

theorem runStep_waited {magic flags locked : Bool} (h : s.Waited) (hx : s.runners[c]? = some x)
    (hg : Guard isHead s (.run c magic flags locked)) (ht : s.runStep isHead c magic flags locked x = some t) : t.Waited := by
  obtain ⟨hgt,hgl⟩ := hg x hx
  have hsame : SameWaiting s s := fun _ => ⟨rfl,rfl⟩
  -- a task that sleeps for the pair is found
  have hfind {i p : ℕ} (hi : s.tasks[i]? = some (.down p)) (w : Bool) :
      (s.qFlag ⟨p,w⟩).qwaiting = true ∧ (s.qFlag ⟨p,w⟩).qWakeupSem = some i :=
    h.waiting i p ⟨_,hi,decide_eq_true rfl⟩ w
  cases x with
  | top scan =>
    cases ha : s.list scan with
    | nil =>
      rw [runStep,ha] at ht
      obtain rfl := Option.some.inj ht
      exact h.runner (y := .top !scan) hx rfl rfl hsame (fun _ => le_rfl) h.target (fun _ hc => Bool.noConfusion hc) fun _ _ _ hb =>
        Or.inl (hb.resolve_right Bool.noConfusion)
    | cons q a =>
      rw [runStep,ha] at ht
      obtain rfl := Option.some.inj ht
      have hf : SameWaiting s ((s.setList scan a).setFlag q { s.qFlag q with qrunning := true }) := by
        cases scan <;> exact sameWaiting_setFlag (s := s) rfl rfl
      refine h.runner (y := .took scan q) hx ?_ ?_ hf (fun i => le_of_eq ?_) ?_ (fun _ hc => Bool.noConfusion hc)
        fun i p hi hb => Or.inl ?_
      · cases scan <;> rfl
      · cases scan <;> rfl
      · cases scan <;> rfl
      · cases scan <;> exact h.target
      · have hbusy := busy_mono (s := s) (q := q) (f := { s.qFlag q with qrunning := true }) (Bool.or_true _)
          (hb.resolve_right Bool.noConfusion)
        cases scan <;> exact hbusy
  | took scan q =>
    have hmg : (!magic && (scan || flags)) = false := by
      rcases hgt scan q rfl with rfl | ⟨rfl,rfl⟩
      · rfl
      · exact Bool.and_false _
    simp only [runStep,hmg,Bool.false_eq_true,if_false] at ht
    obtain rfl := Option.some.inj ht
    refine h.runner (y := .lock scan q) hx rfl rfl ?_ (fun _ => le_rfl) h.target (fun _ hc => Bool.noConfusion hc) fun i p hi hb => ?_
    · cases scan <;> exact sameWaiting_setFlag rfl rfl
    · by_cases hp : p = q.pair
      · exact Or.inr (Or.inr (iterated_set (y := .lock scan q) hx rfl (decide_eq_true hp.symm)))
      · refine Or.inl ((busy_congr fun w => setFlag_of_pair _ hp w).trans (hb.resolve_right fun hc => hp ?_))
        exact (of_decide_eq_true hc).symm
  | lock scan q =>
    simp only [runStep] at ht
    split_ifs at ht with hl
    · obtain rfl := Option.some.inj ht
      refine h.runner (y := .done scan q) hx rfl rfl hsame (fun _ => le_rfl) h.target (fun _ hc => Bool.noConfusion hc)
        fun i p hi hb => ?_
      exact hb.imp (fun hb => hb) fun hb => Or.inr (iterated_set (y := .done scan q) hx rfl hb)
    · obtain rfl := Option.some.inj ht
      refine h.runner (y := .top scan) hx rfl rfl (sameWaiting_setFlag (s := s) rfl rfl) (fun _ => le_rfl) h.target
        (fun _ hc => Bool.noConfusion hc) fun i p hi hb => ?_
      by_cases hp : p = q.pair
      · subst hp
        rcases ((hgl scan q rfl).resolve_left hl).2 (hfind hi q.wr).1 with hbusy | ⟨d,z,hdc,hd,hz⟩
        · exact Or.inl hbusy
        · exact Or.inr (Or.inr ⟨z,List.mem_iff_getElem?.mpr ⟨d,(List.getElem?_set_ne (Ne.symm hdc)).trans hd⟩,hz⟩)
      · refine Or.inl ((busy_congr fun w => setFlag_of_pair _ hp w).trans (hb.resolve_right fun hc => hp ?_))
        exact (of_decide_eq_true hc).symm
  | done scan q =>
    obtain rfl := Option.some.inj ht
    have hother : ∀ p, p ≠ q.pair → (s.busy p = true ∨ (Place.done scan q).wakes p = true) →
        (s.setFlag q { s.qFlag q with qrunning := false }).busy p = true := fun p hp hb =>
      (busy_congr fun w => setFlag_of_pair _ hp w).trans (hb.resolve_right fun hc => hp (of_decide_eq_true hc).symm)
    by_cases hc : ((s.qFlag q).qwaiting && (s.qFlag q).qWakeupSem.isSome) = true
    · rw [if_pos hc]
      refine h.runner (y := .up scan q) hx rfl rfl (sameWaiting_setFlag (s := s) rfl rfl) (fun _ => le_rfl) h.target (fun p hp => ?_)
        fun i p hi hb => ?_
      · obtain rfl : q.pair = p := of_decide_eq_true hp
        exact Or.inr ⟨q.wr,(Bool.and_eq_true_iff.mp hc).1⟩
      · by_cases hp : p = q.pair
        · exact Or.inr (Or.inr (iterated_set (y := .up scan q) hx rfl (decide_eq_true hp.symm)))
        · exact Or.inl (hother p hp hb)
    · rw [if_neg hc]
      refine h.runner (y := .put scan q) hx rfl rfl (sameWaiting_setFlag (s := s) rfl rfl) (fun _ => le_rfl) h.target
        (fun p hp => Bool.noConfusion hp) fun i p hi hb => ?_
      by_cases hp : p = q.pair
      · subst hp
        have hq := hfind hi q.wr
        exact absurd (Bool.and_eq_true_iff.mpr ⟨hq.1,by rw [hq.2]; rfl⟩) hc
      · exact Or.inl (hother p hp hb)
  | up scan q =>
    obtain ⟨w,hw⟩ := h.ups _ (List.mem_of_getElem? hx) q.pair (decide_eq_true rfl)
    obtain ⟨i0,-,hi0⟩ := h.waiter _ hw
    have hsem : (s.qFlag q).qWakeupSem = some i0 := (h.waiting i0 q.pair hi0 q.wr).2
    rw [runStep,hsem] at ht
    obtain rfl := Option.some.inj ht
    refine h.runner (y := .put scan q) hx rfl rfl hsame (fun i => ?_) h.target (fun p hp => Bool.noConfusion hp) fun i p hi hb => ?_
    · show s.sems i ≤ Function.update s.sems i0 (s.sems i0 + 1) i
      by_cases hii : i = i0
      · subst hii
        rw [Function.update_self]
        exact Nat.le_succ _
      · rw [Function.update_of_ne hii]
    · by_cases hp : p = q.pair
      · subst hp
        obtain rfl := Option.some.inj ((hfind hi q.wr).2.symm.trans hsem)
        refine Or.inr (Or.inl ?_)
        show 0 < Function.update s.sems i (s.sems i + 1) i
        rw [Function.update_self]
        exact Nat.succ_pos _
      · exact Or.inl (hb.resolve_right fun hc => hp (of_decide_eq_true hc).symm)
  | put scan q =>
    obtain rfl := Option.some.inj ht
    obtain ⟨h1,h2,h3,h4,h5,h6,h7,h8,h9⟩ := addRef_same (s := s) (refd isHead scan q) q (-1)
    refine h.runner (y := .top scan) hx (congrArg (List.set · c _) h2) h1 (fun x => ?_) (fun i => ?_) (h9.trans h.target)
      (fun _ hc => Bool.noConfusion hc) fun i p hi hb => Or.inl ?_
    · show ((s.addRef (refd isHead scan q) q (-1)).qFlag x).qwaiting = _ ∧ ((s.addRef (refd isHead scan q) q (-1)).qFlag x).qWakeupSem = _
      rw [h7]
      exact ⟨rfl,rfl⟩
    · exact le_of_eq (congrFun h8 i).symm
    · exact (busy_congr fun w => congrFun h7 _).trans (hb.resolve_right Bool.noConfusion)

/-- What a step keeps that neither queue runners nor waiting tasks take part in. -/
theorem Waited.still (h : s.Waited) (hr : t.runners = s.runners) (hf : SameWaiting s t) (hs : t.sems = s.sems)
    (ho : t.oops = s.oops) (ht : ∀ i p, t.Waits i p ↔ s.Waits i p)
    (hd : ∀ (i p : ℕ), t.tasks[i]? = some (.down p) → s.tasks[i]? = some (.down p))
    (hb : ∀ (i p : ℕ), s.tasks[i]? = some (.down p) → s.busy p = true → t.busy p = true ∨ 0 < s.sems i ∨ s.Iterated p) : t.Waited := by
  refine ⟨fun i p hi w => ?_,fun q hq => ?_,fun x hx p hp => ?_,fun i p hi => ?_,ho.trans h.target⟩
  · rw [(hf _).1,(hf _).2]
    exact h.waiting i p ((ht i p).mp hi) w
  · rw [(hf q).1] at hq
    obtain ⟨i,hi,hiw⟩ := h.waiter q hq
    exact ⟨i,(hf q).2.trans hi,(ht i _).mpr hiw⟩
  · exact (h.ups x (hr ▸ hx) p hp).imp fun w hw => (hf _).1.trans hw
  · rw [hs,Iterated,hr]
    exact (h.awake i p (hd i p hi)).elim (hb i p (hd i p hi)) Or.inr

/- The task does not wait, before and after. -/
theorem waits_set (hk : s.tasks[i]? = some k) (ht : t.tasks = s.tasks.set i l) (hw : ∀ p, l.waits p = k.waits p) (j p : ℕ) :
    t.Waits j p ↔ s.Waits j p := by
  rw [Waits,Waits,ht]
  by_cases hj : j = i
  · subst hj
    rw [List.getElem?_set_self (List.getElem?_eq_some_iff.mp hk).1,hk]
    constructor
    · rintro ⟨m,hm,hmw⟩
      obtain rfl := Option.some.inj hm
      exact ⟨k,rfl,(hw p).symm.trans hmw⟩
    · rintro ⟨m,hm,hmw⟩
      obtain rfl := Option.some.inj hm
      exact ⟨l,rfl,(hw p).trans hmw⟩
  · rw [List.getElem?_set_ne (Ne.symm hj)]

theorem down_of_set {j p : ℕ} (ht : t.tasks = s.tasks.set i l) (hl : l ≠ .down p) (hj : t.tasks[j]? = some (.down p)) :
    j ≠ i ∧ s.tasks[j]? = some (.down p) := by
  rw [ht] at hj
  rcases set_cases hj with ⟨-,hl'⟩ | ⟨hne,hj⟩
  · exact absurd hl'.symm hl
  · exact ⟨hne,hj⟩

theorem Waited.goto (h : s.Waited) (hk : s.tasks[i]? = some k) (hw : ∀ p, l.waits p = k.waits p) (hl : ∀ p, l ≠ .down p)
    (hr : t.runners = s.runners) (ht : t.tasks = s.tasks.set i l) (hf : SameWaiting s t) (hs : t.sems = s.sems)
    (ho : t.oops = s.oops) (hb : ∀ p, s.busy p = true → t.busy p = true) : t.Waited :=
  h.still hr hf hs ho (waits_set hk ht hw) (fun _ p hj => (down_of_set ht (hl p) hj).2) fun _ p _ hbp => Or.inl (hb p hbp)

theorem setWaiting_flag (p : ℕ) (b : Bool) (w : Option ℕ) (q : Queue) : (s.setWaiting p b w).qFlag q =
    if q.pair = p then { s.qFlag q with qwaiting := b, qWakeupSem := w } else s.qFlag q := by
  by_cases hp : q.pair = p
  · subst hp
    obtain ⟨p,u⟩ := q
    rw [if_pos rfl]
    cases u with
    | false =>
      have hne : (⟨p,false⟩ : Queue) ≠ ⟨p,true⟩ := fun hc => Bool.noConfusion (congrArg Queue.wr hc)
      refine setFlag_self.trans ?_
      rw [setFlag_of_ne hne]
    | true =>
      have hne : (⟨p,true⟩ : Queue) ≠ ⟨p,false⟩ := fun hc => Bool.noConfusion (congrArg Queue.wr hc)
      exact (setFlag_of_ne hne).trans setFlag_self
  · rw [if_neg hp]
    have h1 : q ≠ ⟨p,false⟩ := fun hc => hp (congrArg Queue.pair hc)
    have h2 : q ≠ ⟨p,true⟩ := fun hc => hp (congrArg Queue.pair hc)
    exact (setFlag_of_ne h1).trans (setFlag_of_ne h2)

theorem setWaiting_busy (p : ℕ) (b : Bool) (w : Option ℕ) (u : ℕ) : (s.setWaiting p b w).busy u = s.busy u := by
  have hq : ∀ q, ((s.setWaiting p b w).qFlag q).busy = (s.qFlag q).busy := by
    intro q
    rw [setWaiting_flag]
    split_ifs <;> rfl
  rw [busy,busy,hq,hq]

/-- A task begins to wait for a pair, or stops, and no other one waits for it. -/
theorem Waited.alone {p : ℕ} {v : Bool} (h : s.Waited) (hk : s.tasks[i]? = some k) (hkp : ∀ u, k.waits u = true → u = p)
    (hone : ∀ j, j ≠ i → ¬s.Waits j p) (hr : t.runners = s.runners) (ht : t.tasks = s.tasks.set i l)
    (hf : ∀ q, ((t.qFlag q).qwaiting,(t.qFlag q).qWakeupSem) =
      if q.pair = p then (v,if v then some i else none) else ((s.qFlag q).qwaiting,(s.qFlag q).qWakeupSem))
    (hb : ∀ u, t.busy u = s.busy u) (hs : ∀ j, j ≠ i → t.sems j = s.sems j) (ho : t.oops = s.oops)
    (hl : ∀ u, l.waits u = (v && decide (u = p))) (hld : ∀ u, l = .down u → s.busy u = true)
    (hu : v = false → ∀ x ∈ s.runners, x.ups p = false) : t.Waited := by
  have hother : ∀ j u, j ≠ i → (t.Waits j u ↔ s.Waits j u) := fun j u hj => by
    rw [Waits,Waits,ht,List.getElem?_set_ne (Ne.symm hj)]
  have hself : ∀ u, t.Waits i u ↔ l.waits u = true := by
    intro u
    rw [Waits,ht,List.getElem?_set_self (List.getElem?_eq_some_iff.mp hk).1]
    exact ⟨fun ⟨m,hm,hmw⟩ => Option.some.inj hm ▸ hmw,fun hw => ⟨l,rfl,hw⟩⟩
  have hin : ∀ q, q.pair = p → (t.qFlag q).qwaiting = v ∧ (t.qFlag q).qWakeupSem = if v then some i else none := by
    intro q hq
    have he := hf q
    rw [if_pos hq] at he
    exact Prod.mk.inj he
  have hout : ∀ q, q.pair ≠ p → (t.qFlag q).qwaiting = (s.qFlag q).qwaiting ∧ (t.qFlag q).qWakeupSem = (s.qFlag q).qWakeupSem := by
    intro q hq
    have he := hf q
    rw [if_neg hq] at he
    exact Prod.mk.inj he
  refine ⟨fun j u hj w => ?_,fun q hq => ?_,fun x hx u hxu => ?_,fun j u hj => ?_,ho.trans h.target⟩
  · by_cases hji : j = i
    · subst hji
      have hv := (hself u).mp hj
      rw [hl,Bool.and_eq_true] at hv
      obtain rfl := of_decide_eq_true hv.2
      have hq := hin ⟨u,w⟩ rfl
      rw [hv.1] at hq
      exact hq
    · have hj := (hother j u hji).mp hj
      have hup : u ≠ p := fun hc => hone j hji (hc ▸ hj)
      rw [(hout ⟨u,w⟩ hup).1,(hout ⟨u,w⟩ hup).2]
      exact h.waiting j u hj w
  · by_cases hp : q.pair = p
    · have hv := (hin q hp).1.symm.trans hq
      refine ⟨i,?_,(hself _).mpr ?_⟩
      · rw [(hin q hp).2,hv]
        rfl
      · rw [hl,hv]
        exact decide_eq_true hp
    · rw [(hout q hp).1] at hq
      obtain ⟨j,hj,hjw⟩ := h.waiter q hq
      have hji : j ≠ i := by
        rintro rfl
        obtain ⟨m,hm,hmw⟩ := hjw
        rw [hk] at hm
        obtain rfl := Option.some.inj hm
        exact hp (hkp _ hmw)
      exact ⟨j,(hout q hp).2.trans hj,(hother j _ hji).mpr hjw⟩
  · rw [hr] at hx
    by_cases hup : u = p
    · subst hup
      cases v with
      | true => exact ⟨true,(hin ⟨u,true⟩ rfl).1⟩
      | false => exact Bool.noConfusion ((hu rfl x hx).symm.trans hxu)
    · exact (h.ups x hx u hxu).imp fun w hw => (hout ⟨u,w⟩ hup).1.trans hw
  · rw [hb,Iterated,hr]
    rw [ht] at hj
    rcases set_cases hj with ⟨rfl,hlj⟩ | ⟨hji,hj⟩
    · exact Or.inl (hld u hlj.symm)
    · rw [hs j hji]
      exact h.awake j u hj

/- Nobody waits for the pair, and no up is on its way. -/
theorem Waited.free {p : ℕ} (h : s.Waited) (hp : (s.qFlag ⟨p,true⟩).qwaiting = false) :
    (∀ j, ¬s.Waits j p) ∧ ∀ x ∈ s.runners, x.ups p = false := by
  have hno : ∀ j, ¬s.Waits j p := fun j hj => Bool.noConfusion (hp.symm.trans (h.waiting j p hj true).1)
  refine ⟨hno,fun x hx => ?_⟩
  by_contra hc
  obtain ⟨w,hw⟩ := h.ups x hx p (eq_true_of_ne_false hc)
  obtain ⟨j,-,hj⟩ := h.waiter _ hw
  exact hno j hj

theorem leave_waited {p : ℕ} (h : s.Waited) (hk : s.tasks[i]? = some k) (hkp : ∀ u, k.waits u = true → u = p)
    (hone : ∀ j, j ≠ i → ¬s.Waits j p) (hu : ∀ x ∈ s.runners, x.ups p = false) (f : ℕ → ℕ) (hf : ∀ j, j ≠ i → f j = s.sems j)
    (v : Sched) (hv : ∀ q, ((v.qFlag q).qwaiting,(v.qFlag q).qWakeupSem) =
      if q.pair = p then (false,none) else ((s.qFlag q).qwaiting,(s.qFlag q).qWakeupSem)) (hb : ∀ u, v.busy u = s.busy u)
    (hs : v.sems = f) (hr : v.runners = s.runners) (ht : v.tasks = s.tasks) (ho : v.oops = s.oops) : (v.goto i .idle).Waited :=
  h.alone (t := v.goto i .idle) (v := false) (l := .idle) hk hkp hone hr (congrArg (List.set · i _) ht) hv hb
    (fun j hj => (congrFun hs j).trans (hf j hj)) ho (fun _ => rfl) (fun _ hc => Task.noConfusion hc) fun _ => hu

theorem setWaiting_pair (p : ℕ) (b : Bool) (w : Option ℕ) (q : Queue) :
    (((s.setWaiting p b w).qFlag q).qwaiting,((s.setWaiting p b w).qFlag q).qWakeupSem) =
      if q.pair = p then (b,w) else ((s.qFlag q).qwaiting,(s.qFlag q).qWakeupSem) := by
  rw [setWaiting_flag]
  split_ifs <;> rfl

theorem await_waited {p : ℕ} (h : s.Waited) (hk : s.tasks[i]? = some (.await p)) (hg : (s.qFlag ⟨p,true⟩).qwaiting = false) :
    (({ s with sems := Function.update s.sems i 0 }.setWaiting p true (some i)).awaitQsched i p true).Waited := by
  obtain ⟨hno,hups⟩ := h.free hg
  have hsems : ∀ j, j ≠ i → Function.update s.sems i 0 j = s.sems j := fun j hj => Function.update_of_ne hj ..
  have hkp : ∀ u, (Task.await p).waits u = true → u = p := fun _ hc => Bool.noConfusion hc
  have hbusy : ∀ u, ({ s with sems := Function.update s.sems i 0 }.setWaiting p true (some i)).busy u = s.busy u :=
    fun u => setWaiting_busy (s := { s with sems := Function.update s.sems i 0 }) p true (some i) u
  have hflag := setWaiting_pair (s := { s with sems := Function.update s.sems i 0 }) p true (some i)
  rw [awaitQsched,hbusy p,Bool.and_true]
  by_cases hb : s.busy p = true
  · rw [if_pos hb]
    refine h.alone (v := true) (l := .down p) hk hkp (fun j _ => hno j) rfl rfl hflag hbusy hsems rfl (fun u => ?_)
      (fun u hu => ?_) fun hc => Bool.noConfusion hc
    · show decide (p = u) = (true && decide (u = p))
      rw [Bool.true_and]
      exact decide_eq_decide.mpr eq_comm
    · obtain rfl := Task.down.inj hu
      exact hb
  · rw [if_neg hb]
    refine leave_waited h hk hkp (fun j _ => hno j) hups (Function.update s.sems i 0) hsems _ (fun q => ?_) (fun u => ?_) rfl rfl rfl rfl
    · rw [setWaiting_pair]
      split_ifs with hq
      · rfl
      · rw [hflag,if_neg hq]
    · rw [setWaiting_busy]
      exact hbusy u

theorem woken_waited {p : ℕ} {rslt : Bool} (h : s.Waited) (hk : s.tasks[i]? = some (.woken p rslt))
    (hg : (s.busy p && rslt) = false → ∀ x ∈ s.runners, x.ups p = false) : (s.awaitQsched i p rslt).Waited := by
  have hkp : ∀ u, (Task.woken p rslt).waits u = true → u = p := fun u hu => (of_decide_eq_true hu).symm
  have hwait := h.waiting i p ⟨_,hk,decide_eq_true rfl⟩
  have hone : ∀ j, j ≠ i → ¬s.Waits j p := by
    intro j hj hjp
    exact hj (Option.some.inj ((h.waiting j p hjp true).2.symm.trans (hwait true).2))
  rw [awaitQsched]
  by_cases hb : (s.busy p && rslt) = true
  · rw [if_pos hb]
    refine h.alone (v := true) (l := .down p) hk hkp hone rfl rfl (fun q => ?_) (fun _ => rfl) (fun _ _ => rfl) rfl (fun u => ?_)
      (fun u hu => ?_) fun hc => Bool.noConfusion hc
    · by_cases hq : q.pair = p
      · rw [if_pos hq]
        obtain rfl := hq
        exact Prod.ext (hwait q.wr).1 (hwait q.wr).2
      · rw [if_neg hq]
        rfl
    · show decide (p = u) = (true && decide (u = p))
      rw [Bool.true_and]
      exact decide_eq_decide.mpr eq_comm
    · obtain rfl := Task.down.inj hu
      exact (Bool.and_eq_true_iff.mp hb).1
  · rw [if_neg hb]
    exact leave_waited h hk hkp hone (hg (eq_false_of_ne_true hb)) s.sems (fun _ _ => rfl) _ (fun q => setWaiting_pair p false none q)
      (fun u => setWaiting_busy p false none u) rfl rfl rfl rfl

/- A wait is over: the semaphore was up, or there was a signal. -/
theorem down_waited {p : ℕ} {rslt : Bool} (h : s.Waited) (hk : s.tasks[i]? = some (.down p)) (f : ℕ → ℕ)
    (hf : ∀ j, j ≠ i → f j = s.sems j) : ({ s with sems := f }.goto i (.woken p rslt)).Waited := by
  have hwaits := waits_set (t := { s with sems := f }.goto i (.woken p rslt)) (l := .woken p rslt) hk rfl fun _ => rfl
  refine ⟨fun j u hj w => ?_,fun q hq => ?_,h.ups,fun j u hj => ?_,h.target⟩
  · exact h.waiting j u ((hwaits j u).mp hj) w
  · exact (h.waiter q hq).imp fun j hj => ⟨hj.1,(hwaits j _).mpr hj.2⟩
  · obtain ⟨hji,hj⟩ := down_of_set (s := s) (l := .woken p rslt) rfl Task.noConfusion hj
    have := h.awake j u hj
    rw [← hf j hji] at this
    exact this

/- What `deschedule` does to flags. -/
theorem unlink_same (isHead : ℕ → Bool) (scan : Bool) (q : Queue) (magic : Bool) :
    (s.unlink isHead scan q magic).tasks = s.tasks ∧ (s.unlink isHead scan q magic).runners = s.runners ∧
    (s.unlink isHead scan q magic).qFlag = s.qFlag ∧ (s.unlink isHead scan q magic).sems = s.sems ∧
      (s.unlink isHead scan q magic).oops = s.oops := by
  rw [unlink]
  split_ifs
  · obtain ⟨h1,h2,h3,h4,h5,h6,h7,h8,h9⟩ := addRef_same (s := s) (refd isHead scan q) q (-(s.list scan).count q)
    cases scan <;> exact ⟨h1,h2,h7,h8,h9⟩
  · exact ⟨rfl,rfl,rfl,rfl,rfl⟩
  · exact ⟨rfl,rfl,rfl,rfl,rfl⟩

theorem deschedule_same (isHead : ℕ → Bool) (p : ℕ) (magic : Bool) : (s.deschedule isHead p magic).tasks = s.tasks ∧
    (s.deschedule isHead p magic).runners = s.runners ∧ (s.deschedule isHead p magic).sems = s.sems ∧
      (s.deschedule isHead p magic).oops = s.oops ∧ ∀ q, ∃ a b, (s.deschedule isHead p magic).qFlag q =
        { s.qFlag q with qenab := a, qscan := b } ∧ (q.pair ≠ p → a = (s.qFlag q).qenab ∧ b = (s.qFlag q).qscan) := by
  have hflag (v : Sched) (z : Queue) (a b : Bool) (hz : z.pair = p) (hv : ∀ q, ∃ a b, v.qFlag q =
      { s.qFlag q with qenab := a, qscan := b } ∧ (q.pair ≠ p → a = (s.qFlag q).qenab ∧ b = (s.qFlag q).qscan)) (q : Queue) :
      ∃ c d, (v.setFlag z { v.qFlag z with qenab := a, qscan := b }).qFlag q = { s.qFlag q with qenab := c, qscan := d } ∧
        (q.pair ≠ p → c = (s.qFlag q).qenab ∧ d = (s.qFlag q).qscan) := by
    by_cases hq : q = z
    · subst hq
      obtain ⟨c,d,hc,-⟩ := hv q
      exact ⟨a,b,by rw [setFlag_self,hc],fun hc => absurd hz hc⟩
    · obtain ⟨c,d,hc,hcd⟩ := hv q
      exact ⟨c,d,by rw [setFlag_of_ne hq,hc],hcd⟩
  have hs : ∀ q, ∃ a b, s.qFlag q = { s.qFlag q with qenab := a, qscan := b } ∧
      (q.pair ≠ p → a = (s.qFlag q).qenab ∧ b = (s.qFlag q).qscan) := fun q => ⟨_,_,rfl,fun _ => ⟨rfl,rfl⟩⟩
  simp only [deschedule]
  generalize hv : (if (s.qFlag ⟨p,true⟩).qscan = true then (s.unlink isHead true ⟨p,true⟩ magic).setFlag ⟨p,true⟩
    { (s.unlink isHead true ⟨p,true⟩ magic).qFlag ⟨p,true⟩ with qscan := false } else s) = v
  have h1 : v.tasks = s.tasks ∧ v.runners = s.runners ∧ v.sems = s.sems ∧ v.oops = s.oops ∧ ∀ q, ∃ a b, v.qFlag q =
      { s.qFlag q with qenab := a, qscan := b } ∧ (q.pair ≠ p → a = (s.qFlag q).qenab ∧ b = (s.qFlag q).qscan) := by
    rw [← hv]
    split_ifs
    · obtain ⟨h1,h2,h3,h4,h5⟩ := unlink_same (s := s) isHead true ⟨p,true⟩ magic
      exact ⟨h1,h2,h4,h5,hflag _ ⟨p,true⟩ _ false rfl fun q => h3.symm ▸ hs q⟩
    · exact ⟨rfl,rfl,rfl,rfl,hs⟩
  split_ifs
  · obtain ⟨a1,a2,a3,a4,a5⟩ := unlink_same (s := v) isHead false ⟨p,false⟩ magic
    obtain ⟨b1,b2,b3,b4,b5⟩ := unlink_same (s := v.unlink isHead false ⟨p,false⟩ magic) isHead false ⟨p,true⟩ magic
    refine ⟨b1.trans (a1.trans h1.1),b2.trans (a2.trans h1.2.1),b4.trans (a4.trans h1.2.2.1),b5.trans (a5.trans h1.2.2.2.1),?_⟩
    exact hflag _ ⟨p,false⟩ false _ rfl (hflag _ ⟨p,true⟩ false _ rfl fun q => (b3.trans a3).symm ▸ h1.2.2.2.2 q)
  · exact h1

theorem deschedule_waited {magic : Bool} {p : ℕ} (h : s.Waited) (hg : (s.qFlag ⟨p,true⟩).qwaiting = true →
    (s.qFlag ⟨p,false⟩).qrunning = true ∨ (s.qFlag ⟨p,true⟩).qrunning = true ∨ s.Iterated p) :
    (s.deschedule isHead p magic).Waited := by
  obtain ⟨ht,hr,hs,ho,hf⟩ := deschedule_same (s := s) isHead p magic
  have hwaits : ∀ i p', (s.deschedule isHead p magic).Waits i p' ↔ s.Waits i p' := fun i p' => by rw [Waits,ht,Waits]
  refine h.still hr (fun q => ?_) hs ho hwaits (fun i u hi => ht ▸ hi) fun i u hi hb => ?_
  · obtain ⟨a,b,he,-⟩ := hf q
    rw [he]
    exact ⟨rfl,rfl⟩
  · by_cases hup : u = p
    · subst hup
      have hrun : ∀ w, (s.qFlag ⟨u,w⟩).qrunning = true → (s.deschedule isHead u magic).busy u = true := by
        intro w hw
        obtain ⟨a,b,he,-⟩ := hf ⟨u,w⟩
        refine (busy_iff u).mpr ⟨w,?_⟩
        rw [he,Qflag.busy]
        exact Bool.or_eq_true_iff.mpr (Or.inr hw)
      rcases hg (h.waiting i u ⟨_,hi,decide_eq_true rfl⟩ true).1 with hw | hw | hw
      · exact Or.inl (hrun false hw)
      · exact Or.inl (hrun true hw)
      · exact Or.inr (Or.inr hw)
    · refine Or.inl ((busy_congr fun w => ?_).trans hb)
      obtain ⟨a,b,he,hab⟩ := hf ⟨u,w⟩
      obtain ⟨rfl,rfl⟩ := hab hup
      exact he

/-! ### Runs -/

/-- What holds in every state. -/
structure Inv (isHead : ℕ → Bool) (s : Sched) : Prop where
  counted : s.Counted isHead
  waited : s.Waited

theorem Inv.sound (h : s.Inv isHead) : s.Sound isHead :=
  ⟨h.counted.refs,h.counted.marks,fun i p hi hb => (h.waited.awake i p hi).resolve_left fun hc => Bool.noConfusion (hb.symm.trans hc),
    h.counted.whole,h.waited.target⟩

theorem taskStep_inv {signalled : Bool} (h : s.Inv isHead) (hk : s.tasks[i]? = some k) (hg : Guard isHead s (.task i signalled))
    (ht : s.taskStep isHead i signalled k = some t) : t.Inv isHead := by
  obtain ⟨hgl,hga,hgw⟩ := hg k hk
  have hsame : SameWaiting s s := fun _ => ⟨rfl,rfl⟩
  have hnone : ∀ {k : Task}, (∀ scan q, k ≠ .link scan q) → ∀ q, k.holds isHead q = false := by
    intro k hk q
    cases k with
    | link scan q => exact absurd rfl (hk scan q)
    | _ => rfl
  -- `lis_await_qsched` has no reference
  have hawait (v : Sched) (p : ℕ) (rslt : Bool) (hv : v.Counted isHead) (hkv : v.tasks[i]? = some k) (hk0 : ∀ scan q, k ≠ .link scan q) :
      (v.awaitQsched i p rslt).Counted isHead := by
    rw [awaitQsched]
    split_ifs
    · exact hv.goto hkv (hnone hk0) (hnone fun _ _ hc => Task.noConfusion hc)
    · exact (hv.congr (t := v.setWaiting p false none) rfl rfl rfl rfl rfl rfl rfl).goto hkv (hnone hk0)
        (hnone fun _ _ hc => Task.noConfusion hc)
  cases k with
  | idle => cases ht
  | get scan q =>
    obtain rfl := Option.some.inj ht
    obtain ⟨h1,h2,h3,h4,h5,h6,h7,h8,h9⟩ := addRef_same (s := s) (refd isHead scan q) q 1
    refine ⟨getTask_counted h.counted hk,?_⟩
    refine h.waited.goto (l := .link scan q) hk (fun _ => rfl) (fun _ hc => Task.noConfusion hc) h2 (congrArg (List.set · i _) h1)
      (fun x => ?_) h8 h9 fun p hb => (busy_congr fun w => congrFun h7 _).trans hb
    show ((s.addRef (refd isHead scan q) q 1).qFlag x).qwaiting = _ ∧ ((s.addRef (refd isHead scan q) q 1).qFlag x).qWakeupSem = _
    rw [h7]
    exact ⟨rfl,rfl⟩
  | link scan q =>
    obtain rfl := Option.some.inj ht
    refine ⟨link_counted h.counted hk (hgl scan q rfl),?_⟩
    cases scan <;> exact h.waited.goto (l := .idle) hk (fun _ => rfl) (fun _ hc => Task.noConfusion hc) rfl rfl hsame rfl rfl fun _ hb => hb
  | await p =>
    obtain rfl := Option.some.inj ht
    refine ⟨hawait _ p true ?_ hk fun _ _ hc => Task.noConfusion hc,await_waited h.waited hk (hga p rfl)⟩
    exact h.counted.congr rfl rfl rfl rfl rfl rfl rfl
  | down p =>
    have hcount : ∀ f r, ({ s with sems := f }.goto i (.woken p r)).Counted isHead := fun f r =>
      (h.counted.congr (t := { s with sems := f }) rfl rfl rfl rfl rfl rfl rfl).goto (l := .woken p r) hk
        (hnone fun _ _ hc => Task.noConfusion hc) (hnone fun _ _ hc => Task.noConfusion hc)
    simp only [taskStep] at ht
    split_ifs at ht
    · obtain rfl := Option.some.inj ht
      exact ⟨hcount s.sems false,down_waited h.waited hk s.sems fun _ _ => rfl⟩
    · obtain rfl := Option.some.inj ht
      exact ⟨hcount _ true,down_waited h.waited hk _ fun j hj => Function.update_of_ne hj ..⟩
  | woken p rslt =>
    obtain rfl := Option.some.inj ht
    exact ⟨hawait s p rslt h.counted hk fun _ _ hc => Task.noConfusion hc,woken_waited h.waited hk (hgw p rslt rfl)⟩

theorem step_inv {a : Act} (h : s.Inv isHead) (hg : Guard isHead s a) (hs : step isHead s a = some t) : t.Inv isHead := by
  cases a with
  | qenable i q inhibited =>
    simp only [step] at hs
    split_ifs at hs with hk
    obtain rfl := Option.some.inj hs
    rw [lisQenable]
    split_ifs
    · exact h
    · exact ⟨(h.counted.setFlag q _).goto (k := .idle) hk (fun _ => rfl) fun _ => rfl,
        h.waited.goto (l := .get false q) hk (fun _ => rfl) (fun _ hc => Task.noConfusion hc) rfl rfl
          (sameWaiting_setFlag (s := s) rfl rfl) rfl rfl fun _ => busy_mono rfl⟩
  | addToScanl i p procsoff =>
    simp only [step] at hs
    split_ifs at hs with hk
    obtain rfl := Option.some.inj hs
    rw [addToScanl]
    split_ifs
    · exact h
    · exact ⟨(h.counted.setFlag ⟨p,true⟩ _).goto (k := .idle) hk (fun _ => rfl) fun _ => rfl,
        h.waited.goto (l := .get true ⟨p,true⟩) hk (fun _ => rfl) (fun _ hc => Task.noConfusion hc) rfl rfl
          (sameWaiting_setFlag (s := s) rfl rfl) rfl rfl fun _ => busy_mono (by rw [Qflag.busy,Bool.or_true]; rfl)⟩
  | awaitQsched i p =>
    simp only [step] at hs
    split_ifs at hs with hk hb
    · obtain rfl := Option.some.inj hs
      exact ⟨h.counted.goto (k := .idle) hk (fun _ => rfl) fun _ => rfl,
        h.waited.goto (l := .await p) hk (fun _ => rfl) (fun _ hc => Task.noConfusion hc) rfl rfl (fun _ => ⟨rfl,rfl⟩) rfl rfl fun _ hb => hb⟩
    · exact Option.some.inj hs ▸ h
  | deschedule p magic =>
    obtain rfl := Option.some.inj hs
    exact ⟨deschedule_counted h.counted hg.1,deschedule_waited h.waited hg.2⟩
  | task i signalled =>
    obtain ⟨k,hk,ht⟩ := Option.bind_eq_some_iff.mp hs
    exact taskStep_inv h hk hg ht
  | run c magic flags locked =>
    obtain ⟨x,hx,ht⟩ := Option.bind_eq_some_iff.mp hs
    exact ⟨runStep_counted h.counted hx hg ht,runStep_waited h.waited hx hg ht⟩

theorem init_inv (isHead : ℕ → Bool) (n m : ℕ) : (init n m).Inv isHead := by
  have htasks : ∀ {p : Task → Bool}, p .idle = false → tally p (init n m).tasks = 0 := tally_replicate n
  have hruns : ∀ {p : Place → Bool}, p (.top true) = false → tally p (init n m).runners = 0 := tally_replicate m
  have hlists : ∀ q, (init n m).onLists isHead q = 0 := by
    intro q
    simp only [onLists,listed,list]
    split_ifs <;> rfl
  have hidle : ∀ {i : ℕ} {k : Task}, (init n m).tasks[i]? = some k → k = .idle := fun hk =>
    List.eq_of_mem_replicate (List.mem_of_getElem? hk)
  refine ⟨⟨fun q => ?_,fun q => ?_,rfl⟩,⟨fun i p hi => ?_,fun q hq => Bool.noConfusion hq,fun x hx p hp => ?_,fun i p hi => ?_,rfl⟩⟩
  · rw [hlists,htasks rfl,hruns rfl]
    rfl
  · rw [hruns rfl]
    rfl
  · obtain ⟨k,hk,hkp⟩ := hi
    rw [hidle hk] at hkp
    cases hkp
  · rw [List.eq_of_mem_replicate hx] at hp
    cases hp
  · exact Task.noConfusion (hidle hi)

end Sched

end CSLiS.Queuerun
