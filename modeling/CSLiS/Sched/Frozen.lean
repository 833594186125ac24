import CSLiS.Sched.Freeze
import CSLiS.Lib.Crew
import CSLiS.Lib.Exec

/-!
# A frozen stream stays quiet and forgets nothing
-/

namespace CSLiS.Sched.Freeze
open Lib.Crew Lib.Exec
open Qdetach (Queue RD WR)

/- What a task does with a queue. `put` is about to enter the put procedure, `reput` too, in `lis_do_deferred_puts`
of the queue; `work` is another place there. -/
inductive Role
  | retry
  | enable
  | link
  | clear
  | serve
  | skip
  | finish
  | put
  | work
  | reput
  deriving DecidableEq, Repr

def Place.use : Place → Option (Queue × Role)
  | .deliver q _ => some (q,.put)
  | .retry q _ => some (q,.retry)
  | .qenable q _ => some (q,.enable)
  | .link q _ => some (q,.link)
  | .clear q => some (q,.clear)
  | .service q => some (q,.serve)
  | .skip q => some (q,.skip)
  | .finish q => some (q,.finish)
  | .deferred h | .retest h _ _ | .loop h _ => some (h,.work)
  | .redeliver h _ _ => some (h,.reput)
  | .idle | .test _ _ | .take | .wake _ => none

def role (q : Queue) (o : Place) : Option Role := o.use.bind fun u => if u.1 = q then some u.2 else none

/- The queue whose deferred messages the task works off. -/
def Place.home : Place → Option Queue
  | .deferred h | .retest h _ _ | .redeliver h _ _ | .loop h _ => some h
  | _ => none

/- The message that has been taken off the list of the queue and not yet been given to the put procedure. -/
def Place.carried (q : Queue) : Place → List ℕ
  | .retest h _ mp | .redeliver h _ mp => if h = q then [mp] else []
  | _ => []

/- The flags of a queue, how often it is on the run list, how many tasks do each thing with it, whether it is to be
served, and whether `lis_await_qsched` of its pair has succeeded. -/
structure QInv (f : Qflag) (n : ℕ) (c : Role → ℕ) (owed aw : Bool) : Prop where
  on : f.qprocsoff = false ∧ f.qclosing = false
  skip : c .skip = 0
  enab : c .link + n + c .clear = f.qenab.toNat
  running : c .clear + c .serve + c .finish = f.qrunning.toNat
  apart : f.qrunning = true → c .link + n = 0
  due : owed = true → 0 < n + c .link + c .enable + c .clear + c .serve ∨ f.qwantenab = true ∧
    (f.qenab = true ∨ f.qrunning = true ∨ f.qopening = true ∨ f.qfrozen = true ∨ 0 < c .retry + c .work + c .reput)
  quiet : aw = true → f.qfrozen = true ∧ f.qenab = false ∧ f.qrunning = false ∧ c .put + c .reput = 0
  waiting : f.qwaiting = true → f.qfrozen = true

section Moves

variable {f : Qflag} {n : ℕ} {c c' : Role → ℕ} {o aw : Bool}

theorem moves_all {a b : Option Role} (hm : Moves a b c c') :
    c' .retry + (if a = some .retry then 1 else 0) = c .retry + (if b = some .retry then 1 else 0) ∧
    c' .enable + (if a = some .enable then 1 else 0) = c .enable + (if b = some .enable then 1 else 0) ∧
    c' .link + (if a = some .link then 1 else 0) = c .link + (if b = some .link then 1 else 0) ∧
    c' .clear + (if a = some .clear then 1 else 0) = c .clear + (if b = some .clear then 1 else 0) ∧
    c' .serve + (if a = some .serve then 1 else 0) = c .serve + (if b = some .serve then 1 else 0) ∧
    c' .skip + (if a = some .skip then 1 else 0) = c .skip + (if b = some .skip then 1 else 0) ∧
    c' .finish + (if a = some .finish then 1 else 0) = c .finish + (if b = some .finish then 1 else 0) ∧
    c' .put + (if a = some .put then 1 else 0) = c .put + (if b = some .put then 1 else 0) ∧
    c' .work + (if a = some .work then 1 else 0) = c .work + (if b = some .work then 1 else 0) ∧
    c' .reput + (if a = some .reput then 1 else 0) = c .reput + (if b = some .reput then 1 else 0) :=
  ⟨hm _,hm _,hm _,hm _,hm _,hm _,hm _,hm _,hm _,hm _⟩

theorem toNat_pos {b : Bool} {m : ℕ} (h : m = b.toNat) (hm : 0 < m) : b = true ∧ m = 1 := by
  cases b with
  | false =>
    rw [Bool.toNat_false] at h
    omega
  | true => exact ⟨rfl,h⟩

variable (hi : QInv f n c o aw)
include hi

/- `lis_retry_qenable` does nothing. -/
theorem QInv.unwanted (hm : Moves (some .retry) none c c') (hw : (f.qwantenab && !f.inhEnable) = false) :
    QInv f n c' o aw := by
  obtain ⟨h1,h2,h3,h4,h5,h6,h7,h8⟩ := hi
  have he := moves_all hm
  simp only [reduceCtorEq,if_true,if_false,Option.some.injEq,Nat.add_zero] at he
  simp only [Qflag.inhEnable] at hw
  constructor <;> grind -ring -linarith

theorem QInv.again (hm : Moves (some .retry) (some .enable) c c') : QInv { f with qwantenab := false } n c' o aw := by
  obtain ⟨h1,h2,h3,h4,h5,h6,h7,h8⟩ := hi
  have he := moves_all hm
  simp only [reduceCtorEq,if_true,if_false,Option.some.injEq,Nat.add_zero] at he
  constructor <;> grind -ring -linarith

theorem QInv.called (hm : Moves none (some .enable) c c') : QInv f n c' o aw := by
  obtain ⟨h1,h2,h3,h4,h5,h6,h7,h8⟩ := hi
  have he := moves_all hm
  simp only [reduceCtorEq,if_true,if_false,Option.some.injEq,Nat.add_zero] at he
  constructor <;> grind -ring -linarith

/- `lis_qenable` of a queue without a service procedure. -/
theorem QInv.unserved (hm : Moves (some .enable) none c c') : QInv f n c' false aw := by
  obtain ⟨h1,h2,h3,h4,h5,h6,h7,h8⟩ := hi
  have he := moves_all hm
  simp only [reduceCtorEq,if_true,if_false,Option.some.injEq,Nat.add_zero] at he
  constructor <;> grind -ring -linarith

theorem QInv.defer (hm : Moves (some .enable) none c c') (hf : f.inhEnable = true) :
    QInv { f with qwantenab := f.qwantenab || f.deferEnable } n c' true aw := by
  obtain ⟨h1,h2,h3,h4,h5,h6,h7,h8⟩ := hi
  have he := moves_all hm
  simp only [reduceCtorEq,if_true,if_false,Option.some.injEq,Nat.add_zero] at he
  simp only [Qflag.inhEnable] at hf
  constructor <;> grind -ring -linarith [Qflag.deferEnable]

theorem QInv.enable (hm : Moves (some .enable) (some .link) c c') (hf : f.inhEnable = false) :
    QInv { f with qenab := true } n c' true aw := by
  obtain ⟨h1,h2,h3,h4,h5,h6,h7,h8⟩ := hi
  have he := moves_all hm
  simp only [reduceCtorEq,if_true,if_false,Option.some.injEq,Nat.add_zero] at he
  simp only [Qflag.inhEnable,Bool.or_eq_false_iff] at hf
  constructor <;> grind -ring -linarith

theorem QInv.link (hm : Moves (some .link) none c c') : QInv f (n + 1) c' o aw := by
  obtain ⟨h1,h2,h3,h4,h5,h6,h7,h8⟩ := hi
  have he := moves_all hm
  simp only [reduceCtorEq,if_true,if_false,Option.some.injEq,Nat.add_zero] at he
  constructor <;> grind -ring -linarith

theorem QInv.take {m : ℕ} (hn : n = m + 1) (hm : Moves none (some .clear) c c') :
    QInv { f with qrunning := true } m c' o aw := by
  obtain ⟨h1,h2,h3,h4,h5,h6,h7,h8⟩ := hi
  have he := moves_all hm
  have hb := Bool.toNat_le f.qenab
  have hr : f.qrunning = false := by
    by_contra hc
    have := h5 (by simpa using hc)
    omega
  simp only [reduceCtorEq,if_true,if_false,Option.some.injEq,Nat.add_zero] at he
  constructor <;> grind -ring -linarith

theorem QInv.clear (hm : Moves (some .clear) (some .serve) c c') : QInv { f with qenab := false } n c' o aw := by
  obtain ⟨h1,h2,h3,h4,h5,h6,h7,h8⟩ := hi
  have he := moves_all hm
  simp only [reduceCtorEq,if_true,if_false,Option.some.injEq,Nat.add_zero] at he
  have hr := toNat_pos h4 (by omega)
  have hq := toNat_pos h3 (by omega)
  constructor <;> grind -ring -linarith

theorem QInv.serve (hm : Moves (some .serve) (some .finish) c c') : QInv f n c' false aw := by
  obtain ⟨h1,h2,h3,h4,h5,h6,h7,h8⟩ := hi
  have he := moves_all hm
  simp only [reduceCtorEq,if_true,if_false,Option.some.injEq,Nat.add_zero] at he
  constructor <;> grind -ring -linarith

/- The queue could not be locked. -/
theorem QInv.unlocked (hm : Moves (some .serve) none c c')
    (ho : o = true → f.qwantenab = true ∧ (f.qopening = true ∨ f.qfrozen = true)) :
    QInv { f with qrunning := false } n c' o aw := by
  obtain ⟨h1,h2,h3,h4,h5,h6,h7,h8⟩ := hi
  have he := moves_all hm
  simp only [reduceCtorEq,if_true,if_false,Option.some.injEq,Nat.add_zero] at he
  have hr := toNat_pos h4 (by omega)
  constructor <;> grind -ring -linarith

/- QRUNNING is cleared, and `lis_retry_qenable` follows when it has something to do. -/
theorem QInv.finish {b : Option Role} (hb : b = some .retry ∨ b = none ∧ (f.qwantenab = false ∨ f.qwaiting = true))
    (hm : Moves (some .finish) b c c') : QInv { f with qrunning := false } n c' o aw := by
  obtain ⟨h1,h2,h3,h4,h5,h6,h7,h8⟩ := hi
  have he := moves_all hm
  have hpos : 0 < c .clear + c .serve + c .finish := by
    have := hm .finish
    rcases hb with rfl | ⟨rfl,-⟩ <;> simp only [reduceCtorEq,Option.some.injEq,if_true,if_false] at this <;> omega
  have hr := toNat_pos h4 hpos
  rcases hb with rfl | ⟨rfl,hb⟩ <;>
    simp only [reduceCtorEq,if_true,if_false,Option.some.injEq,Nat.add_zero] at he <;>
    constructor <;> grind -ring -linarith

/- A message has passed the tests of `lis_safe_do_putmsg`. -/
theorem QInv.put (hm : Moves none (some .put) c c') (hf : f.qfrozen = false) : QInv f n c' o aw := by
  obtain ⟨h1,h2,h3,h4,h5,h6,h7,h8⟩ := hi
  have he := moves_all hm
  simp only [reduceCtorEq,if_true,if_false,Option.some.injEq,Nat.add_zero] at he
  constructor <;> grind -ring -linarith

theorem QInv.entered (hm : Moves (some .put) none c c') : QInv f n c' o aw := by
  obtain ⟨h1,h2,h3,h4,h5,h6,h7,h8⟩ := hi
  have he := moves_all hm
  simp only [reduceCtorEq,if_true,if_false,Option.some.injEq,Nat.add_zero] at he
  constructor <;> grind -ring -linarith

/- A step of `lis_do_deferred_puts`. -/
theorem QInv.works {a b : Option Role} (ha : a = some .work ∨ a = some .reput)
    (hb : b = some .work ∨ b = some .reput ∨ b = some .retry) (hf : f.qfrozen = false) (hm : Moves a b c c') :
    QInv f n c' o aw := by
  obtain ⟨h1,h2,h3,h4,h5,h6,h7,h8⟩ := hi
  have he := moves_all hm
  rcases ha with rfl | rfl <;> rcases hb with rfl | rfl | rfl <;>
    simp only [reduceCtorEq,if_true,if_false,Option.some.injEq,Nat.add_zero] at he <;>
    constructor <;> grind -ring -linarith

theorem QInv.thaw (hm : Moves none (some .work) c c') (ha : aw = false) (hw : f.qwaiting = false) :
    QInv { f with qopening := false, qfrozen := false } n c' o aw := by
  obtain ⟨h1,h2,h3,h4,h5,h6,h7,h8⟩ := hi
  have he := moves_all hm
  simp only [reduceCtorEq,if_true,if_false,Option.some.injEq,Nat.add_zero] at he
  constructor <;> grind -ring -linarith

theorem QInv.freeze : QInv { f with qfrozen := true } n c o aw := by
  obtain ⟨h1,h2,h3,h4,h5,h6,h7,h8⟩ := hi
  constructor <;> grind -ring -linarith

theorem QInv.wait (b : Bool) (hf : b = true → f.qfrozen = true) : QInv { f with qwaiting := b } n c o aw := by
  obtain ⟨h1,h2,h3,h4,h5,h6,h7,h8⟩ := hi
  exact ⟨h1,h2,h3,h4,h5,h6,h7,hf⟩

theorem QInv.forget : QInv f n c o false := by
  obtain ⟨h1,h2,h3,h4,h5,h6,h7,h8⟩ := hi
  exact ⟨h1,h2,h3,h4,h5,h6,fun h => Bool.noConfusion h,h8⟩

theorem QInv.awaited (hf : f.qfrozen = true) (he : f.qenab = false) (hr : f.qrunning = false)
    (hc : c .put + c .reput = 0) : QInv f n c o true := by
  obtain ⟨h1,h2,h3,h4,h5,h6,h7,h8⟩ := hi
  exact ⟨h1,h2,h3,h4,h5,h6,fun _ => ⟨hf,he,hr,hc⟩,h8⟩

end Moves

/- `lis_do_deferred_puts` has set QDEFERRING. -/
def Place.started : Place → Bool
  | .retest _ _ _ | .redeliver _ _ _ | .loop _ _ => true
  | _ => false

/- No deferred message has been passed on to another queue or put back. -/
def Place.straight : Place → Prop
  | .retest h q _ | .redeliver h q _ => h = q
  | .loop _ ret => ret = true
  | _ => True

/- The deferred messages of a queue when task 0 is at `o`. -/
structure DInv (o : Place) (q : Queue) (f : Qflag) (b : Bool) (l k g : List ℕ) : Prop where
  kept : k = g ++ o.carried q ++ l
  rest : o.home ≠ some q → b = false ∧ (f.qfrozen = false → f.qopening = false → l = [])
  work : o.home = some q → f.qfrozen = false ∧ f.qopening = false ∧ b = o.started

section Defers

variable {a b o : Place} {q : Queue}

theorem carried_none (h : o.home ≠ some q) : o.carried q = [] := by
  cases o with
  | retest k _ _ | redeliver k _ _ => exact if_neg fun hk => h (congrArg some hk)
  | _ => rfl

/- Where task 0 is does not matter for the other queues. -/
theorem DInv.elsewhere {f : Qflag} {d : Bool} {l m g : List ℕ} (hd : DInv a q f d l m g) (ha : a.home ≠ some q)
    (hb : b.home ≠ some q) : DInv b q f d l m g := by
  obtain ⟨h1,h2,-⟩ := hd
  refine ⟨?_,fun _ => h2 ha,fun h => absurd h hb⟩
  rw [carried_none hb,h1,carried_none ha]

theorem straight_of (h : b.home = none) : b.straight := by
  cases b with
  | retest | redeliver | loop => cases h
  | _ => trivial

theorem DInv.congr {f f' : Qflag} {d : Bool} {l m g : List ℕ} (hd : DInv o q f d l m g) (h1 : f'.qfrozen = f.qfrozen)
    (h2 : f'.qopening = f.qopening) : DInv o q f' d l m g := by
  obtain ⟨h3,h4,h5⟩ := hd
  refine ⟨h3,?_,?_⟩
  · rwa [h1,h2]
  · rwa [h1,h2]

end Defers

def Phase.still : Phase → Bool
  | .frozen | .await _ | .locking _ | .asleep _ | .awake _ => true
  | _ => false

def Phase.pair : Phase → Option ℕ
  | .await p | .locking p | .asleep p | .awake p => some p
  | _ => none

/- The queues that are still to be marked. -/
def Phase.todo : Phase → List Queue
  | .freezing l => l
  | _ => []

namespace Sys

variable {S : Stream} {s t : Sys} {i p : ℕ} {q k h : Queue} {a b o : Place} {ok run : Bool} {mp : ℕ}

def uses (s : Sys) (q : Queue) : Role → ℕ := standing (role q) s.tasks

/- What task 0 has done, and the flags it sets. -/
structure PInv (S : Stream) (s : Sys) : Prop where
  idle : (∀ l, s.phase ≠ .thawing l) → s.tasks[0]? = some .idle
  frozen : ∀ q, (s.flag q).qfrozen = true → q ∈ S.halves ∧ s.phase ≠ .running ∧ ∀ l, s.phase = .thawing l → q ∈ l
  all : s.phase ≠ .running → (∀ l, s.phase ≠ .thawing l) → ∀ q ∈ S.halves, q ∈ s.phase.todo ∨ (s.flag q).qfrozen = true
  sub : ∀ q ∈ s.phase.todo, q ∈ S.halves
  waiting : ∀ q, (s.flag q).qwaiting = true → s.phase = .asleep q.1 ∨ s.phase = .awake q.1
  pair : ∀ p, s.phase.pair = some p → ∀ h, (p,h) ∈ S.halves
  awaited : ∀ p, s.awaited p = true → s.phase.still = true

structure Inv (S : Stream) (s : Sys) : Prop where
  queue : ∀ q, QInv (s.flag q) (s.list.count q) (s.uses q) (s.owed q) (s.awaited q.1)
  first : ∃ o, s.tasks[0]? = some o ∧ o.straight ∧
    ∀ q, DInv o q (s.flag q) (s.deferring q) (s.defer q) (s.kept q) (s.given q)
  others : ∀ i o, i ≠ 0 → s.tasks[i]? = some o → o.home = none
  phase : s.PInv S

theorem role_none (h : a.use = none) : role q a = none := by rw [role,h]; rfl

theorem role_self (r : Role) (h : a.use = some (q,r)) : role q a = some r := by
  rw [role,h]
  exact if_pos rfl

theorem role_other (r : Role) (h : a.use = some (q,r)) (hk : k ≠ q) : role k a = none := by
  rw [role,h]
  exact if_neg (Ne.symm hk)

/- A task goes on, with one queue. -/
structure Goes (s t : Sys) (i : ℕ) (q : Queue) (a b : Place) : Prop where
  tasks : t.tasks = s.tasks.set i b
  phase : t.phase = s.phase
  awaited : t.awaited = s.awaited
  far : ∀ k, k ≠ q → role k a = none ∧ role k b = none ∧ a.home ≠ some k ∧ b.home ≠ some k
  flag : ∀ k, k ≠ q → t.flag k = s.flag k
  list : ∀ k, k ≠ q → t.list.count k = s.list.count k
  owed : ∀ k, k ≠ q → t.owed k = s.owed k
  defers : ∀ k, k ≠ q → t.deferring k = s.deferring k ∧ t.defer k = s.defer k ∧ t.kept k = s.kept k ∧
    t.given k = s.given k
  marks : (t.flag q).qfrozen = (s.flag q).qfrozen ∧ (t.flag q).qopening = (s.flag q).qopening ∧
    (t.flag q).qwaiting = (s.flag q).qwaiting

theorem Inv.goes (hi : s.Inv S) (ha : s.tasks[i]? = some a) (hne : i = 0 → a ≠ .idle) (hg : Goes s t i q a b)
    (hb : i ≠ 0 → b.home = none) (hs : i = 0 → b.straight)
    (hq : ∀ c, Moves (role q a) (role q b) (s.uses q) c → QInv (t.flag q) (t.list.count q) c (t.owed q) (s.awaited q.1))
    (hd : ∀ o, (if i = 0 then o = a else s.tasks[0]? = some o) →
      DInv o q (s.flag q) (s.deferring q) (s.defer q) (s.kept q) (s.given q) →
      DInv (if i = 0 then b else o) q (t.flag q) (t.deferring q) (t.defer q) (t.kept q) (t.given q)) : t.Inv S := by
  obtain ⟨o,ho,hstr,hdi⟩ := hi.first
  have hfirst : t.tasks[0]? = some (if i = 0 then b else o) := by
    rw [hg.tasks]
    by_cases h0 : i = 0
    · subst h0
      rw [if_pos rfl,List.getElem?_set_self']
      rw [ha]
      rfl
    · rw [if_neg h0,List.getElem?_set_ne h0,ho]
  have hoa : i = 0 → o = a := by
    rintro rfl
    exact Option.some.inj (ho.symm.trans ha)
  have hthaw : i = 0 → ∃ l, s.phase = .thawing l := by
    intro h0
    by_contra hc
    have hidle := hi.phase.idle fun l hl => hc ⟨l,hl⟩
    rw [ho] at hidle
    exact hne h0 ((hoa h0).symm.trans (Option.some.inj hidle))
  have hmark : ∀ k, (t.flag k).qfrozen = (s.flag k).qfrozen ∧ (t.flag k).qwaiting = (s.flag k).qwaiting := by
    intro k
    by_cases hk : k = q
    · subst hk
      exact ⟨hg.marks.1,hg.marks.2.2⟩
    · rw [hg.flag k hk]
      exact ⟨rfl,rfl⟩
  refine ⟨?_,⟨_,hfirst,?_,?_⟩,?_,?_⟩
  · intro k
    have hm := standing_moves ha b (role k)
    rw [uses,hg.tasks,hg.awaited]
    by_cases hk : k = q
    · subst hk
      exact hq _ hm
    · obtain ⟨h1,h2,-⟩ := hg.far k hk
      rw [h1,h2] at hm
      rw [hm.same,hg.flag k hk,hg.list k hk,hg.owed k hk]
      exact hi.queue k
  · split_ifs with h0
    · exact hs h0
    · exact hstr
  · intro k
    by_cases hk : k = q
    · subst hk
      refine hd o ?_ (hdi k)
      split_ifs with h0
      · exact hoa h0
      · exact ho
    · obtain ⟨h1,h2,h3,h4⟩ := hg.defers k hk
      rw [hg.flag k hk,h1,h2,h3,h4]
      split_ifs with h0
      · exact DInv.elsewhere (hoa h0 ▸ hdi k) (hg.far k hk).2.2.1 (hg.far k hk).2.2.2
      · exact hdi k
  · intro j c hj hc
    rw [hg.tasks] at hc
    rcases set_cases hc with ⟨rfl,rfl⟩ | ⟨-,hc⟩
    · exact hb hj
    · exact hi.others j c hj hc
  · obtain ⟨h1,h2,h3,h7,h4,h5,h6⟩ := hi.phase
    refine ⟨?_,?_,?_,?_,?_,?_,?_⟩
    · intro hl
      rw [hg.phase] at hl
      have h0 : i ≠ 0 := fun h0 => (hthaw h0).elim hl
      rw [hfirst,if_neg h0,← ho]
      exact h1 hl
    · intro k
      rw [(hmark k).1,hg.phase]
      exact h2 k
    · intro hr hl k hk
      rw [hg.phase] at hr hl ⊢
      rw [(hmark k).1]
      exact h3 hr hl k hk
    · rwa [hg.phase]
    · intro k
      rw [(hmark k).2,hg.phase]
      exact h4 k
    · rw [hg.phase]
      exact h5
    · rw [hg.phase,hg.awaited]
      exact h6

/- The deferred messages are not touched. -/
theorem Inv.sched (hi : s.Inv S) (ha : s.tasks[i]? = some a) (hne : i = 0 → a ≠ .idle) (q : Queue) (f : Qflag)
    (L : List Queue) (W : Queue → Bool) (u : ℕ → Option ℕ) (hah : a.home = none) (hbh : b.home = none)
    (hrole : ∀ k, k ≠ q → role k a = none ∧ role k b = none) (hL : ∀ k, k ≠ q → L.count k = s.list.count k)
    (hW : ∀ k, k ≠ q → W k = s.owed k) (hmarks : f.qfrozen = (s.flag q).qfrozen ∧ f.qopening = (s.flag q).qopening ∧
      f.qwaiting = (s.flag q).qwaiting)
    (hq : ∀ c, Moves (role q a) (role q b) (s.uses q) c → QInv f (L.count q) c (W q) (s.awaited q.1)) :
    Inv S { s with flag := Function.update s.flag q f, list := L, owed := W, wakeup := u, tasks := s.tasks.set i b } := by
  have hself : Function.update s.flag q f q = f := Function.update_self ..
  have hgoes : Goes s { s with
      flag := Function.update s.flag q f, list := L, owed := W, wakeup := u, tasks := s.tasks.set i b } i q a b := by
    refine ⟨rfl,rfl,rfl,?_,fun k hk => Function.update_of_ne hk ..,hL,hW,fun _ _ => ⟨rfl,rfl,rfl,rfl⟩,?_⟩
    · intro k hk
      rw [hah,hbh]
      exact ⟨(hrole k hk).1,(hrole k hk).2,nofun,nofun⟩
    · simpa only [hself] using hmarks
  refine hi.goes ha hne hgoes (fun _ => hbh) (fun _ => straight_of hbh) ?_ ?_
  · simpa only [hself] using hq
  · intro o ho hd
    simp only [hself]
    refine DInv.congr ?_ hmarks.1 hmarks.2.1
    split_ifs with h0
    · rw [if_pos h0] at ho
      subst ho
      exact hd.elsewhere (by rw [hah]; nofun) (by rw [hbh]; nofun)
    · exact hd

/- No flag changes. -/
theorem Inv.stays (hi : s.Inv S) (ha : s.tasks[i]? = some a) (hne : i = 0 → a ≠ .idle) (q : Queue)
    (L : List Queue) (W : Queue → Bool) (u : ℕ → Option ℕ) (hah : a.home = none) (hbh : b.home = none)
    (hrole : ∀ k, k ≠ q → role k a = none ∧ role k b = none) (hL : ∀ k, k ≠ q → L.count k = s.list.count k)
    (hW : ∀ k, k ≠ q → W k = s.owed k)
    (hq : ∀ c, Moves (role q a) (role q b) (s.uses q) c → QInv (s.flag q) (L.count q) c (W q) (s.awaited q.1)) :
    Inv S { s with list := L, owed := W, wakeup := u, tasks := s.tasks.set i b } := by
  have hg := hi.sched (b := b) ha hne q (s.flag q) L W u hah hbh hrole hL hW ⟨rfl,rfl,rfl⟩ hq
  rwa [Function.update_eq_self] at hg

theorem Inv.same (hi : s.Inv S) (q : Queue) {c : Role → ℕ} (hm : Moves none none (s.uses q) c) :
    QInv (s.flag q) (s.list.count q) c (s.owed q) (s.awaited q.1) := by
  rw [hm.same]
  exact hi.queue q

theorem role_back : role q (back run) = none := by cases run <;> exact role_none rfl

theorem home_back : (back run).home = none := by cases run <;> rfl

theorem retry_inv (hi : s.Inv S) (ha : s.tasks[i]? = some (.retry q run)) :
    ((s.lisRetryQenable q run).1.setPc i (s.lisRetryQenable q run).2).Inv S := by
  have hfar : ∀ k, k ≠ q → role k (.retry q run) = none := fun k hk => role_other _ rfl hk
  unfold lisRetryQenable
  simp only
  split_ifs with hw
  · refine hi.sched ha nofun q _ s.list s.owed s.wakeup rfl rfl ?_ (fun _ _ => rfl) (fun _ _ => rfl) ⟨rfl,rfl,rfl⟩ ?_
    · exact fun k hk => ⟨hfar k hk,role_other _ rfl hk⟩
    · intro c hm
      rw [role_self _ rfl,role_self _ rfl] at hm
      exact (hi.queue q).again hm
  · refine hi.stays ha nofun q s.list s.owed s.wakeup rfl home_back ?_ (fun _ _ => rfl) (fun _ _ => rfl) ?_
    · exact fun k hk => ⟨hfar k hk,role_back⟩
    · intro c hm
      rw [role_self _ rfl,role_back] at hm
      exact (hi.queue q).unwanted hm (by simpa using hw)

theorem qenable_inv (hi : s.Inv S) (ha : s.tasks[i]? = some (.qenable q run)) :
    ((s.lisQenable S q run).1.setPc i (s.lisQenable S q run).2).Inv S := by
  have hfar : ∀ k, k ≠ q → role k (.qenable q run) = none := fun k hk => role_other _ rfl hk
  have howed : ∀ k, k ≠ q → Function.update s.owed q (S.srvp q) k = s.owed k :=
    fun k hk => Function.update_of_ne hk ..
  have hself : Function.update s.owed q (S.srvp q) q = S.srvp q := Function.update_self ..
  unfold lisQenable
  simp only
  split_ifs with hs hf
  · refine hi.stays ha nofun q s.list (Function.update s.owed q (S.srvp q)) s.wakeup rfl home_back ?_
      (fun _ _ => rfl) howed ?_
    · exact fun k hk => ⟨hfar k hk,role_back⟩
    · intro c hm
      rw [role_self _ rfl,role_back] at hm
      have hno : S.srvp q = false := by simpa using hs
      rw [hself,hno]
      exact (hi.queue q).unserved hm
  · have hyes : S.srvp q = true := by simpa using hs
    refine hi.sched ha nofun q _ s.list (Function.update s.owed q (S.srvp q)) s.wakeup rfl home_back ?_
      (fun _ _ => rfl) howed ⟨rfl,rfl,rfl⟩ ?_
    · exact fun k hk => ⟨hfar k hk,role_back⟩
    · intro c hm
      rw [role_self _ rfl,role_back] at hm
      rw [hself,hyes]
      exact (hi.queue q).defer hm hf
  · have hyes : S.srvp q = true := by simpa using hs
    refine hi.sched ha nofun q _ s.list (Function.update s.owed q (S.srvp q)) s.wakeup rfl rfl ?_ (fun _ _ => rfl) howed
      ⟨rfl,rfl,rfl⟩ ?_
    · exact fun k hk => ⟨hfar k hk,role_other _ rfl hk⟩
    · intro c hm
      rw [role_self _ rfl,role_self _ rfl] at hm
      rw [hself,hyes]
      exact (hi.queue q).enable hm (by simpa using hf)

theorem link_inv (hi : s.Inv S) (ha : s.tasks[i]? = some (.link q run)) :
    (({ s with list := s.list ++ [q] }).setPc i (back run)).Inv S := by
  refine hi.stays ha nofun q (s.list ++ [q]) s.owed s.wakeup rfl home_back ?_ ?_ (fun _ _ => rfl) ?_
  · exact fun k hk => ⟨role_other _ rfl hk,role_back⟩
  · intro k hk
    simp [List.count_append,Ne.symm hk]
  · intro c hm
    rw [role_self _ rfl,role_back] at hm
    have hl := (hi.queue q).link hm
    simpa [List.count_append] using hl

theorem take_inv (hi : s.Inv S) (ha : s.tasks[i]? = some .take) : (s.take.1.setPc i s.take.2).Inv S := by
  unfold take
  split
  case h_1 =>
    refine hi.stays ha nofun (0,true) s.list s.owed s.wakeup rfl rfl ?_ (fun _ _ => rfl) (fun _ _ => rfl) ?_
    · exact fun k _ => ⟨role_none rfl,role_none rfl⟩
    · intro c hm
      rw [role_none rfl,role_none rfl] at hm
      exact hi.same _ hm
  case h_2 q l hl =>
    refine hi.sched ha nofun q _ l s.owed s.wakeup rfl rfl ?_ ?_ (fun _ _ => rfl) ⟨rfl,rfl,rfl⟩ ?_
    · exact fun k hk => ⟨role_none rfl,role_other _ rfl hk⟩
    · intro k hk
      rw [hl]
      simp [Ne.symm hk]
    · intro c hm
      rw [role_none rfl,role_self _ rfl] at hm
      exact (hi.queue q).take (by rw [hl]; simp) hm

theorem clear_inv (hi : s.Inv S) (ha : s.tasks[i]? = some (.clear q)) : ((s.clear q).1.setPc i (s.clear q).2).Inv S := by
  have hp : (s.clear q).2 = .service q := by simp [clear,(hi.queue q).on.1]
  rw [hp]
  refine hi.sched ha nofun q { s.flag q with qenab := false } s.list s.owed s.wakeup rfl rfl ?_ (fun _ _ => rfl)
    (fun _ _ => rfl) ⟨rfl,rfl,rfl⟩ ?_
  · exact fun k hk => ⟨role_other _ rfl hk,role_other _ rfl hk⟩
  · intro c hm
    rw [role_self _ rfl,role_self _ rfl] at hm
    exact (hi.queue q).clear hm

theorem serve_inv (hi : s.Inv S) (ha : s.tasks[i]? = some (.service q)) :
    (({ s with owed := Function.update s.owed q false }).setPc i (.finish q)).Inv S := by
  refine hi.stays ha nofun q s.list (Function.update s.owed q false) s.wakeup rfl rfl ?_ (fun _ _ => rfl) ?_ ?_
  · exact fun k hk => ⟨role_other _ rfl hk,role_other _ rfl hk⟩
  · exact fun k hk => Function.update_of_ne hk ..
  · intro c hm
    rw [role_self _ rfl,role_self _ rfl] at hm
    rw [Function.update_self]
    exact (hi.queue q).serve hm

theorem unlocked_inv (hi : s.Inv S) (ha : s.tasks[i]? = some (.service q))
    (ho : s.owed q = true → (s.flag q).qwantenab = true ∧ ((s.flag q).qopening = true ∨ (s.flag q).qfrozen = true)) :
    ((s.unlocked q).1.setPc i (s.unlocked q).2).Inv S := by
  refine hi.sched ha nofun q _ s.list s.owed s.wakeup rfl rfl ?_ (fun _ _ => rfl) (fun _ _ => rfl) ⟨rfl,rfl,rfl⟩ ?_
  · exact fun k hk => ⟨role_other _ rfl hk,role_none rfl⟩
  · intro c hm
    rw [role_self _ rfl,role_none rfl] at hm
    exact (hi.queue q).unlocked hm ho

/- No queue has its procedures off. -/
theorem Inv.no_skip (hi : s.Inv S) : s.tasks[i]? ≠ some (.skip q) := by
  intro ha
  have hpos : 0 < s.uses q .skip := standing_pos ha (role_self _ rfl)
  have hs := (hi.queue q).skip
  omega

theorem finish_inv (hi : s.Inv S) (ha : s.tasks[i]? = some (.finish q)) :
    ((s.finish q).1.setPc i (s.finish q).2).Inv S := by
  have hfar : ∀ k, k ≠ q → role k (.finish q) = none := fun k hk => role_other _ rfl hk
  unfold finish
  simp only
  split_ifs with hw he
  · refine hi.sched ha nofun q _ s.list s.owed s.wakeup rfl rfl ?_ (fun _ _ => rfl) (fun _ _ => rfl) ⟨rfl,rfl,rfl⟩ ?_
    · exact fun k hk => ⟨hfar k hk,role_none rfl⟩
    · intro c hm
      rw [role_self _ rfl,role_none rfl] at hm
      simp only [Bool.and_eq_true] at hw
      exact (hi.queue q).finish (Or.inr ⟨rfl,Or.inr hw.1⟩) hm
  · refine hi.sched ha nofun q _ s.list s.owed s.wakeup rfl rfl ?_ (fun _ _ => rfl) (fun _ _ => rfl) ⟨rfl,rfl,rfl⟩ ?_
    · exact fun k hk => ⟨hfar k hk,role_other _ rfl hk⟩
    · intro c hm
      rw [role_self _ rfl,role_self _ rfl] at hm
      exact (hi.queue q).finish (Or.inl rfl) hm
  · refine hi.sched ha nofun q _ s.list s.owed s.wakeup rfl rfl ?_ (fun _ _ => rfl) (fun _ _ => rfl) ⟨rfl,rfl,rfl⟩ ?_
    · exact fun k hk => ⟨hfar k hk,role_none rfl⟩
    · intro c hm
      rw [role_self _ rfl,role_none rfl] at hm
      exact (hi.queue q).finish (Or.inr ⟨rfl,Or.inl (by simpa using he)⟩) hm

theorem wake_inv (hi : s.Inv S) (ha : s.tasks[i]? = some (.wake q)) (u : ℕ → Option ℕ) :
    (({ s with wakeup := u }).setPc i .take).Inv S := by
  refine hi.stays ha nofun q s.list s.owed u rfl rfl ?_ (fun _ _ => rfl) (fun _ _ => rfl) ?_
  · exact fun k _ => ⟨role_none rfl,role_none rfl⟩
  · intro c hm
    rw [role_none rfl,role_none rfl] at hm
    exact hi.same q hm

/-! ### Messages -/

/- Only the deferred messages of one queue change. -/
theorem Inv.data (hi : s.Inv S) (ha : s.tasks[i]? = some a) (hne : i = 0 → a ≠ .idle) (q : Queue)
    (ht : t.tasks = s.tasks.set i b)
    (hs : t.flag = s.flag ∧ t.list = s.list ∧ t.owed = s.owed ∧ t.phase = s.phase ∧ t.awaited = s.awaited)
    (hfar : ∀ k, k ≠ q → role k a = none ∧ role k b = none ∧ a.home ≠ some k ∧ b.home ≠ some k)
    (hdf : ∀ k, k ≠ q → t.deferring k = s.deferring k ∧ t.defer k = s.defer k ∧ t.kept k = s.kept k ∧
      t.given k = s.given k)
    (hb : i ≠ 0 → b.home = none) (hstr : i = 0 → b.straight)
    (hq : ∀ c, Moves (role q a) (role q b) (s.uses q) c →
      QInv (s.flag q) (s.list.count q) c (s.owed q) (s.awaited q.1))
    (hd : ∀ o, (if i = 0 then o = a else s.tasks[0]? = some o) →
      DInv o q (s.flag q) (s.deferring q) (s.defer q) (s.kept q) (s.given q) →
      DInv (if i = 0 then b else o) q (s.flag q) (t.deferring q) (t.defer q) (t.kept q) (t.given q)) : t.Inv S := by
  obtain ⟨h1,h2,h3,h4,h5⟩ := hs
  refine hi.goes (q := q) ha hne ⟨ht,h4,h5,hfar,?_,?_,?_,hdf,?_⟩ hb hstr ?_ ?_
  · rw [h1]
    exact fun _ _ => rfl
  · rw [h2]
    exact fun _ _ => rfl
  · rw [h3]
    exact fun _ _ => rfl
  · rw [h1]
    exact ⟨rfl,rfl,rfl⟩
  · rw [h1,h2,h3]
    exact hq
  · rw [h1]
    exact hd

/- No queue passes messages on. -/
theorem Inv.verdict_eq (hi : s.Inv S) (q : Queue) (retry : Bool) : s.verdict S q retry =
    if (s.flag q).qfrozen || (s.flag q).qopening || !retry && s.deferring q || !(s.defer q).isEmpty then .deferred
    else .deliver := by
  simp only [verdict,(hi.queue q).on.1,Bool.false_or,Bool.false_eq_true,if_false]
  cases (s.flag q).qfrozen <;> simp

theorem test_inv (hi : s.Inv S) (ha : s.tasks[i]? = some (.test q mp)) {r : Sys × Place}
    (h : s.perform S ok (.test q mp) = some r) : (r.1.setPc i r.2).Inv S := by
  obtain rfl := Option.some.inj h
  rw [hi.verdict_eq]
  have hoff : ∀ o, (if i = 0 then o = Place.test q mp else s.tasks[0]? = some o) → i = 0 → o.home ≠ some q := by
    intro o ho h0
    rw [if_pos h0] at ho
    subst ho
    nofun
  split_ifs with hv
  · refine hi.data ha nofun q rfl ⟨rfl,rfl,rfl,rfl,rfl⟩ ?_ ?_ (fun _ => rfl) (fun _ => trivial) ?_ ?_
    · exact fun k _ => ⟨role_none rfl,role_none rfl,nofun,nofun⟩
    · exact fun k hk => ⟨rfl,Function.update_of_ne hk ..,Function.update_of_ne hk ..,rfl⟩
    · intro c hm
      rw [role_none rfl,role_none rfl] at hm
      exact hi.same q hm
    · intro o ho hd
      have hdef : (s.lisDeferMsg q mp false).defer q = s.defer q ++ [mp] := Function.update_self ..
      have hkep : (s.lisDeferMsg q mp false).kept q = s.kept q ++ [mp] := Function.update_self ..
      have hb : DInv o q (s.flag q) (s.deferring q) (s.defer q ++ [mp]) (s.kept q ++ [mp]) (s.given q) := by
        obtain ⟨h1,h2,h3⟩ := hd
        refine ⟨by rw [h1]; simp,fun hh => ⟨(h2 hh).1,fun hf hp => ?_⟩,h3⟩
        -- The list was empty and nothing kept the message from being delivered.
        rw [hf,hp,(h2 hh).1,(h2 hh).2 hf hp] at hv
        cases hv
      have hgoal : DInv (if i = 0 then Place.idle else o) q (s.flag q) (s.deferring q)
          ((s.lisDeferMsg q mp false).defer q) ((s.lisDeferMsg q mp false).kept q) (s.given q) := by
        rw [hdef,hkep]
        split_ifs with h0
        · exact hb.elsewhere (hoff o ho h0) nofun
        · exact hb
      exact hgoal
  · simp only [Bool.or_eq_true,not_or,Bool.not_eq_true] at hv
    refine hi.data ha nofun q rfl ⟨rfl,rfl,rfl,rfl,rfl⟩ ?_ (fun _ _ => ⟨rfl,rfl,rfl,rfl⟩) (fun _ => rfl)
      (fun _ => trivial) ?_ ?_
    · exact fun k hk => ⟨role_none rfl,role_other _ rfl hk,nofun,nofun⟩
    · intro c hm
      rw [role_none rfl,role_self _ rfl] at hm
      exact (hi.queue q).put hm hv.1.1.1
    · intro o ho hd
      have hgoal : DInv (if i = 0 then Place.deliver q mp else o) q (s.flag q) (s.deferring q) (s.defer q) (s.kept q)
          (s.given q) := by
        split_ifs with h0
        · exact hd.elsewhere (hoff o ho h0) nofun
        · exact hd
      exact hgoal

theorem deliver_inv (hi : s.Inv S) (ha : s.tasks[i]? = some (.deliver q mp)) : (s.setPc i .idle).Inv S := by
  refine hi.stays ha nofun q s.list s.owed s.wakeup rfl rfl ?_ (fun _ _ => rfl) (fun _ _ => rfl) ?_
  · exact fun k hk => ⟨role_other _ rfl hk,role_none rfl⟩
  · intro c hm
    rw [role_self _ rfl,role_none rfl] at hm
    exact (hi.queue q).entered hm

/-! ### `lis_do_deferred_puts` -/

/- Task 0 goes on with the deferred messages of a queue. -/
theorem Inv.works (hi : s.Inv S) (ha : s.tasks[0]? = some a) (hah : a.home = some h) (ht : t.tasks = s.tasks.set 0 b)
    (hs : t.flag = s.flag ∧ t.list = s.list ∧ t.owed = s.owed ∧ t.phase = s.phase ∧ t.awaited = s.awaited)
    (hra : a.use = some (h,.work) ∨ a.use = some (h,.reput))
    (hrb : b.use = some (h,.work) ∨ b.use = some (h,.reput) ∨ b.use = some (h,.retry))
    (hbh : b.home = none ∨ b.home = some h) (hstr : b.straight)
    (hdf : ∀ k, k ≠ h → t.deferring k = s.deferring k ∧ t.defer k = s.defer k ∧ t.kept k = s.kept k ∧
      t.given k = s.given k)
    (hd : DInv a h (s.flag h) (s.deferring h) (s.defer h) (s.kept h) (s.given h) →
      DInv b h (s.flag h) (t.deferring h) (t.defer h) (t.kept h) (t.given h)) : t.Inv S := by
  obtain ⟨o,ho,-,hdi⟩ := hi.first
  obtain rfl := Option.some.inj (ho.symm.trans ha)
  have hfr : (s.flag h).qfrozen = false := ((hdi h).work hah).1
  have hne : ∀ k, k ≠ h → (some h : Option Queue) ≠ some k := fun k hk hc => hk (Option.some.inj hc).symm
  refine hi.data ha (fun _ hc => ?_) h ht hs ?_ hdf (fun h0 => absurd rfl h0) (fun _ => hstr) ?_ ?_
  · rw [hc] at hah
    cases hah
  · intro k hk
    refine ⟨?_,?_,?_,?_⟩
    · rcases hra with hra | hra <;> exact role_other _ hra hk
    · rcases hrb with hrb | hrb | hrb <;> exact role_other _ hrb hk
    · rw [hah]
      exact hne k hk
    · rcases hbh with hbh | hbh <;> rw [hbh]
      · nofun
      · exact hne k hk
  · intro c hm
    refine (hi.queue h).works ?_ ?_ hfr hm
    · exact hra.imp (role_self _) (role_self _)
    · exact hrb.imp (role_self _) (Or.imp (role_self _) (role_self _))
  · intro o ho hdo
    rw [if_pos rfl] at ho ⊢
    subst ho
    exact hd hdo

/- The head of the loop. -/
theorem next_inv (hi : s.Inv S) (ha : s.tasks[0]? = some a) (hah : a.home = some h) (hra : a.use = some (h,.work))
    (hc : a.carried h = []) :
    (((s.setDeferring h true).nextDeferred h).1.setPc 0 ((s.setDeferring h true).nextDeferred h).2).Inv S := by
  unfold nextDeferred
  split
  case h_1 hl =>
    refine hi.works ha hah rfl ⟨rfl,rfl,rfl,rfl,rfl⟩ (Or.inl hra) (Or.inr (Or.inr rfl)) (Or.inl rfl) trivial ?_ ?_
    · exact fun k hk => ⟨(Function.update_of_ne hk ..).trans (Function.update_of_ne hk ..),rfl,rfl,rfl⟩
    · rintro ⟨h1,-,-⟩
      have hde : Function.update (Function.update s.deferring h true) h false h = false := Function.update_self ..
      have hgoal : DInv (.retry h false) h (s.flag h) (Function.update (Function.update s.deferring h true) h false h)
          (s.defer h) (s.kept h) (s.given h) := by
        rw [hde]
        refine ⟨?_,fun _ => ⟨rfl,fun _ _ => hl⟩,nofun⟩
        rw [h1,hc]
        rfl
      exact hgoal
  case h_2 mp l hl =>
    refine hi.works ha hah rfl ⟨rfl,rfl,rfl,rfl,rfl⟩ (Or.inl hra) (Or.inl rfl) (Or.inr rfl) rfl ?_ ?_
    · exact fun k hk => ⟨Function.update_of_ne hk ..,Function.update_of_ne hk ..,rfl,rfl⟩
    · rintro ⟨h1,-,h3⟩
      have hde : Function.update s.deferring h true h = true := Function.update_self ..
      have hdf : Function.update s.defer h l h = l := Function.update_self ..
      have hl' : s.defer h = mp :: l := hl
      have hgoal : DInv (.retest h h mp) h (s.flag h) (Function.update s.deferring h true h)
          (Function.update s.defer h l h) (s.kept h) (s.given h) := by
        rw [hde,hdf]
        refine ⟨?_,fun hn => absurd rfl hn,fun _ => ⟨(h3 hah).1,(h3 hah).2.1,rfl⟩⟩
        rw [h1,hc,hl']
        simp [Place.carried]
      exact hgoal

theorem deferred_inv (hi : s.Inv S) (ha : s.tasks[0]? = some (.deferred h)) {r : Sys × Place}
    (hr : s.perform S ok (.deferred h) = some r) : (r.1.setPc 0 r.2).Inv S := by
  obtain ⟨o,ho,-,hdi⟩ := hi.first
  obtain rfl := Option.some.inj (ho.symm.trans ha)
  have hnot : s.deferring h = false := ((hdi h).work rfl).2.2
  obtain rfl := Option.some.inj hr
  split_ifs with he
  · rw [hnot,Bool.or_false,List.isEmpty_iff] at he
    refine hi.works ha rfl rfl ⟨rfl,rfl,rfl,rfl,rfl⟩ (Or.inl rfl) (Or.inr (Or.inr rfl)) (Or.inl rfl) trivial
      (fun _ _ => ⟨rfl,rfl,rfl,rfl⟩) ?_
    rintro ⟨h1,-,-⟩
    exact ⟨h1,fun _ => ⟨hnot,fun _ _ => he⟩,nofun⟩
  · exact next_inv hi ha rfl rfl rfl

theorem retest_inv (hi : s.Inv S) (ha : s.tasks[0]? = some (.retest h q mp)) (he : s.defer q = []) {r : Sys × Place}
    (hr : s.perform S ok (.retest h q mp) = some r) : (r.1.setPc 0 r.2).Inv S := by
  obtain ⟨o,ho,hstr,hdi⟩ := hi.first
  obtain rfl := Option.some.inj (ho.symm.trans ha)
  obtain rfl : h = q := hstr
  obtain ⟨h1,h2,-⟩ := (hdi h).work rfl
  obtain rfl := Option.some.inj hr
  rw [hi.verdict_eq,h1,h2,he]
  refine hi.works ha rfl rfl ⟨rfl,rfl,rfl,rfl,rfl⟩ (Or.inl rfl) (Or.inr (Or.inl rfl)) (Or.inr rfl) rfl
    (fun _ _ => ⟨rfl,rfl,rfl,rfl⟩) ?_
  rintro ⟨h3,-,h5⟩
  exact ⟨h3,fun hn => absurd rfl hn,fun _ => h5 rfl⟩

theorem redeliver_inv (hi : s.Inv S) (ha : s.tasks[0]? = some (.redeliver h q mp)) {r : Sys × Place}
    (hr : s.perform S true (.redeliver h q mp) = some r) : (r.1.setPc 0 r.2).Inv S := by
  obtain ⟨o,ho,hstr,hdi⟩ := hi.first
  obtain rfl := Option.some.inj (ho.symm.trans ha)
  obtain rfl : h = q := hstr
  obtain rfl := Option.some.inj hr
  refine hi.works ha rfl rfl ⟨rfl,rfl,rfl,rfl,rfl⟩ (Or.inr rfl) (Or.inl rfl) (Or.inr rfl) rfl ?_ ?_
  · exact fun k hk => ⟨rfl,rfl,rfl,Function.update_of_ne hk ..⟩
  · rintro ⟨h3,-,h5⟩
    have hg : Function.update s.given h (s.given h ++ [mp]) h = s.given h ++ [mp] := Function.update_self ..
    have hgoal : DInv (.loop h true) h (s.flag h) (s.deferring h) (s.defer h) (s.kept h)
        (Function.update s.given h (s.given h ++ [mp]) h) := by
      rw [hg]
      refine ⟨?_,fun hn => absurd rfl hn,fun _ => h5 rfl⟩
      rw [h3]
      simp [Place.carried]
    exact hgoal

theorem loop_inv (hi : s.Inv S) (ha : s.tasks[0]? = some (.loop h run)) {r : Sys × Place}
    (hr : s.perform S ok (.loop h run) = some r) : (r.1.setPc 0 r.2).Inv S := by
  obtain ⟨o,ho,hstr,hdi⟩ := hi.first
  obtain rfl := Option.some.inj (ho.symm.trans ha)
  obtain rfl : run = true := hstr
  have hon : s.deferring h = true := ((hdi h).work rfl).2.2
  have hsame : s.setDeferring h true = s := by rw [setDeferring,← hon,Function.update_eq_self]
  obtain rfl := Option.some.inj hr
  have hn := next_inv hi ha rfl rfl rfl
  rwa [hsame] at hn

/-! ### `lis_freezestr`, `lis_await_qsched`, `lis_unfreezestr` -/

/- Only QWAITING flags change, and what task 0 has done. -/
theorem Inv.waits (hi : s.Inv S) (htasks : t.tasks = s.tasks) (hlist : t.list = s.list) (howed : t.owed = s.owed)
    (hdefers : t.deferring = s.deferring ∧ t.defer = s.defer ∧ t.kept = s.kept ∧ t.given = s.given)
    (hflag : ∀ k, t.flag k = { s.flag k with qwaiting := (t.flag k).qwaiting })
    (hw : ∀ k, (t.flag k).qwaiting = true → (s.flag k).qfrozen = true)
    (haw : ∀ k : Queue, t.awaited k.1 = true → s.awaited k.1 = true ∨ (s.flag k).qfrozen = true ∧
      (s.flag k).qenab = false ∧ (s.flag k).qrunning = false ∧ s.uses k .put + s.uses k .reput = 0)
    (hp : t.PInv S) : t.Inv S := by
  obtain ⟨o,ho,hstr,hdi⟩ := hi.first
  obtain ⟨h1,h2,h3,h4⟩ := hdefers
  refine ⟨?_,⟨o,by rw [htasks,ho],hstr,?_⟩,?_,hp⟩
  · intro k
    rw [uses,htasks,hlist,howed,hflag k]
    refine QInv.wait ?_ _ (hw k)
    cases ha : t.awaited k.1 with
    | false => exact (hi.queue k).forget
    | true =>
      rcases haw k ha with hs | ⟨h5,h6,h7,h8⟩
      · have hq := hi.queue k
        rwa [hs] at hq
      · exact (hi.queue k).awaited h5 h6 h7 h8
  · intro k
    rw [h1,h2,h3,h4,hflag k]
    exact (hdi k).congr rfl rfl
  · rw [htasks]
    exact hi.others

/- The section is the last one of `lis_await_qsched`. -/
def Passes (s : Sys) (p : ℕ) : Prop := (s.phase = .await p ∨ s.phase = .locking p ∨ s.phase = .awake p) ∧ s.busy p = false

theorem freezestr_inv (hi : s.Inv S) (hr : s.phase = .running) : Inv S { s with phase := .freezing S.halves } := by
  refine hi.waits rfl rfl rfl ⟨rfl,rfl,rfl,rfl⟩ (fun _ => rfl) (fun k hk => (hi.queue k).waiting hk)
    (fun _ h => Or.inl h) ?_
  obtain ⟨h1,h2,h3,h4,h5,h6,h7⟩ := hi.phase
  constructor <;> grind -ring -linarith [Phase.todo,Phase.still,Phase.pair]

theorem await_start_inv (hi : s.Inv S) (hr : s.phase = .frozen) (hp : RD p ∈ S.halves ∧ WR p ∈ S.halves) :
    Inv S { s with phase := .await p } := by
  refine hi.waits rfl rfl rfl ⟨rfl,rfl,rfl,rfl⟩ (fun _ => rfl) (fun k hk => (hi.queue k).waiting hk)
    (fun _ h => Or.inl h) ?_
  obtain ⟨h1,h2,h3,h4,h5,h6,h7⟩ := hi.phase
  have hboth : ∀ h, (p,h) ∈ S.halves := by
    intro h
    cases h
    · exact hp.2
    · exact hp.1
  constructor <;> grind -ring -linarith [Phase.todo,Phase.still,Phase.pair]

theorem unfreezestr_inv (hi : s.Inv S) (hr : s.phase = .frozen) :
    Inv S { s with phase := .thawing S.halves, awaited := fun _ => false } := by
  refine hi.waits rfl rfl rfl ⟨rfl,rfl,rfl,rfl⟩ (fun _ => rfl) (fun k hk => (hi.queue k).waiting hk) nofun ?_
  obtain ⟨h1,h2,h3,h4,h5,h6,h7⟩ := hi.phase
  constructor <;> grind -ring -linarith [Phase.todo,Phase.still,Phase.pair]

theorem setWaiting_flag (v : Bool) (o : Option ℕ) (k : Queue) : (s.setWaiting p v o).flag k =
    if k.1 = p then { s.flag k with qwaiting := v } else s.flag k := by
  obtain ⟨k,h⟩ := k
  by_cases hk : k = p
  · subst hk
    cases h <;> simp [setWaiting,setFlag,RD,WR]
  · simp [setWaiting,setFlag,RD,WR,hk]

theorem setWaiting_rest (v : Bool) (o : Option ℕ) (k : Queue) : (s.setWaiting p v o).flag k =
    { s.flag k with qwaiting := ((s.setWaiting p v o).flag k).qwaiting } := by
  rw [setWaiting_flag]
  split_ifs <;> rfl

theorem setWaiting_busy (v : Bool) (o : Option ℕ) : (s.setWaiting p v o).busy p = s.busy p := by
  rw [busy,setWaiting_rest v o (RD p),setWaiting_rest v o (WR p)]
  rfl

/- The queues of the pair waited for are frozen. -/
theorem Inv.pair_frozen (hi : s.Inv S) (hp : s.phase.pair = some p) (h : Bool) : (s.flag (p,h)).qfrozen = true := by
  have hn : s.phase ≠ .running ∧ (∀ l, s.phase ≠ .thawing l) ∧ s.phase.todo = [] := by
    cases hs : s.phase <;> rw [hs] at hp <;> simp [Phase.pair] at hp <;> simp [Phase.todo]
  have ha := hi.phase.all hn.1 hn.2.1 (p,h) (hi.phase.pair p hp h)
  rw [hn.2.2] at ha
  simpa using ha

/- `lis_await_qsched` succeeds. -/
theorem pass_inv (hi : s.Inv S) (hg : s.Passes p → ∀ h, s.uses (p,h) .put + s.uses (p,h) .reput = 0) (hs : s.Passes p)
    (htasks : t.tasks = s.tasks) (hlist : t.list = s.list) (howed : t.owed = s.owed)
    (hdefers : t.deferring = s.deferring ∧ t.defer = s.defer ∧ t.kept = s.kept ∧ t.given = s.given)
    (hflag : ∀ k, t.flag k = { s.flag k with qwaiting := (t.flag k).qwaiting }) (hno : ∀ k, (t.flag k).qwaiting = false)
    (hphase : t.phase = .frozen) (haw : t.awaited = Function.update s.awaited p true) : t.Inv S := by
  have hpair : s.phase.pair = some p := by
    obtain ⟨hs | hs | hs,-⟩ := hs <;> rw [hs] <;> rfl
  have hfree := hs.2
  simp only [busy,Bool.or_eq_false_iff,RD,WR] at hfree
  refine hi.waits htasks hlist howed hdefers hflag ?_ ?_ ?_
  · intro k hk
    rw [hno] at hk
    cases hk
  · rintro ⟨k,h⟩ hk
    by_cases hkp : k = p
    · subst hkp
      refine Or.inr ⟨hi.pair_frozen hpair h,?_,?_,hg hs h⟩ <;> cases h
      · exact hfree.1.2
      · exact hfree.1.1.1
      · exact hfree.2
      · exact hfree.1.1.2
    · rw [haw] at hk
      exact Or.inl ((Function.update_of_ne hkp ..).symm.trans hk)
  · have hfr : ∀ k, (t.flag k).qfrozen = (s.flag k).qfrozen := fun k => by rw [hflag k]
    obtain ⟨h1,h2,h3,h4,h5,h6,h7⟩ := hi.phase
    have hp3 := hs.1
    constructor <;> grind -ring -linarith [Phase.todo,Phase.still,Phase.pair]

/- The task falls asleep. -/
theorem sleep_inv (hi : s.Inv S) (hs : s.phase = .locking p ∨ s.phase = .awake p)
    (htasks : t.tasks = s.tasks) (hlist : t.list = s.list) (howed : t.owed = s.owed)
    (hdefers : t.deferring = s.deferring ∧ t.defer = s.defer ∧ t.kept = s.kept ∧ t.given = s.given)
    (hflag : ∀ k, t.flag k = { s.flag k with qwaiting := (t.flag k).qwaiting })
    (hw : ∀ k, (t.flag k).qwaiting = true → k.1 = p) (hphase : t.phase = .asleep p) (haw : t.awaited = s.awaited) :
    t.Inv S := by
  have hpair : s.phase.pair = some p := by
    rcases hs with hs | hs <;> rw [hs] <;> rfl
  refine hi.waits htasks hlist howed hdefers hflag ?_ ?_ ?_
  · rintro ⟨k,h⟩ hk
    obtain rfl := hw _ hk
    exact hi.pair_frozen hpair h
  · rw [haw]
    exact fun k hk => Or.inl hk
  · have hfr : ∀ k, (t.flag k).qfrozen = (s.flag k).qfrozen := fun k => by rw [hflag k]
    obtain ⟨h1,h2,h3,h4,h5,h6,h7⟩ := hi.phase
    constructor <;> grind -ring -linarith [Phase.todo,Phase.still,Phase.pair]

/- The next queue is marked. -/
theorem mark_inv (hi : s.Inv S) {l : List Queue} (hs : s.phase = .freezing (q :: l)) :
    Inv S { s.setFlag q { s.flag q with qfrozen := true } with phase := .freezing l } := by
  obtain ⟨o,ho,hstr,hdi⟩ := hi.first
  have hidle : o = .idle := by
    have hn := hi.phase.idle (by rw [hs]; nofun)
    exact Option.some.inj (ho.symm.trans hn)
  subst hidle
  have hfl : ∀ k, (s.setFlag q { s.flag q with qfrozen := true }).flag k =
      if k = q then { s.flag k with qfrozen := true } else s.flag k := by
    intro k
    by_cases hk : k = q
    · subst hk
      rw [if_pos rfl]
      exact Function.update_self ..
    · rw [if_neg hk]
      exact Function.update_of_ne hk ..
  refine ⟨?_,⟨_,ho,trivial,?_⟩,hi.others,?_⟩
  · intro k
    have hgoal : QInv ((s.setFlag q { s.flag q with qfrozen := true }).flag k) (s.list.count k) (s.uses k) (s.owed k)
        (s.awaited k.1) := by
      rw [hfl]
      split_ifs
      · exact (hi.queue k).freeze
      · exact hi.queue k
    exact hgoal
  · intro k
    have hgoal : DInv .idle k ((s.setFlag q { s.flag q with qfrozen := true }).flag k) (s.deferring k) (s.defer k)
        (s.kept k) (s.given k) := by
      rw [hfl]
      split_ifs
      · exact ⟨(hdi k).kept,fun h => ⟨((hdi k).rest h).1,nofun⟩,nofun⟩
      · exact hdi k
    exact hgoal
  · obtain ⟨h1,h2,h3,h4,h5,h6,h7⟩ := hi.phase
    have hgoal : PInv S { s with
        flag := (s.setFlag q { s.flag q with qfrozen := true }).flag, phase := .freezing l } := by
      constructor <;> grind -ring -linarith [Phase.todo,Phase.still,Phase.pair]
    exact hgoal

/- The next queue is thawed, and its deferred messages are tried. -/
theorem thaw_inv (hi : s.Inv S) {l : List Queue} (hs : s.phase = .thawing (q :: l)) (h0 : s.tasks[0]? = some .idle) :
    Inv S { (s.setFlag q { s.flag q with qopening := false, qfrozen := false }).setPc 0 (.deferred q) with
      phase := .thawing l } := by
  obtain ⟨o,ho,hstr,hdi⟩ := hi.first
  obtain rfl := Option.some.inj (ho.symm.trans h0)
  have hnot : ∀ p, s.awaited p = false := by
    intro p
    by_contra hc
    have := hi.phase.awaited p (by simpa using hc)
    rw [hs] at this
    cases this
  have hwait : ∀ k, (s.flag k).qwaiting = false := by
    intro k
    by_contra hc
    have := hi.phase.waiting k (by simpa using hc)
    rw [hs] at this
    rcases this with h | h <;> cases h
  have hself : Function.update s.flag q { s.flag q with qopening := false, qfrozen := false } q =
      { s.flag q with qopening := false, qfrozen := false } := Function.update_self ..
  refine ⟨?_,⟨.deferred q,?_,trivial,?_⟩,?_,?_⟩
  · intro k
    have hm := standing_moves h0 (.deferred q) (role k)
    have hgoal : QInv (Function.update s.flag q { s.flag q with qopening := false, qfrozen := false } k) (s.list.count k)
        (standing (role k) (s.tasks.set 0 (.deferred q))) (s.owed k) (s.awaited k.1) := by
      by_cases hk : k = q
      · subst hk
        rw [hself]
        rw [role_none rfl,role_self _ rfl] at hm
        exact (hi.queue k).thaw hm (hnot _) (hwait k)
      · rw [Function.update_of_ne hk]
        rw [role_none rfl,role_other _ rfl hk] at hm
        rw [hm.same]
        exact hi.queue k
    exact hgoal
  · have hset : (s.tasks.set 0 (.deferred q))[0]? = some (.deferred q) := by
      rw [List.getElem?_set_self',h0]
      rfl
    exact hset
  · intro k
    have hgoal : DInv (.deferred q) k (Function.update s.flag q { s.flag q with qopening := false, qfrozen := false } k)
        (s.deferring k) (s.defer k) (s.kept k) (s.given k) := by
      by_cases hk : k = q
      · subst hk
        rw [hself]
        exact ⟨(hdi k).kept,fun h => absurd rfl h,fun _ => ⟨rfl,rfl,((hdi k).rest nofun).1⟩⟩
      · rw [Function.update_of_ne hk]
        exact (hdi k).elsewhere nofun fun h => hk (Option.some.inj h).symm
    exact hgoal
  · intro j c hj hc
    exact hi.others j c hj ((List.getElem?_set_ne (Ne.symm hj)).symm.trans hc)
  · obtain ⟨h1,h2,h3,h4,h5,h6,h7⟩ := hi.phase
    have hgoal : PInv S { s with
        flag := Function.update s.flag q { s.flag q with qopening := false, qfrozen := false }
        tasks := s.tasks.set 0 (.deferred q), phase := .thawing l } := by
      have hfl : ∀ k, Function.update s.flag q { s.flag q with qopening := false, qfrozen := false } k =
          if k = q then { s.flag k with qopening := false, qfrozen := false } else s.flag k := by
        intro k
        by_cases hk : k = q
        · subst hk
          rw [if_pos rfl]
          exact hself
        · rw [if_neg hk]
          exact Function.update_of_ne hk ..
      constructor <;> simp only [hfl] <;> grind -ring -linarith [Phase.todo,Phase.still,Phase.pair]
    exact hgoal

theorem phase_next_inv (hi : s.Inv S) (hg : ∀ p, s.phase.pair = some p → s.Passes p →
    ∀ h, s.uses (p,h) .put + s.uses (p,h) .reput = 0) (h : s.next = some t) : t.Inv S := by
  have hold : ∀ k, (s.flag k).qwaiting = true → (s.flag k).qfrozen = true := fun k hk => (hi.queue k).waiting hk
  unfold next at h
  split at h
  case h_1 | h_2 => cases h
  case h_3 hs =>
    obtain rfl := Option.some.inj h
    refine hi.waits rfl rfl rfl ⟨rfl,rfl,rfl,rfl⟩ (fun _ => rfl) hold (fun _ h => Or.inl h) ?_
    obtain ⟨h1,h2,h3,h4,h5,h6,h7⟩ := hi.phase
    constructor <;> grind -ring -linarith [Phase.todo,Phase.still,Phase.pair]
  case h_4 q l hs =>
    obtain rfl := Option.some.inj h
    exact mark_inv hi hs
  case h_5 p hs =>
    obtain rfl := Option.some.inj h
    have hno : ∀ k, (s.flag k).qwaiting = false := by
      intro k
      by_contra hc
      have := hi.phase.waiting k (by simpa using hc)
      rw [hs] at this
      rcases this with h | h <;> cases h
    split_ifs with hb
    · refine hi.waits rfl rfl rfl ⟨rfl,rfl,rfl,rfl⟩ (fun _ => rfl) hold (fun _ h => Or.inl h) ?_
      obtain ⟨h1,h2,h3,h4,h5,h6,h7⟩ := hi.phase
      constructor <;> grind -ring -linarith [Phase.todo,Phase.still,Phase.pair]
    · exact pass_inv hi (hg p (by rw [hs]; rfl)) ⟨Or.inl hs,by simpa using hb⟩ rfl rfl rfl ⟨rfl,rfl,rfl,rfl⟩
        (fun _ => rfl) hno rfl rfl
  case h_6 p hs =>
    obtain rfl := Option.some.inj h
    have hin : ∀ v o k, ((s.setWaiting p v o).flag k).qwaiting = true → k.1 = p := by
      intro v o k hk
      rw [setWaiting_flag] at hk
      by_contra hkp
      rw [if_neg hkp] at hk
      have := hi.phase.waiting k hk
      rw [hs] at this
      rcases this with h | h <;> cases h
    unfold await
    rw [setWaiting_busy]
    split_ifs with hb
    · exact sleep_inv hi (Or.inl hs) rfl rfl rfl ⟨rfl,rfl,rfl,rfl⟩ (setWaiting_rest true (some 0)) (hin true (some 0))
        rfl rfl
    · refine pass_inv hi (hg p (by rw [hs]; rfl)) ⟨Or.inr (Or.inl hs),by simpa using hb⟩ rfl rfl rfl ⟨rfl,rfl,rfl,rfl⟩
        ?_ ?_ rfl rfl
      · intro k
        exact (setWaiting_rest false none k).trans (by rw [setWaiting_rest true (some 0) k]; rfl)
      · intro k
        by_contra hc
        have hk : k.1 = p := by
          by_contra hkp
          have hf : (((s.setWaiting p true (some 0)).setWaiting p false none).flag k).qwaiting = true :=
            eq_true_of_ne_false hc
          rw [setWaiting_flag,if_neg hkp] at hf
          exact hkp (hin true (some 0) k hf)
        refine hc ((congrArg Qflag.qwaiting (setWaiting_flag false none k)).trans ?_)
        rw [if_pos hk]
  case h_7 p hs =>
    split at h
    · obtain rfl := Option.some.inj h
      refine hi.waits rfl rfl rfl ⟨rfl,rfl,rfl,rfl⟩ (fun _ => rfl) hold (fun _ h => Or.inl h) ?_
      obtain ⟨h1,h2,h3,h4,h5,h6,h7⟩ := hi.phase
      constructor <;> grind -ring -linarith [Phase.todo,Phase.still,Phase.pair]
    · cases h
  case h_8 p hs =>
    obtain rfl := Option.some.inj h
    have hin : ∀ k, (s.flag k).qwaiting = true → k.1 = p := by
      intro k hk
      have := hi.phase.waiting k hk
      rw [hs] at this
      rcases this with h | h <;> cases h
      rfl
    unfold await
    split_ifs with hb
    · exact sleep_inv hi (Or.inr hs) rfl rfl rfl ⟨rfl,rfl,rfl,rfl⟩ (fun _ => rfl) hin rfl rfl
    · refine pass_inv hi (hg p (by rw [hs]; rfl)) ⟨Or.inr (Or.inr hs),by simpa using hb⟩ rfl rfl rfl ⟨rfl,rfl,rfl,rfl⟩
        (setWaiting_rest false none) ?_ rfl rfl
      intro k
      by_contra hc
      have hf : ((s.setWaiting p false none).flag k).qwaiting = true := eq_true_of_ne_false hc
      rw [setWaiting_flag] at hf
      split_ifs at hf with hk
      exact hk (hin k hf)
  case h_9 hs =>
    split_ifs at h with h0
    obtain rfl := Option.some.inj h
    refine hi.waits rfl rfl rfl ⟨rfl,rfl,rfl,rfl⟩ (fun _ => rfl) hold (fun _ h => Or.inl h) ?_
    obtain ⟨h1,h2,h3,h4,h5,h6,h7⟩ := hi.phase
    constructor <;> grind -ring -linarith [Phase.todo,Phase.still,Phase.pair]
  case h_10 q l hs =>
    split_ifs at h with h0
    obtain rfl := Option.some.inj h
    exact thaw_inv hi hs h0

/-! ### Every run -/

/- A deferred message is tried again when no other one is on the list, and its queue can be locked then. A queue
that is to be served is locked, or something is in the way that ends with `lis_retry_qenable`. -/
def Safe (s : Sys) (ok : Bool) : Place → Prop
  | .retest _ q _ => s.defer q = []
  | .redeliver _ _ _ => ok = true
  | .service q => ok = false → s.owed q = true →
      (s.flag q).qwantenab = true ∧ ((s.flag q).qopening = true ∨ (s.flag q).qfrozen = true)
  | _ => True

/- When `lis_await_qsched` succeeds, no message has passed the tests of `lis_safe_do_putmsg` at a queue of the pair
and not yet been given to the put procedure. -/
def Guard (s : Sys) : Act → Prop
  | .run i ok => ∀ o ∈ s.tasks[i]?, s.Safe ok o
  | .next => ∀ p ∈ s.phase.pair, s.Passes p → ∀ h, s.uses (p,h) .put + s.uses (p,h) .reput = 0
  | _ => True

instance decPasses (s : Sys) (p : ℕ) : Decidable (s.Passes p) :=
  inferInstanceAs (Decidable ((s.phase = .await p ∨ s.phase = .locking p ∨ s.phase = .awake p) ∧ s.busy p = false))

instance decSafe (s : Sys) (ok : Bool) : ∀ o, Decidable (s.Safe ok o)
  | .retest _ q _ => inferInstanceAs (Decidable (s.defer q = []))
  | .redeliver _ _ _ => inferInstanceAs (Decidable (ok = true))
  | .service q => inferInstanceAs (Decidable (ok = false → s.owed q = true →
      (s.flag q).qwantenab = true ∧ ((s.flag q).qopening = true ∨ (s.flag q).qfrozen = true)))
  | .idle | .test .. | .deliver .. | .retry .. | .qenable .. | .link .. | .take | .clear _ | .skip _ | .finish _ |
      .wake _ | .deferred _ | .loop .. => inferInstanceAs (Decidable True)

instance decGuard (s : Sys) : ∀ a, Decidable (s.Guard a)
  | .run i ok => inferInstanceAs (Decidable (∀ o ∈ s.tasks[i]?, s.Safe ok o))
  | .next => inferInstanceAs (Decidable (∀ p ∈ s.phase.pair, s.Passes p →
      ∀ h, s.uses (p,h) .put + s.uses (p,h) .reput = 0))
  | .call .. | .lisFreezestr | .lisAwaitQsched _ | .lisUnfreezestr => inferInstanceAs (Decidable True)

/- Only task 0 works off deferred messages. -/
theorem Inv.first_of (hi : s.Inv S) (ha : s.tasks[i]? = some a) (hh : a.home ≠ none) : i = 0 := by
  by_contra h0
  exact hh (hi.others i a h0 ha)

theorem perform_inv (hi : s.Inv S) (ha : s.tasks[i]? = some a) (hg : s.Safe ok a) {r : Sys × Place}
    (h : s.perform S ok a = some r) : (r.1.setPc i r.2).Inv S := by
  cases a with
  | idle => cases h
  | test q mp => exact test_inv hi ha h
  | deliver q mp =>
    obtain rfl := Option.some.inj h
    exact deliver_inv hi ha
  | retry q run =>
    obtain rfl := Option.some.inj h
    exact retry_inv hi ha
  | qenable q run =>
    obtain rfl := Option.some.inj h
    exact qenable_inv hi ha
  | link q run =>
    obtain rfl := Option.some.inj h
    exact link_inv hi ha
  | take =>
    obtain rfl := Option.some.inj h
    exact take_inv hi ha
  | clear q =>
    obtain rfl := Option.some.inj h
    exact clear_inv hi ha
  | service q =>
    obtain rfl := Option.some.inj h
    cases ok with
    | true => exact serve_inv hi ha
    | false => exact unlocked_inv hi ha (hg rfl)
  | skip q => exact absurd ha hi.no_skip
  | finish q =>
    obtain rfl := Option.some.inj h
    exact finish_inv hi ha
  | wake q =>
    obtain rfl := Option.some.inj h
    exact wake_inv hi ha _
  | deferred h0 =>
    obtain rfl := hi.first_of ha nofun
    exact deferred_inv hi ha h
  | retest h0 q mp =>
    obtain rfl := hi.first_of ha nofun
    exact retest_inv hi ha hg h
  | redeliver h0 q mp =>
    obtain rfl := hi.first_of ha nofun
    obtain rfl : ok = true := hg
    exact redeliver_inv hi ha h
  | loop h0 ret =>
    obtain rfl := hi.first_of ha nofun
    exact loop_inv hi ha h

theorem call_inv (hi : s.Inv S) (h0 : i ≠ 0) (ha : s.tasks[i]? = some .idle) (c : Call) :
    (s.setPc i c.place).Inv S := by
  have hhome : c.place.home = none := by cases c <;> rfl
  cases c with
  | lisQenable q =>
    refine hi.stays ha (fun h => absurd h h0) q s.list s.owed s.wakeup rfl hhome ?_ (fun _ _ => rfl) (fun _ _ => rfl) ?_
    · exact fun k hk => ⟨role_none rfl,role_other _ rfl hk⟩
    · intro c hm
      rw [role_none rfl,role_self _ rfl] at hm
      exact (hi.queue q).called hm
  | _ =>
    refine hi.stays ha (fun h => absurd h h0) (0,true) s.list s.owed s.wakeup rfl hhome ?_ (fun _ _ => rfl)
      (fun _ _ => rfl) ?_
    · exact fun k _ => ⟨role_none rfl,role_none rfl⟩
    · intro c hm
      rw [role_none rfl,role_none rfl] at hm
      exact hi.same _ hm

theorem step_inv (s : Sys) (act : Act) (t : Sys) (hi : s.Inv S) (hg : s.Guard act) (h : step S s act = some t) :
    t.Inv S := by
  cases act with
  | call i c =>
    simp only [step] at h
    split_ifs at h with hc
    obtain rfl := Option.some.inj h
    exact call_inv hi hc.1 hc.2 c
  | run i ok =>
    obtain ⟨o,ho,h⟩ := Option.bind_eq_some_iff.mp h
    obtain ⟨r,hr,rfl⟩ := Option.map_eq_some_iff.mp h
    exact perform_inv hi ho (hg o ho) hr
  | lisFreezestr =>
    simp only [step] at h
    split_ifs at h with hc
    obtain rfl := Option.some.inj h
    exact freezestr_inv hi hc
  | lisAwaitQsched p =>
    simp only [step] at h
    split_ifs at h with hc
    obtain rfl := Option.some.inj h
    exact await_start_inv hi hc.1 hc.2
  | lisUnfreezestr =>
    simp only [step] at h
    split_ifs at h with hc
    obtain rfl := Option.some.inj h
    exact unfreezestr_inv hi hc
  | next => exact phase_next_inv hi hg h

theorem init_inv (S : Stream) (opening : Queue → Bool) (n : ℕ) : (init opening n).Inv S := by
  have hu : ∀ q r, (init opening n).uses q r = 0 := fun q r => standing_replicate (n + 1) (role_none rfl)
  refine ⟨?_,⟨.idle,rfl,trivial,?_⟩,?_,?_⟩
  · intro q
    refine ⟨⟨rfl,rfl⟩,hu _ _,?_,?_,fun h => Bool.noConfusion (h : false = true),
      fun h => Bool.noConfusion (h : false = true),fun h => Bool.noConfusion (h : false = true),
      fun h => Bool.noConfusion (h : false = true)⟩
    · rw [hu,hu]
      rfl
    · rw [hu,hu,hu]
      rfl
  · exact fun q => ⟨rfl,fun _ => ⟨rfl,fun _ _ => rfl⟩,nofun⟩
  · intro i o _ ho
    rw [List.eq_of_mem_replicate (List.mem_of_getElem? ho)]
    rfl
  · exact ⟨fun _ => rfl,fun _ h => Bool.noConfusion (h : false = true),fun h => absurd rfl h,nofun,
      fun _ h => Bool.noConfusion (h : false = true),nofun,fun _ h => Bool.noConfusion (h : false = true)⟩

end Sys

end CSLiS.Sched.Freeze
