import CSLiS.Sched.Qdetach
import CSLiS.Lib.Crew

/-!
# A detached queue pair is on no scheduling list

The tasks at work on a queue are counted by what they do with it. QENAB and QSCAN tell how many of them are
about to put the queue on a list, have it listed or have taken it and not yet looked. QRUNNING tells whether one
of them has taken it.
-/

namespace CSLiS.Sched.Qdetach
open Lib.Crew Lib.Exec

/- What a task does with a queue: `touch` is what `queuerun` does with one whose QRUNNING it has cleared. -/
inductive Role
  | link (w : Which)
  | clear (w : Which)
  | body (w : Which)
  | finish (w : Which)
  | touch
  deriving DecidableEq, Repr

def Place.use : Place → Option (Queue × Role)
  | .link w q _ => some (q,.link w)
  | .clear w q => some (q,.clear w)
  | .body w q => some (q,.body w)
  | .finish w q => some (q,.finish w)
  | .retry q true | .qenable q true | .wake _ q => some (q,.touch)
  | _ => none

/- What the task does with queue `q`. -/
def role (q : Queue) (o : Place) : Option Role := o.use.bind fun u => if u.1 = q then some u.2 else none

/- A task of `queuerun` has the queue. -/
def Place.holds (q : Queue) : Place → Bool
  | .clear _ k | .body _ k | .finish _ k | .wake _ k => k = q
  | .retry k run | .qenable k run | .link _ k run => run && k = q
  | _ => false

def Place.links (q : Queue) : Place → Bool
  | .link _ k _ => k = q
  | _ => false

/- The queue whose QRUNNING the task clears. -/
def Place.releases (ok : Bool) : Place → Option Queue
  | .finish _ q => some q
  | .body _ q => if ok then none else some q
  | _ => none

/- `deschedule` has been called. -/
def Detach.off (d : Detach) : Prop := d ≠ .idle ∧ d ≠ .closing
def Detach.past (d : Detach) : Prop := d = .passed ∨ d = .freed

instance Detach.decOff (d : Detach) : Decidable d.off := inferInstanceAs (Decidable (d ≠ .idle ∧ d ≠ .closing))
instance Detach.decPast (d : Detach) : Decidable d.past := inferInstanceAs (Decidable (d = .passed ∨ d = .freed))

/- The counts of the tasks that have taken the queue and not yet cleared QRUNNING. -/
def taken (c : Role → ℕ) : ℕ :=
  c (.clear .run) + c (.body .run) + c (.finish .run) + c (.clear .scan) + c (.body .scan) + c (.finish .scan)

/- How often a queue is on each list, and how many tasks do each thing with it. -/
structure QInv (f : Qflag) (l : Which → ℕ) (c : Role → ℕ) (d : Detach) : Prop where
  run : ¬d.off → c (.link .run) + l .run + c (.clear .run) = f.qenab.toNat
  scan : ¬d.off → c (.link .scan) + l .scan + c (.clear .scan) = f.qscan.toNat
  off : d.off → (∀ w, c (.link w) = 0 ∧ l w = 0) ∧ f.qenab = false ∧ f.qscan = false
  procsoff : d ≠ .idle → f.qprocsoff = true
  running : taken c = 0 ↔ f.qrunning = false
  past : d.past → taken c = 0 ∧ c .touch = 0

section Moves

variable {f f' : Qflag} {l l' : Which → ℕ} {c c' : Role → ℕ} {d : Detach} {w : Which}

theorem moves_all {a b : Option Role} (hm : Moves a b c c') :
    (∀ w, c' (.link w) + (if a = some (.link w) then 1 else 0) = c (.link w) + if b = some (.link w) then 1 else 0) ∧
    (∀ w, c' (.clear w) + (if a = some (.clear w) then 1 else 0) =
      c (.clear w) + if b = some (.clear w) then 1 else 0) ∧
    (∀ w, c' (.body w) + (if a = some (.body w) then 1 else 0) = c (.body w) + if b = some (.body w) then 1 else 0) ∧
    (∀ w, c' (.finish w) + (if a = some (.finish w) then 1 else 0) =
      c (.finish w) + if b = some (.finish w) then 1 else 0) ∧
    c' .touch + (if a = some .touch then 1 else 0) = c .touch + if b = some .touch then 1 else 0 :=
  ⟨fun _ => hm _,fun _ => hm _,fun _ => hm _,fun _ => hm _,hm _⟩

section
variable (hi : QInv f l c d)
include hi

/- Nothing the scheduling depends on has changed. -/
theorem QInv.congr (h1 : f'.qenab = f.qenab) (h2 : f'.qscan = f.qscan) (h3 : f'.qrunning = f.qrunning)
    (h4 : f.qprocsoff = true → f'.qprocsoff = true) : QInv f' l c d := by
  obtain ⟨h5,h6,h7,h8,h9,h10⟩ := hi
  refine ⟨?_,?_,?_,fun h => h4 (h8 h),?_,h10⟩
  · rwa [h1]
  · rwa [h2]
  · rwa [h1,h2]
  · rwa [h3]

/- A task has used the queue for the last time, or goes on using it. -/
theorem QInv.touched {b : Option Role} (hb : b = none ∨ b = some .touch) (hm : Moves (some .touch) b c c') :
    QInv f l c' d := by
  obtain ⟨h1,h2,h3,h4,h5,h6⟩ := hi
  obtain ⟨e1,e2,e3,e4,e5⟩ := moves_all hm
  simp only [reduceCtorEq,if_false,Option.some.injEq,Nat.add_zero] at e1 e2 e3 e4 e5
  constructor <;> grind -ring -linarith [taken]

/- A call of `lis_retry_qenable` or `lis_qenable` that puts the queue on no list. -/
theorem QInv.called {a b : Option Role}
    (hab : a = none ∧ b = none ∨ a = some .touch ∧ (b = none ∨ b = some .touch)) (hm : Moves a b c c') : QInv f l c' d := by
  rcases hab with ⟨rfl,rfl⟩ | ⟨rfl,hb⟩
  · rwa [hm.same]
  · exact hi.touched hb hm

theorem QInv.enabled {a : Option Role} (ha : a = none ∨ a = some .touch) (hm : Moves a (some (.link .run)) c c')
    (hf : f.inhEnable = false) : QInv { f with qenab := true } l c' d := by
  obtain ⟨h1,h2,h3,h4,h5,h6⟩ := hi
  obtain ⟨e1,e2,e3,e4,e5⟩ := moves_all hm
  simp only [Qflag.inhEnable,Bool.or_eq_false_iff] at hf
  simp only [reduceCtorEq,if_false,Option.some.injEq,Nat.add_zero] at e1 e2 e3 e4 e5
  constructor <;> grind -ring -linarith [taken,Detach.off,Detach.past]

theorem QInv.scanned (hm : Moves none (some (.link .scan)) c c') (hs : f.qscan = false) (hp : f.qprocsoff = false) :
    QInv { f with qscan := true } l c' d := by
  obtain ⟨h1,h2,h3,h4,h5,h6⟩ := hi
  obtain ⟨e1,e2,e3,e4,e5⟩ := moves_all hm
  simp only [reduceCtorEq,if_false,Option.some.injEq,Nat.add_zero] at e1 e2 e3 e4 e5
  constructor <;> grind -ring -linarith [taken,Detach.off,Detach.past]

theorem QInv.linked (hm : Moves (some (.link w)) none c c') (hp : 0 < c (.link w))
    (hl : ∀ x, l' x = l x + if x = w then 1 else 0) : QInv f l' c' d := by
  obtain ⟨h1,h2,h3,h4,h5,h6⟩ := hi
  obtain ⟨e1,e2,e3,e4,e5⟩ := moves_all hm
  simp only [reduceCtorEq,if_false,Option.some.injEq,Nat.add_zero] at e1 e2 e3 e4 e5
  cases w <;> constructor <;> grind -ring -linarith [taken]

theorem QInv.taken (hm : Moves none (some (.clear w)) c c') (hl : ∀ x, l' x + (if x = w then 1 else 0) = l x) :
    QInv { f with qrunning := true } l' c' d := by
  obtain ⟨h1,h2,h3,h4,h5,h6⟩ := hi
  obtain ⟨e1,e2,e3,e4,e5⟩ := moves_all hm
  simp only [reduceCtorEq,if_false,Option.some.injEq,Nat.add_zero] at e1 e2 e3 e4 e5
  cases w <;> constructor <;> grind -ring -linarith [Qdetach.taken,Detach.off,Detach.past]

theorem QInv.cleared (hm : Moves (some (.clear w)) (some (.body w)) c c') (hp : 0 < c (.clear w)) :
    QInv (f.clear w) l c' d := by
  obtain ⟨h1,h2,h3,h4,h5,h6⟩ := hi
  obtain ⟨e1,e2,e3,e4,e5⟩ := moves_all hm
  have b1 := Bool.toNat_le f.qenab
  have b2 := Bool.toNat_le f.qscan
  simp only [reduceCtorEq,if_false,Option.some.injEq,Nat.add_zero] at e1 e2 e3 e4 e5
  cases w <;> constructor <;> grind -ring -linarith [Qdetach.taken,Qflag.clear]

theorem QInv.served (hm : Moves (some (.body w)) (some (.finish w)) c c') : QInv f l c' d := by
  obtain ⟨h1,h2,h3,h4,h5,h6⟩ := hi
  obtain ⟨e1,e2,e3,e4,e5⟩ := moves_all hm
  simp only [reduceCtorEq,if_false,Option.some.injEq,Nat.add_zero] at e1 e2 e3 e4 e5
  cases w <;> constructor <;> grind -ring -linarith [Qdetach.taken]

/- QRUNNING is cleared by the only task that has taken the queue. -/
theorem QInv.released {a b : Option Role} (ha : a = some (.body w) ∨ a = some (.finish w))
    (hb : b = none ∨ b = some .touch) (hm : Moves a b c c') (ht : Qdetach.taken c ≤ 1) :
    QInv { f with qrunning := false } l c' d := by
  obtain ⟨h1,h2,h3,h4,h5,h6⟩ := hi
  obtain ⟨e1,e2,e3,e4,e5⟩ := moves_all hm
  rcases ha with rfl | rfl <;> rcases hb with rfl | rfl <;>
    simp only [reduceCtorEq,if_true,if_false,Option.some.injEq,Role.body.injEq,Role.finish.injEq,Nat.add_zero]
      at e1 e2 e3 e4 e5 <;>
    cases w <;> constructor <;> grind -ring -linarith [Qdetach.taken]

/- QPROCSOFF is set. -/
theorem QInv.closing (hd : d = .idle) : QInv { f with qprocsoff := true } l c .closing := by
  obtain ⟨h1,h2,h3,h4,h5,h6⟩ := hi
  constructor <;> grind -ring -linarith [Detach.off,Detach.past]

/- The queue has been taken from the lists, and no task is about to put it there. -/
theorem QInv.unlisted (hd : d = .closing) (h1 : f'.qenab = false) (h2 : f'.qscan = false)
    (h3 : f'.qrunning = f.qrunning) (h4 : f'.qprocsoff = f.qprocsoff) (hl : ∀ w, l' w = 0)
    (hc : ∀ w, c (.link w) = 0) : QInv f' l' c .unlisted := by
  obtain ⟨h5,h6,h7,h8,h9,h10⟩ := hi
  constructor <;> grind -ring -linarith [Detach.off,Detach.past]

/- `lis_await_qsched` goes on. -/
theorem QInv.waits {d' : Detach} (hd : d.off) (hd' : d'.off) (hp : d'.past → Qdetach.taken c = 0 ∧ c .touch = 0) :
    QInv f l c d' := by
  obtain ⟨h1,h2,h3,h4,h5,h6⟩ := hi
  exact ⟨fun h => absurd hd' h,fun h => absurd hd' h,fun _ => h3 hd,fun _ => h4 hd.1,h5,hp⟩

end

end Moves

namespace Lists

variable {srvp : Queue → Bool} {s t : Lists} {i p : ℕ} {q k : Queue} {w : Which} {a b : Place} {ok run : Bool}

def listed (s : Lists) (q : Queue) (w : Which) : ℕ := (s.list w).count q

def uses (s : Lists) (q : Queue) : Role → ℕ := standing (role q) s.tasks

structure Inv (s : Lists) : Prop where
  queue : ∀ q, QInv (s.flag q) (s.listed q) (s.uses q) (s.detach q.1)
  rd : ∀ p, (s.flag (RD p)).qscan = false
  magic : ∀ p, s.magic p = false → s.detach p = .freed

theorem role_none (h : a.use = none) : role q a = none := by rw [role,h]; rfl

theorem role_back : role q (back run) = none := by cases run <;> exact role_none rfl

theorem role_self (r : Role) (h : a.use = some (q,r)) : role q a = some r := by
  rw [role,h]
  exact if_pos rfl

theorem role_other (r : Role) (h : a.use = some (q,r)) (hk : k ≠ q) : role k a = none := by
  rw [role,h]
  exact if_neg (Ne.symm hk)

/- A task goes on, with one queue and one list. -/
theorem Inv.goes (hi : s.Inv) (ha : s.tasks[i]? = some a) (b : Place) (q : Queue) (f : Qflag) (w : Which)
    (l : List Queue) (hrole : ∀ k, k ≠ q → role k a = none ∧ role k b = none)
    (hl : ∀ k, k ≠ q → l.count k = s.listed k w) (hrd : f.qscan = true → q.2 = true → (s.flag q).qscan = true)
    (hq : ∀ c, Moves (role q a) (role q b) (s.uses q) c →
      QInv f (fun x => (Function.update s.list w l x).count q) c (s.detach q.1)) :
    (((s.setList w l).setFlag q f).setPc i b).Inv := by
  have hset : ∀ k, (((s.setList w l).setFlag q f).setPc i b).uses k = standing (role k) (s.tasks.set i b) :=
    fun _ => rfl
  refine ⟨?_,?_,hi.magic⟩
  · intro k
    rw [hset]
    have hm := standing_moves ha b (role k)
    by_cases hk : k = q
    · subst hk
      have hf : (((s.setList w l).setFlag k f).setPc i b).flag k = f := Function.update_self ..
      rw [hf]
      exact hq _ hm
    · have hf : (((s.setList w l).setFlag q f).setPc i b).flag k = s.flag k := Function.update_of_ne hk ..
      have hlist : (((s.setList w l).setFlag q f).setPc i b).listed k = s.listed k := by
        funext x
        by_cases hx : x = w
        · subst hx
          rw [← hl k hk]
          exact congrArg (List.count k) (Function.update_self ..)
        · exact congrArg (List.count k) (Function.update_of_ne hx ..)
      rw [(hrole k hk).1,(hrole k hk).2] at hm
      rw [hf,hlist,hm.same]
      exact hi.queue k
  · intro p
    by_cases hp : RD p = q
    · subst hp
      have hf : (((s.setList w l).setFlag (RD p) f).setPc i b).flag (RD p) = f := Function.update_self ..
      rw [hf]
      by_contra hc
      have := hrd (by simpa using hc) rfl
      rw [hi.rd p] at this
      cases this
    · have hf : (((s.setList w l).setFlag q f).setPc i b).flag (RD p) = s.flag (RD p) := Function.update_of_ne hp ..
      rw [hf]
      exact hi.rd p

/- The lists stay as they are. -/
theorem Inv.flagged (hi : s.Inv) (ha : s.tasks[i]? = some a) (b : Place) (q : Queue) (f : Qflag)
    (hrole : ∀ k, k ≠ q → role k a = none ∧ role k b = none)
    (hrd : f.qscan = true → q.2 = true → (s.flag q).qscan = true)
    (hq : ∀ c, Moves (role q a) (role q b) (s.uses q) c → QInv f (s.listed q) c (s.detach q.1)) :
    ((s.setFlag q f).setPc i b).Inv := by
  have hsame : s.setList .run (s.list .run) = s := by rw [setList,Function.update_eq_self]
  have hg := hi.goes ha b q f .run (s.list .run) hrole (fun _ _ => rfl) hrd (by rwa [Function.update_eq_self])
  rwa [hsame] at hg

/- So do the flags. -/
theorem Inv.stays (hi : s.Inv) (ha : s.tasks[i]? = some a) (b : Place) (q : Queue)
    (hrole : ∀ k, k ≠ q → role k a = none ∧ role k b = none)
    (hq : ∀ c, Moves (role q a) (role q b) (s.uses q) c → QInv (s.flag q) (s.listed q) c (s.detach q.1)) :
    (s.setPc i b).Inv := by
  have hg := hi.flagged ha b q (s.flag q) hrole (fun h _ => h) hq
  rwa [setFlag,Function.update_eq_self] at hg

/- A task that does nothing with any queue. -/
theorem Inv.idles (hi : s.Inv) (ha : s.tasks[i]? = some a) (b : Place) (h1 : ∀ k, role k a = none)
    (h2 : ∀ k, role k b = none) : (s.setPc i b).Inv := by
  refine hi.stays ha b (0,true) (fun k _ => ⟨h1 k,h2 k⟩) fun c hm => ?_
  rw [h1,h2] at hm
  rw [hm.same]
  exact hi.queue _

theorem role_call (run : Bool) : role q (.retry q run) = (if run then some .touch else none) ∧
    role q (.qenable q run) = if run then some .touch else none := by
  cases run
  · exact ⟨role_none rfl,role_none rfl⟩
  · exact ⟨role_self _ rfl,role_self _ rfl⟩

theorem role_call_other (run : Bool) (hk : k ≠ q) :
    role k (.retry q run) = none ∧ role k (.qenable q run) = none := by
  cases run
  · exact ⟨role_none rfl,role_none rfl⟩
  · exact ⟨role_other _ rfl hk,role_other _ rfl hk⟩

theorem called_roles (run : Bool) : (if run then some Role.touch else none) = none ∧ (none : Option Role) = none ∨
    (if run then some Role.touch else none) = some .touch ∧
      ((none : Option Role) = none ∨ (none : Option Role) = some .touch) := by
  cases run <;> simp

theorem retry_inv (hi : s.Inv) (ha : s.tasks[i]? = some (.retry q run)) :
    ((s.lisRetryQenable q run).1.setPc i (s.lisRetryQenable q run).2).Inv := by
  unfold lisRetryQenable
  simp only
  split_ifs with hw
  · refine hi.flagged ha (.qenable q run) q _ (fun k hk => role_call_other run hk) (fun h _ => h) fun c hm => ?_
    rw [(role_call run).1,(role_call run).2] at hm
    refine QInv.called ((hi.queue q).congr rfl rfl rfl id) ?_ hm
    cases run <;> simp
  · refine hi.stays ha (back run) q (fun k hk => ⟨(role_call_other run hk).1,role_back⟩) fun c hm => ?_
    rw [(role_call run).1,role_back] at hm
    exact (hi.queue q).called (called_roles run) hm

theorem qenable_inv (hi : s.Inv) (ha : s.tasks[i]? = some (.qenable q run)) :
    ((s.lisQenable srvp q run).1.setPc i (s.lisQenable srvp q run).2).Inv := by
  have hback : ∀ k, k ≠ q → role k (.qenable q run) = none ∧ role k (back run) = none :=
    fun k hk => ⟨(role_call_other run hk).2,role_back⟩
  unfold lisQenable
  simp only
  split_ifs with hm hf
  · refine hi.stays ha (back run) q hback fun c hm => ?_
    rw [(role_call run).2,role_back] at hm
    exact (hi.queue q).called (called_roles run) hm
  · refine hi.flagged ha (back run) q _ hback (fun h _ => h) fun c hm => ?_
    rw [(role_call run).2,role_back] at hm
    exact QInv.called ((hi.queue q).congr rfl rfl rfl id) (called_roles run) hm
  · refine hi.flagged ha (.link .run q run) q _ ?_ (fun h _ => h) fun c hm => ?_
    · exact fun k hk => ⟨(role_call_other run hk).2,role_other _ rfl hk⟩
    · rw [(role_call run).2,role_self _ rfl] at hm
      refine (hi.queue q).enabled ?_ hm (by simpa using hf)
      cases run <;> simp

theorem timer_inv (hi : s.Inv) (ha : s.tasks[i]? = some (.timer p)) :
    ((s.addToScanl p).1.setPc i (s.addToScanl p).2).Inv := by
  unfold addToScanl
  simp only
  split_ifs with hf
  · exact hi.idles ha .idle (fun _ => role_none rfl) fun _ => role_none rfl
  · simp only [Bool.or_eq_true,not_or,Bool.not_eq_true] at hf
    refine hi.flagged ha (.link .scan (WR p) false) (WR p) _ ?_ ?_ fun c hm => ?_
    · exact fun k hk => ⟨role_none rfl,role_other _ rfl hk⟩
    · exact fun _ h => Bool.noConfusion (h : false = true)
    · rw [role_none rfl,role_self _ rfl] at hm
      exact (hi.queue (WR p)).scanned hm hf.1 hf.2

theorem link_inv (hi : s.Inv) (ha : s.tasks[i]? = some (.link w q run)) :
    ((s.setList w (s.list w ++ [q])).setPc i (back run)).Inv := by
  have hsame : (s.setList w (s.list w ++ [q])).setFlag q (s.flag q) = s.setList w (s.list w ++ [q]) := by
    rw [setFlag]
    exact congrArg (fun f => { s.setList w (s.list w ++ [q]) with flag := f }) (Function.update_eq_self ..)
  have hp : 0 < s.uses q (.link w) := standing_pos ha (role_self _ rfl)
  have hg := hi.goes ha (back run) q (s.flag q) w (s.list w ++ [q]) ?_ ?_ (fun h _ => h) ?_
  · rwa [hsame] at hg
  · exact fun k hk => ⟨role_other _ rfl hk,role_back⟩
  · intro k hk
    rw [List.count_append,List.count_singleton,listed]
    simp [Ne.symm hk]
  · intro c hm
    rw [role_self _ rfl,role_back] at hm
    refine (hi.queue q).linked hm hp fun x => ?_
    by_cases hx : x = w
    · subst hx
      simp [listed]
    · simp [listed,hx]

theorem take_inv (hi : s.Inv) (ha : s.tasks[i]? = some (.take w)) : ((s.take w).1.setPc i (s.take w).2).Inv := by
  unfold take
  split
  case h_1 =>
    refine hi.idles ha _ (fun _ => role_none rfl) fun _ => ?_
    cases w <;> exact role_none rfl
  case h_2 q l hl =>
    refine hi.goes ha (.clear w q) q _ w l ?_ ?_ (fun h _ => h) fun c hm => ?_
    · exact fun k hk => ⟨role_none rfl,role_other _ rfl hk⟩
    · intro k hk
      rw [listed,hl,List.count_cons]
      simp [Ne.symm hk]
    · rw [role_none rfl,role_self _ rfl] at hm
      refine (hi.queue q).taken hm fun x => ?_
      by_cases hx : x = w
      · subst hx
        simp [listed,hl]
      · simp [listed,hx]

theorem clear_inv (hi : s.Inv) (ha : s.tasks[i]? = some (.clear w q)) :
    ((s.clear w q).1.setPc i (s.clear w q).2).Inv := by
  have hp : 0 < s.uses q (.clear w) := standing_pos ha (role_self _ rfl)
  -- A queue that has been freed is not taken.
  have hmagic : s.magic q.1 = true := by
    by_contra hc
    have hd := hi.magic q.1 (by simpa using hc)
    have ht := ((hi.queue q).past (Or.inr hd)).1
    simp only [taken] at ht
    cases w <;> omega
  unfold clear
  simp only [hmagic,Bool.not_true,Bool.false_and,Bool.false_eq_true,if_false]
  refine hi.flagged ha (.body w q) q _ ?_ ?_ fun c hm => ?_
  · exact fun k hk => ⟨role_other _ rfl hk,role_other _ rfl hk⟩
  · intro h _
    cases w
    · exact h
    · cases h
  · rw [role_self _ rfl,role_self _ rfl] at hm
    exact (hi.queue q).cleared hm hp

theorem body_inv (hi : s.Inv) (ha : s.tasks[i]? = some (.body w q)) : (s.setPc i (.finish w q)).Inv := by
  refine hi.stays ha (.finish w q) q (fun k hk => ⟨role_other _ rfl hk,role_other _ rfl hk⟩) fun c hm => ?_
  rw [role_self _ rfl,role_self _ rfl] at hm
  exact (hi.queue q).served hm

/- QRUNNING is cleared. -/
theorem release_inv (hi : s.Inv) (ha : s.tasks[i]? = some a)
    (hu : a.use = some (q,.body w) ∨ a.use = some (q,.finish w)) (hb : b.use = none ∨ b.use = some (q,.touch))
    (ht : taken (s.uses q) ≤ 1) :
    ((s.setFlag q { s.flag q with qrunning := false }).setPc i b).Inv := by
  have hra : role q a = some (.body w) ∨ role q a = some (.finish w) := hu.imp (role_self _) (role_self _)
  have hrb : role q b = none ∨ role q b = some .touch := hb.imp role_none (role_self _)
  refine hi.flagged ha b q _ ?_ (fun h _ => h) fun c hm => (hi.queue q).released hra hrb hm ht
  intro k hk
  constructor
  · rcases hu with hu | hu <;> exact role_other _ hu hk
  · rcases hb with hb | hb
    · exact role_none hb
    · exact role_other _ hb hk

theorem finish_inv (hi : s.Inv) (ha : s.tasks[i]? = some (.finish w q)) (ht : taken (s.uses q) ≤ 1) :
    ((s.finish w q).1.setPc i (s.finish w q).2).Inv := by
  refine release_inv (w := w) hi ha (Or.inr rfl) ?_ ht
  unfold finish
  cases w <;> simp only <;> split_ifs <;> simp [Place.use]

theorem wake_inv (hi : s.Inv) (ha : s.tasks[i]? = some (.wake w q)) (u : ℕ → Option ℕ) :
    (({ s with wakeup := u }).setPc i (.take w)).Inv := by
  have hs : (s.setPc i (.take w)).Inv := by
    refine hi.stays ha (.take w) q (fun k hk => ⟨role_other _ rfl hk,role_none rfl⟩) fun c hm => ?_
    rw [role_self _ rfl,role_none rfl] at hm
    exact (hi.queue q).touched (Or.inl rfl) hm
  exact ⟨hs.queue,hs.rd,hs.magic⟩

theorem perform_inv {r : Lists × Place} (hi : s.Inv) (ha : s.tasks[i]? = some a)
    (hg : ∀ q ∈ a.releases ok, taken (s.uses q) ≤ 1) (h : s.perform srvp ok a = some r) :
    (r.1.setPc i r.2).Inv := by
  cases a with
  | idle => cases h
  | putq q pri =>
    obtain rfl := Option.some.inj h
    refine hi.idles ha _ (fun _ => role_none rfl) fun _ => role_none ?_
    simp only [lisPutq]
    split_ifs <;> rfl
  | retry q run =>
    obtain rfl := Option.some.inj h
    exact retry_inv hi ha
  | qenable q run =>
    obtain rfl := Option.some.inj h
    exact qenable_inv hi ha
  | timer p =>
    obtain rfl := Option.some.inj h
    exact timer_inv hi ha
  | link w q run =>
    obtain rfl := Option.some.inj h
    exact link_inv hi ha
  | take w =>
    obtain rfl := Option.some.inj h
    exact take_inv hi ha
  | clear w q =>
    obtain rfl := Option.some.inj h
    exact clear_inv hi ha
  | body w q =>
    obtain rfl := Option.some.inj h
    cases ok with
    | true => exact body_inv hi ha
    | false => exact release_inv hi ha (Or.inl rfl) (Or.inl rfl) (hg q rfl)
  | finish w q =>
    obtain rfl := Option.some.inj h
    exact finish_inv hi ha (hg q rfl)
  | wake w q =>
    obtain rfl := Option.some.inj h
    exact wake_inv hi ha _

/-! ### `lis_qdetach` -/

/- Only the queues of one pair change. -/
theorem Inv.pair (hi : s.Inv) (p : ℕ) (htasks : t.tasks = s.tasks)
    (hflag : ∀ k : Queue, k.1 ≠ p → t.flag k = s.flag k) (hlist : ∀ k : Queue, k.1 ≠ p → t.listed k = s.listed k)
    (hd : ∀ k, k ≠ p → t.detach k = s.detach k)
    (hm : ∀ k, k ≠ p → t.magic k = s.magic k) (hrd : (t.flag (RD p)).qscan = false)
    (hmp : t.magic p = false → t.detach p = .freed)
    (hq : ∀ h, QInv (t.flag (p,h)) (t.listed (p,h)) (s.uses (p,h)) (t.detach p)) : t.Inv := by
  have huses : ∀ k, t.uses k = s.uses k := fun k => congrArg (standing (role k)) htasks
  refine ⟨?_,?_,?_⟩
  · rintro ⟨k,h⟩
    rw [huses]
    by_cases hk : k = p
    · subst hk
      exact hq h
    · rw [hflag (k,h) hk,hlist (k,h) hk,hd k hk]
      exact hi.queue (k,h)
  · intro k
    by_cases hk : k = p
    · subst hk
      exact hrd
    · rw [hflag (RD k) hk]
      exact hi.rd k
  · intro k
    by_cases hk : k = p
    · subst hk
      exact hmp
    · rw [hm k hk,hd k hk]
      exact hi.magic k

theorem unscan_flag (q : Queue) :
    (s.unscan p).flag q = if q = WR p then { s.flag q with qscan := false } else s.flag q := by
  unfold unscan
  split_ifs with hs hq hq
  · subst hq
    exact Function.update_self ..
  · exact Function.update_of_ne hq ..
  · subst hq
    rw [Bool.not_eq_true] at hs
    rw [← hs]
  · rfl

theorem unscan_count (q : Queue) (w : Which) : ((s.unscan p).list w).count q =
    if (s.flag (WR p)).qscan = true ∧ w = .scan ∧ q = WR p then 0 else (s.list w).count q := by
  unfold unscan
  by_cases hs : (s.flag (WR p)).qscan = true
  · rw [if_pos hs]
    simp only [setFlag,setList]
    cases w
    · simp
    · rw [Function.update_self]
      by_cases hq : q = WR p
      · subst hq
        rw [if_pos ⟨hs,rfl,rfl⟩]
        exact List.count_eq_zero.mpr fun hm => by simpa using (List.mem_filter.mp hm).2
      · rw [if_neg (by simp [hq]),List.count_filter (by simpa using hq)]
  · rw [if_neg hs,if_neg (by simp [hs])]

theorem unrun_flag (q : Queue) :
    (s.unrun p).flag q = if q.1 = p then { s.flag q with qenab := false } else s.flag q := by
  obtain ⟨k,h⟩ := q
  unfold unrun
  by_cases hk : k = p
  · subst hk
    rw [if_pos rfl]
    split_ifs with he
    · cases h <;> simp [setFlag,setList,RD,WR]
    · simp only [Bool.or_eq_true,not_or,Bool.not_eq_true,RD,WR] at he
      have hf : (s.flag (k,h)).qenab = false := by
        cases h
        · exact he.1
        · exact he.2
      rw [← hf]
  · rw [if_neg hk]
    split_ifs
    · simp [setFlag,setList,RD,WR,hk]
    · rfl

theorem unrun_count (q : Queue) (w : Which) : ((s.unrun p).list w).count q =
    if ((s.flag (WR p)).qenab || (s.flag (RD p)).qenab) = true ∧ w = .run ∧ q.1 = p then 0
    else (s.list w).count q := by
  obtain ⟨k,h⟩ := q
  unfold unrun
  by_cases hs : ((s.flag (WR p)).qenab || (s.flag (RD p)).qenab) = true
  · rw [if_pos hs]
    simp only [setFlag,setList]
    cases w
    · rw [Function.update_self]
      by_cases hk : k = p
      · subst hk
        rw [if_pos ⟨hs,rfl,rfl⟩]
        refine List.count_eq_zero.mpr fun hm => ?_
        have := (List.mem_filter.mp hm).2
        cases h <;> simp [RD,WR] at this
      · rw [if_neg (by simp [hk]),List.count_filter (by simp [RD,WR,hk])]
    · simp
  · rw [if_neg hs,if_neg (by simp [hs])]

theorem deschedule_rest : (s.deschedule p).tasks = s.tasks ∧ (s.deschedule p).magic = s.magic ∧
    (s.deschedule p).detach = s.detach := by
  unfold deschedule unrun unscan
  split_ifs <;> exact ⟨rfl,rfl,rfl⟩

/- `deschedule` leaves no queue of the pair on a list when none is about to be put there. -/
theorem deschedule_inv (hi : s.Inv) (hd : s.detach p = .closing) (hc : ∀ h w, s.uses (p,h) (.link w) = 0) :
    ((s.deschedule p).setDetach p .unlisted).Inv := by
  have hflag : ∀ q, (s.deschedule p).flag q = if q.1 = p then { s.flag q with
      qenab := false, qscan := if q = WR p then false else (s.flag q).qscan } else s.flag q := by
    intro q
    rw [deschedule,unrun_flag,unscan_flag]
    split_ifs with h1 h2 h2
    · rfl
    · rfl
    · exact absurd (congrArg Prod.fst h2) h1
    · rfl
  have hfar : ∀ k : Queue, k.1 ≠ p → (s.deschedule p).listed k = s.listed k := by
    intro k hk
    funext w
    rw [listed,deschedule,unrun_count,unscan_count,if_neg (by simp [hk]),if_neg]
    · rfl
    · rintro ⟨-,-,rfl⟩
      exact hk rfl
  have hscan : ∀ h, (h = true → (s.flag (p,h)).qscan = false) := by
    rintro h rfl
    exact hi.rd p
  have hnear : ∀ h w, (s.deschedule p).listed (p,h) w = 0 := by
    intro h w
    have hq := hi.queue (p,h)
    have hoff : ¬(s.detach p).off := fun ho => ho.2 hd
    rw [listed,deschedule,unrun_count,unscan_count,unscan_flag,unscan_flag]
    have h1 := hq.run hoff
    have h2 := hq.scan hoff
    have h3 := hscan h
    cases w with
    | run =>
      cases h <;> simp only [listed,RD,WR] at h1 ⊢ <;> grind -ring -linarith
    | scan =>
      cases h <;> simp only [listed,RD,WR] at h2 h3 ⊢ <;> grind -ring -linarith
  obtain ⟨hrest,hmagic,hdet⟩ := deschedule_rest (s := s) (p := p)
  refine hi.pair (t := (s.deschedule p).setDetach p .unlisted) p hrest ?_ hfar ?_ ?_ ?_ ?_ ?_
  · intro k hk
    exact (hflag k).trans (if_neg hk)
  · intro k hk
    exact (Function.update_of_ne hk ..).trans (congrFun hdet k)
  · exact fun k _ => congrFun hmagic k
  · exact (congrArg Qflag.qscan (hflag (RD p))).trans (by simp [RD,WR]; exact hi.rd p)
  · intro hm
    have hm' : s.magic p = false := (congrFun hmagic p).symm.trans hm
    have := hi.magic p hm'
    rw [hd] at this
    cases this
  · intro h
    have hf : ((s.deschedule p).setDetach p .unlisted).flag (p,h) = _ := (hflag (p,h)).trans (if_pos rfl)
    have hpd : ((s.deschedule p).setDetach p .unlisted).detach p = .unlisted := Function.update_self ..
    rw [hf,hpd]
    refine (hi.queue (p,h)).unlisted hd rfl ?_ rfl rfl (hnear h) (hc h)
    cases h
    · exact if_pos rfl
    · exact (if_neg (by simp [WR])).trans (hi.rd p)

/- A section of `lis_await_qsched`, or of what follows it. -/
theorem wait_inv (hi : s.Inv) {d : Detach} (ho : (s.detach p).off) (hd : d.off) (htasks : t.tasks = s.tasks)
    (hlist : t.list = s.list) (hflag : ∀ k, t.flag k = { s.flag k with qwaiting := (t.flag k).qwaiting })
    (hdet : t.detach = Function.update s.detach p d) (hmagic : ∀ k, t.magic k = false → t.detach k = .freed)
    (hpast : d.past → ∀ h, taken (s.uses (p,h)) = 0 ∧ s.uses (p,h) .touch = 0) : t.Inv := by
  refine ⟨?_,?_,hmagic⟩
  · rintro ⟨k,h⟩
    have hu : t.uses (k,h) = s.uses (k,h) := congrArg (standing (role (k,h))) htasks
    have hl : t.listed (k,h) = s.listed (k,h) := funext fun w => congrArg (List.count (k,h)) (congrFun hlist w)
    rw [hu,hl,hflag (k,h),hdet]
    by_cases hk : k = p
    · subst hk
      rw [Function.update_self]
      have hq := (hi.queue (k,h)).waits ho hd fun hp => hpast hp h
      exact hq.congr rfl rfl rfl id
    · rw [Function.update_of_ne hk]
      exact (hi.queue (k,h)).congr rfl rfl rfl id
  · intro k
    rw [hflag]
    exact hi.rd k

/- The section is the last one of the wait, and it finds no flag set. -/
def Passes (s : Lists) (p : ℕ) : Prop :=
  (s.detach p = .unlisted ∨ s.detach p = .locking ∨ s.detach p = .awake) ∧ s.busy p = false

instance decPasses (s : Lists) (p : ℕ) : Decidable (s.Passes p) := by unfold Passes; infer_instance

/- When `deschedule` runs, no task is between the setting of QENAB or QSCAN and the linking of the queue. When the
wait ends, `queuerun` does not use a queue of the pair whose QRUNNING it has cleared. QRUNNING is not cleared
while another task has the queue too. -/
def Guard (s : Lists) : Act → Prop
  | .run i ok => ∀ o ∈ s.tasks[i]?, ∀ q ∈ o.releases ok, taken (s.uses q) ≤ 1
  | .detach p => (s.detach p = .closing →
      ∀ h, s.uses (p,h) (.link .run) = 0 ∧ s.uses (p,h) (.link .scan) = 0) ∧
      (s.Passes p → ∀ h, s.uses (p,h) .touch = 0)
  | _ => True

instance decGuard (s : Lists) : ∀ a, Decidable (s.Guard a)
  | .run i ok => inferInstanceAs (Decidable (∀ o ∈ s.tasks[i]?, ∀ q ∈ o.releases ok, taken (s.uses q) ≤ 1))
  | .detach p => inferInstanceAs (Decidable ((s.detach p = .closing →
      ∀ h, s.uses (p,h) (.link .run) = 0 ∧ s.uses (p,h) (.link .scan) = 0) ∧
      (s.Passes p → ∀ h, s.uses (p,h) .touch = 0)))
  | .call .. | .mark .. => inferInstanceAs (Decidable True)

theorem setWaiting_flag (v : Bool) (o : Option ℕ) (k : Queue) :
    (s.setWaiting p v o).flag k = { s.flag k with qwaiting := ((s.setWaiting p v o).flag k).qwaiting } := by
  obtain ⟨k,h⟩ := k
  by_cases hk : k = p
  · subst hk
    cases h <;> simp [setWaiting,setFlag,RD,WR]
  · simp [setWaiting,setFlag,RD,WR,hk]

theorem setWaiting_busy (v : Bool) (o : Option ℕ) : (s.setWaiting p v o).busy p = s.busy p := by
  rw [busy,setWaiting_flag v o (RD p),setWaiting_flag v o (WR p)]
  rfl

theorem setDetach_magic (hi : s.Inv) {d : Detach} (hd : s.detach p ≠ .freed) (k : ℕ) (hk : s.magic k = false) :
    (Function.update s.detach p d) k = .freed := by
  have hf := hi.magic k hk
  by_cases hkp : k = p
  · subst hkp
    exact absurd hf hd
  · rw [Function.update_of_ne hkp,hf]

/- Nothing has taken a queue whose flags are clear. -/
theorem Inv.idle (hi : s.Inv) (hb : s.busy p = false) (h : Bool) : taken (s.uses (p,h)) = 0 := by
  refine (hi.queue (p,h)).running.mpr ?_
  simp only [busy,Qflag.busy,Bool.or_eq_false_iff,RD,WR] at hb
  cases h
  · exact hb.2.2
  · exact hb.1.2

theorem await_inv (hi : s.Inv) (hd : s.detach p = .locking ∨ s.detach p = .awake)
    (hg : s.Passes p → ∀ h, s.uses (p,h) .touch = 0) : (s.await p).Inv := by
  have ho : (s.detach p).off := by rcases hd with hd | hd <;> rw [hd] <;> decide
  have hne : s.detach p ≠ .freed := by rcases hd with hd | hd <;> rw [hd] <;> decide
  unfold await
  split_ifs with hb
  · exact wait_inv (p := p) (d := .asleep) hi ho (by decide) rfl rfl (fun _ => rfl) rfl (setDetach_magic hi hne)
      fun h => absurd h (by decide)
  · rw [Bool.not_eq_true] at hb
    exact wait_inv (p := p) (d := .passed) hi ho (by decide) rfl rfl (setWaiting_flag false none) rfl
      (setDetach_magic hi hne) fun _ h => ⟨hi.idle hb h,hg ⟨Or.inr hd,hb⟩ h⟩

theorem waiting_inv (hi : s.Inv) (hd : s.detach p = .locking) (v : Bool) (o : Option ℕ) : (s.setWaiting p v o).Inv := by
  have ho : (s.detach p).off := by rw [hd]; decide
  refine wait_inv (p := p) (d := .locking) hi ho (by decide) rfl rfl (setWaiting_flag v o) ?_ hi.magic ?_
  · exact (Function.update_eq_self_iff.mpr hd.symm).symm
  · exact fun h => absurd h (by decide)

theorem procsoff_inv (hi : s.Inv) (hd : s.detach p = .idle) : ((s.procsoff p).setDetach p .closing).Inv := by
  have hne : s.detach p ≠ .freed := by rw [hd]; decide
  have hnear : ∀ h, (s.procsoff p).flag (p,h) = { s.flag (p,h) with qprocsoff := true } := by
    intro h
    cases h <;> simp [procsoff,setFlag,RD,WR]
  refine hi.pair (t := (s.procsoff p).setDetach p .closing) p rfl ?_ (fun _ _ => rfl) ?_ (fun _ _ => rfl) ?_ ?_ ?_
  · rintro ⟨k,h⟩ hk
    have hk' : k ≠ p := hk
    simp [procsoff,setDetach,setFlag,RD,WR,hk']
  · exact fun k hk => Function.update_of_ne hk ..
  · exact (congrArg Qflag.qscan (hnear true)).trans (hi.rd p)
  · exact setDetach_magic hi hne p
  · intro h
    have hf : ((s.procsoff p).setDetach p .closing).flag (p,h) = _ := hnear h
    have hpd : ((s.procsoff p).setDetach p .closing).detach p = .closing := Function.update_self ..
    rw [hf,hpd]
    exact (hi.queue (p,h)).closing hd

theorem detach_inv (hi : s.Inv) (hg : s.Guard (.detach p)) (h : s.lisQdetach p = some t) : t.Inv := by
  obtain ⟨hlink,hpass⟩ := hg
  unfold lisQdetach at h
  cases hd : s.detach p <;> rw [hd] at h hlink <;> simp only at h
  case idle =>
    obtain rfl := Option.some.inj h
    exact procsoff_inv hi hd
  case closing =>
    obtain rfl := Option.some.inj h
    refine deschedule_inv hi hd fun h w => ?_
    cases w
    · exact (hlink rfl h).1
    · exact (hlink rfl h).2
  case unlisted =>
    obtain rfl := Option.some.inj h
    have ho : (s.detach p).off := by rw [hd]; decide
    have hne : s.detach p ≠ .freed := by rw [hd]; decide
    cases hb : s.busy p
    · exact wait_inv (p := p) (d := .passed) hi ho (by decide) rfl rfl (fun _ => rfl) rfl (setDetach_magic hi hne)
        fun _ h => ⟨hi.idle hb h,hpass ⟨Or.inl hd,hb⟩ h⟩
    · exact wait_inv (p := p) (d := .locking) hi ho (by decide) rfl rfl (fun _ => rfl) rfl (setDetach_magic hi hne)
        fun h => absurd h (by decide)
  case locking =>
    obtain rfl := Option.some.inj h
    refine await_inv (waiting_inv hi hd true (some 0)) (Or.inl hd) fun hp => hpass ⟨Or.inr (Or.inl hd),?_⟩
    exact (setWaiting_busy true (some 0)).symm.trans hp.2
  case asleep =>
    have ho : (s.detach p).off := by rw [hd]; decide
    have hne : s.detach p ≠ .freed := by rw [hd]; decide
    split at h
    · obtain rfl := Option.some.inj h
      exact wait_inv (p := p) (d := .awake) hi ho (by decide) rfl rfl (fun _ => rfl) rfl (setDetach_magic hi hne)
        fun h => absurd h (by decide)
    · cases h
  case awake =>
    obtain rfl := Option.some.inj h
    exact await_inv hi (Or.inr hd) hpass
  case passed =>
    obtain rfl := Option.some.inj h
    have ho : (s.detach p).off := by rw [hd]; decide
    have hpast : (s.detach p).past := Or.inl hd
    refine wait_inv (p := p) (d := .freed) hi ho (by decide) rfl rfl (fun _ => rfl) rfl ?_
      fun _ h => (hi.queue (p,h)).past hpast
    intro k hk
    by_cases hkp : k = p
    · subst hkp
      exact Function.update_self ..
    · have hk' : s.magic k = false := (Function.update_of_ne hkp ..).symm.trans hk
      exact (Function.update_of_ne hkp ..).trans (hi.magic k hk')
  case freed => cases h

theorem call_inv (hi : s.Inv) (ha : s.tasks[i]? = some .idle) (c : Call) : (s.setPc i c.place).Inv := by
  refine hi.idles ha c.place (fun _ => role_none rfl) fun _ => role_none ?_
  cases c <;> rfl

theorem mark_inv (hi : s.Inv) (q : Queue) (m : Marks) : (s.setFlag q { s.flag q with toMarks := m }).Inv := by
  refine ⟨?_,?_,hi.magic⟩
  · intro k
    by_cases hk : k = q
    · subst hk
      have hf : (s.setFlag k { s.flag k with toMarks := m }).flag k = { s.flag k with toMarks := m } :=
        Function.update_self ..
      rw [hf]
      exact QInv.congr (hi.queue k) rfl rfl rfl id
    · have hf : (s.setFlag q { s.flag q with toMarks := m }).flag k = s.flag k := Function.update_of_ne hk ..
      rw [hf]
      exact hi.queue k
  · intro p
    by_cases hp : RD p = q
    · subst hp
      have hf : (s.setFlag (RD p) { s.flag (RD p) with toMarks := m }).flag (RD p) =
          { s.flag (RD p) with toMarks := m } := Function.update_self ..
      rw [hf]
      exact hi.rd p
    · have hf : (s.setFlag q { s.flag q with toMarks := m }).flag (RD p) = s.flag (RD p) := Function.update_of_ne hp ..
      rw [hf]
      exact hi.rd p

theorem step_inv (s : Lists) (act : Act) (t : Lists) (hi : s.Inv) (hg : s.Guard act) (h : step srvp s act = some t) :
    t.Inv := by
  cases act with
  | call i c =>
    simp only [step] at h
    split at h
    case h_1 ha =>
      obtain rfl := Option.some.inj h
      exact call_inv hi ha c
    case h_2 => cases h
  | run i ok =>
    obtain ⟨o,ho,h⟩ := Option.bind_eq_some_iff.mp h
    obtain ⟨r,hr,rfl⟩ := Option.map_eq_some_iff.mp h
    exact perform_inv hi ho (hg o ho) hr
  | detach p => exact detach_inv hi hg h
  | mark q m =>
    obtain rfl := Option.some.inj h
    exact mark_inv hi q m

theorem init_inv (m : Queue → Marks) (e : Queue → Bool) (n : ℕ) : (init m e n).Inv := by
  have hu : ∀ q r, (init m e n).uses q r = 0 := fun q r => standing_replicate n (role_none rfl)
  refine ⟨fun q => ⟨fun _ => ?_,fun _ => ?_,fun h => absurd h (by simp [init,Detach.off]),fun h => absurd rfl h,?_,
    fun h => absurd h (by simp [init,Detach.past])⟩,fun _ => rfl,nofun⟩
  · rw [hu,hu]
    rfl
  · rw [hu,hu]
    rfl
  · have ht : taken ((init m e n).uses q) = 0 := by simp only [taken,hu]
    exact ⟨fun _ => rfl,fun _ => ht⟩

/- The queues of the pair are on no list and not about to be put on one, and `queuerun` has none of them. -/
def Clear (s : Lists) (p : ℕ) : Prop :=
  ∀ h, (∀ w, (p,h) ∉ s.list w) ∧ ∀ o ∈ s.tasks, o.holds (p,h) = false ∧ o.links (p,h) = false

theorem Inv.clear (hi : s.Inv) (hp : (s.detach p).past) : s.Clear p := by
  intro h
  have ho : (s.detach p).off := by rcases hp with hp | hp <;> rw [hp] <;> decide
  obtain ⟨ht,hc⟩ := (hi.queue (p,h)).past hp
  have hoff := ((hi.queue (p,h)).off ho).1
  refine ⟨fun w => List.count_eq_zero.mp (hoff w).2,?_⟩
  intro o ho
  -- A task that uses a queue of the pair would be counted.
  have hnone : ∀ r, o.use ≠ some ((p,h),r) := by
    intro r hu
    have hz : s.uses (p,h) r = 0 := by
      simp only [taken] at ht
      rcases r with w | w | w | w | _
      · exact (hoff w).1
      all_goals first | (cases w <;> omega) | exact hc
    exact standing_zero hz ho (role_self r hu)
  constructor
  · by_contra hh
    rw [Bool.not_eq_false] at hh
    cases o with
    | clear w k => exact hnone (.clear w) (by rw [← of_decide_eq_true hh]; rfl)
    | body w k => exact hnone (.body w) (by rw [← of_decide_eq_true hh]; rfl)
    | finish w k => exact hnone (.finish w) (by rw [← of_decide_eq_true hh]; rfl)
    | wake w k => exact hnone .touch (by rw [← of_decide_eq_true hh]; rfl)
    | retry k run =>
      simp only [Place.holds,Bool.and_eq_true,decide_eq_true_eq] at hh
      obtain ⟨rfl,rfl⟩ := hh
      exact hnone .touch rfl
    | qenable k run =>
      simp only [Place.holds,Bool.and_eq_true,decide_eq_true_eq] at hh
      obtain ⟨rfl,rfl⟩ := hh
      exact hnone .touch rfl
    | link w k run =>
      simp only [Place.holds,Bool.and_eq_true,decide_eq_true_eq] at hh
      obtain ⟨rfl,rfl⟩ := hh
      exact hnone (.link w) rfl
    | _ => cases hh
  · by_contra hh
    rw [Bool.not_eq_false] at hh
    cases o with
    | link w k run => exact hnone (.link w) (by rw [← of_decide_eq_true hh]; rfl)
    | _ => cases hh

theorem perform_detach {r : Lists × Place} (h : s.perform srvp ok a = some r) : r.1.detach = s.detach := by
  cases a with
  | idle => cases h
  | _ =>
    obtain rfl := Option.some.inj h
    first
    | rfl
    | (simp only [lisRetryQenable,lisQenable,addToScanl,clear]; split_ifs <;> rfl)
    | (simp only [take]; split <;> rfl)

theorem await_detach {k : ℕ} (hk : k ≠ p) : (s.await p).detach k = s.detach k := by
  unfold await
  split_ifs <;> exact Function.update_of_ne hk ..

theorem lisQdetach_other {k : ℕ} (hk : k ≠ p) (h : s.lisQdetach p = some t) : t.detach k = s.detach k := by
  unfold lisQdetach at h
  split at h
  case h_2 =>
    obtain rfl := Option.some.inj h
    exact (Function.update_of_ne hk ..).trans (congrFun deschedule_rest.2.2 k)
  case h_4 =>
    obtain rfl := Option.some.inj h
    exact await_detach hk
  case h_5 =>
    split at h
    · obtain rfl := Option.some.inj h
      exact Function.update_of_ne hk ..
    · cases h
  case h_6 =>
    obtain rfl := Option.some.inj h
    exact await_detach hk
  case h_8 => cases h
  all_goals
    obtain rfl := Option.some.inj h
    exact Function.update_of_ne hk ..

/- `lis_qdetach` does not come back to the wait. -/
theorem past_kept {act : Act} (hp : (s.detach p).past) (h : step srvp s act = some t) : (t.detach p).past := by
  cases act with
  | call i c =>
    simp only [step] at h
    split at h
    · obtain rfl := Option.some.inj h
      exact hp
    · cases h
  | run i ok =>
    obtain ⟨o,-,h⟩ := Option.bind_eq_some_iff.mp h
    obtain ⟨r,hr,rfl⟩ := Option.map_eq_some_iff.mp h
    have hd : (r.1.setPc i r.2).detach = s.detach := perform_detach hr
    rwa [hd]
  | detach k =>
    by_cases hk : p = k
    · subst hk
      have h' : s.lisQdetach p = some t := h
      unfold lisQdetach at h'
      rcases hp with hp | hp <;> rw [hp] at h'
      · obtain rfl := Option.some.inj h'
        exact Or.inr (Function.update_self ..)
      · cases h'
    · rwa [lisQdetach_other hk h]
  | mark q m =>
    obtain rfl := Option.some.inj h
    exact hp

/-- Once `lis_qdetach` has passed its wait, the queues of the pair are on neither list, `queuerun` has none of them,
and they stay so, when no task is between flag and link as `deschedule` runs, the wait does not end while `queuerun`
still uses a queue whose QRUNNING it has cleared, and QRUNNING is not cleared while another task has the queue. -/
theorem run_off_lists {m : Queue → Marks} {e : Queue → Bool} {n : ℕ} {as : List Act}
    (hm : Meets (step srvp) Guard (init m e n) as) (h : exec (step srvp) (init m e n) as = some s)
    (hp : (s.detach p).past) : s.Clear p ∧
    ∀ bs t, Meets (step srvp) Guard s bs → exec (step srvp) s bs = some t → t.Clear p := by
  have hi : s.Inv := exec_preserves step_inv (init_inv m e n) hm h
  refine ⟨hi.clear hp,fun bs t hb ht => ?_⟩
  have hkept : t.Inv ∧ (t.detach p).past := by
    refine exec_preserves (I := fun u => u.Inv ∧ (u.detach p).past) ?_ ⟨hi,hp⟩ hb ht
    exact fun u a v hu hg hs => ⟨step_inv u a v hu.1 hg hs,past_kept hu.2 hs⟩
  exact hkept.1.clear hkept.2

def freeMarks : Marks := ⟨false,false,false,false,false,true⟩

def opened : Lists := init (fun _ => freeMarks) (fun _ => false) 3

/- The read queue is on the run list, the write queue on the scan list. A processor takes the write queue, the pair is
descheduled, and the closing task waits for the processor. -/
def closeRun : List Act :=
  [.call 0 (.lisPutq (RD 0) false),.run 0 true,.run 0 true,.run 0 true,.call 1 (.addToScanl 0),.run 1 true,.run 1 true,
    .call 2 .queuerun,.run 2 true,.detach 0,.run 2 true,.detach 0,.detach 0,.detach 0,.run 2 true,.run 2 true,
    .run 2 true,.detach 0,.detach 0]

theorem run_off_lists_waiting : ∃ s, exec (step fun _ => true) opened closeRun = some s ∧
    (s.Clear 0 ∧ ∀ bs t, Meets (step fun _ => true) Guard s bs → exec (step fun _ => true) s bs = some t →
      t.Clear 0) := by
  have hpast : ∀ s ∈ exec (step fun _ => true) opened closeRun, (s.detach 0).past := by decide
  refine Exists.imp (fun s hs => ⟨hs,run_off_lists ?_ hs (hpast s hs)⟩) (Option.isSome_iff_exists.mp rfl)
  decide

/- A task of `lis_qenable` has set QENAB when the pair is descheduled. It links the queue after the wait. -/
def lateRun : List Act :=
  [.call 0 (.lisQenable (RD 0)),.run 0 true,.detach 0,.detach 0,.detach 0,.run 0 true]

theorem linked_after_wait : ¬∀ (srvp : Queue → Bool) (m : Queue → Marks) (e : Queue → Bool) (n : ℕ)
    (as : List Act) (s : Lists) (p : ℕ), exec (step srvp) (init m e n) as = some s → (s.detach p).past → s.Clear p := by
  intro h
  have hbad : ∃ s, exec (step fun _ => true) opened lateRun = some s ∧ (s.detach 0).past ∧ RD 0 ∈ s.list .run :=
    ⟨_,rfl,by decide,by decide⟩
  obtain ⟨s,hs,hp,hl⟩ := hbad
  exact (h _ _ _ _ _ s 0 hs hp true).1 .run hl

end Lists

end CSLiS.Sched.Qdetach
