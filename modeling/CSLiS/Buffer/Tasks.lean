import CSLiS.Buffer.Mdbblock
import CSLiS.Lib.Crew
import CSLiS.Lib.Exec

/-!
# Message blocks in several tasks (head/msg.c, head/msgutl.c)

Tasks duplicate, pull up and free blocks of their own at the same time. The unlocked read of `db_ref`, each unlocked
update of it and each section under `lis_msg_lock` are steps. A block is its header's number and what its `b_datap`
refers to; only the task that has the block looks at that. A header is never given out twice, and `buf` says what
buffer each one is given; blocks of a message are freed one by one.
-/

namespace CSLiS.Buffer.Tasks
open Queue Lib.Crew Lib.Exec

/-- The buffer of a data block: in the header, with a free function, or larger than `FASTBUF`. -/
inductive Buf
  | inside
  | user
  | separate
  deriving DecidableEq, Repr

structure Handle where
  bp : ℕ
  datap : ℕ
  deriving DecidableEq, Repr

/- `ref` are the `db_ref` of the data blocks in the headers, `used` the headers that were given out. -/
structure Shared where
  ref : ℕ → Uchar
  used : List ℕ
  freed : List ℕ
  released : List ℕ

/- Something that is given back. -/
inductive Out
  | buffer (x : ℕ)
  | header (x : ℕ)
  deriving DecidableEq, Repr

/-- A test or an update of a `db_ref` that `lis_freedb` has still to make without the lock, or what its caller does
then. `dp` is the data block that was given back before. -/
inductive Key
  | done
  | ownPos (bp dp : ℕ)
  | decOwn (bp dp : ℕ)
  | test0 (bp : ℕ)
  | incRef (mp newbp : ℕ)
  | swap (mp newbp : ℕ)
  | lastOwn (bp : ℕ)
  | decLast (bp : ℕ)
  deriving DecidableEq, Repr

/- Where a task is. `newbp` is the new block of a pull-up, which does not free the header. `a` is given back before the
key, `z` after it. -/
inductive Pc
  | idle
  | dup (mp : Handle) (bp : ℕ)
  | call (h : Handle) (newbp : Option ℕ)
  | enter (h : Handle) (newbp : Option ℕ) (locked : Bool)
  | dec (h : Handle) (newbp : Option ℕ)
  | run (a : List Out) (key : Key) (z : List Out)
  deriving DecidableEq, Repr

inductive Op
  | allocb (n : ℕ)
  | give (j : ℕ) (h : Handle)
  | dupb (mp : Handle) (bp : ℕ)
  | freeb (h : Handle)
  | pullup (mp : Handle) (newbp : ℕ)
  deriving DecidableEq, Repr

/- `calls` is what the task has called so far. -/
structure Task where
  handles : Multiset Handle
  pc : Pc
  calls : List Op
  deriving DecidableEq

namespace Shared

def inc (s : Shared) (x : ℕ) : Shared := { s with ref := Function.update s.ref x (s.ref x + 1) }
def dec (s : Shared) (x : ℕ) : Shared := { s with ref := Function.update s.ref x (s.ref x - 1) }

/- `initb` of a header that was not given out before. -/
def alloc (s : Shared) (n : ℕ) : Shared := { s with ref := Function.update s.ref n 1, used := n :: s.used }

def out (s : Shared) : Out → Shared
  | .buffer x => { s with released := s.released ++ [x] }
  | .header x => { s with freed := s.freed ++ [x] }

end Shared

/- What follows `lis_freedb`. -/
def after (h : Handle) : Option ℕ → Pc
  | none => .run [] .done []
  | some newbp => .run [] (.swap h.bp newbp) []

/- `db_ref` has become 0 (`msg.c:573-673`). -/
def zeroed (buf : ℕ → Buf) (h : Handle) (newbp : Option ℕ) : Pc :=
  let f := if buf h.datap = .user then [Out.buffer h.datap] else []
  let z := if buf h.datap = .separate then [Out.buffer h.datap] else []
  match newbp with
  | none =>
      if h.datap = h.bp then .run f (.test0 h.bp) z
      else .run (f ++ [.header h.datap]) (.ownPos h.bp h.datap) z
  | some newbp =>
      if h.datap = h.bp then .run f (.incRef h.bp newbp) z
      else .run (f ++ .header h.datap :: z) (.swap h.bp newbp) []

/- From the lock to where it is given up (`msg.c:534-703`). -/
def locked (buf : ℕ → Buf) (s : Shared) (h : Handle) (newbp : Option ℕ) : Shared × Pc :=
  if s.ref h.datap = 0 then (s,after h newbp)
  else
    let s := s.dec h.datap
    if s.ref h.datap = 0 then (s,zeroed buf h newbp)
    else if newbp = none ∧ h.datap ≠ h.bp ∧ s.ref h.bp ≠ 0 then
      let s := s.dec h.bp
      (s,if s.ref h.bp = 0 then .run [.header h.bp] .done [] else .run [] .done [])
    else if newbp ≠ none ∧ h.datap = h.bp then (s.inc h.datap,after h newbp)
    else (s,after h newbp)

/- The rest of `lis_freedb` where it has not taken the lock and `db_ref` is not 0 (`msg.c:684-703`). -/
def unlocked (h : Handle) : Option ℕ → Pc
  | none => if h.datap = h.bp then .run [] .done [] else .run [] (.lastOwn h.bp) []
  | some newbp => if h.datap = h.bp then .run [] (.incRef h.bp newbp) [] else .run [] (.swap h.bp newbp) []

/- The next step of a task: the state, where the task is then, and the blocks it has got. -/
def next (buf : ℕ → Buf) (s : Shared) : Pc → Shared × Pc × Multiset Handle
  | .idle => (s,.idle,0)
  | .dup mp bp => (s.inc mp.datap,.idle,{mp,⟨bp,mp.datap⟩})
  | .call h newbp => (s,.enter h newbp (decide (s.ref h.datap ≠ 1)),0)
  | .enter h newbp true => ((locked buf s h newbp).1,(locked buf s h newbp).2,0)
  | .enter h newbp false => (s,if s.ref h.datap = 0 then after h newbp else .dec h newbp,0)
  | .dec h newbp =>
      let s := s.dec h.datap
      (s,if s.ref h.datap = 0 then zeroed buf h newbp else unlocked h newbp,0)
  | .run (o :: a) key z => (s.out o,.run a key z,0)
  | .run [] .done [] => (s,.idle,0)
  | .run [] .done (o :: z) => (s,.run (o :: z) .done [],0)
  | .run [] (.ownPos bp dp) z => (s,.run [] (if s.ref bp ≠ 0 then .decOwn bp dp else .test0 bp) z,0)
  | .run [] (.decOwn bp _) z => (s.dec bp,.run [] (.test0 bp) z,0)
  | .run [] (.test0 bp) z => (s,.run (if s.ref bp = 0 then .header bp :: z else z) .done [],0)
  | .run [] (.incRef mp newbp) z => (s.inc mp,.run z (.swap mp newbp) [],0)
  | .run [] (.swap mp newbp) z => (s,.run z .done [],{⟨mp,newbp⟩})
  | .run [] (.lastOwn bp) z => (s,.run [] (if s.ref bp ≠ 0 then .decLast bp else .done) z,0)
  | .run [] (.decLast bp) z =>
      let s := s.dec bp
      (s,.run (if s.ref bp = 0 then [.header bp] else []) .done z,0)

/-- One step of `lis_dupb` (`msgutl.c:295-313`), of `lis_freedb` (`msg.c:526-707`) or of the end of `lis_pullupmsg`
(`msgutl.c:474-482`). -/
def advance (buf : ℕ → Buf) (s : Shared) (t : Task) : Shared × Task :=
  let r := next buf s t.pc
  (r.1,{ t with handles := t.handles + r.2.2, pc := r.2.1 })

/- A task that has nothing to do calls one of the routines. The new headers of `lis_dupb` and `lis_pullupmsg` are there
before a count is touched. -/
def start (buf : ℕ → Buf) (s : Shared) (t : Task) : Op → Option (Shared × Task)
  | .allocb n =>
      if n ∉ s.used then some (s.alloc n,{ t with handles := t.handles + {⟨n,n⟩} }) else none
  | .give _ h => if h ∈ t.handles then some (s,{ t with handles := t.handles.erase h }) else none
  | .dupb mp bp =>
      if mp ∈ t.handles ∧ bp ∉ s.used ∧ buf bp = .inside then
        some (s.alloc bp,{ t with handles := t.handles.erase mp, pc := .dup mp bp })
      else none
  | .freeb h => if h ∈ t.handles then some (s,{ t with handles := t.handles.erase h, pc := .call h none }) else none
  | .pullup mp newbp =>
      if mp ∈ t.handles ∧ newbp ∉ s.used ∧ buf newbp = .separate then
        some (s.alloc newbp,{ t with handles := t.handles.erase mp, pc := .call mp (some newbp) })
      else none

structure State where
  sh : Shared
  tasks : List Task

inductive Act
  | start (i : ℕ) (op : Op)
  | advance (i : ℕ)
  deriving DecidableEq, Repr

/- A block that a task gave away is another one's. -/
def receive (tasks : List Task) : Op → Option (List Task)
  | .give j h => tasks[j]?.map fun u => tasks.set j { u with handles := u.handles + {h} }
  | _ => some tasks

namespace State

def init (n : ℕ) : State := ⟨⟨fun _ => 0,[],[],[]⟩,List.replicate n ⟨0,.idle,[]⟩⟩

def start (buf : ℕ → Buf) (s : State) (i : ℕ) (op : Op) : Option State :=
  match s.tasks[i]? with
  | none => none
  | some t =>
      if t.pc = .idle then
        match Tasks.start buf s.sh t op with
        | none => none
        | some r => (receive (s.tasks.set i { r.2 with calls := r.2.calls ++ [op] }) op).map fun l => ⟨r.1,l⟩
      else none

def step (buf : ℕ → Buf) (s : State) : Act → Option State
  | .start i op => s.start buf i op
  | .advance i => s.tasks[i]?.map fun t =>
      let r := Tasks.advance buf s.sh t
      ⟨r.1,s.tasks.set i r.2⟩

end State

/-! ### One call after the other -/

/- The steps of a task until it has nothing to do. -/
def settle (buf : ℕ → Buf) : ℕ → Shared → Task → Shared × Task
  | 0, s, t => (s,t)
  | n + 1, s, t => if t.pc = .idle then (s,t) else settle buf n (advance buf s t).1 (advance buf s t).2

/- A whole call of a task. -/
def State.whole (buf : ℕ → Buf) (s : State) (c : ℕ × Op) : Option State :=
  (s.start buf c.1 c.2).bind fun s => s.tasks[c.1]?.map fun t =>
    let r := settle buf 16 s.sh t
    ⟨r.1,s.tasks.set c.1 r.2⟩

/-! ### What is claimed -/

/- A block that a task has and has not given up yet. -/
def Task.Holds (t : Task) (h : Handle) : Prop :=
  h ∈ t.handles ∨ match t.pc with
    | .dup mp _ => mp = h
    | .call h' _ => h' = h
    | .enter h' _ _ => h' = h
    | .dec h' _ => h' = h
    | _ => False

structure Right (buf : ℕ → Buf) (n : ℕ) (s : State) : Prop where
  once : ∀ x, s.sh.freed.count x ≤ 1 ∧ s.sh.released.count x ≤ 1
  unused : ∀ x, ∀ t ∈ s.tasks, ∀ h, t.Holds h →
    (x ∈ s.sh.released → h.datap ≠ x) ∧ (x ∈ s.sh.freed → h.datap ≠ x ∧ h.bp ≠ x)
  serial : (∀ t ∈ s.tasks, t.pc = .idle) → ∃ log a, exec (State.whole buf) (State.init n) log = some a ∧
    a.tasks = s.tasks ∧ a.sh.freed.Perm s.sh.freed ∧ a.sh.released.Perm s.sh.released

/- A task has decremented the count of its own header, and has not looked at it again yet. -/
def Pc.tests : Pc → ℕ → Prop
  | .run _ (.test0 bp) _, x => bp = x
  | _, _ => False

instance (pc : Pc) (x : ℕ) : Decidable (pc.tests x) :=
  match pc with
  | .run _ (.test0 bp) _ => inferInstanceAs (Decidable (bp = x))
  | .run _ .done _ | .run _ (.ownPos _ _) _ | .run _ (.decOwn _ _) _ | .run _ (.incRef _ _) _ | .run _ (.swap _ _) _
  | .run _ (.lastOwn _) _ | .run _ (.decLast _) _ => isFalse id
  | .idle | .dup _ _ | .call _ _ | .enter _ _ _ | .dec _ _ => isFalse id

def Pc.Safe (s : State) : Pc → Prop
  | .dup mp _ => s.sh.ref mp.datap ≠ 255
  | .enter h _ true | .dec h _ => s.sh.ref h.datap = 1 → ∀ u ∈ s.tasks, ¬ u.pc.tests h.datap
  | _ => True

/-- No count runs over, and no last reference to a data block is given up while the task that had its header is about
to see whether the count is 0. -/
def Guard (s : State) : Act → Prop
  | .start _ _ => True
  | .advance i => ∀ t ∈ s.tasks[i]?, t.pc.Safe s

instance (s : State) (pc : Pc) : Decidable (pc.Safe s) :=
  match pc with
  | .dup mp _ => inferInstanceAs (Decidable (s.sh.ref mp.datap ≠ 255))
  | .enter h _ true | .dec h _ =>
      inferInstanceAs (Decidable (s.sh.ref h.datap = 1 → ∀ u ∈ s.tasks, ¬ u.pc.tests h.datap))
  | .enter _ _ false | .idle | .call _ _ | .run _ _ _ => isTrue trivial

instance (s : State) (act : Act) : Decidable (Guard s act) :=
  match act with
  | .start _ _ => isTrue trivial
  | .advance i => inferInstanceAs (Decidable (∀ t ∈ s.tasks[i]?, t.pc.Safe s))

end CSLiS.Buffer.Tasks
