import CSLiS.Lib.Crew
import CSLiS.Lib.Exec

/-!
# Readers and writers of a FIFO (head/linux-mdep.c)

One inode and any number of tasks in `lis_fifo_open_sync` and `lis_fifo_close_sync`; a step is one statement of one
task. The inode lock is a mutex, or a read lock that any number of tasks may have (kernels from 4.12 on). A task
that sleeps for a partner may come back at any time, woken up or not; the wake-ups themselves are left out.
-/

namespace CSLiS.Fifo

open Lib.Crew

inductive Side
  | rd
  | wr
  deriving DecidableEq, Repr

def Side.other : Side → Side
  | .rd => .wr
  | .wr => .rd

/- `f_mode & (FMODE_READ|FMODE_WRITE)` -/
inductive Mode
  | one (sd : Side)
  | both
  | neither
  deriving DecidableEq, Repr

def Mode.has : Mode → Side → Bool
  | .one sd, sd' => sd == sd'
  | .both, _ => true
  | .neither, _ => false

inductive Errno
  | enomem
  | enxio
  | einval
  | erestartsys
  | epipe
  deriving DecidableEq, Repr

/- `O_NONBLOCK`, whether `kmalloc` finds memory, and how many opens on the other side had been counted before. -/
structure Call where
  nonblock : Bool
  mem : Bool
  since : ℕ
  deriving DecidableEq, Repr

/- `struct pipe_inode_info` -/
structure Info where
  readers : ℤ
  writers : ℤ
  rCounter : UInt32
  wCounter : UInt32
  freed : Bool
  deriving DecidableEq, Repr

/- Where a task is. In `wait` to `again` it has read the counter of the other side and keeps a pointer to it. -/
inductive Place
  | idle
  | down (md : Mode) (c : Call)
  | check (md : Mode) (c : Call)
  | alloc (md : Mode) (c : Call)
  | nonblock (c : Call)
  | bump (sd : Side) (c : Call)
  | incr (sd : Side) (c : Call)
  | test (sd : Side) (c : Call)
  | wait (sd : Side) (c : Call) (cur : UInt32) (cnt : ℕ)
  | asleep (sd : Side) (c : Call) (cur : UInt32) (cnt : ℕ)
  | redown (sd : Side) (c : Call) (cur : UInt32) (cnt : ℕ)
  | again (sd : Side) (c : Call) (cur : UInt32) (cnt : ℕ)
  | pending (sd : Side) (c : Call)
  | decr (sd : Side) (c : Call)
  | bothR (c : Call)
  | bothW (c : Call)
  | bothBumpR (c : Call)
  | bothBumpW (c : Call)
  | err (md : Mode) (c : Call) (e : Errno)
  | up (md : Mode) (c : Call) (ret : Option Errno)
  | closeDown (md : Mode)
  | closeR (md : Mode)
  | closeW (md : Mode)
  | closeFree
  | closeUp
  deriving DecidableEq, Repr

/- The files that it has open, and `signal_pending`. -/
structure Thread where
  place : Place
  files : List Mode
  signal : Bool
  deriving DecidableEq, Repr

/- An open returns: its result, how many opens on the other side have been counted and how many there are. -/
structure Return where
  mode : Mode
  call : Call
  result : Option Errno
  made : ℕ
  others : ℕ
  deriving DecidableEq, Repr

/- `i_pipe` points into `heap`. `made` has a side for every open that has been counted there, `fault` says that
`i_pipe` was used without being there. -/
structure Inode where
  holders : ℕ
  iPipe : Option ℕ
  heap : List Info
  made : List Side
  fault : Bool
  threads : List Thread
  returned : List Return
  deriving DecidableEq, Repr

inductive Act
  | openSync (i : ℕ) (md : Mode) (nonblock mem : Bool)
  | closeSync (i : ℕ) (md : Mode)
  | signal (i : ℕ)
  | task (i : ℕ)
  deriving DecidableEq, Repr

namespace Info

variable (q : Info) (sd : Side) (d : ℤ)

/- `PIPE_READERS` and `PIPE_WRITERS` -/
def count : ℤ := match sd with
  | .rd => q.readers
  | .wr => q.writers

/- `PIPE_RCOUNTER` and `PIPE_WCOUNTER` -/
def counter : UInt32 := match sd with
  | .rd => q.rCounter
  | .wr => q.wCounter

def add : Info := match sd with
  | .rd => { q with readers := q.readers + d }
  | .wr => { q with writers := q.writers + d }

def bump : Info := match sd with
  | .rd => { q with rCounter := q.rCounter + 1 }
  | .wr => { q with wCounter := q.wCounter + 1 }

variable {q sd d} {sd' : Side}

@[simp] theorem count_add : (q.add sd d).count sd' = q.count sd' + if sd = sd' then d else 0 := by
  cases sd <;> cases sd' <;> simp [add,count]

@[simp] theorem counter_add : (q.add sd d).counter sd' = q.counter sd' := by cases sd <;> rfl

@[simp] theorem count_bump : (q.bump sd).count sd' = q.count sd' := by cases sd <;> rfl

theorem counter_bump (h : sd ≠ sd') : (q.bump sd).counter sd' = q.counter sd' := by
  cases sd <;> cases sd' <;> first | rfl | exact absurd rfl h

@[simp] theorem freed_add : (q.add sd d).freed = q.freed := by cases sd <;> rfl

@[simp] theorem freed_bump : (q.bump sd).freed = q.freed := by cases sd <;> rfl

end Info

/- For how many opens on the side the task counts at the place. -/
def Place.held (sd : Side) : Place → ℕ
  | .test sd' _ | .wait sd' _ _ _ | .asleep sd' _ _ _ | .redown sd' _ _ _ | .again sd' _ _ _ | .pending sd' _
  | .decr sd' _ => if sd' = sd then 1 else 0
  | .bothW _ => if sd = .rd then 1 else 0
  | .bothBumpR _ | .bothBumpW _ => 1
  | .up md _ none => (md.has sd).toNat
  | .closeDown md | .closeR md => (md.has sd).toNat
  | .closeW md => if sd = .wr then (md.has sd).toNat else 0
  | _ => 0

/- The opens of the task on the side that have returned and are not closed, and the one under way. -/
def Thread.held (sd : Side) (x : Thread) : ℕ := x.files.countP (·.has sd) + x.place.held sd

namespace Inode

variable (shared : Bool) (s : Inode)

def init (n : ℕ) : Inode := ⟨0,none,[],[],false,List.replicate n ⟨.idle,[],false⟩,[]⟩

def goto (i : ℕ) (x : Thread) (p : Place) : Inode := { s with threads := s.threads.set i { x with place := p } }

/- What `p` points to, if it is there. -/
def live (p : ℕ) : Option Info := s.heap[p]?.filter fun q => !q.freed

/- `*i->i_pipe` -/
def info : Option (ℕ × Info) := s.iPipe.bind fun p => (s.live p).map (Prod.mk p)

def oops : Inode := { s with fault := true }

def store (p : ℕ) (q : Info) : Inode := { s with heap := s.heap.set p q }

/- `kfree(i->i_pipe); i->i_pipe = NULL` -/
def kfree (p : ℕ) (q : Info) : Inode := { s with heap := s.heap.set p { q with freed := true }, iPipe := none }

/- `lis_fifo_info_new` -/
def fifoInfoNew : Inode := { s with heap := s.heap ++ [⟨0,0,1,1,false⟩], iPipe := some s.heap.length }

/- `lis_kernel_down` -/
def kernelDown (i : ℕ) (x : Thread) (p : Place) : Option Inode :=
  if shared = false ∧ s.holders ≠ 0 then none else some ({ s with holders := s.holders + 1 }.goto i x p)

/- `lis_kernel_up` -/
def kernelUp : Inode := { s with holders := s.holders - 1 }

/- How many opens on the other side there are. -/
def others : Mode → ℕ
  | .one sd => total (Thread.held sd.other) s.threads
  | _ => 0

def madeOther : Mode → ℕ
  | .one sd => s.made.count sd.other
  | _ => 0

def returns (i : ℕ) (x : Thread) (md : Mode) (c : Call) (ret : Option Errno) : Inode :=
  { s with
    holders := s.holders - 1, returned := s.returned ++ [⟨md,c,ret,s.madeOther md,s.others md⟩],
    threads := s.threads.set i ⟨.idle,if ret = none then md :: x.files else x.files,false⟩ }

/- The `switch` over the mode. -/
def enter (md : Mode) (c : Call) : Place :=
  match md with
  | .one .rd => .bump .rd c
  | .one .wr => .nonblock c
  | .both => .bothR c
  | .neither => .err .neither c .einval

/- After the open has been counted: it waits for a partner, or does not. -/
def partner (sd : Side) (c : Call) (p : ℕ) (q : Info) : Place :=
  if q.count sd.other ≠ 0 then .up (.one sd) c none
  else if sd = .rd ∧ c.nonblock then .up (.one sd) c none
  else .wait sd c (q.counter sd.other) p

/- The statements that read or write `*i->i_pipe`. -/
def pipeStep (i : ℕ) (x : Thread) (p : ℕ) (q : Info) : Inode :=
  match x.place with
  | .nonblock c => s.goto i x (if c.nonblock ∧ q.readers = 0 then .err (.one .wr) c .enxio else .bump .wr c)
  | .bump sd c => { s.store p (q.bump sd) with made := sd :: s.made }.goto i x (.incr sd c)
  | .incr sd c => (s.store p (q.add sd 1)).goto i x (.test sd c)
  | .test sd c => s.goto i x (partner sd c p q)
  | .wait sd c cur cnt => s.kernelUp.goto i x (.asleep sd c cur cnt)
  | .asleep sd c cur cnt => s.goto i x (.redown sd c cur cnt)
  | .decr sd c => (s.store p (q.add sd (-1))).goto i x (.err (.one sd) c .erestartsys)
  | .bothR c => (s.store p (q.add .rd 1)).goto i x (.bothW c)
  | .bothW c => (s.store p (q.add .wr 1)).goto i x (.bothBumpR c)
  | .bothBumpR c => { s.store p (q.bump .rd) with made := .rd :: s.made }.goto i x (.bothBumpW c)
  | .bothBumpW c => { s.store p (q.bump .wr) with made := .wr :: s.made }.goto i x (.up .both c none)
  | .err md c e => (if q.readers = 0 ∧ q.writers = 0 then s.kfree p q else s).goto i x (.up md c (some e))
  | .closeR md => (s.store p (q.add .rd (if md.has .rd then -1 else 0))).goto i x (.closeW md)
  | .closeW md => (s.store p (q.add .wr (if md.has .wr then -1 else 0))).goto i x .closeFree
  | .closeFree => (if q.readers = 0 ∧ q.writers = 0 then s.kfree p q else s).goto i x .closeUp
  | _ => s

def taskStep (i : ℕ) (x : Thread) : Option Inode :=
  match x.place with
  | .idle => none
  | .down md c => s.kernelDown shared i x (.check md c)
  | .check md c => some (s.goto i x (if s.iPipe = none then .alloc md c else enter md c))
  | .alloc md c =>
      some (if c.mem then s.fifoInfoNew.goto i x (enter md c) else s.goto i x (.up md c (some .enomem)))
  | .redown sd c cur cnt => s.kernelDown shared i x (.again sd c cur cnt)
  | .again sd c cur cnt =>
      if x.signal then some (s.goto i x (.pending sd c))
      else match s.live cnt with
        | none => some (s.oops.goto i x .idle)
        | some q => some (s.goto i x (if cur = q.counter sd.other then .wait sd c cur cnt else .pending sd c))
  | .pending sd c => some (s.goto i x (if x.signal then .decr sd c else .up (.one sd) c none))
  | .up md c ret => some (s.returns i x md c ret)
  | .closeDown md => s.kernelDown shared i x (.closeR md)
  | .closeUp => some (s.kernelUp.goto i x .idle)
  | _ => match s.info with
      | none => some (s.oops.goto i x .idle)
      | some (p,q) => some (s.pipeStep i x p q)

/- A task in neither routine opens the FIFO or closes a file that it has open; a signal comes to a task in one. -/
def step (s : Inode) : Act → Option Inode
  | .openSync i md nonblock mem => s.threads[i]?.bind fun x =>
      if x.place = .idle then some (s.goto i x (.down md ⟨nonblock,mem,s.madeOther md⟩)) else none
  | .closeSync i md => s.threads[i]?.bind fun x =>
      if x.place = .idle ∧ md ∈ x.files then
        some { s with threads := s.threads.set i ⟨.closeDown md,x.files.erase md,x.signal⟩ }
      else none
  | .signal i => s.threads[i]?.bind fun x =>
      if x.place = .idle then none else some { s with threads := s.threads.set i { x with signal := true } }
  | .task i => s.threads[i]?.bind fun x => s.taskStep shared i x

/- `lis_fifo_write_sync`: the result and whether `SIGPIPE` is sent. -/
def fifoWriteSync (written : Bool) : Option (Option Errno × Bool) :=
  s.info.map fun pq => if pq.2.readers = 0 then (some .epipe,!written) else (none,false)

end Inode

end CSLiS.Fifo
