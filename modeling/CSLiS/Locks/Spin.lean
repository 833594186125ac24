import CSLiS.Lib.Exec

/-!
# Nested spin locks (head/linux/lislocks.c)

One `lis_spin_lock_t` over a kernel spin lock that excludes, and any number of tasks. Each read or write of
`taskp`, `nest` and the kernel lock is a step. A task gives up its acquisitions the last one first, each by the
routine that matches it and with its own flags; `lis_spl0` gives up all of them. Interrupt states are
numbers, `cli` and `sti` are what disabling and enabling does to them. Lock tracking and statistics are left out.
-/

namespace CSLiS.Locks

inductive Kind
  | plain
  | irq
  | irqsave
  | trylock
  deriving DecidableEq, Repr

/- An acquisition that has not been given up, with its flags variable. -/
structure Frame where
  kind : Kind
  flags : ℕ
  deriving DecidableEq, Repr

/- Where a task is: at the read of `taskp`, at the kernel lock, at the write of `taskp` and of `nest`; the same for
`lis_spin_trylock`; in an unlock at the reads and writes of `nest`, at `taskp` and the kernel lock, where `spl` says
that `lis_spl0` has called it; in `lis_own_spl`. -/
inductive Place
  | idle
  | read (f : Frame)
  | spin (f : Frame)
  | set (f : Frame)
  | inc (f : Frame)
  | tryRead
  | trySpin
  | tryInc
  | trySet
  | unRead (spl : Bool) (f : Frame)
  | unDec (spl : Bool) (f : Frame)
  | unTest (spl : Bool) (f : Frame)
  | unClear (spl : Bool) (f : Frame)
  | unSpin (spl : Bool) (f : Frame)
  | isLocked
  | ownTask
  deriving DecidableEq, Repr

structure Thread where
  place : Place
  frames : List Frame
  irq : ℕ
  deriving DecidableEq, Repr

/- The kernel lock is released: who held it, what the task has not given up yet, what was saved when the lock was
taken and what is restored. -/
structure Release where
  task : ℕ
  holder : Option ℕ
  left : List Frame
  spl : Bool
  kind : Kind
  saved : ℕ
  restored : ℕ
  deriving DecidableEq, Repr

/- `saved` is the interrupt state of the task that has the kernel lock, before it took it. -/
structure Spin where
  taskp : Option ℕ
  nest : ℤ
  kernel : Option ℕ
  saved : ℕ
  threads : List Thread
  released : List Release
  deriving DecidableEq, Repr

inductive Act
  | lock (i : ℕ) (f : Frame)
  | trylock (i : ℕ)
  | unlock (i : ℕ)
  | spl0 (i : ℕ)
  | task (i : ℕ)
  deriving DecidableEq, Repr

/- What there is besides the lock: `lis_psw0` and the interrupts of a CPU. -/
structure Machine where
  cli : ℕ → ℕ
  sti : ℕ → ℕ
  lisPsw0 : ℕ

namespace Spin

variable (m : Machine) (s : Spin)

def init (states : List ℕ) : Spin := ⟨none,0,none,0,states.map fun irq => ⟨.idle,[],irq⟩,[]⟩

def goto (i : ℕ) (x : Thread) (p : Place) : Spin := { s with threads := s.threads.set i { x with place := p } }

/- An acquisition has returned. -/
def acquired (i : ℕ) (x : Thread) (f : Frame) : Spin :=
  { s with threads := s.threads.set i ⟨.idle,f :: x.frames,x.irq⟩ }

/- `spin_lock`, `spin_lock_irq` or `spin_lock_irqsave` has taken the kernel lock. -/
def locked (i : ℕ) (x : Thread) (f : Frame) : Spin :=
  let g : Frame := if f.kind = .irqsave then { f with flags := x.irq } else f
  let irq := if f.kind = .irq ∨ f.kind = .irqsave then m.cli x.irq else x.irq
  { s with kernel := some i, saved := x.irq, threads := s.threads.set i ⟨.set g,x.frames,irq⟩ }

/- The interrupt state that an unlock leaves. -/
def restore (spl : Bool) (f : Frame) (irq : ℕ) : ℕ :=
  if spl then m.lisPsw0
  else match f.kind with
    | .plain | .trylock => irq
    | .irq => m.sti irq
    | .irqsave => f.flags

/- `spin_unlock`, `spin_unlock_irq` or `spin_unlock_irqrestore` -/
def unlocked (i : ℕ) (x : Thread) (spl : Bool) (f : Frame) : Spin :=
  let irq := restore m spl f x.irq
  { s with
    kernel := none, threads := s.threads.set i ⟨if spl then .isLocked else .idle,x.frames,irq⟩,
    released := s.released ++ [⟨i,s.kernel,x.frames,spl,f.kind,s.saved,irq⟩] }

/- An unlock has returned without the kernel lock. -/
def kept (i : ℕ) (x : Thread) (spl : Bool) : Spin := s.goto i x (if spl then .isLocked else .idle)

def taskStep (i : ℕ) (x : Thread) : Option Spin :=
  match x.place with
  | .idle => none
  | .read f => some (s.goto i x (if s.taskp = some i then .inc f else .spin f))
  | .spin f => if s.kernel = none then some (s.locked m i x f) else none
  | .set f => some ({ s with taskp := some i }.goto i x (.inc f))
  | .inc f => some ({ s with nest := s.nest + 1 }.acquired i x f)
  | .tryRead => if s.taskp = some i then some (s.acquired i x ⟨.trylock,0⟩) else some (s.goto i x .trySpin)
  | .trySpin =>
      if s.kernel = none then some ({ s with kernel := some i, saved := x.irq }.goto i x .tryInc)
      else some (s.goto i x .idle)
  | .tryInc => some ({ s with nest := s.nest + 1 }.goto i x .trySet)
  | .trySet => some ({ s with taskp := some i }.acquired i x ⟨.trylock,0⟩)
  | .unRead spl f => some (if 0 < s.nest then s.goto i x (.unDec spl f) else s.kept i x spl)
  | .unDec spl f => some ({ s with nest := s.nest - 1 }.goto i x (.unTest spl f))
  | .unTest spl f => some (if s.nest = 0 then s.goto i x (.unClear spl f) else s.kept i x spl)
  | .unClear spl f => some ({ s with taskp := none }.goto i x (.unSpin spl f))
  | .unSpin spl f => some (s.unlocked m i x spl f)
  | .isLocked => some (s.goto i x (if s.kernel = none then .idle else .ownTask))
  | .ownTask =>
      if s.taskp = some i then
        some { s with threads := s.threads.set i ⟨.unRead true (x.frames.headD ⟨.irqsave,m.lisPsw0⟩),x.frames.tail,x.irq⟩ }
      else some (s.goto i x .idle)

/- The routines are called by tasks that are in none of them. -/
def step (s : Spin) : Act → Option Spin
  | .lock i f => s.threads[i]?.bind fun x => if x.place = .idle then some (s.goto i x (.read f)) else none
  | .trylock i => s.threads[i]?.bind fun x => if x.place = .idle then some (s.goto i x .tryRead) else none
  | .unlock i => s.threads[i]?.bind fun x =>
      if x.place = .idle then
        match x.frames with
        | [] => none
        | f :: frames => some { s with threads := s.threads.set i ⟨.unRead false f,frames,x.irq⟩ }
      else none
  | .spl0 i => s.threads[i]?.bind fun x => if x.place = .idle then some (s.goto i x .isLocked) else none
  | .task i => s.threads[i]?.bind fun x => s.taskStep m i x

end Spin

end CSLiS.Locks
