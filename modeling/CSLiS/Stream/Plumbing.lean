import CSLiS.Lib.Exec
import CSLiS.Lib.Mirror

/-!
# The plumbing of a stream (head/head.c)

`lis_qattach` and `lis_qdetach` link a queue pair in below the stream head and out again. Queue pairs are
numbered; stream heads have the pairs 0 and 1, a driver has the pair 1.
-/

namespace CSLiS.Stream
open Lib Lib.Exec

structure Qid where
  pair : ℕ
  readr : Bool
  deriving DecidableEq, Repr

namespace Qid

def RD (n : ℕ) : Qid := ⟨n,true⟩
def WR (n : ℕ) : Qid := ⟨n,false⟩

def OTHER (q : Qid) : Qid := ⟨q.pair,!q.readr⟩

theorem other_involutive : Function.Involutive OTHER := fun q => by simp [OTHER]

@[simp] theorem other_RD (n : ℕ) : (RD n).OTHER = WR n := rfl
@[simp] theorem other_WR (n : ℕ) : (WR n).OTHER = RD n := rfl
@[simp] theorem other_pair (q : Qid) : q.OTHER.pair = q.pair := rfl

end Qid

open Qid

/- A stream with a driver, a FIFO, the two ends of a pipe. -/
inductive Kind
  | plain
  | fifo
  | pipe
  deriving DecidableEq, Repr

/-- The queue pairs of the stream heads. -/
def Kind.heads : Kind → List ℕ
  | .plain | .fifo => [0]
  | .pipe => [0,1]

/- A push whose open routine fails detaches the queue pair. -/
inductive PlumbAct
  | push (h : ℕ) (openOk : Bool)
  | pop (h : ℕ)
  deriving DecidableEq, Repr

/- `fresh` is the queue pair that `lis_allocq` gives next. -/
structure Plumbing where
  qNext : Qid → Option Qid
  fresh : ℕ
  sdPushcnt : ℕ → ℕ
  sdMaxpushcnt : ℕ → ℕ

namespace Plumbing

variable (s : Plumbing)

def setNext (q : Qid) (o : Option Qid) : Plumbing := { s with qNext := Function.update s.qNext q o }

/-- The links that `lis_qattach` sets below stream head `h` (`head.c:2461-2466`). -/
def lisQattach (h : ℕ) : Plumbing :=
  let rq := RD h
  let wq := WR h
  let newq := RD s.fresh
  let newwq := WR s.fresh
  let s1 := s.setNext newq (some rq)
  let s2 := s1.setNext newwq (if s1.qNext wq = some rq then some newq else s1.qNext wq)
  let s3 := match s2.qNext wq, s2.qNext newwq with
    | some _, some nq => s2.setNext nq.OTHER (some newq)
    | _, _ => s2
  { s3.setNext wq (some newwq) with fresh := s.fresh + 1 }

/-- The streams as they are opened (`head.c:4953`, `fifo.c:310`, `linux-mdep.c:2972`). -/
def init (maxpushcnt : ℕ → ℕ) : Kind → Plumbing
  | .plain => lisQattach ⟨fun _ => none,1,fun _ => 0,maxpushcnt⟩ 0
  | .fifo => setNext ⟨fun _ => none,2,fun _ => 0,maxpushcnt⟩ (WR 0) (some (RD 0))
  | .pipe =>
      (setNext ⟨fun _ => none,2,fun _ => 0,maxpushcnt⟩ (WR 0) (some (RD 1))).setNext (WR 1) (some (RD 0))

/-- The links that `lis_qdetach` sets around queue pair `n` (`head.c:2232-2300`). -/
def lisQdetach (n : ℕ) : Plumbing :=
  let prevQ := s.qNext (RD n)
  let nextQ := if s.qNext (WR n) = some (RD n) then prevQ else s.qNext (WR n)
  let s1 := match nextQ with
    | some nq => s.setNext nq.OTHER prevQ
    | none => s
  match prevQ with
  | some pq => s1.setNext (WR pq.pair) nextQ
  | none => s1

def setPushcnt (h n : ℕ) : Plumbing := { s with sdPushcnt := Function.update s.sdPushcnt h n }

/-- `push_mod` and `pop_mod` (`head.c:2495-2594`), where they do not refuse. -/
def step (k : Kind) (s : Plumbing) : PlumbAct → Option Plumbing
  | .push h openOk =>
      if h ∈ k.heads ∧ ¬(s.sdMaxpushcnt h ≠ 0 ∧ s.sdPushcnt h = s.sdMaxpushcnt h) then
        if openOk then some ((s.lisQattach h).setPushcnt h (s.sdPushcnt h + 1))
        else some ((s.lisQattach h).lisQdetach s.fresh)
      else none
  | .pop h =>
      if h ∈ k.heads ∧ s.sdPushcnt h ≠ 0 then
        match s.qNext (WR h) with
        | some wqn =>
            if wqn.readr then some (s.setPushcnt h (s.sdPushcnt h - 1))
            else some ((s.lisQdetach wqn.pair).setPushcnt h (s.sdPushcnt h - 1))
        | none => none
      else none

/-- `lis_backq` (`queue.c:839-856`). -/
def lisBackq (q : Qid) : Option Qid :=
  match s.qNext q.OTHER with
  | none => none
  | some nq => some (if nq = q then q.OTHER else nq.OTHER)

end Plumbing

/- The modules on each stream head, the last one pushed first. -/
structure Stacks where
  mods : ℕ → List ℕ
  fresh : ℕ

namespace Stacks

variable (m : Stacks)

def init : Stacks := ⟨fun _ => [],2⟩

def push (h n : ℕ) : Stacks := ⟨Function.update m.mods h (n :: m.mods h),n + 1⟩

def step : PlumbAct → Option Stacks
  | .push h true => some (m.push h m.fresh)
  | .push _ false => some { m with fresh := m.fresh + 1 }
  | .pop h =>
      match m.mods h with
      | [] => none
      | _ :: l => some { m with mods := Function.update m.mods h l }

/-- The queues from the write queue of stream head `h` on. -/
def route (h : ℕ) : Kind → List Qid
  | .plain => WR h :: (m.mods h).map WR ++ [WR 1]
  | .fifo => WR h :: (m.mods h).map WR ++ (m.mods h).reverse.map RD ++ [RD h]
  | .pipe => WR h :: (m.mods h).map WR ++ (m.mods (1 - h)).reverse.map RD ++ [RD (1 - h)]

/-- The queue pairs of a stream or pipe. -/
def pairs : Kind → List ℕ
  | .plain => 0 :: 1 :: m.mods 0
  | .fifo => 0 :: m.mods 0
  | .pipe => 0 :: 1 :: m.mods 0 ++ m.mods 1

end Stacks

end CSLiS.Stream
