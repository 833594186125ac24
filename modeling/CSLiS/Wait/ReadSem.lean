import CSLiS.Wait.Sleep

/-!
# The read semaphore (head/wait.c)

A reader of a stream head is let in by `lis_sleep_on_read_sem` and lets the next one in with
`lis_wake_up_read_sem`. An error or a hangup wakes them all. As long as it finds nobody, one reader
at a time is inside.
-/

namespace CSLiS.Wait
open Lib.Crew Lib.Exec

/- Where a task is: it has `counted` itself and waits, its wait `failed`, it is `reading`. A task that
leaves, or wakes them `all`, is to `test` the counter, saw it `positive`, has `taken` one off it. -/
inductive Rplace
  | idle
  | counted
  | failed
  | reading
  | test (all : Bool)
  | positive (all : Bool)
  | taken (all : Bool)
  deriving DecidableEq, Repr

namespace Rplace

/- Let in, and the semaphore not raised again. -/
def isInside : Rplace → Bool
  | .reading | .test false | .positive false | .taken false => true
  | _ => false

/- Counted, and not taken off the count by `lis_wake_up_read_sem`. -/
def isOwed : Rplace → Bool
  | .counted | .reading | .test false | .positive false => true
  | _ => false

/- About to raise the semaphore for all. -/
def isWakingAll : Rplace → Bool
  | .positive true | .taken true => true
  | _ => false

def isCounted : Rplace → Bool
  | .counted => true
  | _ => false

/- The same place among those of all sleepers. -/
def place : Rplace → Place
  | .idle | .reading => .idle
  | .counted => .counted .readSem
  | .failed => .failed .readSem
  | .test all => .test .readSem all
  | .positive all => .positive .readSem all
  | .taken all => .taken .readSem all

end Rplace

structure ReadSem where
  rdsemcnt : ℤ
  rdcnt : ℤ
  sem : ℕ
  tasks : List Rplace

inductive Ract
  | sleep (i : ℕ)
  | down (i : ℕ)
  | signal (i : ℕ)
  | giveBack (i : ℕ)
  | leave (i : ℕ)
  | wakeAll (i : ℕ)
  | read (i : ℕ)
  | dec (i : ℕ)
  | up (i : ℕ)

/- The same step among those of all sleepers. -/
def Ract.act : Ract → Act
  | .sleep i => .sleep i .readSem
  | .down i => .down i
  | .signal i => .signal i
  | .giveBack i => .giveBack i
  | .leave i => .wake i .readSem false 0
  | .wakeAll i => .wake i .readSem true 0
  | .read i => .read i
  | .dec i => .dec i
  | .up i => .up i

namespace ReadSem

variable (s : ReadSem)

def init (n : ℕ) : ReadSem := ⟨0,0,1,List.replicate n .idle⟩

def move (i : ℕ) (p : Rplace) : ReadSem := { s with tasks := s.tasks.set i p }

/- A task goes from one place to another. -/
def go (i : ℕ) (a b : Rplace) : Option ReadSem := if s.tasks[i]? = some a then some (s.move i b) else none

def step : Ract → Option ReadSem
  | .sleep i => { s with rdsemcnt := s.rdsemcnt + 1 }.go i .idle .counted
  | .down i => if 0 < s.sem then { s with sem := s.sem - 1 }.go i .counted .reading else none
  | .signal i => if s.sem < tally Rplace.isCounted s.tasks then s.go i .counted .failed else none
  -- the count of readers that wait for messages, sd_rdcnt
  | .giveBack i => { s with rdcnt := s.rdcnt - 1 }.go i .failed .idle
  | .leave i => s.go i .reading (.test false)
  | .wakeAll i => s.go i .idle (.test true)
  | .read i =>
      match s.tasks[i]? with
      | some (.test all) => some (s.move i (if 0 < s.rdsemcnt then .positive all else .idle))
      | _ => none
  | .dec i =>
      match s.tasks[i]? with
      | some (.positive all) => some ({ s with rdsemcnt := s.rdsemcnt - 1 }.move i (.taken all))
      | _ => none
  | .up i =>
      match s.tasks[i]? with
      | some (.taken all) => some ({ s with sem := s.sem + 1 }.move i (if all then .test true else .idle))
      | _ => none

end ReadSem

end CSLiS.Wait
