import CSLiS.Lib.Crew
import CSLiS.Lib.Exec

/-!
# Sleeping and waking (head/wait.c)

A stream head counts the tasks that sleep on its semaphores, so that a waker knows
whether there is anyone to wake. A sleeper counts itself before it waits. The waker
takes it off the count, or the sleeper itself when its wait fails. Each counter
operation and each semaphore operation of a routine is a step here.

The queue lock only keeps some of these steps apart. It is left out, but for the error
that `lis_lockq` may return.
-/

namespace CSLiS.Wait
open Lib.Crew

/- `sd_wwrite` with `sd_wrcnt`, `sd_wread` with `sd_rdcnt`, `sd_read_sem` with `sd_rdsemcnt`. -/
inductive Chan
  | wwrite
  | wread
  | readSem
  deriving DecidableEq, Repr

/- A sleep on the semaphore of `on`. `back` is counted down when the wait fails; with
`relocks` the queue is locked again after the wait. -/
structure SleepFn where
  on : Chan
  back : Chan
  relocks : Bool

structure WakeFn where
  on : Chan
  locks : Bool
  all : Bool

/-- `wait.c:144-166` -/
def lisSleepOnWwrite : SleepFn := ⟨.wwrite,.wwrite,true⟩
/-- `wait.c:199-220` -/
def lisSleepOnWread : SleepFn := ⟨.wread,.wread,true⟩
/-- `wait.c:258-267`. The counter it takes down is not the one it took up. -/
def lisSleepOnReadSem : SleepFn := ⟨.readSem,.wread,false⟩
def lisWakeUpWwrite : WakeFn := ⟨.wwrite,true,false⟩
def lisWakeUpAllWwrite : WakeFn := ⟨.wwrite,false,true⟩
def lisWakeUpWread : WakeFn := ⟨.wread,true,false⟩
def lisWakeUpAllWread : WakeFn := ⟨.wread,false,true⟩
def lisWakeUpReadSem : WakeFn := ⟨.readSem,false,false⟩
def lisWakeUpAllReadSem : WakeFn := ⟨.readSem,false,true⟩

def sleepOn : Chan → SleepFn
  | .wwrite => lisSleepOnWwrite
  | .wread => lisSleepOnWread
  | .readSem => lisSleepOnReadSem

def wakeUp : Chan → Bool → WakeFn
  | .wwrite, false => lisWakeUpWwrite
  | .wwrite, true => lisWakeUpAllWwrite
  | .wread, false => lisWakeUpWread
  | .wread, true => lisWakeUpAllWread
  | .readSem, false => lisWakeUpReadSem
  | .readSem, true => lisWakeUpAllReadSem

/- Where a task is: `counted` itself and waits, its wait `failed`, it is to `relock` the
queue, it `backed` out and is to raise the semaphore again; it is to `test` the counter, saw
it `positive`, has `taken` one off it. -/
inductive Place
  | idle
  | counted (c : Chan)
  | failed (c : Chan)
  | relock (c : Chan)
  | backed (c : Chan)
  | test (c : Chan) (all : Bool)
  | positive (c : Chan) (all : Bool)
  | taken (c : Chan) (all : Bool)
  deriving DecidableEq, Repr

def Place.isCounted (c : Chan) : Place → Bool
  | .counted d => d == c
  | _ => false

/- In its sleep, and still on the count. -/
def Place.isAsleep (c : Chan) : Place → Bool
  | .counted d | .failed d => d == c
  | _ => false

/- Between taking one off the count and raising the semaphore. -/
def Place.isWaking (c : Chan) : Place → Bool
  | .backed d | .taken d _ => d == c
  | _ => false

structure SleepHead where
  cnt : Chan → ℤ
  sem : Chan → ℕ
  tasks : List Place

inductive Act
  | sleep (i : ℕ) (c : Chan)
  | down (i : ℕ)
  | signal (i : ℕ)
  | giveBack (i : ℕ)
  | relock (i : ℕ) (ret : ℤ)
  | wake (i : ℕ) (c : Chan) (all : Bool) (ret : ℤ)
  | read (i : ℕ)
  | dec (i : ℕ)
  | up (i : ℕ)

namespace SleepHead

variable (s : SleepHead)

def init (n : ℕ) : SleepHead :=
  ⟨fun _ => 0,fun c => if c = .readSem then 1 else 0,List.replicate n .idle⟩

def move (i : ℕ) (p : Place) : SleepHead := { s with tasks := s.tasks.set i p }
def addCnt (c : Chan) (n : ℤ) : SleepHead := { s with cnt := Function.update s.cnt c (s.cnt c + n) }
def lisUp (c : Chan) : SleepHead := { s with sem := Function.update s.sem c (s.sem c + 1) }

def step : Act → Option SleepHead
  | .sleep i c =>
      if s.tasks[i]? = some .idle then some ((s.addCnt c 1).move i (.counted c)) else none
  | .down i =>
      match s.tasks[i]? with
      | some (.counted c) =>
          if 0 < s.sem c then
            let s := { s with sem := Function.update s.sem c (s.sem c - 1) }
            some (s.move i (if (sleepOn c).relocks then .relock c else .idle))
          else none
      | _ => none
  -- lis_down does not fail for a task to which an up has given the semaphore
  | .signal i =>
      match s.tasks[i]? with
      | some (.counted c) =>
          if s.sem c < tally (Place.isCounted c) s.tasks then some (s.move i (.failed c)) else none
      | _ => none
  | .giveBack i =>
      match s.tasks[i]? with
      | some (.failed c) => some ((s.addCnt (sleepOn c).back (-1)).move i .idle)
      | _ => none
  | .relock i ret =>
      match s.tasks[i]? with
      | some (.relock c) =>
          if ret < 0 then some ((s.addCnt c (-1)).move i (.backed c)) else some (s.move i .idle)
      | _ => none
  -- without the lock the waker goes on to lis_stream_error, and changes nothing here
  | .wake i c all ret =>
      if s.tasks[i]? = some .idle then
        if (wakeUp c all).locks = true ∧ ret < 0 then some s else some (s.move i (.test c all))
      else none
  | .read i =>
      match s.tasks[i]? with
      | some (.test c all) =>
          if 0 < s.cnt c then some (s.move i (.positive c all)) else some (s.move i .idle)
      | _ => none
  | .dec i =>
      match s.tasks[i]? with
      | some (.positive c all) => some ((s.addCnt c (-1)).move i (.taken c all))
      | _ => none
  | .up i =>
      match s.tasks[i]? with
      | some (.backed c) => some ((s.lisUp c).move i .idle)
      | some (.taken c all) =>
          some ((s.lisUp c).move i (if (wakeUp c all).all then .test c all else .idle))
      | _ => none

/- The tasks that sleep and are still to be woken, when an up that no task has taken yet
counts as the wakeup of one. -/
def waiting (c : Chan) : ℤ := tally (Place.isAsleep c) s.tasks - s.sem c

/- The wakeups that are under way. -/
def wakings (c : Chan) : ℕ := tally (Place.isWaking c) s.tasks

end SleepHead

end CSLiS.Wait
