import CSLiS.Lib.Crew
import CSLiS.Lib.Exec

/-!
# Opening and closing one device (head/head.c)

Tasks in `lis_stropen` and later in `lis_doclose` for the same {major,minor}, which no driver changes. What a
task does between its operations on `lis_stdata_sem` and `sd_opening` is a step; a step also ends where the
open or close routine of a driver is called, since these can sleep.
-/

namespace CSLiS.Stream
open Lib.Crew Lib.Exec

/- The queue pairs of a stream head: its own only, the driver's attached, none left. -/
inductive Queues
  | bare
  | attached
  | gone
  deriving DecidableEq, Repr

/- `sdOpening` says whether the semaphore is held. -/
structure Stdata where
  sdRefcnt : ℕ
  sdOpencnt : ℕ
  strclose : Bool
  sdOpening : Bool
  queues : Queues
  freed : Bool
  deriving DecidableEq, Repr

/- Where a task is that has to do with a stream head. `found` is before the `lis_down` of `sd_opening`, `opening`
and `reopening` are in the open routines, `failed` is before the test of `sd_opencnt` under `error_rtn`,
`closing` is before STRCLOSE can be set. -/
inductive Place
  | found
  | opening
  | reopening
  | opened
  | failed
  | dismantling
  | putting
  | closing (last : Bool)
  deriving DecidableEq, Repr

/- A task that starts over still has the stream head in `head` that it has put. -/
inductive Opener
  | start (head : Option ℕ)
  | busy (p : Place) (h : ℕ)
  | done
  deriving DecidableEq, Repr

structure Opens where
  heads : ℕ → Stdata
  stdatas : ℕ
  tasks : List Opener

inductive OpenAct
  | lookup (i : ℕ) (alloc : Bool)
  | down (i : ℕ)
  | intr (i : ℕ)
  | openRtn (i : ℕ) (ok : Bool)
  | check (i : ℕ)
  | dismantled (i : ℕ)
  | put (i : ℕ)
  | close (i : ℕ)
  | mark (i : ℕ)
  deriving DecidableEq, Repr

namespace Opens

def noStdata : Stdata := ⟨0,0,false,false,.bare,true⟩

def init (n : ℕ) : Opens := ⟨fun _ => noStdata,0,List.replicate n (.start none)⟩

variable (s : Opens)

def setPc (i : ℕ) (o : Opener) : Opens := { s with tasks := s.tasks.set i o }

def setHead (h : ℕ) (hd : Stdata) : Opens := { s with heads := Function.update s.heads h hd }

/- A stream head in the list of them that is not marked as closing. -/
def usable (h : ℕ) : Prop := h < s.stdatas ∧ (s.heads h).freed = false ∧ (s.heads h).strclose = false

instance decUsable (h : ℕ) : Decidable (s.usable h) := inferInstanceAs (Decidable (_ ∧ _))

/-- `lis_lookup_stdata` (`head.c:4242-4340`). -/
def lisLookupStdata : Option ℕ := (List.range s.stdatas).find? fun h => decide (s.usable h)

/- `lis_head_put`. -/
def headPut (h : ℕ) : Opens :=
  let hd := s.heads h
  s.setHead h { hd with sdRefcnt := hd.sdRefcnt - 1, freed := hd.freed || hd.sdRefcnt == 1 }

/-- `lis_stropen` from `retry_from_start` to the `lis_up` of `lis_stdata_sem` (`head.c:4670-4737`). -/
def lookup (i : ℕ) (alloc : Bool) : Opens :=
  match s.lisLookupStdata with
  | some h =>
      let hd := s.heads h
      (s.setHead h { hd with sdRefcnt := hd.sdRefcnt + 1 }).setPc i (.busy .found h)
  | none =>
      if alloc then
        ({ s with stdatas := s.stdatas + 1 }.setHead s.stdatas ⟨1,0,false,false,.bare,false⟩).setPc i
          (.busy .found s.stdatas)
      else s.setPc i .done

/-- From the `lis_down` of `sd_opening` to the call of the open routines (`head.c:4745-4953`). -/
def down (i h : ℕ) : Option Opens :=
  let hd := s.heads h
  if hd.sdOpening then none
  else if hd.strclose then some ((s.headPut h).setPc i (.start (some h)))
  else if 1 ≤ hd.sdOpencnt then
    some ((s.setHead h { hd with sdOpening := true }).setPc i (.busy .reopening h))
  else if hd.queues = .gone then some (s.setPc i (.busy .failed h))
  else some ((s.setHead h { hd with sdOpening := true, queues := .attached }).setPc i (.busy .opening h))

/-- What follows the open routines up to the release of `sd_opening` (`head.c:4958-5177`, `5222-5258`). -/
def opened (i h : ℕ) (hd : Stdata) (ok : Bool) : Opens :=
  if ok then
    (s.setHead h { hd with sdOpencnt := hd.sdOpencnt + 1, sdOpening := false }).setPc i (.busy .opened h)
  else (s.setHead h { hd with sdOpening := false }).setPc i (.busy .failed h)

/-- The steps of `lis_stropen` and of `lis_doclose` (`head.c:8512-8596`). -/
def step : OpenAct → Option Opens
  | .lookup i alloc =>
      match s.tasks[i]? with
      | some (.start _) => some (s.lookup i alloc)
      | _ => none
  | .down i =>
      match s.tasks[i]? with
      | some (.busy .found h) => s.down i h
      | _ => none
  | .intr i =>
      match s.tasks[i]? with
      | some (.start none) => some (s.setPc i .done)
      | some (.start (some h)) => some (s.setPc i (.busy .failed h))
      | some (.busy .found h) => some (s.setPc i (.busy .failed h))
      | _ => none
  | .openRtn i ok =>
      match s.tasks[i]? with
      | some (.busy .opening h) =>
          let hd := s.heads h
          -- a driver whose open routine fails is detached
          some (s.opened i h { hd with queues := if ok || hd.queues = .gone then hd.queues else .bare } ok)
      | some (.busy .reopening h) => some (s.opened i h (s.heads h) ok)
      | _ => none
  | .check i =>
      match s.tasks[i]? with
      | some (.busy .failed h) =>
          some (s.setPc i (.busy (if (s.heads h).sdOpencnt = 0 then .dismantling else .putting) h))
      | _ => none
  | .dismantled i =>
      match s.tasks[i]? with
      | some (.busy .dismantling h) =>
          let hd := s.heads h
          some ((s.setHead h { hd with queues := .gone }).setPc i (.busy .putting h))
      | _ => none
  | .put i =>
      match s.tasks[i]? with
      | some (.busy .putting h) => some ((s.headPut h).setPc i .done)
      | _ => none
  | .close i =>
      match s.tasks[i]? with
      | some (.busy .opened h) =>
          let hd := s.heads h
          if hd.sdOpening then none
          else some ((s.setHead h { hd with sdOpencnt := hd.sdOpencnt - 1, sdOpening := true }).setPc i
            (.busy (.closing (hd.sdOpencnt - 1 = 0)) h))
      | _ => none
  | .mark i =>
      match s.tasks[i]? with
      | some (.busy (.closing last) h) =>
          let hd := s.heads h
          if last then
            some ((s.setHead h { hd with strclose := true, sdOpening := false }).setPc i (.busy .dismantling h))
          else some ((s.setHead h { hd with sdOpening := false }).setPc i (.busy .putting h))
      | _ => none

end Opens

end CSLiS.Stream
