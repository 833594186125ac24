import CSLiS.Lib.Exec
import CSLiS.Lib.Linked

/-!
# The bufcall table (head/buffcall.c)

`lis_bufcall` queues a function in a hash list, `lis_dobufcall` calls the functions queued
when the bufcall timer has set `lis_strbcflag`, `lis_unbufcall` takes one off again. Any
number of tasks run them; what a callback does are steps of other tasks. Each part under
`lis_bc_lock` is a step, and so is the end of the wait of `lis_unbufcall` and each return of
a callback. An ALLOCF and a call of `lis_tmout` are steps of their own.

Registrations are numbered. The number of an entry, the ids given so far and the log of calls
and cancellations are only there to be spoken about. The statistics and the size are left out.
-/

namespace CSLiS.Bufcall

abbrev Bcid := BitVec 32

def N_BCHASH : ℕ := 128

/- `id & BCHASH_MSK` -/
def hash (id : Bcid) : ℕ := (id &&& 127#32).toNat

inductive BcState
  | unused
  | active
  | callout
  deriving DecidableEq, Repr

structure Bcinfo where
  next : Option ℕ
  prev : Option ℕ
  id : Bcid
  state : BcState
  usrF : Option ℕ
  usrArg : ℕ
  reg : ℕ
  deriving DecidableEq, Repr

structure Bclist where
  first : Option ℕ
  last : Option ℕ
  nElts : ℤ
  deriving DecidableEq, Repr

/- Where a task is: in `bc_link` before ALLOCF, and before it fills in the entry it got;
before `lis_tmout`; in `lis_unbufcall` while it waits for the entry it found, and after that;
in a callback that `lis_dobufcall` called for an entry of a list. `regs` is the number of
registrations when the entry was looked up. -/
inductive Phase
  | idle
  | alloc (f arg : ℕ) (id : Bcid)
  | fill (b f arg : ℕ) (id : Bcid)
  | tmout
  | found (b : ℕ) (bcid : Bcid) (regs : ℕ)
  | waited (b : ℕ) (bcid : Bcid) (regs : ℕ)
  | callout (b i : ℕ)
  deriving DecidableEq, Repr

inductive Event
  | called (reg : ℕ)
  | cancelled (reg : ℕ)
  deriving DecidableEq, Repr

/- The entries below `brk` are allocated. `lisBctl` is the timer, while it runs. -/
structure BcTable where
  bc : ℕ → Bcinfo
  brk : ℕ
  lisBchash : ℕ → Bclist
  lisBcfreel : Option ℕ
  lisBcCnt : ℤ
  lisStrbcflag : Bool
  lisStrbctimer : Bool
  lisBctl : Bool
  idNum : Bcid
  tasks : ℕ → Phase
  ids : List Bcid
  log : List Event

inductive Act
  | bufcall (t : ℕ) (f : Option ℕ) (arg : ℕ)
  | alloc (t : ℕ) (ok : Bool)
  | fill (t : ℕ)
  | tmout (t : ℕ)
  | bcTimeout
  | unbufcall (t : ℕ) (bcid : Bcid)
  | waited (t : ℕ)
  | unlink (t : ℕ)
  | dobufcall (t : ℕ)
  | returned (t : ℕ)

namespace BcTable

variable (s : BcTable)

def init : BcTable :=
  ⟨fun _ => ⟨none,none,0,.unused,none,0,0⟩,0,fun _ => ⟨none,none,0⟩,none,0,false,false,false,0,fun _ => .idle,[],[]⟩

def setBc (b : ℕ) (x : Bcinfo) : BcTable := { s with bc := Function.update s.bc b x }
def setNext (b : ℕ) (o : Option ℕ) : BcTable := s.setBc b { s.bc b with next := o }
def setPrev (b : ℕ) (o : Option ℕ) : BcTable := s.setBc b { s.bc b with prev := o }
def setList (h : ℕ) (l : Bclist) : BcTable := { s with lisBchash := Function.update s.lisBchash h l }
def goto (t : ℕ) (p : Phase) : BcTable := { s with tasks := Function.update s.tasks t p }

/- `if (o) o->next = y` -/
def setNextOf (o y : Option ℕ) : BcTable :=
  match o with
  | none => s
  | some p => s.setNext p y

def setPrevOf (o y : Option ℕ) : BcTable :=
  match o with
  | none => s
  | some n => s.setPrev n y

/- `++id_num`, and once more if that gave 0. -/
def nextId : Bcid := if s.idNum + 1 = 0 then 1 else s.idNum + 1

/- An entry is filled in and linked to the end of its list (`buffcall.c:160-183`). -/
def link (b f arg : ℕ) (id : Bcid) : BcTable :=
  let h := hash id
  let last := (s.lisBchash h).last
  let s := s.setBc b ⟨none,last,id,.active,some f,arg,s.ids.length⟩
  let s := s.setNextOf last (some b)
  let l := s.lisBchash h
  let s := s.setList h ⟨if l.first = none then some b else l.first,some b,l.nElts + 1⟩
  { s with lisBcCnt := s.lisBcCnt + 1, ids := s.ids ++ [id] }

/- The end of `bc_link`: the timer is started unless it is running (`buffcall.c:185-198`). -/
def startTimer (t : ℕ) : BcTable :=
  if s.lisStrbctimer then s.goto t .idle else { s with lisStrbctimer := true }.goto t .tmout

/-- `bc_ulink` (`buffcall.c:205-235`) -/
def bcUlink (b : ℕ) : BcTable :=
  let h := hash (s.bc b).id
  let s := s.setNextOf (s.bc b).prev (s.bc b).next
  let s := s.setPrevOf (s.bc b).next (s.bc b).prev
  let l := s.lisBchash h
  let s := s.setList h
    ⟨if l.first = some b then (s.bc b).next else l.first,if l.last = some b then (s.bc b).prev else l.last,l.nElts - 1⟩
  let s := s.setBc b { s.bc b with usrF := none, id := 0, next := s.lisBcfreel }
  { s with lisBcCnt := s.lisBcCnt - 1, lisBcfreel := some b }

/- `state` is cleared and the entry unlinked, in `lis_unbufcall` and `lis_dobufcall`. -/
def release (b : ℕ) : BcTable := (s.setBc b { s.bc b with state := .unused }).bcUlink b

/-- `bc_link` up to ALLOCF, or to its end when there is a free entry (`buffcall.c:118-145`) -/
def bcLink (t f arg : ℕ) : BcTable :=
  let id := s.nextId
  match s.lisBcfreel with
  | some b => ({ s with lisBcfreel := (s.bc b).next, idNum := id }.link b f arg id).startTimer t
  | none => { s with idNum := id }.goto t (.alloc f arg id)

/- The search of `lis_unbufcall`. A chain of more entries than there are has no end. -/
def find (bcid : Bcid) : ℕ → Option ℕ → Option (Option ℕ)
  | _, none => some none
  | 0, some _ => none
  | n + 1, some b => if (s.bc b).id = bcid then some (some b) else find bcid n (s.bc b).next

/- The registrations that had this id when there were `n` of them. -/
def regsOf (bcid : Bcid) (n : ℕ) : List ℕ := (List.range n).filter fun r => s.ids[r]? == some bcid

/- `lis_unbufcall` returns. -/
def cancelled (t : ℕ) (bcid : Bcid) (n : ℕ) : BcTable :=
  { s with log := s.log ++ (s.regsOf bcid n).map Event.cancelled }.goto t .idle

/-- `lis_unbufcall` up to its wait (`buffcall.c:299-317`) -/
def lisUnbufcall (t : ℕ) (bcid : Bcid) : Option BcTable :=
  (s.find bcid s.brk (s.lisBchash (hash bcid)).first).map fun r =>
    match r with
    | none => s.cancelled t bcid s.ids.length
    | some b => s.goto t (.found b bcid s.ids.length)

/- The first entry of list `i` or of the lists behind it, of which there are `n`
(`buffcall.c:360-378`). -/
def nextCallout : ℕ → ℕ → Option (ℕ × ℕ)
  | _, 0 => none
  | i, n + 1 =>
      if s.lisBcCnt = 0 then none
      else if (s.lisBchash i).nElts = 0 then nextCallout (i + 1) n
      else match (s.lisBchash i).first with
        | none => nextCallout (i + 1) n
        | some b => some (i,b)

/- The same inside the loop over list `i`, which does not look at `lis_bc_cnt`. -/
def resumeCallout (i : ℕ) : Option (ℕ × ℕ) :=
  if (s.lisBchash i).nElts = 0 then s.nextCallout (i + 1) (N_BCHASH - (i + 1))
  else match (s.lisBchash i).first with
    | none => s.nextCallout (i + 1) (N_BCHASH - (i + 1))
    | some b => some (i,b)

/- The next callback, or the end of `lis_dobufcall` (`buffcall.c:380-405`). -/
def callout (t : ℕ) : Option (ℕ × ℕ) → BcTable
  | some (i,b) =>
      let x := s.bc b
      let s := { s with log := if x.usrF = none then s.log else s.log ++ [Event.called x.reg] }
      (s.setBc b { x with state := .callout }).goto t (.callout b i)
  | none =>
      if s.lisBcCnt ≠ 0 then { s with lisStrbctimer := true }.goto t .tmout
      else { s with lisStrbctimer := false }.goto t .idle

def step : Act → Option BcTable
  | .bufcall t f arg =>
      if s.tasks t = .idle then
        match f with
        | none => some s
        | some f => some (s.bcLink t f arg)
      else none
  | .alloc t ok =>
      match s.tasks t with
      | .alloc f arg id =>
          some (if ok then { s with brk := s.brk + 1 }.goto t (.fill s.brk f arg id) else s.goto t .idle)
      | _ => none
  | .fill t =>
      match s.tasks t with
      | .fill b f arg id => some ((s.link b f arg id).startTimer t)
      | _ => none
  | .tmout t => if s.tasks t = .tmout then some ({ s with lisBctl := true }.goto t .idle) else none
  | .bcTimeout => if s.lisBctl then some { s with lisBctl := false, lisStrbcflag := true } else none
  | .unbufcall t bcid => if s.tasks t = .idle then s.lisUnbufcall t bcid else none
  | .waited t =>
      match s.tasks t with
      | .found b bcid n => if (s.bc b).state = .callout then none else some (s.goto t (.waited b bcid n))
      | _ => none
  | .unlink t =>
      match s.tasks t with
      | .waited b bcid n => some ((s.release b).cancelled t bcid n)
      | _ => none
  | .dobufcall t =>
      if s.tasks t = .idle then
        if s.lisStrbcflag then
          let s := { s with lisStrbcflag := false }
          some (s.callout t (s.nextCallout 0 N_BCHASH))
        else some s
      else none
  | .returned t =>
      match s.tasks t with
      | .callout b i =>
          let s := s.release b
          some (s.callout t (s.resumeCallout i))
      | _ => none

end BcTable

end CSLiS.Bufcall
