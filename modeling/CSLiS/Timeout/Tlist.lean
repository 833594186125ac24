import CSLiS.Lib.Exec

/-!
# Timeouts (head/dki.c)

`lis_timeout_fcn` takes a `tlist_t` off list 0, which holds the free ones, gives it a
handle, enters it in the list that the handle hashes to and starts a kernel timer for it.
When the timer expires the kernel calls `sys_timeout_fcn` with the address of the entry.
`lis_untimeout` stops the timer and frees the entry; it does not wait for a handler that
has started. Each part under `lis_tlist_lock` is a step.

The lists are chains of addresses. The timeouts are numbered: which one an entry, a kernel
timer or a call belongs to is only there to be spoken about.
-/

namespace CSLiS.Timeout

def THASH : ℕ := 757

structure Tlist where
  handle : ℕ
  fcn : Option ℕ
  arg : ℕ
  reg : ℕ
  deriving DecidableEq, Repr

/- A function that `sys_timeout_fcn` is about to call, that of timeout `reg`, because the
kernel timer of timeout `tmr` expired. -/
structure Call where
  fcn : ℕ
  arg : ℕ
  reg : ℕ
  tmr : ℕ
  deriving DecidableEq, Repr

inductive Event
  | called (reg tmr : ℕ)
  | cancelled (reg : ℕ)
  deriving DecidableEq, Repr

/- `starting` and `handlers` are the entries for which `lis_tmout` is to be called and those
for which `sys_timeout_fcn` has started. `handles` has the handle of each timeout. -/
structure Timers where
  ent : ℕ → Tlist
  next : ℕ
  lisTlistHeads : ℕ → List ℕ
  lisTlistHandle : BitVec 32
  starting : List (ℕ × ℕ)
  armed : ℕ → Option ℕ
  handlers : List (ℕ × ℕ)
  calls : List Call
  handles : List ℕ
  log : List Event

inductive Act
  | timeout (fcn : Option ℕ) (arg : ℕ) (alloc : Bool)
  | tmout (i : ℕ)
  | expire (tp : ℕ)
  | handler (i : ℕ)
  | call (i : ℕ)
  | untimeout (id : ℕ)
  deriving Repr

namespace Timers

variable (s : Timers)

def init : Timers := ⟨fun _ => ⟨0,none,0,0⟩,0,fun _ => [],0,[],fun _ => none,[],[],[],[]⟩

def setEnt (tp : ℕ) (e : Tlist) : Timers := { s with ent := Function.update s.ent tp e }
def setHead (k : ℕ) (l : List ℕ) : Timers := { s with lisTlistHeads := Function.update s.lisTlistHeads k l }

/- The list that an entry hashes to. -/
def slot (tp : ℕ) : ℕ := (s.ent tp).handle % THASH

/-- `enter_timer_in_list` (`dki.c:97-103`) -/
def enterTimerInList (tp : ℕ) : Timers := s.setHead (s.slot tp) (tp :: s.lisTlistHeads (s.slot tp))

/-- `remove_timer_from_list` (`dki.c:111-144`) -/
def removeTimerFromList (tp : ℕ) : Bool × Timers :=
  let l := s.lisTlistHeads (s.slot tp)
  if tp ∈ l then (true,s.setHead (s.slot tp) (l.erase tp)) else (false,s)

/-- `alloc_timer` (`dki.c:146-160`) -/
def allocTimer (alloc : Bool) : Option (ℕ × Timers) :=
  match s.lisTlistHeads 0 with
  | [] => if alloc then some (s.next,{ s with next := s.next + 1 }) else none
  | tp :: l => some (tp,s.setHead 0 l)

/-- `find_timer_by_handle` (`dki.c:219-231`) -/
def findTimerByHandle (handle : ℕ) : Option ℕ :=
  (s.lisTlistHeads (handle % THASH)).find? fun tp => (s.ent tp).handle == handle

/- The tries of `alloc_handle` (`dki.c:241-262`). After 2^31 of them it has seen every handle
and goes on for ever. -/
def allocHandle : ℕ → BitVec 32 → Option (BitVec 32 × ℕ)
  | 0, _ => none
  | n + 1, c =>
      let handle := ((c + 1) &&& 0x7FFFFFFF).toNat
      if handle % THASH ≠ 0 ∧ s.findTimerByHandle handle = none then some (c + 1,handle)
      else allocHandle n (c + 1)

/-- `lis_timeout_fcn` up to `lis_tmout` (`dki.c:275-292`) -/
def lisTimeoutFcn (fcn : Option ℕ) (arg : ℕ) (alloc : Bool) : Option Timers :=
  match s.allocTimer alloc with
  | none => some s
  | some (tp,s) =>
      (s.allocHandle (2 ^ 31) s.lisTlistHandle).map fun r =>
        let reg := s.handles.length
        { { s with lisTlistHandle := r.1 }.setEnt tp ⟨r.2,fcn,arg,reg⟩ with
          starting := (tp,reg) :: s.starting
          handles := s.handles ++ [r.2] }.enterTimerInList tp

/- The locked part of `sys_timeout_fcn` (`dki.c:192-208`) for the kernel timer of `tmr`. -/
def sysTimeoutFcn (tp tmr : ℕ) : Timers :=
  match s.removeTimerFromList tp with
  | (false,s) => s
  | (true,s) =>
      let e := s.ent tp
      let s := (s.setEnt tp { e with handle := 0, fcn := none }).enterTimerInList tp
      match decide (e.handle ≠ 0), e.fcn with
      | true, some f => { s with calls := s.calls ++ [⟨f,e.arg,e.reg,tmr⟩] }
      | _, _ => s

/- The timeouts that have had this handle. -/
def regsOf (id : ℕ) : List ℕ := (List.range s.handles.length).filter fun r => s.handles[r]? == some id

/-- `lis_untimeout` (`dki.c:301-323`) -/
def lisUntimeout (id : ℕ) : Timers :=
  let s' :=
    match s.findTimerByHandle id with
    | none => s
    | some tp =>
        let s := { (s.removeTimerFromList tp).2 with armed := Function.update s.armed tp none }
        (s.setEnt tp { s.ent tp with handle := 0 }).enterTimerInList tp
  { s' with log := s.log ++ (s.regsOf id).map .cancelled }

def step : Act → Option Timers
  | .timeout fcn arg alloc => s.lisTimeoutFcn fcn arg alloc
  | .tmout i =>
      s.starting[i]?.map fun x =>
        { s with starting := s.starting.eraseIdx i, armed := Function.update s.armed x.1 (some x.2) }
  | .expire tp =>
      (s.armed tp).map fun tmr =>
        { s with armed := Function.update s.armed tp none, handlers := (tp,tmr) :: s.handlers }
  | .handler i =>
      s.handlers[i]?.map fun x => { s with handlers := s.handlers.eraseIdx i }.sysTimeoutFcn x.1 x.2
  | .call i =>
      s.calls[i]?.map fun c => { s with calls := s.calls.eraseIdx i, log := s.log ++ [.called c.reg c.tmr] }
  -- an id that is no handle may index outside of the table
  | .untimeout id => if id < 2 ^ 31 then some (s.lisUntimeout id) else none

end Timers

end CSLiS.Timeout
