import CSLiS.Lib.Exec

/-!
# Timers of the stream heads (head/head.c)

`lis_strwrite` sets the scan timer of a stream head, `close_action` its close timers, through handles that
`lis_timeout_fcn` gives and that the head keeps in `sd_scantimer` and `sd_close_timer`. A waiting ioctl and a waiting
I_RECVFD have a timer of their own on the stack. A timer that is cancelled does not start its handler; a handler that has
started goes on.
-/

namespace CSLiS.Timeout
open Lib.Exec

/- The handlers, and `lis_strwsrv` where it calls `lis_wakeup_close`. -/
inductive Fcn where
  | addToScanl
  | lisWakeupClose
  | lisWakeupFlush
  | lisDoTmout
  | lisDoRdTmout
  | lisStrwsrv
  deriving DecidableEq, Repr

/- What they do to a stream head, a section each. -/
inductive Part where
  | clearScantimer
  | link
  | untimeout
  | clearCloseTimer
  | up
  | clearFlushwt
  | clearIoctmr
  | wake
  deriving DecidableEq, Repr

/-- `head.c:1411-1443`, `8036-8075`, `3595-3659` -/
def Fcn.body : Fcn → List Part
  | .addToScanl => [.clearScantimer,.link]
  | .lisWakeupClose | .lisStrwsrv => [.untimeout,.clearCloseTimer,.up]
  | .lisWakeupFlush => [.untimeout,.clearCloseTimer,.clearFlushwt,.wake]
  | .lisDoTmout => [.clearIoctmr,.wake]
  | .lisDoRdTmout => [.wake]

/- In `lis_strwrite` under `sd_write_sem`: `assign` after `lis_timeout_fcn`, `clear` after `untimeout`. -/
inductive Writer where
  | idle
  | assign (handle : ℕ)
  | clear
  deriving DecidableEq, Repr

/- In `close_action`. -/
inductive Closer where
  | none
  | start
  | assignClose (handle : ℕ)
  | waitClose
  | clearClose
  | middle
  | assignFlush (handle : ℕ)
  | waitFlush
  | clearFlush
  | done
  deriving DecidableEq, Repr

/- `ioc` is the call in `lis_wait_for_wiocing`, of which there is one at a time, `reads` those that wait in I_RECVFD. -/
structure Hd where
  sdScantimer : ℕ
  sdCloseTimer : ℕ
  sdClosing : ℕ
  strflushwt : Bool
  stioctmr : Bool
  writer : Writer
  closer : Closer
  ioc : Option ℕ
  reads : List ℕ
  released : Bool
  deriving DecidableEq, Repr

/- A timer of `lis_timeout_fcn` that has not expired. -/
structure Tmo where
  handle : ℕ
  fcn : Fcn
  hd : ℕ
  deriving DecidableEq, Repr

/- A timer on the stack of a call. -/
structure Stacked where
  call : ℕ
  fcn : Fcn
  hd : ℕ
  deriving DecidableEq, Repr

/- A handler that has started, with what it still has to do; `call` is that of a timer on the stack. -/
structure Run where
  fcn : Fcn
  hd : ℕ
  call : ℕ
  todo : List Part
  deriving DecidableEq, Repr

/- A timer that `untimeout` has cancelled for the stream head `hd`, and the timers for which the call was made. -/
structure Hit where
  purpose : List Fcn
  hd : ℕ
  tmo : Tmo
  deriving DecidableEq, Repr

structure HeadTimers where
  hds : ℕ → Hd
  tlist : List Tmo
  stack : List Stacked
  running : List Run
  next : ℕ
  hits : List Hit

namespace HeadTimers

def setHd (s : HeadTimers) (d : ℕ) (x : Hd) : HeadTimers := { s with hds := Function.update s.hds d x }

/- `lis_timeout_fcn` with the handle that it gives, 0 without memory. -/
def timeoutFcn (s : HeadTimers) (handle : ℕ) (fcn : Fcn) (d : ℕ) : HeadTimers :=
  if handle = 0 then s else { s with tlist := ⟨handle,fcn,d⟩ :: s.tlist }

def untimeout (s : HeadTimers) (id : ℕ) (purpose : List Fcn) (d : ℕ) : HeadTimers :=
  { s with
    tlist := s.tlist.filter fun t => t.handle ≠ id
    hits := s.hits ++ (s.tlist.filter fun t => t.handle = id).map fun t => ⟨purpose,d,t⟩ }

/- `if (timer) untimeout(timer)` -/
def untimeoutIf (s : HeadTimers) (id : ℕ) (purpose : List Fcn) (d : ℕ) : HeadTimers :=
  if id = 0 then s else s.untimeout id purpose d

def lisUntmout (s : HeadTimers) (call : ℕ) : HeadTimers := { s with stack := s.stack.filter fun k => k.call ≠ call }

/- The next section of a handler. -/
def part (s : HeadTimers) (r : Run) : Part → HeadTimers
  | .clearScantimer => s.setHd r.hd { s.hds r.hd with sdScantimer := 0 }
  | .untimeout => s.untimeout (s.hds r.hd).sdCloseTimer
      [if r.fcn = .lisWakeupFlush then .lisWakeupFlush else .lisWakeupClose] r.hd
  | .clearCloseTimer => s.setHd r.hd { s.hds r.hd with sdCloseTimer := 0 }
  | .up => s.setHd r.hd { s.hds r.hd with sdClosing := (s.hds r.hd).sdClosing + 1 }
  | .clearFlushwt => s.setHd r.hd { s.hds r.hd with strflushwt := false }
  | .clearIoctmr => s.setHd r.hd { s.hds r.hd with stioctmr := false }
  | .link | .wake => s

/- `hold` to `cleared` are the parts of `lis_strwrite` (`head.c:1446-1457`, `5470-5485`), `ioctl` and `iocEnd` those of
`lis_wait_for_wiocing` (`3663-3737`), `recvfd` and `rdEnd` of I_RECVFD (`7370-7412`), `close` to `closeCleared` of
`close_action` (`8298-8388`), whose waits a signal may end. `strwsrv` comes to `lis_wakeup_close` (`3520-3528`), `answer`
is the M_FLUSH that comes back, `free` is `lis_free_stdata` (`1583-1679`) when the last reference is given back. -/
inductive Act where
  | hold (d handle : ℕ)
  | assigned (d : ℕ)
  | send (d : ℕ)
  | cleared (d : ℕ)
  | ioctl (d : ℕ) (timed : Bool)
  | iocEnd (d : ℕ) (error : Bool)
  | recvfd (d : ℕ)
  | rdEnd (d call : ℕ)
  | close (d : ℕ)
  | closeTimer (d : ℕ) (queued : Bool) (handle : ℕ)
  | closeAssigned (d : ℕ)
  | waited (d : ℕ) (signal : Bool)
  | flushTimer (d : ℕ) (samestr : Bool) (handle : ℕ)
  | flushed (d : ℕ) (signal : Bool)
  | closeCleared (d : ℕ)
  | answer (d : ℕ)
  | strwsrv (d : ℕ)
  | free (d : ℕ)
  | expire (handle : ℕ)
  | expireStacked (call : ℕ)
  | run (i : ℕ)
  deriving DecidableEq, Repr

def step (s : HeadTimers) : Act → Option HeadTimers
  | .hold d handle =>
      let x := s.hds d
      if x.released ∨ x.writer ≠ .idle ∨ handle ∈ s.tlist.map Tmo.handle then none
      else if x.sdScantimer = 0 then
        some ((s.timeoutFcn handle .addToScanl d).setHd d { x with writer := .assign handle })
      else some s
  | .assigned d =>
      match (s.hds d).writer with
      | .assign handle => some (s.setHd d { s.hds d with sdScantimer := handle, writer := .idle })
      | _ => none
  | .send d =>
      let x := s.hds d
      if x.released ∨ x.writer ≠ .idle then none
      else if x.sdScantimer = 0 then some s
      else some ((s.untimeout x.sdScantimer [.addToScanl] d).setHd d { x with writer := .clear })
  | .cleared d =>
      if (s.hds d).writer = .clear then some (s.setHd d { s.hds d with sdScantimer := 0, writer := .idle }) else none
  | .ioctl d timed =>
      let x := s.hds d
      if x.released ∨ x.ioc ≠ none then none
      else
        let t := s.setHd d { x with stioctmr := true, ioc := some s.next }
        some { t with next := s.next + 1, stack := if timed then ⟨s.next,.lisDoTmout,d⟩ :: s.stack else s.stack }
  | .iocEnd d error =>
      let x := s.hds d
      match x.ioc with
      | none => none
      | some call =>
          if !error && !x.stioctmr then some (s.setHd d { x with ioc := none })
          else some ((s.lisUntmout call).setHd d { x with stioctmr := false, ioc := none })
  | .recvfd d =>
      let x := s.hds d
      if x.released then none
      else
        let t := s.setHd d { x with reads := s.next :: x.reads }
        some { t with next := s.next + 1, stack := ⟨s.next,.lisDoRdTmout,d⟩ :: s.stack }
  | .rdEnd d call =>
      let x := s.hds d
      if call ∈ x.reads then
        some ((s.lisUntmout call).setHd d { x with reads := x.reads.filter fun n => n ≠ call })
      else none
  | .close d =>
      let x := s.hds d
      if x.closer = .none then some (s.setHd d { x with closer := .start }) else none
  | .closeTimer d queued handle =>
      let x := s.hds d
      if x.closer ≠ .start ∨ handle ∈ s.tlist.map Tmo.handle then none
      else if queued then
        some ((s.timeoutFcn handle .lisWakeupClose d).setHd d { x with closer := .assignClose handle })
      else some (s.setHd d { x with closer := .middle })
  | .closeAssigned d =>
      let x := s.hds d
      match x.closer with
      | .assignClose handle => some (s.setHd d { x with sdCloseTimer := handle, closer := .waitClose })
      | .assignFlush handle => some (s.setHd d { x with sdCloseTimer := handle, closer := .waitFlush })
      | _ => none
  | .waited d signal =>
      let x := s.hds d
      if x.closer = .waitClose ∧ (signal ∨ 0 < x.sdClosing) then
        some ((s.untimeoutIf x.sdCloseTimer [.lisWakeupClose] d).setHd d
          { x with sdClosing := if signal then x.sdClosing else x.sdClosing - 1, closer := .clearClose })
      else none
  | .flushTimer d samestr handle =>
      let x := s.hds d
      if x.closer ≠ .middle ∨ handle ∈ s.tlist.map Tmo.handle then none
      else if samestr then
        some ((s.timeoutFcn handle .lisWakeupFlush d).setHd d
          { x with strflushwt := true, closer := .assignFlush handle })
      else some (s.setHd d { x with closer := .done })
  | .flushed d signal =>
      let x := s.hds d
      if x.closer = .waitFlush ∧ (signal ∨ x.strflushwt = false) then
        some ((s.untimeoutIf x.sdCloseTimer [.lisWakeupFlush] d).setHd d { x with closer := .clearFlush })
      else none
  | .closeCleared d =>
      let x := s.hds d
      match x.closer with
      | .clearClose => some (s.setHd d { x with sdCloseTimer := 0, closer := .middle })
      | .clearFlush => some (s.setHd d { x with sdCloseTimer := 0, closer := .done })
      | _ => none
  | .answer d => some (s.setHd d { s.hds d with strflushwt := false })
  | .strwsrv d =>
      if (s.hds d).released ∨ (s.hds d).closer = .none then none
      else some { s with running := ⟨.lisStrwsrv,d,0,Fcn.lisStrwsrv.body⟩ :: s.running }
  | .free d =>
      let x := s.hds d
      if x.closer = .done ∧ !x.released ∧ x.writer = .idle ∧ x.ioc = none ∧ x.reads = [] ∧
          ∀ r ∈ s.running, r.fcn = .lisStrwsrv → r.hd ≠ d then
        some ((s.untimeoutIf x.sdCloseTimer [.lisWakeupClose,.lisWakeupFlush] d).setHd d { x with released := true })
      else none
  | .expire handle =>
      match s.tlist.find? fun t => t.handle = handle with
      | none => none
      | some t => some { s with
          tlist := s.tlist.filter fun t => t.handle ≠ handle
          running := ⟨t.fcn,t.hd,0,t.fcn.body⟩ :: s.running }
  | .expireStacked call =>
      match s.stack.find? fun k => k.call = call with
      | none => none
      | some k => some { s.lisUntmout call with running := ⟨k.fcn,k.hd,call,k.fcn.body⟩ :: s.running }
  | .run i =>
      match s.running[i]? with
      | none => none
      | some r =>
          match r.todo with
          | [] => none
          | c :: l => some { s.part r c with
              running := if l = [] then s.running.eraseIdx i else s.running.set i { r with todo := l } }

/- No handler starts on a stream head that was released, or is still in one. A timer on the stack is that of a call which
has not returned. Cancellations hit what they are meant for. -/
structure Safe (s : HeadTimers) : Prop where
  starts : ∀ t ∈ s.tlist, (s.hds t.hd).released = false
  startsStacked : ∀ k ∈ s.stack, (s.hds k.hd).released = false
  uses : ∀ r ∈ s.running, (s.hds r.hd).released = false
  stacked : ∀ k ∈ s.stack, (s.hds k.hd).ioc = some k.call ∨ k.call ∈ (s.hds k.hd).reads
  hits : ∀ h ∈ s.hits, h.tmo.fcn ∈ h.purpose ∧ h.tmo.hd = h.hd

/- A handle that a stream head keeps, or is about to. -/
def Keeps (x : Hd) (handle : ℕ) : Prop :=
  x.sdScantimer = handle ∨ x.sdCloseTimer = handle ∨ x.writer = .assign handle ∨ x.closer = .assignClose handle ∨
    x.closer = .assignFlush handle

/- `lis_timeout_fcn` gives no handle that is still kept. -/
def Fresh (s : HeadTimers) (handle : ℕ) : Prop := handle ≠ 0 → ∀ d, ¬ Keeps (s.hds d) handle

/- The handle is not that of a timer that is running. -/
def Expired (s : HeadTimers) (handle : ℕ) : Prop := ∀ t ∈ s.tlist, t.handle ≠ handle

def PartAllowed (s : HeadTimers) (r : Run) : Part → Prop
  | .clearScantimer => Expired s (s.hds r.hd).sdScantimer
  | .untimeout => r.fcn ≠ .lisWakeupFlush → (s.hds r.hd).closer ≠ .waitFlush
  | .clearCloseTimer => Expired s (s.hds r.hd).sdCloseTimer
  | .clearIoctmr => (s.hds r.hd).stioctmr = true → (s.hds r.hd).ioc = some r.call
  | _ => True

def Allowed (s : HeadTimers) : Act → Prop
  | .hold d handle => (s.hds d).sdScantimer = 0 → Fresh s handle
  | .closeTimer _ queued handle => queued = true → Fresh s handle
  | .flushTimer _ samestr handle => samestr = true → Fresh s handle
  | .free d => Expired s (s.hds d).sdScantimer ∧ ∀ r ∈ s.running, r.hd ≠ d
  | .run i => ∀ r, s.running[i]? = some r → ∀ c ∈ r.todo.head?, PartAllowed s r c
  | _ => True

/- Stream heads without timers. -/
def fresh : Hd := ⟨0,0,0,false,false,.idle,.none,none,[],false⟩
def start : HeadTimers := ⟨fun _ => fresh,[],[],[],0,[]⟩

end HeadTimers

end CSLiS.Timeout
