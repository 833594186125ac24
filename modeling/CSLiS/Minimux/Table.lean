import CSLiS.Lib.Exec
import CSLiS.Lib.Search

/-!
# The table of the multiplexor (drivers/str/minimux.c)

The entries are on a heap, an address that was freed has none. A call that uses a freed entry or a null pointer has no
result. The driver knows a stream of its own by its queue pair, and a stream that is linked below by that of its stream
head; the numbers of the one have nothing to do with those of the other.
-/

namespace CSLiS.Minimux
open Lib

def EINVAL : ℤ := 22
def ENOMEM : ℤ := 12
def OPENFAIL : ℤ := -1
def MAXMUX : ℕ := 100

/- The read queue of a stream of the driver, or the write queue of the stream head of one that is linked. -/
inductive Outq
  | rd (q : ℕ)
  | wr (l : ℕ)
  deriving DecidableEq, Repr

/- `mux_tbl_t` -/
structure Entry where
  list : Option ℕ
  outq : Outq
  othermux : Option ℕ
  ctlStrm : Option ℕ
  muxid : ℤ
  minorDev : ℕ
  deriving DecidableEq, Repr

/- What a call comes to: its result, the device of an open, the answer to an ioctl, the queue that a message is sent
on to, a message that is freed. -/
inductive Reply
  | ret (err : ℤ)
  | opened (dev : ℕ)
  | ack
  | nak (err : ℤ)
  | forward (q : Outq)
  | freed
  deriving DecidableEq, Repr

/- `upper` and `lower` are the `q_ptr` of the queues, `out` the replies up to now. -/
structure Driver where
  heap : ℕ → Option Entry
  brk : ℕ
  muxHead : Option ℕ
  muxMinors : ℕ → Bool
  upper : ℕ → Option ℕ
  lower : ℕ → Option ℕ
  out : List Reply

/- The ioctls, with their `linkblk` or their argument, if there is one of the right size. -/
inductive Icmd
  | link (lk : Option (ℤ × ℕ)) (mem : Bool)
  | unlink (lk : Option ℤ)
  | up (lIndex : Option ℤ)
  | down (lIndex : Option ℤ)
  | other

inductive Op
  | opens (q : ℕ) (clone : Bool) (minor : ℕ) (mem : Bool)
  | ioctl (q : ℕ) (cmd : Icmd)
  | close (q : ℕ)
  | wput (q : ℕ)
  | lrput (l : ℕ)

/- The first minor that is not in use (`minimux.c:245-249`). -/
def firstMinor (minors : ℕ → Bool) : ℕ :=
  (((List.range (MAXMUX - 1)).map Nat.succ).find? fun dev => !minors dev).getD MAXMUX

namespace Driver

variable (s : Driver)

def reply (r : Reply) : Driver := { s with out := s.out ++ [r] }

def modify (a : ℕ) (f : Entry → Entry) : Option Driver :=
  (s.heap a).map fun e => { s with heap := Function.update s.heap a (some (f e)) }

/- `q_ptr` of both queues. -/
def setPtr (q : Outq) (p : Option ℕ) : Driver :=
  match q with
  | .rd q => { s with upper := Function.update s.upper q p }
  | .wr l => { s with lower := Function.update s.lower l p }

/-- `new_mux` with the fields that its caller sets (`minimux.c:212-227`). -/
def newMux (e : Entry) : Driver :=
  { s with
    heap := Function.update s.heap s.brk (some { e with list := s.muxHead })
    brk := s.brk + 1
    muxHead := some s.brk }

/-- `mux_open` (`minimux.c:236-276`) -/
def muxOpen (q : ℕ) (clone : Bool) (minor : ℕ) (mem : Bool) : Driver :=
  let dev := if clone then firstMinor s.muxMinors else minor
  if MAXMUX ≤ dev then s.reply (.ret OPENFAIL)
  else
    let s := { s with muxMinors := Function.update s.muxMinors dev true }
    if (s.upper q).isSome then s.reply (.opened dev)
    else if mem then
      let muxp := s.brk
      ((s.newMux ⟨none,.rd q,none,none,0,dev⟩).setPtr (.rd q) (some muxp)).reply (.opened dev)
    else s.reply (.ret ENOMEM)

/- The search for an entry, which also says which one is before it on the list. -/
def find (test : ℕ → Entry → Bool) : Option (Option (Option ℕ × ℕ)) :=
  search (fun a => (s.heap a).map fun e => (test a e,e.list)) (s.brk + 1) s.muxHead none

/- It is linked around. -/
def around (prev : Option ℕ) (list : Option ℕ) : Option Driver :=
  match prev with
  | none => some { s with muxHead := list }
  | some p => s.modify p fun e => { e with list := list }

/- `if (muxp->othermux != NULL && muxp->othermux->othermux == muxp) muxp->othermux->othermux = NULL` -/
def detach (muxp : ℕ) : Option Driver := do
  let e ← s.heap muxp
  match e.othermux with
  | none => some s
  | some o => do
      let other ← s.heap o
      if other.othermux = some muxp then s.modify o fun x => { x with othermux := none } else some s

def free (a : ℕ) : Driver := { s with heap := Function.update s.heap a none }

/- The lower entry with the mux id, of a control stream. -/
def findLower (muxp : ℕ) (lIndex : ℤ) : Option (Option (Option ℕ × ℕ)) :=
  s.find fun _ e => e.ctlStrm == some muxp && e.muxid == lIndex

/-- `mux_ioctl` up to its answer (`minimux.c:290-438`). -/
def muxIoctl (muxp : ℕ) : Icmd → Option (Reply × Driver)
  | .link none _ => some (.nak EINVAL,s)
  | .link (some lk) mem =>
      if mem then do
        let lwr := s.brk
        let s ← (s.newMux ⟨none,.wr lk.2,some muxp,some muxp,lk.1,0⟩).modify muxp
          fun e => { e with othermux := some lwr }
        some (.ack,s.setPtr (.wr lk.2) (some lwr))
      else some (.nak ENOMEM,s)
  | .unlink none => some (.nak EINVAL,s)
  | .unlink (some lIndex) => do
      match ← s.findLower muxp lIndex with
      | none => some (.nak EINVAL,s)
      | some (prev,lwr) => do
          let s ← s.around prev (← s.heap lwr).list
          let s ← s.detach lwr
          let s ← s.modify muxp fun e => if e.othermux = some lwr then { e with othermux := none } else e
          let s := s.setPtr (← s.heap lwr).outq none
          some (.ack,s.free lwr)
  | .up none => some (.nak EINVAL,s)
  | .up (some lIndex) => do
      match ← s.findLower muxp lIndex with
      | none => some (.nak EINVAL,s)
      | some (_,lwr) => (s.modify lwr fun e => { e with othermux := some muxp }).map fun s => (.ack,s)
  | .down none => some (.nak EINVAL,s)
  | .down (some lIndex) => do
      match ← s.findLower muxp lIndex with
      | none => some (.nak EINVAL,s)
      | some (_,lwr) => (s.modify muxp fun e => { e with othermux := some lwr }).map fun s => (.ack,s)
  | .other => some (.nak EINVAL,s)

/-- `mux_close` (`minimux.c:560-607`) -/
def muxClose (q : ℕ) : Option Driver :=
  match s.upper q with
  | none => some (s.reply (.ret 0))
  | some ptr => do
      match ← s.find fun a _ => a == ptr with
      | none => some (s.reply (.ret 0))
      | some (prev,muxp) => do
          let s ← s.around prev (← s.heap muxp).list
          let s ← s.detach muxp
          let e ← s.heap muxp
          let s := (s.setPtr e.outq none).setPtr (.rd q) none
          let s := { s with muxMinors := Function.update s.muxMinors e.minorDev false }
          some ((s.free muxp).reply (.ret 0))

/- The queue that a message of the entry goes to, that of the other stream, or back to its own one. -/
def forwardq (muxp : ℕ) : Option Outq := do
  let e ← s.heap muxp
  match e.othermux with
  | none => some e.outq
  | some o => (s.heap o).map fun x => x.outq

/- A message that is not an ioctl, and an ioctl, for `mux_wput` (`minimux.c:448-499`); a message from below for
`mux_lrput` (`minimux.c:617-675`). -/
def put (ptr : Option ℕ) : Option Driver :=
  match ptr with
  | none => some (s.reply .freed)
  | some muxp => (s.forwardq muxp).map fun q => s.reply (.forward q)

end Driver

/- A call. The answer to an ioctl goes to `muxp->outq`. -/
def step (s : Driver) : Op → Option Driver
  | .opens q clone minor mem => some (s.muxOpen q clone minor mem)
  | .ioctl q cmd =>
      match s.upper q with
      | none => some (s.reply .freed)
      | some muxp => do
          let _ ← s.forwardq muxp
          let (r,s) ← s.muxIoctl muxp cmd
          let _ ← s.heap muxp
          some (s.reply r)
  | .close q => s.muxClose q
  | .wput q => s.put (s.upper q)
  | .lrput l => s.put (s.lower l)

def Driver.init : Driver := ⟨fun _ => none,0,none,fun _ => false,fun _ => none,fun _ => none,[]⟩

end CSLiS.Minimux
