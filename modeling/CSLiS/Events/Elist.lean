import CSLiS.Lib.Exec

/-!
# Lists of signal events (head/events.c)

The processes that want signals of a stream are on a circular list with a dummy node, sorted by process id. Nodes are
found by their address, 0 is NULL. A step that follows a pointer to no node has no result.
-/

namespace CSLiS.Events
open Lib.Exec

def ENOMEM : ℤ := 12

/- `strevent_t` -/
structure Strevent where
  seNext : ℕ
  sePrev : ℕ
  sePid : ℤ
  seEvs : BitVec 16
  deriving DecidableEq, Repr

/- The nodes, the pointer to the dummy node, and how many nodes there are. -/
structure Elist where
  mem : ℕ → Option Strevent
  list : ℕ
  live : ℕ

namespace Elist

def put (s : Elist) (a : ℕ) (f : Strevent → Strevent) : Option Elist :=
  (s.mem a).map fun e => { s with mem := Function.update s.mem a (some (f e)) }

/- A new node has any contents. -/
def alloc (s : Elist) (a : ℕ) (e : Strevent) : Elist :=
  { s with mem := Function.update s.mem a (some e), live := s.live + 1 }

def free (s : Elist) (a : ℕ) : Elist := { s with mem := Function.update s.mem a none, live := s.live - 1 }

/- The loop of all three functions. It passes every node once at most, so that `live` steps are enough. -/
def walk (s : Elist) (pid : ℤ) : ℕ → ℕ → Option ℕ
  | 0, _ => none
  | fuel + 1, ev =>
      if ev = s.list then some ev
      else (s.mem ev).bind fun e => if e.sePid < pid then s.walk pid fuel e.seNext else some ev

def find (s : Elist) (pid : ℤ) : Option ℕ := (s.mem s.list).bind fun hd => s.walk pid s.live hd.seNext

/-- `events.c:79-94` -/
def lisGetElistEnt (s : Elist) (pid : ℤ) : Option (BitVec 16) :=
  if s.list = 0 then some 0
  else (s.find pid).bind fun ev =>
    if ev = s.list then some 0 else (s.mem ev).map fun e => if e.sePid = pid then e.seEvs else 0

/- `a` is linked in before `ev`, and gets its first events. In the middle of the list the links are set in another
order. -/
def linkNew (s : Elist) (a ev : ℕ) (pid : ℤ) (events : BitVec 16) : Option Elist := do
  let e ← s.mem ev
  let t ← s.put a fun x => { x with sePrev := e.sePrev }
  let t ← t.put e.sePrev fun x => { x with seNext := a }
  let t ← t.put ev fun x => { x with sePrev := a }
  let t ← t.put a fun x => { x with seNext := ev }
  let t ← t.put a fun x => { x with sePid := pid, seEvs := 0 }
  t.put a fun x => { x with seEvs := x.seEvs ||| events }

/-- `events.c:96-152`; `a` and `hd` are what ALLOCF gives, the second for the dummy node. -/
def lisAddToElist (s : Elist) (pid : ℤ) (events : BitVec 16) (a hd : ℕ) (junk : Strevent) : Option (ℤ × Elist) :=
  if s.list = 0 then
    if a = 0 then some (- ENOMEM,s)
    else if hd = 0 then some (- ENOMEM,(s.alloc a junk).free a)
    else
      let t := (s.alloc a junk).alloc hd { junk with sePid := 0, seNext := hd, sePrev := hd }
      ({ t with list := hd }.linkNew a hd pid events).map fun t => (0,t)
  else (s.find pid).bind fun ev =>
    if ev = s.list then
      if a = 0 then some (- ENOMEM,s) else ((s.alloc a junk).linkNew a s.list pid events).map fun t => (0,t)
    else (s.mem ev).bind fun e =>
      if e.sePid ≠ pid then
        if a = 0 then some (- ENOMEM,s) else ((s.alloc a junk).linkNew a ev pid events).map fun t => (0,t)
      else (s.put ev fun x => { x with seEvs := x.seEvs ||| events }).map fun t => (0,t)

/- The node is taken out of the list. -/
def unlink (s : Elist) (ev : ℕ) : Option Elist := do
  let e ← s.mem ev
  let t ← if e.seNext ≠ 0 then s.put e.seNext fun x => { x with sePrev := e.sePrev } else some s
  let t ← if e.sePrev ≠ 0 then t.put e.sePrev fun x => { x with seNext := e.seNext } else some t
  some (t.free ev)

/-- `events.c:154-184` -/
def lisDelFromElist (s : Elist) (pid : ℤ) (events : BitVec 16) : Option (ℤ × Elist) :=
  if s.list = 0 then some (1,s)
  else (s.find pid).bind fun ev =>
    if ev = s.list then some (1,s)
    else (s.mem ev).bind fun e =>
      if e.sePid ≠ pid then some (1,s)
      else (s.put ev fun x => { x with seEvs := x.seEvs &&& ~~~events }).bind fun t =>
        if e.seEvs &&& ~~~events = 0 then (t.unlink ev).map fun t => (0,t) else some (0,t)

inductive Call where
  | get (pid : ℤ)
  | add (pid : ℤ) (events : BitVec 16) (a hd : ℕ) (junk : Strevent)
  | del (pid : ℤ) (events : BitVec 16)

/- What ALLOCF gives is NULL or not in use. -/
def Fresh (s : Elist) (a hd : ℕ) : Prop := (s.mem a).isNone ∧ (s.mem hd).isNone ∧ (a = hd → a = 0)

instance (s : Elist) (a hd : ℕ) : Decidable (s.Fresh a hd) := inferInstanceAs (Decidable (_ ∧ _ ∧ _))

/- What a call returns, and the list after it. -/
def call (s : Elist) : Call → Option (ℤ × Elist)
  | .get pid => (s.lisGetElistEnt pid).map fun evs => (evs.toInt,s)
  | .add pid events a hd junk => s.lisAddToElist pid events a hd junk
  | .del pid events => s.lisDelFromElist pid events

def step (s : Elist) (c : Call) : Option Elist := (s.call c).map Prod.snd

/- The calls that can be made. -/
def Allowed (s : Elist) : Call → Prop
  | .add _ _ a hd _ => s.Fresh a hd
  | _ => True

/- No list yet. -/
def start : Elist := ⟨fun _ => none,0,0⟩

/- The events that a process has asked for, by the calls that succeed. -/
def Call.apply (m : ℤ → BitVec 16) : Call → ℤ → BitVec 16
  | .get _ => m
  | .add pid events .. => Function.update m pid (m pid ||| events)
  | .del pid events => Function.update m pid (m pid &&& ~~~events)

def masks (s : Elist) : List Call → (ℤ → BitVec 16) → ℤ → BitVec 16
  | [], m => m
  | c :: cs, m =>
      match s.call c with
      | none => m
      | some (ret,t) => t.masks cs (if ret = 0 then c.apply m else m)

end Elist

end CSLiS.Events
