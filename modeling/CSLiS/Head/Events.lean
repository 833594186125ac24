import Mathlib

/-!
# The processes that asked for signals (head/events.c, head/head.c)

`sd_siglist` points to a dummy node, NULL before the first registration. The nodes of the
processes are linked in a circle with it, by ascending pid. A routine has no result when it
follows a pointer that is NULL or to a node that was freed. Memory that was freed is not
handed out again, so that such a pointer is told from others.
-/

namespace CSLiS.Head

/- Events (stropts.h:157-169). -/
def S_INPUT : BitVec 16 := 0x0001
def S_HIPRI : BitVec 16 := 0x0002
def S_OUTPUT : BitVec 16 := 0x0004
def S_MSG : BitVec 16 := 0x0008
def S_ERROR : BitVec 16 := 0x0010
def S_HANGUP : BitVec 16 := 0x0020
def S_RDNORM : BitVec 16 := 0x0040
def S_RDBAND : BitVec 16 := 0x0080
def S_WRBAND : BitVec 16 := 0x0100
def S_BANDURG : BitVec 16 := 0x0200
def S_ALL : BitVec 16 := 0x03FF

/-- `F_ISSET` -/
def fIsset (flags e : BitVec 16) : Bool := flags &&& e != 0

inductive Signal
  | sigpoll
  | sigurg
  deriving DecidableEq, Repr

def SIGPOLL : ℕ := 29

structure Strevent where
  seNext : ℕ
  sePrev : ℕ
  sePid : ℕ
  seEvs : BitVec 16
  deriving DecidableEq, Repr

/- NULL is 0. From `brk` on nothing was handed out yet. -/
structure Kmem where
  node : ℕ → Option Strevent
  brk : ℕ

namespace Kmem

variable (s : Kmem)

def fresh : Kmem := ⟨fun _ => none,1⟩

def set (a : ℕ) (e : Strevent) : Kmem := { s with node := Function.update s.node a (some e) }
def free (a : ℕ) : Kmem := { s with node := Function.update s.node a none }

/- A field of a node is set through a pointer to it. -/
def modify (a : ℕ) (f : Strevent → Strevent) : Option Kmem := (s.node a).map fun e => s.set a (f e)

/-- `ALLOCF` when it succeeds. -/
def allocf (e : Strevent) : Kmem := { (s.set s.brk e) with brk := s.brk + 1 }

/-- The search of `events.c:106-110`, which ends at the dummy node or at the first pid that is
not below the one searched for. -/
def search (list pid : ℕ) : ℕ → ℕ → Option ℕ
  | 0, _ => none
  | n + 1, ev =>
      if ev = list then some ev
      else (s.node ev).bind fun e => if e.sePid < pid then search list pid n e.seNext else some ev

/-- `search` from the first node, if there is a list; else NULL. No circle has more nodes than
were handed out. -/
def searchList (list pid : ℕ) : Option ℕ :=
  if list = 0 then some 0 else (s.node list).bind fun e => s.search list pid s.brk e.seNext

/- The node at `a` is linked in before another one (`events.c:129-134` and `143-149`). -/
def link (a before pid : ℕ) (events : BitVec 16) : Option Kmem :=
  (s.node before).bind fun e =>
    ((s.set a ⟨before,e.sePrev,pid,events⟩).modify e.sePrev fun p => { p with seNext := a }).bind fun s =>
      s.modify before fun n => { n with sePrev := a }

/-- `lis_add_to_elist` (`events.c:99-153`): whether it succeeds, the list, and the memory. The
outcomes of its two calls of `ALLOCF` are parameters. -/
def lisAddToElist (list pid : ℕ) (events : BitVec 16) (ok okHead : Bool) : Option (Bool × ℕ × Kmem) :=
  (s.searchList list pid).bind fun ev =>
    if ev = list then
      if !ok then some (false,list,s)
      else if list ≠ 0 then
        ((s.allocf ⟨0,0,0,0⟩).link s.brk list pid events).map fun t => (true,list,t)
      else
        let t := s.allocf ⟨0,0,0,0⟩
        if !okHead then some (false,list,t.free s.brk)
        else ((t.allocf ⟨t.brk,t.brk,0,0⟩).link s.brk t.brk pid events).map fun u => (true,t.brk,u)
    else (s.node ev).bind fun e =>
      if e.sePid ≠ pid then
        if !ok then some (false,list,s)
        else ((s.allocf ⟨0,0,0,0⟩).link s.brk ev pid events).map fun t => (true,list,t)
      else some (true,list,s.set ev { e with seEvs := e.seEvs ||| events })

/- A node is linked around and freed. Its pointers are tested for NULL. -/
def unlink (ev : ℕ) (e : Strevent) : Option Kmem :=
  (if e.seNext = 0 then some s else s.modify e.seNext fun n => { n with sePrev := e.sePrev }).bind fun s =>
    (if e.sePrev = 0 then some s else s.modify e.sePrev fun p => { p with seNext := e.seNext }).map fun s =>
      s.free ev

/-- `lis_del_from_elist` (`events.c:160-184`): whether the process was in the list. -/
def lisDelFromElist (list pid : ℕ) (events : BitVec 16) : Option (Bool × Kmem) :=
  (s.searchList list pid).bind fun ev =>
    if ev = list then some (false,s)
    else (s.node ev).bind fun e =>
      if e.sePid ≠ pid then some (false,s)
      else
        let evs := e.seEvs &&& ~~~events
        let s := s.set ev { e with seEvs := evs }
        if evs = 0 then (s.unlink ev e).map fun s => (true,s) else some (true,s)

/-- The loop of `lis_free_elist` (`events.c:195-201`). -/
def freeNodes (list : ℕ) : ℕ → ℕ → Kmem → Option Kmem
  | 0, _, _ => none
  | n + 1, ev, s =>
      (s.node ev).bind fun e =>
        if e.seNext = list ∨ e.seNext = 0 then some (s.free ev) else freeNodes list n e.seNext (s.free ev)

def lisFreeElist (list : ℕ) : Option Kmem := if list = 0 then some s else freeNodes list s.brk list s

/- The signals for one process (`head.c:2735-2766`). -/
def sends (e evs : BitVec 16) : List Signal :=
  if fIsset evs e then
    if fIsset evs S_BANDURG && fIsset evs S_RDBAND then
      if fIsset (evs &&& e) (~~~S_RDBAND) then [.sigurg,.sigpoll] else [.sigurg]
    else [.sigpoll]
  else []

/-- The loop of `kill_procs` (`head.c:2734-2767`). -/
def killNodes (elist : ℕ) (e : BitVec 16) : ℕ → ℕ → Option (List (ℕ × Signal))
  | 0, _ => none
  | n + 1, ev =>
      if ev = elist then some []
      else (s.node ev).bind fun v =>
        (killNodes elist e n v.seNext).map fun l => (sends e v.seEvs).map (Prod.mk v.sePid) ++ l

/-- `kill_procs`: the signals it sends. -/
def killProcs (elist : ℕ) (e : BitVec 16) : Option (List (ℕ × Signal)) :=
  (s.node elist).bind fun hd => s.killNodes elist e s.brk hd.seNext

end Kmem

end CSLiS.Head
