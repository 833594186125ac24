import CSLiS.Queue.FlushOnce
import CSLiS.Queue.FlushWishes

/-!
# An M_FLUSH in a pipe (drivers/str/pipemod.c, head/head.c)

The write queue at the bottom of each of the two streams leads to the read queue at the bottom of the other one;
`pipemod` is the last module of stream `a`. The other modules flush their queues as the message says and pass it on. No
read is under way at a stream head and neither is closing, so that `lis_strrput` flushes at once.
-/

namespace CSLiS.Stream.PipeFlush
open Queue

def FLUSHR : BitVec 8 := 1
def FLUSHW : BitVec 8 := 2
def FLUSHRW : BitVec 8 := 3
def FLUSHBAND : BitVec 8 := 4

/- `b_rptr[0]`, `b_rptr[1]` and MSGNOLOOP. -/
structure Mflush where
  flags : BitVec 8
  band : Uchar
  noloop : Bool
  deriving DecidableEq, Repr

inductive End
  | a
  | b
  deriving DecidableEq, Repr

inductive Side
  | rd
  | wr
  deriving DecidableEq, Repr

/- A queue pair; `n` is how many modules but `pipemod` there are on each stream, the first one below the head. -/
inductive Qpair (n : End → ℕ)
  | head (e : End)
  | mod (e : End) (i : Fin (n e))
  | pipemod
  deriving DecidableEq

structure Pipe (n : End → ℕ) where
  queue : Qpair n → Side → ListQueue
  rput : End → List Msg
  freed : ℕ

def End.other : End → End
  | .a => .b
  | .b => .a

def Side.other : Side → Side
  | .rd => .wr
  | .wr => .rd

def Side.bit : Side → BitVec 8
  | .rd => FLUSHR
  | .wr => FLUSHW

/- What `flush_module` makes of the flags where the stream turns round. -/
def switchFlags (flags : BitVec 8) : BitVec 8 :=
  let flush := flags &&& FLUSHRW
  if flush = FLUSHR ∨ flush = FLUSHW then (flush &&& ~~~FLUSHRW) ||| (flush ^^^ FLUSHRW) else flags

namespace Mflush

variable (mp : Mflush)

def has (bit : BitVec 8) : Bool := mp.flags &&& bit != 0

def switch : Mflush := { mp with flags := switchFlags mp.flags }

end Mflush

variable {n : End → ℕ} (alloc : Msg → Bool) (back : List BackQ)

namespace Pipe

/- `lis_flushband` or `lis_flushq`, with FLUSHDATA. -/
def flushBy (x : Qpair n) (sd : Side) (mp : Mflush) (s : Pipe n) : Pipe n :=
  let band : ℤ := if mp.has FLUSHBAND then mp.band else -1
  let q := ((s.queue x sd).flushWorkerFreeing alloc band false back).1
  { s with queue := Function.update s.queue x (Function.update (s.queue x) sd q) }

/-- `pipemod.c:183-211`, up to the `putnext`; `same` is what `SAMESTR` answers. -/
def flushModule (x : Qpair n) (same : Bool) (mp : Mflush) (s : Pipe n) : Mflush × Pipe n :=
  let s := if mp.has FLUSHW then s.flushBy alloc back x .wr mp else s
  let s := if mp.has FLUSHR then s.flushBy alloc back x .rd mp else s
  (if same then mp else mp.switch,s)

/-- `head.c:2891-2985`: the message when it is sent back downstream. -/
def lisHeadFlush (e : End) (mp : Mflush) (s : Pipe n) : Option Mflush × Pipe n :=
  let s := if mp.has FLUSHR then
      flushBy alloc back (.head e) .rd mp { s with rput := Function.update s.rput e [] }
    else s
  let mp := if mp.has FLUSHR then { mp with flags := mp.flags &&& ~~~FLUSHR } else mp
  if mp.has FLUSHW then
    let s := s.flushBy alloc back (.head e) .wr mp
    if mp.noloop then (none,{ s with freed := s.freed + 1 })
    else (some { mp with noloop := true },s)
  else (none,{ s with freed := s.freed + 1 })

end Pipe

/- The pairs of the modules of a stream, from the top, none of them at the midpoint. -/
def mods (n : End → ℕ) (e : End) : List (Qpair n × Bool) := (List.finRange (n e)).map fun i => (.mod e i,true)

/- The pairs that a message comes to between the stream heads; only the write queue of `pipemod` leads to the other
stream. -/
def route (n : End → ℕ) : End → List (Qpair n × Bool)
  | .a => mods n .a ++ (.pipemod,false) :: (mods n .b).reverse
  | .b => mods n .b ++ (.pipemod,true) :: (mods n .a).reverse

def pass : List (Qpair n × Bool) → Mflush → Pipe n → Mflush × Pipe n
  | [], mp, s => (mp,s)
  | (x,same) :: l, mp, s =>
      let r := s.flushModule alloc back x same mp
      pass l r.1 r.2

def Qpair.stream : Qpair n → End
  | .head e => e
  | .mod e _ => e
  | .pipemod => .a

/- Seen from `e`, FLUSHW names the messages that travel away from it and FLUSHR those that travel towards it. -/
def named (e : End) (mp : Mflush) (x : Qpair n) (sd : Side) : Bool :=
  mp.has (if x.stream = e then sd.bit else sd.other.bit)

/- The messages that the flush of a queue takes. -/
def Mflush.takes (mp : Mflush) (m : Msg) : Bool :=
  flushes (if mp.has FLUSHBAND then mp.band else -1) false m.info

/- The message where it is sent back from a stream head. -/
def Mflush.returned (mp : Mflush) : Mflush := { mp with flags := mp.flags &&& ~~~FLUSHR, noloop := true }

/- From stream `a` the message reaches stream `b` switched, and comes back as it was there. From stream `b` it reaches
stream `a` as it was sent and is switched on the way back. -/
def taken (e : End) (mp : Mflush) (x : Qpair n) (sd : Side) (m : Msg) : Bool :=
  match e, x with
  | .a, .head .a => sd == .wr && mp.has FLUSHR && mp.switch.takes m
  | .a, .head .b => named .a mp x sd && mp.switch.takes m
  | .a, .mod .b _ => named .a mp x sd && mp.switch.takes m
  | .a, _ => (named .a mp x sd && mp.takes m) || (sd == .wr && mp.has FLUSHR && mp.switch.takes m)
  | .b, .head .b => sd == .rd && mp.has FLUSHW && lisDatamsg m.info.dbType
  | .b, .mod .b _ =>
      (named .b mp x sd && mp.takes m) || (sd == .rd && mp.has FLUSHW && lisDatamsg m.info.dbType)
  | .b, _ => mp.has sd.bit && mp.takes m

/- An open queue with nothing deferred, as `lis_putq` leaves it: in order, and only the first message may be of high
priority and have a band. -/
structure Live (q : ListQueue) : Prop where
  shut : q.core.qFlag.shut = false
  defer : q.defer = []
  ordered : Ordered Msg.info q.msgs
  tail : ∀ m ∈ q.msgs.tail, m.cleared = m

/-! ### A flush of one queue -/

section Flush

variable {alloc back} {band : ℤ} {q : ListQueue} {l : List Msg}

end Flush

/-! ### The flags -/

theorem switchFlags_has (f : BitVec 8) : (switchFlags f &&& FLUSHR != 0) = (f &&& FLUSHW != 0) ∧
    (switchFlags f &&& FLUSHW != 0) = (f &&& FLUSHR != 0) ∧ (switchFlags f &&& FLUSHBAND != 0) =
      ((f &&& FLUSHBAND != 0) && ((f &&& FLUSHR != 0) == (f &&& FLUSHW != 0))) := by
  revert f
  decide +kernel

theorem clearR_has (f : BitVec 8) : (f &&& ~~~FLUSHR &&& FLUSHR != 0) = false ∧
    (f &&& ~~~FLUSHR &&& FLUSHW != 0) = (f &&& FLUSHW != 0) ∧
    (f &&& ~~~FLUSHR &&& FLUSHBAND != 0) = (f &&& FLUSHBAND != 0) ∧
    ((f &&& FLUSHR != 0) = false → f &&& ~~~FLUSHR = f) := by
  revert f
  decide +kernel

namespace Mflush

variable (mp : Mflush)

@[simp] theorem switch_rd : mp.switch.has FLUSHR = mp.has FLUSHW := (switchFlags_has mp.flags).1
@[simp] theorem switch_band : mp.switch.has FLUSHBAND = (mp.has FLUSHBAND && (mp.has FLUSHR == mp.has FLUSHW)) :=
  (switchFlags_has mp.flags).2.2

@[simp] theorem returned_rd : mp.returned.has FLUSHR = false := (clearR_has mp.flags).1
@[simp] theorem returned_wr : mp.returned.has FLUSHW = mp.has FLUSHW := (clearR_has mp.flags).2.1
@[simp] theorem returned_band : mp.returned.has FLUSHBAND = mp.has FLUSHBAND := (clearR_has mp.flags).2.2.1

theorem takes_congr {mp mp' : Mflush} (hb : mp'.has FLUSHBAND = mp.has FLUSHBAND) (hband : mp'.band = mp.band)
    (m : Msg) : mp'.takes m = mp.takes m := by
  rw [takes,takes,hb,hband]

@[simp] theorem returned_takes (m : Msg) : mp.returned.takes m = mp.takes m := takes_congr (returned_band mp) rfl m

end Mflush

/-! ### What a part of the way does -/

/- The lists without the messages of `P`, the lists `sd_rput` of `R` emptied, and `k` times the message freed. -/
structure Effect (P : Qpair n → Side → Msg → Bool) (R : End → Bool) (k : ℕ) (s t : Pipe n) : Prop where
  live : ∀ x sd, Live (t.queue x sd)
  msgs : ∀ x sd, (t.queue x sd).msgs = (s.queue x sd).msgs.filter fun m => !P x sd m
  rput : ∀ h, t.rput h = if R h then [] else s.rput h
  freed : t.freed = s.freed + k

section Effect

variable {alloc back} {P Q : Qpair n → Side → Msg → Bool} {R T : End → Bool} {k j : ℕ} {s t u : Pipe n} {mp : Mflush}

theorem Effect.trans (h : Effect P R k s t) (h' : Effect Q T j t u) :
    Effect (fun x sd m => P x sd m || Q x sd m) (fun e => R e || T e) (k + j) s u where
  live := h'.live
  msgs x sd := by
    rw [h'.msgs,h.msgs,List.filter_filter]
    refine List.filter_congr fun m _ => ?_
    cases P x sd m <;> cases Q x sd m <;> rfl
  rput e := by
    rw [h'.rput,h.rput]
    cases R e <;> cases T e <;> rfl
  freed := by rw [h'.freed,h.freed,Nat.add_assoc]

theorem Effect.congr (h : Effect P R k s t) (hP : ∀ x sd m, P x sd m = Q x sd m) (hR : ∀ e, R e = T e) :
    Effect Q T k s t := by
  have hP : P = Q := funext fun x => funext fun sd => funext fun m => hP x sd m
  have hR : R = T := funext hR
  exact hP ▸ hR ▸ h

end Effect

/-! ### Every flush -/

def held (m : Msg) : ListQueue := (ListQueue.empty {} 8 4 true).lisPutq (fun _ => true) m

def holding (x : Qpair fun _ => 1) (sd : Side) (m : Msg) : Pipe fun _ => 1 where
  queue y sd' := if y = x ∧ sd' = sd then held m else .empty {} 8 4 true
  rput _ := []
  freed := 0

end CSLiS.Stream.PipeFlush
