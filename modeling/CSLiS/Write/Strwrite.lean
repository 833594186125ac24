import CSLiS.Buffer.Mdbblock
import CSLiS.Lib.Crew

/-!
# Writing to a stream (head/head.c, head/stream.c)

With STRHOLD `lis_strwrite` leaves a message in `sd_wmsg` for the next writer to fill up. Writers do
this with `sd_write_sem` down. A timer puts the queue on the scan list, and the queue runner sends what
it finds in `sd_wmsg`, with the queue locked. Steps are the sections between the locks and semaphores.

A byte goes with the number of the task that wrote it, a block with a number that is not used again.
-/

namespace CSLiS.Write
open Buffer Lib.Crew Queue

def LIS_MAXPSZ : ℕ := 4096
def LIS_MINPSZ : ℕ := 0
def ENOMEM : ℤ := 12

/- An int as a size_t. -/
def sizeT (n : ℤ) : ℕ := (n % 2 ^ 64).toNat

/- `room` is `db_lim - b_wptr`. -/
structure Wblk where
  data : List (ℕ × Uchar)
  room : ℤ
  deriving DecidableEq, Repr

/- `passed` are the messages given to `lis_putnext`, each with the data it had then. -/
structure Wmsgs where
  wmsg : Option ℕ
  blk : ℕ → Wblk
  next : ℕ
  passed : List (ℕ × List (ℕ × Uchar))

namespace Wmsgs

variable (m : Wmsgs)

def init : Wmsgs := ⟨none,fun _ => ⟨[],0⟩,0,[]⟩

/- `held = hd->sd_wmsg = allocb(..)` -/
def alloc (room : ℤ) : Wmsgs :=
  { m with wmsg := some m.next, blk := Function.update m.blk m.next ⟨[],room⟩, next := m.next + 1 }

def append (b : ℕ) (bytes : List (ℕ × Uchar)) : Wmsgs :=
  { m with blk := Function.update m.blk b ⟨(m.blk b).data ++ bytes,(m.blk b).room - bytes.length⟩ }

/-- `lis_putnext` of `sd_wmsg`. NULL is only logged (`safe.c:222-230`). -/
def putnext : Wmsgs :=
  match m.wmsg with
  | none => m
  | some b => { m with passed := m.passed ++ [(b,(m.blk b).data)] }

def clear : Wmsgs := { m with wmsg := none }

end Wmsgs

/- A call of `lis_strwrite`. `off` is how far `ubuff` has moved, `written` is an int. -/
structure Wcall where
  buf : List Uchar
  off : ℕ
  written : ℤ
  deriving DecidableEq, Repr

namespace Wcall

variable (c : Wcall)

def chunk : ℕ := min LIS_MAXPSZ (sizeT (c.buf.length - c.written))

def bytes : List Uchar := (c.buf.drop c.off).take c.chunk

def advance : Wcall := ⟨c.buf,c.off + c.chunk,(c.written + c.chunk).bmod (2 ^ 32)⟩

end Wcall

/- Where a task is in `lis_strwrite`: with the semaphore down `alloc` has found `sd_wmsg` NULL, `fill`
has found or made `held`, `full` is to cancel the timer, `send` to pass the message on, `sent` to
clear `sd_wmsg`. -/
inductive Wplace
  | idle
  | top (c : Wcall)
  | alloc (c : Wcall)
  | fill (c : Wcall) (held : ℕ) (newmsg : Bool)
  | full (c : Wcall)
  | send (c : Wcall)
  | sent (c : Wcall)
  deriving DecidableEq, Repr

/- The semaphore is down. -/
def Wplace.isInside : Wplace → Bool
  | .idle | .top _ => false
  | _ => true

def Wplace.isSent : Wplace → Bool
  | .sent _ => true
  | _ => false

def Wplace.call : Wplace → Option Wcall
  | .idle => none
  | .top c | .alloc c | .fill c _ _ | .full c | .send c | .sent c => some c

/- `reported` are the bytes of all calls that have returned, as far as they were reported written. -/
structure Writer where
  place : Wplace
  reported : List Uchar
  deriving DecidableEq, Repr

/- A queue runner: it has taken the queue off the scan list, cleared `QSCAN`, sent `sd_wmsg`. -/
inductive Runner
  | idle
  | off
  | free (procsoff : Bool)
  | passed
  deriving DecidableEq, Repr

def Runner.isPassed : Runner → Bool
  | .passed => true
  | _ => false

/- `expired` and `flagged` are the timers between two locks of `add_to_scanl`. -/
structure WriteHead where
  msgs : Wmsgs
  writeSem : ℕ
  scantimer : Bool
  qscan : Bool
  expired : ℕ
  flagged : ℕ
  scanl : ℕ
  writers : List Writer
  runners : List Runner

inductive Wact
  | write (i : ℕ) (buf : List Uchar) (sndzero : Bool)
  | refuse (i : ℕ) (err : ℤ)
  | down (i : ℕ)
  | alloc (i : ℕ) (ok : Bool) (wroff wroff' : ℕ)
  | fill (i : ℕ) (err : ℤ) (holding : Bool)
  | untimeout (i : ℕ)
  | putnext (i : ℕ)
  | clear (i : ℕ)
  | expire
  | flag (procsoff : Bool)
  | scan
  | take (k : ℕ)
  | unflag (k : ℕ) (procsoff : Bool)
  | pass (k : ℕ) (ret : ℤ)
  | done (k : ℕ)

namespace WriteHead

variable (s : WriteHead)

def init (n k : ℕ) : WriteHead :=
  ⟨Wmsgs.init,1,false,false,0,0,0,List.replicate n ⟨.idle,[]⟩,List.replicate k .idle⟩

/- The task goes to a place, with `r` reported so far. -/
def move (i : ℕ) (r : List Uchar) (p : Wplace) : WriteHead := { s with writers := s.writers.set i ⟨p,r⟩ }

def lisUp : WriteHead := { s with writeSem := s.writeSem + 1 }

/- `RTN(e)` -/
def rtn (i : ℕ) (r : List Uchar) (c : Wcall) (e : ℤ) : WriteHead :=
  s.move i (r ++ c.buf.take e.toNat) .idle

def run (k : ℕ) (r : Runner) : WriteHead := { s with runners := s.runners.set k r }

/- With `newmsg`. A timer that is running is left alone. -/
def startScanlTimer (newmsg : Bool) : WriteHead := { s with scantimer := s.scantimer || newmsg }

/-- From `lis_copyin` to the end of the hold (`head.c:5446-5471`). -/
def fillHeld (i : ℕ) (r : List Uchar) (c : Wcall) (held : ℕ) (newmsg : Bool) (err : ℤ) (holding : Bool) :
    WriteHead :=
  if c.chunk ≤ (s.msgs.blk held).room then
    if err < 0 then s.lisUp.rtn i r c err
    else
      let s := { s with msgs := s.msgs.append held (c.bytes.map fun x => (i,x)) }
      let c := c.advance
      if holding = true ∧ c.written < (s.msgs.blk held).room then
        (s.startScanlTimer newmsg).lisUp.rtn i r c c.written
      else s.move i r (.full c)
  else s.move i r (.full c)

def step : Wact → Option WriteHead
  | .write i buf sndzero =>
      match s.writers[i]? with
      | some ⟨.idle,r⟩ =>
          if buf.length < LIS_MINPSZ ∨ (buf = [] ∧ sndzero = false) then some s
          else some (s.move i r (.top ⟨buf,0,0⟩))
      | _ => none
  -- an error before the loop, or at its top: STWRERR, STRHUP, lis_lockq, EAGAIN, the wait
  | .refuse i err =>
      match s.writers[i]? with
      | some ⟨.top c,r⟩ => if err < 0 then some (s.rtn i r c err) else none
      | _ => none
  | .down i =>
      match s.writers[i]? with
      | some ⟨.top c,r⟩ =>
          if 0 < s.writeSem then
            let s := { s with writeSem := s.writeSem - 1 }
            some (s.move i r (match s.msgs.wmsg with
              | none => .alloc c
              | some b => .fill c b false))
          else none
      | _ => none
  | .alloc i ok wroff wroff' =>
      match s.writers[i]? with
      | some ⟨.alloc c,r⟩ =>
          if ok then
            some ({ s with msgs := s.msgs.alloc ((max (c.chunk + wroff) FASTBUF : ℕ) - wroff') }.move i r
              (.fill c s.msgs.next true))
          else some (s.lisUp.rtn i r c (if c.written ≠ 0 then c.written else -ENOMEM))
      | _ => none
  | .fill i err holding =>
      match s.writers[i]? with
      | some ⟨.fill c held newmsg,r⟩ => some (s.fillHeld i r c held newmsg err holding)
      | _ => none
  | .untimeout i =>
      match s.writers[i]? with
      | some ⟨.full c,r⟩ => some ({ s with scantimer := false }.move i r (.send c))
      | _ => none
  | .putnext i =>
      match s.writers[i]? with
      | some ⟨.send c,r⟩ => some ({ s with msgs := s.msgs.putnext }.move i r (.sent c))
      | _ => none
  | .clear i =>
      match s.writers[i]? with
      | some ⟨.sent c,r⟩ =>
          let s := { s with msgs := s.msgs.clear }.lisUp
          some (if sizeT c.written < c.buf.length then s.move i r (.top c) else s.rtn i r c c.written)
      | _ => none
  | .expire =>
      if s.scantimer then some { s with scantimer := false, expired := s.expired + 1 } else none
  | .flag procsoff =>
      if 0 < s.expired then
        let s := { s with expired := s.expired - 1 }
        some (if s.qscan = true ∨ procsoff = true then s
          else { s with qscan := true, flagged := s.flagged + 1 })
      else none
  | .scan =>
      if 0 < s.flagged then some { s with flagged := s.flagged - 1, scanl := s.scanl + 1 } else none
  | .take k =>
      if s.runners[k]? = some .idle ∧ 0 < s.scanl then some ({ s with scanl := s.scanl - 1 }.run k .off) else none
  | .unflag k procsoff =>
      if s.runners[k]? = some .off then some ({ s with qscan := false }.run k (.free procsoff)) else none
  | .pass k ret =>
      match s.runners[k]? with
      | some (.free procsoff) =>
          if ret < 0 then some (s.run k .idle)
          else if tally Runner.isPassed s.runners = 0 then     -- lis_lockq
            if procsoff = false ∧ s.msgs.wmsg ≠ none then
              some ({ s with msgs := s.msgs.putnext }.run k .passed)
            else some (s.run k .idle)
          else none
      | _ => none
  | .done k =>
      if s.runners[k]? = some .passed then some ({ s with msgs := s.msgs.clear }.run k .idle) else none

end WriteHead

end CSLiS.Write
