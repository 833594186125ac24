import CSLiS.Lib.Path

/-!
# What calls take of a stream head and give back (head/head.c, head/wait.c)

The paths of `lis_strwrite`, `lis_strread`, `lis_strputpmsg` and `lis_strgetpmsg`. What they test may have any
outcome each time. Loops are followed to any number of rounds. Any number of calls run beside each other on one
stream head, and other parties wake up those that wait.
-/

namespace CSLiS.Calls
open Lib.Exec Lib.Crew Lib.Path

/- The queues of the head, with `sd_rdcnt` and `sd_wread` or `sd_wrcnt` and `sd_wwrite`. -/
inductive Side
  | rd
  | wr
  deriving DecidableEq, Repr

/- What is tested. `refused` is a test of arguments, of the message against them or of memory that ends the call. -/
inductive Cond
  | badInode
  | noHead
  | tooShort
  | nothingToSend
  | fifoWait
  | badUmem
  | stplex
  | badMagic
  | stwrerr
  | strderr
  | hangup
  | blocked
  | notblock
  | newMsg
  | room
  | holding
  | more
  | refused
  | pcproto
  | couldput
  | qEmpty
  | sndmread
  | noMsg
  | isData
  | isProto
  | isRead
  | readDone
  | hasBuffer
  deriving DecidableEq, Repr

/- The operations. The first half of `lis_sleep_on_read_sem` counts the caller. The outcome of an operation says
whether it has succeeded, that of a test whether the condition holds. -/
inductive Op
  | test (c : Cond)
  | headGet
  | headPut
  | countReadSem
  | downReadSem
  | wakeUpReadSem
  | lockq (q : Side)
  | unlockq (q : Side)
  | isrLock
  | isrUnlock
  | ainc (q : Side)
  | adec (q : Side)
  | down (q : Side)
  | up (q : Side)
  deriving DecidableEq, Repr

abbrev Path := Prog Op

def asks (c : Cond) (yes no : Path) : Path := .test (.test c) yes no

/-! ### wait.c -/

/- `lis_sleep_on_wread` and `lis_sleep_on_wwrite` (`wait.c:139-160,198-220`). -/
def sleepOn (q : Side) (fails goes : Path) : Path :=
  .act (.ainc q) <| .act (.unlockq q) <| .attempt (.down q) (.act (.adec q) fails) <|
    .attempt (.lockq q) (.act (.adec q) <| .act (.up q) fails) goes

def lisSleepOnWread (fails goes : Path) : Path := sleepOn .rd fails goes
def lisSleepOnWwrite (fails goes : Path) : Path := sleepOn .wr fails goes

/-- `lis_sleep_on_read_sem` (`wait.c:257-268`) -/
def lisSleepOnReadSem (fails goes : Path) : Path := .act .countReadSem <| .attempt .downReadSem fails goes

/-! ### lis_strwrite -/

/- `return_point` of `lis_strwrite` and `lis_strputpmsg`. -/
def putHead : Path := .act .headPut .ret

/- The loop (`head.c:5368-5501`). A `continue` goes to the condition at its end. -/
def strwriteLoop : ℕ → Path
  | 0 => .cut
  | n + 1 =>
      let next := asks .more (strwriteLoop n) putHead
      let fills := asks .room (asks .badUmem putHead <| asks .holding putHead next) next
      asks .stwrerr putHead <| asks .hangup putHead <| .attempt (.lockq .wr) putHead <|
      asks .blocked
        (asks .notblock (.act (.unlockq .wr) putHead) <| lisSleepOnWwrite putHead <| .act (.unlockq .wr) next) <|
      .act (.unlockq .wr) <| asks .newMsg (asks .refused putHead fills) fills

/-- `lis_strwrite` (`head.c:5284-5513`) -/
def lisStrwrite (n : ℕ) : Path :=
  asks .badInode .ret <| asks .noHead .ret <| .act .headGet <|
  asks .tooShort putHead <| asks .nothingToSend putHead <| asks .fifoWait putHead <| asks .badUmem putHead <|
  asks .stplex putHead <| strwriteLoop n

/-! ### lis_strputpmsg -/

/- The loop (`head.c:6080-6142`), and `lis_putnext`. -/
def strputpmsgLoop : ℕ → Path
  | 0 => .cut
  | n + 1 =>
      asks .stwrerr putHead <| asks .hangup putHead <| asks .pcproto putHead <| .attempt (.lockq .wr) putHead <|
      asks .couldput (.act (.unlockq .wr) putHead) <|
      asks .notblock (.act (.unlockq .wr) putHead) <|
      lisSleepOnWwrite putHead <| .act (.unlockq .wr) <| strputpmsgLoop n

/-- `lis_strputpmsg` (`head.c:5942-6177`). The flags and the band, the copy of the message, no message, and its
type and band with the flags are tests that end the call. -/
def lisStrputpmsg (n : ℕ) : Path :=
  asks .noHead .ret <| .act .headGet <| asks .stplex putHead <| asks .fifoWait putHead <|
  asks .refused putHead <| asks .badUmem putHead <| asks .noMsg putHead <| asks .refused putHead <|
  strputpmsgLoop n

/-! ### lis_strread -/

/- The locals that say what is held, with `msgs_read` and `mread_sent`. -/
structure Rlocals where
  hdRq : Bool
  qlocked : Bool
  qisrlocked : Bool
  msgsRead : Bool
  mreadSent : Bool
  deriving DecidableEq, Repr

/- An operation that is done only if a local says so. -/
def onlyIf (b : Bool) (o : Op) (p : Path) : Path := if b then .act o p else p

/- `return_point` -/
def Rlocals.returns (l : Rlocals) : Path :=
  onlyIf (l.hdRq && l.qisrlocked) .isrUnlock <| onlyIf (l.hdRq && l.qlocked) (.unlockq .rd) <|
  .act .wakeUpReadSem putHead

/- The loop that waits for a message (`head.c:5665-5744`), and what follows. -/
def strreadWait (next : Rlocals → Path) : ℕ → Rlocals → Path
  | 0, _ => .cut
  | n + 1, l =>
      if l.msgsRead then next l
      else
        let unlocked := { l with qisrlocked := false }
        let sleeps := asks .notblock l.returns <| .act .isrUnlock <|
          lisSleepOnWread { unlocked with qlocked := false }.returns <| .act .isrLock <|
          strreadWait next n { unlocked with qisrlocked := true }
        asks .qEmpty
          (asks .strderr l.returns <| asks .hangup l.returns <|
            if l.mreadSent then sleeps
            else
              let out := { l with qisrlocked := false, qlocked := false }
              asks .sndmread
                (.act .isrUnlock <| .act (.unlockq .rd) <| asks .refused out.returns <|
                  .attempt (.lockq .rd) { out with mreadSent := true }.returns <| .act .isrLock <|
                  strreadWait next n { out with mreadSent := true, qlocked := true, qisrlocked := true })
                sleeps)
          (next l)

/- The loop (`head.c:5656-5918`). -/
def strreadLoop : ℕ → Rlocals → Path
  | 0, _ => .cut
  | n + 1, l =>
      .attempt (.lockq .rd) l.returns <| .act .isrLock <|
      strreadWait
        (fun l =>
          let l := { l with qisrlocked := false, qlocked := false }
          .act .isrUnlock <| .act (.unlockq .rd) <| asks .noMsg l.returns <|
          asks .isData (asks .readDone l.returns <| strreadLoop n { l with msgsRead := true }) <|
          asks .isProto (asks .readDone l.returns <| strreadLoop n { l with msgsRead := true }) <|
          asks .isRead (strreadLoop n l) l.returns)
        n { l with qlocked := true, qisrlocked := true, mreadSent := false }

/-- `lis_strread` (`head.c:5594-5937`) -/
def lisStrread (n : ℕ) : Path :=
  let l : Rlocals := ⟨false,false,false,false,false⟩
  asks .badInode .ret <| asks .noHead .ret <| .act .headGet <| lisSleepOnReadSem .ret <|
  asks .badUmem l.returns <| asks .stplex l.returns <|
  asks .badMagic { l with hdRq := true }.returns <| strreadLoop n { l with hdRq := true }

/-! ### lis_strgetpmsg -/

structure Glocals where
  rdq : Bool
  qlocked : Bool
  qreading : Bool
  deriving DecidableEq, Repr

/- `err_return_point` -/
def Glocals.errReturns (l : Glocals) : Path :=
  onlyIf (l.rdq && l.qreading) .isrLock <| onlyIf (l.rdq && l.qreading) .isrUnlock <|
  onlyIf (l.rdq && l.qlocked) (.unlockq .rd) <| .act .wakeUpReadSem putHead

/- `return_point` -/
def Glocals.returns (l : Glocals) : Path :=
  onlyIf (l.rdq && l.qlocked) (.unlockq .rd) { l with qlocked := l.qlocked && !l.rdq }.errReturns

/- The loop of a getmsg that waits (`head.c:6297-6314`). -/
def strgetpmsgWait (next : Glocals → Path) : ℕ → Glocals → Path
  | 0, _ => .cut
  | n + 1, l =>
      asks .qEmpty
        (asks .notblock l.errReturns <| lisSleepOnWread { l with qlocked := false }.errReturns <|
          strgetpmsgWait next n l)
        (next l)

/- With the read queue locked (`head.c:6343-6568`). -/
def strgetpmsgRead (doit : Bool) (l : Glocals) : Path :=
  let reading := { l with qlocked := true, qreading := true }
  .act .isrLock <| .act .isrUnlock <| asks .qEmpty reading.returns <| asks .refused reading.returns <|
  if doit then
    asks .refused reading.returns <| asks .noMsg reading.returns <|
    .act .isrLock <| .act .isrUnlock { reading with qreading := false }.returns
  else asks .refused reading.returns <| .act .isrLock <| .act .isrUnlock { reading with qreading := false }.returns

def strgetpmsgMsg (doit : Bool) (l : Glocals) : Path :=
  if l.qlocked then strgetpmsgRead doit l else .attempt (.lockq .rd) l.errReturns (strgetpmsgRead doit l)

/-- `lis_strgetpmsg` (`head.c:6193-6645`) -/
def lisStrgetpmsg (doit : Bool) (n : ℕ) : Path :=
  let l : Glocals := ⟨false,false,false⟩
  let q := { l with rdq := true }
  asks .noHead .ret <| .act .headGet <| lisSleepOnReadSem .ret <|
  asks .strderr l.errReturns <| asks .badUmem l.errReturns <| asks .stplex l.errReturns <|
  asks .badMagic q.errReturns <|
  if doit then
    asks .badUmem q.errReturns <|
    asks .hasBuffer
      (.attempt (.lockq .rd) q.errReturns <| strgetpmsgWait (strgetpmsgMsg doit) n { q with qlocked := true })
      (strgetpmsgMsg doit q)
  else strgetpmsgMsg doit q

/-! ### What a call holds -/

/- References to the head, locks of the queues and the ISR lock, the wait for the read semaphore and the semaphore
itself, each less what has been given back. `interrupted` counts the waits for it that failed. -/
structure Held where
  refs : ℕ
  rq : ℕ
  wq : ℕ
  isr : ℕ
  waiting : ℕ
  sem : ℕ
  interrupted : ℕ
  deriving DecidableEq, Repr

def Held.nothing : Held := ⟨0,0,0,0,0,0,0⟩

def needs : Op → Held → Prop
  | .headPut, h => 0 < h.refs
  | .downReadSem, h => 0 < h.waiting
  | .wakeUpReadSem, h => 0 < h.sem
  | .unlockq .rd, h => 0 < h.rq
  | .unlockq .wr, h => 0 < h.wq
  | .isrUnlock, h => 0 < h.isr
  | _, _ => True

def after : Op → Bool → Held → Held
  | .headGet, _, h => { h with refs := h.refs + 1 }
  | .headPut, _, h => { h with refs := h.refs - 1 }
  | .countReadSem, _, h => { h with waiting := h.waiting + 1 }
  | .downReadSem, true, h => { h with waiting := h.waiting - 1, sem := h.sem + 1 }
  | .downReadSem, false, h => { h with waiting := h.waiting - 1, interrupted := h.interrupted + 1 }
  | .wakeUpReadSem, _, h => { h with sem := h.sem - 1 }
  | .lockq .rd, true, h => { h with rq := h.rq + 1 }
  | .lockq .wr, true, h => { h with wq := h.wq + 1 }
  | .unlockq .rd, _, h => { h with rq := h.rq - 1 }
  | .unlockq .wr, _, h => { h with wq := h.wq - 1 }
  | .isrLock, _, h => { h with isr := h.isr + 1 }
  | .isrUnlock, _, h => { h with isr := h.isr - 1 }
  | _, _, h => h

def rules : Rules Op Held := ⟨needs,after⟩

/- A call that has returned: it has kept a reference for each wait that failed, and nothing else. -/
structure Ended (h : Held) : Prop where
  refs : h.refs = h.interrupted
  rq : h.rq = 0
  wq : h.wq = 0
  isr : h.isr = 0
  waiting : h.waiting = 0
  sem : h.sem = 0

abbrev Ends (p : Path) (h : Held) : Prop := Settles rules Ended p h

variable {h : Held} {p q : Path} {n : ℕ}

@[simp] theorem ends_asks (c : Cond) : Ends (asks c p q) h ↔ Ends p h ∧ Ends q h :=
  settles_test.trans (and_iff_right trivial)

@[simp] theorem ends_ret : Ends .ret h ↔ Ended h := Iff.rfl

theorem ends_cut : Ends .cut h := trivial

/- The head is held, and with the semaphore. -/
def oneRef : Held := { Held.nothing with refs := 1 }
def reader : Held := { Held.nothing with refs := 1, sem := 1 }

theorem putHead_ends : Ends putHead oneRef :=
  (settles_act rfl).mpr ⟨Nat.one_pos,⟨rfl,rfl,rfl,rfl,rfl,rfl⟩⟩

theorem wakes_ends : Ends (.act .wakeUpReadSem putHead) reader :=
  (settles_act rfl).mpr ⟨Nat.one_pos,putHead_ends⟩

theorem ends_attempt {o : Op} {g k : Held} (hn : needs o h) (hg : after o false h = g) (hk : after o true h = k)
    (hp : Ends p g) (hq : Ends q k) : Ends (.attempt o p q) h := by
  subst hg hk
  exact settles_attempt.mpr ⟨hn,hp,hq⟩

/- A wait gives the lock back, and has it again unless it fails: `g` is what the call has without the lock. -/
theorem sleepOn_ends {sd : Side} {g : Held} (hn : needs (.unlockq sd) h) (hu : after (.unlockq sd) false h = g)
    (hk : after (.lockq sd) true g = h) (hp : Ends p g) (hq : Ends q h) : Ends (sleepOn sd p q) h := by
  have hfails : Ends (.act (.adec sd) p) g := (settles_act rfl).mpr ⟨trivial,hp⟩
  have hups : Ends (.act (.adec sd) <| .act (.up sd) p) g :=
    (settles_act rfl).mpr ⟨trivial,(settles_act rfl).mpr ⟨trivial,hp⟩⟩
  have hlocks := ends_attempt (o := .lockq sd) trivial (by cases sd <;> rfl) hk hups hq
  have hdown := ends_attempt (o := .down sd) trivial rfl rfl hfails hlocks
  subst hu
  refine (settles_act rfl).mpr ⟨trivial,(settles_act ?_).mpr ⟨hn,hdown⟩⟩
  cases sd <;> rfl

theorem sleepOn_ends_wr (hp : Ends p oneRef) (hq : Ends q { oneRef with wq := 1 }) :
    Ends (lisSleepOnWwrite p q) { oneRef with wq := 1 } := sleepOn_ends Nat.one_pos rfl rfl hp hq

theorem sleepOn_ends_rd (hp : Ends p reader) (hq : Ends q { reader with rq := 1 }) :
    Ends (lisSleepOnWread p q) { reader with rq := 1 } := sleepOn_ends Nat.one_pos rfl rfl hp hq

theorem unlocks_wr (hp : Ends p oneRef) : Ends (.act (.unlockq .wr) p) { oneRef with wq := 1 } :=
  (settles_act rfl).mpr ⟨Nat.one_pos,hp⟩

theorem strwriteLoop_ends (n : ℕ) : Ends (strwriteLoop n) oneRef := by
  induction n with
  | zero => exact ends_cut
  | succ n ih =>
    have hput := putHead_ends
    have hnext : Ends (asks .more (strwriteLoop n) putHead) oneRef := (ends_asks _).mpr ⟨ih,hput⟩
    have hfills : Ends (asks .room (asks .badUmem putHead <| asks .holding putHead
        (asks .more (strwriteLoop n) putHead)) (asks .more (strwriteLoop n) putHead)) oneRef := by
      simp only [ends_asks]
      exact ⟨⟨hput,hput,ih,hput⟩,ih,hput⟩
    simp only [strwriteLoop]
    rw [ends_asks,ends_asks]
    refine ⟨hput,hput,settles_attempt.mpr ⟨trivial,hput,(ends_asks _).mpr ⟨(ends_asks _).mpr ⟨?_,?_⟩,?_⟩⟩⟩
    · exact unlocks_wr hput
    · exact sleepOn_ends_wr hput (unlocks_wr hnext)
    · exact unlocks_wr ((ends_asks _).mpr ⟨(ends_asks _).mpr ⟨hput,hfills⟩,hfills⟩)

theorem strputpmsgLoop_ends (n : ℕ) : Ends (strputpmsgLoop n) oneRef := by
  induction n with
  | zero => exact ends_cut
  | succ n ih =>
    have hput := putHead_ends
    simp only [strputpmsgLoop]
    rw [ends_asks,ends_asks,ends_asks]
    refine ⟨hput,hput,hput,settles_attempt.mpr ⟨trivial,hput,?_⟩⟩
    refine (ends_asks _).mpr ⟨unlocks_wr hput,(ends_asks _).mpr ⟨unlocks_wr hput,?_⟩⟩
    exact sleepOn_ends_wr hput (unlocks_wr ih)

/- A call that has found the head. -/
theorem headGet_ends (hp : Ends p oneRef) : Ends (.act .headGet p) Held.nothing := (settles_act rfl).mpr ⟨trivial,hp⟩

theorem nothing_ends : Ended Held.nothing := ⟨rfl,rfl,rfl,rfl,rfl,rfl⟩

theorem lisStrwrite_ends (n : ℕ) : Ends (lisStrwrite n) Held.nothing := by
  have hput := putHead_ends
  rw [lisStrwrite,ends_asks,ends_asks]
  refine ⟨nothing_ends,nothing_ends,headGet_ends ?_⟩
  simp only [ends_asks]
  exact ⟨hput,hput,hput,hput,hput,strwriteLoop_ends n⟩

theorem lisStrputpmsg_ends (n : ℕ) : Ends (lisStrputpmsg n) Held.nothing := by
  have hput := putHead_ends
  rw [lisStrputpmsg,ends_asks]
  refine ⟨nothing_ends,headGet_ends ?_⟩
  simp only [ends_asks]
  exact ⟨hput,hput,hput,hput,hput,hput,strputpmsgLoop_ends n⟩

/-! ### The readers -/

/- What the locals say is held. -/
def Rlocals.held (l : Rlocals) : Held := { reader with rq := l.qlocked.toNat, isr := l.qisrlocked.toNat }
def Glocals.held (l : Glocals) : Held := { reader with rq := l.qlocked.toNat }

theorem unlocks_rd {k : ℕ} (hp : Ends p { reader with isr := k }) :
    Ends (.act (.unlockq .rd) p) { reader with rq := 1, isr := k } :=
  (settles_act rfl).mpr ⟨Nat.one_pos,hp⟩

theorem isrUnlocks {k : ℕ} (hp : Ends p { reader with rq := k }) :
    Ends (.act .isrUnlock p) { reader with rq := k, isr := 1 } :=
  (settles_act rfl).mpr ⟨Nat.one_pos,hp⟩

theorem isrLocks {k : ℕ} (hp : Ends p { reader with rq := k, isr := 1 }) :
    Ends (.act .isrLock p) { reader with rq := k } :=
  (settles_act rfl).mpr ⟨trivial,hp⟩

theorem locks_rd (hp : Ends p reader) (hq : Ends q { reader with rq := 1 }) : Ends (.attempt (.lockq .rd) p q) reader :=
  settles_attempt.mpr ⟨trivial,hp,hq⟩

theorem Rlocals.returns_ends {l : Rlocals} (hl : l.hdRq = true ∨ (l.qlocked = false ∧ l.qisrlocked = false)) :
    Ends l.returns l.held := by
  obtain ⟨hdRq,qlocked,qisrlocked,msgsRead,mreadSent⟩ := l
  rcases hl with hl | ⟨h1,h2⟩
  · obtain rfl : hdRq = true := hl
    cases qlocked <;> cases qisrlocked
    · exact wakes_ends
    · exact isrUnlocks wakes_ends
    · exact unlocks_rd wakes_ends
    · exact isrUnlocks (unlocks_rd wakes_ends)
  · obtain rfl : qlocked = false := h1
    obtain rfl : qisrlocked = false := h2
    cases hdRq <;> exact wakes_ends

theorem strreadWait_ends {next : Rlocals → Path} (hnext : ∀ l : Rlocals, l.hdRq = true → l.qlocked = true →
    l.qisrlocked = true → Ends (next l) l.held) (n : ℕ) (l : Rlocals) (hq : l.hdRq = true) (hl : l.qlocked = true)
    (hi : l.qisrlocked = true) : Ends (strreadWait next n l) l.held := by
  induction n generalizing l with
  | zero => exact ends_cut
  | succ n ih =>
    have hret := Rlocals.returns_ends (l := l) (.inl hq)
    have hn := hnext l hq hl hi
    obtain ⟨hdRq,qlocked,qisrlocked,msgsRead,mreadSent⟩ := l
    obtain rfl : hdRq = true := hq
    obtain rfl : qlocked = true := hl
    obtain rfl : qisrlocked = true := hi
    -- the two ways round: after a wait, and after an M_READ
    have hagain : Ends (strreadWait next n ⟨true,true,true,msgsRead,mreadSent⟩) { reader with rq := 1, isr := 1 } :=
      ih _ rfl rfl rfl
    have hsent : Ends (strreadWait next n ⟨true,true,true,msgsRead,true⟩) { reader with rq := 1, isr := 1 } :=
      ih _ rfl rfl rfl
    have hout (b : Bool) : Ends (Rlocals.returns ⟨true,false,false,msgsRead,b⟩) reader :=
      Rlocals.returns_ends (.inl rfl)
    have hsleep : Ends (asks .notblock (Rlocals.returns ⟨true,true,true,msgsRead,mreadSent⟩) <| .act .isrUnlock <|
        lisSleepOnWread (Rlocals.returns ⟨true,false,false,msgsRead,mreadSent⟩) <| .act .isrLock <|
        strreadWait next n ⟨true,true,true,msgsRead,mreadSent⟩) { reader with rq := 1, isr := 1 } :=
      (ends_asks _).mpr ⟨hret,isrUnlocks (sleepOn_ends_rd (hout _) (isrLocks hagain))⟩
    rw [strreadWait]
    split_ifs
    · exact hn
    · exact (ends_asks _).mpr ⟨(ends_asks _).mpr ⟨hret,(ends_asks _).mpr ⟨hret,hsleep⟩⟩,hn⟩
    · refine (ends_asks _).mpr ⟨(ends_asks _).mpr ⟨hret,(ends_asks _).mpr ⟨hret,(ends_asks _).mpr ⟨?_,hsleep⟩⟩⟩,hn⟩
      exact isrUnlocks (unlocks_rd ((ends_asks _).mpr ⟨hout _,locks_rd (hout _) (isrLocks hsent)⟩))

theorem strreadLoop_ends (n : ℕ) (l : Rlocals) (hq : l.hdRq = true) (hl : l.qlocked = false)
    (hi : l.qisrlocked = false) : Ends (strreadLoop n l) reader := by
  induction n generalizing l with
  | zero => exact ends_cut
  | succ n ih =>
    obtain ⟨hdRq,qlocked,qisrlocked,msgsRead,mreadSent⟩ := l
    obtain rfl : hdRq = true := hq
    obtain rfl : qlocked = false := hl
    obtain rfl : qisrlocked = false := hi
    have hret (m r : Bool) : Ends (Rlocals.returns ⟨true,false,false,m,r⟩) reader := Rlocals.returns_ends (.inl rfl)
    refine locks_rd (hret _ _) (isrLocks ?_)
    refine strreadWait_ends (fun l hq hl hi => ?_) n ⟨true,true,true,msgsRead,false⟩ rfl rfl rfl
    obtain ⟨hdRq,qlocked,qisrlocked,m,r⟩ := l
    obtain rfl : hdRq = true := hq
    obtain rfl : qlocked = true := hl
    obtain rfl : qisrlocked = true := hi
    refine isrUnlocks (unlocks_rd ?_)
    simp only [ends_asks]
    have hmore : Ends (strreadLoop n ⟨true,false,false,true,r⟩) reader := ih _ rfl rfl rfl
    exact ⟨hret m r,⟨hret m r,hmore⟩,⟨hret m r,hmore⟩,ih _ rfl rfl rfl,hret m r⟩

/- The read semaphore is obtained, or the call returns with the reference it has. -/
theorem readSem_ends (hp : Ends p reader) : Ends (lisSleepOnReadSem .ret p) oneRef :=
  (settles_act rfl).mpr ⟨trivial,settles_attempt.mpr ⟨Nat.one_pos,⟨rfl,rfl,rfl,rfl,rfl,rfl⟩,hp⟩⟩

theorem lisStrread_ends (n : ℕ) : Ends (lisStrread n) Held.nothing := by
  have hret (b : Bool) : Ends (Rlocals.returns ⟨b,false,false,false,false⟩) reader :=
    Rlocals.returns_ends (.inr ⟨rfl,rfl⟩)
  rw [lisStrread,ends_asks,ends_asks]
  refine ⟨nothing_ends,nothing_ends,headGet_ends (readSem_ends ?_)⟩
  simp only [ends_asks]
  exact ⟨hret false,hret false,hret true,strreadLoop_ends n _ rfl rfl rfl⟩

theorem Glocals.errReturns_ends {l : Glocals} (hl : l.rdq = true ∨ (l.qlocked = false ∧ l.qreading = false)) :
    Ends l.errReturns l.held := by
  obtain ⟨rdq,qlocked,qreading⟩ := l
  rcases hl with hl | ⟨h1,h2⟩
  · obtain rfl : rdq = true := hl
    cases qlocked <;> cases qreading
    · exact wakes_ends
    · exact isrLocks (isrUnlocks wakes_ends)
    · exact unlocks_rd wakes_ends
    · exact isrLocks (isrUnlocks (unlocks_rd wakes_ends))
  · obtain rfl : qlocked = false := h1
    obtain rfl : qreading = false := h2
    cases rdq <;> exact wakes_ends

theorem Glocals.returns_ends {l : Glocals} (hq : l.rdq = true) : Ends l.returns l.held := by
  obtain ⟨rdq,qlocked,qreading⟩ := l
  obtain rfl : rdq = true := hq
  have hout : Ends (Glocals.errReturns ⟨true,false,qreading⟩) reader := Glocals.errReturns_ends (.inl rfl)
  cases qlocked
  · exact hout
  · exact unlocks_rd hout

theorem strgetpmsgRead_ends (doit : Bool) {l : Glocals} (hq : l.rdq = true) :
    Ends (strgetpmsgRead doit l) { reader with rq := 1 } := by
  obtain ⟨rdq,qlocked,qreading⟩ := l
  obtain rfl : rdq = true := hq
  have hret (b : Bool) : Ends (Glocals.returns ⟨true,true,b⟩) { reader with rq := 1 } := Glocals.returns_ends rfl
  have hlast : Ends (.act .isrLock <| .act .isrUnlock <| Glocals.returns ⟨true,true,false⟩) { reader with rq := 1 } :=
    isrLocks (isrUnlocks (hret false))
  refine isrLocks (isrUnlocks ((ends_asks _).mpr ⟨hret true,(ends_asks _).mpr ⟨hret true,?_⟩⟩))
  cases doit
  · exact (ends_asks _).mpr ⟨hret true,hlast⟩
  · exact (ends_asks _).mpr ⟨hret true,(ends_asks _).mpr ⟨hret true,hlast⟩⟩

theorem strgetpmsgMsg_ends (doit : Bool) {l : Glocals} (hq : l.rdq = true) : Ends (strgetpmsgMsg doit l) l.held := by
  have hread := strgetpmsgRead_ends doit hq
  have herr := Glocals.errReturns_ends (l := l) (.inl hq)
  rw [strgetpmsgMsg,Glocals.held]
  rw [Glocals.held] at herr
  cases hl : l.qlocked
  · rw [hl] at herr
    exact locks_rd herr hread
  · exact hread

theorem strgetpmsgWait_ends {next : Glocals → Path} {l : Glocals} (hq : l.rdq = true) (hl : l.qlocked = true)
    (hnext : Ends (next l) l.held) (n : ℕ) : Ends (strgetpmsgWait next n l) l.held := by
  induction n with
  | zero => exact ends_cut
  | succ n ih =>
    have herr := Glocals.errReturns_ends (l := l) (.inl hq)
    have hout := Glocals.errReturns_ends (l := { l with qlocked := false }) (.inl hq)
    rw [Glocals.held,hl] at ih herr hnext ⊢
    exact (ends_asks _).mpr ⟨(ends_asks _).mpr ⟨herr,sleepOn_ends_rd hout ih⟩,hnext⟩

theorem lisStrgetpmsg_ends (doit : Bool) (n : ℕ) : Ends (lisStrgetpmsg doit n) Held.nothing := by
  have hret (b : Bool) : Ends (Glocals.errReturns ⟨b,false,false⟩) reader := Glocals.errReturns_ends (.inr ⟨rfl,rfl⟩)
  have hmsg (d : Bool) : Ends (strgetpmsgMsg d ⟨true,false,false⟩) reader := strgetpmsgMsg_ends d rfl
  rw [lisStrgetpmsg,ends_asks]
  refine ⟨nothing_ends,headGet_ends (readSem_ends ?_)⟩
  simp only [ends_asks]
  refine ⟨hret false,hret false,hret false,hret true,?_⟩
  cases doit
  · exact hmsg false
  · refine (ends_asks _).mpr ⟨hret true,(ends_asks _).mpr ⟨locks_rd (hret true) ?_,hmsg true⟩⟩
    exact strgetpmsgWait_ends (l := ⟨true,true,false⟩) rfl rfl (strgetpmsgMsg_ends true rfl) n

/-! ### Calls on one stream head -/

structure Stdata where
  sdRefcnt : ℤ
  sdRdsemcnt : ℕ
  sdReadSem : ℕ
  sdRdcnt : ℤ
  sdWrcnt : ℤ
  deriving DecidableEq, Repr

namespace Stdata

def count (s : Stdata) (q : Side) (d : ℤ) : Stdata :=
  match q with
  | .rd => { s with sdRdcnt := s.sdRdcnt + d }
  | .wr => { s with sdWrcnt := s.sdWrcnt + d }

def waiters (s : Stdata) : Side → ℤ
  | .rd => s.sdRdcnt
  | .wr => s.sdWrcnt

/-- `lis_wake_up_read_sem` (`wait.c:270-279`) -/
def lisWakeUpReadSem (s : Stdata) : Stdata :=
  if 0 < s.sdRdsemcnt then { s with sdRdsemcnt := s.sdRdsemcnt - 1, sdReadSem := s.sdReadSem + 1 } else s

/-- `lis_wake_up_all_read_sem` (`wait.c:281-290`) -/
def lisWakeUpAllReadSem (s : Stdata) : Stdata :=
  { s with sdRdsemcnt := 0, sdReadSem := s.sdReadSem + s.sdRdsemcnt }

/- `lis_wake_up_wread` and `lis_wake_up_wwrite`, for the count (`wait.c:162-182,222-242`). -/
def wakeUp (s : Stdata) (q : Side) : Stdata := if 0 < s.waiters q then s.count q (-1) else s

/- A wait for the read semaphore that fails gives back the wrong count. -/
def exec : Op → Bool → Stdata → Option Stdata
  | .headGet, _, s => some { s with sdRefcnt := s.sdRefcnt + 1 }
  | .headPut, _, s => some { s with sdRefcnt := s.sdRefcnt - 1 }
  | .countReadSem, _, s => some { s with sdRdsemcnt := s.sdRdsemcnt + 1 }
  | .downReadSem, true, s => if 0 < s.sdReadSem then some { s with sdReadSem := s.sdReadSem - 1 } else none
  | .downReadSem, false, s => some (s.count .rd (-1))
  | .wakeUpReadSem, _, s => some s.lisWakeUpReadSem
  | .ainc q, _, s => some (s.count q 1)
  | .adec q, _, s => some (s.count q (-1))
  | _, _, s => some s

/- No one has the read semaphore or waits for it. -/
def idle (refcnt : ℤ) : Stdata := ⟨refcnt,0,1,0,0⟩

end Stdata

inductive Routine
  | strwrite
  | strread
  | strputpmsg
  | strgetpmsg (doit : Bool)
  deriving DecidableEq, Repr

def Routine.code : Routine × ℕ → Path
  | (.strwrite,n) => lisStrwrite n
  | (.strread,n) => lisStrread n
  | (.strputpmsg,n) => lisStrputpmsg n
  | (.strgetpmsg doit,n) => lisStrgetpmsg doit n

inductive Wakeup
  | allReadSem
  | one (q : Side)
  deriving DecidableEq, Repr

def Wakeup.apply : Wakeup → Stdata → Stdata
  | .allReadSem, s => s.lisWakeUpAllReadSem
  | .one q, s => s.wakeUp q

def world : World Stdata Op Held (Routine × ℕ) Wakeup :=
  ⟨rules,Routine.code,Held.nothing,Stdata.exec,Wakeup.apply⟩

/- The references to the head, and the read semaphore: it has been released for everyone who was counted and is not
counted any more. -/
structure Fits (refcnt : ℤ) (s : Stdata) (l : List Held) : Prop where
  refs : s.sdRefcnt = refcnt + total Held.refs l
  sem : s.sdReadSem + s.sdRdsemcnt = 1 + total Held.waiting l + total Held.interrupted l
  counted : s.sdRdsemcnt ≤ total Held.waiting l + total Held.sem l + total Held.interrupted l

variable {refcnt : ℤ} {s t : Stdata} {l : List Held} {i : ℕ} {o : Op} {b : Bool}

/- What a head and a call have to do with each other. -/
structure Moves (o : Op) (b : Bool) (h : Held) (s t : Stdata) : Prop where
  refs : t.sdRefcnt + h.refs = s.sdRefcnt + (after o b h).refs
  sem : t.sdReadSem + t.sdRdsemcnt + h.waiting + h.interrupted =
    s.sdReadSem + s.sdRdsemcnt + (after o b h).waiting + (after o b h).interrupted
  counted : t.sdRdsemcnt = 0 ∨ t.sdRdsemcnt + h.waiting + h.sem + h.interrupted =
    s.sdRdsemcnt + (after o b h).waiting + (after o b h).sem + (after o b h).interrupted

/- The waits for messages and for room do not concern them, nor do the locks. -/
theorem Moves.count (q : Side) (d : ℤ) (hh : after o b h = h) : Moves o b h s (s.count q d) := by
  cases q <;> exact ⟨by rw [hh]; rfl,by rw [hh]; rfl,.inr (by rw [hh]; rfl)⟩

theorem Moves.lock (h1 : (after o b h).refs = h.refs) (h2 : (after o b h).waiting = h.waiting)
    (h3 : (after o b h).sem = h.sem) (h4 : (after o b h).interrupted = h.interrupted) : Moves o b h s s :=
  ⟨by rw [h1],by rw [h2,h4],.inr (by rw [h2,h3,h4])⟩

theorem moves_op (hn : needs o h) (he : Stdata.exec o b s = some t) : Moves o b h s t := by
  cases o with
  | headGet =>
    obtain rfl := Option.some.inj he
    refine ⟨?_,rfl,.inr rfl⟩
    simp only [after]
    push_cast
    omega
  | headPut =>
    obtain rfl := Option.some.inj he
    refine ⟨?_,rfl,.inr rfl⟩
    have hpos : 0 < h.refs := hn
    simp only [after]
    omega
  | countReadSem =>
    obtain rfl := Option.some.inj he
    refine ⟨rfl,?_,.inr ?_⟩
    all_goals
      simp only [after]
      omega
  | downReadSem =>
    have hpos : 0 < h.waiting := hn
    cases b with
    | false =>
      obtain rfl := Option.some.inj he
      refine ⟨rfl,?_,.inr ?_⟩
      all_goals
        simp only [after,Stdata.count]
        omega
    | true =>
      simp only [Stdata.exec] at he
      split_ifs at he with hsem
      obtain rfl := Option.some.inj he
      refine ⟨rfl,?_,.inr ?_⟩
      all_goals
        simp only [after]
        omega
  | wakeUpReadSem =>
    have hpos : 0 < h.sem := hn
    obtain rfl := Option.some.inj he
    rw [Stdata.lisWakeUpReadSem]
    split_ifs with hc
    · refine ⟨rfl,?_,.inr ?_⟩
      all_goals
        simp only [after]
        omega
    · exact ⟨rfl,rfl,.inl (Nat.eq_zero_of_not_pos hc)⟩
  | ainc q =>
    obtain rfl := Option.some.inj he
    exact Moves.count q 1 rfl
  | adec q =>
    obtain rfl := Option.some.inj he
    exact Moves.count q (-1) rfl
  | lockq q =>
    obtain rfl := Option.some.inj he
    cases q <;> cases b <;> exact Moves.lock rfl rfl rfl rfl
  | unlockq q =>
    obtain rfl := Option.some.inj he
    cases q <;> exact Moves.lock rfl rfl rfl rfl
  | test | isrLock | isrUnlock | down | up =>
    obtain rfl := Option.some.inj he
    exact Moves.lock rfl rfl rfl rfl

theorem Fits.step (hf : Fits refcnt s l) (hi : l[i]? = some h) (hn : needs o h) (he : Stdata.exec o b s = some t) :
    Fits refcnt t (l.set i (after o b h)) := by
  have hm := moves_op hn he
  have h1 := total_set hi (after o b h) Held.refs
  have h2 := total_set hi (after o b h) Held.waiting
  have h3 := total_set hi (after o b h) Held.sem
  have h4 := total_set hi (after o b h) Held.interrupted
  obtain ⟨hr,hs,hc⟩ := hf
  obtain ⟨mr,ms,mc⟩ := hm
  exact ⟨by omega,by omega,by omega⟩

theorem Fits.other (hf : Fits refcnt s l) (e : Wakeup) : Fits refcnt (e.apply s) l := by
  cases e with
  | allReadSem => exact ⟨hf.refs,by simpa [Wakeup.apply,Stdata.lisWakeUpAllReadSem] using hf.sem,Nat.zero_le _⟩
  | one q =>
    rw [Wakeup.apply,Stdata.wakeUp]
    split_ifs
    · cases q <;> exact ⟨hf.refs,hf.sem,hf.counted⟩
    · exact hf

theorem Fits.call (hf : Fits refcnt s l) : Fits refcnt s (l ++ [Held.nothing]) := by
  have hzero {f : Held → ℕ} (h : f Held.nothing = 0) : total f (l ++ [Held.nothing]) = total f l :=
    total_append_zero h l
  obtain ⟨hr,hs,hc⟩ := hf
  refine ⟨?_,?_,?_⟩
  · rw [hzero rfl,hr]
  · rw [hzero rfl,hzero rfl,hs]
  · rw [hzero rfl,hzero rfl,hzero rfl]
    exact hc

theorem world_keeps (refcnt : ℤ) : Keeps world (Fits refcnt) where
  call _ _ hf := hf.call
  step _ _ _ _ _ _ _ hf hi hn he := hf.step hi hn he
  other _ _ e hf := hf.other e

theorem routine_ends (p : Routine × ℕ) : Ends (Routine.code p) Held.nothing := by
  obtain ⟨r,n⟩ := p
  cases r with
  | strwrite => exact lisStrwrite_ends n
  | strread => exact lisStrread_ends n
  | strputpmsg => exact lisStrputpmsg_ends n
  | strgetpmsg doit => exact lisStrgetpmsg_ends doit n

/- As many `lis_head_put` as `lis_head_get`, every lock released, the read semaphore released if it was obtained. -/
structure Held.Balanced (h : Held) : Prop where
  refs : h.refs = 0
  rq : h.rq = 0
  wq : h.wq = 0
  isr : h.isr = 0
  sem : h.sem = 0

theorem Ended.balanced_iff (h1 : Ended h) : h.Balanced ↔ h.interrupted = 0 :=
  ⟨fun hb => h1.refs.symm.trans hb.refs,fun h0 => ⟨h1.refs.trans h0,h1.rq,h1.wq,h1.isr,h1.sem⟩⟩

abbrev Head := Sys Stdata Op Held

def idleHead (refcnt : ℤ) : Head := ⟨Stdata.idle refcnt,[]⟩

/-- In every run of calls on a stream head, a call that has returned has balanced accounts if and only if its wait
for the read semaphore has not failed. When all calls have returned and no such wait has failed, the head has the
references it had, and the read semaphore has been released as often as it was obtained. -/
theorem calls_balanced {refcnt : ℤ} {hd : Head} {as : List (Act (Routine × ℕ) Wakeup)}
    (hrun : exec (step world) (idleHead refcnt) as = some hd) :
    (∀ c ∈ hd.calls, c.prog.done = true → (c.acct.Balanced ↔ c.acct.interrupted = 0)) ∧
      ((∀ c ∈ hd.calls, c.prog.done = true ∧ c.acct.interrupted = 0) →
        hd.shared.sdRefcnt = refcnt ∧ hd.shared.sdReadSem = 1 ∧ hd.shared.sdRdsemcnt = 0) := by
  have hs : Settled rules Ended (Fits refcnt) hd := run_settled routine_ends (world_keeps refcnt)
    ⟨fun c hc => absurd hc List.not_mem_nil,⟨(add_zero refcnt).symm,rfl,Nat.zero_le _⟩⟩ hrun
  refine ⟨fun c hc hd => (hs.returned hc hd).balanced_iff,fun hall => ?_⟩
  have hzero {f : Held → ℕ} (hf : ∀ h, Ended h → h.interrupted = 0 → f h = 0) :
      total f (hd.calls.map Call.acct) = 0 := by
    refine total_eq_zero fun h hm => ?_
    obtain ⟨c,hc,rfl⟩ := List.mem_map.mp hm
    exact hf _ (hs.returned hc (hall c hc).1) (hall c hc).2
  obtain ⟨hr,hsem,hc⟩ := hs.inv
  rw [hzero fun h he h0 => he.refs.trans h0] at hr
  rw [hzero fun h he _ => he.waiting,hzero fun h _ h0 => h0] at hsem hc
  rw [hzero fun h he _ => he.sem] at hc
  exact ⟨hr.trans (add_zero refcnt),by omega,by omega⟩

/- The operations of a call with their outcomes. -/
def runs (i : ℕ) (bs : List Bool) : List (Act (Routine × ℕ) Wakeup) := bs.map (.step i)

/- A read of a message and a getmsg that waits for the semaphore meanwhile. A hangup wakes up everyone. -/
def twoReaders : List (Act (Routine × ℕ) Wakeup) :=
  [.call (.strread,2),.call (.strgetpmsg false,0)] ++ runs 0 [false,false,true,true,true] ++
    runs 1 [false,true,true] ++ [.other .allReadSem] ++
    runs 0 [false,false,false,true,true,false,true,true,false,true,true,true,true] ++
    runs 1 [true,false,false,false,false,true,true,true,false,false,false,true,true,true,true,true]

theorem calls_balanced_two : ∃ hd, exec (step world) (idleHead 1) twoReaders = some hd ∧
    (∀ c ∈ hd.calls, c.acct.Balanced) ∧ hd.shared.sdRefcnt = 1 ∧ hd.shared.sdReadSem = 1 ∧
    hd.shared.sdRdsemcnt = 0 := by
  have hrun : exec (step world) (idleHead 1) twoReaders = some _ := rfl
  obtain ⟨hcalls,hend⟩ := calls_balanced hrun
  exact ⟨_,hrun,fun c hc => (hcalls c hc (by revert c; decide)).mpr (by revert c; decide),hend (by decide)⟩

/- The wait of a read for the semaphore ends by a signal. -/
theorem strread_keeps : ¬ ∀ (refcnt : ℤ) (hd : Head) (as : List (Act (Routine × ℕ) Wakeup)),
    exec (step world) (idleHead refcnt) as = some hd → ∀ c ∈ hd.calls, c.prog.done = true → c.acct.Balanced := by
  intro h
  have hb := h 1 _ ([.call (.strread,0)] ++ runs 0 [false,false,true,true,false]) rfl _ (List.mem_singleton.mpr rfl) rfl
  exact absurd hb.refs (by decide)

end CSLiS.Calls
