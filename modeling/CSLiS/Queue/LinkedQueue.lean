import CSLiS.Queue.Flow

/-!
# A queue over linked message blocks (head/queue.c)

The queue as the source has it: `q_first` and `q_last`, and in every message
block the links `b_next` and `b_prev`. The blocks are those of a memory of `n`
cells. A walk along `b_next` visits at most `n` of them, which is the fuel that
the loops below are given.
-/

namespace CSLiS.Queue

structure Mblk (n : ℕ) where
  bNext : Option (Fin n)
  bPrev : Option (Fin n)
  body : Mbody
  deriving DecidableEq, Repr

/-- `queue_t` and the memory of its messages; `back` are the queues behind. -/
structure LinkedQueue (n : ℕ) where
  mem : Fin n → Mblk n
  core : Core (Fin n)
  qFirst : Option (Fin n)
  qLast : Option (Fin n)
  qDeferHead : Option (Fin n)
  qDeferTail : Option (Fin n)
  back : List BackQ

namespace LinkedQueue

variable {n : ℕ}

def next (q : LinkedQueue n) (p : Fin n) : Option (Fin n) := (q.mem p).bNext
def prev (q : LinkedQueue n) (p : Fin n) : Option (Fin n) := (q.mem p).bPrev
def info (q : LinkedQueue n) (p : Fin n) : Info := (q.mem p).body.info

def setNext (q : LinkedQueue n) (p : Fin n) (x : Option (Fin n)) : LinkedQueue n :=
  { q with mem := Function.update q.mem p { q.mem p with bNext := x } }
def setPrev (q : LinkedQueue n) (p : Fin n) (x : Option (Fin n)) : LinkedQueue n :=
  { q with mem := Function.update q.mem p { q.mem p with bPrev := x } }
def setBand (q : LinkedQueue n) (p : Fin n) (b : Uchar) : LinkedQueue n :=
  let m := q.mem p
  { q with mem := Function.update q.mem p { m with body := { m.body with bBand := b } } }

/-- A loop `for (; p != NULL && test(p); p = p->b_next) ;`. -/
def skip (q : LinkedQueue n) (test : Fin n → Bool) : ℕ → Option (Fin n) → Option (Fin n)
  | 0, p => p
  | _ + 1, none => none
  | k + 1, some p => if test p then skip q test k (q.next p) else some p

/-- `b_band` of a high-priority message is cleared once the queue is known to
have messages. -/
def clearBand (q : LinkedQueue n) (mp : Fin n) : LinkedQueue n :=
  if (q.info mp).hipri then q.setBand mp 0 else q

/-- `find_q_spot_head` (`queue.c:534-576`) from line 547 on: the place of a
message `i` in a queue that starts with `firstp`. -/
def headSpot (q : LinkedQueue n) (i : Info) (firstp : Fin n) : Option (Fin n) :=
  if i.hipri then some firstp
  else if !(q.info firstp).hipri && (q.info firstp).bBand ≤ i.bBand then some firstp
  else
    let pCont := q.skip (fun p => (q.info p).hipri) n (some firstp)
    q.skip (fun p => i.bBand < (q.info p).bBand) n pCont

def findQSpotHead (q : LinkedQueue n) (mp : Fin n) : LinkedQueue n × Option (Fin n) :=
  match q.qFirst with
  | none => (q,none)
  | some firstp => (q.clearBand mp,(q.clearBand mp).headSpot (q.info mp) firstp)

/-- `find_q_spot_tail` (`queue.c:578-631`) from line 594 on. -/
def tailSpot (q : LinkedQueue n) (i : Info) (firstp lastp : Fin n) : Option (Fin n) :=
  if (q.info lastp).hipri then none
  else if !i.hipri && i.bBand ≤ (q.info lastp).bBand then none
  else
    let pCont := q.skip (fun p => (q.info p).hipri) n (some firstp)
    if i.hipri then pCont else q.skip (fun p => i.bBand ≤ (q.info p).bBand) n pCont

/- Without `q_last` the source would read through NULL; a queue with a first
message has a last one. -/
def findQSpotTail (q : LinkedQueue n) (mp : Fin n) : LinkedQueue n × Option (Fin n) :=
  match q.qFirst,q.qLast with
  | some firstp,some lastp => (q.clearBand mp,(q.clearBand mp).tailSpot (q.info mp) firstp lastp)
  | _,_ => (q,none)

/-- `ins_before` (`queue.c:642-673`) -/
def insBefore (q : LinkedQueue n) (before : Option (Fin n)) (mp : Fin n) : LinkedQueue n :=
  match q.qFirst,before with
  | none,_ => { (q.setPrev mp none).setNext mp none with qFirst := some mp, qLast := some mp }
  | some _,none =>
      let q := match q.qLast with
        | none => q
        | some lastp => q.setNext lastp (some mp)
      { (q.setPrev mp q.qLast).setNext mp none with qLast := some mp }
  | some _,some b =>
      let q := (q.setNext mp (some b)).setPrev mp (q.prev b)
      let q := match q.prev b with
        | none => { q with qFirst := some mp }
        | some x => q.setNext x (some mp)
      q.setPrev b (some mp)

/-- `updatequeue(q, mp, 0, &psw, 1)`; a band structure can always be allocated. -/
def update (q : LinkedQueue n) (mp : Fin n) : LinkedQueue n :=
  { q with core := updatequeue q.info true false true q.core mp (q.prev mp) (q.next mp) }

/-- `lis_putq` (`queue.c:968-991`) -/
def lisPutq (q : LinkedQueue n) (mp : Fin n) : LinkedQueue n :=
  if q.core.qFlag.shut then q
  else
    let r := q.findQSpotTail mp
    (r.1.insBefore r.2 mp).update mp

/-- `lis_putbq` (`queue.c:1002-1024`) -/
def lisPutbq (q : LinkedQueue n) (mp : Fin n) : LinkedQueue n :=
  if q.core.qFlag.shut then q
  else
    let r := q.findQSpotHead mp
    (r.1.insBefore r.2 mp).update mp

/-- `rmv_msg` (`queue.c:770-799`) -/
def rmvMsg (q : LinkedQueue n) : Option (Fin n) → LinkedQueue n
  | none =>
      { q with core := { q.core with qFlag := { q.core.qFlag with qwantr := true, qback := true } } }
  | some mp =>
      let p := q.prev mp
      let x := q.next mp
      let q := { q with core := adjustQCount q.info true true q.core mp p x }
      let q := match p with
        | some y => q.setNext y x
        | none => { q with qFirst := x }
      let q := match x with
        | some y => q.setPrev y p
        | none => { q with qLast := p }
      (q.setPrev mp none).setNext mp none

def backenable (q : LinkedQueue n) : LinkedQueue n :=
  let r := lisBackenable q.core q.back
  { q with core := r.1, back := r.2.1 }

/-- `lis_getq` (`queue.c:937-961`) -/
def lisGetq (q : LinkedQueue n) : LinkedQueue n × Option (Fin n) :=
  if q.core.qFlag.shut then (q,none) else ((q.rmvMsg q.qFirst).backenable,q.qFirst)

/-- `lis_rmvq` (`queue.c:1084-1121`): a message that is not on the queue is left alone. -/
def lisRmvq (q : LinkedQueue n) (mp : Fin n) : LinkedQueue n :=
  if q.core.qFlag.shut then q
  else match q.skip (fun p => p ≠ mp) n q.qFirst with
    | none => q
    | some bp => (q.rmvMsg (some bp)).backenable

/-- The loop of `flush_worker` (`queue.c:1475-1519`). -/
def flushList (band : ℤ) (flushAll : Bool) : ℕ → LinkedQueue n → Option (Fin n) → LinkedQueue n
  | 0, q, _ => q
  | _ + 1, q, none => q
  | k + 1, q, some mp =>
      let pNext := q.next mp
      let q := q.setNext mp none
      let q := if flushes band flushAll (q.info mp) then q else q.lisPutq mp
      flushList band flushAll k q pNext

/-- `flush_worker` (`queue.c:1440-1579`) -/
def flushWorker (q : LinkedQueue n) (band : ℤ) (flushAll : Bool) : LinkedQueue n :=
  let wasfull := q.core.qFlag.qwasfull
  let s := { q with
    core := q.core.flushStart, qFirst := none, qLast := none, qDeferHead := none, qDeferTail := none }
  let s := flushList band flushAll n s q.qFirst
  let s := flushList band flushAll n s q.qDeferHead
  let r := (s.core.flushCheck wasfull).flushEnd s.qFirst.isSome s.back
  { s with core := r.1, back := r.2.1 }

def lisFlushband (q : LinkedQueue n) (band : Uchar) (flushAll : Bool) : LinkedQueue n :=
  q.flushWorker band flushAll
def lisFlushq (q : LinkedQueue n) (flushAll : Bool) : LinkedQueue n := q.flushWorker (-1) flushAll

/-- The messages from a pointer on, along `b_next`. -/
def walk (q : LinkedQueue n) : ℕ → Option (Fin n) → List (Fin n)
  | 0, _ => []
  | _ + 1, none => []
  | k + 1, some p => p :: walk q k (q.next p)

/- One call on the queue. A block that is put is handed over with any content
and links in it; it is not one that is on the queue. -/
inductive Op (n : ℕ) where
  | putq (mp : Fin n) (m : Mblk n)
  | putbq (mp : Fin n) (m : Mblk n)
  | getq
  | rmvq (mp : Fin n)
  | flushq (flushAll : Bool)
  | flushband (band : Uchar) (flushAll : Bool)

def fill (q : LinkedQueue n) (mp : Fin n) (m : Mblk n) : LinkedQueue n :=
  { q with mem := Function.update q.mem mp m }

def step (q : LinkedQueue n) : Op n → Option (LinkedQueue n)
  | .putq mp m => if mp ∈ q.walk n q.qFirst then none else some ((q.fill mp m).lisPutq mp)
  | .putbq mp m => if mp ∈ q.walk n q.qFirst then none else some ((q.fill mp m).lisPutbq mp)
  | .getq => some q.lisGetq.1
  | .rmvq mp => some (q.lisRmvq mp)
  | .flushq flushAll => some (q.lisFlushq flushAll)
  | .flushband band flushAll => some (q.lisFlushband band flushAll)

/-- An empty queue. -/
def empty (mem : Fin n → Mblk n) (qFlag : Qflag) (qHiwat qLowat : Ulong) (qiSrvp : Bool)
    (back : List BackQ) : LinkedQueue n :=
  ⟨mem,⟨0,qHiwat,qLowat,qFlag,[],qiSrvp⟩,none,none,none,none,back⟩

end LinkedQueue

end CSLiS.Queue
