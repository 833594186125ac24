import CSLiS.Queue.ListQueue
import CSLiS.Queue.Marks

/-!
# Deferred messages (head/queue.c, head/safe.c)

`lis_safe_do_putmsg` calls the put procedure of a queue, passes the message on
to the next queue, or puts it on the list of deferred messages, which
`lis_do_deferred_puts` works off later. What each of them does while it holds
the lock of the queue is one function here.
-/

namespace CSLiS.Deferred
open Queue

/-- `lis_defer_msg` (`queue.c:1194-1229`): a message that is tried again goes
to the head of the list, and is not counted. -/
def lisDeferMsg (alloc : Bool) (q : ListQueue) (mp : Msg) (retry : Bool) : ListQueue :=
  if retry then { q with defer := mp :: q.defer }
  else { q with
    defer := q.defer ++ [mp]
    core := updatequeue Msg.info alloc true false q.core mp none none }

inductive Verdict where
  | passOn
  | deferred
  | deliver
  deriving DecidableEq, Repr

/-- The locked part of `lis_safe_do_putmsg` (`safe.c:162-193`) at one queue.
`samestr` says whether a next queue in the same direction exists, `deferring`
whether the caller's flags hold `QDEFERRING`. -/
def putmsgSection (alloc : Bool) (q : ListQueue) (samestr deferring retry : Bool) (mp : Msg) :
    ListQueue × Verdict :=
  let f := q.core.qFlag
  if f.qprocsoff || f.qfrozen then
    if f.qprocsoff && samestr then (q,.passOn) else (lisDeferMsg alloc q mp retry,.deferred)
  else if f.qopening || (deferring && f.qdeferring) || !q.defer.isEmpty then
    (lisDeferMsg alloc q mp retry,.deferred)
  else (q,.deliver)

/-- `SAMESTR` of a queue that is followed by these. -/
def samestr (q : ListQueue) : List ListQueue → Bool
  | [] => false
  | n :: _ => q.core.qFlag.qreadr == n.core.qFlag.qreadr

/-- `lis_safe_do_putmsg` at the first of the queues that `q_next` leads through:
the queues, and at which of them the put procedure took the message. -/
def lisSafeDoPutmsg (alloc deferring retry : Bool) (mp : Msg) :
    List ListQueue → List ListQueue × Option ℕ
  | [] => ([],none)
  | q :: qs =>
      match putmsgSection alloc q (samestr q qs) deferring retry mp with
      | (_,.passOn) =>
          let r := lisSafeDoPutmsg alloc deferring retry mp qs
          (q :: r.1,r.2.map (· + 1))
      | (q,.deferred) => (q :: qs,none)
      | (q,.deliver) => (q :: qs,some 0)

def setDeferring (q : ListQueue) (b : Bool) : ListQueue :=
  { q with core := { q.core with qFlag := { q.core.qFlag with qdeferring := b } } }

/-- Taking the first deferred message off the list (`queue.c:1243-1249`). -/
def popDeferred (alloc : Bool) (q : ListQueue) (mp : Msg) (l : List Msg) : ListQueue :=
  { q with core := adjustQCount Msg.info alloc false q.core mp none none, defer := l }

/-- The loop of `lis_do_deferred_puts` when nothing else changes the list of
deferred messages: the queues, and the messages given to put procedures. -/
def deferredLoop (alloc : Msg → Bool) : List Msg → ListQueue → List ListQueue →
    List ListQueue × List (ℕ × Msg)
  | [], q, rest => (setDeferring q false :: rest,[])
  | mp :: l, q, rest =>
      match lisSafeDoPutmsg (alloc mp) false true mp (popDeferred (alloc mp) q mp l :: rest) with
      | (q :: rest,some i) =>
          let r := deferredLoop alloc l q rest
          (r.1,(i,mp) :: r.2)
      | (q :: rest,none) => (setDeferring q false :: rest,[])
      | ([],_) => ([],[])

/-- `lis_do_deferred_puts` (`queue.c:1231-1272`) at the first of these queues. -/
def lisDoDeferredPuts (alloc : Msg → Bool) (q : ListQueue) (rest : List ListQueue) :
    List ListQueue × List (ℕ × Msg) :=
  if q.defer.isEmpty || q.core.qFlag.qdeferring then (q :: rest,[])
  else deferredLoop alloc q.defer (setDeferring q true) rest

/-- The flags that keep the put procedure from being called are clear. -/
def Unhindered (f : Qflag) : Prop :=
  f.qprocsoff = false ∧ f.qfrozen = false ∧ f.qopening = false

/- A message for the examples. -/
def dataMsg (addr size : ℕ) : Msg := ⟨⟨0,false,⟨M_DATA,size,[]⟩,[]⟩,addr⟩

variable {alloc : Bool} {q : ListQueue} {mp : Msg} {l : List Msg}

theorem popDeferred_flag : Unhindered (popDeferred alloc q mp l).core.qFlag ↔ Unhindered q.core.qFlag := by
  obtain ⟨f,w,z,b,h⟩ := adjustQCount_eq false Msg.info alloc q.core mp none none
  simp only [popDeferred,Unhindered]
  rw [h]

theorem popDeferred_deferring :
    (popDeferred alloc q mp l).core.qFlag.qdeferring = q.core.qFlag.qdeferring := by
  obtain ⟨f,w,z,b,h⟩ := adjustQCount_eq false Msg.info alloc q.core mp none none
  simp only [popDeferred]
  rw [h]

theorem lisDeferMsg_flag (alloc : Bool) (q : ListQueue) (mp : Msg) (retry : Bool) :
    (Unhindered (lisDeferMsg alloc q mp retry).core.qFlag ↔
    Unhindered q.core.qFlag) ∧
    (lisDeferMsg alloc q mp retry).core.qFlag.qdeferring = q.core.qFlag.qdeferring := by
  cases retry with
  | true => exact ⟨Iff.rfl,rfl⟩
  | false =>
    obtain ⟨a,x,w,h,-⟩ := updatequeue_eq false Msg.info alloc true q.core mp none none
    simp only [lisDeferMsg,Bool.false_eq_true,if_false]
    rw [h]
    exact ⟨Iff.rfl,rfl⟩

/- Without hindrance a message is deferred exactly when it would overtake a
deferred one, or when the caller minds that a call is working the list off. -/
theorem putmsgSection_unhindered {s deferring retry : Bool} (h : Unhindered q.core.qFlag) :
    putmsgSection alloc q s deferring retry mp =
      if (deferring && q.core.qFlag.qdeferring) || !q.defer.isEmpty then
        (lisDeferMsg alloc q mp retry,.deferred)
      else (q,.deliver) := by
  obtain ⟨h1,h2,h3⟩ := h
  simp [putmsgSection,h1,h2,h3]

theorem lisSafeDoPutmsg_unhindered {deferring retry : Bool} {rest : List ListQueue}
    (h : Unhindered q.core.qFlag) :
    lisSafeDoPutmsg alloc deferring retry mp (q :: rest) =
      if (deferring && q.core.qFlag.qdeferring) || !q.defer.isEmpty then
        (lisDeferMsg alloc q mp retry :: rest,none)
      else (q :: rest,some 0) := by
  rw [lisSafeDoPutmsg,putmsgSection_unhindered h]
  split_ifs <;> rfl

end CSLiS.Deferred
