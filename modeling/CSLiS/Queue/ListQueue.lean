import CSLiS.Queue.Spot

/-!
# A queue as a list of messages (head/queue.c)

The routines of the queue on the list of its messages and the list of its
deferred messages. They use the same counters, bands and places as the queue
over linked message blocks. `alloc` is the outcome of `LIS_QBAND_ALLOC` for a
message, should it be called.
-/

namespace CSLiS.Queue
open Lib.Split

structure ListQueue where
  core : Core Msg
  msgs : List Msg
  defer : List Msg
  deriving DecidableEq, Repr

namespace ListQueue

variable (alloc : Msg → Bool)

/-- `lis_putq` (`queue.c:968-991`); a closed queue frees the message. -/
def lisPutq (q : ListQueue) (mp : Msg) : ListQueue :=
  if q.core.qFlag.shut then q
  else
    let s := tailSplit Msg.info q.msgs mp.info
    let mp := if q.msgs.isEmpty then mp else mp.cleared
    { q with
      core := updatequeue Msg.info (alloc mp) false true q.core mp s.1.getLast? s.2.head?
      msgs := s.1 ++ mp :: s.2 }

/-- `rmv_msg` (`queue.c:770-799`) of the message between the two parts. -/
def rmvMsg (q : ListQueue) (k : List Msg) (mp : Msg) (m : List Msg) : ListQueue :=
  { q with
    core := adjustQCount Msg.info (alloc mp) true q.core mp k.getLast? m.head?
    msgs := k ++ m }

/-- `rmv_msg(q, NULL)` -/
def rmvNone (q : ListQueue) : ListQueue :=
  { q with core := { q.core with qFlag := { q.core.qFlag with qwantr := true, qback := true } } }

/-- `rmv_msg(q, q->q_first)` -/
def rmvFirst (q : ListQueue) : ListQueue :=
  match q.msgs with
  | [] => q.rmvNone
  | mp :: m => q.rmvMsg alloc [] mp m

/-- `lis_backenable`: the queue, the queues behind it, and whether one of them
was enabled. -/
def lisBackenable (q : ListQueue) (back : List BackQ) : ListQueue × List BackQ × Bool :=
  let r := Queue.lisBackenable q.core back
  ({ q with core := r.1 },r.2)

/-- `lis_getq` (`queue.c:937-961`) -/
def lisGetq (q : ListQueue) (back : List BackQ) : ListQueue × List BackQ × Bool :=
  if q.core.qFlag.shut then (q,back,false) else (q.rmvFirst alloc).lisBackenable back

/-- `lis_rmvq` (`queue.c:1084-1121`) of the message at an address. -/
def lisRmvq (q : ListQueue) (addr : ℕ) (back : List BackQ) : ListQueue × List BackQ × Bool :=
  if q.core.qFlag.shut then (q,back,false)
  else match splitFirst (fun mp => mp.addr == addr) q.msgs with
    | none => (q,back,false)
    | some z => (q.rmvMsg alloc z.1 z.2.1 z.2.2).lisBackenable back

/-- The loop of `flush_worker` (`queue.c:1475-1519`). -/
def flushList (band : ℤ) (flushAll : Bool) : ListQueue → List Msg → ListQueue
  | q, [] => q
  | q, mp :: l =>
      flushList band flushAll (if flushes band flushAll mp.info then q else q.lisPutq alloc mp) l

/-- `flush_worker` (`queue.c:1440-1579`) -/
def flushWorker (q : ListQueue) (band : ℤ) (flushAll : Bool) (back : List BackQ) :
    ListQueue × List BackQ × Bool :=
  let s := flushList alloc band flushAll ⟨q.core.flushStart,[],[]⟩ q.msgs
  let s := flushList alloc band flushAll s q.defer
  let r := (s.core.flushCheck q.core.qFlag.qwasfull).flushEnd (!s.msgs.isEmpty) back
  ({ s with core := r.1 },r.2)

def lisFlushband (q : ListQueue) (band : Uchar) (flushAll : Bool) (back : List BackQ) :
    ListQueue × List BackQ × Bool := q.flushWorker alloc band flushAll back
def lisFlushq (q : ListQueue) (flushAll : Bool) (back : List BackQ) : ListQueue × List BackQ × Bool :=
  q.flushWorker alloc (-1) flushAll back

/-- What `lis_bcanput` answers. -/
inductive Canput where
  | ok
  | full
  | noBand
  deriving DecidableEq, Repr

/-- `lis_bcanput` (`queue.c:2097-2163`) at the queue where its search ends. -/
def lisBcanput (allocBand : Bool) (q : ListQueue) (band : Uchar) : ListQueue × Canput :=
  if band ≠ 0 then
    match findQband Msg.info allocBand q.core band with
    | none => (q,.noBand)
    | some z =>
        let full := z.qp.qbFull
        let qp := if full then { z.qp with qbWantw := true } else z.qp
        ({ q with core := { q.core with qBandp := BandAt.chain { z with qp := qp } } },
          if full then .full else .ok)
  else if q.core.qFlag.qfull then
    ({ q with core := { q.core with qFlag := { q.core.qFlag with qwantw := true } } },.full)
  else (q,.ok)

/-- A queue without messages and bands. -/
def empty (qFlag : Qflag) (qHiwat qLowat : Ulong) (qiSrvp : Bool) : ListQueue :=
  ⟨⟨0,qHiwat,qLowat,qFlag,[],qiSrvp⟩,[],[]⟩

variable {alloc} {q : ListQueue} {mp : Msg} {addr : ℕ}

theorem cleared_alike : mp.cleared.info.Alike mp.info := by
  unfold Msg.cleared
  split_ifs with h
  · refine ⟨rfl,rfl,fun hf => ?_⟩
    rw [hf] at h
    cases h
  · exact ⟨rfl,rfl,fun _ => rfl⟩

theorem cleared_addr : mp.cleared.addr = mp.addr := by
  unfold Msg.cleared
  split_ifs <;> rfl

theorem cleared_ordinary (h : mp.info.inQCount = false) : mp.cleared = mp := by
  unfold Msg.cleared
  simp [(Info.inQCount_false h).1]

/-- The message as `lis_putq` links it in. -/
def entry (q : ListQueue) (mp : Msg) : Msg := if q.msgs.isEmpty then mp else mp.cleared

theorem entry_alike (mp : Msg) : (q.entry mp).info.Alike mp.info := by
  unfold entry
  split_ifs
  · exact ⟨rfl,rfl,fun _ => rfl⟩
  · exact cleared_alike

theorem entry_addr : (q.entry mp).addr = mp.addr := by
  unfold entry
  split_ifs
  · rfl
  · exact cleared_addr

theorem entry_ordinary (h : mp.info.inQCount = false) : q.entry mp = mp := by
  unfold entry
  split_ifs
  · rfl
  · exact cleared_ordinary h

/- What lis_putq does to an open queue. -/
theorem lisPutq_open (alloc : Msg → Bool) (mp : Msg) (hs : q.core.qFlag.shut = false) :
    ∃ k m, k ++ m = q.msgs ∧ (q.lisPutq alloc mp).msgs = k ++ q.entry mp :: m ∧
      (q.lisPutq alloc mp).defer = q.defer ∧
      (q.lisPutq alloc mp).core = updatequeue Msg.info (alloc (q.entry mp)) false true q.core
        (q.entry mp) k.getLast? m.head? ∧
      (Ordered Msg.info q.msgs → (∀ x ∈ k, mp.info.rank ≤ x.info.rank) ∧
        ∀ x ∈ m, x.info.rank ≤ mp.info.rank) := by
  refine ⟨_,_,tailSplit_append (v := Msg.info) (l := q.msgs) (i := mp.info),?_,?_,?_,tailSplit_spec⟩ <;>
    simp [lisPutq,hs,entry]

theorem lisPutq_tidy (h : Tidy Msg.info q.core q.msgs) (hs : q.core.qFlag.shut = false)
    (hmp : ∀ m ∈ q.msgs, m.addr ≠ mp.addr)
    (ha : mp.info.inQCount = false →
      (findQband Msg.info (alloc mp) q.core mp.info.bBand).isSome = true) :
    Tidy Msg.info (q.lisPutq alloc mp).core (q.lisPutq alloc mp).msgs := by
  obtain ⟨k,m,hkm,hmsgs,-,hcore,hrank⟩ := lisPutq_open alloc mp hs
  obtain ⟨hk,hm⟩ := hrank h.ordered
  rw [hmsgs,hcore]
  rw [← (entry_alike (q := q) mp).rank] at hk hm
  refine updatequeue_tidy _ _ (hkm ▸ h) (fun hmem => ?_) hk hm fun hq => ?_
  · exact hmp _ (hkm ▸ hmem) entry_addr
  · rw [(entry_alike mp).inQCount] at hq
    rw [entry_ordinary hq]
    exact ha hq

end ListQueue

end CSLiS.Queue
