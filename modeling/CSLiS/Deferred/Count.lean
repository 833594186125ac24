import Mathlib
import CSLiS.Deferred.Putmsg
import CSLiS.Lib.Exec

/-!
# The byte count and the deferred list (head/queue.c, head/safe.c)

The queues of a stream in the order of `q_next`, the calls of
`lis_safe_do_putmsg` that are under way, and the calls of
`lis_do_deferred_puts` that wait for one of them. A message is added to the
count of a queue when it is deferred there, and subtracted when it is taken off
the list; when it is put back after that, it is not added again.
-/

namespace CSLiS.Deferred
open Queue Lib.Exec

/-- A call of `lis_safe_do_putmsg` between two locked parts: it has come to the
queue at `place`, and may have passed the test there. `origin` is the queue whose
deferred message is tried again. -/
structure Job where
  mp : Msg
  place : ℕ
  origin : Option ℕ
  passed : Bool
  deriving DecidableEq, Repr

structure Stream where
  qs : List ListQueue
  jobs : List Job
  returned : List (ℕ × Bool)
  deriving DecidableEq, Repr

inductive StreamAct where
  | putmsg (i : ℕ) (mp : Msg)
  | test (k : ℕ) (alloc : Bool)
  | put (k : ℕ)
  | start (i : ℕ) (alloc : Bool)
  | resume (k : ℕ) (alloc : Bool)
  | frozen (i : ℕ) (b : Bool)
  | procsoff (i : ℕ) (b : Bool)
  | putq (i : ℕ) (mp : Msg) (alloc : Bool)
  | getq (i : ℕ) (alloc : Bool)
  deriving DecidableEq, Repr

namespace Stream

/-- A call that was to try a deferred message again goes back to its loop. -/
def finish (s : Stream) (j : Job) (consumed : Bool) : List (ℕ × Bool) :=
  match j.origin with
  | none => s.returned
  | some o => s.returned ++ [(o,consumed)]

/-- One locked part of `lis_safe_do_putmsg`. -/
def test (s : Stream) (k : ℕ) (j : Job) (q : ListQueue) (alloc : Bool) : Stream :=
  match putmsgSection alloc q (samestr q (s.qs.drop (j.place + 1))) j.origin.isNone j.origin.isSome j.mp with
  | (_,.passOn) => { s with jobs := s.jobs.set k { j with place := j.place + 1 } }
  | (q,.deferred) =>
      { s with qs := s.qs.set j.place q, jobs := s.jobs.eraseIdx k, returned := s.finish j false }
  | (q,.deliver) => { s with qs := s.qs.set j.place q, jobs := s.jobs.set k { j with passed := true } }

/-- The next message of the list of the `i`th queue, or the end of the call. -/
def next (s : Stream) (i : ℕ) (q : ListQueue) (alloc : Bool) : Stream :=
  match q.defer with
  | [] => { s with qs := s.qs.set i (setDeferring q false) }
  | mp :: l =>
      { s with qs := s.qs.set i (popDeferred alloc q mp l), jobs := s.jobs ++ [⟨mp,i,some i,false⟩] }

def backQ (q : ListQueue) : BackQ := ⟨q.core.qFlag,q.core.qiSrvp,q.core.qCount⟩

def setFlags : List ListQueue → List BackQ → List ListQueue
  | q :: qs, b :: bs => { q with core := { q.core with qFlag := b.qFlag } } :: setFlags qs bs
  | qs, _ => qs

/-- `lis_getq` at the `i`th queue; `lis_backq` leads through the queues before it. -/
def getq (s : Stream) (i : ℕ) (q : ListQueue) (alloc : Bool) : Stream :=
  let before := (s.qs.take i).reverse
  let r := q.lisGetq (fun _ => alloc) (before.map backQ)
  { s with qs := (setFlags before r.2.1).reverse ++ r.1 :: s.qs.drop (i + 1) }

def step (s : Stream) : StreamAct → Option Stream
  | .putmsg i mp => some { s with jobs := s.jobs ++ [⟨mp,i,none,false⟩] }
  | .test k alloc =>
      match s.jobs[k]? with
      | none => none
      | some j => if j.passed then none else s.qs[j.place]?.map fun q => s.test k j q alloc
  | .put k =>
      match s.jobs[k]? with
      | none => none
      | some j =>
          if j.passed then some { s with jobs := s.jobs.eraseIdx k, returned := s.finish j true }
          else none
  | .start i alloc =>
      s.qs[i]?.map fun q =>
        if q.defer.isEmpty || q.core.qFlag.qdeferring then s else s.next i (setDeferring q true) alloc
  | .resume k alloc =>
      match s.returned[k]? with
      | none => none
      | some (i,consumed) =>
          let s := { s with returned := s.returned.eraseIdx k }
          s.qs[i]?.map fun q =>
            if consumed then s.next i q alloc else { s with qs := s.qs.set i (setDeferring q false) }
  | .frozen i b =>
      s.qs[i]?.map fun q => { s with
        qs := s.qs.set i { q with core := { q.core with qFlag := { q.core.qFlag with qfrozen := b } } } }
  | .procsoff i b =>
      s.qs[i]?.map fun q => { s with
        qs := s.qs.set i { q with core := { q.core with qFlag := { q.core.qFlag with qprocsoff := b } } } }
  | .putq i mp alloc => s.qs[i]?.map fun q => { s with qs := s.qs.set i (q.lisPutq (fun _ => alloc) mp) }
  | .getq i alloc => s.qs[i]?.map fun q => s.getq i q alloc

/-- A message that is tried again at this queue is deferred again. -/
def redefers (q : ListQueue) (same : Bool) : Bool :=
  let f := q.core.qFlag
  if f.qprocsoff || f.qfrozen then !(f.qprocsoff && same) else f.qopening || !q.defer.isEmpty

/-- A deferred message is put back only if `q_count` does not depend on it. -/
def Guard (s : Stream) : StreamAct → Prop
  | .test k _ =>
      ∀ j ∈ s.jobs[k]?, ∀ q ∈ s.qs[j.place]?, j.origin.isSome = true →
        redefers q (samestr q (s.qs.drop (j.place + 1))) = true →
        j.mp.info.inQCount = false ∨ j.mp.info.size = 0
  | _ => True

instance Guard.decidable (s : Stream) : ∀ a, Decidable (Guard s a)
  | .test _ _ => by unfold Guard; infer_instance
  | .putmsg _ _ | .put _ | .start _ _ | .resume _ _ | .frozen _ _ | .procsoff _ _ | .putq _ _ _
    | .getq _ _ => .isTrue trivial

/- The high-priority and band-0 messages of a queue and of its deferred list. -/
def counted (q : ListQueue) : List Msg := qMsgs Msg.info (q.msgs ++ q.defer)

def Counted (q : ListQueue) : Prop := q.core.qCount = sizes Msg.info (counted q)

/-- The queues as allocated, no call under way. -/
def Idle (s : Stream) : Prop :=
  (∀ q ∈ s.qs, q.core.qCount = 0 ∧ q.msgs = [] ∧ q.defer = []) ∧ s.jobs = [] ∧ s.returned = []

variable {q q' : ListQueue} {mp : Msg} {alloc : Bool} {l : List Msg} {s t : Stream} {a : StreamAct}

/- What one message contributes. -/
def share (i : Info) : Ulong := if i.inQCount then i.size else 0

theorem sizes_qMsgs_cons : sizes Msg.info (qMsgs Msg.info (mp :: l)) =
    share mp.info + sizes Msg.info (qMsgs Msg.info l) := by
  cases h : mp.info.inQCount <;> simp [qMsgs,h,sizes_cons,share]

theorem share_alike {i j : Info} (h : i.Alike j) : share i = share j := by
  simp only [share,h.inQCount,h.2.1]

theorem counted_iff : Counted q ↔ q.core.qCount =
    sizes Msg.info (qMsgs Msg.info q.msgs) + sizes Msg.info (qMsgs Msg.info q.defer) := by
  rw [Counted,counted,qMsgs_append,sizes_append]

theorem updatequeue_count {fromInsq bandPtrs : Bool} {prev next : Option Msg} :
    (updatequeue Msg.info alloc fromInsq bandPtrs q.core mp prev next).qCount =
      q.core.qCount + share mp.info := by
  obtain ⟨a,x,w,h,-⟩ := updatequeue_eq bandPtrs Msg.info alloc fromInsq q.core mp prev next
  rw [h]
  cases hq : mp.info.inQCount <;> simp [share,hq]

theorem adjustQCount_count {bandPtrs : Bool} {prev next : Option Msg} :
    (adjustQCount Msg.info alloc bandPtrs q.core mp prev next).qCount =
      q.core.qCount - share mp.info := by
  obtain ⟨f,w,z,b,h⟩ := adjustQCount_eq bandPtrs Msg.info alloc q.core mp prev next
  rw [h]
  cases hq : mp.info.inQCount <;> simp [share,hq]

/- A change of flags only. -/
theorem Counted.of_eq (h : Counted q) (hc : q'.core.qCount = q.core.qCount) (hm : q'.msgs = q.msgs)
    (hd : q'.defer = q.defer) : Counted q' := by
  rw [counted_iff] at h ⊢
  rw [hc,hm,hd,h]

theorem setDeferring_counted {b : Bool} (h : Counted q) : Counted (setDeferring q b) :=
  h.of_eq rfl rfl rfl

/- The message is added where the list grows, but not when it is put back. -/
theorem lisDeferMsg_counted {retry : Bool} (h : Counted q) (hr : retry = true → share mp.info = 0) :
    Counted (lisDeferMsg alloc q mp retry) := by
  rw [counted_iff] at h ⊢
  cases retry with
  | true =>
    show q.core.qCount =
      sizes Msg.info (qMsgs Msg.info q.msgs) + sizes Msg.info (qMsgs Msg.info (mp :: q.defer))
    rw [sizes_qMsgs_cons,hr rfl,zero_add,h]
  | false =>
    show (updatequeue Msg.info alloc true false q.core mp none none).qCount =
      sizes Msg.info (qMsgs Msg.info q.msgs) + sizes Msg.info (qMsgs Msg.info (q.defer ++ [mp]))
    rw [updatequeue_count,qMsgs_append,sizes_append,sizes_qMsgs_cons,h]
    simp [BitVec.add_assoc]

theorem popDeferred_counted (h : Counted q) (hl : q.defer = mp :: l) :
    Counted (popDeferred alloc q mp l) := by
  rw [counted_iff] at h ⊢
  show (adjustQCount Msg.info alloc false q.core mp none none).qCount =
    sizes Msg.info (qMsgs Msg.info q.msgs) + sizes Msg.info (qMsgs Msg.info l)
  rw [adjustQCount_count,h,hl,sizes_qMsgs_cons]
  ring

theorem lisPutq_counted {alloc : Msg → Bool} (h : Counted q) : Counted (q.lisPutq alloc mp) := by
  cases hs : q.core.qFlag.shut with
  | true => simpa [ListQueue.lisPutq,hs] using h
  | false =>
    obtain ⟨k,m,hkm,hmsgs,hdefer,hcore,-⟩ := ListQueue.lisPutq_open alloc mp hs
    rw [counted_iff] at h ⊢
    rw [hmsgs,hdefer,hcore,updatequeue_count,h,← hkm,share_alike (ListQueue.entry_alike mp)]
    simp only [qMsgs_append,sizes_append,sizes_qMsgs_cons,share_alike (ListQueue.entry_alike mp)]
    ring

theorem rmvFirst_counted (alloc : Msg → Bool) (h : Counted q) : Counted (q.rmvFirst alloc) := by
  cases hm : q.msgs with
  | nil =>
    simp only [ListQueue.rmvFirst,hm]
    exact h.of_eq rfl rfl rfl
  | cons mp m =>
    simp only [ListQueue.rmvFirst,hm]
    rw [counted_iff] at h ⊢
    show (adjustQCount Msg.info (alloc mp) true q.core mp _ _).qCount =
      sizes Msg.info (qMsgs Msg.info ([] ++ m)) + sizes Msg.info (qMsgs Msg.info q.defer)
    rw [adjustQCount_count,h,hm,sizes_qMsgs_cons,List.nil_append]
    ring

theorem lisGetq_counted {alloc : Msg → Bool} {back : List BackQ} (h : Counted q) :
    Counted (q.lisGetq alloc back).1 := by
  unfold ListQueue.lisGetq
  split_ifs with hs
  · exact h
  · have hr := rmvFirst_counted alloc h
    refine hr.of_eq ?_ rfl rfl
    simp only [ListQueue.lisBackenable,Queue.lisBackenable]
    split_ifs <;> rfl

theorem setFlags_counted {qs : List ListQueue} {bs : List BackQ} (h : ∀ q ∈ qs, Counted q) :
    ∀ q ∈ setFlags qs bs, Counted q := by
  induction qs, bs using setFlags.induct with
  | case1 q qs b bs ih =>
    obtain ⟨hq,hqs⟩ := List.forall_mem_cons.mp h
    rw [setFlags]
    exact List.forall_mem_cons.mpr ⟨hq.of_eq rfl rfl rfl,ih hqs⟩
  | case2 qs bs hne =>
    rw [setFlags]
    · exact h
    · exact hne

/- One queue is replaced. -/
theorem set_counted {i : ℕ} {qs : List ListQueue} (h : ∀ q ∈ qs, Counted q) (hq : Counted q) :
    ∀ q' ∈ qs.set i q, Counted q' := by
  intro q' hq'
  cases List.mem_or_eq_of_mem_set hq' with
  | inl hm => exact h q' hm
  | inr he => exact he ▸ hq

theorem next_counted {i : ℕ} (h : ∀ q ∈ s.qs, Counted q) (hq : Counted q) :
    ∀ q' ∈ (s.next i q alloc).qs, Counted q' := by
  unfold next
  cases hd : q.defer with
  | nil => exact set_counted h (setDeferring_counted hq)
  | cons mp l => exact set_counted h (popDeferred_counted hq hd)

theorem getq_counted {i : ℕ} (h : ∀ q ∈ s.qs, Counted q) (hq : Counted q) :
    ∀ q' ∈ (s.getq i q alloc).qs, Counted q' := by
  intro q' hq'
  have hbefore : ∀ q ∈ (s.qs.take i).reverse, Counted q :=
    fun q hm => h q (List.mem_of_mem_take (List.mem_reverse.mp hm))
  cases List.mem_append.mp hq' with
  | inl hm => exact setFlags_counted hbefore q' (List.mem_reverse.mp hm)
  | inr hm =>
    cases List.mem_cons.mp hm with
    | inl he => exact he ▸ lisGetq_counted hq
    | inr hm => exact h q' (List.mem_of_mem_drop hm)

/- A message that is tried again is put back exactly where `redefers` says so. -/
theorem putmsgSection_counted {same deferring retry : Bool} {v : Verdict} (h : Counted q)
    (hg : retry = true → redefers q same = true → share mp.info = 0)
    (hs : putmsgSection alloc q same deferring retry mp = (q',v))
    (hd : retry = true → deferring = false) : Counted q' := by
  have hback : ∀ b, redefers q same = b → (lisDeferMsg alloc q mp retry,Verdict.deferred) = (q',v) →
      (retry = true → b = true) → Counted q' := by
    intro b hb he ht
    obtain ⟨rfl,-⟩ := Prod.mk.inj he
    exact lisDeferMsg_counted h fun hr => hg hr (hb.trans (ht hr))
  simp only [putmsgSection] at hs
  split_ifs at hs with h1 h2 h3
  · exact (Prod.mk.inj hs).1 ▸ h
  · refine hback _ rfl hs fun _ => ?_
    simp only [redefers,h1,if_true]
    cases hp : q.core.qFlag.qprocsoff <;> simp_all
  · refine hback _ rfl hs fun hr => ?_
    rw [hd hr,Bool.false_and,Bool.or_false] at h3
    simpa [redefers,h1] using h3
  · exact (Prod.mk.inj hs).1 ▸ h

theorem test_counted {k : ℕ} {j : Job} (h : ∀ q ∈ s.qs, Counted q) (hj : s.jobs[k]? = some j)
    (hq : s.qs[j.place]? = some q) (hg : Guard s (.test k alloc)) :
    ∀ q' ∈ (s.test k j q alloc).qs, Counted q' := by
  have hguard : j.origin.isSome = true →
      redefers q (samestr q (s.qs.drop (j.place + 1))) = true → share j.mp.info = 0 := by
    intro ho hr
    cases hg j hj q hq ho hr with
    | inl hn => simp [share,hn]
    | inr hz => simp [share,hz]
  have hcounted := h q (List.mem_of_getElem? hq)
  unfold test
  split
  · exact h
  · next heq =>
    exact set_counted h (putmsgSection_counted hcounted hguard heq (by cases j.origin <;> simp))
  · next heq =>
    exact set_counted h (putmsgSection_counted hcounted hguard heq (by cases j.origin <;> simp))

theorem step_counted (h : ∀ q ∈ s.qs, Counted q) (hg : Guard s a) (hs : s.step a = some t) :
    ∀ q ∈ t.qs, Counted q := by
  have hat : ∀ {i q}, s.qs[i]? = some q → Counted q := fun hq => h _ (List.mem_of_getElem? hq)
  cases a with
  | putmsg i mp =>
    obtain rfl := Option.some.inj hs
    exact h
  | test k alloc =>
    simp only [step] at hs
    cases hj : s.jobs[k]? with
    | none => simp [hj] at hs
    | some j =>
      simp only [hj] at hs
      split_ifs at hs
      obtain ⟨q,hq,rfl⟩ := Option.map_eq_some_iff.mp hs
      exact test_counted h hj hq hg
  | put k =>
    simp only [step] at hs
    cases hj : s.jobs[k]? with
    | none => simp [hj] at hs
    | some j =>
      simp only [hj] at hs
      split_ifs at hs
      obtain rfl := Option.some.inj hs
      exact h
  | start i alloc =>
    obtain ⟨q,hq,rfl⟩ := Option.map_eq_some_iff.mp hs
    split_ifs
    · exact h
    · exact next_counted h (setDeferring_counted (hat hq))
  | resume k alloc =>
    simp only [step] at hs
    cases hk : s.returned[k]? with
    | none => simp [hk] at hs
    | some r =>
      simp only [hk] at hs
      obtain ⟨q,hq,rfl⟩ := Option.map_eq_some_iff.mp hs
      split_ifs
      · exact next_counted h (hat hq)
      · exact set_counted h (setDeferring_counted (hat hq))
  | frozen i b =>
    obtain ⟨q,hq,rfl⟩ := Option.map_eq_some_iff.mp hs
    exact set_counted h ((hat hq).of_eq rfl rfl rfl)
  | procsoff i b =>
    obtain ⟨q,hq,rfl⟩ := Option.map_eq_some_iff.mp hs
    exact set_counted h ((hat hq).of_eq rfl rfl rfl)
  | putq i mp alloc =>
    obtain ⟨q,hq,rfl⟩ := Option.map_eq_some_iff.mp hs
    exact set_counted h (lisPutq_counted (hat hq))
  | getq i alloc =>
    obtain ⟨q,hq,rfl⟩ := Option.map_eq_some_iff.mp hs
    exact getq_counted h (hat hq)

/-- In a run in which no counted message is put back on a deferred list, the
counter of every queue is exact and does not wrap. -/
theorem bytes_counted {acts : List StreamAct} (hi : Idle s) (hm : Meets step Guard s acts)
    (h : exec step s acts = some t) : ∀ q ∈ t.qs, Exact Msg.info q.core.qCount (counted q) := by
  have hstart : ∀ q ∈ s.qs, Counted q := by
    intro q hq
    obtain ⟨hc,hm,hd⟩ := hi.1 q hq
    simp [Counted,counted,hc,hm,hd]
  intro q hq
  exact .of_sizes (exec_preserves (I := fun s => ∀ q ∈ s.qs, Counted q)
    (fun _ _ _ hI hg hs => step_counted hI hg hs) hstart hm h q hq)

def twoQueues : Stream :=
  ⟨[.empty { qprocsoff := true } 100 20 false,.empty { qfrozen := true } 100 20 true],[],[]⟩

/- A message is passed over a queue whose procedures are off and deferred on a
frozen one. Thawed, it is delivered, put on the list of messages and removed. -/
theorem bytes_counted_run : ∃ t, exec step twoQueues [.putmsg 0 (dataMsg 0 8),.test 0 true,
      .test 0 true,.frozen 1 false,.start 1 true,.test 0 true,.put 0,.putq 1 (dataMsg 0 8) true,
      .resume 0 true,.getq 1 true] = some t ∧
    ∀ q ∈ t.qs, Exact Msg.info q.core.qCount (counted q) := by
  obtain ⟨t,ht⟩ := Option.isSome_iff_exists.mp (show (exec step twoQueues
    [.putmsg 0 (dataMsg 0 8),.test 0 true,.test 0 true,.frozen 1 false,.start 1 true,.test 0 true,
      .put 0,.putq 1 (dataMsg 0 8) true,.resume 0 true,.getq 1 true]).isSome = true by decide +kernel)
  exact ⟨t,ht,bytes_counted ⟨by decide,rfl,rfl⟩ (by decide +kernel) ht⟩

def retried : List StreamAct := [.start 0 true,.test 0 true,.resume 0 true]

/- Two messages deferred on a frozen queue. Thawed, the first is subtracted and
put back because of the second; with the fourth attempt the counter wraps. -/
theorem count_wraps : ∃ t, exec step ⟨[.empty { qfrozen := true } 100 20 true],[],[]⟩
      ([.putmsg 0 (dataMsg 0 8),.test 0 true,.putmsg 0 (dataMsg 1 16),.test 0 true,.frozen 0 false] ++
        retried ++ retried ++ retried ++ [.start 0 true]) = some t ∧
    ¬∀ q ∈ t.qs, Exact Msg.info q.core.qCount (counted q) := by
  obtain ⟨t,ht,hp⟩ := (Option.any_eq_true _ _).mp (show (exec step
    ⟨[.empty { qfrozen := true } 100 20 true],[],[]⟩
      ([.putmsg 0 (dataMsg 0 8),.test 0 true,.putmsg 0 (dataMsg 1 16),.test 0 true,.frozen 0 false] ++
        retried ++ retried ++ retried ++ [.start 0 true])).any
    (fun t => t.qs.any fun q => q.core.qCount == BitVec.ofInt 64 (-8) && byteSum Msg.info (counted q) == 16) = true
    by decide +kernel)
  refine ⟨t,ht,fun h => ?_⟩
  obtain ⟨q,hq,he⟩ := List.any_eq_true.mp hp
  simp only [Bool.and_eq_true,beq_iff_eq] at he
  have hc := ((h q hq).2 (by omega)).1
  rw [he.1,he.2] at hc
  exact absurd hc (by decide)

end Stream

end CSLiS.Deferred
