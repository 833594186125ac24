import CSLiS.Lib.Exec
import CSLiS.Queue.ListQueue
import CSLiS.Queue.Marks

/-!
# A writer that is refused while the queue drains (head/queue.c)

`lis_bcanput` tests `QFULL` under the read lock and sets `QWANTW` under the write lock, in two sections. The other task
calls `lis_getq` until it returns NULL. A call takes a message in one section, tests in `lis_backenable` whether to
enable a queue behind, and clears the flags in a third.
-/

namespace CSLiS.Queue
open Lib.Exec

/- A queue whose count is that of its messages. -/
structure CountedQueue extends ListQueue where
  counted : core.qCount = sizes Msg.info (qMsgs Msg.info msgs)

/- Where `lis_bcanput(q, 0)` stands. -/
inductive Writer where
  | start
  | refused
  | done (rtn : ℕ)
  deriving DecidableEq, Repr

/- Where the calls of `lis_getq(q)` stand; `got` says whether the present one took a message. -/
inductive Reader where
  | call
  | test (got : Bool)
  | clear (got : Bool)
  | search (got : Bool)
  | done
  deriving DecidableEq, Repr

/- After the call: another one, unless it returned NULL. -/
def Reader.next (got : Bool) : Reader := if got then .call else .done

/- A call of `lis_getq` is still to come. -/
def Reader.toCome : Reader → Bool
  | .call => true
  | .test got | .clear got | .search got => got
  | .done => false

/- `woken`: a queue behind was enabled since the test of `QFULL`. `inTime`: when `QWANTW` was set the queue held a
message or a `lis_getq` was to come. -/
structure Gap where
  q : ListQueue
  writer : Writer
  reader : Reader
  woken : Bool
  inTime : Bool

namespace Gap

/- The sections of both tasks. For a removal the outcome of `LIS_QBAND_ALLOC` is given, for the search behind the queues
that `lis_backq` leads to. -/
inductive Act where
  | canput
  | want
  | remove (alloc : Bool)
  | test
  | clear
  | search (back : List BackQ)
  deriving DecidableEq, Repr

def setFlag (s : Gap) (f : Qflag) : Gap := { s with q := { s.q with core := { s.q.core with qFlag := f } } }

/-- `lis_bcanput(q, 0)` (`queue.c:2097-2163`) and `lis_getq(q)` with `lis_backenable` (`queue.c:878-961`). -/
def step (s : Gap) : Act → Option Gap
  | .canput => if s.writer = .start then
      some { s with writer := if s.q.core.qFlag.qfull then .refused else .done 1 } else none
  | .want => if s.writer = .refused then
      some { s.setFlag { s.q.core.qFlag with qwantw := true } with
        writer := .done 0, inTime := !s.q.msgs.isEmpty || s.reader.toCome } else none
  | .remove alloc => if s.reader = .call then
      if s.q.core.qFlag.shut then some { s with reader := .done }
      else some { s with q := s.q.rmvFirst fun _ => alloc, reader := .test (!s.q.msgs.isEmpty) } else none
  | .test => match s.reader with
      | .test got => some { s with reader := if s.q.core.wantsBack then .clear got else .next got }
      | _ => none
  | .clear => match s.reader with
      | .clear got => some { s.setFlag { s.q.core.qFlag with qwantw := false, qback := false } with
          reader := .search got }
      | _ => none
  | .search back => match s.reader with
      | .search got => some { s with
          reader := .next got, woken := s.woken || ((backSearch back).2 && s.writer != .start) }
      | _ => none

/- The test of the last call does not fall between the two sections of `lis_bcanput`, unless it succeeds or the writer
has been woken. A queue behind can be enabled. Once the reader is done, an empty queue is not full. -/
def Allowed (s : Gap) : Act → Prop
  | .canput => s.reader = .done → s.q.core.qFlag.qfull = true → s.q.msgs ≠ []
  | .remove _ => s.q.core.qFlag.shut = true → s.writer = .refused → s.woken = true ∨ s.q.msgs ≠ []
  | .test => s.reader = .test false → s.writer = .refused → s.woken = true ∨ s.q.core.wantsBack = true
  | .search back => (backSearch back).2 = true
  | .want | .clear => True

def start (q : CountedQueue) : Gap := ⟨q.toListQueue,.start,.call,false,false⟩

variable {s t : Gap}

/- What each place of the two tasks knows. -/
structure Inv (s : Gap) : Prop where
  counted : s.q.core.qCount = sizes Msg.info (qMsgs Msg.info s.q.msgs)
  empty : s.reader = .test false → s.q.msgs = [] ∧ s.q.core.qFlag.qback = true
  refused : s.writer = .refused → s.reader = .done → s.woken = true ∨ s.q.msgs ≠ []
  returned : s.writer = .done 0 → s.woken = true ∨ s.inTime = true ∨ s.reader = .clear false ∨ s.reader = .search false ∨
    (s.reader = .test false ∧ s.q.core.qFlag.qwantw = true)

theorem rmvFirst_counted {q : ListQueue} {alloc : Bool} (h : q.core.qCount = sizes Msg.info (qMsgs Msg.info q.msgs)) :
    (q.rmvFirst fun _ => alloc).core.qCount = sizes Msg.info (qMsgs Msg.info (q.rmvFirst fun _ => alloc).msgs) := by
  unfold ListQueue.rmvFirst
  cases hl : q.msgs with
  | nil => simpa [ListQueue.rmvNone,hl] using h
  | cons mp m =>
    obtain ⟨full,wasfull,wantw,qback,he⟩ := adjustQCount_eq true Msg.info alloc q.core mp [].getLast? m.head?
    rw [hl] at h
    show (adjustQCount Msg.info alloc true q.core mp [].getLast? m.head?).qCount = sizes Msg.info (qMsgs Msg.info m)
    rw [he]
    cases hq : mp.info.inQCount with
    | true =>
      rw [if_pos rfl,h,show mp :: m = [] ++ mp :: m from rfl,qMsgs_middle_in hq]
      exact BitVec.add_sub_cancel ..
    | false =>
      rw [if_neg (by decide),h,show mp :: m = [] ++ mp :: m from rfl,qMsgs_middle_out hq]
      rfl

/- On an empty queue a test with both flags set succeeds. -/
theorem wantsBack_empty (h : Inv s) (hr : s.reader = .test false) (hw : s.q.core.qFlag.qwantw = true) :
    s.q.core.wantsBack = true := by
  obtain ⟨hnil,hback⟩ := h.empty hr
  have hzero : s.q.core.qCount = 0 := by rw [h.counted,hnil]; rfl
  simp [Core.wantsBack,hw,hback,hzero,BitVec.le_def]

theorem inv_step (a : Act) (h : Inv s) (ha : Allowed s a) (hs : step s a = some t) : Inv t := by
  cases a with
  | canput =>
    simp only [step] at hs
    split_ifs at hs with hw hf
    · obtain rfl := Option.some.inj hs
      exact ⟨h.counted,h.empty,fun _ hd => .inr (ha hd hf),fun hd => (by cases hd)⟩
    · obtain rfl := Option.some.inj hs
      exact ⟨h.counted,h.empty,fun hr => (by cases hr),fun hd => (by cases hd)⟩
  | want =>
    simp only [step] at hs
    split_ifs at hs with hw
    obtain rfl := Option.some.inj hs
    refine ⟨h.counted,h.empty,fun hr => (by cases hr),fun _ => ?_⟩
    show s.woken = true ∨ (!s.q.msgs.isEmpty || s.reader.toCome) = true ∨ s.reader = .clear false ∨
      s.reader = .search false ∨ (s.reader = .test false ∧ true = true)
    cases hr : s.reader with
    | call => simp [Reader.toCome]
    | test got => cases got <;> simp [Reader.toCome]
    | clear got => cases got <;> simp [Reader.toCome]
    | search got => cases got <;> simp [Reader.toCome]
    | done =>
      -- the reader has gone: it woke the writer, or left messages on a closed queue
      refine (h.refused hw hr).imp_right fun hne => .inl ?_
      simp [hne]
  | remove alloc =>
    simp only [step] at hs
    split_ifs at hs with hr hshut
    · obtain rfl := Option.some.inj hs
      refine ⟨h.counted,fun hc => (by cases hc),fun hw _ => ha hshut hw,fun hd => ?_⟩
      have hret := h.returned hd
      rw [hr] at hret
      simpa using hret
    · obtain rfl := Option.some.inj hs
      refine ⟨rmvFirst_counted h.counted,fun hc => ?_,fun _ hc => (by cases hc),fun hd => ?_⟩
      · have hnil : s.q.msgs = [] := by simpa using hc
        simp [ListQueue.rmvFirst,ListQueue.rmvNone,hnil]
      · have hret := h.returned hd
        rw [hr] at hret
        rcases hret with hret | hret | hret | hret | ⟨hret,-⟩
        · exact .inl hret
        · exact .inr (.inl hret)
        all_goals cases hret
  | test =>
    simp only [step] at hs
    split at hs
    · next got hr =>
      obtain rfl := Option.some.inj hs
      split_ifs with hb
      · refine ⟨h.counted,fun hc => (by cases hc),fun _ hc => (by cases hc),fun hd => ?_⟩
        have hret := h.returned hd
        rw [hr] at hret
        rcases hret with hret | hret | hret | hret | ⟨hret,-⟩
        · exact .inl hret
        · exact .inr (.inl hret)
        · cases hret
        · cases hret
        · cases hret
          exact .inr (.inr (.inl rfl))
      · refine ⟨h.counted,fun hc => ?_,fun hw hd => ?_,fun hd => ?_⟩
        · cases got <;> cases hc
        · cases got with
          | true => cases hd
          | false => exact .inl ((ha hr hw).resolve_right hb)
        · have hret := h.returned hd
          rcases hret with hret | hret | hret | hret | ⟨hret,hwant⟩
          · exact .inl hret
          · exact .inr (.inl hret)
          · rw [hr] at hret
            cases hret
          · rw [hr] at hret
            cases hret
          · exact absurd (wantsBack_empty h hret hwant) hb
    · cases hs
  | clear =>
    simp only [step] at hs
    split at hs
    · next got hr =>
      obtain rfl := Option.some.inj hs
      refine ⟨h.counted,fun hc => (by cases hc),fun _ hc => (by cases hc),fun hd => ?_⟩
      have hret := h.returned hd
      rw [hr] at hret
      show s.woken = true ∨ s.inTime = true ∨ Reader.search got = .clear false ∨ Reader.search got = .search false ∨ _
      rcases hret with hret | hret | hret | hret | ⟨hret,-⟩
      · exact .inl hret
      · exact .inr (.inl hret)
      · cases hret
        exact .inr (.inr (.inr (.inl rfl)))
      · cases hret
      · cases hret
    · cases hs
  | search back =>
    simp only [step] at hs
    split at hs
    · next got hr =>
      obtain rfl := Option.some.inj hs
      have hwake : ∀ w, w ≠ Writer.start → s.writer = w →
          (s.woken || ((backSearch back).2 && s.writer != .start)) = true := by
        intro w hne hw
        have hb : (backSearch back).2 = true := ha
        rw [hw,hb]
        simp [hne]
      refine ⟨h.counted,fun hc => ?_,fun hw _ => .inl (hwake _ (by decide) hw),fun hw => .inl (hwake _ (by decide) hw)⟩
      cases got <;> cases hc
    · cases hs

/- When both are done, a refused writer has been woken or has recorded its wish in time. -/
theorem refused_is_woken (q : CountedQueue) (as : List Act) (hm : Meets step Allowed (start q) as)
    (h : exec step (start q) as = some s) (hw : s.writer = .done 0) (hr : s.reader = .done) :
    s.woken = true ∨ s.inTime = true := by
  have hstart : Inv (start q) :=
    ⟨q.counted,fun hc => (by cases hc),fun hc => (by cases hc),fun hc => (by cases hc)⟩
  have hinv := exec_preserves (I := Inv) (fun _ a _ hI hc hs => inv_step a hI hc hs) hstart hm h
  have hret := hinv.returned hw
  rw [hr] at hret
  simpa using hret

/- A full queue with one message of 16 bytes. -/
def brim : CountedQueue where
  toListQueue := (ListQueue.empty {} 8 4 true).lisPutq (fun _ => true) ⟨⟨0,false,⟨M_DATA,16,[]⟩,[]⟩,0⟩
  counted := by decide +kernel

/- The writer's queue, with a service procedure. -/
def writerq : List BackQ := [⟨{},true,0⟩]

instance (s : Gap) : ∀ a, Decidable (Allowed s a)
  | .canput => inferInstanceAs (Decidable (_ → _ → _))
  | .remove _ => inferInstanceAs (Decidable (_ → _ → _ ∨ _))
  | .test => inferInstanceAs (Decidable (_ → _ → _ ∨ _))
  | .search _ => inferInstanceAs (Decidable (_ = _))
  | .want | .clear => isTrue trivial

theorem refused_is_woken_last : ∃ s, exec step (start brim)
    [.canput,.remove true,.test,.remove true,.want,.test,.clear,.search writerq] = some s ∧
    (s.woken = true ∨ s.inTime = true) := by
  obtain ⟨s,hs,hp⟩ := (Option.any_eq_true _ _).mp (show (exec step (start brim)
    [.canput,.remove true,.test,.remove true,.want,.test,.clear,.search writerq]).any
      (fun s => s.writer == .done 0 && s.reader == .done) = true by decide +kernel)
  simp only [Bool.and_eq_true,beq_iff_eq] at hp
  exact ⟨s,hs,refused_is_woken brim _ (by decide +kernel) hs hp.1 hp.2⟩

/- The whole drain falls between the two sections of `lis_bcanput`. -/
theorem wish_too_late : ¬ ∀ (q : CountedQueue) (as : List Act) (s : Gap), exec step (start q) as = some s →
    s.writer = .done 0 → s.reader = .done → s.woken = true ∨ s.inTime = true := by
  intro h
  obtain ⟨s,hs,hp⟩ := (Option.any_eq_true _ _).mp (show (exec step (start brim)
    [.canput,.remove true,.test,.remove true,.test,.want]).any
      (fun s => s.writer == .done 0 && s.reader == .done && !s.woken && !s.inTime) = true by decide +kernel)
  simp only [Bool.and_eq_true,beq_iff_eq,Bool.not_eq_true'] at hp
  rcases h brim _ s hs hp.1.1.1 hp.1.1.2 with hc | hc
  · rw [hp.1.2] at hc
    cases hc
  · rw [hp.2] at hc
    cases hc

end Gap

end CSLiS.Queue
