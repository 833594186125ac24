import CSLiS.Deferred.Putmsg
import CSLiS.Lib.Exec

/-!
# The order of deferred messages (head/queue.c, head/safe.c)

A call of `lis_do_deferred_puts` takes the first message off the list and hands
it to `lis_safe_do_putmsg`, which puts it back as long as there are others on
the list. The call then ends. So a call empties the list only if it finds one
message on it; the order is kept in any case, as long as the put procedure is
entered in the order in which the tests were passed.
-/

namespace CSLiS.Deferred
open Queue Lib.Exec

variable {alloc : Msg → Bool} {q : ListQueue} {rest : List ListQueue}

/- Alone, the loop passes on a single message and gives up on more. -/
theorem deferredLoop_unhindered {mp : Msg} {l : List Msg} (h : Unhindered q.core.qFlag) :
    deferredLoop alloc (mp :: l) q rest =
      if l = [] then (setDeferring (popDeferred (alloc mp) q mp []) false :: rest,[(0,mp)])
      else (setDeferring (lisDeferMsg (alloc mp) (popDeferred (alloc mp) q mp l) mp true) false :: rest,[]) := by
  have hp : Unhindered (popDeferred (alloc mp) q mp l).core.qFlag := popDeferred_flag.mpr h
  rw [deferredLoop,lisSafeDoPutmsg_unhindered hp]
  cases l with
  | nil => rfl
  | cons x l => rfl

/-- A call that nothing interferes with works the list off exactly if it holds
at most one message. -/
theorem lisDoDeferredPuts_iff (h : Unhindered q.core.qFlag) (hd : q.core.qFlag.qdeferring = false) :
    ((lisDoDeferredPuts alloc q rest).2 = q.defer.map (fun mp => (0,mp)) ∧
      (lisDoDeferredPuts alloc q rest).1.head?.map ListQueue.defer = some []) ↔
    q.defer.length ≤ 1 := by
  have hs : Unhindered (setDeferring q true).core.qFlag := h
  cases hl : q.defer with
  | nil => simp [lisDoDeferredPuts,hl]
  | cons mp l =>
    simp only [lisDoDeferredPuts,hl,hd,List.isEmpty_cons,Bool.or_self,Bool.false_eq_true,if_false]
    rw [deferredLoop_unhindered hs]
    cases l with
    | nil => simp [setDeferring,popDeferred]
    | cons x l => simp

/-- Where a call of `lis_do_deferred_puts` stands between two locked parts. -/
inductive Phase where
  | idle
  | popped (mp : Msg)
  | calling
  | returned
  | gaveUp
  deriving DecidableEq, Repr

def Phase.held : Phase → List Msg
  | .popped mp => [mp]
  | _ => []

/- One queue with any number of tasks in `lis_safe_putmsg` and one in
`lis_do_deferred_puts`, which `QDEFERRING` keeps alone. `hand` are the messages
that passed the test and have not reached the put procedure, with a mark for
that of the deferred call; `seen` are those the put procedure was called with. -/
structure Traffic where
  q : ListQueue
  hand : List (Msg × Bool)
  phase : Phase
  seen : List Msg
  submitted : List Msg
  deriving DecidableEq, Repr

inductive Act where
  | putmsg (mp : Msg) (alloc : Bool)
  | put (k : ℕ)
  | start (alloc : Bool)
  | test (alloc : Bool)
  | resume (alloc : Bool)
  deriving DecidableEq, Repr

namespace Traffic

/-- The next message of the list, or the end of the call (`queue.c:1241-1270`). -/
def next (s : Traffic) (alloc : Bool) : Traffic :=
  match s.q.defer with
  | [] => { s with q := setDeferring s.q false, phase := .idle }
  | mp :: l => { s with q := popDeferred alloc s.q mp l, phase := .popped mp }

def step (s : Traffic) : Act → Option Traffic
  | .putmsg mp alloc =>
      match putmsgSection alloc s.q false true false mp with
      | (_,.passOn) => none
      | (q,.deferred) => some { s with q := q, submitted := s.submitted ++ [mp] }
      | (q,.deliver) =>
          some { s with q := q, hand := s.hand ++ [(mp,false)], submitted := s.submitted ++ [mp] }
  | .put k =>
      match s.hand[k]? with
      | none => none
      | some (mp,mine) =>
          some { s with
            hand := s.hand.eraseIdx k
            seen := s.seen ++ [mp]
            phase := if mine then .returned else s.phase }
  | .start alloc =>
      if s.q.defer.isEmpty || s.q.core.qFlag.qdeferring then some s
      else some ({ s with q := setDeferring s.q true }.next alloc)
  | .test alloc =>
      match s.phase with
      | .popped mp =>
          match putmsgSection alloc s.q false false true mp with
          | (_,.passOn) => none
          | (q,.deferred) => some { s with q := q, phase := .gaveUp }
          | (q,.deliver) => some { s with q := q, hand := s.hand ++ [(mp,true)], phase := .calling }
      | _ => none
  | .resume alloc =>
      match s.phase with
      | .returned => some (s.next alloc)
      | .gaveUp => some { s with q := setDeferring s.q false, phase := .idle }
      | _ => none

/-- The put procedure is entered in the order in which the tests were passed,
and a deferred message is tried again when no other one is on the list. -/
def InTurn (s : Traffic) : Act → Prop
  | .put k => k = 0
  | .test _ => s.q.defer = []
  | _ => True

instance InTurn.decidable (s : Traffic) : ∀ a, Decidable (InTurn s a)
  | .put k => inferInstanceAs (Decidable (k = 0))
  | .test _ => inferInstanceAs (Decidable (s.q.defer = []))
  | .putmsg _ _ | .start _ | .resume _ => inferInstanceAs (Decidable True)

def start (q : ListQueue) : Traffic := ⟨q,[],.idle,[],q.defer⟩

structure Inv (s : Traffic) : Prop where
  flags : Unhindered s.q.core.qFlag
  deferring : s.phase ≠ .idle → s.q.core.qFlag.qdeferring = true
  mine : (s.hand.filter Prod.snd).length = if s.phase = .calling then 1 else 0
  going : s.phase ≠ .gaveUp
  order : s.seen ++ s.hand.map Prod.fst ++ s.phase.held ++ s.q.defer = s.submitted

variable {s t : Traffic} {a : Act}

theorem next_inv {alloc : Bool} (hf : Unhindered s.q.core.qFlag)
    (hd : s.q.core.qFlag.qdeferring = true) (hm : (s.hand.filter Prod.snd).length = 0)
    (ho : s.seen ++ s.hand.map Prod.fst ++ s.q.defer = s.submitted) : Inv (s.next alloc) := by
  unfold next
  cases hl : s.q.defer with
  | nil => exact ⟨hf,fun h => absurd rfl h,hm,by simp,by simpa [Phase.held,setDeferring,hl] using ho⟩
  | cons mp l =>
    refine ⟨popDeferred_flag.mpr hf,fun _ => popDeferred_deferring.trans hd,hm,by simp,?_⟩
    rw [← ho,hl]
    simp [Phase.held,popDeferred]

/- A new message: behind all others if it is deferred; if it may go to the put
procedure, nothing is on the list and no call is on its way. -/
theorem putmsg_inv {mp : Msg} {alloc : Bool} (h : Inv s) (hs : s.step (.putmsg mp alloc) = some t) :
    Inv t := by
  obtain ⟨hf,hd,hm,hg,ho⟩ := h
  simp only [step,putmsgSection_unhindered hf,Bool.true_and] at hs
  by_cases hc : (s.q.core.qFlag.qdeferring || !s.q.defer.isEmpty) = true
  · rw [if_pos hc] at hs
    obtain rfl := Option.some.inj hs
    obtain ⟨hfl,hdf⟩ := lisDeferMsg_flag alloc s.q mp false
    refine ⟨hfl.mpr hf,fun hp => hdf.trans (hd hp),hm,hg,?_⟩
    rw [← ho]
    simp [lisDeferMsg]
  · rw [if_neg hc] at hs
    obtain rfl := Option.some.inj hs
    simp only [Bool.or_eq_true,Bool.not_eq_true',not_or,Bool.not_eq_true,Bool.not_eq_false] at hc
    obtain ⟨hq,he⟩ := hc
    have hidle : s.phase = .idle := by
      by_contra hp
      rw [hd hp] at hq
      cases hq
    refine ⟨hf,hd,by simpa using hm,hg,?_⟩
    rw [← ho]
    simp [hidle,Phase.held,List.isEmpty_iff.mp he]

theorem test_inv {alloc : Bool} (h : Inv s) (he : s.q.defer = [])
    (hs : s.step (.test alloc) = some t) : Inv t := by
  obtain ⟨hf,hd,hm,hg,ho⟩ := h
  simp only [step] at hs
  cases hp : s.phase with
  | popped mp =>
    simp only [hp,putmsgSection_unhindered hf,he,List.isEmpty_nil,Bool.false_and,Bool.not_true,
      Bool.or_self,Bool.false_eq_true,if_false,Option.some.injEq] at hs
    subst hs
    simp only [hp,Phase.held] at hm ho
    refine ⟨hf,fun _ => hd (by simp [hp]),by simpa using hm,by simp,?_⟩
    rw [← ho]
    simp [Phase.held,he]
  | idle => simp [hp] at hs
  | calling => simp [hp] at hs
  | returned => simp [hp] at hs
  | gaveUp => simp [hp] at hs

theorem step_inv (h : Inv s) (hturn : InTurn s a) (hs : s.step a = some t) : Inv t := by
  cases a with
  | putmsg mp alloc => exact putmsg_inv h hs
  | test alloc => exact test_inv h hturn hs
  | put k =>
    obtain ⟨hf,hd,hm,hg,ho⟩ := h
    obtain rfl : k = 0 := hturn
    cases hh : s.hand with
    | nil => simp [step,hh] at hs
    | cons x hand =>
      obtain ⟨mp,mine⟩ := x
      simp only [step,hh,List.getElem?_cons_zero,Option.some.injEq] at hs
      subst hs
      rw [hh] at hm
      cases mine with
      | false =>
        refine ⟨hf,hd,by simpa using hm,hg,?_⟩
        rw [← ho,hh]
        simp
      | true =>
        have hc : s.phase = .calling := by
          by_contra hc
          simp [hc] at hm
        refine ⟨hf,fun _ => hd (by simp [hc]),by simpa [hc] using hm,by simp,?_⟩
        rw [← ho,hh]
        simp [hc,Phase.held]
  | start alloc =>
    obtain ⟨hf,hd,hm,hg,ho⟩ := h
    simp only [step] at hs
    split_ifs at hs with hc
    · obtain rfl := Option.some.inj hs
      exact ⟨hf,hd,hm,hg,ho⟩
    · obtain rfl := Option.some.inj hs
      simp only [Bool.or_eq_true,not_or,Bool.not_eq_true] at hc
      have hidle : s.phase = .idle := by
        by_contra hp
        have := hd hp
        rw [hc.2] at this
        cases this
      refine next_inv (s := { s with q := setDeferring s.q true }) hf rfl (by simpa [hidle] using hm) ?_
      simpa [hidle,Phase.held,setDeferring] using ho
  | resume alloc =>
    obtain ⟨hf,hd,hm,hg,ho⟩ := h
    simp only [step] at hs
    cases hp : s.phase with
    | returned =>
      simp only [hp,Option.some.injEq] at hs
      subst hs
      exact next_inv hf (hd (by simp [hp])) (by simpa [hp] using hm) (by simpa [hp,Phase.held] using ho)
    | gaveUp => exact absurd hp hg
    | idle => simp [hp] at hs
    | popped mp => simp [hp] at hs
    | calling => simp [hp] at hs

/-- What the put procedure has seen is a beginning of what was submitted, and a
call of `lis_do_deferred_puts` that ends has emptied the list. -/
theorem run_order (h : Unhindered q.core.qFlag) {acts : List Act} {s : Traffic}
    (hm : Meets step InTurn (start q) acts) (hr : exec step (start q) acts = some s) :
    s.seen <+: s.submitted ∧
      ∀ alloc t, s.step (.resume alloc) = some t → t.phase = .idle → t.q.defer = [] := by
  have hstart : Inv (start q) := ⟨h,fun hp => absurd rfl hp,rfl,by simp [start],rfl⟩
  obtain ⟨-,-,-,hg,ho⟩ := exec_preserves (fun _ _ _ hI hc hs => step_inv hI hc hs) hstart hm hr
  refine ⟨?_,fun alloc t hs hi => ?_⟩
  · rw [← ho,List.append_assoc,List.append_assoc]
    exact List.prefix_append ..
  · simp only [step] at hs
    cases hp : s.phase with
    | returned =>
      simp only [hp,Option.some.injEq] at hs
      subst hs
      unfold next at hi ⊢
      cases hl : s.q.defer with
      | nil => simpa [setDeferring] using hl
      | cons mp l => simp [hl] at hi
    | gaveUp => exact absurd hp hg
    | idle => simp [hp] at hs
    | popped mp => simp [hp] at hs
    | calling => simp [hp] at hs

end Traffic

/-- On a queue whose put procedure nothing hinders: a call works the list off
exactly if it holds at most one message, and as long as deferred messages are
tried again one at a time and the tests are followed by the put procedure in
turn, the put procedure sees all messages in the order of their submission. -/
theorem deferred_puts (h : Unhindered q.core.qFlag) (hd : q.core.qFlag.qdeferring = false) :
    (∀ alloc rest,
      ((lisDoDeferredPuts alloc q rest).2 = q.defer.map (fun mp => (0,mp)) ∧
        (lisDoDeferredPuts alloc q rest).1.head?.map ListQueue.defer = some []) ↔
      q.defer.length ≤ 1) ∧
    ∀ acts s, Meets Traffic.step Traffic.InTurn (.start q) acts →
      exec Traffic.step (.start q) acts = some s →
      s.seen <+: s.submitted ∧
        ∀ alloc t, s.step (.resume alloc) = some t → t.phase = .idle → t.q.defer = [] :=
  ⟨fun _ _ => lisDoDeferredPuts_iff h hd,fun _ _ hm hr => Traffic.run_order h hm hr⟩

def deferring (mps : List Msg) : ListQueue := ⟨⟨0,100,20,{},[],true⟩,[],mps⟩

/- One deferred message, and another one submitted while it is on its way. -/
theorem deferred_puts_one :
    (lisDoDeferredPuts (fun _ => true) (deferring [dataMsg 0 8]) []).2 = [(0,dataMsg 0 8)] ∧
    ∃ s, exec Traffic.step (.start (deferring [dataMsg 0 8])) [.start true,.test true,
      .putmsg (dataMsg 1 4) true,.put 0,.resume true,.test true,.put 0,.resume true] = some s ∧
      s.seen <+: s.submitted := by
  have hall := deferred_puts (q := deferring [dataMsg 0 8]) ⟨rfl,rfl,rfl⟩ rfl
  refine ⟨((hall.1 (fun _ => true) []).mpr (by decide)).1,?_⟩
  obtain ⟨s,hs⟩ := Option.isSome_iff_exists.mp (show (exec Traffic.step (.start (deferring [dataMsg 0 8]))
    [.start true,.test true,.putmsg (dataMsg 1 4) true,.put 0,.resume true,.test true,.put 0,
      .resume true]).isSome = true by decide +kernel)
  exact ⟨s,hs,(hall.2 _ s (by decide +kernel) hs).1⟩

/- The first of two messages is put back because of the second, and the call ends. -/
theorem two_deferred_stay :
    ¬((lisDoDeferredPuts (fun _ => true) (deferring [dataMsg 0 8,dataMsg 1 8]) []).2 =
        [(0,dataMsg 0 8),(0,dataMsg 1 8)] ∧
      (lisDoDeferredPuts (fun _ => true) (deferring [dataMsg 0 8,dataMsg 1 8]) []).1.head?.map
        ListQueue.defer = some []) := by decide +kernel

end CSLiS.Deferred
