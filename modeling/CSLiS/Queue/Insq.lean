import CSLiS.Queue.Insertion

/-!
# Insertion at a given place (head/queue.c)

`lis_insq` puts a message in front of another one of the queue, `lis_appq` puts
it behind one. The place is the caller's, so that the order of the queue rests
on the test that `lis_insq` makes. The test looks at the message behind the
place, and at the band of the one before it.
-/

namespace CSLiS.Queue.LinkedQueue
open Lib Lib.Linked

variable {n : ℕ}

/-- The test of `lis_insq` (`queue.c:1050-1059`) for an insertion that is out of order. -/
def outOfOrder (q : LinkedQueue n) (emp : Option (Fin n)) (mp : Fin n) : Bool :=
  !(q.info mp).hipri && match emp with
    | none => false
    | some e =>
        (q.info e).hipri || (q.info mp).bBand < (q.info e).bBand || match q.prev e with
          | none => false
          | some p => (q.info p).bBand < (q.info mp).bBand

/-- `lis_insq` (`queue.c:1029-1075`); `alloc` is the outcome of `LIS_QBAND_ALLOC`. -/
def lisInsq (alloc : Bool) (q : LinkedQueue n) (emp : Option (Fin n)) (mp : Fin n) : LinkedQueue n × ℕ :=
  if q.core.qFlag.shut then (q,0)
  else if q.outOfOrder emp mp then (q,0)
  else
    let q := q.insBefore emp mp
    ({ q with core := updatequeue q.info alloc true true q.core mp (q.prev mp) (q.next mp) },1)

/-- `lis_appq` (`queue.c:2072-2086`): the queue, and the messages that are freed. -/
def lisAppq (alloc : Bool) (q : LinkedQueue n) (mp1 mp2 : Fin n) : LinkedQueue n × List (Fin n) :=
  let r := q.lisInsq alloc (q.next mp1) mp2
  (r.1,if r.2 = 0 then [mp2] else [])

/- The comment in queue.h (lines 342-345): an insertion out of order fails, any other one succeeds. -/
structure InsertsInOrder (q : LinkedQueue n) (k : List (Fin n)) (mp : Fin n) (m : List (Fin n))
    (r : LinkedQueue n × ℕ) : Prop where
  answer : r.2 = 1 ↔ Ordered q.info (k ++ mp :: m)
  placed : r.2 = 1 → r.1.Links (k ++ mp :: m) ∧ r.1.info = q.info
  refused : r.2 ≠ 1 → r = (q,0)

/- The same of lis_appq, which frees the message that it could not insert. -/
structure AppendsInOrder (q : LinkedQueue n) (k : List (Fin n)) (mp : Fin n) (m : List (Fin n))
    (r : LinkedQueue n × List (Fin n)) : Prop where
  answer : r.2 = [] ↔ Ordered q.info (k ++ mp :: m)
  placed : r.2 = [] → r.1.Links (k ++ mp :: m) ∧ r.1.info = q.info
  refused : r.2 ≠ [] → r = (q,[mp])

/- Where the test is right. A closed queue takes nothing. A high-priority message is let in everywhere, and an
ordinary one is at the end. Before an ordinary message the band of the message ahead counts, whatever its type. -/
def Judges (q : LinkedQueue n) (ahead emp : Option (Fin n)) (mp : Fin n) : Prop :=
  if q.core.qFlag.shut then
    (∃ p, ahead = some p ∧ (q.info p).rank < (q.info mp).rank) ∨
      ∃ e, emp = some e ∧ (q.info mp).rank < (q.info e).rank
  else if (q.info mp).hipri then ∀ p, ahead = some p → (q.info p).hipri = true
  else match emp with
    | none => ∀ p, ahead = some p → (q.info p).hipri = true ∨ (q.info mp).bBand ≤ (q.info p).bBand
    | some e => (q.info e).hipri = false → (q.info e).bBand ≤ (q.info mp).bBand →
        ∀ p, ahead = some p → (q.info p).hipri = true → (q.info mp).bBand ≤ (q.info p).bBand

variable {q : LinkedQueue n} {k m : List (Fin n)} {p mp : Fin n} {alloc : Bool}

/- A list in order stays so exactly when the new message fits between its neighbours. -/
theorem ordered_between {v : Fin n → Info} (h : Ordered v (k ++ m)) :
    Ordered v (k ++ mp :: m) ↔ (∀ p, k.getLast? = some p → (v mp).rank ≤ (v p).rank) ∧
      ∀ e, m.head? = some e → (v e).rank ≤ (v mp).rank := by
  obtain ⟨hk,hm,-⟩ := List.pairwise_append.mp h
  constructor
  · intro ho
    obtain ⟨-,hmp,hkm⟩ := List.pairwise_append.mp ho
    refine ⟨fun p hp => ?_,fun e he => ?_⟩
    · exact hkm p (List.mem_of_getLast? hp) mp (List.mem_cons_self ..)
    · exact (List.pairwise_cons.mp hmp).1 e (List.mem_of_head? he)
  · rintro ⟨hlast,hhead⟩
    refine h.insert (fun x hx => ?_) fun x hx => ?_
    · obtain ⟨p,hp⟩ := Option.isSome_iff_exists.mp (List.getLast?_isSome.mpr (List.ne_nil_of_mem hx))
      refine (hlast p hp).trans ?_
      obtain ⟨t,rfl⟩ := List.getLast?_eq_some_iff.mp hp
      rcases List.mem_append.mp hx with hx | hx
      · exact (List.pairwise_append.mp hk).2.2 x hx p (List.mem_singleton_self p)
      · rw [List.mem_singleton.mp hx]
    · obtain ⟨e,he⟩ := Option.isSome_iff_exists.mp (List.isSome_head?.mpr (List.ne_nil_of_mem hx))
      refine le_trans ?_ (hhead e he)
      obtain ⟨t,rfl⟩ := List.head?_eq_some_iff.mp he
      rcases List.mem_cons.mp hx with rfl | hx
      · exact le_rfl
      · exact (List.pairwise_cons.mp hm).1 x hx

/- What ranks below an ordinary message, in terms of types and bands. -/
theorem rank_le_iff {i j : Info} (hi : i.hipri = false) :
    i.rank ≤ j.rank ↔ j.hipri = true ∨ i.bBand ≤ j.bBand := by
  have hb := i.bBand.isLt
  rw [rank_ordinary hi]
  cases hj : j.hipri with
  | true =>
    rw [rank_hipri hj]
    exact ⟨fun _ => Or.inl rfl,fun _ => by omega⟩
  | false =>
    rw [rank_ordinary hj]
    exact ⟨Or.inr,fun h => h.resolve_left (by decide)⟩

theorem hipri_of_rank {i j : Info} (hi : i.hipri = true) : i.rank ≤ j.rank ↔ j.hipri = true := by
  have hb := j.bBand.isLt
  rw [rank_hipri hi]
  cases hj : j.hipri with
  | true =>
    rw [rank_hipri hj]
    exact ⟨fun _ => rfl,fun _ => le_rfl⟩
  | false =>
    rw [rank_ordinary hj]
    exact ⟨fun h => by omega,fun h => by cases h⟩

/- An ordinary message stands before another one of at most its band. -/
theorem rank_ge_iff {i j : Info} (hi : i.hipri = false) :
    j.rank ≤ i.rank ↔ j.hipri = false ∧ j.bBand ≤ i.bBand := by
  cases hj : j.hipri with
  | true =>
    rw [hipri_of_rank hj,hi]
    exact ⟨fun h => absurd h Bool.false_ne_true,fun h => absurd h.1 (Bool.false_ne_true ∘ Eq.symm)⟩
  | false =>
    rw [rank_ordinary hi,rank_ordinary hj]
    exact ⟨fun h => ⟨rfl,h⟩,And.right⟩

/- The link back from the message behind the place leads to the one ahead of it. -/
theorem ahead_eq (hl : q.Links (k ++ m)) {e : Fin n} (he : m.head? = some e) : q.prev e = k.getLast? := by
  obtain ⟨t,rfl⟩ := List.head?_eq_some_iff.mp he
  have hlk := (append.mp hl.linked).2
  simpa using hlk.1

/-- Where the test says the same as the order of the list. -/
theorem outOfOrder_iff (hl : q.Links (k ++ m)) (ho : Ordered q.info (k ++ m)) (hs : q.core.qFlag.shut = false) :
    (q.outOfOrder m.head? mp = false ↔ Ordered q.info (k ++ mp :: m)) ↔ q.Judges k.getLast? m.head? mp := by
  rw [ordered_between ho]
  unfold outOfOrder Judges
  rw [hs,if_neg Bool.false_ne_true]
  cases hmp : (q.info mp).hipri with
  | true =>
    have hfits : ∀ e, m.head? = some e → (q.info e).rank ≤ (q.info mp).rank :=
      fun e _ => rank_hipri hmp ▸ Info.rank_le _
    simp only [hipri_of_rank hmp,Bool.not_true,Bool.false_and,if_true,true_iff]
    exact ⟨And.left,fun h => ⟨h,hfits⟩⟩
  | false =>
    simp only [rank_le_iff hmp,rank_ge_iff hmp,Bool.not_false,Bool.true_and,if_neg Bool.false_ne_true]
    cases he : m.head? with
    | none => simp
    | some e =>
      have hprev := ahead_eq hl he
      cases hk : k.getLast? with
      | none =>
        rw [hk] at hprev
        simp [hprev]
      | some p =>
        rw [hk] at hprev
        simp only [hprev,Bool.or_eq_false_iff,decide_eq_false_iff_not,not_lt,Option.some.injEq,forall_eq']
        tauto

theorem lisInsq_links (hl : q.Links (k ++ m)) (hnd : (k ++ m).Nodup) (hmp : mp ∉ k ++ m)
    (h1 : (q.lisInsq alloc m.head? mp).2 = 1) :
    (q.lisInsq alloc m.head? mp).1.Links (k ++ mp :: m) ∧ (q.lisInsq alloc m.head? mp).1.info = q.info := by
  obtain ⟨hn,hp,hf,hla⟩ := insBefore_spec hnd hl hmp
  unfold lisInsq at h1 ⊢
  split_ifs at h1 ⊢
  · refine ⟨⟨?_,hf,hla⟩,(insBefore_rest mp m.head?).1⟩
    show Linked (q.insBefore m.head? mp).next (q.insBefore m.head? mp).prev none _ none
    rw [hn,hp]
    exact insert hnd hmp hl.linked

theorem lisInsq_answer (emp : Option (Fin n)) :
    (q.lisInsq alloc emp mp).2 = 1 ↔ q.core.qFlag.shut = false ∧ q.outOfOrder emp mp = false := by
  unfold lisInsq
  split_ifs with hs ho
  · simp [hs]
  · simp [ho]
  · simpa using ⟨by simpa using hs,by simpa using ho⟩

theorem lisInsq_refused {emp : Option (Fin n)} (h : (q.lisInsq alloc emp mp).2 ≠ 1) :
    q.lisInsq alloc emp mp = (q,0) := by
  unfold lisInsq at h ⊢
  split_ifs at h ⊢ with hs ho
  · rfl
  · rfl
  · exact absurd rfl h

theorem answer_iff (alloc : Bool) (hl : q.Links (k ++ m)) (ho : Ordered q.info (k ++ m)) :
    ((q.lisInsq alloc m.head? mp).2 = 1 ↔ Ordered q.info (k ++ mp :: m)) ↔ q.Judges k.getLast? m.head? mp := by
  rw [lisInsq_answer]
  cases hs : q.core.qFlag.shut with
  | true =>
    rw [ordered_between ho]
    unfold Judges
    rw [hs,if_pos rfl]
    simp only [Bool.true_eq_false,false_and,false_iff,not_and_or,not_forall,not_le,exists_prop]
  | false =>
    simp only [true_and]
    exact outOfOrder_iff hl ho hs

theorem lisInsq_iff (alloc : Bool) (hl : q.Links (k ++ m)) (hnd : (k ++ m).Nodup) (ho : Ordered q.info (k ++ m))
    (hmp : mp ∉ k ++ m) :
    q.InsertsInOrder k mp m (q.lisInsq alloc m.head? mp) ↔ q.Judges k.getLast? m.head? mp := by
  rw [← answer_iff alloc hl ho]
  exact ⟨InsertsInOrder.answer,fun h => ⟨h,lisInsq_links hl hnd hmp,lisInsq_refused⟩⟩

theorem lisAppq_iff (hl : q.Links (k ++ p :: m)) (hnd : (k ++ p :: m).Nodup) (ho : Ordered q.info (k ++ p :: m))
    (hmp : mp ∉ k ++ p :: m) :
    q.AppendsInOrder (k ++ [p]) mp m (q.lisAppq alloc p mp) ↔ q.Judges (some p) m.head? mp := by
  have hnext : q.next p = m.head? := by simpa using (append.mp hl.linked).2.2.1
  have hsplit : k ++ p :: m = (k ++ [p]) ++ m := by simp
  have hlast : (k ++ [p]).getLast? = some p := by simp
  rw [hsplit] at hl hnd ho hmp
  rw [← hlast,← lisInsq_iff alloc hl hnd ho hmp]
  unfold lisAppq
  rw [hnext]
  generalize hr : q.lisInsq alloc m.head? mp = r
  have hanswer : r.2 = 0 ∨ r.2 = 1 := by
    rw [← hr]
    unfold lisInsq
    split_ifs <;> simp
  have hfreed : (if r.2 = 0 then [mp] else []) = [] ↔ r.2 = 1 := by
    rcases hanswer with h | h <;> simp [h]
  constructor
  · intro h
    refine ⟨hfreed.symm.trans h.answer,fun h1 => h.placed (hfreed.mpr h1),fun h1 => ?_⟩
    have hq : r.1 = q := congrArg Prod.fst (h.refused (mt hfreed.mp h1))
    exact Prod.ext hq (hanswer.resolve_right h1)
  · intro h
    refine ⟨hfreed.trans h.answer,fun h1 => h.placed (hfreed.mp h1),fun h1 => ?_⟩
    have h0 : r = (q,0) := h.refused (mt hfreed.mpr h1)
    rw [h0]
    rfl

/-- The list stays in order, and takes every message that leaves it in order, exactly where the test judges it
by the right neighbours. -/
theorem insertion_in_order (hl : q.Links (k ++ m)) (hnd : (k ++ m).Nodup) (ho : Ordered q.info (k ++ m))
    (hmp : mp ∉ k ++ m) :
    (q.InsertsInOrder k mp m (q.lisInsq alloc m.head? mp) ↔ q.Judges k.getLast? m.head? mp) ∧
      ∀ l p, k = l ++ [p] →
        (q.AppendsInOrder k mp m (q.lisAppq alloc p mp) ↔ q.Judges (some p) m.head? mp) := by
  refine ⟨lisInsq_iff alloc hl hnd ho hmp,fun l p hk => ?_⟩
  subst hk
  rw [List.append_assoc] at hl hnd ho hmp
  exact lisAppq_iff hl hnd ho hmp

/- One ordinary message on the queue, in the first of two cells; the second cell is a message of this type. -/
def single (t : Uchar) : LinkedQueue 2 :=
  { empty (fun i => ⟨none,none,⟨0,false,⟨if i = 0 then M_DATA else t,4,[]⟩,[]⟩⟩) {} 16 8 true [] with
    qFirst := some 0, qLast := some 0 }

theorem single_links (t : Uchar) : (single t).Links [0] := ⟨⟨rfl,rfl,trivial⟩,rfl,rfl⟩

theorem insertion_in_order_first :
    (single M_PCPROTO).InsertsInOrder [] 1 [0] ((single M_PCPROTO).lisInsq true (some 0) 1) := by
  refine (insertion_in_order (k := []) (m := [0]) (single_links M_PCPROTO) (by decide) ?_ (by decide)).1.mpr ?_
  · exact List.pairwise_singleton ..
  · exact fun p hp => by cases hp

/- A high-priority message is accepted behind an ordinary one. -/
theorem order_lost : ¬ ∀ (q : LinkedQueue 2) k m mp, q.Links (k ++ m) → (k ++ m).Nodup → Ordered q.info (k ++ m) →
    mp ∉ k ++ m → q.InsertsInOrder k mp m (q.lisInsq true m.head? mp) := by
  intro h
  have hin := h (single M_PCPROTO) [0] [] 1 (single_links M_PCPROTO) (by decide) (List.pairwise_singleton ..) (by decide)
  have ho := hin.answer.mp rfl
  have hr := (List.pairwise_cons.mp ho).1 1 (List.mem_singleton_self 1)
  exact absurd hr (by decide)

end CSLiS.Queue.LinkedQueue
