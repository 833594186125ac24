import CSLiS.Queue.LinkedQueue
import CSLiS.Queue.Spot
import CSLiS.Lib.Linked

/-!
# Insertions into the linked queue (head/queue.c)

The linked queue represents the list of messages that its links connect.
`find_q_spot_head` and `find_q_spot_tail` walk to the place where this list is
split, and `ins_before` links the new message in there.
-/

namespace CSLiS.Queue.LinkedQueue
open Lib Lib.Linked

variable {n : ℕ} {q : LinkedQueue n} {l m : List (Fin n)} {p mp : Fin n} {x : Option (Fin n)}

@[simp] theorem setNext_next : (q.setNext p x).next = Function.update q.next p x := by
  funext y
  by_cases h : y = p <;> simp [next,setNext,h]
@[simp] theorem setNext_prev : (q.setNext p x).prev = q.prev := by
  funext y
  by_cases h : y = p <;> simp [prev,setNext,h]
@[simp] theorem setNext_info : (q.setNext p x).info = q.info := by
  funext y
  by_cases h : y = p <;> simp [info,setNext,h]
@[simp] theorem setPrev_next : (q.setPrev p x).next = q.next := by
  funext y
  by_cases h : y = p <;> simp [next,setPrev,h]
@[simp] theorem setPrev_prev : (q.setPrev p x).prev = Function.update q.prev p x := by
  funext y
  by_cases h : y = p <;> simp [prev,setPrev,h]
@[simp] theorem setPrev_info : (q.setPrev p x).info = q.info := by
  funext y
  by_cases h : y = p <;> simp [info,setPrev,h]

/-- The links of the queue connect the list. -/
structure Links (q : LinkedQueue n) (l : List (Fin n)) : Prop where
  linked : Linked q.next q.prev none l none
  first : q.qFirst = l.head?
  last : q.qLast = l.getLast?

/-- The queue represents the list: its links connect it, and counters, bands
and order are those of its messages. -/
structure Represents (q : LinkedQueue n) (l : List (Fin n)) : Prop where
  links : q.Links l
  tidy : Tidy q.info q.core l

/- What an insertion before the first message of `m` does to the links. -/
theorem insBefore_spec (hnd : (l ++ m).Nodup) (h : q.Links (l ++ m)) (hmp : mp ∉ l ++ m) :
    (q.insBefore m.head? mp).next =
        Function.update (relink q.next l.getLast? (some mp)) mp m.head? ∧
      (q.insBefore m.head? mp).prev =
        Function.update (relink q.prev m.head? (some mp)) mp l.getLast? ∧
      (q.insBefore m.head? mp).qFirst = (l ++ mp :: m).head? ∧
      (q.insBefore m.head? mp).qLast = (l ++ mp :: m).getLast? := by
  obtain ⟨hlk,hf,hla⟩ := h
  cases m with
  | nil =>
    rcases List.eq_nil_or_concat l with rfl | ⟨l,y,rfl⟩
    · have hf : q.qFirst = none := hf
      simp only [insBefore,hf]
      refine ⟨?_,?_,rfl,rfl⟩
      · show ((q.setPrev mp none).setNext mp none).next = _
        simp [relink]
      · show ((q.setPrev mp none).setNext mp none).prev = _
        simp [relink]
    · obtain ⟨z,hz⟩ : ∃ z, q.qFirst = some z := by
        rw [hf]
        cases l <;> simp
      have hla : q.qLast = some y := by simpa using hla
      simp only [insBefore,hz,hla,List.head?_nil]
      refine ⟨?_,?_,?_,?_⟩
      · show (((q.setNext y (some mp)).setPrev mp _).setNext mp none).next = _
        simp [relink]
      · show (((q.setNext y (some mp)).setPrev mp q.qLast).setNext mp none).prev = _
        simp [relink,hla]
      · show q.qFirst = _
        rw [hf]
        cases l <;> simp
      · simp
  | cons b m =>
    obtain ⟨z,hz⟩ : ∃ z, q.qFirst = some z := by
      rw [hf]
      cases l <;> simp
    have hpb : q.prev b = l.getLast? := by simpa using hlk.prev_eq
    have hlast : q.qLast = (l ++ mp :: b :: m).getLast? := by
      rw [hla]
      simp [List.getLast?_append,List.getLast?_cons]
    have hbmp : b ≠ mp := fun he => hmp (by simp [he])
    rcases List.eq_nil_or_concat l with rfl | ⟨l,y,rfl⟩
    · have hpb : q.prev b = none := hpb
      simp only [insBefore,hz,List.head?_cons,hpb]
      have hpb' : ((q.setNext mp (some b)).setPrev mp none).prev b = none := by simp [hbmp,hpb]
      rw [hpb']
      refine ⟨?_,?_,rfl,hlast⟩
      · show (((q.setNext mp (some b)).setPrev mp none).setPrev b (some mp)).next = _
        simp [relink]
      · show (((q.setNext mp (some b)).setPrev mp none).setPrev b (some mp)).prev = _
        simp [relink,Function.update_comm hbmp]
    · have hpb : q.prev b = some y := by simpa using hpb
      have hymp : y ≠ mp := fun he => hmp (by simp [he])
      simp only [insBefore,hz,List.head?_cons,hpb]
      have hpb' : ((q.setNext mp (some b)).setPrev mp (some y)).prev b = some y := by
        simp [hbmp,hpb]
      rw [hpb']
      refine ⟨?_,?_,?_,hlast⟩
      · show ((((q.setNext mp (some b)).setPrev mp _).setNext y (some mp)).setPrev b (some mp)).next = _
        simp [relink,Function.update_comm hymp]
      · show ((((q.setNext mp (some b)).setPrev mp _).setNext y (some mp)).setPrev b (some mp)).prev = _
        simp [relink,Function.update_comm hbmp]
      · show q.qFirst = _
        rw [hf]
        cases l <;> simp

/- Everything of the queue but its links. -/
theorem insBefore_rest (mp : Fin n) (before : Option (Fin n)) :
    (q.insBefore before mp).info = q.info ∧ (q.insBefore before mp).core = q.core ∧
      (q.insBefore before mp).qDeferHead = q.qDeferHead := by
  cases hf : q.qFirst with
  | none =>
    simp only [insBefore,hf]
    exact ⟨by show ((q.setPrev mp none).setNext mp none).info = _; simp,rfl,rfl⟩
  | some z =>
    cases before with
    | none =>
      cases hl : q.qLast with
      | none =>
        simp only [insBefore,hf,hl]
        exact ⟨by show ((q.setPrev mp none).setNext mp none).info = _; simp,rfl,rfl⟩
      | some y =>
        simp only [insBefore,hf,hl]
        exact ⟨by show (((q.setNext y (some mp)).setPrev mp _).setNext mp none).info = _; simp,rfl,rfl⟩
    | some b =>
      cases hp : ((q.setNext mp (some b)).setPrev mp (q.prev b)).prev b with
      | none =>
        simp only [insBefore,hf,hp]
        exact ⟨by show (((q.setNext mp (some b)).setPrev mp _).setPrev b _).info = _; simp,rfl,rfl⟩
      | some y =>
        simp only [insBefore,hf,hp]
        refine ⟨?_,rfl,rfl⟩
        show ((((q.setNext mp (some b)).setPrev mp _).setNext y _).setPrev b _).info = _
        simp

theorem skip_linked {test : Fin n → Bool} {k : ℕ} {p : Option (Fin n)}
    (h : Linked q.next q.prev p l none) (hk : l.length ≤ k) :
    q.skip test k l.head? = (l.dropWhile test).head? := by
  induction l generalizing k p with
  | nil => cases k <;> rfl
  | cons x l ih =>
    obtain ⟨k,rfl⟩ := Nat.exists_eq_add_one_of_ne_zero (Nat.ne_of_gt (Nat.lt_of_lt_of_le (Nat.succ_pos _) hk))
    obtain ⟨-,hn,h⟩ := h
    rw [Option.or_none] at hn
    rw [List.dropWhile_cons]
    show (if test x then q.skip test k (q.next x) else some x) = _
    split_ifs
    · rw [hn]
      exact ih h (Nat.le_of_succ_le_succ hk)
    · rfl

/-- A walk over the queue fits into the memory. -/
theorem length_le (hnd : l.Nodup) : l.length ≤ n := by
  simpa using hnd.length_le_card

theorem clearBand_fields (mp : Fin n) : (q.clearBand mp).next = q.next ∧ (q.clearBand mp).prev = q.prev ∧
    (q.clearBand mp).qFirst = q.qFirst ∧ (q.clearBand mp).qLast = q.qLast ∧
    (q.clearBand mp).core = q.core ∧ (q.clearBand mp).qDeferHead = q.qDeferHead := by
  unfold clearBand
  split_ifs
  · refine ⟨funext fun y => ?_,funext fun y => ?_,rfl,rfl,rfl,rfl⟩ <;>
      by_cases h : y = mp <;> simp [setBand,next,prev,h]
  · exact ⟨rfl,rfl,rfl,rfl,rfl,rfl⟩

theorem clearBand_alike (mp y : Fin n) : ((q.clearBand mp).info y).Alike (q.info y) := by
  unfold clearBand
  split_ifs with hh
  · by_cases h : y = mp
    · subst h
      refine ⟨by simp [setBand,info,Mbody.info,Mbody.dbType],by simp [setBand,info,Mbody.info,lisMsgsize],
        fun hf => ?_⟩
      rw [hf] at hh
      cases hh
    · refine ⟨?_,?_,fun _ => ?_⟩ <;> simp [setBand,info,h]
  · exact ⟨rfl,rfl,fun _ => rfl⟩

theorem skip_bands {t : Uchar → Bool} (h : q.Represents l) :
    q.skip (fun p => t (q.info p).bBand) n (q.skip (fun p => (q.info p).hipri) n l.head?) =
      (skipBands q.info t l).2.head? := by
  have hlen := length_le h.tidy.nodup
  have hlk := h.links.linked
  rw [skip_linked hlk hlen]
  rw [← List.takeWhile_append_dropWhile (p := fun p => (q.info p).hipri) (l := l)] at hlk
  exact skip_linked (append.mp hlk).2 ((List.dropWhile_sublist _).length_le.trans hlen)

/- The walks of the two searches end at the place in the represented list. -/
theorem tailSpot_eq {i : Info} {firstp lastp : Fin n} (h : q.Represents l)
    (hf : l.head? = some firstp) (hl : l.getLast? = some lastp) :
    q.tailSpot i firstp lastp = (tailSplit q.info l i).2.head? := by
  simp only [tailSpot,tailSplit,hl,← hf]
  split_ifs
  · rfl
  · rfl
  · exact skip_linked h.links.linked (length_le h.tidy.nodup)
  · exact skip_bands (t := fun b => i.bBand ≤ b) h

theorem headSpot_eq {i : Info} {firstp : Fin n} (h : q.Represents l)
    (hf : l.head? = some firstp) :
    q.headSpot i firstp = (headSplit q.info l i).2.head? := by
  simp only [headSpot,headSplit,hf]
  split_ifs
  · exact hf.symm
  · exact hf.symm
  · rw [← hf]
    exact skip_bands (t := fun b => i.bBand < b) h

theorem clearBand_represents (mp : Fin n) (h : q.Represents l) : (q.clearBand mp).Represents l := by
  obtain ⟨hn,hp,hf,hl,hc,-⟩ := clearBand_fields (q := q) mp
  refine ⟨⟨by rw [hn,hp]; exact h.links.linked,hf.trans h.links.first,hl.trans h.links.last⟩,?_⟩
  rw [hc]
  exact h.tidy.congr fun y _ => clearBand_alike mp y

/- What a queue without `mp` keeps while `mp` is inserted into it. -/
structure Inserted (q r : LinkedQueue n) (mp : Fin n) (l : List (Fin n)) : Prop where
  represents : ∃ k m, l = k ++ m ∧ r.Represents (k ++ mp :: m)
  next : ∀ x ∉ mp :: l, r.next x = q.next x
  alike : ∀ x, (r.info x).Alike (q.info x)
  deferred : r.qDeferHead = q.qDeferHead

theorem insert_update {k m : List (Fin n)} (h : q.Represents (k ++ m)) (hmp : mp ∉ k ++ m)
    (hk : ∀ x ∈ k, (q.info mp).rank ≤ (q.info x).rank)
    (hm : ∀ x ∈ m, (q.info x).rank ≤ (q.info mp).rank) :
    Inserted q ((q.insBefore m.head? mp).update mp) mp (k ++ m) := by
  obtain ⟨hn,hp,hf,hl⟩ := insBefore_spec h.tidy.nodup h.links hmp
  obtain ⟨hi,hc,hd⟩ := insBefore_rest (q := q) mp m.head?
  refine ⟨⟨k,m,rfl,⟨?_,hf,hl⟩,?_⟩,fun x hx => ?_,fun x => ?_,hd⟩
  · show Linked (q.insBefore m.head? mp).next (q.insBefore m.head? mp).prev none _ none
    rw [hn,hp]
    exact insert h.tidy.nodup hmp h.links.linked
  · show Tidy (q.insBefore m.head? mp).info (updatequeue (q.insBefore m.head? mp).info true false true
      (q.insBefore m.head? mp).core mp ((q.insBefore m.head? mp).prev mp)
      ((q.insBefore m.head? mp).next mp)) (k ++ mp :: m)
    rw [hi,hc,hn,hp,Function.update_self,Function.update_self]
    exact updatequeue_tidy _ _ h.tidy hmp hk hm fun _ => findQband_isSome
  · show (q.insBefore m.head? mp).next x = q.next x
    rw [hn,Function.update_of_ne (List.ne_of_not_mem_cons hx),relink_of_ne]
    exact fun he => hx (List.mem_cons_of_mem _ (List.mem_append_left _ (List.mem_of_getLast? he)))
  · show ((q.insBefore m.head? mp).info x).Alike (q.info x)
    rw [hi]
    exact ⟨rfl,rfl,fun _ => rfl⟩

theorem insert_cleared {k m : List (Fin n)} (h : q.Represents l) (hs : k ++ m = l) (hmp : mp ∉ l)
    (hk : ∀ x ∈ k, (q.info mp).rank ≤ ((q.clearBand mp).info x).rank)
    (hm : ∀ x ∈ m, ((q.clearBand mp).info x).rank ≤ (q.info mp).rank) :
    Inserted q (((q.clearBand mp).insBefore m.head? mp).update mp) mp l := by
  subst hs
  have hr := (clearBand_alike (q := q) mp mp).rank
  rw [← hr] at hk hm
  obtain ⟨hrep,hn,ha,hd⟩ := insert_update (clearBand_represents mp h) hmp hk hm
  obtain ⟨hcn,-,-,-,-,hcd⟩ := clearBand_fields (q := q) mp
  refine ⟨hrep,fun x hx => by rw [hn x hx,hcn],fun x => ?_,hd.trans hcd⟩
  exact (ha x).trans (clearBand_alike mp x)

theorem lisPutq_spec (h : q.Represents l) (hmp : mp ∉ l) (hs : q.core.qFlag.shut = false) :
    Inserted q (q.lisPutq mp) mp l := by
  simp only [lisPutq,hs,Bool.false_eq_true,if_false,findQSpotTail,h.links.first,h.links.last]
  cases hf : l.head? with
  | none =>
    obtain rfl := List.head?_eq_none_iff.mp hf
    exact insert_update (k := []) (m := []) h hmp (by simp) (by simp)
  | some firstp =>
    cases hl : l.getLast? with
    | none => simp [List.getLast?_eq_none_iff.mp hl] at hf
    | some lastp =>
      have hc := clearBand_represents mp h
      obtain ⟨hk,hm⟩ := tailSplit_spec (i := q.info mp) hc.tidy.ordered
      simp only [tailSpot_eq hc hf hl]
      exact insert_cleared h tailSplit_append hmp hk hm

theorem lisPutbq_spec (h : q.Represents l) (hmp : mp ∉ l) (hs : q.core.qFlag.shut = false) :
    Inserted q (q.lisPutbq mp) mp l := by
  simp only [lisPutbq,hs,Bool.false_eq_true,if_false,findQSpotHead,h.links.first]
  cases hf : l.head? with
  | none =>
    obtain rfl := List.head?_eq_none_iff.mp hf
    exact insert_update (k := []) (m := []) h hmp (by simp) (by simp)
  | some firstp =>
    have hc := clearBand_represents mp h
    obtain ⟨hk,hm⟩ := headSplit_spec (i := q.info mp) hc.tidy.ordered
    simp only [headSpot_eq hc hf]
    exact insert_cleared h headSplit_append hmp hk hm

end CSLiS.Queue.LinkedQueue
