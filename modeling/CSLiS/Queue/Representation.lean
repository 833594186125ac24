import CSLiS.Queue.Insertion
import CSLiS.Lib.Exec

/-!
# The linked queue over all its operations (head/queue.c)

A removal takes one message out of the represented list, a flush takes the list
away and puts the kept messages back one by one. In every state that the
operations reach from an empty queue, links, order, bands and counters agree.
-/

namespace CSLiS.Queue.LinkedQueue
open Lib Lib.Linked Lib.Exec

variable {n : ℕ} {q : LinkedQueue n} {l m : List (Fin n)} {p mp : Fin n} {x : Option (Fin n)}

theorem rmvMsg_fields (mp : Fin n) : (q.rmvMsg (some mp)).next =
      Function.update (relink q.next (q.prev mp) (q.next mp)) mp none ∧
    (q.rmvMsg (some mp)).prev =
      Function.update (relink q.prev (q.next mp) (q.prev mp)) mp none ∧
    (q.rmvMsg (some mp)).qFirst = (if (q.prev mp).isSome then q.qFirst else q.next mp) ∧
    (q.rmvMsg (some mp)).qLast = (if (q.next mp).isSome then q.qLast else q.prev mp) ∧
    (q.rmvMsg (some mp)).info = q.info ∧ (q.rmvMsg (some mp)).qDeferHead = q.qDeferHead ∧
    (q.rmvMsg (some mp)).core =
      adjustQCount q.info true true q.core mp (q.prev mp) (q.next mp) := by
  cases hp : q.prev mp <;> cases hx : q.next mp <;> simp only [rmvMsg,hp,hx]
  · refine ⟨?_,?_,rfl,rfl,?_,rfl,rfl⟩
    · show ((q.setPrev mp none).setNext mp none).next = _
      simp [relink]
    · show ((q.setPrev mp none).setNext mp none).prev = _
      simp [relink]
    · show ((q.setPrev mp none).setNext mp none).info = _
      simp
  · refine ⟨?_,?_,rfl,rfl,?_,rfl,rfl⟩
    · show (((q.setPrev _ none).setPrev mp none).setNext mp none).next = _
      simp [relink]
    · show (((q.setPrev _ none).setPrev mp none).setNext mp none).prev = _
      simp [relink]
    · show (((q.setPrev _ none).setPrev mp none).setNext mp none).info = _
      simp
  · refine ⟨?_,?_,rfl,rfl,?_,rfl,rfl⟩
    · show (((q.setNext _ none).setPrev mp none).setNext mp none).next = _
      simp [relink]
    · show (((q.setNext _ none).setPrev mp none).setNext mp none).prev = _
      simp [relink]
    · show (((q.setNext _ none).setPrev mp none).setNext mp none).info = _
      simp
  · next y z =>
    refine ⟨?_,?_,rfl,rfl,?_,rfl,rfl⟩
    · show ((((q.setNext y (some z)).setPrev z (some y)).setPrev mp none).setNext mp none).next = _
      simp [relink]
    · show ((((q.setNext y (some z)).setPrev z (some y)).setPrev mp none).setNext mp none).prev = _
      simp [relink]
    · show ((((q.setNext y (some z)).setPrev z (some y)).setPrev mp none).setNext mp none).info = _
      simp

theorem rmvMsg_represents (h : q.Represents (l ++ mp :: m)) :
    (q.rmvMsg (some mp)).Represents (l ++ m) := by
  obtain ⟨hn,hp,hf,hl,hi,-,hc⟩ := rmvMsg_fields (q := q) mp
  have hpl : q.prev mp = l.getLast? := by simpa using h.links.linked.prev_eq
  have hnm : q.next mp = m.head? := by simpa using h.links.linked.next_eq
  rw [hpl,hnm] at hn hp hf hl hc
  refine ⟨⟨?_,?_,?_⟩,?_⟩
  · rw [hn,hp]
    exact remove h.tidy.nodup h.links.linked
  · rw [hf,h.links.first]
    cases l <;> simp
  · rw [hl,h.links.last]
    cases m <;> simp [List.getLast?_append,List.getLast?_cons]
  · rw [hi,hc]
    exact adjustQCount_tidy _ h.tidy

theorem backenable_represents (h : q.Represents l) : q.backenable.Represents l :=
  ⟨⟨h.links.linked,h.links.first,h.links.last⟩,lisBackenable_tidy _ h.tidy⟩

theorem rmvMsg_deferred (p : Option (Fin n)) : (q.rmvMsg p).qDeferHead = q.qDeferHead := by
  cases p with
  | none => rfl
  | some mp => exact (rmvMsg_fields mp).2.2.2.2.2.1

theorem lisGetq_deferred : q.lisGetq.1.qDeferHead = q.qDeferHead := by
  unfold lisGetq
  split_ifs
  · rfl
  · exact rmvMsg_deferred q.qFirst

theorem lisRmvq_deferred : (q.lisRmvq mp).qDeferHead = q.qDeferHead := by
  unfold lisRmvq
  split_ifs
  · rfl
  · split
    · rfl
    · exact rmvMsg_deferred _

theorem lisGetq_represents (h : q.Represents l) : ∃ l', q.lisGetq.1.Represents l' := by
  unfold lisGetq
  split_ifs
  · exact ⟨l,h⟩
  · cases l with
    | nil =>
      have hf : q.qFirst = none := h.links.first
      rw [hf]
      have hr : (q.rmvMsg none).Represents [] :=
        ⟨⟨h.links.linked,h.links.first,h.links.last⟩,h.tidy.of_eq rfl rfl⟩
      exact ⟨[],backenable_represents hr⟩
    | cons x l =>
      have hf : q.qFirst = some x := h.links.first
      rw [hf]
      exact ⟨l,backenable_represents (rmvMsg_represents (l := []) h)⟩

theorem lisRmvq_represents (h : q.Represents l) : ∃ l', (q.lisRmvq mp).Represents l' := by
  unfold lisRmvq
  split_ifs
  · exact ⟨l,h⟩
  · rw [h.links.first,skip_linked h.links.linked (length_le h.tidy.nodup)]
    have hs := List.takeWhile_append_dropWhile (p := fun p => decide (p ≠ mp)) (l := l)
    cases hd : l.dropWhile fun p => decide (p ≠ mp) with
    | nil => exact ⟨l,h⟩
    | cons x m =>
      rw [hd] at hs
      rw [← hs] at h
      exact ⟨_,backenable_represents (rmvMsg_represents h)⟩

/- The loop of flush_worker: the messages still to be looked at are chained by
`b_next` alone, and no put touches that chain. -/
theorem flushList_represents (band : ℤ) (flushAll : Bool) {k : ℕ} {r : List (Fin n)}
    {pr : Fin n → Option (Fin n)} {p : Option (Fin n)} (h : q.Represents l)
    (hnd : r.Nodup) (hdis : ∀ x ∈ r, x ∉ l) (hr : Linked q.next pr p r none) (hk : r.length ≤ k) :
    ∃ l', (flushList band flushAll k q r.head?).Represents l' ∧
      (flushList band flushAll k q r.head?).qDeferHead = q.qDeferHead := by
  induction r generalizing q l k p with
  | nil => cases k <;> exact ⟨l,h,rfl⟩
  | cons mp r ih =>
    cases k with
    | zero => simp at hk
    | succ k =>
      obtain ⟨-,hn,hr⟩ := hr
      rw [Option.or_none] at hn
      obtain ⟨hmpr,hnd⟩ := List.nodup_cons.mp hnd
      have hmpl : mp ∉ l := hdis mp (List.mem_cons_self ..)
      have hdis : ∀ x ∈ r, x ∉ l := fun x hx => hdis x (List.mem_cons_of_mem _ hx)
      have hk : r.length ≤ k := Nat.le_of_succ_le_succ hk
      have hcut : ∀ x, x ≠ mp → (q.setNext mp none).next x = q.next x := by
        intro x hx
        rw [setNext_next,Function.update_of_ne hx]
      have h1 : (q.setNext mp none).Represents l := by
        refine ⟨⟨h.links.linked.congr (fun x hx => hcut x fun he => hmpl (he ▸ hx)) ?_,
          h.links.first,h.links.last⟩,?_⟩
        · exact fun x _ => by rw [setNext_prev]
        · rw [setNext_info]
          exact h.tidy
      have hr1 : Linked (q.setNext mp none).next pr (some mp) r none :=
        hr.congr (fun x hx => hcut x fun he => hmpr (he ▸ hx)) fun _ _ => rfl
      show ∃ l', (flushList band flushAll k (if flushes band flushAll _ then _ else _) (q.next mp)).Represents
        l' ∧ (flushList band flushAll k (if flushes band flushAll _ then _ else _) (q.next mp)).qDeferHead = _
      rw [hn]
      split_ifs with hfl
      · exact ih h1 hnd hdis hr1 hk
      · cases hs : q.core.qFlag.shut with
        | true =>
          have he : (q.setNext mp none).lisPutq mp = q.setNext mp none := if_pos hs
          rw [he]
          exact ih h1 hnd hdis hr1 hk
        | false =>
          obtain ⟨⟨a,m,rfl,hrep⟩,hframe,-,hd⟩ := lisPutq_spec h1 hmpl hs
          have hout : ∀ x ∈ r, x ∉ mp :: (a ++ m) := by
            intro x hx hm
            rcases List.mem_cons.mp hm with rfl | hm
            · exact hmpr hx
            · exact hdis x hx hm
          obtain ⟨l',hl',hd'⟩ := ih hrep hnd
            (fun x hx hm => hout x hx (List.perm_middle.mem_iff.mp hm))
            (hr1.congr (fun x hx => hframe x (hout x hx)) fun _ _ => rfl) hk
          exact ⟨l',hl',hd'.trans hd⟩

theorem flushList_none {band : ℤ} {flushAll : Bool} (k : ℕ) :
    flushList band flushAll k q none = q := by cases k <;> rfl

theorem flushWorker_represents (band : ℤ) (flushAll : Bool) (h : q.Represents l)
    (hd : q.qDeferHead = none) :
    ∃ l', (q.flushWorker band flushAll).Represents l' ∧
      (q.flushWorker band flushAll).qDeferHead = none := by
  let s : LinkedQueue n := { q with
    core := q.core.flushStart, qFirst := none, qLast := none, qDeferHead := none, qDeferTail := none }
  have hs : s.Represents [] := ⟨⟨trivial,rfl,rfl⟩,flushStart_tidy⟩
  obtain ⟨l',hl,hd'⟩ := flushList_represents band flushAll hs h.tidy.nodup
    (fun _ _ => List.not_mem_nil) h.links.linked (length_le h.tidy.nodup)
  simp only [flushWorker,hd,flushList_none,h.links.first]
  exact ⟨l',⟨⟨hl.links.linked,hl.links.first,hl.links.last⟩,
    flushEnd_tidy (flushCheck_tidy _ hl.tidy)⟩,hd'⟩

theorem walk_linked {k : ℕ} {p : Option (Fin n)} (h : Linked q.next q.prev p l none)
    (hk : l.length ≤ k) : q.walk k l.head? = l := by
  induction l generalizing k p with
  | nil => cases k <;> rfl
  | cons x l ih =>
    cases k with
    | zero => simp at hk
    | succ k =>
      obtain ⟨-,hn,h⟩ := h
      rw [Option.or_none] at hn
      show x :: q.walk k (q.next x) = _
      rw [hn,ih h (Nat.le_of_succ_le_succ hk)]

theorem fill_represents {b : Mblk n} (h : q.Represents l) (hmp : mp ∉ l) :
    (q.fill mp b).Represents l := by
  have he : ∀ x ∈ l, (q.fill mp b).mem x = q.mem x := fun x hx =>
    Function.update_of_ne (by rintro rfl; exact hmp hx) ..
  refine ⟨⟨h.links.linked.congr (fun x hx => ?_) fun x hx => ?_,h.links.first,h.links.last⟩,
    h.tidy.congr fun x hx => ?_⟩
  · simp only [next,he x hx]
  · simp only [prev,he x hx]
  · simp only [info,he x hx]
    exact ⟨rfl,rfl,fun _ => rfl⟩

/- The step lemma. A closed queue takes and gives no message. -/
theorem step_represents {r : LinkedQueue n} {o : Op n} (h : ∃ l, q.Represents l)
    (hd : q.qDeferHead = none) (hs : q.step o = some r) :
    (∃ l, r.Represents l) ∧ r.qDeferHead = none := by
  obtain ⟨l,h⟩ := h
  have hw : q.walk n q.qFirst = l := by
    rw [h.links.first]
    exact walk_linked h.links.linked (length_le h.tidy.nodup)
  cases o with
  | putq mp b =>
    simp only [step,hw] at hs
    split_ifs at hs with hmp
    obtain rfl := Option.some.inj hs
    cases hsh : q.core.qFlag.shut with
    | true =>
      rw [show (q.fill mp b).lisPutq mp = q.fill mp b from if_pos hsh]
      exact ⟨⟨l,fill_represents h hmp⟩,hd⟩
    | false =>
      obtain ⟨⟨k,m,-,hr⟩,-,-,hd'⟩ := lisPutq_spec (fill_represents (b := b) h hmp) hmp hsh
      exact ⟨⟨_,hr⟩,hd'.trans hd⟩
  | putbq mp b =>
    simp only [step,hw] at hs
    split_ifs at hs with hmp
    obtain rfl := Option.some.inj hs
    cases hsh : q.core.qFlag.shut with
    | true =>
      rw [show (q.fill mp b).lisPutbq mp = q.fill mp b from if_pos hsh]
      exact ⟨⟨l,fill_represents h hmp⟩,hd⟩
    | false =>
      obtain ⟨⟨k,m,-,hr⟩,-,-,hd'⟩ := lisPutbq_spec (fill_represents (b := b) h hmp) hmp hsh
      exact ⟨⟨_,hr⟩,hd'.trans hd⟩
  | getq =>
    obtain rfl := Option.some.inj hs
    exact ⟨lisGetq_represents h,lisGetq_deferred.trans hd⟩
  | rmvq mp =>
    obtain rfl := Option.some.inj hs
    exact ⟨lisRmvq_represents h,lisRmvq_deferred.trans hd⟩
  | flushq flushAll =>
    obtain rfl := Option.some.inj hs
    obtain ⟨l',hl,hd'⟩ := flushWorker_represents (-1) flushAll h hd
    exact ⟨⟨l',hl⟩,hd'⟩
  | flushband band flushAll =>
    obtain rfl := Option.some.inj hs
    obtain ⟨l',hl,hd'⟩ := flushWorker_represents band flushAll h hd
    exact ⟨⟨l',hl⟩,hd'⟩

/-- What the links, the order, the band structures and the counters of a queue
with the messages `l` have to be. -/
structure Consistent (q : LinkedQueue n) (l : List (Fin n)) : Prop where
  nodup : l.Nodup
  linked : Linked q.next q.prev none l none
  ends : q.qFirst = l.head? ∧ q.qLast = l.getLast?
  order : ∃ hi ord, l = hi ++ ord ∧ (∀ x ∈ hi, (q.info x).hipri = true) ∧
    (∀ x ∈ ord, (q.info x).hipri = false) ∧
    ord.Pairwise fun x y => (q.info y).bBand ≤ (q.info x).bBand
  bands : ∀ b, b ≠ 0 → bandMsgs q.info b l ≠ [] →
    ∃ pre qp post, q.core.qBandp = pre ++ qp :: post ∧ qp.Holds q.info l b ∧
      ∀ x ∈ pre ++ post, x.qbFirst ≠ qp.qbFirst
  unused : ∀ qp ∈ q.core.qBandp, qp.Free ∨
    ∃ b, b ≠ 0 ∧ bandMsgs q.info b l ≠ [] ∧ qp.Holds q.info l b
  count : q.core.qCount = sizes q.info (qMsgs q.info l)

theorem Represents.order (h : q.Represents l) :
    ∃ hi ord, l = hi ++ ord ∧ (∀ x ∈ hi, (q.info x).hipri = true) ∧
      (∀ x ∈ ord, (q.info x).hipri = false) ∧
      ord.Pairwise fun x y => (q.info y).bBand ≤ (q.info x).bBand := by
  have hord := ordered_hipri h.tidy.ordered
  have hs : Ordered q.info (l.dropWhile fun p => (q.info p).hipri) :=
    h.tidy.ordered.sublist (List.dropWhile_sublist _)
  refine ⟨_,_,(List.takeWhile_append_dropWhile (p := fun p => (q.info p).hipri)).symm,?_,hord,?_⟩
  · exact fun x hx => List.mem_takeWhile_imp (p := fun p => (q.info p).hipri) hx
  · refine hs.imp_of_mem fun hx hy hr => ?_
    rw [rank_ordinary (hord _ hx),rank_ordinary (hord _ hy)] at hr
    exact hr

theorem Represents.bands {b : Uchar} (h : q.Represents l) (hb : b ≠ 0)
    (hne : bandMsgs q.info b l ≠ []) :
    ∃ pre qp post, q.core.qBandp = pre ++ qp :: post ∧ qp.Holds q.info l b ∧
      ∀ x ∈ pre ++ post, x.qbFirst ≠ qp.qbFirst := by
  obtain ⟨qp,hq,ho⟩ := h.tidy.banded.covered b trivial hb hne
  obtain ⟨pre,post,he⟩ := List.append_of_mem hq
  refine ⟨pre,qp,post,he,ho.2.2,fun x hx hfx => ?_⟩
  have hB := h.tidy.banded
  rw [he] at hB
  rcases (hB.rest (.inl ho)).each x hx with hf | ⟨b',hne',ho'⟩
  · have := ho.first_ne
    simp [← hfx,hf.1] at this
  · have hi : qp.isBand q.info b' = true := by
      have := ho'.isBand.mpr rfl
      simpa [Qband.isBand,hfx] using this
    exact hne' (ho.isBand.mp hi).symm

theorem Represents.consistent (h : q.Represents l) : q.Consistent l where
  nodup := h.tidy.nodup
  linked := h.links.linked
  ends := ⟨h.links.first,h.links.last⟩
  order := h.order
  bands := fun _ => h.bands
  unused := fun qp hq => (h.tidy.banded.each qp hq).imp_right fun ⟨b,_,ho⟩ => ⟨b,ho⟩
  count := h.tidy.count

theorem empty_represents (mem : Fin n → Mblk n) (qFlag : Qflag) (qHiwat qLowat : Ulong)
    (qiSrvp : Bool) (back : List BackQ) :
    (empty mem qFlag qHiwat qLowat qiSrvp back).Represents [] :=
  ⟨⟨trivial,rfl,rfl⟩,.of_nil rfl fun _ h => absurd h List.not_mem_nil⟩

/-- Any sequence of operations on an empty queue leaves links, order, bands and
counters consistent. -/
theorem reached_consistent (mem : Fin n → Mblk n) (qFlag : Qflag) (qHiwat qLowat : Ulong)
    (qiSrvp : Bool) (back : List BackQ) (ops : List (Op n)) {q : LinkedQueue n}
    (h : exec step (empty mem qFlag qHiwat qLowat qiSrvp back) ops = some q) :
    ∃ l, q.Consistent l := by
  obtain ⟨⟨l,hl⟩,-⟩ := exec_invariant
    (I := fun q : LinkedQueue n => (∃ l, q.Represents l) ∧ q.qDeferHead = none)
    (fun _ _ _ hI hs => step_represents hI.1 hI.2 hs)
    ⟨⟨[],empty_represents mem qFlag qHiwat qLowat qiSrvp back⟩,rfl⟩ h
  exact ⟨l,hl.consistent⟩

/- Two messages of band 3, one of high priority with a stray band put back, a
removal from the middle and a flush of band 3. -/
theorem reached_consistent_run :
    ∃ q : LinkedQueue 4, (∃ l, q.Consistent l) ∧ exec step
      (empty (fun _ => ⟨none,none,⟨0,false,⟨M_DATA,8,[]⟩,[]⟩⟩) {} 100 20 true [])
      [.putq 0 ⟨none,none,⟨3,false,⟨M_DATA,8,[]⟩,[]⟩⟩,.putq 1 ⟨none,some 2,⟨3,false,⟨M_DATA,70,[]⟩,[]⟩⟩,
        .putbq 2 ⟨some 0,none,⟨5,false,⟨M_IOCACK,16,[]⟩,[]⟩⟩,.rmvq 0,.flushband 3 false,.getq] = some q := by
  obtain ⟨q,hq⟩ := Option.isSome_iff_exists.mp (show (exec step
      (empty (fun _ => ⟨none,none,⟨0,false,⟨M_DATA,8,[]⟩,[]⟩⟩) {} 100 20 true [])
      [.putq 0 ⟨none,none,⟨3,false,⟨M_DATA,8,[]⟩,[]⟩⟩,.putq 1 ⟨none,some 2,⟨3,false,⟨M_DATA,70,[]⟩,[]⟩⟩,
        .putbq 2 ⟨some 0,none,⟨5,false,⟨M_IOCACK,16,[]⟩,[]⟩⟩,.rmvq 0,.flushband 3 false,.getq] :
        Option (LinkedQueue 4)).isSome = true from by decide +kernel)
  exact ⟨q,reached_consistent _ _ _ _ _ _ _ hq,hq⟩

end CSLiS.Queue.LinkedQueue
