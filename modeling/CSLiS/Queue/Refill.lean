import CSLiS.Queue.FlushWishes

/-!
# Consistency over a flush (head/queue.c)

A flush needs no new band structure: those that served the bands before are
enough for the messages that are put back. So the queue is consistent after the
flush, whatever its counters were before.
-/

namespace CSLiS.Queue
open Queue.Flow

variable {q : ListQueue} {c : Core Msg} {mp : Msg} {alloc : Msg → Bool} {l r : List Msg} {a : Bool}

theorem Qband.Owns.bBand {qp : Qband Msg} {b : Uchar} (h : qp.Owns Msg.info l b) :
    qp.qbFirst.map (fun x => x.info.bBand) = some b := by
  obtain ⟨x,-,hf,hi⟩ := h.head_mem
  simp only [Info.inBand,Bool.and_eq_true,beq_iff_eq] at hi
  rw [hf]
  exact congrArg some hi.2

/- If all structures are in use, they are as many as there are bands. -/
theorem bandSet_card_of_used (h : Tidy Msg.info c l)
    (hu : ∀ qp ∈ c.qBandp, qp.qbFirst.isSome = true) : c.qBandp.length ≤ (bandSet l).card := by
  have howns : ∀ qp ∈ c.qBandp, ∃ b, qp.Owns Msg.info l b := by
    intro qp hq
    cases h.banded.each qp hq with
    | inl hf =>
      have hn := hu qp hq
      rw [hf.1] at hn
      cases hn
    | inr ho => exact ⟨_,ho.choose_spec.2⟩
  let bands := c.qBandp.map fun qp => qp.qbFirst.map fun x => x.info.bBand
  have hnodup : bands.Nodup := by
    refine List.pairwise_map.mpr (h.banded.distinct.imp_of_mem fun hp hq hd he => ?_)
    obtain ⟨b,ho⟩ := howns _ hp
    obtain ⟨b',ho'⟩ := howns _ hq
    rw [ho.bBand,ho'.bBand] at he
    exact hd b ho (Option.some.inj he ▸ ho')
  have hsub : bands.toFinset ⊆ (bandSet l).image some := by
    intro x hx
    obtain ⟨qp,hq,rfl⟩ := List.mem_map.mp (List.mem_toFinset.mp hx)
    obtain ⟨b,ho⟩ := howns qp hq
    exact Finset.mem_image.mpr ⟨b,bandSet_mem.mpr ⟨ho.1,ho.2.1⟩,ho.bBand.symm⟩
  calc c.qBandp.length = bands.toFinset.card := by
        rw [List.toFinset_card_of_nodup hnodup,List.length_map]
    _ ≤ ((bandSet l).image some).card := Finset.card_le_card hsub
    _ ≤ (bandSet l).card := Finset.card_image_le

/- As long as the structures are as many as the bands, one is found. -/
theorem findQband_room (h : Tidy Msg.info c l)
    (hcard : (bandSet (l ++ [mp])).card ≤ c.qBandp.length) (hq : mp.info.inQCount = false) :
    (findQband Msg.info a c mp.info.bBand).isSome = true := by
  obtain ⟨-,hb0,-⟩ := Info.inQCount_false hq
  by_cases hb : mp.info.bBand ∈ bandSet l
  · obtain ⟨z,hz,-⟩ := findQband_owned a h.banded hb0 (bandSet_mem.mp hb).2
    rw [hz]
    rfl
  · by_contra hnone
    have hused : ∀ qp ∈ c.qBandp, qp.qbFirst.isSome = true := by
      intro qp hqp
      by_contra hf
      exact hnone (findQband_isSome_iff.mpr (.inr ⟨qp,hqp,.inl (by simpa using hf)⟩))
    have := bandSet_card_of_used h hused
    rw [bandSet_middle_in hq,List.append_nil,Finset.card_insert_of_notMem hb] at hcard
    omega

/- A queue that is being filled again: no more bands than structures. -/
structure Roomy (q : ListQueue) (r : List Msg) : Prop where
  tidy : Tidy Msg.info q.core q.msgs
  addrs : ((q.msgs ++ r).map Msg.addr).Nodup
  room : (bandSet (q.msgs ++ r)).card ≤ q.core.qBandp.length

theorem updatequeue_length {fromInsq bandPtrs : Bool} {prev next : Option Msg} :
    c.qBandp.length ≤ (updatequeue Msg.info a fromInsq bandPtrs c mp prev next).qBandp.length := by
  rw [updatequeue,schedule_fields.2]
  cases hq : mp.info.inQCount with
  | true => rw [countIn_queue bandPtrs hq]
  | false =>
    cases hz : findQband Msg.info a c mp.info.bBand with
    | none => simp [countIn,hq,hz]
    | some z =>
      rw [countIn_band bandPtrs hq hz]
      rcases findQband_cases hz with ⟨-,he⟩ | ⟨-,⟨qp,-,he,-,-⟩ | ⟨rfl,-,-⟩⟩
      · simp [he,BandAt.chain]
      · simp [he]
      · simp

theorem Roomy.lisPutq (h : Roomy q (mp :: r)) : Roomy (q.lisPutq alloc mp) r := by
  obtain ⟨ht,hnd,hroom⟩ := h
  cases hs : q.core.qFlag.shut with
  | true =>
    have he : q.lisPutq alloc mp = q := by simp [ListQueue.lisPutq,hs]
    rw [he]
    refine ⟨ht,hnd.sublist ?_,(Finset.card_le_card (bandSet_mono ?_)).trans hroom⟩
    · exact ((List.sublist_cons_self ..).append_left _).map _
    · exact ((List.sublist_cons_self ..).append_left _).subset
  | false =>
    obtain ⟨k,m,hkm,hmsgs,-,hcore,-⟩ := ListQueue.lisPutq_open alloc mp hs
    have hmp : ∀ x ∈ q.msgs, x.addr ≠ mp.addr := by
      intro x hx he
      rw [List.map_append,List.map_cons] at hnd
      refine (List.nodup_cons.mp (List.nodup_middle.mp hnd)).1 ?_
      exact List.mem_append_left _ (he ▸ List.mem_map_of_mem hx)
    have hone : (bandSet (q.msgs ++ [mp])).card ≤ q.core.qBandp.length :=
      (Finset.card_le_card (bandSet_mono (by simp))).trans hroom
    refine ⟨ListQueue.lisPutq_tidy ht hs hmp fun hq => findQband_room ht hone hq,?_,?_⟩
    · rw [← hkm] at hnd
      simp only [hmsgs,List.map_append,List.map_cons,ListQueue.entry_addr,List.append_assoc,
        List.cons_append] at hnd ⊢
      rw [← List.append_assoc] at hnd
      exact (List.perm_middle.trans (by simpa using List.perm_middle.symm)).nodup_iff.mp hnd
    · rw [hcore,bandSet_append,lisPutq_bandSet alloc mp hs,← bandSet_append,← bandSet_append,List.append_assoc]
      exact hroom.trans updatequeue_length

theorem Roomy.flushList (alloc : Msg → Bool) (band : ℤ) (flushAll : Bool) (h : Roomy q r) :
    Roomy (ListQueue.flushList alloc band flushAll q r) [] := by
  induction r generalizing q with
  | nil => exact h
  | cons mp r ih =>
    rw [ListQueue.flushList]
    split_ifs
    · refine ih ⟨h.tidy,h.addrs.sublist ?_,(Finset.card_le_card (bandSet_mono ?_)).trans h.room⟩
      · exact ((List.sublist_cons_self ..).append_left _).map _
      · exact ((List.sublist_cons_self ..).append_left _).subset
    · exact ih h.lisPutq

theorem lisPutq_defer : (q.lisPutq alloc mp).defer = q.defer := by
  unfold ListQueue.lisPutq
  split_ifs <;> rfl

theorem flushList_defer {band : ℤ} {flushAll : Bool} :
    (ListQueue.flushList alloc band flushAll q r).defer = q.defer := by
  induction r generalizing q with
  | nil => rfl
  | cons mp r ih =>
    rw [ListQueue.flushList,ih]
    split_ifs
    · rfl
    · exact lisPutq_defer

theorem flushList_addr {band : ℤ} {flushAll : Bool} {x : Msg}
    (hx : x ∈ (ListQueue.flushList alloc band flushAll q r).msgs) :
    x.addr ∈ (q.msgs ++ r).map Msg.addr := by
  induction r generalizing q with
  | nil => simpa [ListQueue.flushList] using ⟨x,hx,rfl⟩
  | cons mp r ih =>
    rw [ListQueue.flushList] at hx
    have hadd := ih hx
    split_ifs at hadd
    · simp only [List.map_append,List.map_cons,List.mem_append,List.mem_cons] at hadd ⊢
      exact hadd.imp_right .inr
    · have hput : ∀ y ∈ (q.lisPutq alloc mp).msgs.map Msg.addr, y ∈ q.msgs.map Msg.addr ∨ y = mp.addr := by
        cases hs : q.core.qFlag.shut with
        | true => exact fun y hy => .inl (by simpa [ListQueue.lisPutq,hs] using hy)
        | false =>
          obtain ⟨k,m,hkm,hmsgs,-⟩ := ListQueue.lisPutq_open alloc mp hs
          intro y hy
          rw [hmsgs,List.map_append,List.map_cons,ListQueue.entry_addr] at hy
          rw [← hkm,List.map_append]
          simp only [List.mem_append,List.mem_cons] at hy ⊢
          rcases hy with hy | hy | hy
          · exact .inl (.inl hy)
          · exact .inr hy
          · exact .inl (.inr hy)
      rw [List.map_append,List.mem_append] at hadd ⊢
      rw [List.map_cons,List.mem_cons]
      rcases hadd with hadd | hadd
      · exact (hput _ hadd).imp_right .inl
      · exact .inr (.inr hadd)

theorem flushWorker_tidy (alloc : Msg → Bool) (band : ℤ) (flushAll : Bool) (back : List BackQ)
    (hd : q.defer = [])
    (hnd : (q.msgs.map Msg.addr).Nodup) (hroom : (bandSet q.msgs).card ≤ q.core.qBandp.length) :
    let q' := (q.flushWorker alloc band flushAll back).1
    Tidy Msg.info q'.core q'.msgs ∧ (q'.msgs.map Msg.addr).Nodup ∧ q'.defer = [] ∧
      ∀ x ∈ q'.msgs, x.addr ∈ q.msgs.map Msg.addr := by
  have hstart : Roomy ⟨q.core.flushStart,[],[]⟩ q.msgs :=
    ⟨flushStart_tidy,by simpa using hnd,by simpa [Core.flushStart] using hroom⟩
  have hlist := hstart.flushList alloc band flushAll
  simp only [ListQueue.flushWorker,hd,ListQueue.flushList]
  exact ⟨flushEnd_tidy (flushCheck_tidy _ hlist.tidy),by simpa using hlist.addrs,flushList_defer,
    fun x hx => by simpa using flushList_addr hx⟩

end CSLiS.Queue
