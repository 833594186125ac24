import CSLiS.Queue.ListQueue
import CSLiS.Queue.Marks

/-!
# What becomes of the messages in a flush (head/queue.c)

`flush_worker` takes all messages away, frees those selected and gives the others to `lis_putq` again. On a queue that
is closing or has its procedures off `lis_putq` frees a message itself and returns 0, whereupon the caller frees it.
-/

namespace CSLiS.Queue.ListQueue
open Lib.Split

variable (alloc : Msg → Bool)

/-- `lis_putq` with what it frees and returns (`queue.c:968-991`). -/
def putqFreeing (q : ListQueue) (mp : Msg) : ListQueue × List Msg × ℕ :=
  if q.core.qFlag.shut then (q,[mp],0) else (q.lisPutq alloc mp,[],1)

/-- The loop of `flush_worker` (`queue.c:1475-1519`) with the messages freed so far. -/
def flushFreeing (band : ℤ) (flushAll : Bool) : ListQueue × List Msg → List Msg → ListQueue × List Msg
  | s, [] => s
  | s, mp :: l =>
      if flushes band flushAll mp.info then flushFreeing band flushAll (s.1,s.2 ++ [mp]) l
      else
        let r := s.1.putqFreeing alloc mp
        flushFreeing band flushAll (r.1,s.2 ++ r.2.1 ++ if r.2.2 = 0 then [mp] else []) l

/-- `flush_worker` (`queue.c:1440-1579`): the queue and the messages freed. -/
def flushWorkerFreeing (q : ListQueue) (band : ℤ) (flushAll : Bool) (back : List BackQ) : ListQueue × List Msg :=
  let s := flushFreeing alloc band flushAll (⟨q.core.flushStart,[],[]⟩,[]) q.msgs
  let s := flushFreeing alloc band flushAll s q.defer
  let r := (s.1.core.flushCheck q.core.qFlag.qwasfull).flushEnd (!s.1.msgs.isEmpty) back
  ({ s.1 with core := r.1 },s.2)

/- The messages that the flush does not select. -/
def spared (band : ℤ) (flushAll : Bool) (l : List Msg) : List Msg := l.filter fun mp => !flushes band flushAll mp.info
def selected (band : ℤ) (flushAll : Bool) (l : List Msg) : List Msg := l.filter fun mp => flushes band flushAll mp.info

/- Every message of before is on the queue or was freed, once, and those on the queue are the spared ones in their order.
A message is the same with the band that queueing has cleared for it. -/
structure FlushedOnce (q : ListQueue) (band : ℤ) (flushAll : Bool) (r : ListQueue × List Msg) : Prop where
  once : ((r.1.msgs ++ r.2).map Msg.cleared).Perm ((q.msgs ++ q.defer).map Msg.cleared)
  order : r.1.msgs.map Msg.cleared = (spared band flushAll (q.msgs ++ q.defer)).map Msg.cleared
  deferred : r.1.defer = []

variable {alloc} {q : ListQueue} {s : ListQueue × List Msg} {mp : Msg} {l : List Msg} {band : ℤ} {flushAll : Bool}
  {back : List BackQ}

/- The freed messages aside this is the loop of the model without them. -/
theorem flushFreeing_queue : (flushFreeing alloc band flushAll s l).1 = flushList alloc band flushAll s.1 l := by
  induction l generalizing s with
  | nil => rfl
  | cons mp l ih =>
    unfold flushFreeing flushList
    split_ifs with hf
    · exact ih
    · have hput : (s.1.putqFreeing alloc mp).1 = s.1.lisPutq alloc mp := by
        unfold putqFreeing
        split_ifs with hs
        · simp only [lisPutq,hs,if_true]
        · rfl
      rw [ih,hput]

theorem flushWorkerFreeing_queue :
    (q.flushWorkerFreeing alloc band flushAll back).1 = (q.flushWorker alloc band flushAll back).1 := by
  simp only [flushWorkerFreeing,flushWorker,flushFreeing_queue]

theorem cleared_idem : mp.cleared.cleared = mp.cleared := by
  by_cases h : mp.info.hipri = true
  · have hc : ({ mp with bBand := 0 } : Msg).info.hipri = true := h
    have he : mp.cleared = { mp with bBand := 0 } := if_pos h
    rw [he]
    exact if_pos hc
  · have hc : mp.cleared = mp := if_neg h
    rw [hc,hc]

theorem entry_cleared : (q.entry mp).cleared = mp.cleared := by
  unfold entry
  split_ifs
  · rfl
  · exact cleared_idem

theorem lisPutq_shut (hs : q.core.qFlag.shut = false) : (q.lisPutq alloc mp).core.qFlag.shut = false := by
  obtain ⟨k,m,-,-,-,hcore,-⟩ := lisPutq_open alloc mp hs
  obtain ⟨a,x,w,he,-⟩ := updatequeue_eq true Msg.info (alloc (q.entry mp)) false q.core (q.entry mp) k.getLast? m.head?
  rw [hcore,he]
  exact hs

/- A message that ranks no higher than any other one goes to the end. -/
theorem tailSplit_end {i : Info} (h : ∀ x ∈ l, i.rank ≤ x.info.rank) : tailSplit Msg.info l i = (l,[]) := by
  unfold tailSplit
  split
  · next hl => rw [List.getLast?_eq_none_iff.mp hl]
  · next lastp hl =>
    have hlast := h lastp (List.mem_of_getLast? hl)
    have hb := i.bBand.isLt
    have hlb := lastp.info.bBand.isLt
    split_ifs with h1 h2 h3
    · rfl
    · rfl
    · rw [rank_hipri h3,rank_ordinary (by simpa using h1)] at hlast
      omega
    · rw [rank_ordinary (by simpa using h3),rank_ordinary (by simpa using h1)] at hlast
      have hlt : lastp.info.bBand < i.bBand := by simpa [h3] using h2
      rw [Fin.lt_def] at hlt
      omega

theorem lisPutq_end (alloc : Msg → Bool) (hs : q.core.qFlag.shut = false)
    (h : ∀ x ∈ q.msgs, mp.info.rank ≤ x.info.rank) : (q.lisPutq alloc mp).msgs = q.msgs ++ [q.entry mp] := by
  unfold lisPutq
  rw [if_neg (by rw [hs]; decide),tailSplit_end h]
  rfl

/- What the loop leaves on an open queue: the spared messages, put in, and the others freed. -/
structure Refilled (s t : ListQueue × List Msg) (k g : List Msg) : Prop where
  shut : t.1.core.qFlag.shut = false
  msgs : (t.1.msgs.map Msg.cleared).Perm ((s.1.msgs ++ k).map Msg.cleared)
  freed : t.2 = s.2 ++ g
  ordered : Ordered Msg.info s.1.msgs → Ordered Msg.info t.1.msgs
  order : Ordered Msg.info (s.1.msgs ++ k) → t.1.msgs.map Msg.cleared = (s.1.msgs ++ k).map Msg.cleared
  defer : t.1.defer = s.1.defer

theorem cleared_rank : mp.cleared.info.rank = mp.info.rank := cleared_alike.rank

/- The order of a list is that of its messages with their bands cleared. -/
theorem ordered_cleared : Ordered Msg.info (l.map Msg.cleared) ↔ Ordered Msg.info l := by
  unfold Ordered
  rw [List.pairwise_map]
  simp only [cleared_rank]

theorem flushFreeing_open (alloc : Msg → Bool) (band : ℤ) (flushAll : Bool) (l : List Msg) (hs : s.1.core.qFlag.shut = false) :
    Refilled s (flushFreeing alloc band flushAll s l) (spared band flushAll l) (selected band flushAll l) := by
  induction l generalizing s with
  | nil =>
    exact ⟨hs,by simp [flushFreeing,spared],by simp [flushFreeing,selected],id,
      fun _ => by simp [flushFreeing,spared],rfl⟩
  | cons mp l ih =>
    unfold flushFreeing
    by_cases hf : flushes band flushAll mp.info = true
    · have hk : spared band flushAll (mp :: l) = spared band flushAll l := by simp [spared,hf]
      have hg : selected band flushAll (mp :: l) = mp :: selected band flushAll l := by simp [selected,hf]
      obtain ⟨h1,h2,h3,h4,h5,h6⟩ := ih (s := (s.1,s.2 ++ [mp])) hs
      rw [if_pos hf,hk,hg]
      exact ⟨h1,h2,by rw [h3]; simp,h4,h5,h6⟩
    · have hk : spared band flushAll (mp :: l) = mp :: spared band flushAll l := by simp [spared,hf]
      have hg : selected band flushAll (mp :: l) = selected band flushAll l := by simp [selected,hf]
      have hput : s.1.putqFreeing alloc mp = (s.1.lisPutq alloc mp,[],1) := if_neg (by rw [hs]; decide)
      rw [if_neg hf,hk,hg,hput]
      obtain ⟨a,b,hab,hmsgs,hdef,-,hrank⟩ := lisPutq_open alloc mp hs
      obtain ⟨h1,h2,h3,h4,h5,h6⟩ := ih (s := (s.1.lisPutq alloc mp,s.2)) (lisPutq_shut hs)
      dsimp only
      rw [if_neg (by decide),List.append_nil,List.append_nil]
      have hent : ∀ r, (s.1.msgs ++ mp :: r).map Msg.cleared = (s.1.msgs ++ s.1.entry mp :: r).map Msg.cleared := by
        intro r
        simp only [List.map_append,List.map_cons,entry_cleared]
      refine ⟨h1,h2.trans ?_,h3,fun ho => h4 ?_,fun ho => ?_,h6.trans hdef⟩
      · rw [hent,hmsgs,← hab]
        refine List.Perm.map _ ?_
        simp only [List.append_assoc,List.cons_append]
        exact (List.Perm.append_left a List.perm_middle.symm)
      · obtain ⟨ha,hb⟩ := hrank ho
        rw [hmsgs]
        rw [← (entry_alike (q := s.1) mp).rank] at ha hb
        exact (hab ▸ ho).insert ha hb
      · have hlow : ∀ x ∈ s.1.msgs, mp.info.rank ≤ x.info.rank := fun x hx =>
          (List.pairwise_append.mp ho).2.2 x hx mp (List.mem_cons_self ..)
        have hend := lisPutq_end alloc hs hlow
        rw [h5 ?_,hend,hent]
        · simp
        · rw [hend,← ordered_cleared]
          have := hent (spared band flushAll l)
          rw [← ordered_cleared,this] at ho
          simpa using ho

/- A closed queue takes none back: what is spared is freed twice. -/
theorem flushFreeing_shut (alloc : Msg → Bool) (band : ℤ) (flushAll : Bool) (l : List Msg) (hs : s.1.core.qFlag.shut = true) :
    (flushFreeing alloc band flushAll s l).1 = s.1 ∧ (flushFreeing alloc band flushAll s l).2.length =
      s.2.length + l.length + (spared band flushAll l).length ∧
    (spared band flushAll l = [] → (flushFreeing alloc band flushAll s l).2 = s.2 ++ l) := by
  induction l generalizing s with
  | nil => simp [flushFreeing,spared]
  | cons mp l ih =>
    unfold flushFreeing
    by_cases hf : flushes band flushAll mp.info = true
    · have hk : spared band flushAll (mp :: l) = spared band flushAll l := by simp [spared,hf]
      obtain ⟨h1,h2,h3⟩ := ih (s := (s.1,s.2 ++ [mp])) hs
      rw [if_pos hf,hk]
      refine ⟨h1,?_,fun h => ?_⟩
      · rw [h2]
        simp only [List.length_append,List.length_cons,List.length_nil]
        omega
      · rw [h3 h]
        simp
    · have hk : spared band flushAll (mp :: l) = mp :: spared band flushAll l := by simp [spared,hf]
      have hput : s.1.putqFreeing alloc mp = (s.1,[mp],0) := if_pos hs
      rw [if_neg hf,hk,hput]
      obtain ⟨h1,h2,-⟩ := ih (s := (s.1,s.2 ++ [mp] ++ [mp])) hs
      refine ⟨h1,?_,fun h => by cases h⟩
      dsimp only
      rw [if_pos rfl,h2]
      simp only [List.length_append,List.length_cons,List.length_nil]
      omega

theorem flushFreeing_append {m : List Msg} : flushFreeing alloc band flushAll s (l ++ m) =
    flushFreeing alloc band flushAll (flushFreeing alloc band flushAll s l) m := by
  induction l generalizing s with
  | nil => rfl
  | cons mp l ih =>
    rw [List.cons_append,flushFreeing.eq_2,flushFreeing.eq_2 alloc band flushAll s mp l]
    split_ifs
    · exact ih
    · exact ih

theorem selected_spared (band : ℤ) (flushAll : Bool) (l : List Msg) :
    (selected band flushAll l ++ spared band flushAll l).Perm l := List.filter_append_perm ..

/- The queue on which the loop starts, emptied and with the same flags for being closed. -/
def emptied (q : ListQueue) : ListQueue × List Msg := (⟨q.core.flushStart,[],[]⟩,[])

theorem flushWorkerFreeing_eq (alloc : Msg → Bool) (q : ListQueue) (band : ℤ) (flushAll : Bool) (back : List BackQ) :
    (q.flushWorkerFreeing alloc band flushAll back).1.msgs =
      (flushFreeing alloc band flushAll q.emptied (q.msgs ++ q.defer)).1.msgs ∧
    (q.flushWorkerFreeing alloc band flushAll back).1.defer =
      (flushFreeing alloc band flushAll q.emptied (q.msgs ++ q.defer)).1.defer ∧
    (q.flushWorkerFreeing alloc band flushAll back).2 =
      (flushFreeing alloc band flushAll q.emptied (q.msgs ++ q.defer)).2 := by
  rw [flushFreeing_append]
  exact ⟨rfl,rfl,rfl⟩

/- Every message is left on the queue or freed, exactly once and in the old order, exactly when the queue is open or
keeps nothing, and what it keeps stood in the order of a queue. -/
theorem flush_once (alloc : Msg → Bool) (q : ListQueue) (band : ℤ) (flushAll : Bool) (back : List BackQ) :
    FlushedOnce q band flushAll (q.flushWorkerFreeing alloc band flushAll back) ↔
      (q.core.qFlag.shut = true → spared band flushAll (q.msgs ++ q.defer) = []) ∧
        Ordered Msg.info (spared band flushAll (q.msgs ++ q.defer)) := by
  obtain ⟨hm,hd,hf⟩ := flushWorkerFreeing_eq alloc q band flushAll back
  have hsel := selected_spared band flushAll (q.msgs ++ q.defer)
  cases hs : q.core.qFlag.shut with
  | false =>
    have hopen : q.emptied.1.core.qFlag.shut = false := hs
    obtain ⟨-,h2,h3,h4,h5,h6⟩ := flushFreeing_open alloc band flushAll
      (q.msgs ++ q.defer) hopen
    rw [← hm] at h2 h4 h5
    rw [← hd] at h6
    rw [← hf] at h3
    refine ⟨fun h => ⟨fun hc => (by cases hc),?_⟩,fun h => ⟨?_,?_,h6⟩⟩
    · rw [← ordered_cleared,← h.order,ordered_cleared]
      exact h4 List.Pairwise.nil
    · rw [List.map_append,h3,show q.emptied.2 = [] from rfl,List.nil_append]
      exact (h2.append_right _).trans ((List.perm_append_comm.trans (List.map_append .. ▸ hsel.map _)))
    · exact h5 h.2
  | true =>
    have hshut : q.emptied.1.core.qFlag.shut = true := hs
    obtain ⟨h1,h2,h3⟩ := flushFreeing_shut alloc band flushAll
      (q.msgs ++ q.defer) hshut
    rw [h1] at hm hd
    rw [← hf] at h2 h3
    refine ⟨fun h => ?_,fun h => ⟨?_,?_,hd⟩⟩
    · have hlen := h.once.length_eq
      rw [List.length_map,List.length_map,List.length_append,hm,h2] at hlen
      have hnil : spared band flushAll (q.msgs ++ q.defer) = [] := List.length_eq_zero_iff.mp (by
        simp only [emptied,List.length_nil] at hlen
        omega)
      exact ⟨fun _ => hnil,hnil ▸ List.Pairwise.nil⟩
    · rw [hm,h3 (h.1 rfl)]
      exact List.Perm.refl _
    · rw [hm,h.1 rfl]
      rfl

/- A queue that got a message of band 1 before its procedures were switched off. -/
def procsoff : ListQueue :=
  let q := (empty {} 8 4 true).lisPutq (fun _ => true) ⟨⟨1,false,⟨M_DATA,1,[]⟩,[]⟩,0⟩
  { q with core := { q.core with qFlag := { q.core.qFlag with qprocsoff := true } } }

/- A flush of band 2 frees the message of band 1 two times. -/
theorem freed_twice : ¬ ∀ (alloc : Msg → Bool) (q : ListQueue) (band : ℤ) (flushAll : Bool) (back : List BackQ),
    FlushedOnce q band flushAll (q.flushWorkerFreeing alloc band flushAll back) := by
  intro h
  have hlen := (h (fun _ => true) procsoff 2 false []).once.length_eq
  have htwo : (procsoff.flushWorkerFreeing (fun _ => true) 2 false []).2.length = 2 := by decide +kernel
  have hone : (procsoff.msgs ++ procsoff.defer).length = 1 := by decide +kernel
  rw [List.length_map,List.length_map,List.length_append,htwo,hone] at hlen
  omega

end CSLiS.Queue.ListQueue
