import CSLiS.Fifo.Sync

/-!
# The counts of a FIFO are those of its opens

While one task at a time has the inode lock, the counts at `i_pipe` are those of the opens that have returned or
wait for a partner. Kernels from 4.12 on have no mutex in the inode, and `lis_kernel_down` takes its semaphore for
reading there, so that nothing keeps the tasks apart.
-/

namespace CSLiS.Fifo.Inode

open Lib.Exec Lib.Crew

variable {shared : Bool} {s t : Inode} {i k p : ℕ} {x y z : Thread} {q r : Info} {sd : Side} {md : Mode} {c : Call}

section Facts

def inside (x : Thread) : Bool :=
  match x.place with
  | .idle | .down _ _ | .asleep _ _ _ _ | .redown _ _ _ _ | .closeDown _ => false
  | _ => true

/- Here the pipe may be there without an open that counts. -/
def fresh (x : Thread) : Bool :=
  match x.place with
  | .nonblock _ | .bump _ _ | .incr _ _ | .bothR _ | .err _ _ _ | .closeW _ | .closeFree => true
  | _ => false

def call (x : Thread) : Option (Mode × Call) :=
  match x.place with
  | .down md c | .check md c | .alloc md c => some (md,c)
  | .nonblock c => some (.one .wr,c)
  | .bump sd c | .incr sd c | .test sd c | .wait sd c _ _ | .asleep sd c _ _ | .redown sd c _ _ | .again sd c _ _ =>
      some (.one sd,c)
  | _ => none

def opens (s : Inode) (sd : Side) : ℕ := total (Thread.held sd) s.threads

/- A blocking open on one side has got a partner; - ENXIO is for a non-blocking open for writing without a reader;
-ENOMEM is for want of memory. -/
structure Returned (r : Return) : Prop where
  partner : ∀ sd, r.mode = .one sd → r.call.nonblock = false → r.result = none → r.call.since < r.made ∨ 0 < r.others
  enxio : r.result ≠ some .enomem →
    (r.result = some .enxio ↔ r.mode = .one .wr ∧ r.call.nonblock = true ∧ r.others = 0)
  enomem : r.result = some .enomem → r.call.mem = false
  einval : r.mode = .neither → r.result ≠ none

def Answer (s : Inode) (md : Mode) (c : Call) (ret : Option Errno) : Prop :=
  Returned ⟨md,c,ret,s.madeOther md,s.others md⟩

def Ready (s : Inode) (sd : Side) (c : Call) : Prop := sd = .wr → c.nonblock = true → s.opens .rd ≠ 0

structure Waits (s : Inode) (sd : Side) (c : Call) (cur : UInt32) (cnt : ℕ) : Prop where
  blocking : c.nonblock = false
  pipe : s.iPipe = some cnt
  met : ∀ q, s.heap[cnt]? = some q → cur ≠ q.counter sd.other → c.since < s.made.count sd.other

def Fact (s : Inode) (x : Thread) : Prop :=
  match x.place with
  | .alloc _ _ => s.iPipe = none
  | .nonblock _ | .bothR _ | .closeW _ | .closeFree => s.iPipe ≠ none
  | .bump sd c | .incr sd c => s.iPipe ≠ none ∧ Ready s sd c
  | .test sd c => Ready s sd c
  | .wait sd c cur cnt | .asleep sd c cur cnt | .redown sd c cur cnt | .again sd c cur cnt => Waits s sd c cur cnt
  | .pending sd c => c.nonblock = false ∧ (x.signal = false → c.since < s.made.count sd.other)
  | .decr _ c => c.nonblock = false
  | .err md c e => s.iPipe ≠ none ∧ Answer s md c (some e)
  | .up md c ret => Answer s md c ret
  | .closeDown md | .closeR md => md ≠ .neither
  | _ => True

structure Inv (s : Inode) : Prop where
  lock : s.holders = tally inside s.threads
  alone : s.holders ≤ 1
  pipe : ∀ p, s.iPipe = some p → ∃ q, s.heap[p]? = some q ∧ q.freed = false ∧ ∀ sd, q.count sd = s.opens sd
  noPipe : s.iPipe = none → ∀ sd, s.opens sd = 0
  kept : s.iPipe ≠ none → 0 < s.opens .rd + s.opens .wr + tally fresh s.threads
  leak : ∀ k q, s.heap[k]? = some q → q.freed = false → s.iPipe = some k
  since : ∀ (k : ℕ) (z : Thread) (md : Mode) (c : Call), s.threads[k]? = some z → call z = some (md,c) →
    c.since ≤ s.madeOther md
  fact : ∀ (k : ℕ) (z : Thread), s.threads[k]? = some z → Fact s z
  files : ∀ (k : ℕ) (z : Thread), s.threads[k]? = some z → ∀ md ∈ z.files, md ≠ .neither
  fault : s.fault = false
  returned : ∀ r ∈ s.returned, Returned r

theorem fresh_inside (h : fresh x = true) : inside x = true := by
  unfold fresh at h
  unfold inside
  split at h <;> simp_all

theorem others_congr (h : ∀ sd, t.opens sd = s.opens sd) (md : Mode) : t.others md = s.others md := by
  cases md with
  | one sd => exact h sd.other
  | both => rfl
  | neither => rfl

theorem madeOther_congr (h : t.made = s.made) (md : Mode) : t.madeOther md = s.madeOther md := by
  cases md <;> simp only [madeOther,h]

theorem Fact.congr (h : Fact s x) (hi : t.iPipe = s.iPipe) (hh : t.heap = s.heap) (hm : t.made = s.made)
    (ho : ∀ sd, t.opens sd = s.opens sd) : Fact t x := by
  have hans (md c ret) : Answer s md c ret → Answer t md c ret := by
    rw [Answer,Answer,others_congr ho,madeOther_congr hm]
    exact id
  have hready (sd c) : Ready s sd c → Ready t sd c := by
    rw [Ready,Ready,ho]
    exact id
  have hwaits (sd c cur cnt) : Waits s sd c cur cnt → Waits t sd c cur cnt := fun hw =>
    ⟨hw.blocking,hi ▸ hw.pipe,fun q hq hc => hm ▸ hw.met q (hh ▸ hq) hc⟩
  unfold Fact at h ⊢
  split at h
  all_goals first
    | exact hi ▸ h
    | exact ⟨hi ▸ h.1,hready _ _ h.2⟩
    | exact ⟨hi ▸ h.1,hans _ _ _ h.2⟩
    | exact hready _ _ h
    | exact hwaits _ _ _ _ h
    | exact hm ▸ h
    | exact hans _ _ _ h
    | exact h

/- A task outside the lock depends on the pipe only while it waits. -/
theorem Fact.outside (h : Fact s x) (hin : inside x = false)
    (hw : ∀ sd c cur cnt, x.place = .asleep sd c cur cnt ∨ x.place = .redown sd c cur cnt → Waits s sd c cur cnt →
      Waits t sd c cur cnt) : Fact t x := by
  unfold Fact at h ⊢
  revert h hin
  unfold inside
  cases hp : x.place with
  | asleep sd c cur cnt => exact fun h _ => hw sd c cur cnt (Or.inl hp) h
  | redown sd c cur cnt => exact fun h _ => hw sd c cur cnt (Or.inr hp) h
  | idle | down | closeDown => exact fun h _ => h
  | _ => exact fun _ hin => Bool.noConfusion hin

end Facts

section Moves

theorem opens_set (hx : s.threads[i]? = some x) (ht : t.threads = s.threads.set i y) (sd : Side) :
    t.opens sd + x.held sd = s.opens sd + y.held sd := by
  rw [opens,opens,ht]
  exact total_set hx y (Thread.held sd)

theorem held_le (hx : s.threads[i]? = some x) (sd : Side) : x.held sd ≤ s.opens sd := le_total (f := Thread.held sd) hx

theorem Inv.pipe_of_held (h : Inv s) (hx : s.threads[i]? = some x) (hd : 0 < x.held sd) : s.iPipe ≠ none := by
  intro hc
  have hle := held_le hx sd
  have hz := h.noPipe hc sd
  omega

theorem Inv.info (h : Inv s) (hp : s.iPipe ≠ none) :
    ∃ p q, s.info = some (p,q) ∧ s.iPipe = some p ∧ s.heap[p]? = some q ∧ q.freed = false ∧
      ∀ sd, q.count sd = s.opens sd := by
  obtain ⟨p,hp⟩ := Option.ne_none_iff_exists'.mp hp
  obtain ⟨q,hq,hfree,hcount⟩ := h.pipe p hp
  refine ⟨p,q,?_,hp,hq,hfree,hcount⟩
  simp [Inode.info,live,hp,hq,hfree]

theorem Inv.live (h : Inv s) (hp : s.iPipe = some p) : ∃ q, s.live p = some q ∧ s.heap[p]? = some q := by
  obtain ⟨q,hq,hfree,-⟩ := h.pipe p hp
  exact ⟨q,by simp [Inode.live,hq,hfree],hq⟩

theorem Inv.others (h : Inv s) (hx : s.threads[i]? = some x) (hin : inside x = true) (hk : k ≠ i)
    (hz : s.threads[k]? = some z) : inside z = false := by
  have hle : tally inside s.threads ≤ 1 := h.lock ▸ h.alone
  refine eq_false_of_ne_true fun hc => ?_
  have h1 := tally_set hx ⟨.idle,[],false⟩ inside
  have h2 : 0 < tally inside (s.threads.set i ⟨.idle,[],false⟩) :=
    tally_pos (i := k) (a := z) (by rw [List.getElem?_set_ne (Ne.symm hk),hz]) hc
  rw [hin] at h1
  have h3 : inside ⟨.idle,[],false⟩ = false := rfl
  simp only [h3,Bool.toNat_true,Bool.toNat_false] at h1
  omega

/- The pipe stays as it is and so do the opens. -/
theorem Inv.move (h : Inv s) (hx : s.threads[i]? = some x) (ht : t.threads = s.threads.set i y)
    (hip : t.iPipe = s.iPipe) (hheap : t.heap = s.heap) (hmade : t.made = s.made) (hfault : t.fault = s.fault)
    (hheld : ∀ sd, y.held sd = x.held sd) (hlock : t.holders + (inside x).toNat = s.holders + (inside y).toNat)
    (halone : t.holders ≤ 1)
    (hkept : s.iPipe ≠ none → fresh x = true → fresh y = true ∨ 0 < s.opens .rd + s.opens .wr)
    (hcall : ∀ md c, call y = some (md,c) → c.since ≤ s.madeOther md) (hy : Fact s y)
    (hfiles : ∀ md ∈ y.files, md ≠ .neither) (hret : ∀ r ∈ t.returned, Returned r) : Inv t := by
  have hopens (sd : Side) : t.opens sd = s.opens sd := by
    have h1 := opens_set hx ht sd
    have h2 := hheld sd
    omega
  have hin := tally_set hx y inside
  have hfr := tally_set hx y fresh
  refine ⟨?_,halone,fun p hp => ?_,fun hn sd => ?_,fun hn => ?_,fun k q hk hf => ?_,fun k z md c hz hc => ?_,
    fun k z hz => ?_,fun k z hz => ?_,hfault.trans h.fault,hret⟩
  · have := h.lock
    rw [ht]
    omega
  · obtain ⟨q,hq,hf,hcount⟩ := h.pipe p (hip ▸ hp)
    exact ⟨q,hheap ▸ hq,hf,fun sd => hopens sd ▸ hcount sd⟩
  · exact (hopens sd).trans (h.noPipe (hip ▸ hn) sd)
  · have hold := h.kept (hip ▸ hn)
    rw [hopens,hopens,ht]
    cases hfx : fresh x with
    | false =>
      rw [hfx] at hfr
      simp only [Bool.toNat_false] at hfr
      omega
    | true =>
      rcases hkept (hip ▸ hn) hfx with hfy | hpos
      · rw [hfx,hfy] at hfr
        omega
      · omega
  · exact hip ▸ h.leak k q (hheap ▸ hk) hf
  · rw [madeOther_congr hmade]
    rw [ht] at hz
    rcases set_cases hz with ⟨rfl,rfl⟩ | ⟨-,hz⟩
    · exact hcall md c hc
    · exact h.since k z md c hz hc
  · rw [ht] at hz
    rcases set_cases hz with ⟨rfl,rfl⟩ | ⟨-,hz⟩
    · exact hy.congr hip hheap hmade hopens
    · exact (h.fact k z hz).congr hip hheap hmade hopens
  · rw [ht] at hz
    rcases set_cases hz with ⟨rfl,rfl⟩ | ⟨-,hz⟩
    · exact hfiles
    · exact h.files k z hz

/- The task with the lock changes the counts or the counters. -/
theorem Inv.change (h : Inv s) (hx : s.threads[i]? = some x) (hin : inside x = true) (hiny : inside y = true)
    (hp : s.iPipe = some p) (hq : s.heap[p]? = some q) (hr : r.freed = false)
    (hcount : ∀ sd, r.count sd + x.held sd = q.count sd + y.held sd) (ht : t.threads = s.threads.set i y)
    (hip : t.iPipe = s.iPipe) (hheap : t.heap = s.heap.set p r)
    (hmade : ∀ sd, t.made.count sd = s.made.count sd ∧ r.counter sd = q.counter sd ∨
      t.made.count sd = s.made.count sd + 1)
    (hhold : t.holders = s.holders) (hfault : t.fault = s.fault)
    (hkept : fresh y = true ∨ 0 < y.held .rd + y.held .wr)
    (hcall : ∀ md c, call y = some (md,c) → c.since ≤ t.madeOther md) (hy : Fact t y)
    (hfiles : y.files = x.files) (hret : t.returned = s.returned) : Inv t := by
  have hplt : p < s.heap.length := (List.getElem?_eq_some_iff.mp hq).1
  have hself : t.heap[p]? = some r := by rw [hheap,List.getElem?_set_self hplt]
  have hmono (md : Mode) : s.madeOther md ≤ t.madeOther md := by
    cases md with
    | one sd => rcases hmade sd.other with h1 | h1 <;> simp only [madeOther] <;> omega
    | both => exact le_rfl
    | neither => exact le_rfl
  obtain ⟨q',hq',-,hcounts⟩ := h.pipe p hp
  obtain rfl : q = q' := Option.some.inj (hq.symm.trans hq')
  refine ⟨?_,hhold ▸ h.alone,fun p' hp' => ?_,fun hn => absurd (hip.symm.trans hn) (by simp [hp]),fun _ => ?_,
    fun k q' hk hf => ?_,fun k z md c hz hc => ?_,fun k z hz => ?_,fun k z hz => ?_,hfault.trans h.fault,
    hret ▸ h.returned⟩
  · have hset := tally_set hx y inside
    rw [hin,hiny] at hset
    rw [hhold,ht,h.lock]
    omega
  · obtain rfl : p = p' := Option.some.inj (hp.symm.trans (hip.symm.trans hp'))
    refine ⟨r,hself,hr,fun sd => ?_⟩
    have h1 := opens_set hx ht sd
    have h2 := hcount sd
    have h3 := hcounts sd
    omega
  · have h1 := held_le (ht ▸ List.getElem?_set_self (List.getElem?_eq_some_iff.mp hx).1) Side.rd (s := t)
    have h2 := held_le (ht ▸ List.getElem?_set_self (List.getElem?_eq_some_iff.mp hx).1) Side.wr (s := t)
    rcases hkept with hf | hpos
    · have h3 : 0 < tally fresh t.threads :=
        tally_pos (ht ▸ List.getElem?_set_self (List.getElem?_eq_some_iff.mp hx).1) hf
      omega
    · omega
  · rw [hip]
    by_cases hk' : k = p
    · exact hk' ▸ hp
    · rw [hheap,List.getElem?_set_ne (Ne.symm hk')] at hk
      exact h.leak k q' hk hf
  · rw [ht] at hz
    rcases set_cases hz with ⟨rfl,rfl⟩ | ⟨-,hz⟩
    · exact hcall md c hc
    · exact (h.since k z md c hz hc).trans (hmono md)
  · rw [ht] at hz
    rcases set_cases hz with ⟨rfl,rfl⟩ | ⟨hne,hz⟩
    · exact hy
    refine (h.fact k z hz).outside (h.others hx hin hne hz) fun sd c cur cnt hplace hw => ?_
    have hsince := h.since k z (.one sd) c hz (by rcases hplace with hpl | hpl <;> simp [call,hpl])
    refine ⟨hw.blocking,hip.trans hw.pipe,fun q' hq' hne' => ?_⟩
    obtain rfl : p = cnt := Option.some.inj (hp.symm.trans hw.pipe)
    obtain rfl : r = q' := Option.some.inj (hself.symm.trans hq')
    rcases hmade sd.other with ⟨hm,hc⟩ | hm
    · rw [hm]
      exact hw.met q hq (hc ▸ hne')
    · rw [hm]
      exact Nat.lt_succ_of_le hsince
  · rw [ht] at hz
    rcases set_cases hz with ⟨rfl,rfl⟩ | ⟨-,hz⟩
    · exact hfiles ▸ h.files k x hx
    · exact h.files k z hz

/- The pipe comes or goes while no open counts. -/
theorem Inv.turn (h : Inv s) (hx : s.threads[i]? = some x) (hin : inside x = true) (hiny : inside y = true)
    (hnone : ∀ sd, s.opens sd = 0) (hheld : ∀ sd, y.held sd = x.held sd) (ht : t.threads = s.threads.set i y)
    (hpipe : ∀ p, t.iPipe = some p → ∃ q, t.heap[p]? = some q ∧ q.freed = false ∧ ∀ sd, q.count sd = 0)
    (hkept : t.iPipe ≠ none → fresh y = true)
    (hleak : ∀ k q, t.heap[k]? = some q → q.freed = false → t.iPipe = some k)
    (hmade : t.made = s.made) (hhold : t.holders = s.holders) (hfault : t.fault = s.fault)
    (hcall : ∀ md c, call y = some (md,c) → c.since ≤ s.madeOther md) (hy : Fact t y)
    (hfiles : y.files = x.files) (hret : t.returned = s.returned) : Inv t := by
  have hopens (sd : Side) : t.opens sd = 0 := by
    have h1 := opens_set hx ht sd
    have h2 := hheld sd
    have h3 := hnone sd
    omega
  refine ⟨?_,hhold ▸ h.alone,fun p hp => ?_,fun _ => hopens,fun hn => ?_,hleak,fun k z md c hz hc => ?_,
    fun k z hz => ?_,fun k z hz => ?_,hfault.trans h.fault,hret ▸ h.returned⟩
  · have hset := tally_set hx y inside
    rw [hin,hiny] at hset
    rw [hhold,ht,h.lock]
    omega
  · obtain ⟨q,hq,hf,hc⟩ := hpipe p hp
    refine ⟨q,hq,hf,fun sd => ?_⟩
    rw [hc,hopens]
    rfl
  · have hpos : 0 < tally fresh t.threads :=
      tally_pos (ht ▸ List.getElem?_set_self (List.getElem?_eq_some_iff.mp hx).1) (hkept hn)
    omega
  · rw [madeOther_congr hmade]
    rw [ht] at hz
    rcases set_cases hz with ⟨rfl,rfl⟩ | ⟨-,hz⟩
    · exact hcall md c hc
    · exact h.since k z md c hz hc
  · rw [ht] at hz
    rcases set_cases hz with ⟨rfl,rfl⟩ | ⟨hne,hz⟩
    · exact hy
    refine (h.fact k z hz).outside (h.others hx hin hne hz) fun sd c cur cnt hplace hw => ?_
    -- a task that waits counts
    have hle := held_le hz sd
    have hpos : 0 < z.held sd := by rcases hplace with hpl | hpl <;> simp [Thread.held,Place.held,hpl]
    have := hnone sd
    omega
  · rw [ht] at hz
    rcases set_cases hz with ⟨rfl,rfl⟩ | ⟨-,hz⟩
    · exact hfiles ▸ h.files k x hx
    · exact h.files k z hz

end Moves

section Steps

variable {cur : UInt32} {cnt : ℕ} {e : Errno} {ret : Option Errno}

theorem held_place {pl pl' : Place} (hp : x.place = pl) (h : pl'.held sd = pl.held sd) :
    Thread.held sd { x with place := pl' } = x.held sd := by
  rw [Thread.held,Thread.held,hp,h]

/- The lock is taken while no task has it. -/
theorem inv_down {pl : Place} (h : Inv s) (hx : s.threads[i]? = some x) (hfree : s.holders = 0)
    (hin : inside x = false) (hiny : inside { x with place := pl } = true)
    (hheld : ∀ sd, pl.held sd = x.place.held sd) (hcall : call { x with place := pl } = call x)
    (hy : Fact s { x with place := pl }) :
    Inv ({ s with holders := s.holders + 1 }.goto i x pl) := by
  refine h.move hx rfl rfl rfl rfl rfl (fun sd => held_place rfl (hheld sd)) ?_ ?_ (fun _ hf => ?_)
    (fun md c hc => h.since i x md c hx (hcall ▸ hc)) hy (h.files i x hx) h.returned
  · simp [goto,hin,hiny]
  · simp [goto,hfree]
  · exact absurd (fresh_inside hf) (by simp [hin])

/- A step in the lock that changes nothing else. -/
theorem inv_inside {pl : Place} (h : Inv s) (hx : s.threads[i]? = some x) (hin : inside x = true)
    (hiny : inside { x with place := pl } = true) (hheld : ∀ sd, pl.held sd = x.place.held sd)
    (hkept : s.iPipe ≠ none → fresh x = true → fresh { x with place := pl } = true ∨ 0 < s.opens .rd + s.opens .wr)
    (hcall : ∀ md c, call { x with place := pl } = some (md,c) → call x = some (md,c))
    (hy : Fact s { x with place := pl }) : Inv (s.goto i x pl) := by
  refine h.move hx rfl rfl rfl rfl rfl (fun sd => held_place rfl (hheld sd)) ?_ h.alone hkept
    (fun md c hc => h.since i x md c hx (hcall md c hc)) hy (h.files i x hx) h.returned
  simp [goto,hin,hiny]

theorem enter_inside : inside { x with place := enter md c } = true := by
  rcases md with (_ | _) | _ | _ <;> rfl

theorem enter_held (sd : Side) : (enter md c).held sd = 0 := by rcases md with (_ | _) | _ | _ <;> rfl

theorem enter_fresh : fresh { x with place := enter md c } = true := by rcases md with (_ | _) | _ | _ <;> rfl

theorem enter_call {md' : Mode} {c' : Call} (h : call { x with place := enter md c } = some (md',c')) :
    some (md,c) = some (md',c') := by
  rcases md with (_ | _) | _ | _
  · exact h
  · exact h
  · cases h
  · cases h

theorem fails (s : Inode) (md : Mode) (c : Call) (h : e ≠ .enxio) (hm : e ≠ .enomem)
    (hmd : md = .one .wr → c.nonblock = false) : Answer s md c (some e) := by
  refine ⟨fun _ _ _ hc => (by cases hc),fun _ => ⟨fun hc => absurd (Option.some.inj hc) h,fun hc => ?_⟩,
    fun hc => absurd (Option.some.inj hc) hm,fun _ => by simp⟩
  exact absurd hc.2.1 (by simp [hmd hc.1])

theorem enter_fact (hp : s.iPipe ≠ none) : Fact s { x with place := enter md c } := by
  rcases md with (_ | _) | _ | _
  · exact ⟨hp,fun hc => by cases hc⟩
  · exact hp
  · exact hp
  · exact ⟨hp,fails s .neither c (by decide) (by decide) fun hc => by cases hc⟩

theorem inv_check (h : Inv s) (hx : s.threads[i]? = some x) (hp : x.place = .check md c) :
    Inv (s.goto i x (if s.iPipe = none then .alloc md c else enter md c)) := by
  have hin : inside x = true := by simp [inside,hp]
  have hcall : call x = some (md,c) := by simp [call,hp]
  have hf : fresh x = false := by simp [fresh,hp]
  split
  next hn =>
    exact inv_inside h hx hin rfl (fun sd => by rw [hp]; rfl) (fun _ hc => absurd (hf.symm.trans hc) (by decide))
      (fun _ _ hc => hcall.trans hc) hn
  next hn =>
    exact inv_inside h hx hin enter_inside (fun sd => by rw [hp,enter_held]; rfl) (fun _ _ => Or.inl enter_fresh)
      (fun _ _ hc => hcall.trans (enter_call hc)) (enter_fact hn)

theorem inv_alloc (h : Inv s) (hx : s.threads[i]? = some x) (hp : x.place = .alloc md c) :
    Inv (if c.mem then s.fifoInfoNew.goto i x (enter md c) else s.goto i x (.up md c (some .enomem))) := by
  have hin : inside x = true := by simp [inside,hp]
  have hcall : call x = some (md,c) := by simp [call,hp]
  have hf : fresh x = false := by simp [fresh,hp]
  have hnone : s.iPipe = none := by
    have hfact := h.fact i x hx
    simpa only [Fact,hp] using hfact
  split
  next =>
    refine h.turn hx hin enter_inside (h.noPipe hnone) (fun sd => held_place hp (enter_held sd)) rfl (fun p hc => ?_)
      (fun _ => enter_fresh) (fun k q hk hfree => ?_) rfl rfl rfl
      (fun md' c' hc => h.since i x md' c' hx (hcall.trans (enter_call hc))) (enter_fact (by simp [goto,fifoInfoNew]))
      rfl rfl
    · obtain rfl := Option.some.inj hc
      exact ⟨⟨0,0,1,1,false⟩,List.getElem?_concat_length ..,rfl,fun sd => by cases sd <;> rfl⟩
    · simp only [goto,fifoInfoNew] at hk ⊢
      by_cases hlt : k < s.heap.length
      · rw [List.getElem?_append_left hlt] at hk
        exact absurd (hnone.symm.trans (h.leak k q hk hfree)) (by simp)
      · have hle : k < (s.heap ++ [(⟨0,0,1,1,false⟩ : Info)]).length := (List.getElem?_eq_some_iff.mp hk).1
        rw [List.length_append,List.length_singleton] at hle
        exact congrArg some (by omega)
  next hmem =>
    refine inv_inside h hx hin rfl (fun sd => by rw [hp]; rfl) (fun _ hc => absurd (hf.symm.trans hc) (by decide))
      (fun _ _ hc => by cases hc) ?_
    exact ⟨fun _ _ _ hc => (by cases hc),fun hc => absurd rfl hc,fun _ => (by simpa using hmem),fun _ => by simp⟩

theorem inv_nonblock (h : Inv s) (hx : s.threads[i]? = some x) (hp : x.place = .nonblock c)
    (hcount : ∀ sd, q.count sd = s.opens sd) :
    Inv (s.goto i x (if c.nonblock ∧ q.readers = 0 then .err (.one .wr) c .enxio else .bump .wr c)) := by
  have hin : inside x = true := by simp [inside,hp]
  have hpipe : s.iPipe ≠ none := by
    have hfact := h.fact i x hx
    simpa only [Fact,hp] using hfact
  have hr : q.readers = s.opens .rd := hcount .rd
  split
  next hn =>
    refine inv_inside h hx hin rfl (fun sd => by rw [hp]; rfl) (fun _ _ => Or.inl rfl) (fun _ _ hc => by cases hc) ?_
    refine ⟨hpipe,fun _ _ _ hc => (by cases hc),fun _ => ⟨fun _ => ⟨rfl,hn.1,?_⟩,fun _ => rfl⟩,fun hc => (by cases hc),
      fun hc => by cases hc⟩
    exact Int.ofNat_eq_zero.mp (hr.symm.trans hn.2)
  next hn =>
    refine inv_inside h hx hin rfl (fun sd => by rw [hp]; rfl) (fun _ _ => Or.inl rfl)
      (fun _ _ hc => by rw [call,hp]; exact hc) ⟨hpipe,fun _ hnb hz => hn ⟨hnb,?_⟩⟩
    rw [hr,hz]
    rfl

theorem inv_bump (h : Inv s) (hx : s.threads[i]? = some x) (hp : x.place = .bump sd c)
    (hip : s.iPipe = some p) (hq : s.heap[p]? = some q) (hf : q.freed = false) :
    Inv ({ s.store p (q.bump sd) with made := sd :: s.made }.goto i x (.incr sd c)) := by
  have hin : inside x = true := by simp [inside,hp]
  have hfact : s.iPipe ≠ none ∧ Ready s sd c := by
    have hfact := h.fact i x hx
    simpa only [Fact,hp] using hfact
  have hheld (sd' : Side) : Thread.held sd' { x with place := .incr sd c } = x.held sd' := held_place hp rfl
  have hlt : p < s.heap.length := (List.getElem?_eq_some_iff.mp hq).1
  refine h.change hx hin rfl hip hq (by simpa using hf) (fun sd' => by rw [hheld]; simp) rfl rfl rfl (fun sd' => ?_)
    rfl rfl (Or.inl rfl) (fun md' c' hc => ?_) ⟨hfact.1,fun hsd hnb hz => hfact.2 hsd hnb ?_⟩ rfl rfl
  · by_cases hs : sd = sd'
    · subst hs
      exact Or.inr (by simp [goto])
    · exact Or.inl ⟨by simp [goto,hs],Info.counter_bump hs⟩
  · have hle := h.since i x md' c' hx (by rw [call,hp]; exact hc)
    refine hle.trans ?_
    cases md' with
    | one sd' =>
      simp only [madeOther,goto]
      exact List.count_le_count_cons
    | both => exact le_rfl
    | neither => exact le_rfl
  · have hset := opens_set (t := { s.store p (q.bump sd) with made := sd :: s.made }.goto i x (.incr sd c)) hx rfl .rd
    rw [hheld] at hset
    omega

theorem inv_incr (h : Inv s) (hx : s.threads[i]? = some x) (hp : x.place = .incr sd c)
    (hip : s.iPipe = some p) (hq : s.heap[p]? = some q) (hf : q.freed = false) :
    Inv ((s.store p (q.add sd 1)).goto i x (.test sd c)) := by
  have hin : inside x = true := by simp [inside,hp]
  have hfact : s.iPipe ≠ none ∧ Ready s sd c := by
    have hfact := h.fact i x hx
    simpa only [Fact,hp] using hfact
  have hheld (sd' : Side) :
      Thread.held sd' { x with place := .test sd c } = x.held sd' + if sd = sd' then 1 else 0 := by
    simp only [Thread.held,Place.held,hp,Nat.add_zero]
  refine h.change hx hin rfl hip hq (by simpa using hf) (fun sd' => ?_) rfl rfl rfl (fun sd' => Or.inl ⟨rfl,by simp⟩)
    rfl rfl (Or.inr ?_) (fun md' c' hc => h.since i x md' c' hx (by rw [call,hp]; exact hc))
    (fun hsd hnb hz => hfact.2 hsd hnb ?_) rfl rfl
  · rw [hheld,Info.count_add]
    push_cast
    ring
  · cases sd <;> simp [Thread.held,Place.held]
  · subst hsd
    have hset := opens_set (t := (s.store p (q.add .wr 1)).goto i x (.test .wr c)) hx rfl .rd
    rw [hheld] at hset
    simp at hset
    omega

theorem inv_test (h : Inv s) (hx : s.threads[i]? = some x) (hp : x.place = .test sd c)
    (hip : s.iPipe = some p) (hq : s.heap[p]? = some q) (hcount : ∀ sd, q.count sd = s.opens sd) :
    Inv (s.goto i x (partner sd c p q)) := by
  have hin : inside x = true := by simp [inside,hp]
  have hfr : fresh x = false := by simp [fresh,hp]
  have hready : Ready s sd c := by
    have hfact := h.fact i x hx
    simpa only [Fact,hp] using hfact
  have hkept {y : Thread} (_ : s.iPipe ≠ none) (hc : fresh x = true) :
      fresh y = true ∨ 0 < s.opens .rd + s.opens .wr := absurd (hfr.symm.trans hc) (by decide)
  have hup (sd' : Side) : Place.held sd' (.up (.one sd) c none) = x.place.held sd' := by
    rw [hp]
    cases sd <;> cases sd' <;> rfl
  unfold partner
  split
  next hn =>
    have hpos : s.opens sd.other ≠ 0 := by
      intro hc
      rw [hcount,hc] at hn
      exact hn rfl
    refine inv_inside h hx hin rfl hup hkept (fun _ _ hc => by cases hc) ?_
    refine ⟨fun sd' hsd _ _ => Or.inr ?_,fun _ => ⟨fun hc => (by cases hc),fun hc => absurd hc.2.2 hpos⟩,
      fun hc => (by cases hc),fun hc => by cases hc⟩
    exact Nat.pos_of_ne_zero hpos
  next hn =>
    have hzero : s.opens sd.other = 0 := by
      rw [not_not,hcount] at hn
      exact_mod_cast hn
    split
    next hnb =>
      obtain ⟨rfl,hnb⟩ := hnb
      refine inv_inside h hx hin rfl hup hkept (fun _ _ hc => by cases hc) ?_
      refine ⟨fun sd' hsd hc _ => absurd (hnb.symm.trans hc) (by decide),
        fun _ => ⟨fun hc => (by cases hc),fun hc => (by cases hc.1)⟩,fun hc => (by cases hc),fun hc => by cases hc⟩
    next hnb =>
      refine inv_inside h hx hin rfl (fun sd' => by rw [hp]; rfl) hkept (fun _ _ hc => by rw [call,hp]; exact hc)
        ⟨?_,hip,fun q' hq' hc => ?_⟩
      · refine eq_false_of_ne_true fun hc => ?_
        cases sd with
        | rd => exact hnb ⟨rfl,hc⟩
        | wr => exact hready rfl hc hzero
      · obtain rfl := Option.some.inj (hq.symm.trans hq')
        exact absurd rfl hc

theorem inv_wait (h : Inv s) (hx : s.threads[i]? = some x) (hp : x.place = .wait sd c cur cnt) :
    Inv (s.kernelUp.goto i x (.asleep sd c cur cnt)) := by
  have hin : inside x = true := by simp [inside,hp]
  have hfr : fresh x = false := by simp [fresh,hp]
  have hfact : Waits s sd c cur cnt := by
    have hfact := h.fact i x hx
    simpa only [Fact,hp] using hfact
  have hpos : 0 < s.holders := h.lock ▸ tally_pos hx hin
  have halone := h.alone
  refine h.move hx rfl rfl rfl rfl rfl (fun sd' => held_place hp rfl) ?_ ?_
    (fun _ hc => absurd (hfr.symm.trans hc) (by decide))
    (fun md' c' hc => h.since i x md' c' hx (by rw [call,hp]; exact hc)) hfact (h.files i x hx) h.returned
  · rw [hin]
    change s.holders - 1 + 1 = s.holders + 0
    omega
  · simp only [goto,kernelUp]
    omega

theorem inv_asleep (h : Inv s) (hx : s.threads[i]? = some x) (hp : x.place = .asleep sd c cur cnt) :
    Inv (s.goto i x (.redown sd c cur cnt)) := by
  have hfact : Waits s sd c cur cnt := by
    have hfact := h.fact i x hx
    simpa only [Fact,hp] using hfact
  refine h.move hx rfl rfl rfl rfl rfl (fun sd' => held_place hp rfl) ?_ h.alone (fun _ hc => ?_)
    (fun md' c' hc => h.since i x md' c' hx (by rw [call,hp]; exact hc)) hfact (h.files i x hx) h.returned
  · simp [goto,inside,hp]
  · simp [fresh,hp] at hc

theorem inv_again (h : Inv s) (hx : s.threads[i]? = some x) (hp : x.place = .again sd c cur cnt)
    (hq : s.heap[cnt]? = some q) :
    Inv (s.goto i x (if cur = q.counter sd.other then .wait sd c cur cnt else .pending sd c)) := by
  have hin : inside x = true := by simp [inside,hp]
  have hfr : fresh x = false := by simp [fresh,hp]
  have hfact : Waits s sd c cur cnt := by
    have hfact := h.fact i x hx
    simpa only [Fact,hp] using hfact
  have hkept {y : Thread} (_ : s.iPipe ≠ none) (hc : fresh x = true) :
      fresh y = true ∨ 0 < s.opens .rd + s.opens .wr := absurd (hfr.symm.trans hc) (by decide)
  split
  next =>
    exact inv_inside h hx hin rfl (fun sd' => by rw [hp]; rfl) hkept (fun _ _ hc => by rw [call,hp]; exact hc) hfact
  next hne =>
    exact inv_inside h hx hin rfl (fun sd' => by rw [hp]; rfl) hkept (fun _ _ hc => by cases hc)
      ⟨hfact.blocking,fun _ => hfact.met q hq hne⟩

/- A signal ends the wait. -/
theorem inv_signalled (h : Inv s) (hx : s.threads[i]? = some x) (hp : x.place = .again sd c cur cnt)
    (hs : x.signal = true) : Inv (s.goto i x (.pending sd c)) := by
  have hin : inside x = true := by simp [inside,hp]
  have hfact : Waits s sd c cur cnt := by
    have hfact := h.fact i x hx
    simpa only [Fact,hp] using hfact
  refine inv_inside h hx hin rfl (fun sd' => by rw [hp]; rfl) (fun _ hc => ?_) (fun _ _ hc => by cases hc)
    ⟨hfact.blocking,fun hc => absurd (hs.symm.trans hc) (by decide)⟩
  simp [fresh,hp] at hc

theorem inv_pending (h : Inv s) (hx : s.threads[i]? = some x) (hp : x.place = .pending sd c) :
    Inv (s.goto i x (if x.signal then .decr sd c else .up (.one sd) c none)) := by
  have hin : inside x = true := by simp [inside,hp]
  have hfr : fresh x = false := by simp [fresh,hp]
  obtain ⟨hblock,hmet⟩ : c.nonblock = false ∧ (x.signal = false → c.since < s.made.count sd.other) := by
    have hfact := h.fact i x hx
    simpa only [Fact,hp] using hfact
  have hkept {y : Thread} (_ : s.iPipe ≠ none) (hc : fresh x = true) :
      fresh y = true ∨ 0 < s.opens .rd + s.opens .wr := absurd (hfr.symm.trans hc) (by decide)
  split
  next => exact inv_inside h hx hin rfl (fun sd' => by rw [hp]; rfl) hkept (fun _ _ hc => by cases hc) hblock
  next hs =>
    have hup (sd' : Side) : Place.held sd' (.up (.one sd) c none) = x.place.held sd' := by
      rw [hp]
      cases sd <;> cases sd' <;> rfl
    refine inv_inside h hx hin rfl hup hkept (fun _ _ hc => by cases hc) ?_
    refine ⟨fun sd' hsd _ _ => Or.inl ?_,fun _ => ⟨fun hc => (by cases hc),fun hc => ?_⟩,fun hc => (by cases hc),
      fun hc => by cases hc⟩
    · exact hmet (by simpa using hs)
    · exact absurd (hblock.symm.trans hc.2.1) (by decide)

theorem inv_decr (h : Inv s) (hx : s.threads[i]? = some x) (hp : x.place = .decr sd c)
    (hip : s.iPipe = some p) (hq : s.heap[p]? = some q) (hf : q.freed = false) :
    Inv ((s.store p (q.add sd (-1))).goto i x (.err (.one sd) c .erestartsys)) := by
  have hin : inside x = true := by simp [inside,hp]
  have hblock : c.nonblock = false := by
    have hfact := h.fact i x hx
    simpa only [Fact,hp] using hfact
  have hheld (sd' : Side) :
      x.held sd' = Thread.held sd' { x with place := .err (.one sd) c .erestartsys } + if sd = sd' then 1 else 0 := by
    simp only [Thread.held,Place.held,hp,Nat.add_zero]
  refine h.change hx hin rfl hip hq (by simpa using hf) (fun sd' => ?_) rfl rfl rfl (fun sd' => Or.inl ⟨rfl,by simp⟩)
    rfl rfl (Or.inl rfl) (fun md' c' hc => by cases hc) ⟨?_,fails _ (.one sd) c (by decide) (by decide) fun _ => hblock⟩
    rfl rfl
  · rw [hheld,Info.count_add]
    push_cast
    split <;> ring
  · simp [goto,store,hip]

/- One of the two counts in an open for reading and writing. -/
theorem inv_both {pl : Place} (h : Inv s) (hx : s.threads[i]? = some x) (hin : inside x = true)
    (hin' : inside { x with place := pl } = true) (hip : s.iPipe = some p) (hq : s.heap[p]? = some q)
    (hf : q.freed = false) (hheld : ∀ sd', pl.held sd' = x.place.held sd' + if sd = sd' then 1 else 0)
    (hcall : call { x with place := pl } = none) (hy : ∀ t, Fact t { x with place := pl }) :
    Inv ((s.store p (q.add sd 1)).goto i x pl) := by
  have hsum (sd' : Side) : Thread.held sd' { x with place := pl } = x.held sd' + if sd = sd' then 1 else 0 := by
    simp only [Thread.held,hheld]
    omega
  refine h.change hx hin hin' hip hq (by simpa using hf) (fun sd' => ?_) rfl rfl rfl (fun sd' => Or.inl ⟨rfl,by simp⟩)
    rfl rfl (Or.inr ?_) (fun md' c' hc => ?_) (hy _) rfl rfl
  · rw [hsum,Info.count_add]
    push_cast
    ring
  · have hself := hsum sd
    rw [if_pos rfl] at hself
    cases sd <;> omega
  · rw [hcall] at hc
    cases hc

theorem inv_bothBump {pl : Place} (h : Inv s) (hx : s.threads[i]? = some x) (hin : inside x = true)
    (hin' : inside { x with place := pl } = true) (hip : s.iPipe = some p) (hq : s.heap[p]? = some q)
    (hf : q.freed = false) (hheld : ∀ sd', pl.held sd' = x.place.held sd') (hpos : 0 < pl.held .rd)
    (hcall : call { x with place := pl } = none) (hy : ∀ t, Fact t { x with place := pl }) :
    Inv ({ s.store p (q.bump sd) with made := sd :: s.made }.goto i x pl) := by
  refine h.change hx hin hin' hip hq (by simpa using hf) (fun sd' => ?_) rfl rfl rfl (fun sd' => ?_) rfl rfl
    (Or.inr ?_) (fun md' c' hc => ?_) (hy _) rfl rfl
  · rw [held_place rfl (hheld sd')]
    simp
  · by_cases hs : sd = sd'
    · subst hs
      exact Or.inr (by simp [goto])
    · exact Or.inl ⟨by simp [goto,hs],Info.counter_bump hs⟩
  · simp only [Thread.held]
    omega
  · rw [hcall] at hc
    cases hc

/- The last one frees the pipe. -/
theorem inv_free {pl : Place} (h : Inv s) (hx : s.threads[i]? = some x) (hin : inside x = true)
    (hiny : inside { x with place := pl } = true) (hip : s.iPipe = some p) (hq : s.heap[p]? = some q)
    (hcount : ∀ sd, q.count sd = s.opens sd) (hheld : ∀ sd, pl.held sd = x.place.held sd)
    (hcall : call { x with place := pl } = none) (hy : ∀ t, (∀ sd, t.opens sd = s.opens sd) → t.made = s.made →
      Fact t { x with place := pl }) :
    Inv ((if q.readers = 0 ∧ q.writers = 0 then s.kfree p q else s).goto i x pl) := by
  have hr : q.readers = s.opens .rd := hcount .rd
  have hw : q.writers = s.opens .wr := hcount .wr
  have hhelds (sd : Side) : Thread.held sd { x with place := pl } = x.held sd := held_place rfl (hheld sd)
  have hnocall (md : Mode) (c : Call) (hc : call { x with place := pl } = some (md,c)) : c.since ≤ s.madeOther md := by
    rw [hcall] at hc
    cases hc
  split
  next hz =>
    have hnone (sd : Side) : s.opens sd = 0 := by
      cases sd with
      | rd => exact Int.ofNat_eq_zero.mp (hr.symm.trans hz.1)
      | wr => exact Int.ofNat_eq_zero.mp (hw.symm.trans hz.2)
    refine h.turn hx hin hiny hnone hhelds rfl (fun p' hc => by cases hc) (fun hc => absurd rfl hc)
      (fun k q' hk hf => ?_) rfl rfl rfl hnocall (hy _ (fun sd => ?_) rfl) rfl rfl
    · simp only [goto,kfree] at hk ⊢
      by_cases hkp : k = p
      · subst hkp
        rw [List.getElem?_set_self (List.getElem?_eq_some_iff.mp hq).1] at hk
        rw [← Option.some.inj hk] at hf
        cases hf
      · rw [List.getElem?_set_ne (Ne.symm hkp)] at hk
        exact absurd (Option.some.inj (hip.symm.trans (h.leak k q' hk hf))).symm hkp
    · have hset := opens_set (t := (s.kfree p q).goto i x pl) hx rfl sd
      rw [hhelds] at hset
      omega
  next hz =>
    refine inv_inside h hx hin hiny hheld (fun _ _ => Or.inr ?_) (fun md c hc => ?_) (hy s (fun _ => rfl) rfl)
    · rw [hr,hw] at hz
      omega
    · rw [hcall] at hc
      cases hc

theorem inv_up (h : Inv s) (hx : s.threads[i]? = some x) (hp : x.place = .up md c ret) :
    Inv (s.returns i x md c ret) := by
  have hin : inside x = true := by simp [inside,hp]
  have hfr : fresh x = false := by simp [fresh,hp]
  have hanswer : Answer s md c ret := by
    have hfact := h.fact i x hx
    simpa only [Fact,hp] using hfact
  have hpos : 0 < s.holders := h.lock ▸ tally_pos hx hin
  have halone := h.alone
  refine h.move (y := ⟨.idle,if ret = none then md :: x.files else x.files,false⟩) hx rfl rfl rfl rfl rfl (fun sd => ?_)
    ?_ ?_ (fun _ hc => absurd (hfr.symm.trans hc) (by decide)) (fun _ _ hc => by cases hc) trivial (fun md' hm => ?_)
    fun r hr => ?_
  · cases ret with
    | none =>
      have hcons : (md :: x.files).countP (·.has sd) = x.files.countP (·.has sd) + (md.has sd).toNat := by
        rw [List.countP_cons]
        cases md.has sd <;> rfl
      rw [Thread.held,Thread.held,hp]
      exact hcons
    | some e => simp [Thread.held,Place.held,hp]
  · rw [hin]
    change s.holders - 1 + 1 = s.holders + 0
    omega
  · simp only [returns]
    omega
  · have hold := h.files i x hx md'
    cases ret with
    | none =>
      rcases List.mem_cons.mp hm with rfl | hm
      · exact fun hc => hanswer.einval hc rfl
      · exact hold hm
    | some e => exact hold hm
  · rcases List.mem_append.mp hr with hr | hr
    · exact h.returned r hr
    · exact List.mem_singleton.mp hr ▸ hanswer

/- A close takes its file out of one of the counts. -/
theorem inv_uncount {pl : Place} (h : Inv s) (hx : s.threads[i]? = some x) (hin : inside x = true)
    (hin' : inside { x with place := pl } = true) (hip : s.iPipe = some p) (hq : s.heap[p]? = some q)
    (hf : q.freed = false)
    (hheld : ∀ sd', x.place.held sd' = pl.held sd' + if sd = sd' then (md.has sd).toNat else 0)
    (hfresh : fresh { x with place := pl } = true) (hcall : call { x with place := pl } = none)
    (hy : ∀ t, t.iPipe = s.iPipe → Fact t { x with place := pl }) :
    Inv ((s.store p (q.add sd (if md.has sd then -1 else 0))).goto i x pl) := by
  refine h.change hx hin hin' hip hq (by simpa using hf) (fun sd' => ?_) rfl rfl rfl (fun sd' => Or.inl ⟨rfl,by simp⟩)
    rfl rfl (Or.inl hfresh) (fun md' c' hc => ?_) (hy _ rfl) rfl rfl
  · simp only [Thread.held,hheld,Info.count_add]
    push_cast
    by_cases hs : sd = sd'
    · cases md.has sd <;> simp [hs]; ring
    · simp [hs]
  · rw [hcall] at hc
    cases hc

theorem inv_closeUp (h : Inv s) (hx : s.threads[i]? = some x) (hp : x.place = .closeUp) :
    Inv (s.kernelUp.goto i x .idle) := by
  have hin : inside x = true := by simp [inside,hp]
  have hfr : fresh x = false := by simp [fresh,hp]
  have hpos : 0 < s.holders := h.lock ▸ tally_pos hx hin
  have halone := h.alone
  refine h.move hx rfl rfl rfl rfl rfl (fun sd => held_place hp rfl) ?_ ?_
    (fun _ hc => absurd (hfr.symm.trans hc) (by decide)) (fun _ _ hc => by cases hc) trivial (h.files i x hx) h.returned
  · rw [hin]
    change s.holders - 1 + 1 = s.holders + 0
    omega
  · simp only [goto,kernelUp]
    omega

theorem inv_pipeStep (h : Inv s) (hx : s.threads[i]? = some x) (hip : s.iPipe = some p) (hq : s.heap[p]? = some q)
    (hf : q.freed = false) (hcount : ∀ sd, q.count sd = s.opens sd) : Inv (s.pipeStep i x p q) := by
  have hfact := h.fact i x hx
  have hpipe : s.iPipe ≠ none := by simp [hip]
  unfold pipeStep
  split
  case h_1 hp => exact inv_nonblock h hx hp hcount
  case h_2 hp => exact inv_bump h hx hp hip hq hf
  case h_3 hp => exact inv_incr h hx hp hip hq hf
  case h_4 hp => exact inv_test h hx hp hip hq hcount
  case h_5 hp => exact inv_wait h hx hp
  case h_6 hp => exact inv_asleep h hx hp
  case h_7 hp => exact inv_decr h hx hp hip hq hf
  case h_8 hp =>
    exact inv_both h hx (by simp [inside,hp]) rfl hip hq hf (fun sd => by cases sd <;> simp [Place.held,hp]) rfl
      fun _ => trivial
  case h_9 hp =>
    exact inv_both h hx (by simp [inside,hp]) rfl hip hq hf (fun sd => by cases sd <;> simp [Place.held,hp]) rfl
      fun _ => trivial
  case h_10 hp =>
    exact inv_bothBump h hx (by simp [inside,hp]) rfl hip hq hf (fun sd => by simp [Place.held,hp]) Nat.one_pos rfl
      fun _ => trivial
  case h_11 hp =>
    refine inv_bothBump h hx (by simp [inside,hp]) rfl hip hq hf (fun sd => by simp [Place.held,hp,Mode.has])
      (by simp [Place.held,Mode.has]) rfl fun t => ?_
    exact ⟨fun _ hc => (by cases hc),fun _ => ⟨fun hc => (by cases hc),fun hc => (by cases hc.1)⟩,
      fun hc => (by cases hc),fun hc => by cases hc⟩
  case h_12 md c e hp =>
    have hanswer : Answer s md c (some e) := by
      rw [Fact,hp] at hfact
      exact hfact.2
    refine inv_free h hx (by simp [inside,hp]) rfl hip hq hcount (fun sd => by rw [hp]; rfl) rfl fun t ht hm => ?_
    rw [Answer,← others_congr ht,← madeOther_congr hm] at hanswer
    exact hanswer
  case h_13 hp =>
    refine inv_uncount h hx (by simp [inside,hp]) rfl hip hq hf (fun sd => ?_) rfl rfl
      fun t ht hc => hpipe (ht.symm.trans hc)
    cases sd <;> simp [Place.held,hp]
  case h_14 hp =>
    refine inv_uncount h hx (by simp [inside,hp]) rfl hip hq hf (fun sd => ?_) rfl rfl
      fun t ht hc => hpipe (ht.symm.trans hc)
    cases sd <;> simp [Place.held,hp]
  case h_15 hp =>
    exact inv_free h hx (by simp [inside,hp]) rfl hip hq hcount (fun sd => by rw [hp]; rfl) rfl fun _ _ _ => trivial
  case h_16 => exact h

end Steps

section Runs

/- The task takes the inode lock. -/
def takesLock (x : Thread) : Bool :=
  match x.place with
  | .down _ _ | .redown _ _ _ _ | .closeDown _ => true
  | _ => false

/- The lock is not taken while a task has it. -/
def Apart (s : Inode) : Act → Prop
  | .task i => s.threads[i]?.any takesLock = true → s.holders = 0
  | _ => True

instance Apart.decidable (s : Inode) : ∀ a, Decidable (Apart s a)
  | .task i => inferInstanceAs (Decidable (s.threads[i]?.any takesLock = true → s.holders = 0))
  | .openSync _ _ _ _ | .closeSync _ _ | .signal _ => inferInstanceAs (Decidable True)

theorem kernelDown_eq {pl : Place} (ht : s.kernelDown shared i x pl = some t) :
    (shared = false → s.holders = 0) ∧ t = { s with holders := s.holders + 1 }.goto i x pl := by
  unfold kernelDown at ht
  split at ht
  next => cases ht
  next hc => exact ⟨fun hs => by_contra fun hn => hc ⟨hs,hn⟩,(Option.some.inj ht).symm⟩

theorem inv_pipe (h : Inv s) (hx : s.threads[i]? = some x) (hpipe : s.iPipe ≠ none)
    (ht : (match s.info with
      | none => some (s.oops.goto i x .idle)
      | some (p,q) => some (s.pipeStep i x p q)) = some t) : Inv t := by
  obtain ⟨p,q,hinfo,hip,hq,hfree,hcount⟩ := h.info hpipe
  rw [hinfo] at ht
  exact Option.some.inj ht ▸ inv_pipeStep h hx hip hq hfree hcount

theorem inv_task (h : Inv s) (hx : s.threads[i]? = some x)
    (ha : shared = true → takesLock x = true → s.holders = 0) (ht : s.taskStep shared i x = some t) : Inv t := by
  have hfact := h.fact i x hx
  have hfree {pl : Place} (hl : takesLock x = true) (ht : s.kernelDown shared i x pl = some t) :
      s.holders = 0 ∧ t = { s with holders := s.holders + 1 }.goto i x pl := by
    obtain ⟨hexcl,rfl⟩ := kernelDown_eq ht
    refine ⟨?_,rfl⟩
    cases hs : shared with
    | false => exact hexcl hs
    | true => exact ha hs hl
  have hcount (hd : 0 < x.place.held .rd ∨ 0 < x.place.held .wr) : s.iPipe ≠ none := by
    rcases hd with hd | hd
    · exact h.pipe_of_held hx (Nat.add_pos_right _ hd)
    · exact h.pipe_of_held hx (Nat.add_pos_right _ hd)
  cases hp : x.place with
  | idle => simp [taskStep,hp] at ht
  | down md c =>
    simp only [taskStep,hp] at ht
    obtain ⟨hz,rfl⟩ := hfree (by simp [takesLock,hp]) ht
    exact inv_down h hx hz (by simp [inside,hp]) rfl (fun sd => by rw [hp]; rfl) (by simp [call,hp]) trivial
  | check md c =>
    simp only [taskStep,hp] at ht
    exact Option.some.inj ht ▸ inv_check h hx hp
  | alloc md c =>
    simp only [taskStep,hp] at ht
    exact Option.some.inj ht ▸ inv_alloc h hx hp
  | redown sd c cur cnt =>
    simp only [taskStep,hp] at ht
    obtain ⟨hz,rfl⟩ := hfree (by simp [takesLock,hp]) ht
    rw [Fact,hp] at hfact
    exact inv_down h hx hz (by simp [inside,hp]) rfl (fun sd => by rw [hp]; rfl) (by simp [call,hp]) hfact
  | again sd c cur cnt =>
    simp only [taskStep,hp] at ht
    split at ht
    next hs => exact Option.some.inj ht ▸ inv_signalled h hx hp hs
    next =>
      have hw : Waits s sd c cur cnt := by simpa only [Fact,hp] using hfact
      obtain ⟨q,hlive,hq⟩ := h.live hw.pipe
      rw [hlive] at ht
      exact Option.some.inj ht ▸ inv_again h hx hp hq
  | pending sd c =>
    simp only [taskStep,hp] at ht
    exact Option.some.inj ht ▸ inv_pending h hx hp
  | up md c ret =>
    simp only [taskStep,hp] at ht
    exact Option.some.inj ht ▸ inv_up h hx hp
  | closeDown md =>
    simp only [taskStep,hp] at ht
    obtain ⟨hz,rfl⟩ := hfree (by simp [takesLock,hp]) ht
    rw [Fact,hp] at hfact
    exact inv_down h hx hz (by simp [inside,hp]) rfl (fun sd => by rw [hp]; rfl) (by simp [call,hp]) hfact
  | closeUp =>
    simp only [taskStep,hp] at ht
    exact Option.some.inj ht ▸ inv_closeUp h hx hp
  | nonblock _ | bothR _ | closeW _ | closeFree =>
    simp only [Fact,hp] at hfact
    simp only [taskStep,hp] at ht
    exact inv_pipe h hx hfact ht
  | bump _ _ | incr _ _ | err _ _ _ =>
    simp only [Fact,hp] at hfact
    simp only [taskStep,hp] at ht
    exact inv_pipe h hx hfact.1 ht
  | test sd _ | wait sd _ _ _ | asleep sd _ _ _ | decr sd _ =>
    simp only [taskStep,hp] at ht
    exact inv_pipe h hx (hcount (by cases sd <;> simp [Place.held,hp])) ht
  | bothW _ | bothBumpR _ | bothBumpW _ =>
    simp only [taskStep,hp] at ht
    exact inv_pipe h hx (hcount (by simp [Place.held,hp])) ht
  | closeR md =>
    simp only [Fact,hp] at hfact
    simp only [taskStep,hp] at ht
    refine inv_pipe h hx (hcount ?_) ht
    rw [hp]
    rcases md with (_ | _) | _ | _
    · exact Or.inl Nat.one_pos
    · exact Or.inr Nat.one_pos
    · exact Or.inl Nat.one_pos
    · exact absurd rfl hfact

theorem inv_step (s : Inode) (a : Act) (t : Inode) (h : Inv s) (ha : shared = true → Apart s a)
    (ht : step shared s a = some t) : Inv t := by
  cases a with
  | openSync i md nb mem =>
    obtain ⟨x,hx,ht⟩ := Option.bind_eq_some_iff.mp ht
    split at ht
    next hp =>
      obtain rfl := Option.some.inj ht
      refine h.move hx rfl rfl rfl rfl rfl (fun sd => held_place hp rfl) ?_ h.alone (fun _ hc => ?_)
        (fun md' c hc => ?_)
        trivial (h.files i x hx) h.returned
      · simp [goto,inside,hp]
      · simp [fresh,hp] at hc
      · cases hc
        exact le_rfl
    next => cases ht
  | closeSync i md =>
    obtain ⟨x,hx,ht⟩ := Option.bind_eq_some_iff.mp ht
    split at ht
    next hp =>
      obtain ⟨hp,hm⟩ := hp
      obtain rfl := Option.some.inj ht
      refine h.move (y := ⟨.closeDown md,x.files.erase md,x.signal⟩) hx rfl rfl rfl rfl rfl (fun sd => ?_) ?_ h.alone
        (fun _ hc => ?_) (fun md' c hc => by cases hc) (h.files i x hx md hm)
        (fun md' hm' => h.files i x hx md' (List.mem_of_mem_erase hm')) h.returned
      · have hperm := (List.perm_cons_erase hm).countP_eq (·.has sd)
        rw [List.countP_cons] at hperm
        simp only [Thread.held,Place.held,hp,hperm]
        cases md.has sd <;> rfl
      · simp [inside,hp]
      · simp [fresh,hp] at hc
    next => cases ht
  | signal i =>
    obtain ⟨x,hx,ht⟩ := Option.bind_eq_some_iff.mp ht
    split at ht
    next => cases ht
    next hp =>
      obtain rfl := Option.some.inj ht
      have hfact := h.fact i x hx
      refine h.move (y := { x with signal := true }) hx rfl rfl rfl rfl rfl (fun _ => rfl) rfl h.alone
        (fun _ hc => Or.inl hc) (fun md c hc => h.since i x md c hx hc) ?_ (h.files i x hx) h.returned
      unfold Fact at hfact ⊢
      cases hp : x.place with
      | pending sd c =>
        simp only [hp] at hfact
        exact ⟨hfact.1,fun hc => Bool.noConfusion hc⟩
      | _ =>
        simp only [hp] at hfact
        exact hfact
  | task i =>
    obtain ⟨x,hx,ht⟩ := Option.bind_eq_some_iff.mp ht
    refine inv_task h hx (fun hs hl => ha hs ?_) ht
    rw [hx]
    exact hl

theorem inv_init (n : ℕ) : Inv (init n) := by
  have hidle (k : ℕ) (z : Thread) (hz : (init n).threads[k]? = some z) : z = ⟨.idle,[],false⟩ :=
    List.eq_of_mem_replicate (List.mem_of_getElem? hz)
  refine ⟨(tally_replicate n rfl).symm,Nat.zero_le _,fun p hp => (by cases hp),fun _ sd => ?_,fun hc => absurd rfl hc,
    fun k q hk => (by cases hk),fun k z md c hz hc => ?_,fun k z hz => ?_,fun k z hz md hm => ?_,rfl,
    fun r hr => by cases hr⟩
  · simp [opens,total,init,Thread.held,Place.held]
  · rw [hidle k z hz] at hc
    cases hc
  · rw [hidle k z hz]
    trivial
  · rw [hidle k z hz] at hm
    cases hm

/- What holds of the inode in every state: the counts at `i_pipe` are those of the opens, with no pipe where there
are none; it is there while no task is in the lock exactly if there is an open, every other one is freed, and none is
used after that. -/
structure Right (s : Inode) : Prop where
  counts : ∀ p, s.iPipe = some p → ∃ q, s.heap[p]? = some q ∧ q.freed = false ∧ ∀ sd, q.count sd = s.opens sd
  noPipe : s.iPipe = none → ∀ sd, s.opens sd = 0
  rest : (∀ (k : ℕ) (z : Thread), s.threads[k]? = some z → inside z = false) → (s.iPipe = none ↔ ∀ sd, s.opens sd = 0)
  freed : ∀ k q, s.heap[k]? = some q → s.iPipe ≠ some k → q.freed = true
  fault : s.fault = false
  write : ∀ (i : ℕ) (x : Thread) written, s.threads[i]? = some x → 0 < x.held .wr →
    s.fifoWriteSync written = some (if s.opens .rd = 0 then (some .epipe,!written) else (none,false))
  returned : ∀ r ∈ s.returned, Returned r

theorem Inv.right (h : Inv s) : Right s where
  counts := h.pipe
  noPipe := h.noPipe
  rest hout := by
    refine ⟨h.noPipe,fun hz => by_contra fun hn => ?_⟩
    have hpos := h.kept hn
    have hfresh : tally fresh s.threads = 0 := by
      refine List.countP_eq_zero.mpr fun z hz hf => ?_
      obtain ⟨k,hk⟩ := List.getElem?_of_mem hz
      exact absurd ((hout k z hk).symm.trans (fresh_inside hf)) (by decide)
    rw [hz,hz,hfresh] at hpos
    exact absurd hpos (by decide)
  freed k q hk hne := by
    cases hf : q.freed with
    | true => rfl
    | false => exact absurd (h.leak k q hk hf) hne
  fault := h.fault
  write i x written hx hheld := by
    obtain ⟨p,q,hinfo,-,-,-,hcount⟩ := h.info (h.pipe_of_held hx hheld)
    have hr : q.readers = s.opens .rd := hcount .rd
    simp only [fifoWriteSync,hinfo,Option.map_some,hr,Int.natCast_eq_zero]
  returned := h.returned

/- With a mutex in the inode, or in a run where no task takes the lock while another one has it. -/
theorem fifo_right (n : ℕ) {as : List Act} (ha : shared = true → Meets (step shared) Apart (init n) as)
    (h : exec (step shared) (init n) as = some s) : Right s := by
  cases shared with
  | false =>
    exact (exec_invariant (fun s a t hs => inv_step s a t hs fun hc => Bool.noConfusion hc) (inv_init n) h).right
  | true => exact (exec_preserves (fun s a t hs hc => inv_step s a t hs fun _ => hc) (inv_init n) (ha rfl) h).right

/- A reader waits for a writer, and the pipe goes with the last of their closes. -/
def partners : List Act :=
  .openSync 0 (.one .rd) false true :: List.replicate 7 (.task 0) ++
  .openSync 1 (.one .wr) false true :: List.replicate 7 (.task 1) ++ List.replicate 5 (.task 0) ++
  .closeSync 0 (.one .rd) :: List.replicate 5 (.task 0) ++ .closeSync 1 (.one .wr) :: List.replicate 5 (.task 1)

theorem fifo_right_partners : ∃ s, exec (step true) (init 2) partners = some s ∧ Right s :=
  Exists.imp (fun _ hs => ⟨hs,fifo_right 2 (fun _ => by decide) hs⟩) (Option.isSome_iff_exists.mp rfl)

/- Two readers find no pipe and make one each, and the first one is not counted in the pipe that stays. -/
def twoPipes : List Act :=
  [.openSync 0 (.one .rd) true true,.openSync 1 (.one .rd) true true,.task 0,.task 0,.task 1,.task 1,.task 0,.task 0,
    .task 0,.task 1,.task 1,.task 1,.task 0,.task 0,.task 1,.task 1]

theorem pipe_lost : ¬ ∀ s, exec (step true) (init 2) twoPipes = some s → Right s := by
  intro h
  obtain ⟨q,hq,-,hcount⟩ := (h _ rfl).counts 1 rfl
  obtain rfl := Option.some.inj hq
  exact absurd (hcount .rd) (by decide)

end Runs

end CSLiS.Fifo.Inode
