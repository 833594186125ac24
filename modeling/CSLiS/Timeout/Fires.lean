import CSLiS.Timeout.Places

/-!
# Timeouts fire once (head/dki.c)

A handler knows the timeout it is for only by the address of the entry. It calls the right
function as long as `lis_timeout_fcn` takes no entry for which a kernel timer is still to
expire or a handler is under way. `lis_untimeout` cannot stop a call once the handler has
taken the entry off the list.
-/

namespace CSLiS.Timeout
open Lib.Exec

def Event.reg : Event → ℕ
  | .called r _ => r
  | .cancelled r => r

/- No call after a call or a cancellation of the same timeout. -/
def Quiet (e e' : Event) : Prop := ∀ r tmr, e' = .called r tmr → e.reg ≠ r

namespace Timers

variable {s t : Timers} {tp tq k id i r : ℕ} {e : Tlist}

/-- What callers of `lis_timeout_fcn` and `lis_untimeout` rely on. -/
structure Timely (s : Timers) : Prop where
  distinct : ∀ k, k ≠ 0 → ∀ tp ∈ s.lisTlistHeads k, (s.ent tp).handle ≠ 0 ∧
    ∀ k', k' ≠ 0 → ∀ tq ∈ s.lisTlistHeads k', (s.ent tp).handle = (s.ent tq).handle → tp = tq
  pending : ∀ tp < s.next, (s.ent tp).handle ≠ 0 →
    ∀ k, (s.lisTlistHeads k).count tp = if k = (s.ent tp).handle % THASH then 1 else 0
  idle : ∀ tp < s.next, (s.ent tp).handle = 0 → ∀ k, (s.lisTlistHeads k).count tp = if k = 0 then 1 else 0
  once : s.log.Pairwise Quiet
  own : ∀ r tmr, .called r tmr ∈ s.log → r = tmr

/- A kernel timer of timeout `r` for the entry is about to be started, is running or has
expired. -/
def Attached (s : Timers) (tp r : ℕ) : Prop :=
  (tp,r) ∈ s.starting ∨ s.armed tp = some r ∨ (tp,r) ∈ s.handlers

def Unattached (s : Timers) (tp : ℕ) : Prop :=
  s.armed tp = none ∧ (∀ x ∈ s.starting, x.1 ≠ tp) ∧ ∀ x ∈ s.handlers, x.1 ≠ tp

def Guard (s : Timers) : Act → Prop
  | .timeout .. => ∀ tp ∈ (s.lisTlistHeads 0).head?, s.Unattached tp
  | .untimeout id => ∀ c ∈ s.calls, s.handles[c.reg]? ≠ some id
  | _ => True

instance decUnattached (s : Timers) (tp : ℕ) : Decidable (s.Unattached tp) :=
  inferInstanceAs (Decidable (_ ∧ _))

instance decGuard (s : Timers) : ∀ a, Decidable (s.Guard a)
  | .timeout .. => inferInstanceAs (Decidable (∀ tp ∈ (s.lisTlistHeads 0).head?, s.Unattached tp))
  | .untimeout id => inferInstanceAs (Decidable (∀ c ∈ s.calls, s.handles[c.reg]? ≠ some id))
  | .tmout _ | .expire _ | .handler _ | .call _ => inferInstanceAs (Decidable True)

/- The entry is in use. -/
def Pend (s : Timers) (tp : ℕ) : Prop := tp < s.next ∧ (s.ent tp).handle ≠ 0

/- A timeout that was called or cancelled is not in use and not about to be called. -/
structure Once (s : Timers) : Prop where
  placed : s.Placed
  handle : ∀ tp, s.Pend tp → s.handles[(s.ent tp).reg]? = some (s.ent tp).handle
  inj : ∀ tp tq, s.Pend tp → s.Pend tq → (s.ent tp).reg = (s.ent tq).reg → tp = tq
  calls : (s.calls.map Call.reg).Nodup
  callsLt : ∀ c ∈ s.calls, c.reg < s.handles.length
  callsPend : ∀ c ∈ s.calls, ∀ tp, s.Pend tp → (s.ent tp).reg ≠ c.reg
  logLt : ∀ e ∈ s.log, e.reg < s.handles.length
  logPend : ∀ e ∈ s.log, ∀ tp, s.Pend tp → (s.ent tp).reg ≠ e.reg
  logCalls : ∀ e ∈ s.log, ∀ c ∈ s.calls, c.reg ≠ e.reg
  quiet : s.log.Pairwise Quiet

/- Whatever kernel timer there is for an entry in use is its own. -/
structure Owned (s : Timers) : Prop where
  lt : ∀ tp r, s.Attached tp r → tp < s.next
  own : ∀ tp r, s.Attached tp r → s.Pend tp → (s.ent tp).reg = r
  calls : ∀ c ∈ s.calls, c.reg = c.tmr
  log : ∀ r tmr, .called r tmr ∈ s.log → r = tmr

theorem Moved.pend (h : Moved s t tp e) (hle : tp ≤ s.next) :
    t.Pend tq ↔ tq = tp ∧ e.handle ≠ 0 ∨ tq ≠ tp ∧ s.Pend tq := by
  unfold Pend
  by_cases hq : tq = tp
  · subst hq
    rw [h.self,h.next]
    simp
  · rw [h.other hq,h.next]
    simp only [hq,false_and,false_or,not_false_eq_true,true_and,ne_eq]
    have : tq < max s.next (tp + 1) ↔ tq < s.next := by omega
    rw [this]

/- Entries only went out of use. -/
theorem Moved.pend_freed (h : Moved s t tp e) (hlt : tp < s.next) (h0 : e.handle = 0) (hp : t.Pend tq) :
    tq ≠ tp ∧ s.Pend tq ∧ t.ent tq = s.ent tq := by
  rcases (h.pend hlt.le).mp hp with ⟨-,h1⟩ | ⟨hne,hp⟩
  · exact absurd h0 h1
  · exact ⟨hne,hp,h.other hne⟩

theorem Placed.timely_count (hp : s.Placed) (hlt : tp < s.next) (k : ℕ) :
    (s.lisTlistHeads k).count tp = if k = s.slot tp then 1 else 0 := by
  split_ifs with hk
  · subst hk
    exact List.count_eq_one_of_mem (hp.nodup _) (hp.slot tp hlt)
  · exact List.count_eq_zero_of_not_mem fun hm => hk (hp.mem k tp hm).2.symm

theorem Once.timely (ho : s.Once) (hw : s.Owned) : s.Timely := by
  have hpend : ∀ k, k ≠ 0 → ∀ tp ∈ s.lisTlistHeads k, (s.ent tp).handle ≠ 0 := by
    intro k hk tp hm h0
    have := (ho.placed.mem k tp hm).2
    simp only [slot,h0,Nat.zero_mod] at this
    exact hk this.symm
  refine ⟨fun k hk tp hm => ⟨hpend k hk tp hm,?_⟩,fun tp hlt _ k => ho.placed.timely_count hlt k,
    fun tp hlt h0 k => ?_,ho.quiet,hw.log⟩
  · intro k' _ tq hm' he
    exact ho.placed.inj tp (ho.placed.mem k tp hm).1 tq (ho.placed.mem k' tq hm').1 (hpend k hk tp hm) he
  · rw [ho.placed.timely_count hlt k,slot,h0,Nat.zero_mod]

theorem init_once : init.Once :=
  ⟨init_placed,fun _ h => absurd h.1 (Nat.not_lt_zero _),fun _ _ h => absurd h.1 (Nat.not_lt_zero _),.nil,
    nofun,nofun,nofun,nofun,nofun,.nil⟩

theorem init_owned : init.Owned := by
  refine ⟨fun tp r h => ?_,fun tp r h => ?_,nofun,nofun⟩ <;> rcases h with h | h | h <;> cases h

theorem Once.lt (ho : s.Once) (hp : s.Pend tp) : (s.ent tp).reg < s.handles.length :=
  (List.getElem?_eq_some_iff.mp (ho.handle tp hp)).1

theorem Once.timeout {fcn : Option ℕ} {arg : ℕ} {alloc : Bool} (ho : s.Once)
    (h : s.lisTimeoutFcn fcn arg alloc = some t) : t.Once := by
  rcases lisTimeoutFcn_some ho.placed h with rfl | ⟨tp,id,hle,-,-,hu,hm,-,hh,-,-,hc,hl⟩
  · exact ho
  -- the new timeout has a number that no other entry, call or event has
  have hpend : ∀ tq, t.Pend tq → tq = tp ∧ (t.ent tq).reg = s.handles.length ∨
      tq ≠ tp ∧ s.Pend tq ∧ t.ent tq = s.ent tq := by
    intro tq hq
    rcases (hm.pend hle).mp hq with ⟨rfl,-⟩ | ⟨hne,hq⟩
    · exact .inl ⟨rfl,by rw [hm.self]⟩
    · exact .inr ⟨hne,hq,hm.other hne⟩
  refine ⟨ho.placed.moved hm hle hu,?_,?_,hc ▸ ho.calls,?_,?_,?_,?_,?_,hl ▸ ho.quiet⟩
  · intro tq hq
    rw [hh]
    rcases hpend tq hq with ⟨rfl,-⟩ | ⟨-,hq,he⟩
    · rw [hm.self]
      simp
    · rw [he,List.getElem?_append_left (ho.lt hq)]
      exact ho.handle tq hq
  · intro tq tr hq hr he
    rcases hpend tq hq with ⟨rfl,h1⟩ | ⟨-,hq,h1⟩ <;> rcases hpend tr hr with ⟨rfl,h2⟩ | ⟨-,hr,h2⟩
    · rfl
    · rw [h1,h2] at he
      exact absurd (ho.lt hr) (by omega)
    · rw [h1,h2] at he
      exact absurd (ho.lt hq) (by omega)
    · rw [h1,h2] at he
      exact ho.inj tq tr hq hr he
  · rw [hc,hh]
    intro c hcm
    have := ho.callsLt c hcm
    simp
    omega
  · rw [hc]
    intro c hcm tq hq
    have := ho.callsLt c hcm
    rcases hpend tq hq with ⟨-,h1⟩ | ⟨-,hq,h1⟩
    · omega
    · rw [h1]
      exact ho.callsPend c hcm tq hq
  · rw [hl,hh]
    intro e hem
    have := ho.logLt e hem
    simp
    omega
  · rw [hl]
    intro e hem tq hq
    have := ho.logLt e hem
    rcases hpend tq hq with ⟨-,h1⟩ | ⟨-,hq,h1⟩
    · omega
    · rw [h1]
      exact ho.logPend e hem tq hq
  · rw [hl,hc]
    exact ho.logCalls

/- What does not touch entries, calls and events. -/
theorem Once.same (ho : s.Once) (starting : List (ℕ × ℕ)) (armed : ℕ → Option ℕ) (handlers : List (ℕ × ℕ)) :
    { s with starting := starting, armed := armed, handlers := handlers }.Once :=
  ⟨⟨ho.placed.mem,ho.placed.slot,ho.placed.nodup,ho.placed.hash,ho.placed.inj⟩,ho.handle,ho.inj,ho.calls,ho.callsLt,
    ho.callsPend,ho.logLt,ho.logPend,ho.logCalls,ho.quiet⟩

/- An entry goes out of use; its function is perhaps about to be called. -/
theorem Once.freed (ho : s.Once) (calls : List Call) (armed : ℕ → Option ℕ) (hlt : tp < s.next) (h0 : e.handle = 0)
    (hc : calls = [] ∨ ∃ c, calls = [c] ∧ s.Pend tp ∧ c.reg = (s.ent tp).reg) :
    { s.relist tp e with calls := s.calls ++ calls, armed := armed }.Once := by
  have hm := ho.placed.relist_moved hlt e
  have hpend : ∀ tq, (s.relist tp e).Pend tq → tq ≠ tp ∧ s.Pend tq ∧ (s.relist tp e).ent tq = s.ent tq :=
    fun tq hq => hm.pend_freed hlt h0 hq
  have hpl := ho.placed.moved hm hlt.le ⟨fun _ => h0,fun h => absurd h0 h⟩
  have hin : ∀ c ∈ s.calls ++ calls, c ∈ s.calls ∨ s.Pend tp ∧ c.reg = (s.ent tp).reg := by
    intro c hcm
    rcases List.mem_append.mp hcm with hcm | hcm
    · exact .inl hcm
    · rcases hc with rfl | ⟨d,rfl,hd⟩
      · cases hcm
      · exact .inr (List.mem_singleton.mp hcm ▸ hd)
  refine ⟨⟨hpl.mem,hpl.slot,hpl.nodup,hpl.hash,hpl.inj⟩,?_,?_,?_,?_,?_,ho.logLt,?_,?_,ho.quiet⟩
  · intro tq hq
    obtain ⟨-,hq,he⟩ := hpend tq hq
    exact (congrArg (fun x : Tlist => s.handles[x.reg]?) he).trans
      ((ho.handle tq hq).trans (congrArg (fun x : Tlist => some x.handle) he.symm))
  · intro tq tr hq hr he
    obtain ⟨-,hq,h1⟩ := hpend tq hq
    obtain ⟨-,hr,h2⟩ := hpend tr hr
    exact ho.inj tq tr hq hr (((congrArg Tlist.reg h1).symm.trans he).trans (congrArg Tlist.reg h2))
  · rcases hc with rfl | ⟨c,rfl,hp,hr⟩
    · simpa using ho.calls
    · simp only [List.map_append,List.map_cons,List.map_nil]
      refine List.nodup_append.mpr ⟨ho.calls,List.nodup_singleton _,fun a ha b hb => ?_⟩
      obtain ⟨d,hd,rfl⟩ := List.mem_map.mp ha
      rw [List.mem_singleton.mp hb,hr]
      exact fun he => ho.callsPend d hd tp hp he.symm
  · intro c hcm
    rcases hin c hcm with hcm | ⟨hp,hr⟩
    · exact ho.callsLt c hcm
    · exact hr ▸ ho.lt hp
  · intro c hcm tq hq
    obtain ⟨hne,hq,he⟩ := hpend tq hq
    have he : ((s.relist tp e).ent tq).reg = (s.ent tq).reg := congrArg Tlist.reg he
    rcases hin c hcm with hcm | ⟨hp,hr⟩
    · exact he ▸ ho.callsPend c hcm tq hq
    · exact fun h => hne (ho.inj tq tp hq hp (he.symm.trans (h.trans hr)))
  · intro f hfm tq hq
    obtain ⟨-,hq,he⟩ := hpend tq hq
    exact (congrArg Tlist.reg he) ▸ ho.logPend f hfm tq hq
  · intro f hfm c hcm
    rcases hin c hcm with hcm | ⟨hp,hr⟩
    · exact ho.logCalls f hfm c hcm
    · exact hr ▸ ho.logPend f hfm tp hp

theorem mem_regsOf : r ∈ s.regsOf id ↔ s.handles[r]? = some id := by
  simp only [regsOf,List.mem_filter,List.mem_range,beq_iff_eq]
  exact ⟨And.right,fun h => ⟨(List.getElem?_eq_some_iff.mp h).1,h⟩⟩

/- The timeouts that have had a handle which no entry has now can be noted as cancelled. -/
theorem Once.cancel (ho : s.Once) (hn : ∀ tp, s.Pend tp → (s.ent tp).handle ≠ id)
    (hc : ∀ c ∈ s.calls, s.handles[c.reg]? ≠ some id) :
    { s with log := s.log ++ (s.regsOf id).map Event.cancelled }.Once := by
  have hin : ∀ e ∈ s.log ++ (s.regsOf id).map Event.cancelled, e ∈ s.log ∨ s.handles[e.reg]? = some id := by
    intro e hem
    rcases List.mem_append.mp hem with hem | hem
    · exact .inl hem
    · obtain ⟨r,hr,rfl⟩ := List.mem_map.mp hem
      exact .inr (mem_regsOf.mp hr)
  refine ⟨⟨ho.placed.mem,ho.placed.slot,ho.placed.nodup,ho.placed.hash,ho.placed.inj⟩,ho.handle,ho.inj,ho.calls,
    ho.callsLt,ho.callsPend,fun e hem => ?_,fun e hem tp hp => ?_,fun e hem c hcm => ?_,?_⟩
  · rcases hin e hem with hem | hr
    · exact ho.logLt e hem
    · exact (List.getElem?_eq_some_iff.mp hr).1
  · rcases hin e hem with hem | hr
    · exact ho.logPend e hem tp hp
    · exact fun he => hn tp hp (Option.some.inj ((ho.handle tp hp).symm.trans (he ▸ hr)))
  · rcases hin e hem with hem | hr
    · exact ho.logCalls e hem c hcm
    · exact fun he => hc c hcm (he ▸ hr)
  · refine List.pairwise_append.mpr ⟨ho.quiet,?_,?_⟩
    · exact List.pairwise_map.mpr (List.pairwise_of_forall fun _ _ _ _ h => Event.noConfusion h)
    · intro e _ f hf r tmr he
      obtain ⟨q,-,rfl⟩ := List.mem_map.mp hf
      cases he

theorem Once.call {c : Call} (ho : s.Once) (hc : s.calls[i]? = some c) :
    { s with calls := s.calls.eraseIdx i, log := s.log ++ [Event.called c.reg c.tmr] }.Once := by
  have hcm := List.mem_of_getElem? hc
  have hsub : ∀ d ∈ s.calls.eraseIdx i, d ∈ s.calls := fun d hd => List.mem_of_mem_eraseIdx hd
  have hne : ∀ d ∈ s.calls.eraseIdx i, d.reg ≠ c.reg := by
    intro d hd he
    obtain ⟨j,hj,hjd⟩ := List.mem_eraseIdx_iff_getElem?.mp hd
    have hlt : j < (s.calls.map Call.reg).length := by
      rw [List.length_map]
      exact (List.getElem?_eq_some_iff.mp hjd).1
    refine hj ((List.getElem?_inj hlt ho.calls).mp ?_)
    rw [List.getElem?_map,List.getElem?_map,hjd,hc]
    simp [he]
  refine ⟨⟨ho.placed.mem,ho.placed.slot,ho.placed.nodup,ho.placed.hash,ho.placed.inj⟩,ho.handle,ho.inj,
    ((List.eraseIdx_sublist ..).map _).nodup ho.calls,fun d hd => ho.callsLt d (hsub d hd),
    fun d hd => ho.callsPend d (hsub d hd),?_,?_,?_,?_⟩
  · intro e hem
    rcases List.mem_append.mp hem with hem | hem
    · exact ho.logLt e hem
    · obtain rfl := List.mem_singleton.mp hem
      exact ho.callsLt c hcm
  · intro e hem
    rcases List.mem_append.mp hem with hem | hem
    · exact ho.logPend e hem
    · obtain rfl := List.mem_singleton.mp hem
      exact ho.callsPend c hcm
  · intro e hem d hd
    rcases List.mem_append.mp hem with hem | hem
    · exact ho.logCalls e hem d (hsub d hd)
    · exact List.mem_singleton.mp hem ▸ hne d hd
  · refine List.pairwise_append.mpr ⟨ho.quiet,List.pairwise_singleton ..,?_⟩
    intro e hem f hf r tmr hr
    obtain rfl := List.mem_singleton.mp hf
    obtain ⟨rfl,-⟩ := Event.called.inj hr
    exact (ho.logCalls e hem c hcm).symm

theorem Once.handler (ho : s.Once) (hlt : tp < s.next) (tmr : ℕ) : (s.sysTimeoutFcn tp tmr).Once := by
  obtain ⟨calls,heq,hc⟩ := sysTimeoutFcn_eq _ ho.placed hlt
  rw [heq]
  refine ho.freed calls s.armed hlt rfl ?_
  rcases hc with hc | ⟨f,h0,rfl⟩
  · exact .inl hc
  · exact .inr ⟨_,rfl,⟨hlt,h0⟩,rfl⟩

theorem Once.untimeout (ho : s.Once) (hg : ∀ c ∈ s.calls, s.handles[c.reg]? ≠ some id) :
    (s.lisUntimeout id).Once := by
  rcases lisUntimeout_eq ho.placed with ⟨hn,heq⟩ | ⟨tp,hlt,hid,heq⟩
  · exact heq ▸ ho.cancel (fun tp hp => hn tp hp.1) hg
  · have hf := ho.freed (e := { s.ent tp with handle := 0 }) [] (Function.update s.armed tp none) hlt rfl (.inl rfl)
    have hm := ho.placed.relist_moved hlt { s.ent tp with handle := 0 }
    simp only [List.append_nil] at hf
    rw [heq]
    refine hf.cancel (fun tq hq he => ?_) hg
    obtain ⟨hne,hq,hent⟩ := hm.pend_freed hlt rfl hq
    rw [hent] at he
    exact hne (ho.placed.inj tq hq.1 tp hlt hq.2 (he.trans hid.symm))

/- No kernel timer was added, and entries only went out of use. -/
theorem Owned.sub (hw : s.Owned) (ha : ∀ tp r, t.Attached tp r → s.Attached tp r) (hn : s.next ≤ t.next)
    (hp : ∀ tp, t.Pend tp → s.Pend tp ∧ t.ent tp = s.ent tp) (hc : ∀ c ∈ t.calls, c.reg = c.tmr)
    (hl : ∀ r tmr, .called r tmr ∈ t.log → r = tmr) : t.Owned := by
  refine ⟨fun tp r h => (hw.lt tp r (ha tp r h)).trans_le hn,fun tp r h hq => ?_,hc,hl⟩
  obtain ⟨hq,he⟩ := hp tp hq
  exact he ▸ hw.own tp r (ha tp r h) hq

theorem Unattached.not (hu : s.Unattached tp) : ¬ s.Attached tp r := by
  rintro (h | h | h)
  · exact hu.2.1 _ h rfl
  · cases hu.1.symm.trans h
  · exact hu.2.2 _ h rfl

theorem Owned.timeout {fcn : Option ℕ} {arg : ℕ} {alloc : Bool} (ho : s.Once) (hw : s.Owned)
    (hg : ∀ tp ∈ (s.lisTlistHeads 0).head?, s.Unattached tp) (h : s.lisTimeoutFcn fcn arg alloc = some t) :
    t.Owned := by
  rcases lisTimeoutFcn_some ho.placed h with rfl | ⟨tp,id,hle,hfree,-,-,hm,hs,-,ha,hh,hc,hl⟩
  · exact hw
  have hatt : ∀ tq r, t.Attached tq r → tq = tp ∧ r = s.handles.length ∨ s.Attached tq r := by
    rintro tq r (h | h | h)
    · rw [hs] at h
      rcases List.mem_cons.mp h with h | h
      · exact .inl (Prod.mk.inj h)
      · exact .inr (.inl h)
    · exact .inr (.inr (.inl (ha ▸ h)))
    · exact .inr (.inr (.inr (hh ▸ h)))
  have hun : ∀ r, ¬ s.Attached tp r := by
    intro r hr
    rcases hfree with ⟨-,rfl⟩ | ⟨l,hl⟩
    · exact lt_irrefl _ (hw.lt _ r hr)
    · exact (hg tp (by simp [hl])).not hr
  refine ⟨fun tq r hr => ?_,fun tq r hr hq => ?_,hc ▸ hw.calls,hl ▸ hw.log⟩
  · rw [hm.next]
    rcases hatt tq r hr with ⟨rfl,-⟩ | hr
    · omega
    · have := hw.lt tq r hr
      omega
  · rcases hatt tq r hr with ⟨rfl,rfl⟩ | hr
    · rw [hm.self]
    · rcases (hm.pend hle).mp hq with ⟨rfl,-⟩ | ⟨hne,hq⟩
      · exact absurd hr (hun r)
      · exact hm.other hne ▸ hw.own tq r hr hq

theorem Owned.handler (ho : s.Once) (hw : s.Owned) {x : ℕ × ℕ} (hx : s.handlers[i]? = some x) :
    ({ s with handlers := s.handlers.eraseIdx i }.sysTimeoutFcn x.1 x.2).Owned := by
  have hatt : s.Attached x.1 x.2 := .inr (.inr (List.mem_of_getElem? hx))
  have hlt := hw.lt _ _ hatt
  have hs := ho.same s.starting s.armed (s.handlers.eraseIdx i)
  obtain ⟨calls,heq,hc⟩ := sysTimeoutFcn_eq x.2 hs.placed hlt
  have hm := hs.placed.relist_moved hlt { s.ent x.1 with handle := 0, fcn := none }
  rw [heq]
  refine hw.sub (fun tp r h => ?_) ((le_max_left _ _).trans_eq hm.next.symm) (fun tp hp => ?_) (fun c hcm => ?_) hw.log
  · rcases h with h | h | h
    · exact .inl h
    · exact .inr (.inl h)
    · exact .inr (.inr (List.mem_of_mem_eraseIdx h))
  · obtain ⟨-,hq,he⟩ := hm.pend_freed hlt rfl hp
    exact ⟨hq,he⟩
  · rcases List.mem_append.mp hcm with hcm | hcm
    · exact hw.calls c hcm
    · rcases hc with rfl | ⟨f,h0,rfl⟩
      · cases hcm
      · obtain rfl := List.mem_singleton.mp hcm
        exact hw.own _ _ hatt ⟨hlt,h0⟩

theorem Owned.untimeout (ho : s.Once) (hw : s.Owned) : (s.lisUntimeout id).Owned := by
  have hlog : ∀ r tmr, .called r tmr ∈ s.log ++ (s.regsOf id).map Event.cancelled → r = tmr := by
    intro r tmr h
    rcases List.mem_append.mp h with h | h
    · exact hw.log r tmr h
    · obtain ⟨q,-,he⟩ := List.mem_map.mp h
      cases he
  rcases lisUntimeout_eq ho.placed with ⟨-,heq⟩ | ⟨tp,hlt,-,heq⟩
  · exact heq ▸ hw.sub (fun _ _ h => h) le_rfl (fun _ h => ⟨h,rfl⟩) hw.calls hlog
  · have hm := ho.placed.relist_moved hlt { s.ent tp with handle := 0 }
    rw [heq]
    refine hw.sub (fun tq r h => ?_) ((le_max_left _ _).trans_eq hm.next.symm) (fun tq hp => ?_) hw.calls hlog
    · rcases h with h | h | h
      · exact .inl h
      · by_cases hq : tq = tp
        · simp [hq] at h
        · exact .inr (.inl (by simpa [hq] using h))
      · exact .inr (.inr h)
    · obtain ⟨-,hq,he⟩ := hm.pend_freed hlt rfl hp
      exact ⟨hq,he⟩

theorem step_kept {a : Act} (ho : s.Once) (hw : s.Owned) (hg : s.Guard a) (h : s.step a = some t) :
    t.Once ∧ t.Owned := by
  cases a with
  | timeout fcn arg alloc => exact ⟨ho.timeout h,hw.timeout ho hg h⟩
  | tmout i =>
    obtain ⟨x,hx,rfl⟩ := Option.map_eq_some_iff.mp h
    refine ⟨ho.same ..,hw.sub (fun tp r h => ?_) le_rfl (fun _ h => ⟨h,rfl⟩) hw.calls hw.log⟩
    rcases h with h | h | h
    · exact .inl (List.mem_of_mem_eraseIdx h)
    · by_cases hq : tp = x.1
      · simp only [hq,Function.update_self,Option.some.injEq] at h
        exact .inl (hq ▸ h ▸ List.mem_of_getElem? hx)
      · exact .inr (.inl (by simpa [hq] using h))
    · exact .inr (.inr h)
  | expire tp =>
    obtain ⟨tmr,hx,rfl⟩ := Option.map_eq_some_iff.mp h
    refine ⟨ho.same ..,hw.sub (fun tq r h => ?_) le_rfl (fun _ h => ⟨h,rfl⟩) hw.calls hw.log⟩
    rcases h with h | h | h
    · exact .inl h
    · by_cases hq : tq = tp
      · simp [hq] at h
      · exact .inr (.inl (by simpa [hq] using h))
    · rcases List.mem_cons.mp h with h | h
      · obtain ⟨rfl,rfl⟩ := Prod.mk.inj h
        exact .inr (.inl hx)
      · exact .inr (.inr h)
  | handler i =>
    obtain ⟨x,hx,rfl⟩ := Option.map_eq_some_iff.mp h
    have hlt := hw.lt _ _ (.inr (.inr (List.mem_of_getElem? hx)))
    exact ⟨(ho.same s.starting s.armed (s.handlers.eraseIdx i)).handler hlt x.2,hw.handler ho hx⟩
  | call i =>
    obtain ⟨c,hc,rfl⟩ := Option.map_eq_some_iff.mp h
    refine ⟨ho.call hc,hw.sub (fun _ _ h => h) le_rfl (fun _ h => ⟨h,rfl⟩)
      (fun d hd => hw.calls d (List.mem_of_mem_eraseIdx hd)) (fun r tmr h => ?_)⟩
    rcases List.mem_append.mp h with h | h
    · exact hw.log r tmr h
    · obtain ⟨rfl,rfl⟩ := Event.called.inj (List.mem_singleton.mp h)
      exact hw.calls c (List.mem_of_getElem? hc)
  | untimeout id =>
    simp only [step,Option.ite_none_right_eq_some,Option.some.injEq] at h
    obtain ⟨-,rfl⟩ := h
    exact ⟨ho.untimeout hg,hw.untimeout ho⟩

/-- As long as no entry is reused for which a kernel timer is about, and no timeout is cancelled
that is about to be called, timeouts are what their callers rely on. -/
theorem run_timely {as : List Act} (hm : Meets step Guard init as) (h : exec step init as = some t) :
    t.Timely := by
  have hi : t.Once ∧ t.Owned :=
    exec_preserves (fun _ _ _ hi => step_kept hi.1 hi.2) ⟨init_once,init_owned⟩ hm h
  exact hi.1.timely hi.2

/- One timeout expires, the entry is used again and cancelled while its handler starts. -/
theorem run_timely_reuse : ∃ t, exec step init [.timeout (some 7) 0 true,.tmout 0,.expire 0,.handler 0,.call 0,
    .timeout (some 8) 0 false,.tmout 0,.expire 0,.untimeout 2,.handler 0] = some t ∧ t.Timely := by
  refine Exists.imp (fun t ht => ⟨ht,run_timely ?_ ht⟩) (Option.isSome_iff_exists.mp rfl)
  decide

/- Timeout 0 is cancelled when its handler has started, and its entry is given to timeout 1.
The handler then calls the function of timeout 1, whose kernel timer has not expired. -/
theorem late_handler_early_call : ¬ ∀ as t, exec step init as = some t → t.Timely := by
  intro h
  have hown := (h [.timeout (some 7) 0 true,.tmout 0,.expire 0,.untimeout 1,.timeout (some 8) 0 false,.tmout 0,
    .handler 0,.call 0] _ rfl).own 1 0
  exact absurd (hown (by decide)) (by decide)

end Timers

end CSLiS.Timeout
