import CSLiS.Timeout.Tlist

/-!
# Where the entries are (head/dki.c)

Every part under the lock takes at most one entry from its list, changes it and enters it in
the list of its new handle. So an entry is on the list of its handle at all times, and what
`remove_timer_from_list` is asked to remove it always finds, whoever the entry belongs to by
then.
-/

namespace CSLiS.Timeout.Timers

variable {s t u : Timers} {tp tq k id tmr : ℕ} {e : Tlist} {fcn : Option ℕ} {arg : ℕ} {alloc : Bool}

/- `tp` was moved to the list of the handle it has in `e`. -/
structure Moved (s t : Timers) (tp : ℕ) (e : Tlist) : Prop where
  ent : t.ent = Function.update s.ent tp e
  heads : ∀ k, t.lisTlistHeads k =
    if k = e.handle % THASH then tp :: (s.lisTlistHeads k).erase tp else (s.lisTlistHeads k).erase tp
  next : t.next = max s.next (tp + 1)

/- The entries are on the lists of their handles and nowhere else; the free ones are on list
0, the handles of the others are distinct. -/
structure Placed (s : Timers) : Prop where
  mem : ∀ k, ∀ tp ∈ s.lisTlistHeads k, tp < s.next ∧ s.slot tp = k
  slot : ∀ tp < s.next, tp ∈ s.lisTlistHeads (s.slot tp)
  nodup : ∀ k, (s.lisTlistHeads k).Nodup
  hash : ∀ tp < s.next, s.slot tp = 0 → (s.ent tp).handle = 0
  inj : ∀ tp < s.next, ∀ tq < s.next, (s.ent tp).handle ≠ 0 → (s.ent tp).handle = (s.ent tq).handle → tp = tq

theorem init_placed : init.Placed :=
  ⟨fun _ _ h => absurd h List.not_mem_nil,fun _ h => absurd h (Nat.not_lt_zero _),fun _ => .nil,
    fun _ h => absurd h (Nat.not_lt_zero _),fun _ h => absurd h (Nat.not_lt_zero _)⟩

/- A free handle, or 0. -/
def Usable (s : Timers) (h : ℕ) : Prop :=
  (h % THASH = 0 → h = 0) ∧ (h ≠ 0 → ∀ tq < s.next, (s.ent tq).handle ≠ h)

theorem Moved.self (h : Moved s t tp e) : t.ent tp = e := by rw [h.ent,Function.update_self]

theorem Moved.other (h : Moved s t tp e) (hne : tq ≠ tp) : t.ent tq = s.ent tq := by
  rw [h.ent,Function.update_of_ne hne]

theorem Moved.mem_heads (h : Moved s t tp e) (hp : s.Placed) :
    tq ∈ t.lisTlistHeads k ↔ tq = tp ∧ k = e.handle % THASH ∨ tq ≠ tp ∧ tq ∈ s.lisTlistHeads k := by
  rw [h.heads]
  split_ifs with hk
  · by_cases hq : tq = tp <;> simp [hk,hq,(hp.nodup _).mem_erase_iff]
  · simp [hk,(hp.nodup _).mem_erase_iff]

theorem Placed.moved (hp : s.Placed) (h : Moved s t tp e) (hle : tp ≤ s.next) (hu : s.Usable e.handle) :
    t.Placed := by
  have hlt : ∀ tq, tq < t.next → tq ≠ tp → tq < s.next := by
    intro tq hq hne
    rw [h.next] at hq
    omega
  have hslot : t.slot tp = e.handle % THASH := by rw [Timers.slot,h.self]
  have hother : ∀ tq, tq ≠ tp → t.slot tq = s.slot tq := fun tq hne => by rw [Timers.slot,h.other hne]; rfl
  refine ⟨fun k tq hq => ?_,fun tq hq => ?_,fun k => ?_,fun tq hq h0 => ?_,fun tq hq tr hr h0 he => ?_⟩
  · rcases (h.mem_heads hp).mp hq with ⟨rfl,rfl⟩ | ⟨hne,hq⟩
    · exact ⟨by rw [h.next]; omega,hslot⟩
    · obtain ⟨h1,h2⟩ := hp.mem k tq hq
      exact ⟨by rw [h.next]; omega,(hother tq hne).trans h2⟩
  · by_cases hne : tq = tp
    · subst hne
      exact (h.mem_heads hp).mpr (.inl ⟨rfl,hslot⟩)
    · exact (h.mem_heads hp).mpr (.inr ⟨hne,hother tq hne ▸ hp.slot tq (hlt tq hq hne)⟩)
  · rw [h.heads]
    split_ifs
    · exact List.nodup_cons.mpr ⟨fun hm => ((hp.nodup k).mem_erase_iff.mp hm).1 rfl,(hp.nodup k).erase tp⟩
    · exact (hp.nodup k).erase tp
  · by_cases hne : tq = tp
    · subst hne
      rw [h.self]
      exact hu.1 (hslot ▸ h0)
    · rw [h.other hne]
      exact hp.hash tq (hlt tq hq hne) (hother tq hne ▸ h0)
  · by_cases hq' : tq = tp <;> by_cases hr' : tr = tp
    · rw [hq',hr']
    · subst hq'
      rw [h.self] at h0 he
      rw [h.other hr'] at he
      exact absurd he.symm (hu.2 h0 tr (hlt tr hr hr'))
    · subst hr'
      rw [h.other hq'] at h0 he
      rw [h.self] at he
      exact absurd he (hu.2 (he ▸ h0) tq (hlt tq hq hq'))
    · rw [h.other hq'] at h0 he
      rw [h.other hr'] at he
      exact hp.inj tq (hlt tq hq hq') tr (hlt tr hr hr') h0 he

theorem Placed.erase_heads (hp : s.Placed) (hk : k ≠ s.slot tp) :
    (s.lisTlistHeads k).erase tp = s.lisTlistHeads k :=
  List.erase_of_not_mem fun hm => hk (hp.mem k tp hm).2.symm

/- An entry that exists is always found. -/
theorem Placed.remove (hp : s.Placed) (hlt : tp < s.next) :
    s.removeTimerFromList tp = (true,s.setHead (s.slot tp) ((s.lisTlistHeads (s.slot tp)).erase tp)) :=
  if_pos (hp.slot tp hlt)

/- Taking an entry off its list and entering it again. -/
def relist (s : Timers) (tp : ℕ) (e : Tlist) : Timers :=
  ((s.setHead (s.slot tp) ((s.lisTlistHeads (s.slot tp)).erase tp)).setEnt tp e).enterTimerInList tp

theorem Placed.relist_moved (hp : s.Placed) (hlt : tp < s.next) (e : Tlist) : Moved s (s.relist tp e) tp e := by
  refine ⟨rfl,fun k => ?_,by simp only [relist,enterTimerInList,setHead,setEnt]; omega⟩
  have hself : ((s.setHead (s.slot tp) ((s.lisTlistHeads (s.slot tp)).erase tp)).setEnt tp e).slot tp =
      e.handle % THASH := by simp [Timers.slot,setEnt]
  have hold : ((s.setHead (s.slot tp) ((s.lisTlistHeads (s.slot tp)).erase tp)).setEnt tp e).lisTlistHeads k =
      (s.lisTlistHeads k).erase tp := by
    by_cases hk : k = s.slot tp
    · simp [hk,setHead,setEnt]
    · simp [hk,setHead,setEnt,hp.erase_heads hk]
  rw [relist,enterTimerInList,hself]
  by_cases hk : k = e.handle % THASH
  · subst hk
    simp only [setHead,Function.update_self,if_true]
    exact congrArg _ hold
  · simp only [setHead,Function.update_of_ne hk,if_neg hk]
    exact hold

theorem findTimerByHandle_some (h : s.findTimerByHandle id = some tp) :
    tp ∈ s.lisTlistHeads (id % THASH) ∧ (s.ent tp).handle = id :=
  ⟨List.mem_of_find?_eq_some h,by simpa using List.find?_some h⟩

theorem Placed.findTimerByHandle_none (hp : s.Placed) (h : s.findTimerByHandle id = none) :
    ∀ tp < s.next, (s.ent tp).handle ≠ id := by
  intro tp hlt he
  have hm : tp ∈ s.lisTlistHeads (id % THASH) := he ▸ hp.slot tp hlt
  exact absurd he (by simpa using List.find?_eq_none.mp h tp hm)

theorem allocHandle_some {n : ℕ} {c : BitVec 32} {r : BitVec 32 × ℕ} (h : s.allocHandle n c = some r) :
    r.2 % THASH ≠ 0 ∧ s.findTimerByHandle r.2 = none := by
  induction n generalizing c with
  | zero => cases h
  | succ n ih =>
    simp only [allocHandle] at h
    split_ifs at h with hc
    · exact Option.some.inj h ▸ hc
    · exact ih h

/- `alloc_timer` gives the first free entry, or a new one. -/
theorem allocTimer_some (hp : s.Placed) (h : s.allocTimer alloc = some (tp,u)) :
    tp ≤ s.next ∧ (s.lisTlistHeads 0 = [] ∧ tp = s.next ∨ ∃ l, s.lisTlistHeads 0 = tp :: l) ∧
      u.next = max s.next (tp + 1) ∧ (∀ k, u.lisTlistHeads k = (s.lisTlistHeads k).erase tp) ∧
      u = { s with next := u.next, lisTlistHeads := u.lisTlistHeads } := by
  unfold allocTimer at h
  cases hl : s.lisTlistHeads 0 with
  | nil =>
    simp only [hl,Option.ite_none_right_eq_some,Option.some.injEq,Prod.mk.injEq] at h
    obtain ⟨-,rfl,rfl⟩ := h
    refine ⟨le_rfl,.inl ⟨rfl,rfl⟩,by simp,fun k => ?_,rfl⟩
    exact (List.erase_of_not_mem fun hm => absurd (hp.mem k _ hm).1 (lt_irrefl _)).symm
  | cons x l =>
    simp only [hl,Option.some.injEq,Prod.mk.injEq] at h
    obtain ⟨rfl,rfl⟩ := h
    obtain ⟨hlt,h0⟩ := hp.mem 0 x (hl ▸ List.mem_cons_self ..)
    refine ⟨hlt.le,.inr ⟨l,rfl⟩,by simp only [setHead]; omega,fun k => ?_,rfl⟩
    by_cases hk : k = 0
    · simp [hk,setHead,hl]
    · simp [setHead,hk,hp.erase_heads (h0 ▸ hk)]

/- What `lis_timeout_fcn` does up to `lis_tmout`. -/
theorem lisTimeoutFcn_some (hp : s.Placed) (h : s.lisTimeoutFcn fcn arg alloc = some t) :
    t = s ∨ ∃ tp handle, tp ≤ s.next ∧ (s.lisTlistHeads 0 = [] ∧ tp = s.next ∨ ∃ l, s.lisTlistHeads 0 = tp :: l) ∧
      handle % THASH ≠ 0 ∧ s.Usable handle ∧ Moved s t tp ⟨handle,fcn,arg,s.handles.length⟩ ∧
      t.starting = (tp,s.handles.length) :: s.starting ∧ t.handles = s.handles ++ [handle] ∧
      t.armed = s.armed ∧ t.handlers = s.handlers ∧ t.calls = s.calls ∧ t.log = s.log := by
  unfold lisTimeoutFcn at h
  cases ha : s.allocTimer alloc with
  | none => simp only [ha,Option.some.injEq] at h; exact .inl h.symm
  | some x =>
    obtain ⟨tp,u⟩ := x
    obtain ⟨hle,hfree,hnext,hheads,hu⟩ := allocTimer_some hp ha
    simp only [ha,Option.map_eq_some_iff] at h
    obtain ⟨⟨c,handle⟩,hr,rfl⟩ := h
    obtain ⟨h0,hf⟩ := allocHandle_some hr
    have hent : u.ent = s.ent := by rw [hu]
    -- the entry that was taken hashes to list 0, if it is not new
    have hne : ∀ tq < s.next, (s.ent tq).handle = handle → tq ≠ tp := by
      rintro tq hq he rfl
      rcases hfree with ⟨-,rfl⟩ | ⟨l,hl⟩
      · exact lt_irrefl _ hq
      · exact h0 (he ▸ (hp.mem 0 tq (hl ▸ List.mem_cons_self ..)).2)
    have huse : ∀ tq < s.next, (s.ent tq).handle ≠ handle := by
      intro tq hq he
      have hm : tq ∈ u.lisTlistHeads (handle % THASH) := by
        rw [hheads]
        exact (hp.nodup _).mem_erase_iff.mpr ⟨hne tq hq he,he ▸ hp.slot tq hq⟩
      exact absurd (hent ▸ he) (by simpa using List.find?_eq_none.mp hf tq hm)
    refine .inr ⟨tp,handle,hle,hfree,h0,⟨fun h => absurd h h0,fun _ => huse⟩,⟨?_,fun k => ?_,hnext⟩,?_⟩
    · rw [hu]
      rfl
    · have hself : ∀ v : Timers, v.ent tp = ⟨handle,fcn,arg,s.handles.length⟩ → v.slot tp = handle % THASH := by
        intro v hv
        rw [Timers.slot,hv]
      rw [enterTimerInList,hself _ (by rw [hu]; exact Function.update_self ..)]
      by_cases hk : k = handle % THASH
      · subst hk
        simp only [setHead,Function.update_self,if_true]
        exact congrArg _ (hheads _)
      · simp only [setHead,Function.update_of_ne hk,if_neg hk]
        exact hheads k
    · rw [hu]
      exact ⟨rfl,rfl,rfl,rfl,rfl,rfl⟩

theorem setHead_ent {l : List ℕ} : (s.setHead k l).ent = s.ent := rfl

/- What a handler does under the lock. -/
theorem sysTimeoutFcn_eq (tmr : ℕ) (hp : s.Placed) (hlt : tp < s.next) : ∃ calls,
    s.sysTimeoutFcn tp tmr =
      { s.relist tp { s.ent tp with handle := 0, fcn := none } with calls := s.calls ++ calls } ∧
      (calls = [] ∨ ∃ f, (s.ent tp).handle ≠ 0 ∧ calls = [⟨f,(s.ent tp).arg,(s.ent tp).reg,tmr⟩]) := by
  simp only [sysTimeoutFcn,hp.remove hlt,setHead_ent]
  cases hf : (s.ent tp).fcn with
  | none => exact ⟨[],by simp [relist,enterTimerInList,setEnt,setHead],.inl rfl⟩
  | some f =>
    by_cases h0 : (s.ent tp).handle = 0
    · exact ⟨[],by simp [h0,relist,enterTimerInList,setEnt,setHead],.inl rfl⟩
    · exact ⟨_,by simp [h0,relist,enterTimerInList,setEnt,setHead],.inr ⟨f,h0,rfl⟩⟩

/- What `lis_untimeout` does. -/
theorem lisUntimeout_eq (hp : s.Placed) :
    ((∀ tp < s.next, (s.ent tp).handle ≠ id) ∧
        s.lisUntimeout id = { s with log := s.log ++ (s.regsOf id).map .cancelled }) ∨
      ∃ tp < s.next, (s.ent tp).handle = id ∧ s.lisUntimeout id =
        { s.relist tp { s.ent tp with handle := 0 } with
          armed := Function.update s.armed tp none
          log := s.log ++ (s.regsOf id).map .cancelled } := by
  unfold lisUntimeout
  cases hf : s.findTimerByHandle id with
  | none => exact .inl ⟨hp.findTimerByHandle_none hf,rfl⟩
  | some tp =>
    obtain ⟨hmem,hid⟩ := findTimerByHandle_some hf
    have hlt := (hp.mem _ tp hmem).1
    simp only [hp.remove hlt]
    exact .inr ⟨tp,hlt,hid,rfl⟩

end CSLiS.Timeout.Timers
