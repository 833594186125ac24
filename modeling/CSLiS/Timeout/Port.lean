import CSLiS.Lib.Exec

/-!
# The portable timer list (head/port-mdep.c)

While a timer function runs, `entered` is set and any call may be made, also by the function itself; when it returns,
the loop in `port_announce_time` goes on. `clock` is the time announced altogether. A timer is given a number each time
it is added, and `due` is the time at which it is to be called; these and what was called and deleted are only there to
be spoken about.
-/

namespace CSLiS.Timeout.Port
open Lib.Exec

/- `struct timer_list` -/
structure Timer where
  id : ℕ
  tdelta : BitVec 64
  nr : ℕ
  due : ℕ
  deriving DecidableEq, Repr

/- A call of a timer function, and the time then. -/
structure Fired where
  nr : ℕ
  due : ℕ
  time : ℕ
  deriving DecidableEq, Repr

structure Timers where
  list : List Timer
  milliSecs : BitVec 64
  entered : Bool
  clock : ℕ
  added : ℕ
  fired : List Fired
  deleted : List ℕ
  deriving DecidableEq, Repr

inductive TimerCall
  | addTimer (id : ℕ) (tdelta : BitVec 64)
  | delTimer (id : ℕ)
  | announceTime (newMilliSecs : ℕ)
  | back
  deriving DecidableEq, Repr

/- Where the loop of `port_add_timer` puts a timer. -/
def place (t : Timer) : List Timer → List Timer
  | [] => [t]
  | p :: l =>
      if p.tdelta < t.tdelta then p :: place { t with tdelta := t.tdelta - p.tdelta } l
      else t :: { p with tdelta := p.tdelta - t.tdelta } :: l

/- The entry of a timer, and the list without it. -/
def delink (id : ℕ) : List Timer → Option (Timer × List Timer)
  | [] => none
  | p :: l =>
      if p.id = id then some (p,match l with
        | [] => []
        | q :: l => { q with tdelta := q.tdelta + p.tdelta } :: l)
      else (delink id l).map fun r => (r.1,p :: r.2)

namespace Timers

variable (s : Timers)

def init : Timers := ⟨[],0,false,0,0,[],[]⟩

/-- `port_add_timer` (`port-mdep.c:160-190`) -/
def addTimer (id : ℕ) (tdelta : BitVec 64) : Timers :=
  if id ∈ s.list.map Timer.id then s
  else { s with
    list := place ⟨id,tdelta,s.added,s.clock + tdelta.toNat⟩ s.list
    added := s.added + 1 }

/- One round of the loop in `port_announce_time`: the first timer is called, or the loop ends. -/
def turn : Timers :=
  match s.list with
  | [] => { s with entered := false }
  | p :: l =>
      if p.tdelta ≤ s.milliSecs then { s with
        milliSecs := s.milliSecs - p.tdelta
        list := l
        fired := s.fired ++ [⟨p.nr,p.due,s.clock⟩] }
      else { s with entered := false }

/-- `port_announce_time` (`port-mdep.c:248-305`) up to the first call of a timer function -/
def announceTime (newMilliSecs : ℕ) : Timers :=
  let s := { s with
    milliSecs := s.milliSecs + BitVec.ofNat 64 newMilliSecs
    clock := s.clock + newMilliSecs }
  if s.list = [] then { s with milliSecs := 0 }
  else if s.entered then s
  else { s with entered := true }.turn

/-- `port_del_timer` (`port-mdep.c:195-234`) -/
def delTimer (id : ℕ) : Timers :=
  match delink id s.list with
  | none => s
  | some (p,l) =>
      let s := { s with list := l, deleted := p.nr :: s.deleted }
      if l = [] then s.announceTime 0 else s

/- An amount is a long; a function returns when one was called. -/
def step (s : Timers) : TimerCall → Option Timers
  | .addTimer id tdelta => some (s.addTimer id tdelta)
  | .delTimer id => some (s.delTimer id)
  | .announceTime newMilliSecs => if newMilliSecs < 2 ^ 63 then some (s.announceTime newMilliSecs) else none
  | .back => if s.entered then some s.turn else none

/-! ### What is claimed -/

/- The `tdelta` fields up to a timer add up to the time until it is due and what is saved up of the time announced. -/
structure Sound : Prop where
  sums : ∀ a p b, s.list = a ++ p :: b →
    ((a ++ [p]).map fun t => t.tdelta.toNat).sum + s.clock = p.due + s.milliSecs.toNat
  once : (s.list.map Timer.nr ++ s.fired.map Fired.nr ++ s.deleted).Perm (List.range s.added)
  never : ∀ f ∈ s.fired, f.due ≤ f.time
  order : s.fired.Pairwise fun f g => f.due ≤ g.due

/- After an announcement every timer that was due has been called. -/
def Done (t : Timers) : TimerCall → Prop
  | .announceTime _ | .back => t.entered = false → ∀ p ∈ t.list, t.clock < p.due
  | _ => True

/-- No announced time is left over when a timer is added, and what is saved up does not run over. -/
def Guard (s : Timers) : TimerCall → Prop
  | .addTimer _ _ => s.milliSecs = 0
  | .announceTime newMilliSecs => s.milliSecs.toNat + newMilliSecs < 2 ^ 64
  | _ => True

instance (s : Timers) (call : TimerCall) : Decidable (Guard s call) :=
  match call with
  | .addTimer _ _ => inferInstanceAs (Decidable (s.milliSecs = 0))
  | .announceTime n => inferInstanceAs (Decidable (s.milliSecs.toNat + n < 2 ^ 64))
  | .delTimer _ | .back => isTrue trivial

end Timers

/-! ### Times and differences -/

/- From `base` on each `tdelta` is the time from the timer before until this one is due. -/
def Spaced (base : ℕ) : List Timer → Prop
  | [] => True
  | p :: l => p.due = base + p.tdelta.toNat ∧ Spaced p.due l

variable {base id : ℕ} {t p : Timer} {l l' a b : List Timer} {s s' : Timers} {call : TimerCall}

theorem toNat_sub_of_le {x y : BitVec 64} (h : y.toNat ≤ x.toNat) : (x - y).toNat = x.toNat - y.toNat :=
  BitVec.toNat_sub_of_le (BitVec.le_def.mpr h)

theorem place_spaced (h : Spaced base l) (ht : t.due = base + t.tdelta.toNat) : Spaced base (place t l) := by
  induction l generalizing base t with
  | nil => exact ⟨ht,trivial⟩
  | cons p l ih =>
    obtain ⟨hp,hl⟩ := h
    unfold place
    split_ifs with hlt
    · have hlt := BitVec.lt_def.mp hlt
      refine ⟨hp,ih hl ?_⟩
      rw [toNat_sub_of_le hlt.le]
      dsimp only
      omega
    · have hle : t.tdelta.toNat ≤ p.tdelta.toNat := not_lt.mp fun hc => hlt (BitVec.lt_def.mpr hc)
      refine ⟨ht,?_,hl⟩
      rw [toNat_sub_of_le hle]
      dsimp only
      omega

/- What of a timer does not change. -/
def Timer.key (t : Timer) : ℕ × ℕ × ℕ := (t.nr,t.due,t.id)

theorem place_perm (t : Timer) (l : List Timer) : ((place t l).map Timer.key).Perm (t.key :: l.map Timer.key) := by
  induction l generalizing t with
  | nil => exact List.Perm.refl _
  | cons p l ih =>
    unfold place
    split_ifs
    · refine ((ih _).cons _).trans ?_
      exact List.Perm.swap ..
    · exact List.Perm.refl _

theorem Spaced.le (h : Spaced base l) : ∀ p ∈ l, base ≤ p.due := by
  induction l generalizing base with
  | nil => exact fun p hp => absurd hp List.not_mem_nil
  | cons q l ih =>
    obtain ⟨hq,hl⟩ := h
    intro p hp
    rcases List.mem_cons.mp hp with rfl | hp
    · omega
    · have := ih hl p hp
      omega

/- Up to a timer the differences add up to when it is due. -/
theorem Spaced.sum (h : Spaced base (a ++ p :: b)) :
    base + ((a ++ [p]).map fun t => t.tdelta.toNat).sum = p.due := by
  induction a generalizing base with
  | nil =>
    have := h.1
    simp
    omega
  | cons q a ih =>
    obtain ⟨hq,hl⟩ := h
    have := ih hl
    simp only [List.cons_append,List.map_cons,List.sum_cons] at this ⊢
    omega

theorem delink_spaced (h : Spaced base l) (hnear : ∀ q ∈ l, q.due < base + 2 ^ 64)
    (hd : delink id l = some (p,l')) : Spaced base l' ∧ (l.map Timer.key).Perm (p.key :: l'.map Timer.key) := by
  induction l generalizing base l' with
  | nil => cases hd
  | cons q l ih =>
    obtain ⟨hq,hl⟩ := h
    unfold delink at hd
    split_ifs at hd with hid
    · obtain ⟨rfl,rfl⟩ := Prod.mk.inj (Option.some.inj hd)
      cases l with
      | nil => exact ⟨trivial,List.Perm.refl _⟩
      | cons r l =>
        refine ⟨⟨?_,hl.2⟩,List.Perm.refl _⟩
        have hr := hl.1
        have hlt := hnear r (List.mem_cons_of_mem _ (List.mem_cons_self ..))
        rw [BitVec.toNat_add_of_lt (by omega)]
        dsimp only
        omega
    · obtain ⟨⟨x,m⟩,hx,heq⟩ := Option.map_eq_some_iff.mp hd
      obtain ⟨rfl,rfl⟩ := Prod.mk.inj heq
      obtain ⟨hm,hperm⟩ := ih hl (fun r hr => by
        have := hnear r (List.mem_cons_of_mem _ hr)
        omega) hx
      exact ⟨⟨hq,hm⟩,(hperm.cons q.key).trans (List.Perm.swap ..)⟩

theorem mem_key (hp : (l.map Timer.key).Perm m) {q : Timer} (hq : q ∈ l) : q.key ∈ m :=
  hp.mem_iff.mp (List.mem_map_of_mem hq)

/-! ### Calls -/

/- `milliSecs` is what was announced since the time from which the differences count. -/
structure Inv (s : Timers) : Prop where
  behind : s.milliSecs.toNat ≤ s.clock
  spaced : Spaced (s.clock - s.milliSecs.toNat) s.list
  near : ∀ p ∈ s.list, p.due < s.clock - s.milliSecs.toNat + 2 ^ 64
  past : ∀ f ∈ s.fired, f.due ≤ s.clock - s.milliSecs.toNat
  never : ∀ f ∈ s.fired, f.due ≤ f.time
  order : s.fired.Pairwise fun f g => f.due ≤ g.due
  once : (s.list.map Timer.nr ++ s.fired.map Fired.nr ++ s.deleted).Perm (List.range s.added)

theorem Inv.sound (h : Inv s) : s.Sound := by
  refine ⟨fun a p b hab => ?_,h.once,h.never,h.order⟩
  have hsum := (hab ▸ h.spaced).sum
  have := h.behind
  omega

theorem init_inv : Inv Timers.init := by
  refine ⟨le_refl _,trivial,?_,?_,?_,List.Pairwise.nil,List.Perm.refl _⟩
  all_goals exact fun _ hx => absurd hx List.not_mem_nil

theorem turn_cases (s : Timers) :
    (∃ p l, s.list = p :: l ∧ p.tdelta ≤ s.milliSecs ∧ s.turn = { s with
      milliSecs := s.milliSecs - p.tdelta, list := l, fired := s.fired ++ [⟨p.nr,p.due,s.clock⟩] }) ∨
    (∀ p l, s.list = p :: l → ¬ p.tdelta ≤ s.milliSecs) ∧ s.turn = { s with entered := false } := by
  unfold Timers.turn
  split
  · rename_i hl
    refine Or.inr ⟨fun p l hc => ?_,rfl⟩
    cases hl.symm.trans hc
  · rename_i p l hl
    split_ifs with hle
    · exact Or.inl ⟨p,l,hl,hle,rfl⟩
    · refine Or.inr ⟨fun q m hq => ?_,rfl⟩
      obtain ⟨rfl,rfl⟩ := List.cons.inj (hl.symm.trans hq)
      exact hle

/- The first timer is due when its difference is not more than what is saved up. -/
theorem turn_inv (h : Inv s) : Inv s.turn := by
  rcases turn_cases s with ⟨p,l,hl,hle,heq⟩ | ⟨-,heq⟩
  · rw [heq]
    obtain ⟨hb,hsp,hnear,hpast,hnever,horder,honce⟩ := h
    rw [hl] at hsp hnear honce
    obtain ⟨hp,hsp⟩ := hsp
    have hle := BitVec.le_def.mp hle
    have hbase : s.clock - (s.milliSecs - p.tdelta).toNat = p.due := by
      rw [toNat_sub_of_le hle]
      omega
    have hpb : ∀ f ∈ s.fired, f.due ≤ p.due := fun f hf => by
      have := hpast f hf
      omega
    constructor
    · rw [toNat_sub_of_le hle]
      dsimp only
      omega
    · rw [hbase]
      exact hsp
    · intro q hq
      have := hnear q (List.mem_cons_of_mem _ hq)
      rw [hbase]
      omega
    · intro f hf
      rw [hbase]
      rcases List.mem_append.mp hf with hf | hf
      · exact hpb f hf
      · rw [List.mem_singleton.mp hf]
    · intro f hf
      rcases List.mem_append.mp hf with hf | hf
      · exact hnever f hf
      · rw [List.mem_singleton.mp hf]
        dsimp only
        omega
    · refine List.pairwise_append.mpr ⟨horder,List.pairwise_singleton _ _,fun f hf g hg => ?_⟩
      rw [List.mem_singleton.mp hg]
      exact hpb f hf
    · refine List.Perm.trans ?_ honce
      simp only [List.map_append,List.map_cons,List.map_nil,List.cons_append,List.append_assoc]
      rw [← List.append_assoc]
      refine List.perm_middle.trans ?_
      rw [List.append_assoc,List.nil_append]
  · rw [heq]
    exact ⟨h.behind,h.spaced,h.near,h.past,h.never,h.order,h.once⟩

/- When the loop ends no timer is due. -/
theorem turn_done (h : Inv s) (he : s.entered = true) (hl : s.turn.entered = false) :
    ∀ p ∈ s.turn.list, s.turn.clock < p.due := by
  rcases turn_cases s with ⟨p,l,-,-,heq⟩ | ⟨hno,heq⟩
  · rw [heq] at hl
    exact absurd (he.symm.trans hl) Bool.noConfusion
  · rw [heq]
    dsimp only
    intro p hp
    have hsp := h.spaced
    have hb := h.behind
    cases hlist : s.list with
    | nil =>
      rw [hlist] at hp
      cases hp
    | cons q l =>
      have hq : ¬ q.tdelta.toNat ≤ s.milliSecs.toNat := fun hc => hno q l hlist (BitVec.le_def.mpr hc)
      rw [hlist] at hsp hp
      obtain ⟨hdue,hsp⟩ := hsp
      rcases List.mem_cons.mp hp with rfl | hp
      · omega
      · have := hsp.le p hp
        omega

theorem announce_inv {n : ℕ} (h : Inv s) (hg : s.milliSecs.toNat + n < 2 ^ 64) : Inv (s.announceTime n) ∧
    ((s.announceTime n).entered = false → ∀ p ∈ (s.announceTime n).list, (s.announceTime n).clock < p.due) := by
  have hn : (BitVec.ofNat 64 n).toNat = n := by
    rw [BitVec.toNat_ofNat]
    exact Nat.mod_eq_of_lt (by omega)
  have hsum : (s.milliSecs + BitVec.ofNat 64 n).toNat = s.milliSecs.toNat + n := by
    rw [BitVec.toNat_add_of_lt (by omega),hn]
  have hb := h.behind
  have hbase : s.clock + n - (s.milliSecs + BitVec.ofNat 64 n).toNat = s.clock - s.milliSecs.toNat := by
    rw [hsum]
    omega
  unfold Timers.announceTime
  dsimp only
  split_ifs with hempty he
  · refine ⟨⟨Nat.zero_le _,?_,?_,fun f hf => ?_,h.never,h.order,h.once⟩,?_⟩
    · rw [hempty]
      trivial
    · rw [hempty]
      exact fun p hp => absurd hp List.not_mem_nil
    · have := h.past f hf
      simp
      omega
    · rw [hempty]
      exact fun _ p hp => absurd hp List.not_mem_nil
  · refine ⟨⟨?_,?_,?_,?_,h.never,h.order,h.once⟩,fun hc => absurd (he.symm.trans hc) Bool.noConfusion⟩
    · dsimp only
      omega
    all_goals dsimp only
    all_goals rw [hbase]
    · exact h.spaced
    · exact h.near
    · exact h.past
  · have hinv : Inv { s with
        milliSecs := s.milliSecs + BitVec.ofNat 64 n, clock := s.clock + n, entered := true } := by
      refine ⟨?_,?_,?_,?_,h.never,h.order,h.once⟩
      · dsimp only
        omega
      all_goals dsimp only
      all_goals rw [hbase]
      · exact h.spaced
      · exact h.near
      · exact h.past
    exact ⟨turn_inv hinv,turn_done hinv rfl⟩

/- A timer is added when nothing is left over. -/
theorem add_inv {tdelta : BitVec 64} (h : Inv s) (hg : s.milliSecs = 0) : Inv (s.addTimer id tdelta) := by
  unfold Timers.addTimer
  split_ifs with hid
  · exact h
  have h0 : s.milliSecs.toNat = 0 := by rw [hg]; rfl
  have hperm := place_perm ⟨id,tdelta,s.added,s.clock + tdelta.toNat⟩ s.list
  obtain ⟨hb,hsp,hnear,hpast,hnever,horder,honce⟩ := h
  refine ⟨hb,place_spaced hsp ?_,fun p hp => ?_,hpast,hnever,horder,?_⟩
  · dsimp only
    omega
  · have hlt := tdelta.isLt
    rcases List.mem_cons.mp (mem_key hperm hp) with hk | hk
    · have hdue : p.due = s.clock + tdelta.toNat := congrArg (fun k => k.2.1) hk
      dsimp only
      omega
    · obtain ⟨q,hq,hk⟩ := List.mem_map.mp hk
      have hdue : q.due = p.due := congrArg (fun k => k.2.1) hk
      have := hnear q hq
      dsimp only
      omega
  · have hnr : ((place ⟨id,tdelta,s.added,s.clock + tdelta.toNat⟩ s.list).map Timer.nr).Perm
        (s.added :: s.list.map Timer.nr) := by
      simpa [Timer.key,Function.comp_def] using hperm.map Prod.fst
    dsimp only
    rw [List.range_succ]
    refine ((hnr.append_right _).append_right _).trans ?_
    exact (honce.cons _).trans (List.perm_append_singleton _ _).symm

theorem del_inv (h : Inv s) : Inv (s.delTimer id) := by
  unfold Timers.delTimer
  split
  · exact h
  · rename_i p l hd
    obtain ⟨hsp,hperm⟩ := delink_spaced h.spaced h.near hd
    have hinv : Inv { s with list := l, deleted := p.nr :: s.deleted } := by
      refine ⟨h.behind,hsp,fun q hq => ?_,h.past,h.never,h.order,?_⟩
      · have hm : q.key ∈ s.list.map Timer.key :=
          hperm.mem_iff.mpr (List.mem_cons_of_mem _ (List.mem_map_of_mem hq))
        obtain ⟨r,hr,hk⟩ := List.mem_map.mp hm
        have hdue : r.due = q.due := congrArg (fun k => k.2.1) hk
        have := h.near r hr
        dsimp only
        omega
      · have hnr : (s.list.map Timer.nr).Perm (p.nr :: l.map Timer.nr) := by
          simpa [Timer.key,Function.comp_def] using hperm.map Prod.fst
        exact (List.perm_middle.trans ((hnr.append_right _).append_right _).symm).trans h.once
    split_ifs with hl
    · exact (announce_inv hinv (by have := s.milliSecs.isLt; dsimp only; omega)).1
    · exact hinv

theorem call_inv (h : Inv s) (hg : s.Guard call) (hs : s.step call = some s') : Inv s' ∧ Timers.Done s' call := by
  cases call with
  | addTimer id tdelta =>
    obtain rfl := Option.some.inj hs
    exact ⟨add_inv h hg,trivial⟩
  | delTimer id =>
    obtain rfl := Option.some.inj hs
    exact ⟨del_inv h,trivial⟩
  | announceTime n =>
    simp only [Timers.step,Option.ite_none_right_eq_some,Option.some.injEq] at hs
    obtain ⟨-,rfl⟩ := hs
    exact announce_inv h hg
  | back =>
    simp only [Timers.step,Option.ite_none_right_eq_some,Option.some.injEq] at hs
    obtain ⟨he,rfl⟩ := hs
    exact ⟨turn_inv h,turn_done h he⟩

/-- In every run in which timers are only added when no announced time is left over: each timer is listed, called or
deleted once, it is never called early and they are called in the order of their times, the differences add up, and no
announcement ends before all that are due were called. -/
theorem timers_on_time (calls : List TimerCall) (s : Timers)
    (hguard : Meets Timers.step Timers.Guard Timers.init calls) (h : exec Timers.step Timers.init calls = some s) :
    s.Sound ∧ ∀ call s', s.Guard call → s.step call = some s' → s'.Done call := by
  have hinv : Inv s := exec_preserves (fun _ _ _ hi hg hs => (call_inv hi hg hs).1) init_inv hguard h
  exact ⟨hinv.sound,fun call s' hg hs => (call_inv hinv hg hs).2⟩

/- The first timer's function adds the second one again when just its own time was announced. -/
def nestedTimers : List TimerCall :=
  [.addTimer 0 100,.addTimer 1 250,.addTimer 2 250,.announceTime 60,.delTimer 2,.announceTime 40,.addTimer 0 100,
    .announceTime 50,.back,.announceTime 150,.back]

theorem timers_on_time_nested : ∃ s, exec Timers.step Timers.init nestedTimers = some s ∧ s.Sound ∧
    ∀ call s', s.Guard call → s.step call = some s' → s'.Done call := by
  have hsome : (exec Timers.step Timers.init nestedTimers).isSome := by decide
  obtain ⟨s,hs⟩ := Option.isSome_iff_exists.mp hsome
  exact ⟨s,hs,timers_on_time nestedTimers s (by decide) hs⟩

/- A timer that is added when 50 of the last announcement are left over is called 10 too early. -/
theorem left_over : ¬ ∀ (calls : List TimerCall) (s : Timers), exec Timers.step Timers.init calls = some s →
    s.Sound ∧ ∀ call s', s.step call = some s' → s'.Done call := by
  intro hall
  have hrun : (exec Timers.step Timers.init [.addTimer 0 100,.announceTime 150,.back,.addTimer 1 60,
      .announceTime 10]).map Timers.fired = some [⟨0,100,150⟩,⟨1,210,160⟩] := by decide
  obtain ⟨s,hs,heq⟩ := Option.map_eq_some_iff.mp hrun
  have := (hall _ s hs).1.never ⟨1,210,160⟩ (by rw [heq]; decide)
  exact absurd this (by decide)

end CSLiS.Timeout.Port
