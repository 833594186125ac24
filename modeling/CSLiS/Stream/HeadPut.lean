import CSLiS.Lib.Crew
import CSLiS.Lib.Exec

/-!
# References to a stream head (head/head.c)

`lis_head_put` reads the count, takes one off it, and tears the stream down if it has read 1. No lock joins
the reading and the decrement, contrary to the comment before the routine.
-/

namespace CSLiS.Stream
open Lib.Crew Lib.Exec

/- Where a task is in `lis_head_put`: it has `read` the count, it has `dropped` its reference. -/
inductive Pplace
  | idle
  | read (tearDown : Bool)
  | dropped (tearDown : Bool)
  deriving DecidableEq, Repr

def Pplace.isTearing : Pplace → Bool
  | .dropped true => true
  | _ => false

structure Holder where
  held : ℕ
  place : Pplace
  deriving DecidableEq, Repr

def Holder.isTearing (h : Holder) : Bool := h.place.isTearing

/- `tornDown` counts the calls of `lis_tear_down_stream`. -/
structure HeadRefs where
  sdRefcnt : ℤ
  tornDown : ℕ
  tasks : List Holder
  deriving DecidableEq, Repr

/- With `get i j` the new reference is for task `j`. -/
inductive PutAct
  | get (i j : ℕ)
  | read (i : ℕ)
  | dec (i : ℕ)
  | done (i : ℕ)

namespace HeadRefs

variable (s : HeadRefs)

def init (held : List ℕ) : HeadRefs := ⟨held.sum,0,held.map fun n => ⟨n,.idle⟩⟩

def set (i : ℕ) (h : Holder) : HeadRefs := { s with tasks := s.tasks.set i h }

/-- `lis_head_get` and `lis_head_put` (`head.c:667-759`). -/
def step : PutAct → Option HeadRefs
  | .get i j =>
      match s.tasks[i]?, s.tasks[j]? with
      | some a, some b =>
          if a.place = .idle ∧ 0 < a.held then
            some ({ s with sdRefcnt := s.sdRefcnt + 1 }.set j { b with held := b.held + 1 })
          else none
      | _, _ => none
  | .read i =>
      match s.tasks[i]? with
      | some a =>
          if a.place = .idle ∧ 0 < a.held then some (s.set i { a with place := .read (s.sdRefcnt = 1) }) else none
      | none => none
  | .dec i =>
      match s.tasks[i]? with
      | some ⟨n,.read tearDown⟩ => some ({ s with sdRefcnt := s.sdRefcnt - 1 }.set i ⟨n - 1,.dropped tearDown⟩)
      | _ => none
  | .done i =>
      match s.tasks[i]? with
      | some ⟨n,.dropped tearDown⟩ => some ({ s with tornDown := s.tornDown + tearDown.toNat }.set i ⟨n,.idle⟩)
      | _ => none

/- The references that are held. -/
def held : ℕ := total Holder.held s.tasks

/-- The stream is torn down once, when the last reference has been dropped. -/
structure TornOnce (s : HeadRefs) : Prop where
  once : s.tornDown ≤ 1
  unheld : 0 < s.tornDown → s.held = 0
  last : s.held = 0 → (∀ a ∈ s.tasks, a.place = .idle) → s.tornDown = 1

/- The count does not come to 1 between another value being read and the decrement. -/
def Guard (s : HeadRefs) : PutAct → Prop
  | .dec i => ∀ a ∈ s.tasks[i]?, a.place = .read false → s.sdRefcnt ≠ 1
  | _ => True

instance decGuard (s : HeadRefs) : ∀ a, Decidable (s.Guard a)
  | .dec i => inferInstanceAs (Decidable (∀ a ∈ s.tasks[i]?, a.place = .read false → s.sdRefcnt ≠ 1))
  | .get .. | .read _ | .done _ => inferInstanceAs (Decidable True)

/- The teardowns that were decided on. -/
def tears : ℕ := s.tornDown + tally Holder.isTearing s.tasks

structure Inv (s : HeadRefs) : Prop where
  count : s.sdRefcnt = s.held
  tears : s.tears = if s.held = 0 then 1 else 0
  holds : ∀ (k : ℕ) (a : Holder) (b : Bool), s.tasks[k]? = some a → a.place = .read b → 0 < a.held
  only : ∀ (k : ℕ) (a : Holder), s.tasks[k]? = some a → a.place = .read true → s.held = 1

variable {s t : HeadRefs} {i : ℕ} {a b : Holder} {act : PutAct}

/- The invariant after a step of task `i`, which goes from `a` to `b`. -/
theorem Inv.moved (hi : s.Inv) (ha : s.tasks[i]? = some a) (ht : t.tasks = s.tasks.set i b)
    (hcount : t.sdRefcnt + a.held = s.sdRefcnt + b.held)
    (htears : t.tornDown + b.isTearing.toNat + (if s.held = 0 then 1 else 0) =
      s.tornDown + a.isTearing.toNat + if t.held = 0 then 1 else 0)
    (hholds : ∀ c, b.place = .read c → 0 < b.held) (honly : b.place = .read true → t.held = 1)
    (hrest : ∀ k x, k ≠ i → s.tasks[k]? = some x → x.place = .read true → t.held = 1) : t.Inv := by
  have h1 := total_set ha b Holder.held
  have h2 := tally_set ha b Holder.isTearing
  obtain ⟨i1,i2,i3,i4⟩ := hi
  rw [← ht] at h1 h2
  simp only [HeadRefs.tears,HeadRefs.held] at i1 i2 htears ⊢
  refine ⟨?_,?_,?_,?_⟩
  · simp only [HeadRefs.held]
    omega
  · simp only [HeadRefs.tears,HeadRefs.held]
    omega
  · intro k x c hx hc
    rw [ht] at hx
    rcases set_cases hx with ⟨-,rfl⟩ | ⟨-,hx⟩
    · exact hholds c hc
    · exact i3 k x c hx hc
  · intro k x hx hc
    rw [ht] at hx
    rcases set_cases hx with ⟨-,rfl⟩ | ⟨hk,hx⟩
    · exact honly hc
    · exact hrest k x hk hx hc

/- No other task has read 1 when one has a reference. -/
theorem Inv.none_read (hi : s.Inv) (ha : s.tasks[i]? = some a) (hpos : 0 < a.held) {k : ℕ} {x : Holder} (hk : k ≠ i)
    (hx : s.tasks[k]? = some x) : x.place ≠ .read true := by
  intro hc
  have htwo : x.held + a.held ≤ s.held := add_le_total hx ha hk
  have h1 := hi.holds k x true hx hc
  have h2 := hi.only k x hx hc
  omega

theorem step_inv (hi : s.Inv) (hg : s.Guard act) (h : s.step act = some t) : t.Inv := by
  cases act with
  | get i j =>
    simp only [step] at h
    split at h
    next a b ha hb =>
      simp only [Option.ite_none_right_eq_some,Option.some.injEq] at h
      obtain ⟨⟨hp,hpos⟩,rfl⟩ := h
      have hheld := total_set hb { b with held := b.held + 1 } Holder.held
      have hle : a.held ≤ s.held := le_total ha
      have hmore : s.held + 1 = held ({ s with sdRefcnt := s.sdRefcnt + 1 }.set j { b with held := b.held + 1 }) := by
        simp only [held,set] at hheld ⊢
        omega
      have hnone : ∀ (k : ℕ) x, s.tasks[k]? = some x → x.place ≠ .read true := by
        intro k x hx
        by_cases hk : k = i
        · subst hk
          obtain rfl := Option.some.inj (ha.symm.trans hx)
          rw [hp]
          exact nofun
        · exact hi.none_read ha hpos hk hx
      refine hi.moved (s := s) hb rfl ?_ ?_ (fun c _ => Nat.succ_pos _) ?_ ?_
      · simp only [set]
        push_cast
        omega
      · rw [← hmore,if_neg (by omega),if_neg (by omega)]
        rfl
      · exact fun hc => absurd hc (hnone j b hb)
      · exact fun k x _ hx hc => absurd hc (hnone k x hx)
    next => cases h
  | read i =>
    simp only [step] at h
    split at h
    next a ha =>
      simp only [Option.ite_none_right_eq_some,Option.some.injEq] at h
      obtain ⟨⟨hp,hpos⟩,rfl⟩ := h
      have hheld := total_set ha { a with place := .read (s.sdRefcnt = 1) } Holder.held
      have hsame : held (s.set i { a with place := .read (s.sdRefcnt = 1) }) = s.held := by
        simp only [held,set] at hheld ⊢
        omega
      have hplace : a.isTearing = false := by rw [Holder.isTearing,hp]; rfl
      refine hi.moved (s := s) ha rfl rfl ?_ (fun c _ => hpos) ?_ ?_
      · rw [hsame,hplace]
        rfl
      · intro hc
        have hone : s.sdRefcnt = 1 := of_decide_eq_true (Pplace.read.inj hc)
        have := hi.count
        omega
      · exact fun k x _ hx hc => hsame.trans (hi.only k x hx hc)
    next => cases h
  | dec i =>
    simp only [step] at h
    split at h
    next n tearDown ha =>
      obtain rfl := Option.some.inj h
      have hpos : 0 < n := hi.holds i _ tearDown ha rfl
      have hle : n ≤ s.held := le_total (f := Holder.held) ha
      have hheld := total_set ha ⟨n - 1,.dropped tearDown⟩ Holder.held
      have hless : held ({ s with sdRefcnt := s.sdRefcnt - 1 }.set i ⟨n - 1,.dropped tearDown⟩) + 1 = s.held := by
        simp only [held,set] at hheld ⊢
        omega
      have hcount := hi.count
      refine hi.moved (s := s) ha rfl ?_ ?_ nofun nofun ?_
      · simp only [set]
        omega
      · cases tearDown with
        | true =>
          have hone := hi.only i _ ha rfl
          rw [if_neg (by omega),if_pos (by omega)]
          rfl
        | false =>
          have hmore := hg _ ha rfl
          rw [if_neg (by omega),if_neg (by omega)]
          rfl
      · exact fun k x hk hx hc => absurd hc (hi.none_read ha hpos hk hx)
    next => cases h
  | done i =>
    simp only [step] at h
    split at h
    next n tearDown ha =>
      obtain rfl := Option.some.inj h
      have hheld := total_set ha ⟨n,.idle⟩ Holder.held
      have hsame : held ({ s with tornDown := s.tornDown + tearDown.toNat }.set i ⟨n,.idle⟩) = s.held := by
        simp only [held,set] at hheld ⊢
        omega
      refine hi.moved (s := s) ha rfl rfl ?_ nofun nofun ?_
      · rw [hsame]
        cases tearDown <;> rfl
      · exact fun k x _ hx hc => hsame.trans (hi.only k x hx hc)
    next => cases h

theorem init_inv (held : List ℕ) (hpos : 0 < held.sum) : (init held).Inv := by
  have hidle : ∀ (k : ℕ) a, (init held).tasks[k]? = some a → a.place = .idle := by
    intro k a ha
    obtain ⟨n,-,rfl⟩ := List.mem_map.mp (List.mem_of_getElem? ha)
    rfl
  have hheld : (init held).held = held.sum := by
    simp only [HeadRefs.held,init,total,List.map_map,Function.comp_def,List.map_id']
  have htears : (init held).tears = 0 := by
    simp only [HeadRefs.tears,init,tally,List.countP_map,Function.comp_def,Holder.isTearing,Pplace.isTearing]
    simp
  refine ⟨?_,?_,?_,?_⟩
  · rw [hheld]
    rfl
  · rw [htears,hheld,if_neg (by omega)]
  · intro k a b ha hb
    rw [hidle k a ha] at hb
    cases hb
  · intro k a ha hb
    rw [hidle k a ha] at hb
    cases hb

/-- In a run in which the count does not come to 1 between a put's reading of another value and its decrement,
the stream is torn down once, when the last reference has been dropped. -/
theorem run_torn_once {held : List ℕ} {as : List PutAct} (hpos : 0 < held.sum) (hm : Meets step Guard (init held) as)
    (h : exec step (init held) as = some t) : t.TornOnce := by
  obtain ⟨h1,h2,h3,h4⟩ : t.Inv := exec_preserves (fun _ _ _ => step_inv) (init_inv held hpos) hm h
  have hle : t.tears ≤ 1 := by
    rw [h2]
    split_ifs <;> omega
  refine ⟨?_,?_,?_⟩
  · rw [tears] at hle
    omega
  · intro htorn
    by_contra hne
    rw [tears,if_neg hne] at h2
    omega
  · intro hz hidle
    have hnone : tally Holder.isTearing t.tasks = 0 := by
      refine List.countP_eq_zero.mpr fun x hx hc => ?_
      rw [Holder.isTearing,hidle x hx] at hc
      cases hc
    rw [tears,if_pos hz,hnone] at h2
    exact h2

/- Three references of two tasks. One gets a fourth for the other, which drops it first. -/
theorem run_torn_once_two : ∃ t, exec step (init [2,1]) [.get 0 1,.read 1,.dec 1,.done 1,.read 0,.dec 0,.read 1,.done 0,
    .dec 1,.done 1,.read 0,.dec 0,.done 0] = some t ∧ t.TornOnce := by
  refine Exists.imp (fun t ht => ⟨ht,run_torn_once (by decide) ?_ ht⟩) (Option.isSome_iff_exists.mp rfl)
  decide

/- Two tasks read 2 before either of them takes its reference off. -/
theorem never_torn_down : ¬ ∀ held as t, 0 < held.sum → exec step (init held) as = some t → t.TornOnce := by
  intro h
  have hlast := (h [1,1] [.read 0,.read 1,.dec 0,.dec 1,.done 0,.done 1] _ (by decide) rfl).last
  exact absurd (hlast (by decide) (by decide)) (by decide)

end HeadRefs

end CSLiS.Stream
