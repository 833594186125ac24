import CSLiS.Lib.Exec

/-!
# Who owns the lock of a queue (head/queue.c)

`lis_set_q_sync` gives the two halves of a queue pair their `lis_q_sync_t`. What `lis_free_q_sync` frees is
decided from the option that was stored last. The structures that were allocated are numbered, `freed` has
those that were freed, in order. A half is named by whether it is the read side.
-/

namespace CSLiS.Queue
open Lib.Exec

inductive QlockOption
  | none
  | queue
  | queuePair
  | global
  | other
  deriving DecidableEq, Repr

inductive Qsp
  | lisQueueSync
  | alloced (n : ℕ)
  deriving DecidableEq, Repr

/- Both halves have the same option. -/
structure QSyncs where
  qQsp : Bool → Option Qsp
  qQlockOption : QlockOption
  allocs : ℕ
  freed : List Qsp

/- A call of `lis_set_q_sync` on a half, and whether memory is there for the first and the second allocation. -/
structure SetQSync where
  half : Bool
  option : QlockOption
  mem : Bool
  mem2 : Bool
  deriving DecidableEq, Repr

namespace QSyncs

def ENOMEM : ℤ := 12

/- The queue pair in `lis_allocq` after the `memset`. -/
def init : QSyncs := ⟨fun _ => none,.none,0,[]⟩

variable (s : QSyncs)

def setQsp (q : Bool) (p : Option Qsp) : QSyncs := { s with qQsp := Function.update s.qQsp q p }

def free (p : Option Qsp) : QSyncs := { s with freed := s.freed ++ p.toList }

/-- `lis_free_q_sync` (`queue.c:1867-1899`). -/
def lisFreeQSync (q : Bool) : QSyncs :=
  let origqsp := s.qQsp q
  let origoqsp := s.qQsp (!q)
  let s1 := (s.setQsp q none).setQsp (!q) none
  let s2 := match s.qQlockOption with
    | .queue => (s1.free origoqsp).free origqsp
    | .queuePair => s1.free origqsp
    | _ => s1
  { s2 with qQlockOption := .other }

/- `if (q->q_qsp == NULL)` and the allocation. -/
def alloc (q mem : Bool) : QSyncs :=
  if s.qQsp q = none ∧ mem then { s with allocs := s.allocs + 1 }.setQsp q (some (.alloced s.allocs)) else s

/- The other half gives up a structure of its own. -/
def freeOther (q : Bool) : QSyncs :=
  if s.qQsp (!q) ≠ none ∧ s.qQsp (!q) ≠ s.qQsp q then (s.setQsp (!q) none).free (s.qQsp (!q)) else s

/- Both halves are to have the structure of one. -/
def share (q mem : Bool) : ℤ × QSyncs :=
  let s2 := s.alloc q mem
  if s2.qQsp q = none then (-ENOMEM,s2) else (0,{ s2.setQsp (!q) (s2.qQsp q) with qQlockOption := .queuePair })

/-- `lis_set_q_sync` (`queue.c:1901-1987`). -/
def lisSetQSync (c : SetQSync) : ℤ × QSyncs :=
  let q := c.half
  match c.option with
  | .none => (0,{ ((s.lisFreeQSync q).setQsp q none).setQsp (!q) none with qQlockOption := .none })
  | .queuePair => (s.freeOther q).share q c.mem
  | .global =>
      (0,{ ((s.lisFreeQSync q).setQsp q (some .lisQueueSync)).setQsp (!q) (some .lisQueueSync) with
        qQlockOption := .global })
  | .queue | .other =>
      let s2 := (s.alloc q c.mem).alloc (!q) c.mem2
      if s2.qQsp q = none ∨ s2.qQsp (!q) = none then
        (-ENOMEM,(((s2.free (s2.qQsp q)).free (s2.qQsp (!q))).setQsp q none).setQsp (!q) none)
      else (0,{ s2 with qQlockOption := .queue })

def step (c : SetQSync) : Option QSyncs := some (s.lisSetQSync c).2

/- What the two halves have with an option. -/
def Shape : QlockOption → Prop
  | .none => ∀ b, s.qQsp b = none
  | .queue | .other => ∃ m n, m ≠ n ∧ s.qQsp true = some (.alloced m) ∧ s.qQsp false = some (.alloced n)
  | .queuePair => ∃ n, ∀ b, s.qQsp b = some (.alloced n)
  | .global => ∀ b, s.qQsp b = some .lisQueueSync

/- Whether the structure is with the queue pair. -/
def has (n : ℕ) : Bool := s.qQsp true = some (.alloced n) || s.qQsp false = some (.alloced n)

/- Every structure that was allocated is with the queue pair or was freed, once, and the global one was not freed. -/
structure Owned (s : QSyncs) : Prop where
  global : Qsp.lisQueueSync ∉ s.freed
  ledger : ∀ n, (s.has n).toNat + s.freed.count (.alloced n) = if n < s.allocs then 1 else 0

/- The halves do not share a structure when each is to have its own, and do not have the global one when they are
to share their own. -/
def Guard (s : QSyncs) (c : SetQSync) : Prop :=
  match c.option with
  | .queue | .other => s.qQsp true = none ∨ s.qQsp true ≠ s.qQsp false
  | .queuePair => s.qQsp true ≠ some .lisQueueSync
  | _ => True

structure Inv (s : QSyncs) : Prop where
  owned : s.Owned
  shape : (∀ b, s.qQsp b = none) ∨ s.qQlockOption ≠ .other ∧ s.Shape s.qQlockOption

variable {s} {q mem : Bool} {c : SetQSync} {n : ℕ} {t : QSyncs} {p : Option Qsp}

theorem has_eq (q : Bool) : s.has n = (s.qQsp q = some (.alloced n) || s.qQsp (!q) = some (.alloced n)) := by
  cases q with
  | true => rfl
  | false => exact Bool.or_comm ..

/- A structure that neither half has from now on is freed, and those that only it had. -/
theorem Owned.freed (ho : s.Owned) (ha : t.allocs = s.allocs) {x : List Qsp} (hf : t.freed = s.freed ++ x)
    (hg : Qsp.lisQueueSync ∉ x) (hx : ∀ n, (t.has n).toNat + x.count (.alloced n) = (s.has n).toNat) : t.Owned := by
  refine ⟨?_,?_⟩
  · rw [hf,List.mem_append,not_or]
    exact ⟨ho.global,hg⟩
  · intro n
    have hl := ho.ledger n
    have hn := hx n
    rw [hf,List.count_append,ha]
    omega

/- What `lis_free_q_sync` frees. -/
def lisFreed (s : QSyncs) (q : Bool) : List Qsp :=
  match s.qQlockOption with
  | .queue => (s.qQsp (!q)).toList ++ (s.qQsp q).toList
  | .queuePair => (s.qQsp q).toList
  | _ => []

theorem lisFreeQSync_spec (s : QSyncs) (q : Bool) : (∀ b, (s.lisFreeQSync q).qQsp b = none) ∧
    (s.lisFreeQSync q).allocs = s.allocs ∧ (s.lisFreeQSync q).freed = s.freed ++ s.lisFreed q := by
  refine ⟨?_,?_,?_⟩
  · intro b
    simp only [lisFreeQSync]
    cases s.qQlockOption <;> cases q <;> cases b <;> rfl
  · simp only [lisFreeQSync]
    cases s.qQlockOption <;> rfl
  · simp only [lisFreeQSync,lisFreed]
    cases s.qQlockOption <;> simp [free,setQsp]

/- What the two halves can have, one half first. -/
theorem Inv.halves (hi : s.Inv) (q : Bool) :
    (s.qQsp q = none ∧ s.qQsp (!q) = none) ∨
    (s.qQlockOption = .queue ∧ ∃ m n, m ≠ n ∧ s.qQsp q = some (.alloced m) ∧ s.qQsp (!q) = some (.alloced n)) ∨
    (s.qQlockOption = .queuePair ∧ ∃ n, s.qQsp q = some (.alloced n) ∧ s.qQsp (!q) = some (.alloced n)) ∨
    (s.qQlockOption = .global ∧ s.qQsp q = some .lisQueueSync ∧ s.qQsp (!q) = some .lisQueueSync) := by
  rcases hi.shape with h | ⟨hne,h⟩
  · exact Or.inl ⟨h q,h !q⟩
  · cases ho : s.qQlockOption with
    | none =>
      rw [ho] at h
      exact Or.inl ⟨h q,h !q⟩
    | queue =>
      rw [ho] at h
      obtain ⟨m,n,hmn,h1,h2⟩ := h
      refine Or.inr (Or.inl ⟨rfl,?_⟩)
      cases q with
      | true => exact ⟨m,n,hmn,h1,h2⟩
      | false => exact ⟨n,m,hmn.symm,h2,h1⟩
    | queuePair =>
      rw [ho] at h
      obtain ⟨n,h⟩ := h
      exact Or.inr (Or.inr (Or.inl ⟨rfl,n,h q,h !q⟩))
    | global =>
      rw [ho] at h
      exact Or.inr (Or.inr (Or.inr ⟨rfl,h q,h !q⟩))
    | other => exact absurd ho hne

/- `lis_free_q_sync` frees what the halves have of their own, each structure once. -/
theorem Inv.lisFreed (hi : s.Inv) (q : Bool) : Qsp.lisQueueSync ∉ s.lisFreed q ∧
    ∀ n, (s.lisFreed q).count (.alloced n) = (s.has n).toNat := by
  simp only [has_eq q,QSyncs.lisFreed]
  rcases hi.halves q with ⟨h1,h2⟩ | ⟨ho,m,n,hmn,h1,h2⟩ | ⟨ho,n,h1,h2⟩ | ⟨ho,h1,h2⟩
  · rw [h1,h2]
    cases s.qQlockOption <;> simp
  · rw [ho,h1,h2]
    refine ⟨by simp,fun k => ?_⟩
    by_cases hm : m = k
    · subst hm
      simp [Ne.symm hmn]
    · simp [hm,List.count_cons,Bool.toNat,Bool.cond_decide]
  · rw [ho,h1,h2]
    refine ⟨by simp,fun k => ?_⟩
    by_cases hm : n = k <;> simp [hm]
  · rw [ho,h1,h2]
    simp

theorem free_owned (hi : s.Inv) (q : Bool) : (s.lisFreeQSync q).Owned := by
  obtain ⟨h1,h2,h3⟩ := lisFreeQSync_spec s q
  obtain ⟨hg,hc⟩ := hi.lisFreed q
  refine hi.owned.freed h2 h3 hg fun n => ?_
  have hnone : (s.lisFreeQSync q).has n = false := by simp [has,h1]
  rw [hnone,hc]
  exact Nat.zero_add _

theorem Owned.same (ho : s.Owned) (ha : t.allocs = s.allocs) (hf : t.freed = s.freed) (hh : ∀ n, t.has n = s.has n) :
    t.Owned :=
  ho.freed (x := []) ha (by rw [hf,List.append_nil]) nofun fun n => by rw [hh]; rfl

@[simp] theorem setQsp_self (q : Bool) (p : Option Qsp) : (s.setQsp q p).qQsp q = p := Function.update_self ..

@[simp] theorem setQsp_not (q : Bool) (p : Option Qsp) : (s.setQsp q p).qQsp (!q) = s.qQsp (!q) :=
  Function.update_of_ne (by cases q <;> decide) ..

@[simp] theorem setQsp_of_not (q : Bool) (p : Option Qsp) : (s.setQsp (!q) p).qQsp q = s.qQsp q :=
  Function.update_of_ne (by cases q <;> decide) ..

theorem alloc_self (q mem : Bool) : (s.alloc q mem).qQsp q =
    if s.qQsp q = none ∧ mem then some (.alloced s.allocs) else s.qQsp q := by
  simp only [alloc]
  split_ifs <;> simp

theorem alloc_not (q mem : Bool) : (s.alloc q mem).qQsp (!q) = s.qQsp (!q) := by
  simp only [alloc]
  split_ifs <;> simp

theorem Owned.alloc (ho : s.Owned) (q mem : Bool) : (s.alloc q mem).Owned := by
  simp only [QSyncs.alloc]
  split_ifs with h
  · refine ⟨ho.global,fun n => ?_⟩
    have hl := ho.ledger n
    rw [has_eq q,h.1] at hl
    rw [has_eq q]
    simp only [setQsp_self,setQsp_not]
    simp only [setQsp] at hl ⊢
    by_cases hn : n = s.allocs
    · subst hn
      simp at hl ⊢
      omega
    · have hne : s.allocs ≠ n := Ne.symm hn
      simp [hne] at hl ⊢
      rw [hl]
      split_ifs <;> omega
  · exact ho

/- The structures of a pair of which one half has none are freed. -/
theorem Owned.drop (ho : s.Owned) (hd : s.qQsp q = none ∨ s.qQsp (!q) = none)
    (hg : s.qQsp q ≠ some .lisQueueSync ∧ s.qQsp (!q) ≠ some .lisQueueSync) :
    ((((s.free (s.qQsp q)).free (s.qQsp (!q))).setQsp q none).setQsp (!q) none).Owned := by
  refine ho.freed (x := (s.qQsp q).toList ++ (s.qQsp (!q)).toList) rfl (List.append_assoc ..) ?_ fun n => ?_
  · simp [hg]
  · rw [has_eq q,has_eq q,setQsp_self,setQsp_of_not,setQsp_self]
    rcases hd with h | h <;> rw [h]
    · cases s.qQsp (!q) <;> simp [List.count_cons,Bool.toNat,Bool.cond_decide]
    · cases s.qQsp q <;> simp [List.count_cons,Bool.toNat,Bool.cond_decide]

theorem both {P : Bool → Prop} (q : Bool) (h : P q) (h' : P (!q)) (b : Bool) : P b := by
  cases q <;> cases b <;> assumption

/- The two halves have nothing, or each its own structure: both have one afterwards if there is memory. -/
theorem alloc_two (hi : s.Inv) (hg : s.qQsp true = none ∨ s.qQsp true ≠ s.qQsp false) (q mem mem2 : Bool) :
    let s2 := (s.alloc q mem).alloc (!q) mem2
    (s2.qQsp q = none ∨ s2.qQsp (!q) = none) ∧ s2.qQsp q ≠ some .lisQueueSync ∧ s2.qQsp (!q) ≠ some .lisQueueSync ∨
      ∃ m n, m ≠ n ∧ s2.qQsp q = some (.alloced m) ∧ s2.qQsp (!q) = some (.alloced n) := by
  intro s2
  have h1 : s2.qQsp q = (s.alloc q mem).qQsp q := by
    have hn := alloc_not (s := s.alloc q mem) (!q) mem2
    rwa [Bool.not_not] at hn
  have h2 : s2.qQsp (!q) = if s.qQsp (!q) = none ∧ mem2 then some (.alloced (s.alloc q mem).allocs) else s.qQsp (!q) := by
    rw [alloc_self,alloc_not]
  rw [h1,h2,alloc_self]
  have hshared : ∀ p, s.qQsp q = some p → s.qQsp (!q) = some p → False := by
    intro p hq ho
    have hb := both (P := fun b => s.qQsp b = some p) q hq ho
    rw [hb true,hb false] at hg
    exact hg.elim nofun fun h => h rfl
  rcases hi.halves q with ⟨hq,ho⟩ | ⟨-,m,n,hmn,hq,ho⟩ | ⟨-,n,hq,ho⟩ | ⟨-,hq,ho⟩
  · rw [hq,ho]
    cases mem <;> cases mem2 <;> simp [QSyncs.alloc,setQsp,hq]
  · rw [hq,ho]
    simp [hmn]
  · exact (hshared _ hq ho).elim
  · exact (hshared _ hq ho).elim

theorem set_queue_inv (hi : s.Inv) (hg : s.qQsp true = none ∨ s.qQsp true ≠ s.qQsp false)
    (hc : c.option = .queue ∨ c.option = .other) :
    (s.lisSetQSync c).2.Inv ∧ ((s.lisSetQSync c).1 = 0 → (s.lisSetQSync c).2.Shape .queue) := by
  have hdef : s.lisSetQSync c = let s2 := (s.alloc c.half c.mem).alloc (!c.half) c.mem2
      if s2.qQsp c.half = none ∨ s2.qQsp (!c.half) = none then
        (-ENOMEM,(((s2.free (s2.qQsp c.half)).free (s2.qQsp (!c.half))).setQsp c.half none).setQsp (!c.half) none)
      else (0,{ s2 with qQlockOption := .queue }) := by
    rcases hc with h | h <;> simp only [lisSetQSync,h]
  have htwo := alloc_two hi hg c.half c.mem c.mem2
  have ho := (hi.owned.alloc c.half c.mem).alloc (!c.half) c.mem2
  rw [hdef]
  simp only
  rcases htwo with ⟨hn,hgl⟩ | ⟨m,n,hmn,h1,h2⟩
  · rw [if_pos hn]
    refine ⟨⟨ho.drop hn hgl,Or.inl ?_⟩,nofun⟩
    exact both c.half (by simp) (by simp)
  · rw [if_neg (by simp [h1,h2])]
    have hs : ((s.alloc c.half c.mem).alloc (!c.half) c.mem2).Shape .queue := by
      cases hq : c.half with
      | true =>
        rw [hq] at h1 h2
        exact ⟨m,n,hmn,h1,h2⟩
      | false =>
        rw [hq] at h1 h2
        exact ⟨n,m,hmn.symm,h2,h1⟩
    exact ⟨⟨ho.same rfl rfl fun _ => rfl,Or.inr ⟨nofun,hs⟩⟩,fun _ => hs⟩

/- A half keeps its structure, the other one has none or the same. -/
theorem share_inv (ho : s.Owned) (mem : Bool) (hq : s.qQsp q = some (.alloced n))
    (hn : s.qQsp (!q) = none ∨ s.qQsp (!q) = some (.alloced n)) :
    (s.share q mem).2.Inv ∧ (s.share q mem).2.Shape .queuePair := by
  have hkeep : s.alloc q mem = s := if_neg (by rw [hq]; simp)
  have hpair : ∀ b, (s.setQsp (!q) (s.qQsp q)).qQsp b = some (.alloced n) :=
    both q (by rw [setQsp_of_not,hq]) (by rw [setQsp_self,hq])
  simp only [share,hkeep]
  rw [if_neg (by rw [hq]; exact nofun)]
  refine ⟨⟨ho.same rfl rfl fun k => ?_,Or.inr ⟨nofun,n,hpair⟩⟩,n,hpair⟩
  rw [has_eq q,has_eq (s := s) q]
  rcases hn with hn | hn <;> simp [hq,hn]

/- Neither half has a structure. -/
theorem share_none (hi : s.Inv) (mem : Bool) (hq : s.qQsp q = none) (hn : s.qQsp (!q) = none) :
    (s.share q mem).2.Inv ∧ ((s.share q mem).1 = 0 → (s.share q mem).2.Shape .queuePair) := by
  cases mem with
  | true =>
    have ha := alloc_self (s := s) q true
    have hno := (alloc_not (s := s) q true).trans hn
    simp only [hq,and_true,if_true] at ha
    have hkeep : (s.alloc q true).alloc q true = s.alloc q true := if_neg (by rw [ha]; simp)
    obtain ⟨hinv,hshape⟩ := share_inv (hi.owned.alloc q true) true ha (Or.inl hno)
    simp only [share,hkeep] at hinv hshape
    exact ⟨hinv,fun _ => hshape⟩
  | false =>
    have hsame : s.alloc q false = s := if_neg (by simp)
    simp only [share,hsame]
    rw [if_pos hq]
    exact ⟨hi,nofun⟩

theorem set_pair_inv (hi : s.Inv) (hg : s.qQsp true ≠ some .lisQueueSync) (q mem : Bool) :
    ((s.freeOther q).share q mem).2.Inv ∧
      (((s.freeOther q).share q mem).1 = 0 → ((s.freeOther q).share q mem).2.Shape .queuePair) := by
  rcases hi.halves q with ⟨hq,ho⟩ | ⟨-,m,n,hmn,hq,ho⟩ | ⟨-,n,hq,ho⟩ | ⟨-,hq,ho⟩
  · rw [freeOther,if_neg (by rw [ho]; simp)]
    exact share_none hi mem hq ho
  · have hq1 : ((s.setQsp (!q) none).free (some (.alloced n))).qQsp q = some (.alloced m) :=
      (setQsp_of_not q none).trans hq
    have hn1 : ((s.setQsp (!q) none).free (some (.alloced n))).qQsp (!q) = none := setQsp_self ..
    have hfreed : ((s.setQsp (!q) none).free (some (.alloced n))).Owned := by
      refine hi.owned.freed (x := [.alloced n]) rfl rfl (by simp) fun k => ?_
      rw [has_eq q,has_eq (s := s) q,hq1,hn1,hq,ho]
      by_cases hk : m = k
      · subst hk
        simp [Ne.symm hmn]
      · simp [hk,List.count_cons,Bool.toNat,Bool.cond_decide]
    rw [freeOther,ho,hq,if_pos (by simp [Ne.symm hmn])]
    obtain ⟨hinv,hshape⟩ := share_inv hfreed mem hq1 (Or.inl hn1)
    exact ⟨hinv,fun _ => hshape⟩
  · rw [freeOther,if_neg (by rw [ho,hq]; simp)]
    obtain ⟨hinv,hshape⟩ := share_inv hi.owned mem hq (Or.inr ho)
    exact ⟨hinv,fun _ => hshape⟩
  · exact absurd (both (P := fun b => s.qQsp b = some .lisQueueSync) q hq ho true) hg

theorem set_inv (hi : s.Inv) (hg : s.Guard c) :
    (s.lisSetQSync c).2.Inv ∧ ((s.lisSetQSync c).1 = 0 → (s.lisSetQSync c).2.Shape c.option) := by
  simp only [Guard] at hg
  have hf := free_owned hi c.half
  obtain ⟨h1,-,-⟩ := lisFreeQSync_spec s c.half
  have hfree : ∀ n, (s.lisFreeQSync c.half).has n = false := by simp [has,h1]
  cases hc : c.option with
  | none =>
    have hnone : ∀ b, (((s.lisFreeQSync c.half).setQsp c.half none).setQsp (!c.half) none).qQsp b = none :=
      both c.half (by simp) (by simp)
    simp only [lisSetQSync,hc]
    refine ⟨⟨hf.same rfl rfl fun n => ?_,Or.inl hnone⟩,fun _ => hnone⟩
    rw [hfree,has_eq c.half]
    simp [hnone]
  | queue =>
    rw [hc] at hg
    exact set_queue_inv hi hg (Or.inl hc)
  | queuePair =>
    rw [hc] at hg
    simp only [lisSetQSync,hc]
    exact set_pair_inv hi hg c.half c.mem
  | global =>
    have hglob : ∀ b, (((s.lisFreeQSync c.half).setQsp c.half (some .lisQueueSync)).setQsp (!c.half)
        (some .lisQueueSync)).qQsp b = some .lisQueueSync := both c.half (by simp) (by simp)
    simp only [lisSetQSync,hc]
    refine ⟨⟨hf.same rfl rfl fun n => ?_,Or.inr ⟨nofun,hglob⟩⟩,fun _ => hglob⟩
    rw [hfree,has_eq c.half]
    simp [hglob]
  | other =>
    rw [hc] at hg
    exact set_queue_inv hi hg (Or.inr hc)

theorem init_inv : init.Inv := ⟨⟨nofun,fun _ => by simp [init,has]⟩,Or.inl fun _ => rfl⟩

/-- Structures are freed once and not used then, the global one is not freed, and nothing that was allocated is
left when the queue pair is freed. -/
structure OwnedOnce (s : QSyncs) : Prop where
  nodup : s.freed.Nodup
  unused : ∀ b p, s.qQsp b = some p → p ∉ s.freed
  global : Qsp.lisQueueSync ∉ s.freed
  freeq : ∀ q, Qsp.lisQueueSync ∉ (s.lisFreeQSync q).freed ∧
    ∀ n, (s.lisFreeQSync q).freed.count (.alloced n) = if n < s.allocs then 1 else 0

theorem Inv.ownedOnce (hi : s.Inv) : s.OwnedOnce := by
  have hle : ∀ n, (s.has n).toNat + s.freed.count (.alloced n) ≤ 1 := by
    intro n
    rw [hi.owned.ledger n]
    split_ifs <;> omega
  refine ⟨?_,?_,hi.owned.global,fun q => ?_⟩
  · rw [List.nodup_iff_count_le_one]
    intro p
    cases p with
    | lisQueueSync => exact (List.count_eq_zero.mpr hi.owned.global).trans_le (Nat.zero_le 1)
    | alloced n => exact (Nat.le_add_left ..).trans (hle n)
  · intro b p hp
    cases p with
    | lisQueueSync => exact hi.owned.global
    | alloced n =>
      have hhas : s.has n = true := by simp [has_eq b,hp]
      have hn := hle n
      rw [hhas] at hn
      exact List.count_eq_zero.mp (Nat.le_zero.mp (Nat.le_of_add_le_add_left hn))
  · have ho := free_owned hi q
    obtain ⟨h1,h2,-⟩ := lisFreeQSync_spec s q
    refine ⟨ho.global,fun n => ?_⟩
    have hl := ho.ledger n
    have hnone : (s.lisFreeQSync q).has n = false := by simp [has,h1]
    rw [hnone,h2] at hl
    exact (Nat.zero_add _).symm.trans hl

instance decGuard (s : QSyncs) : ∀ c, Decidable (s.Guard c)
  | ⟨_,.queue,_,_⟩ | ⟨_,.other,_,_⟩ => inferInstanceAs (Decidable (s.qQsp true = none ∨ s.qQsp true ≠ s.qQsp false))
  | ⟨_,.queuePair,_,_⟩ => inferInstanceAs (Decidable (s.qQsp true ≠ some .lisQueueSync))
  | ⟨_,.none,_,_⟩ | ⟨_,.global,_,_⟩ => inferInstanceAs (Decidable True)

/-- After every run of calls (the first one being that of `lis_allocq`) in which no half that is to have its own
structure shares one, and the halves that are to share one do not have the global one. -/
theorem run_owned_once {cs : List SetQSync} (hm : Meets step Guard init cs) (h : exec step init cs = some s) :
    s.OwnedOnce ∧ ∀ c, s.Guard c → (s.lisSetQSync c).1 = 0 → (s.lisSetQSync c).2.Shape c.option := by
  have hi : s.Inv := exec_preserves (fun _ _ _ hi hg hs => Option.some.inj hs ▸ (set_inv hi hg).1) init_inv hm h
  exact ⟨hi.ownedOnce,fun c hg => (set_inv hi hg).2⟩

theorem run_owned_once_options : ∃ s, exec step init [⟨true,.queue,true,true⟩,⟨false,.queuePair,false,false⟩,
    ⟨true,.none,true,true⟩,⟨true,.queuePair,true,false⟩,⟨false,.global,true,true⟩,⟨true,.none,true,true⟩,
    ⟨true,.other,true,false⟩] = some s ∧ s.OwnedOnce ∧
      ∀ c, s.Guard c → (s.lisSetQSync c).1 = 0 → (s.lisSetQSync c).2.Shape c.option := by
  refine Exists.imp (fun s hs => ⟨hs,run_owned_once ?_ hs⟩) (Option.isSome_iff_exists.mp rfl)
  decide

/- GLOBAL and then QUEUE: the queue pair keeps the global structure and frees it at the end. -/
theorem global_freed : ¬ ∀ cs s, exec step init cs = some s → s.OwnedOnce := by
  intro h
  have hf := (h [⟨true,.queue,true,true⟩,⟨true,.global,true,true⟩,⟨true,.queue,true,true⟩] _ rfl).freeq true
  exact hf.1 (by decide)

end QSyncs

end CSLiS.Queue
