import CSLiS.Bufcall.Entries
import CSLiS.Lib.Exec

/-!
# What the bufcall table keeps (head/buffcall.c)

An entry is free, queued, or being initialised by one task. `lis_dobufcall` is entered by one
task at a time, as the timer is not started again before it is through. So an entry has its
callback running only if that task called it. `lis_unbufcall` removes what it found before it
waited: the table survives that if the entry is still queued, alone under the same id and not called.
-/

namespace CSLiS.Bufcall
open Lib Exec

namespace Phase

def newId : Phase → Option Bcid
  | .alloc _ _ id => some id
  | .fill _ _ _ id => some id
  | _ => none

def filling : Phase → Option ℕ
  | .fill b _ _ _ => some b
  | _ => none

def calling : Phase → Option ℕ
  | .callout b _ => some b
  | _ => none

def removal : Phase → Option (ℕ × Bcid)
  | .waited b bcid _ => some (b,bcid)
  | _ => none

/- The timer is not running, and not to be started by others. -/
def runs : Phase → Bool
  | .tmout => true
  | .callout _ _ => true
  | _ => false

theorem calling_none {p : Phase} (h : p.runs = false) : p.calling = none := by
  cases p <;> simp_all [runs,calling]

theorem runs_of_calling {p : Phase} {b : ℕ} (h : p.calling = some b) : p.runs = true := by
  cases p <;> simp_all [runs,calling]

end Phase

namespace BcTable

variable {s u : BcTable} {b h f arg t n i : ℕ} {id : Bcid} {p : Phase} {free free' : List ℕ} {q q' : ℕ → List ℕ}

def Listed (free : List ℕ) (q : ℕ → List ℕ) (b : ℕ) : Prop := b ∈ free ∨ ∃ h, b ∈ q h

/- The callback of a queued entry is running. -/
def Busy (s : BcTable) (q : ℕ → List ℕ) (b : ℕ) : Prop := (∃ h, b ∈ q h) ∧ (s.bc b).state = .callout

structure Fills (s : BcTable) (free : List ℕ) (q : ℕ → List ℕ) : Prop where
  newId : ∀ t, (s.tasks t).newId ≠ some 0
  apart : ∀ t b, (s.tasks t).filling = some b → b < s.brk ∧ ¬ Listed free q b
  alone : ∀ t u b, (s.tasks t).filling = some b → (s.tasks u).filling = some b → t = u
  cover : ∀ b < s.brk, Listed free q b ∨ ∃ t, (s.tasks t).filling = some b

structure Runner (s : BcTable) : Prop where
  timer : s.lisBctl = true ∨ s.lisStrbcflag = true ∨ (∃ t, (s.tasks t).runs = true) → s.lisStrbctimer = true
  flag : s.lisBctl = true → s.lisStrbcflag = false
  task : ∀ t, (s.tasks t).runs = true → s.lisBctl = false ∧ s.lisStrbcflag = false
  alone : ∀ t u, (s.tasks t).runs = true → (s.tasks u).runs = true → t = u

structure Inv (s : BcTable) (free : List ℕ) (q : ℕ → List ℕ) : Prop where
  entries : s.Entries free q
  fills : s.Fills free q
  calls : ∀ b, (∃ t, (s.tasks t).calling = some b) ↔ s.Busy q b
  runner : s.Runner

/-! ### One task moves -/

theorem Fills.move (hf : s.Fills free q) (ht : u.tasks = Function.update s.tasks t p) (hbrk : u.brk = s.brk)
    (hnew : p.newId ≠ some 0) (hp : p.filling = none)
    (hl : ∀ x, Listed free' q' x ↔ Listed free q x ∨ (s.tasks t).filling = some x) : u.Fills free' q' := by
  have hother : ∀ v x, (u.tasks v).filling = some x → v ≠ t ∧ (s.tasks v).filling = some x := by
    intro v x hx
    rw [ht] at hx
    by_cases hv : v = t
    · subst hv
      simp [hp] at hx
    · exact ⟨hv,by simpa [hv] using hx⟩
  refine ⟨fun v => ?_,fun v x hx => ?_,fun v w x hv hw => ?_,fun x hx => ?_⟩
  · rw [ht]
    by_cases hv : v = t
    · subst hv
      simpa using hnew
    · simpa [hv] using hf.newId v
  · obtain ⟨hv,hx⟩ := hother v x hx
    rw [hbrk]
    refine ⟨(hf.apart v x hx).1,fun hm => ?_⟩
    rcases (hl x).mp hm with hm | hm
    · exact (hf.apart v x hx).2 hm
    · exact hv (hf.alone v t x hx hm)
  · exact hf.alone v w x (hother v x hv).2 (hother w x hw).2
  · rw [hbrk] at hx
    rcases hf.cover x hx with hm | ⟨v,hv⟩
    · exact .inl ((hl x).mpr (.inl hm))
    · by_cases he : v = t
      · exact .inl ((hl x).mpr (.inr (he ▸ hv)))
      · exact .inr ⟨v,by simpa [ht,he] using hv⟩

theorem Runner.move (hr : s.Runner) (ht : u.tasks = Function.update s.tasks t p) (hp : p.runs = false)
    (hc : u.lisBctl = s.lisBctl) (hf : u.lisStrbcflag = s.lisStrbcflag)
    (hm : u.lisStrbctimer = s.lisStrbctimer) : u.Runner := by
  have hother : ∀ v, (u.tasks v).runs = true → (s.tasks v).runs = true := by
    intro v hv
    rw [ht] at hv
    by_cases he : v = t
    · subst he
      simp [hp] at hv
    · simpa [he] using hv
  refine ⟨fun h => ?_,fun h => ?_,fun v hv => ?_,fun v w hv hw => hr.alone v w (hother v hv) (hother w hw)⟩
  · rw [hm]
    rw [hc,hf] at h
    exact hr.timer (h.imp_right (Or.imp_right (Exists.imp hother)))
  · rw [hf]
    exact hr.flag (hc ▸ h)
  · rw [hc,hf]
    exact hr.task v (hother v hv)

theorem calls_move (hc : ∀ b, (∃ t, (s.tasks t).calling = some b) ↔ s.Busy q b)
    (ht : u.tasks = Function.update s.tasks t p) (hp : p.calling = none) (hold : (s.tasks t).calling = none)
    (hb : ∀ b, u.Busy q' b ↔ s.Busy q b) : ∀ b, (∃ t, (u.tasks t).calling = some b) ↔ u.Busy q' b := by
  intro b
  rw [hb,← hc]
  refine exists_congr fun v => ?_
  rw [ht]
  by_cases hv : v = t
  · subst hv
    simp [hp,hold]
  · simp [hv]

/- A task moves, and neither the entries nor the timer are involved. -/
theorem Inv.move (hi : s.Inv free q) (he : u.Entries free q) (ht : u.tasks = Function.update s.tasks t p)
    (hbrk : u.brk = s.brk) (hbc : u.bc = s.bc) (hc : u.lisBctl = s.lisBctl) (hf : u.lisStrbcflag = s.lisStrbcflag)
    (hm : u.lisStrbctimer = s.lisStrbctimer) (hnew : p.newId ≠ some 0) (hp : p.filling = none)
    (hr : p.runs = false) (hold : (s.tasks t).filling = none ∧ (s.tasks t).runs = false) : u.Inv free q := by
  refine ⟨he,hi.fills.move ht hbrk hnew hp fun x => ?_,?_,hi.runner.move ht hr hc hf hm⟩
  · simp [hold.1]
  · exact calls_move hi.calls ht (Phase.calling_none hr) (Phase.calling_none hold.2) fun b => by simp only [Busy,hbc]

theorem startTimer_eq (s : BcTable) (t : ℕ) : ∃ p, (p = .idle ∨ p = .tmout ∧ s.lisStrbctimer = false) ∧
    s.startTimer t = { s with tasks := Function.update s.tasks t p, lisStrbctimer := true } := by
  cases hm : s.lisStrbctimer
  · exact ⟨.tmout,.inr ⟨rfl,rfl⟩,by simp [startTimer,hm,goto]⟩
  · refine ⟨.idle,.inl rfl,?_⟩
    simp only [startTimer,hm,if_true,goto]

theorem Runner.startTimer (hr : s.Runner) (hp : p = .idle ∨ p = .tmout ∧ s.lisStrbctimer = false)
    (ht : u.tasks = Function.update s.tasks t p) (hc : u.lisBctl = s.lisBctl)
    (hf : u.lisStrbcflag = s.lisStrbcflag) (hm : u.lisStrbctimer = true) : u.Runner := by
  rcases hp with rfl | ⟨rfl,hoff⟩
  · have hother : ∀ v, (u.tasks v).runs = true → (s.tasks v).runs = true := by
      intro v hv
      rw [ht] at hv
      by_cases he : v = t
      · subst he
        simp [Phase.runs] at hv
      · simpa [he] using hv
    exact ⟨fun _ => hm,fun h => hf ▸ hr.flag (hc ▸ h),fun v hv => hc ▸ hf ▸ hr.task v (hother v hv),
      fun v w hv hw => hr.alone v w (hother v hv) (hother w hw)⟩
  · -- the timer was off, so nobody runs but this task
    have hnone : ∀ v, (u.tasks v).runs = true → v = t := by
      intro v hv
      by_contra he
      have h1 : (s.tasks v).runs = true := by simpa [ht,he] using hv
      exact absurd (hr.timer (.inr (.inr ⟨v,h1⟩))) (by simp [hoff])
    have hoffs : s.lisBctl = false ∧ s.lisStrbcflag = false := by
      constructor
      · by_contra hb
        exact absurd (hr.timer (.inl (by simpa using hb))) (by simp [hoff])
      · by_contra hb
        exact absurd (hr.timer (.inr (.inl (by simpa using hb)))) (by simp [hoff])
    refine ⟨fun _ => hm,fun _ => hf.trans hoffs.2,fun _ _ => ⟨hc.trans hoffs.1,hf.trans hoffs.2⟩,fun v w hv hw => ?_⟩
    rw [hnone v hv,hnone w hw]

/-! ### A registration -/

theorem busy_link (f arg : ℕ) (id : Bcid) (hs : s.Shape free q) (hq : ∀ h, b ∉ q h) (x : ℕ) :
    (s.link b f arg id).Busy (Function.update q (hash id) (q (hash id) ++ [b])) x ↔ s.Busy q x := by
  obtain ⟨last,hself⟩ := link_self f arg id hs hq
  simp only [Busy,mem_update_append]
  by_cases hx : x = b
  · subst hx
    simp [hself,hq]
  · rw [(link_other f arg id hs hq hx).2.2.1]
    simp [hx]

/- Entry `b` is taken from the free list or from a task that has it allocated. -/
theorem Inv.linked {w : BcTable} (hi : s.Inv free q) (hw : w.Entries free' q)
    (heq : w = { s with lisBcfreel := w.lisBcfreel, idNum := w.idNum }) (hf : b ∉ free') (hq : ∀ h, b ∉ q h)
    (hlt : b < s.brk) (hid : id ≠ 0) (hr : (s.tasks t).runs = false)
    (hl : ∀ x, Listed free' q x ∨ x = b ↔ Listed free q x ∨ (s.tasks t).filling = some x) :
    ((w.link b f arg id).startTimer t).Inv free' (Function.update q (hash id) (q (hash id) ++ [b])) := by
  obtain ⟨hbc,htasks,hbrk,hc,hflag,hm⟩ : w.bc = s.bc ∧ w.tasks = s.tasks ∧ w.brk = s.brk ∧ w.lisBctl = s.lisBctl ∧
      w.lisStrbcflag = s.lisStrbcflag ∧ w.lisStrbctimer = s.lisStrbctimer := by
    rw [heq]
    simp only [and_self]
  obtain ⟨ltasks,lbrk,lc,lflag,lm⟩ : (w.link b f arg id).tasks = s.tasks ∧ (w.link b f arg id).brk = s.brk ∧
      (w.link b f arg id).lisBctl = s.lisBctl ∧ (w.link b f arg id).lisStrbcflag = s.lisStrbcflag ∧
      (w.link b f arg id).lisStrbctimer = s.lisStrbctimer := by
    rw [link_eq]
    exact ⟨htasks,hbrk,hc,hflag,hm⟩
  obtain ⟨p,hp,heq'⟩ := startTimer_eq (w.link b f arg id) t
  have hpn : p.newId ≠ some 0 ∧ p.filling = none ∧ p.calling = none := by
    rcases hp with rfl | ⟨rfl,-⟩ <;> exact ⟨nofun,rfl,rfl⟩
  rw [heq']
  have hent := hw.link f arg hf hq (hbrk ▸ hlt) hid
  refine ⟨hent.same rfl le_rfl rfl rfl rfl rfl rfl,?_,?_,?_⟩
  · refine hi.fills.move (t := t) (p := p) (by rw [← ltasks]) lbrk hpn.1 hpn.2.1 fun x => ?_
    rw [← hl]
    simp only [Listed,mem_update_append,exists_or,exists_eq_left,or_assoc]
  · refine calls_move hi.calls (t := t) (p := p) (by rw [← ltasks]) hpn.2.2 (Phase.calling_none hr) fun x => ?_
    have hbusy := busy_link f arg id hw.shape hq x
    simp only [Busy] at hbusy ⊢
    rw [hbusy,hbc]
  · exact hi.runner.startTimer (t := t) (lm ▸ hp) (by rw [← ltasks]) lc lflag rfl

/-! ### The callbacks -/

/- Task `t` is the one in `lis_dobufcall`, and it is between two callbacks. -/
structure Between (s : BcTable) (t : ℕ) (free : List ℕ) (q : ℕ → List ℕ) : Prop where
  entries : s.Entries free q
  fills : s.Fills free q
  filling : (s.tasks t).filling = none
  quiet : ∀ b, ¬ s.Busy q b
  others : ∀ v, v ≠ t → (s.tasks v).runs = false
  timer : s.lisStrbctimer = true
  off : s.lisBctl = false ∧ s.lisStrbcflag = false

theorem nextCallout_mem (hs : s.Shape free q) {j : ℕ} (h : s.nextCallout i n = some (j,b)) : b ∈ q j := by
  induction n generalizing i with
  | zero => cases h
  | succ n ih =>
    simp only [nextCallout,hs.heads] at h
    split_ifs at h
    · exact ih h
    · cases hq : (q i).head? with
      | none => exact ih (by simpa only [hq] using h)
      | some a =>
        simp only [hq,Option.some.injEq,Prod.mk.injEq] at h
        obtain ⟨rfl,rfl⟩ := h
        exact List.mem_of_head? hq

theorem resumeCallout_mem (hs : s.Shape free q) {j : ℕ} (h : s.resumeCallout i = some (j,b)) : b ∈ q j := by
  simp only [resumeCallout,hs.heads] at h
  split_ifs at h
  · exact nextCallout_mem hs h
  · cases hq : (q i).head? with
    | none => exact nextCallout_mem hs (by simpa only [hq] using h)
    | some a =>
      simp only [hq,Option.some.injEq,Prod.mk.injEq] at h
      obtain ⟨rfl,rfl⟩ := h
      exact List.mem_of_head? hq

/- The runner's place changes, the other tasks stay where they do not run. -/
theorem Between.runner (hb : s.Between t free q) (ht : u.tasks = Function.update s.tasks t p)
    (hc : u.lisBctl = s.lisBctl) (hf : u.lisStrbcflag = s.lisStrbcflag)
    (hm : p.runs = true → u.lisStrbctimer = true) : u.Runner := by
  have hone : ∀ v, (u.tasks v).runs = true → v = t := by
    intro v hv
    by_contra he
    rw [ht,Function.update_of_ne he,hb.others v he] at hv
    cases hv
  have hoff : u.lisBctl = false ∧ u.lisStrbcflag = false := by
    rw [hc,hf]
    exact hb.off
  refine ⟨fun h => ?_,fun _ => hoff.2,fun _ _ => hoff,fun v w hv hw => (hone v hv).trans (hone w hw).symm⟩
  rcases h with h | h | ⟨v,hv⟩
  · exact absurd h (by simp [hoff.1])
  · exact absurd h (by simp [hoff.2])
  · obtain rfl := hone v hv
    exact hm (by simpa [ht] using hv)

theorem Between.callers (hb : s.Between t free q) (ht : u.tasks = Function.update s.tasks t p) (x : ℕ) :
    (∃ v, (u.tasks v).calling = some x) ↔ p.calling = some x := by
  rw [ht]
  refine ⟨fun ⟨v,hv⟩ => ?_,fun h => ⟨t,by simpa using h⟩⟩
  by_cases he : v = t
  · simpa [he] using hv
  · rw [Function.update_of_ne he,Phase.calling_none (hb.others v he)] at hv
    cases hv

theorem Between.callout (hb : s.Between t free q) {r : Option (ℕ × ℕ)} (hr : ∀ i b, r = some (i,b) → b ∈ q i) :
    (s.callout t r).Inv free q := by
  have hfills : ∀ {u : BcTable} {p : Phase}, u.tasks = Function.update s.tasks t p → u.brk = s.brk →
      p.newId ≠ some 0 → p.filling = none → u.Fills free q := fun ht hbrk hnew hp =>
    hb.fills.move ht hbrk hnew hp fun x => by simp [hb.filling]
  cases r with
  | none =>
    simp only [BcTable.callout]
    split_ifs with hcnt
    · refine ⟨hb.entries.same rfl le_rfl rfl rfl rfl rfl rfl,hfills rfl rfl nofun rfl,fun x => ?_,
        hb.runner rfl rfl rfl fun _ => rfl⟩
      rw [hb.callers rfl]
      exact ⟨nofun,fun h => absurd h (hb.quiet x)⟩
    · refine ⟨hb.entries.same rfl le_rfl rfl rfl rfl rfl rfl,hfills rfl rfl nofun rfl,fun x => ?_,
        hb.runner (p := .idle) rfl rfl rfl nofun⟩
      rw [hb.callers rfl]
      exact ⟨nofun,fun h => absurd h (hb.quiet x)⟩
  | some r =>
    obtain ⟨i,b⟩ := r
    have hmem : b ∈ q i := hr i b rfl
    obtain ⟨-,husr,hused⟩ := hb.entries.used i b hmem
    have hact : (s.bc b).state = .active := by
      cases hst : (s.bc b).state with
      | unused => exact absurd hst hused
      | active => rfl
      | callout => exact absurd ⟨⟨i,hmem⟩,hst⟩ (hb.quiet b)
    simp only [BcTable.callout,if_neg husr]
    refine ⟨(hb.entries.mark hmem hact).same rfl le_rfl rfl rfl rfl rfl rfl,hfills rfl rfl nofun rfl,fun x => ?_,
      hb.runner rfl rfl rfl fun _ => hb.timer⟩
    rw [hb.callers rfl]
    simp only [Phase.calling,Option.some.injEq,Busy,goto,setBc]
    by_cases hx : x = b
    · subst hx
      simpa using ⟨i,hmem⟩
    · rw [Function.update_of_ne hx]
      exact ⟨fun h => absurd h.symm hx,fun h => absurd h (hb.quiet x)⟩

/-! ### A removal -/

theorem busy_release (hs : s.Shape free q) (hb : b ∈ q h) (x : ℕ) :
    (s.release b).Busy (Function.update q h ((q h).erase b)) x ↔ x ≠ b ∧ s.Busy q x := by
  simp only [Busy,mem_update_erase hs hb]
  by_cases hx : x = b
  · simp [hx]
  · rw [((release_bc hs hb).2 hx).2.2.1]
    simp [hx]

theorem listed_release (hs : s.Shape free q) (hb : b ∈ q h) (x : ℕ) :
    Listed (b :: free) (Function.update q h ((q h).erase b)) x ↔ Listed free q x := by
  simp only [Listed,mem_update_erase hs hb,List.mem_cons]
  by_cases hx : x = b
  · subst hx
    simpa using .inr ⟨h,hb⟩
  · simp [hx]

theorem release_rest (hs : s.Shape free q) (hb : b ∈ q h) : (s.release b).tasks = s.tasks ∧
    (s.release b).brk = s.brk ∧ (s.release b).lisBctl = s.lisBctl ∧
    (s.release b).lisStrbcflag = s.lisStrbcflag ∧ (s.release b).lisStrbctimer = s.lisStrbctimer ∧
    (s.release b).ids = s.ids := by
  rw [release_eq hs hb]
  exact ⟨rfl,rfl,rfl,rfl,rfl,rfl⟩

/-! ### Every run -/

/- The entry that a task is about to remove is still queued under the id that was looked up,
its callback is not running, and no other entry has the id. -/
def Guard (s : BcTable) : Act → Prop
  | .unlink t => ∀ x ∈ (s.tasks t).removal, (s.bc x.1).id = x.2 ∧ (s.bc x.1).state = .active ∧
      ∀ c < s.brk, c ≠ x.1 → (s.bc c).id ≠ x.2
  | _ => True

instance decGuard (s : BcTable) : ∀ a, Decidable (s.Guard a)
  | .bufcall _ _ _ => inferInstanceAs (Decidable True)
  | .fill _ => inferInstanceAs (Decidable True)
  | .unlink t => Option.decidableForallMem (s.tasks t).removal
  | .alloc _ _ => inferInstanceAs (Decidable True)
  | .tmout _ => inferInstanceAs (Decidable True)
  | .bcTimeout => inferInstanceAs (Decidable True)
  | .unbufcall _ _ => inferInstanceAs (Decidable True)
  | .waited _ => inferInstanceAs (Decidable True)
  | .dobufcall _ => inferInstanceAs (Decidable True)
  | .returned _ => inferInstanceAs (Decidable True)

theorem idle_of {p : Phase} (h : p = .idle) : p.filling = none ∧ p.runs = false := by
  subst h
  exact ⟨rfl,rfl⟩

/- The entry is allocated, or it is the first free one. -/
theorem Inv.bcLink_alloc (f arg : ℕ) (hi : s.Inv free q) (ht : s.tasks t = .idle) (hfree : s.lisBcfreel = none) :
    (s.bcLink t f arg).Inv free q := by
  unfold BcTable.bcLink
  rw [hfree]
  refine hi.move (t := t) (p := .alloc f arg s.nextId) ?_ rfl rfl rfl rfl rfl rfl ?_ rfl rfl (idle_of ht)
  · exact hi.entries.same rfl le_rfl rfl hfree.symm rfl rfl rfl
  · simpa [Phase.newId] using s.nextId_ne

theorem Inv.bcLink_free (f arg : ℕ) (hi : s.Inv free q) (ht : s.tasks t = .idle) (hfree : s.lisBcfreel = some b) :
    ∃ free', free = b :: free' ∧
      (s.bcLink t f arg).Inv free' (Function.update q (hash s.nextId) (q (hash s.nextId) ++ [b])) := by
  unfold BcTable.bcLink
  rw [hfree]
  obtain ⟨free',rfl,hw⟩ := hi.entries.pop hfree s.nextId
  have hmem : b ∈ b :: free' := List.mem_cons_self ..
  have hq : ∀ h, b ∉ q h := hi.entries.shape.apart b hmem
  refine ⟨free',rfl,hi.linked hw rfl (List.nodup_cons.mp hi.entries.shape.freeNodup).1 hq
    (hi.entries.shape.freeLt b hmem) s.nextId_ne (idle_of ht).2 fun x => ?_⟩
  simp only [Listed,List.mem_cons,(idle_of ht).1]
  tauto

theorem Inv.bcLink (hi : s.Inv free q) (ht : s.tasks t = .idle) :
    ∃ free' q', (s.bcLink t f arg).Inv free' q' := by
  cases hfree : s.lisBcfreel with
  | none => exact ⟨free,q,hi.bcLink_alloc f arg ht hfree⟩
  | some b =>
    obtain ⟨free',-,hw⟩ := hi.bcLink_free f arg ht hfree
    exact ⟨free',_,hw⟩

theorem Inv.alloc (hi : s.Inv free q) (ht : s.tasks t = .alloc f arg id) :
    ({ s with brk := s.brk + 1 }.goto t (.fill s.brk f arg id)).Inv free q := by
  have hid : id ≠ 0 := fun h => hi.fills.newId t (by rw [ht,h,Phase.newId])
  have hnew : ¬ Listed free q s.brk := by
    rintro (h | ⟨h,hm⟩)
    · exact lt_irrefl _ (hi.entries.shape.freeLt _ h)
    · exact lt_irrefl _ (hi.entries.shape.mem h _ hm).2
  have hlt : ∀ v x, (s.tasks v).filling = some x → x ≠ s.brk := fun v x hx => ((hi.fills.apart v x hx).1).ne
  refine ⟨hi.entries.same rfl (Nat.le_succ _) rfl rfl rfl rfl rfl,⟨fun v => ?_,fun v x hx => ?_,fun v w x hv hw => ?_,
    fun x hx => ?_⟩,?_,hi.runner.move (t := t) (p := .fill s.brk f arg id) rfl rfl rfl rfl rfl⟩
  · by_cases hv : v = t
    · simpa [goto,hv,Phase.newId] using hid
    · simpa [goto,hv] using hi.fills.newId v
  · by_cases hv : v = t
    · obtain rfl : s.brk = x := by simpa [goto,hv,Phase.filling] using hx
      exact ⟨Nat.lt_succ_self _,hnew⟩
    · have h := hi.fills.apart v x (by simpa [goto,hv] using hx)
      exact ⟨h.1.trans (Nat.lt_succ_self _),h.2⟩
  · by_cases h1 : v = t <;> by_cases h2 : w = t
    · rw [h1,h2]
    · simp only [goto,h1,Function.update_self,Phase.filling,Option.some.injEq] at hv
      simp only [goto,Function.update_of_ne h2] at hw
      exact absurd hv.symm (hlt w x hw)
    · simp only [goto,h2,Function.update_self,Phase.filling,Option.some.injEq] at hw
      simp only [goto,Function.update_of_ne h1] at hv
      exact absurd hw.symm (hlt v x hv)
    · exact hi.fills.alone v w x (by simpa [goto,h1] using hv) (by simpa [goto,h2] using hw)
  · rcases Nat.lt_succ_iff_lt_or_eq.mp hx with hx | rfl
    · refine (hi.fills.cover x hx).imp_right fun ⟨v,hv⟩ => ⟨v,?_⟩
      have hne : v ≠ t := by
        rintro rfl
        simp [ht,Phase.filling] at hv
      simpa [goto,hne] using hv
    · exact .inr ⟨t,by simp [goto,Phase.filling]⟩
  · exact calls_move hi.calls (t := t) (p := .fill s.brk f arg id) rfl rfl (by simp [ht,Phase.calling]) fun x => Iff.rfl

theorem Inv.fill (hi : s.Inv free q) (ht : s.tasks t = .fill b f arg id) :
    ((s.link b f arg id).startTimer t).Inv free (Function.update q (hash id) (q (hash id) ++ [b])) := by
  have hfill : (s.tasks t).filling = some b := by rw [ht,Phase.filling]
  obtain ⟨hlt,hl⟩ := hi.fills.apart t b hfill
  have hid : id ≠ 0 := fun h => hi.fills.newId t (by rw [ht,h,Phase.newId])
  refine hi.linked hi.entries rfl (fun h => hl (.inl h)) (fun h hm => hl (.inr ⟨h,hm⟩)) hlt hid
    (by rw [ht]; rfl) fun x => ?_
  rw [hfill,Option.some.injEq,eq_comm (a := x)]

theorem Inv.unbufcall (hi : s.Inv free q) (ht : s.tasks t = .idle) (h : s.lisUnbufcall t id = some u) :
    u.Inv free q := by
  obtain ⟨r,hr,rfl⟩ := Option.map_eq_some_iff.mp h
  cases r with
  | none =>
    -- nothing is queued under this id, on the list of the id or on another one
    have hno : ∀ h, ∀ b ∈ q h, (s.bc b).id ≠ id := by
      intro h b hb he
      have hh : hash id = h := he ▸ (hi.entries.shape.mem h b hb).1
      subst hh
      exact find_none (hi.entries.shape.links (hash id)) (by rw [hi.entries.shape.heads]) hr b hb he
    exact hi.move (t := t) (p := .idle) ((hi.entries.cancel hno).same rfl le_rfl rfl rfl rfl rfl rfl) rfl rfl rfl rfl
      rfl rfl nofun rfl rfl (idle_of ht)
  | some b =>
    exact hi.move (t := t) (p := .found b id s.ids.length) (hi.entries.same rfl le_rfl rfl rfl rfl rfl rfl) rfl rfl
      rfl rfl rfl rfl nofun rfl rfl (idle_of ht)

/- The entry is the one that was found, so nothing is left under this id. -/
theorem Inv.unlink (hi : s.Inv free q) (ht : s.tasks t = .waited b id n) (hid : (s.bc b).id = id)
    (hact : (s.bc b).state = .active) (hone : ∀ c < s.brk, c ≠ b → (s.bc c).id ≠ id) :
    ∃ free' q', ((s.release b).cancelled t id n).Inv free' q' := by
  obtain ⟨h,hb⟩ : ∃ h, b ∈ q h := by
    by_contra hno
    have := (hi.entries.unused b (not_exists.mp hno)).2
    rw [hact] at this
    cases this
  have hs := hi.entries.shape
  obtain ⟨rtasks,rbrk,rc,rflag,rm,-⟩ := release_rest hs hb
  have hno : ∀ k, ∀ x ∈ Function.update q h ((q h).erase b) k, ((s.release b).bc x).id ≠ id := by
    intro k x hx he
    obtain ⟨hxb,hx⟩ := (mem_update_erase hs hb).mp hx
    rw [((release_bc hs hb).2 hxb).1] at he
    exact hone x (hs.mem k x hx).2 hxb he
  refine ⟨b :: free,Function.update q h ((q h).erase b),
    ((hi.entries.release hb).cancel hno).same rfl le_rfl rfl rfl rfl rfl rfl,?_,?_,?_⟩
  · refine hi.fills.move (t := t) (p := .idle) (by rw [← rtasks]; rfl) rbrk nofun rfl fun x => ?_
    rw [listed_release hs hb,ht]
    simp [Phase.filling]
  · refine calls_move hi.calls (t := t) (p := .idle) (by rw [← rtasks]; rfl) rfl (by rw [ht]; rfl) fun x => ?_
    have hrel := busy_release hs hb x
    simp only [Busy] at hrel
    simp only [Busy,cancelled,goto,hrel,and_iff_right_iff_imp]
    rintro ⟨-,hcall⟩ rfl
    rw [hact] at hcall
    cases hcall
  · exact hi.runner.move (t := t) (p := .idle) (by rw [← rtasks]; rfl) rfl rc rflag rm

/- The timer that this task had marked as started is started, or has run out. -/
theorem Inv.tmout (hi : s.Inv free q) (ht : s.tasks t = .tmout) :
    ({ s with lisBctl := true }.goto t .idle).Inv free q := by
  have hrun : (s.tasks t).runs = true := by rw [ht,Phase.runs]
  have hother : ∀ v, (({ s with lisBctl := true }.goto t .idle).tasks v).runs = false := by
    intro v
    by_cases hv : v = t
    · simp [goto,hv,Phase.runs]
    · by_contra hr
      exact hv (hi.runner.alone v t (by simpa [goto,hv] using hr) hrun)
  refine ⟨hi.entries.same rfl le_rfl rfl rfl rfl rfl rfl,hi.fills.move (t := t) (p := .idle) rfl rfl nofun rfl
    fun x => by simp [ht,Phase.filling],calls_move hi.calls (t := t) (p := .idle) rfl rfl (by rw [ht]; rfl)
    fun _ => Iff.rfl,fun _ => hi.runner.timer (.inr (.inr ⟨t,hrun⟩)),fun _ => (hi.runner.task t hrun).2,fun v hv => ?_,
    fun v w hv hw => ?_⟩
  · rw [hother v] at hv
    cases hv
  · rw [hother v] at hv
    cases hv

theorem Inv.bcTimeout (hi : s.Inv free q) (hc : s.lisBctl = true) :
    { s with lisBctl := false, lisStrbcflag := true }.Inv free q := by
  have hnone : ∀ v, (s.tasks v).runs ≠ true := by
    intro v hv
    have := (hi.runner.task v hv).1
    rw [hc] at this
    cases this
  exact ⟨hi.entries.same rfl le_rfl rfl rfl rfl rfl rfl,⟨hi.fills.newId,hi.fills.apart,hi.fills.alone,hi.fills.cover⟩,
    hi.calls,fun _ => hi.runner.timer (.inl hc),nofun,fun v hv => absurd hv (hnone v),
    fun v _ hv _ => absurd hv (hnone v)⟩

theorem Inv.dobufcall (hi : s.Inv free q) (ht : s.tasks t = .idle) (hf : s.lisStrbcflag = true) :
    { s with lisStrbcflag := false }.Between t free q := by
  have hnone : ∀ v, (s.tasks v).runs = false := by
    intro v
    by_contra hv
    have := (hi.runner.task v (by simpa using hv)).2
    rw [hf] at this
    cases this
  have hctl : s.lisBctl = false := by
    by_contra hc
    have := hi.runner.flag (by simpa using hc)
    rw [hf] at this
    cases this
  refine ⟨hi.entries.same rfl le_rfl rfl rfl rfl rfl rfl,⟨hi.fills.newId,hi.fills.apart,hi.fills.alone,hi.fills.cover⟩,
    (idle_of ht).1,fun x hx => ?_,fun v _ => hnone v,hi.runner.timer (.inr (.inl hf)),hctl,rfl⟩
  obtain ⟨v,hv⟩ := (hi.calls x).mpr hx
  rw [Phase.calling_none (hnone v)] at hv
  cases hv

theorem Inv.returned (hi : s.Inv free q) (ht : s.tasks t = .callout b i) (hb : b ∈ q h) :
    (s.release b).Between t (b :: free) (Function.update q h ((q h).erase b)) := by
  have hs := hi.entries.shape
  obtain ⟨rtasks,rbrk,rc,rflag,rm,-⟩ := release_rest hs hb
  have hrun : (s.tasks t).runs = true := by rw [ht,Phase.runs]
  refine ⟨hi.entries.release hb,⟨?_,?_,?_,?_⟩,?_,fun x hx => ?_,fun v hv => ?_,?_,?_⟩
  · rw [rtasks]
    exact hi.fills.newId
  · rw [rtasks,rbrk]
    exact fun v x hx => ⟨(hi.fills.apart v x hx).1,fun hm => (hi.fills.apart v x hx).2 ((listed_release hs hb x).mp hm)⟩
  · rw [rtasks]
    exact hi.fills.alone
  · rw [rtasks,rbrk]
    exact fun x hx => (hi.fills.cover x hx).imp_left (listed_release hs hb x).mpr
  · rw [rtasks,ht]
    rfl
  · obtain ⟨hxb,hx⟩ := (busy_release hs hb x).mp hx
    obtain ⟨v,hv⟩ := (hi.calls x).mpr hx
    obtain rfl := hi.runner.alone v t (Phase.runs_of_calling hv) hrun
    rw [ht,Phase.calling] at hv
    exact hxb (Option.some.inj hv).symm
  · rw [rtasks]
    by_contra hr
    exact hv (hi.runner.alone v t (by simpa using hr) hrun)
  · rw [rm]
    exact hi.runner.timer (.inr (.inr ⟨t,hrun⟩))
  · rw [rc,rflag]
    exact hi.runner.task t hrun

theorem step_inv {a : Act} (hi : ∃ free q, s.Inv free q) (hg : s.Guard a) (h : s.step a = some u) :
    ∃ free q, u.Inv free q := by
  obtain ⟨free,q,hi⟩ := hi
  cases a with
  | bufcall t f arg =>
    simp only [step,Option.ite_none_right_eq_some] at h
    obtain ⟨ht,h⟩ := h
    cases f with
    | none => exact Option.some.inj h ▸ ⟨free,q,hi⟩
    | some f => exact Option.some.inj h ▸ hi.bcLink ht
  | alloc t ok =>
    simp only [step] at h
    split at h
    next f arg id ht =>
      cases ok
      · exact Option.some.inj h ▸ ⟨free,q,hi.move (t := t) (p := .idle) (hi.entries.same rfl le_rfl rfl rfl rfl rfl rfl)
          rfl rfl rfl rfl rfl rfl nofun rfl rfl (by rw [ht]; exact ⟨rfl,rfl⟩)⟩
      · exact Option.some.inj h ▸ ⟨free,q,hi.alloc ht⟩
    next => cases h
  | fill t =>
    simp only [step] at h
    split at h
    next b f arg id ht => exact Option.some.inj h ▸ ⟨free,_,hi.fill ht⟩
    next => cases h
  | tmout t =>
    simp only [step,Option.ite_none_right_eq_some,Option.some.injEq] at h
    obtain ⟨ht,rfl⟩ := h
    exact ⟨free,q,hi.tmout ht⟩
  | bcTimeout =>
    simp only [step,Option.ite_none_right_eq_some,Option.some.injEq] at h
    obtain ⟨hc,rfl⟩ := h
    exact ⟨free,q,hi.bcTimeout hc⟩
  | unbufcall t bcid =>
    simp only [step,Option.ite_none_right_eq_some] at h
    exact ⟨free,q,hi.unbufcall h.1 h.2⟩
  | waited t =>
    simp only [step] at h
    split at h
    next b bcid n ht =>
      split_ifs at h
      exact Option.some.inj h ▸ ⟨free,q,hi.move (t := t) (p := .waited b bcid n)
        (hi.entries.same rfl le_rfl rfl rfl rfl rfl rfl) rfl rfl rfl rfl rfl rfl nofun rfl rfl
        (by rw [ht]; exact ⟨rfl,rfl⟩)⟩
    next => cases h
  | unlink t =>
    simp only [step] at h
    split at h
    next b bcid n ht =>
      obtain ⟨hid,hact,hone⟩ := hg (b,bcid) (by rw [ht]; rfl)
      exact Option.some.inj h ▸ hi.unlink ht hid hact hone
    next => cases h
  | dobufcall t =>
    simp only [step,Option.ite_none_right_eq_some] at h
    obtain ⟨ht,h⟩ := h
    split_ifs at h with hf
    · have hb := hi.dobufcall ht hf
      exact Option.some.inj h ▸ ⟨free,q,hb.callout fun i b hr => nextCallout_mem hb.entries.shape hr⟩
    · exact Option.some.inj h ▸ ⟨free,q,hi⟩
  | returned t =>
    simp only [step] at h
    split at h
    next b i ht =>
      obtain ⟨⟨k,hmem⟩,-⟩ := (hi.calls b).mp ⟨t,by rw [ht,Phase.calling]⟩
      have hb := hi.returned ht hmem
      exact Option.some.inj h ▸ ⟨_,_,hb.callout fun i b hr => resumeCallout_mem hb.entries.shape hr⟩
    next => cases h

theorem init_inv : ∃ free q, init.Inv free q := by
  have hno : ∀ (b h : ℕ), b ∉ (fun _ => [] : ℕ → List ℕ) h := fun _ _ => List.not_mem_nil
  have hs : init.Shape [] fun _ => [] :=
    ⟨rfl,fun _ => rfl,fun _ => trivial,by simp [total,init],List.nodup_nil,fun _ => List.nodup_nil,
      fun b hb => absurd hb List.not_mem_nil,fun h b hb => absurd hb (hno b h),fun b hb => absurd hb List.not_mem_nil⟩
  refine ⟨[],fun _ => [],⟨hs,fun _ _ => ⟨rfl,rfl⟩,?_,?_,?_,?_,?_,?_,List.Pairwise.nil⟩,⟨?_,?_,?_,?_⟩,?_,⟨?_,?_,?_,?_⟩⟩
  all_goals simp [init,Phase.newId,Phase.filling,Phase.calling,Phase.runs,Busy]

/- Entry `b` is free and not queued, or it is queued under its id and not free. -/
def Placed (s : BcTable) (free : List ℕ) (q : ℕ → List ℕ) (b : ℕ) : Prop :=
  (free.count b = 1 ∧ ∀ h, b ∉ q h) ∨
    (b ∉ free ∧ (q (hash (s.bc b).id)).count b = 1 ∧ ∀ h, h ≠ hash (s.bc b).id → b ∉ q h)

structure Sound (s : BcTable) : Prop where
  lists : ∃ free q, Threaded (fun a => (s.bc a).next) s.lisBcfreel free ∧
    (∀ h, s.lisBchash h = ⟨(q h).head?,(q h).getLast?,(q h).length⟩ ∧
      Linked (fun a => (s.bc a).next) (fun a => (s.bc a).prev) none (q h) none) ∧
    s.lisBcCnt = ∑ h ∈ Finset.range N_BCHASH, ((q h).length : ℤ) ∧
    ∀ b < s.brk, (∀ t, (s.tasks t).filling ≠ some b) → s.Placed free q b
  quiet : s.log.Pairwise Quiet

theorem Inv.sound (hi : s.Inv free q) : s.Sound := by
  have hs := hi.entries.shape
  refine ⟨⟨free,q,hs.freel,fun h => ⟨hs.heads h,hs.links h⟩,hs.cnt,fun b hb hno => ?_⟩,hi.entries.quiet⟩
  rcases hi.fills.cover b hb with (hf | ⟨h,hm⟩) | ⟨t,ht⟩
  · exact .inl ⟨List.count_eq_one_of_mem hs.freeNodup hf,hs.apart b hf⟩
  · have hh : hash (s.bc b).id = h := (hs.mem h b hm).1
    refine .inr ⟨fun hf => hs.apart b hf h hm,hh ▸ List.count_eq_one_of_mem (hs.nodup h) hm,fun k hk hkm => ?_⟩
    exact hk (hs.mem k b hkm).1.symm
  · exact absurd ht (hno t)

/-- In a run in which every entry that is removed after a wait is still queued under the id that
was looked up, alone and not being called, the table is sound. -/
theorem run_sound {as : List Act} (hm : Meets step Guard init as) (h : exec step init as = some u) : u.Sound := by
  obtain ⟨free,q,hi⟩ : ∃ free q, u.Inv free q := exec_preserves (fun _ _ _ => step_inv) init_inv hm h
  exact hi.sound

/- Two functions are queued and the second one is cancelled while the first one is called. -/
theorem run_sound_two : ∃ u, exec step init [.bufcall 0 (some 7) 0,.alloc 0 true,.fill 0,.bufcall 1 (some 8) 0,
    .alloc 1 true,.fill 1,.tmout 0,.bcTimeout,.dobufcall 2,.unbufcall 3 2,.waited 3,.unlink 3,.returned 2] = some u ∧
    u.Sound := by
  refine Exists.imp (fun u hu => ⟨hu,run_sound ?_ hu⟩) (Option.isSome_iff_exists.mp rfl)
  decide

/- An entry is found by `lis_unbufcall`, then called and freed by `lis_dobufcall`, and freed again. -/
theorem removed_twice : ¬ ∀ as u, exec step init as = some u → u.Sound := by
  intro h
  obtain ⟨free,q,-,-,hc,-⟩ := (h [.bufcall 0 (some 7) 0,.alloc 0 true,.fill 0,.tmout 0,.bcTimeout,.unbufcall 1 1,
    .waited 1,.dobufcall 2,.returned 2,.unlink 1] _ rfl).lists
  have hneg : (-1 : ℤ) = ∑ h ∈ Finset.range N_BCHASH, ((q h).length : ℤ) := hc
  have hpos : (0 : ℤ) ≤ ∑ h ∈ Finset.range N_BCHASH, ((q h).length : ℤ) :=
    Finset.sum_nonneg fun h _ => Int.natCast_nonneg _
  omega

end BcTable

end CSLiS.Bufcall
