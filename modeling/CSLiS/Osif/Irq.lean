import CSLiS.Lib.Exec
import CSLiS.Lib.Threaded

/-!
# Interrupt handlers (head/osif.c)

The kernel registers and removes pairs of an irq and a record. An area that is freed may be given out again. A call
that goes round in the list for ever is not possible. `allocs` and `frees` say how often each area was given out and
given back.
-/

namespace CSLiS.Osif
open Lib Lib.Exec

/- `lis_devid_t`; 0 is a null pointer. -/
structure Devid where
  link : Option ℕ
  handler : ℕ
  devId : ℕ
  irq : BitVec 32
  deriving DecidableEq, Repr

structure Irqs where
  mem : ℕ → Devid
  live : List ℕ
  devidList : Option ℕ
  kernel : List (BitVec 32 × ℕ)
  allocs : List ℕ
  frees : List ℕ

/- `dv` is what ALLOC gives and `ret` what `request_irq` returns. -/
inductive IrqCall
  | requestIrq (irq : BitVec 32) (handler devId : ℕ) (dv : Option ℕ) (ret : BitVec 32)
  | freeIrq (irq : BitVec 32) (devId : ℕ)
  | freeDevidList
  deriving DecidableEq, Repr

namespace Irqs

variable (s : Irqs)

def init : Irqs := ⟨fun _ => ⟨none,0,0,0⟩,[],none,[],[],[]⟩

def put (dv : ℕ) (d : Devid) : Irqs := { s with mem := Function.update s.mem dv d }
def alloc (dv : ℕ) : Irqs := { s with live := dv :: s.live, allocs := dv :: s.allocs }
def free (dv : ℕ) : Irqs := { s with live := s.live.erase dv, frees := dv :: s.frees }

/- The kernel's `request_irq` and `free_irq`. -/
def request (irq : BitVec 32) (dv : ℕ) : Irqs := { s with kernel := (irq,dv) :: s.kernel }
def release (irq : BitVec 32) (dv : ℕ) : Irqs := { s with kernel := s.kernel.erase (irq,dv) }

/-- `lis_request_irq` (`osif.c:665-711`) -/
def lisRequestIrq (irq : BitVec 32) (handler devId : ℕ) (dv : Option ℕ) (ret : BitVec 32) : Irqs :=
  match dv with
  | none => s
  | some dv =>
      let s := (s.alloc dv).put dv { s.mem dv with handler := handler, devId := devId, irq := irq }
      if ret = 0 then
        let s := s.request irq dv
        { s.put dv { s.mem dv with link := s.devidList } with devidList := some dv }
      else s.free dv

/- The search in `lis_free_irq`: the record, if there is one, when it ends. -/
def find (mem : ℕ → Devid) (devId : ℕ) : ℕ → Option ℕ → Option (Option ℕ)
  | _, none => some none
  | 0, some _ => none
  | n + 1, some dv => if (mem dv).devId = devId then some (some dv) else find mem devId n (mem dv).link

/-- `lis_free_irq` (`osif.c:713-739`) -/
def lisFreeIrq (irq : BitVec 32) (devId : ℕ) : Option Irqs :=
  (find s.mem devId s.allocs.length s.devidList).map fun
    | none => s
    | some dv => (((s.release irq dv).put dv { s.mem dv with handler := 0, devId := 0, irq := 0 }).free dv)

/- The loop of `lis_free_devid_list`. -/
def freeLoop : ℕ → Irqs → Option ℕ → Option Irqs
  | _, s, none => some s
  | 0, _, some _ => none
  | n + 1, s, some dv =>
      let d := s.mem dv
      let s := if d.handler ≠ 0 ∧ d.devId ≠ 0 ∧ d.irq ≠ 0 then s.release d.irq dv else s
      freeLoop n (s.free dv) d.link

/-- `lis_free_devid_list` (`osif.c:628-649`) -/
def lisFreeDevidList : Option Irqs := freeLoop s.allocs.length { s with devidList := none } s.devidList

/- What ALLOC gives is not in use. -/
def step (s : Irqs) : IrqCall → Option Irqs
  | .requestIrq irq handler devId dv ret =>
      if ∀ x ∈ dv, x ∉ s.live then some (s.lisRequestIrq irq handler devId dv ret) else none
  | .freeIrq irq devId => s.lisFreeIrq irq devId
  | .freeDevidList => s.lisFreeDevidList

/-! ### What is claimed -/

def next (dv : ℕ) : Option ℕ := (s.mem dv).link

/- The registration was made for the pair. -/
def For (irq : BitVec 32) (devId : ℕ) (r : BitVec 32 × ℕ) : Prop := r.1 = irq ∧ (s.mem r.2).devId = devId

/- The list has only records that were not freed, and no area was freed oftener than it was given out. -/
structure Sound : Prop where
  listed : ∃ l, Threaded s.next s.devidList l ∧ ∀ dv ∈ l, dv ∈ s.live
  once : ∀ dv, s.frees.count dv + s.live.count dv = s.allocs.count dv

/- What a call is for: `t` is the state after it. -/
def Does (t : Irqs) : IrqCall → Prop
  | .requestIrq _ _ _ none _ => t = s
  | .requestIrq irq _ devId (some dv) ret =>
      if ret = 0 then t.kernel = (irq,dv) :: s.kernel ∧ t.For irq devId (irq,dv) else t.kernel = s.kernel
  | .freeIrq irq devId => ∃ gone, s.kernel.Perm (gone ++ t.kernel) ∧ (∀ r ∈ gone, s.For irq devId r) ∧
      ((∃ r ∈ s.kernel, s.For irq devId r) → gone.length = 1)
  | .freeDevidList => t.kernel = [] ∧ t.live = [] ∧ t.devidList = none

/- The first records from `o` on. -/
def records (mem : ℕ → Devid) : ℕ → Option ℕ → List ℕ
  | _, none => []
  | 0, some _ => []
  | n + 1, some dv => dv :: records mem n (mem dv).link

/-- No listed record has the `dev_id` that is to be freed, and at the end each one has a handler, a `dev_id` and an
irq. -/
def Guard (s : Irqs) : IrqCall → Prop
  | .requestIrq .. => True
  | .freeIrq _ devId => ∀ dv ∈ records s.mem s.allocs.length s.devidList, (s.mem dv).devId ≠ devId
  | .freeDevidList => ∀ dv ∈ records s.mem s.allocs.length s.devidList,
      (s.mem dv).handler ≠ 0 ∧ (s.mem dv).devId ≠ 0 ∧ (s.mem dv).irq ≠ 0

instance (s : Irqs) (call : IrqCall) : Decidable (Guard s call) :=
  match call with
  | .requestIrq .. => isTrue trivial
  | .freeIrq _ devId =>
      inferInstanceAs (Decidable (∀ dv ∈ records s.mem s.allocs.length s.devidList, (s.mem dv).devId ≠ devId))
  | .freeDevidList =>
      inferInstanceAs (Decidable (∀ dv ∈ records s.mem s.allocs.length s.devidList,
        (s.mem dv).handler ≠ 0 ∧ (s.mem dv).devId ≠ 0 ∧ (s.mem dv).irq ≠ 0))

/-! ### The list -/

/- As long as no record is freed while it is listed, the list has all that are in use, and the kernel knows these. -/
structure Inv : Prop where
  list : ∃ l, Threaded s.next s.devidList l ∧ l.Nodup ∧ (∀ dv, s.live.count dv = l.count dv) ∧
    s.kernel.Perm (l.map fun dv => ((s.mem dv).irq,dv))
  once : ∀ dv, s.frees.count dv + s.live.count dv = s.allocs.count dv

variable {s} {t : Irqs} {mem : ℕ → Devid} {l : List ℕ} {o : Option ℕ} {n devId dv : ℕ} {irq : BitVec 32}
  {call : IrqCall}

theorem records_eq (h : Threaded (fun dv => (mem dv).link) o l) (hn : l.length ≤ n) : records mem n o = l := by
  induction l generalizing o n with
  | nil =>
    obtain rfl := h
    cases n <;> rfl
  | cons dv l ih =>
    obtain ⟨rfl,h⟩ := h
    obtain ⟨n,rfl⟩ := Nat.exists_eq_add_of_le' hn
    exact congrArg (dv :: ·) (ih h (Nat.le_add_left ..))

/- The search ends at the first record with the `dev_id`. -/
theorem find_none (h : Threaded (fun dv => (mem dv).link) o l) (hn : l.length ≤ n)
    (hno : ∀ dv ∈ l, (mem dv).devId ≠ devId) : find mem devId n o = some none := by
  induction l generalizing o n with
  | nil =>
    obtain rfl := h
    cases n <;> rfl
  | cons dv l ih =>
    obtain ⟨rfl,h⟩ := h
    obtain ⟨n,rfl⟩ := Nat.exists_eq_add_of_le' hn
    rw [List.length_cons] at hn ⊢
    rw [← Nat.add_assoc,find,if_neg (hno dv (List.mem_cons_self ..))]
    exact ih h (by omega) fun x hx => hno x (List.mem_cons_of_mem _ hx)

theorem Inv.short (h : s.Inv) (hl : ∀ dv, s.live.count dv = l.count dv) : l.length ≤ s.allocs.length := by
  have hsub : l.Subperm s.allocs := List.subperm_iff_count.mpr fun dv => by
    have := h.once dv
    have := hl dv
    omega
  exact hsub.length_le

theorem put_next (hdv : dv ∉ l) (d : Devid) : ∀ x ∈ l, (Function.update mem dv d) x = mem x := by
  intro x hx
  refine Function.update_of_ne ?_ ..
  rintro rfl
  exact hdv hx

/- Only what is not in use is written to. -/
theorem Threaded.put (hdv : dv ∉ l) (d : Devid) (h : Threaded (fun x => (mem x).link) o l) :
    Threaded (fun x => ((Function.update mem dv d) x).link) o l :=
  h.congr fun x hx => congrArg Devid.link (put_next hdv d x hx)

theorem map_put (hdv : dv ∉ l) (d : Devid) :
    (l.map fun x => ((Function.update mem dv d x).irq,x)) = l.map fun x => ((mem x).irq,x) :=
  List.map_congr_left fun x hx => by rw [put_next hdv d x hx]

theorem init_inv : init.Inv := ⟨⟨[],rfl,List.nodup_nil,fun _ => rfl,List.Perm.refl _⟩,fun _ => rfl⟩

theorem request_step {handler : ℕ} {ret : BitVec 32} (h : s.Inv) (hdv : dv ∉ s.live) :
    (s.lisRequestIrq irq handler devId (some dv) ret).Inv ∧
      s.Does (s.lisRequestIrq irq handler devId (some dv) ret) (.requestIrq irq handler devId (some dv) ret) := by
  obtain ⟨l,hl,hnd,hlive,hk⟩ := h.list
  have hno : dv ∉ l := fun hm => by
    have := hlive dv
    have := List.count_pos_iff.mpr hm
    have := List.count_eq_zero.mpr hdv
    omega
  by_cases hr : ret = 0
  · have heq : s.lisRequestIrq irq handler devId (some dv) ret =
        ⟨Function.update s.mem dv ⟨s.devidList,handler,devId,irq⟩,dv :: s.live,some dv,(irq,dv) :: s.kernel,
          dv :: s.allocs,s.frees⟩ := by
      simp [lisRequestIrq,hr,alloc,put,request]
    rw [heq]
    refine ⟨⟨⟨dv :: l,?_,List.nodup_cons.mpr ⟨hno,hnd⟩,fun x => ?_,?_⟩,fun x => ?_⟩,?_⟩
    · refine ⟨rfl,?_⟩
      simp only [next,Function.update_self]
      exact Threaded.put hno _ hl
    · simp only [List.count_cons,hlive]
    · simp only [List.map_cons,Function.update_self,map_put hno]
      exact hk.cons _
    · have := h.once x
      simp only [List.count_cons]
      omega
    · simp [Does,hr,For]
  · have heq : s.lisRequestIrq irq handler devId (some dv) ret =
        ⟨Function.update s.mem dv ⟨(s.mem dv).link,handler,devId,irq⟩,s.live,s.devidList,s.kernel,dv :: s.allocs,
          dv :: s.frees⟩ := by
      simp only [lisRequestIrq,if_neg hr]
      simp [alloc,put,free]
    rw [heq]
    refine ⟨⟨⟨l,Threaded.put hno _ hl,hnd,hlive,?_⟩,fun x => ?_⟩,?_⟩
    · simp only [map_put hno]
      exact hk
    · have := h.once x
      simp only [List.count_cons]
      omega
    · simp only [Does,if_neg hr]

/- `lis_free_irq` finds nothing. -/
theorem freeIrq_step (h : s.Inv) (hg : Guard s (.freeIrq irq devId)) :
    s.lisFreeIrq irq devId = some s ∧ s.Does s (.freeIrq irq devId) := by
  obtain ⟨l,hl,hnd,hlive,hk⟩ := h.list
  have hno : ∀ dv ∈ l, (s.mem dv).devId ≠ devId := by
    have := hg
    rwa [Guard,records_eq hl (h.short hlive)] at this
  refine ⟨?_,[],List.Perm.refl _,fun r hr => (List.not_mem_nil hr).elim,?_⟩
  · rw [lisFreeIrq,find_none hl (h.short hlive) hno]
    rfl
  · rintro ⟨r,hr,-,hid⟩
    obtain ⟨dv,hdv,rfl⟩ := List.mem_map.mp (hk.mem_iff.mp hr)
    exact absurd hid (hno dv hdv)

/- The loop of `lis_free_devid_list` removes the registration of each record and frees it. -/
theorem freeLoop_spec (hl : Threaded s.next o l) (hn : l.length ≤ n)
    (hlive : ∀ x, l.count x ≤ s.live.count x)
    (hk : ∀ r, (l.map fun dv => ((s.mem dv).irq,dv)).count r ≤ s.kernel.count r)
    (hdone : ∀ dv ∈ l, (s.mem dv).handler ≠ 0 ∧ (s.mem dv).devId ≠ 0 ∧ (s.mem dv).irq ≠ 0) :
    ∃ t, freeLoop n s o = some t ∧ t.devidList = s.devidList ∧ t.allocs = s.allocs ∧
      (∀ x, t.live.count x + l.count x = s.live.count x) ∧ (∀ x, t.frees.count x = s.frees.count x + l.count x) ∧
      ∀ r, t.kernel.count r + (l.map fun dv => ((s.mem dv).irq,dv)).count r = s.kernel.count r := by
  induction l generalizing s o n with
  | nil =>
    obtain rfl := hl
    refine ⟨s,?_,rfl,rfl,fun _ => rfl,fun _ => rfl,fun _ => rfl⟩
    cases n <;> rfl
  | cons dv l ih =>
    obtain ⟨rfl,hl⟩ := hl
    obtain ⟨n,rfl⟩ := Nat.exists_eq_add_of_le' hn
    rw [List.length_cons] at hn
    have hstep : freeLoop (n + (dv :: l).length) s (some dv) =
        freeLoop (n + l.length) ((s.release (s.mem dv).irq dv).free dv) (s.next dv) := by
      rw [List.length_cons,← Nat.add_assoc,freeLoop]
      simp only [if_pos (hdone dv (List.mem_cons_self ..))]
      rfl
    have hin : 1 ≤ s.live.count dv := by
      have := hlive dv
      rw [List.count_cons_self] at this
      omega
    have hreg : 1 ≤ s.kernel.count ((s.mem dv).irq,dv) := by
      have := hk ((s.mem dv).irq,dv)
      rw [List.map_cons,List.count_cons_self] at this
      omega
    have herase : ∀ x, ((s.release (s.mem dv).irq dv).free dv).live.count x + (if dv = x then 1 else 0) =
        s.live.count x := by
      intro x
      simp only [free,release,List.count_erase,beq_iff_eq]
      split_ifs with hx
      · subst hx
        omega
      · omega
    have hgone : ∀ r, ((s.release (s.mem dv).irq dv).free dv).kernel.count r +
        (if ((s.mem dv).irq,dv) = r then 1 else 0) = s.kernel.count r := by
      intro r
      simp only [free,release,List.count_erase,beq_iff_eq]
      split_ifs with hx
      · subst hx
        omega
      · omega
    obtain ⟨t,ht,h1,h2,h3,h4,h5⟩ := @ih ((s.release (s.mem dv).irq dv).free dv) (s.next dv) (n + l.length) hl
      (Nat.le_add_left ..)
      (fun x => by
        have h1 := herase x
        have h2 := hlive x
        simp only [List.count_cons,beq_iff_eq] at h2
        omega)
      (fun r => by
        have h1 := hgone r
        have h2 := hk r
        simp only [List.map_cons,List.count_cons,beq_iff_eq] at h2
        change (l.map fun x => ((s.mem x).irq,x)).count r ≤ _
        omega)
      fun x hx => hdone x (List.mem_cons_of_mem _ hx)
    refine ⟨t,hstep.trans ht,h1,h2,fun x => ?_,fun x => ?_,fun r => ?_⟩
    · have h6 := h3 x
      have h7 := herase x
      simp only [List.count_cons,beq_iff_eq]
      omega
    · have h6 := h4 x
      simp only [free,release,List.count_cons,beq_iff_eq] at h6 ⊢
      omega
    · have h6 := h5 r
      have h7 := hgone r
      change _ + (l.map fun x => ((s.mem x).irq,x)).count r = _ at h6
      simp only [List.map_cons,List.count_cons,beq_iff_eq]
      omega

theorem freeDevidList_step (h : s.Inv) (hg : Guard s .freeDevidList) :
    ∃ t, s.lisFreeDevidList = some t ∧ t.Inv ∧ s.Does t .freeDevidList := by
  obtain ⟨l,hl,hnd,hlive,hk⟩ := h.list
  have hshort := h.short hlive
  rw [Guard,records_eq hl hshort] at hg
  obtain ⟨t,ht,h1,h2,h3,h4,h5⟩ := @freeLoop_spec { s with devidList := none } l s.devidList s.allocs.length hl hshort
    (fun x => (hlive x).ge) (fun r => (hk.count_eq r).ge) hg
  have hnone : t.live = [] := List.eq_nil_iff_forall_not_mem.mpr fun x hx => by
    have := h3 x
    have := hlive x
    have := List.count_pos_iff.mpr hx
    dsimp only at *
    omega
  have hkernel : t.kernel = [] := List.eq_nil_iff_forall_not_mem.mpr fun r hr => by
    have := h5 r
    have := hk.count_eq r
    have := List.count_pos_iff.mpr hr
    dsimp only at *
    omega
  refine ⟨t,ht,⟨⟨[],h1,List.nodup_nil,fun x => by rw [hnone],by rw [hkernel]; exact List.Perm.refl _⟩,fun x => ?_⟩,
    hkernel,hnone,h1⟩
  have h6 := h3 x
  have h7 := h4 x
  have h8 := h.once x
  rw [h2]
  dsimp only at *
  omega

theorem Inv.sound (h : s.Inv) : s.Sound := by
  obtain ⟨l,hl,-,hlive,-⟩ := h.list
  refine ⟨⟨l,hl,fun dv hdv => ?_⟩,h.once⟩
  have := hlive dv
  have := List.count_pos_iff.mpr hdv
  exact List.count_pos_iff.mp (by omega)

theorem call_step (h : s.Inv) (hg : Guard s call) (ht : s.step call = some t) : t.Inv ∧ s.Does t call := by
  cases call with
  | requestIrq irq handler devId dv ret =>
    simp only [step,Option.ite_none_right_eq_some,Option.some.injEq] at ht
    obtain ⟨hfresh,rfl⟩ := ht
    cases dv with
    | none => exact ⟨h,rfl⟩
    | some dv => exact request_step h (hfresh dv rfl)
  | freeIrq irq devId =>
    obtain ⟨heq,hdoes⟩ := freeIrq_step h hg
    obtain rfl := Option.some.inj (heq.symm.trans ht)
    exact ⟨h,hdoes⟩
  | freeDevidList =>
    obtain ⟨u,heq,hinv,hdoes⟩ := freeDevidList_step h hg
    obtain rfl := Option.some.inj (heq.symm.trans ht)
    exact ⟨hinv,hdoes⟩

/- Every call returns. -/
theorem call_returns (h : s.Inv) (hg : Guard s call) (hnone : s.step call = none) :
    ∃ irq handler devId dv ret, call = .requestIrq irq handler devId (some dv) ret ∧ dv ∈ s.live := by
  cases call with
  | requestIrq irq handler devId dv ret =>
    cases dv with
    | none => simp [step] at hnone
    | some dv =>
      refine ⟨irq,handler,devId,dv,ret,rfl,?_⟩
      by_contra hno
      simp [step,hno] at hnone
  | freeIrq irq devId => cases hnone.symm.trans (freeIrq_step h hg).1
  | freeDevidList =>
    obtain ⟨t,ht,-⟩ := freeDevidList_step h hg
    cases hnone.symm.trans ht

/-- In every sequence of calls that neither frees a listed record nor leaves an incomplete one to the end: the list has
only records that were not freed, no record is freed twice, and each call returns and does what it is for. -/
theorem irqs_sound (calls : List IrqCall) (s : Irqs) (hguard : Meets step Guard init calls)
    (h : exec step init calls = some s) : s.Sound ∧ ∀ call, Guard s call →
      (s.step call = none → ∃ irq handler devId dv ret, call = .requestIrq irq handler devId (some dv) ret ∧
        dv ∈ s.live) ∧ ∀ t, s.step call = some t → s.Does t call := by
  have hinv : s.Inv := exec_preserves (fun _ _ _ hi hg ht => (call_step hi hg ht).1) init_inv hguard h
  exact ⟨hinv.sound,fun call hg => ⟨call_returns hinv hg,fun t ht => (call_step hinv hg ht).2⟩⟩

/- Two handlers share a `dev_id`, the kernel refuses a third one, and a `dev_id` that nobody has is freed. -/
def sharedIrqs : List IrqCall :=
  [.requestIrq 5 1 7 (some 100) 0,.requestIrq 6 2 7 (some 101) 0,.requestIrq 6 3 8 (some 102) (-16),.freeIrq 6 8]

theorem irqs_sound_shared : ∃ s, exec step init sharedIrqs = some s ∧ s.Sound ∧ ∀ call, Guard s call →
    (s.step call = none → ∃ irq handler devId dv ret, call = .requestIrq irq handler devId (some dv) ret ∧
      dv ∈ s.live) ∧ ∀ t, s.step call = some t → s.Does t call := by
  have hsome : (exec step init sharedIrqs).isSome := by decide
  obtain ⟨s,hs⟩ := Option.isSome_iff_exists.mp hsome
  exact ⟨s,hs,irqs_sound sharedIrqs s (by decide) hs⟩

/- A handler is removed. -/
theorem freed_listed : ¬ ∀ (calls : List IrqCall) (s : Irqs), exec step init calls = some s → s.Sound ∧
    ∀ call, ∀ t, s.step call = some t → s.Does t call := by
  intro hall
  have hrun : (exec step init [.requestIrq 5 1 7 (some 100) 0,.freeIrq 5 7]).map (fun s => (s.live,s.devidList)) =
      some ([],some 100) := by decide
  obtain ⟨s,hs,heq⟩ := Option.map_eq_some_iff.mp hrun
  obtain ⟨hlive,hlist⟩ := Prod.mk.inj heq
  obtain ⟨l,hl,hm⟩ := (hall _ s hs).1.listed
  rw [hlist] at hl
  cases l with
  | nil => cases hl
  | cons dv l =>
    have := hm dv (List.mem_cons_self ..)
    rw [hlive] at this
    cases this

end Irqs

end CSLiS.Osif
