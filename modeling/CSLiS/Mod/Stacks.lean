import CSLiS.Mod.Registry
import CSLiS.Queue.QSync

/-!
# Pushing and popping modules (head/head.c)

Here `push_mod` and `pop_mod` have every place at which they can fail, and the counts are the unsigned shorts
of the source. The table of modules stays as it is. Whether there is memory, what the open routine returns and
how the waits end are parameters of a call. `lis_setq` reads through `qi_minfo`, so that it is there; what
is in it need not be.
-/

namespace CSLiS.Mod.Pushing
open Queue Lib Lib.Exec Lib.Crew

def ENOSR : ℤ := 63
def ENOPKG : ℤ := 65

structure Qinit where
  qiQopen : Bool
  miIdname : Option Name
  deriving DecidableEq, Repr

structure Streamtab where
  stRdinit : Option Qinit
  stWrinit : Option Qinit
  deriving DecidableEq, Repr

structure Fmod where
  fStr : Option Streamtab
  fCount : BitVec 16
  fName : Name
  fQlockOption : QlockOption
  deriving DecidableEq, Repr

/- The modules from the stream head down; the driver below them is not in the list. -/
structure Head where
  stack : List Inst
  sdPushcnt : BitVec 16
  sdMaxpushcnt : ℤ
  deriving DecidableEq, Repr

/- For every time that a wait finds the queue scheduled or running: whether it is interrupted. -/
abbrev Waits := List Bool

/- `queue` is the memory for the queue pair, `mem` and `mem2` that for its two `lis_q_sync_t`, `mem3` and
`mem4` that for those of the module's option. `opened` is what `qi_qopen` returns. -/
structure Outcome where
  waits : List Waits
  queue : Bool
  mem : Bool
  mem2 : Bool
  opened : ℤ
  mem3 : Bool
  mem4 : Bool
  deriving DecidableEq, Repr

structure Stacks where
  sw : ℕ → Fmod
  lisFmodcnt : ℕ
  heads : List Head
  ret : ℤ

inductive Call
  | push (k id : ℕ) (o : Outcome)
  | pop (k : ℕ) (waits : List Waits)
  deriving DecidableEq, Repr

/-- `lis_await_qsched` (`head.c:1977-2025`). With a stream head the semaphore is waited for without signals. -/
def lisAwaitQsched (hd : Bool) : Waits → ℤ
  | [] => 0
  | intr :: waits => if !hd && intr then -EINTR else lisAwaitQsched hd waits

/- Waits for one queue after the other, up to the first error. -/
def awaits (hd : Bool) : List Waits → ℤ
  | [] => 0
  | q :: qs => if lisAwaitQsched hd q < 0 then lisAwaitQsched hd q else awaits hd qs

/-- `lis_allocq` (`queue.c:1993-2025`), with its default for the locks. -/
def lisAllocq (o : Outcome) : Option QSyncs :=
  if !o.queue then none
  else
    let r := QSyncs.init.lisSetQSync ⟨true,.queue,o.mem,o.mem2⟩
    if r.1 < 0 then none else some r.2

/-- `lis_setq` (`queue.c:1383-1415`): the `q_qinfo` of the read and of the write side. -/
def lisSetq (info : Option Streamtab) : Option (Qinit × Qinit) :=
  info.bind fun st => st.stRdinit.bind fun rinit => st.stWrinit.map fun winit => (rinit,winit)

/-- `lis_qopen` (`head.c:2380-2418`) -/
def lisQopen (qinfo : Option (Qinit × Qinit)) (opened : ℤ) : ℤ :=
  match qinfo with
  | none => -ENOPKG
  | some qi => if !qi.1.qiQopen then 0 else if opened ≠ 0 then (if opened < 0 then opened else -opened) else 0

/- The queue pair next to the stream head is taken out. -/
def lisQdetach (stack : List Inst) : List Inst := stack.tail

/-- `lis_qattach` (`head.c:2422-2493`) -/
def lisQattach (stack : List Inst) (id : ℕ) (info : Option Streamtab) (o : Outcome) : ℤ × List Inst × QSyncs :=
  match lisAllocq o with
  | none => (-QSyncs.ENOMEM,stack,QSyncs.init)
  | some qsp =>
      let qinfo := lisSetq info
      let attached := ⟨id,qinfo.bind fun qi => qi.2.miIdname⟩ :: stack
      let err := lisQopen qinfo o.opened
      if err < 0 then (err,lisQdetach attached,QSyncs.init) else (err,attached,qsp)

namespace Stacks

variable (s : Stacks)

def setHead (k : ℕ) (hd : Head) : Stacks := { s with heads := s.heads.set k hd }

def setCount (id : ℕ) (n : BitVec 16) : Stacks :=
  { s with sw := Function.update s.sw id { s.sw id with fCount := n } }

/-- `lis_findmod` (`mod.c:885-899`) -/
def lisFindmod (name : Name) : ℕ :=
  if name = [] then 0 else ((List.range' 1 s.lisFmodcnt).reverse.find? fun id => (s.sw id).fName == name).getD 0

/-- `push_mod` (`head.c:2498-2533`) -/
def pushMod (k id : ℕ) (o : Outcome) : Option (ℤ × Stacks) :=
  s.heads[k]?.map fun hd =>
    if hd.sdMaxpushcnt ≠ 0 ∧ (hd.sdPushcnt.toNat : ℤ) = hd.sdMaxpushcnt then (-ENOSR,s)
    else
      let err := awaits true o.waits
      if err < 0 then (err,s)
      else
        let r := lisQattach hd.stack id (s.sw id).fStr o
        let s := s.setHead k { hd with stack := r.2.1 }
        if r.1 < 0 then (r.1,s)
        else
          let q := r.2.2.lisSetQSync ⟨false,(s.sw id).fQlockOption,o.mem3,o.mem4⟩
          if q.1 < 0 then (q.1,s)
          else
            (q.1,(s.setHead k { hd with stack := r.2.1, sdPushcnt := hd.sdPushcnt + 1 }).setCount id
              ((s.sw id).fCount + 1))

/-- `pop_mod` (`head.c:2538-2594`). Below a stream head that counts a module there is one. -/
def popMod (k : ℕ) (waits : List Waits) : Option (ℤ × Stacks) :=
  s.heads[k]?.bind fun hd =>
    if hd.sdPushcnt = 0 then some (-EINVAL,s)
    else match hd.stack with
      | [] => none
      | mod :: _ =>
          let s := s.setHead k { hd with sdPushcnt := hd.sdPushcnt - 1 }
          match mod.idname with
          | none => some (-EINVAL,s)
          | some name =>
              let id := s.lisFindmod name
              let s := if 0 < id then s.setCount id ((s.sw id).fCount - 1) else s
              let err := awaits true waits
              if err < 0 then some (err,s)
              else some (0,s.setHead k { hd with stack := lisQdetach hd.stack, sdPushcnt := hd.sdPushcnt - 1 })

/- Modules are pushed from the slots that have a streamtab (`lis_modstr`). -/
def call : Call → Option (ℤ × Stacks)
  | .push k id o => if 0 < id ∧ id < s.lisFmodcnt ∧ (s.sw id).fStr ≠ none then s.pushMod k id o else none
  | .pop k waits => s.popMod k waits

def step (c : Call) : Option Stacks := (s.call c).map fun r => { r.2 with ret := r.1 }

/-- The instances of the module in slot `i` on all streams. -/
def instances (i : ℕ) : ℕ := total (fun hd => tally (fun m => m.slot == i) hd.stack) s.heads

/-- The counts have what is on the streams. -/
structure Consistent : Prop where
  table : s.lisFmodcnt ≤ MAX_STRMOD
  slots : ∀ hd ∈ s.heads, ∀ m ∈ hd.stack, 0 < m.slot ∧ m.slot < MAX_STRMOD
  pushcnt : ∀ hd ∈ s.heads, hd.sdPushcnt.toNat = hd.stack.length
  count : ∀ i, i < MAX_STRMOD → (s.sw i).fCount.toNat = s.instances i

/-- What a call is to do: all, or with an error nothing. -/
structure Atomic (t : Stacks) : Prop where
  undone : t.ret < 0 → t.heads = s.heads ∧ ∀ i, (t.sw i).fCount = (s.sw i).fCount
  consistent : t.Consistent

/- `push_mod` does not get the module on the stream. -/
def Refused (hd : Head) (id : ℕ) (o : Outcome) : Prop :=
  (hd.sdMaxpushcnt ≠ 0 ∧ (hd.sdPushcnt.toNat : ℤ) = hd.sdMaxpushcnt) ∨ ¬(o.queue ∧ o.mem ∧ o.mem2) ∨
    lisQopen (lisSetq (s.sw id).fStr) o.opened < 0

instance (hd : Head) (id : ℕ) (o : Outcome) : Decidable (s.Refused hd id o) := inferInstanceAs (Decidable (_ ∨ _))

/- A module that is pushed finds both counts below their end. A module that is popped has a name, which leads to
the slot it was pushed from. -/
def Guard : Call → Prop
  | .push k id o => ∀ hd ∈ s.heads[k]?, s.Refused hd id o ∨ (hd.sdPushcnt ≠ 65535 ∧ (s.sw id).fCount ≠ 65535)
  | .pop k _ => ∀ hd ∈ s.heads[k]?, ∀ mod ∈ hd.stack.head?, mod.idname.map s.lisFindmod = some mod.slot

instance (c : Call) : Decidable (s.Guard c) :=
  match c with
  | .push .. => inferInstanceAs (Decidable (∀ hd ∈ _, _ ∨ _))
  | .pop .. => inferInstanceAs (Decidable (∀ hd ∈ _, ∀ mod ∈ _, _ = _))

variable {s} {t : Stacks} {k id i : ℕ} {o : Outcome} {hd hd2 : Head} {c : Call} {m : Inst}

theorem lisAwaitQsched_head (waits : Waits) : lisAwaitQsched true waits = 0 := by
  induction waits with
  | nil => rfl
  | cons intr waits ih => exact ih

theorem awaits_head (qs : List Waits) : awaits true qs = 0 := by
  induction qs with
  | nil => rfl
  | cons q qs ih =>
    rw [awaits,lisAwaitQsched_head,if_neg (lt_irrefl 0)]
    exact ih

/- The halves of a queue pair that was allocated have their structures. -/
theorem lisAllocq_cases (o : Outcome) :
    (¬(o.queue ∧ o.mem ∧ o.mem2) ∧ lisAllocq o = none) ∨
      ((o.queue ∧ o.mem ∧ o.mem2) ∧ ∃ q, lisAllocq o = some q ∧ ∀ b, q.qQsp b ≠ none) := by
  obtain ⟨waits,queue,mem,mem2,opened,mem3,mem4⟩ := o
  cases queue with
  | false => exact Or.inl ⟨by simp,rfl⟩
  | true =>
    cases mem <;> cases mem2
    · exact Or.inl ⟨by simp,rfl⟩
    · exact Or.inl ⟨by simp,rfl⟩
    · exact Or.inl ⟨by simp,rfl⟩
    · refine Or.inr ⟨by simp,_,rfl,fun b => ?_⟩
      cases b <;> exact Option.some_ne_none _

/- With structures on both sides no option needs memory. -/
theorem lisSetQSync_ready {q : QSyncs} (h : ∀ b, q.qQsp b ≠ none) (x : SetQSync) : (q.lisSetQSync x).1 = 0 := by
  obtain ⟨half,option,mem,mem2⟩ := x
  have halloc : ∀ half mem, q.alloc half mem = q := fun half mem => if_neg fun hc => h half hc.1
  have hboth : ¬(q.qQsp half = none ∨ q.qQsp (!half) = none) := fun hc => hc.elim (h half) (h !half)
  cases option with
  | none => rfl
  | global => rfl
  | queue => simp only [QSyncs.lisSetQSync,halloc,if_neg hboth]
  | other => simp only [QSyncs.lisSetQSync,halloc,if_neg hboth]
  | queuePair =>
    have hq : (q.freeOther half).qQsp half ≠ none := by
      rw [QSyncs.freeOther]
      split_ifs with hc
      · have hset : ((q.setQsp (!half) none).free (q.qQsp !half)).qQsp half = q.qQsp half := by
          simp only [QSyncs.free,QSyncs.setQsp]
          exact Function.update_of_ne (Bool.not_ne_self half).symm _ _
        exact hset ▸ h half
      · exact h half
    have hfree : (q.freeOther half).alloc half mem = q.freeOther half := if_neg fun hc => hq hc.1
    simp only [QSyncs.lisSetQSync,QSyncs.share,hfree,if_neg hq]

theorem setHead_same (hk : s.heads[k]? = some hd) : s.setHead k hd = s := by
  obtain ⟨hlt,rfl⟩ := List.getElem?_eq_some_iff.mp hk
  rw [setHead,List.set_getElem_self]

/- The module on the stream, with both counts. -/
def pushed (s : Stacks) (k : ℕ) (hd : Head) (id : ℕ) : Stacks :=
  let m : Inst := ⟨id,(lisSetq (s.sw id).fStr).bind fun qi => qi.2.miIdname⟩
  (s.setHead k { hd with stack := m :: hd.stack, sdPushcnt := hd.sdPushcnt + 1 }).setCount id ((s.sw id).fCount + 1)

theorem pushMod_refused (hk : s.heads[k]? = some hd) (hr : s.Refused hd id o) :
    ∃ err, err < 0 ∧ s.pushMod k id o = some (err,s) := by
  rw [pushMod,hk,Option.map_some]
  by_cases hmax : hd.sdMaxpushcnt ≠ 0 ∧ (hd.sdPushcnt.toNat : ℤ) = hd.sdMaxpushcnt
  · exact ⟨-ENOSR,by decide,by rw [if_pos hmax]⟩
  · simp only [if_neg hmax,awaits_head,lt_irrefl,if_false]
    rcases lisAllocq_cases o with ⟨-,hq⟩ | ⟨hmem,q,hq,-⟩
    · refine ⟨-QSyncs.ENOMEM,by decide,?_⟩
      simp only [lisQattach,hq,setHead_same hk]
      rfl
    · have herr : lisQopen (lisSetq (s.sw id).fStr) o.opened < 0 := (hr.resolve_left hmax).resolve_left (not_not.mpr hmem)
      refine ⟨_,herr,?_⟩
      simp only [lisQattach,hq,if_pos herr,lisQdetach,List.tail_cons,setHead_same hk]

theorem pushMod_done (hk : s.heads[k]? = some hd) (hr : ¬s.Refused hd id o) :
    s.pushMod k id o = some (0,s.pushed k hd id) := by
  obtain ⟨hmax,hr⟩ := not_or.mp hr
  obtain ⟨hmem,herr⟩ := not_or.mp hr
  rw [pushMod,hk,Option.map_some,if_neg hmax]
  rcases lisAllocq_cases o with ⟨hno,-⟩ | ⟨-,q,hq,hqsp⟩
  · exact absurd hno hmem
  · simp only [awaits_head,lt_irrefl,if_false,lisQattach,hq,if_neg herr,lisSetQSync_ready hqsp,setHead,List.set_set]
    rfl

theorem instances_setHead (hk : s.heads[k]? = some hd) (hd2 : Head) (i : ℕ) :
    (s.setHead k hd2).instances i + tally (fun m => m.slot == i) hd.stack =
      s.instances i + tally (fun m => m.slot == i) hd2.stack :=
  total_set hk hd2 fun hd : Head => tally (fun m : Inst => m.slot == i) hd.stack

/- The counts after one stream has changed: its own one is right, and those of the modules change as its
stack does. -/
theorem Consistent.changed_iff (hs : s.Consistent) (hk : s.heads[k]? = some hd) (ht : t.heads = s.heads.set k hd2)
    (hn : t.lisFmodcnt = s.lisFmodcnt) (hm : ∀ m ∈ hd2.stack, 0 < m.slot ∧ m.slot < MAX_STRMOD) :
    t.Consistent ↔ hd2.sdPushcnt.toNat = hd2.stack.length ∧ ∀ i, i < MAX_STRMOD →
      (t.sw i).fCount.toNat + tally (fun m => m.slot == i) hd.stack =
        (s.sw i).fCount.toNat + tally (fun m => m.slot == i) hd2.stack := by
  have hlt : k < s.heads.length := (List.getElem?_eq_some_iff.mp hk).1
  have hinst : ∀ i, t.instances i + tally (fun m => m.slot == i) hd.stack =
      s.instances i + tally (fun m => m.slot == i) hd2.stack := by
    intro i
    have h1 : t.instances i = (s.setHead k hd2).instances i := by rw [instances,instances,ht,setHead]
    rw [h1]
    exact instances_setHead hk hd2 i
  constructor
  · intro h
    refine ⟨h.pushcnt hd2 (ht ▸ List.mem_set hlt hd2),fun i hi => ?_⟩
    have h1 := h.count i hi
    have h2 := hs.count i hi
    have h3 := hinst i
    omega
  · rintro ⟨hp,hc⟩
    have hcases : ∀ x ∈ t.heads, x = hd2 ∨ x ∈ s.heads := by
      intro x hx
      rw [ht] at hx
      exact (List.mem_or_eq_of_mem_set hx).symm
    constructor
    · exact hn ▸ hs.table
    · intro x hx
      rcases hcases x hx with rfl | hx
      · exact hm
      · exact hs.slots x hx
    · intro x hx
      rcases hcases x hx with rfl | hx
      · exact hp
      · exact hs.pushcnt x hx
    · intro i hi
      have h1 := hc i hi
      have h2 := hs.count i hi
      have h3 := hinst i
      omega

theorem Consistent.of_ret (hs : s.Consistent) (r : ℤ) : { s with ret := r }.Consistent :=
  ⟨hs.table,hs.slots,hs.pushcnt,hs.count⟩

/- A call that has changed nothing. -/
theorem Consistent.unchanged (hs : s.Consistent) (r : ℤ) : s.Atomic { s with ret := r } :=
  ⟨fun _ => ⟨rfl,fun _ => rfl⟩,hs.of_ret r⟩

theorem tally_cons_slot (m : Inst) (l : List Inst) (i : ℕ) :
    tally (fun m => m.slot == i) (m :: l) = tally (fun m => m.slot == i) l + if m.slot = i then 1 else 0 := by
  rw [tally,tally,List.countP_cons]
  simp only [beq_iff_eq]

theorem toNat_succ_iff (x : BitVec 16) : (x + 1).toNat = x.toNat + 1 ↔ x ≠ 65535 := by bv_omega

theorem toNat_pred {x : BitVec 16} (h : x ≠ 0) : (x - 1).toNat + 1 = x.toNat := by bv_omega

theorem setCount_sw (id : ℕ) (n : BitVec 16) (i : ℕ) :
    ((s.setCount id n).sw i).fCount = if i = id then n else (s.sw i).fCount := by
  by_cases hi : i = id
  · subst hi
    simp only [setCount,Function.update_self,if_true]
  · simp only [setCount,Function.update_of_ne hi,if_neg hi]

/- Pushing keeps the counts right where neither is at its end. -/
theorem Consistent.pushed_iff (hs : s.Consistent) (hk : s.heads[k]? = some hd) (hid : 0 < id ∧ id < MAX_STRMOD) :
    (s.pushed k hd id).Consistent ↔ hd.sdPushcnt ≠ 65535 ∧ (s.sw id).fCount ≠ 65535 := by
  have hmem : hd ∈ s.heads := List.mem_of_getElem? hk
  have hslots : ∀ q, ∀ m ∈ (⟨id,q⟩ : Inst) :: hd.stack, 0 < m.slot ∧ m.slot < MAX_STRMOD := by
    intro q m hm
    rcases List.mem_cons.mp hm with rfl | hm
    · exact hid
    · exact hs.slots hd hmem m hm
  have hcount : ∀ i, ((s.pushed k hd id).sw i).fCount = if i = id then (s.sw id).fCount + 1 else (s.sw i).fCount :=
    fun i => setCount_sw id _ i
  rw [hs.changed_iff hk (t := s.pushed k hd id) rfl rfl (hslots _),← toNat_succ_iff,← toNat_succ_iff]
  refine and_congr ?_ ⟨fun h => ?_,fun h i _ => ?_⟩
  · rw [List.length_cons,← hs.pushcnt hd hmem]
  · have h1 := h id hid.2
    rw [hcount,if_pos rfl,tally_cons_slot,if_pos rfl] at h1
    omega
  · rw [hcount,tally_cons_slot]
    by_cases hi : i = id
    · subst hi
      rw [if_pos rfl,if_pos rfl]
      omega
    · rw [if_neg hi,if_neg (Ne.symm hi)]
      omega

theorem Consistent.push_iff (hs : s.Consistent) (hid : 0 < id ∧ id < MAX_STRMOD) {r : ℤ × Stacks}
    (h : s.pushMod k id o = some r) : s.Atomic { r.2 with ret := r.1 } ↔ s.Guard (.push k id o) := by
  obtain ⟨hd,hk,-⟩ := Option.map_eq_some_iff.mp h
  have hguard : s.Guard (.push k id o) ↔ s.Refused hd id o ∨ (hd.sdPushcnt ≠ 65535 ∧ (s.sw id).fCount ≠ 65535) := by
    simp only [Guard,hk,Option.mem_def,Option.some.injEq,forall_eq']
  rw [hguard]
  by_cases hr : s.Refused hd id o
  · obtain ⟨err,-,he⟩ := pushMod_refused hk hr
    obtain rfl := Option.some.inj (he.symm.trans h)
    exact iff_of_true (hs.unchanged err) (Or.inl hr)
  · obtain rfl := Option.some.inj ((pushMod_done hk hr).symm.trans h)
    rw [or_iff_right hr,← hs.pushed_iff hk hid]
    refine ⟨fun ha => ?_,fun hc => ⟨fun hneg => absurd hneg (lt_irrefl 0),hc.of_ret 0⟩⟩
    exact ha.consistent.of_ret s.ret

/- The stream and the counts after the module is found in slot `j` (0 is none). -/
def popped (s : Stacks) (k : ℕ) (hd : Head) (j : ℕ) : Stacks :=
  let s1 := s.setHead k { hd with stack := hd.stack.tail, sdPushcnt := hd.sdPushcnt - 1 }
  if 0 < j then s1.setCount j ((s.sw j).fCount - 1) else s1

theorem popMod_done (hk : s.heads[k]? = some hd) (h0 : hd.sdPushcnt ≠ 0) (hm : hd.stack.head? = some m) {name : Name}
    (hname : m.idname = some name) (waits : List Waits) :
    s.popMod k waits = some (0,s.popped k hd (s.lisFindmod name)) := by
  obtain ⟨below,hst⟩ := List.head?_eq_some_iff.mp hm
  have hfind : ∀ hd2, (s.setHead k hd2).lisFindmod name = s.lisFindmod name := fun _ => rfl
  rw [popMod,hk,Option.bind_some,if_neg h0]
  simp only [hst,hname,awaits_head,lt_irrefl,if_false,hfind,popped]
  split_ifs <;> simp [setCount,setHead,lisQdetach]

theorem popMod_nameless (hk : s.heads[k]? = some hd) (h0 : hd.sdPushcnt ≠ 0) (hm : hd.stack.head? = some m)
    (hname : m.idname = none) (waits : List Waits) :
    s.popMod k waits = some (-EINVAL,s.setHead k { hd with sdPushcnt := hd.sdPushcnt - 1 }) := by
  obtain ⟨below,hst⟩ := List.head?_eq_some_iff.mp hm
  rw [popMod,hk,Option.bind_some,if_neg h0]
  simp only [hst,hname]

theorem popped_fCount (j i : ℕ) :
    ((s.popped k hd j).sw i).fCount = if 0 < j ∧ i = j then (s.sw j).fCount - 1 else (s.sw i).fCount := by
  rw [popped]
  by_cases hj : 0 < j
  · rw [if_pos hj,setCount_sw]
    simp only [hj,true_and,setHead]
  · simp only [hj,false_and,if_false,setHead]

/- The module that is popped has its count lowered when it is the one that is found. -/
theorem Consistent.popped_iff (hs : s.Consistent) (hk : s.heads[k]? = some hd) (h0 : hd.sdPushcnt ≠ 0)
    (hm : hd.stack.head? = some m) (j : ℕ) : (s.popped k hd j).Consistent ↔ j = m.slot := by
  obtain ⟨below,hst⟩ := List.head?_eq_some_iff.mp hm
  have hmem : hd ∈ s.heads := List.mem_of_getElem? hk
  have hslots : ∀ x ∈ hd.stack.tail, 0 < x.slot ∧ x.slot < MAX_STRMOD :=
    fun x hx => hs.slots hd hmem x (List.mem_of_mem_tail hx)
  have hslot : 0 < m.slot ∧ m.slot < MAX_STRMOD := hs.slots hd hmem m (hst ▸ List.mem_cons_self)
  have hpush : (hd.sdPushcnt - 1).toNat = hd.stack.tail.length := by
    have h1 := toNat_pred h0
    have h2 := hs.pushcnt hd hmem
    rw [hst,List.length_cons] at h2
    rw [hst,List.tail_cons]
    omega
  have hheads : (s.popped k hd j).heads =
      s.heads.set k { hd with stack := hd.stack.tail, sdPushcnt := hd.sdPushcnt - 1 } ∧
        (s.popped k hd j).lisFmodcnt = s.lisFmodcnt := by
    rw [popped]
    split_ifs <;> exact ⟨rfl,rfl⟩
  have hused : (s.sw m.slot).fCount ≠ 0 := by
    intro hc
    have h1 := hs.count m.slot hslot.2
    have h2 : tally (fun x => x.slot == m.slot) hd.stack ≤ s.instances m.slot :=
      le_total (f := fun hd : Head => tally (fun x : Inst => x.slot == m.slot) hd.stack) hk
    rw [hst,tally_cons_slot,if_pos rfl] at h2
    rw [hc] at h1
    simp at h1
    omega
  rw [hs.changed_iff hk hheads.1 hheads.2 hslots]
  dsimp only
  constructor
  · rintro ⟨-,hc⟩
    by_contra hne
    have h1 := hc m.slot hslot.2
    rw [popped_fCount,if_neg fun h => hne h.2.symm,hst,tally_cons_slot,if_pos rfl,List.tail_cons] at h1
    omega
  · rintro rfl
    refine ⟨hpush,fun i _ => ?_⟩
    rw [popped_fCount,hst,tally_cons_slot,List.tail_cons]
    by_cases hi : i = m.slot
    · subst hi
      have h1 := toNat_pred hused
      rw [if_pos ⟨hslot.1,rfl⟩,if_pos rfl]
      omega
    · rw [if_neg fun h => hi h.2,if_neg (Ne.symm hi)]
      omega

theorem Consistent.pop_iff (hs : s.Consistent) {waits : List Waits} {r : ℤ × Stacks}
    (h : s.popMod k waits = some r) : s.Atomic { r.2 with ret := r.1 } ↔ s.Guard (.pop k waits) := by
  obtain ⟨hd,hk,-⟩ := Option.bind_eq_some_iff.mp h
  have hmem : hd ∈ s.heads := List.mem_of_getElem? hk
  have hguard : s.Guard (.pop k waits) ↔ ∀ mod ∈ hd.stack.head?, mod.idname.map s.lisFindmod = some mod.slot := by
    simp only [Guard,hk,Option.mem_def,Option.some.injEq,forall_eq']
  rw [hguard]
  by_cases h0 : hd.sdPushcnt = 0
  · have hempty : hd.stack = [] := by
      have h1 := hs.pushcnt hd hmem
      rw [h0] at h1
      exact List.length_eq_zero_iff.mp h1.symm
    rw [popMod,hk,Option.bind_some,if_pos h0] at h
    obtain rfl := Option.some.inj h
    refine iff_of_true (hs.unchanged _) ?_
    rw [hempty]
    rintro m ⟨⟩
  · cases hm : hd.stack.head? with
    | none =>
      have h1 := hs.pushcnt hd hmem
      rw [List.head?_eq_none_iff.mp hm] at h1
      exact absurd (BitVec.eq_of_toNat_eq h1) h0
    | some m =>
      simp only [Option.mem_def,Option.some.injEq,forall_eq']
      cases hname : m.idname with
      | none =>
        obtain rfl := Option.some.inj ((popMod_nameless hk h0 hm hname waits).symm.trans h)
        refine iff_of_false (fun ha => ?_) (by simp)
        have hlt : k < s.heads.length := (List.getElem?_eq_some_iff.mp hk).1
        have hset := (ha.undone (by decide : -EINVAL < 0)).1
        have hget : (s.heads.set k { hd with sdPushcnt := hd.sdPushcnt - 1 })[k]? = s.heads[k]? := congrArg (·[k]?) hset
        rw [List.getElem?_set_self hlt,hk] at hget
        have hcnt := congrArg Head.sdPushcnt (Option.some.inj hget)
        have hpred := toNat_pred h0
        simp only at hcnt
        rw [hcnt] at hpred
        omega
      | some name =>
        obtain rfl := Option.some.inj ((popMod_done hk h0 hm hname waits).symm.trans h)
        rw [Option.map_some,Option.some.injEq,← hs.popped_iff hk h0 hm]
        refine ⟨fun ha => ?_,fun hc => ⟨fun hneg => absurd hneg (lt_irrefl 0),hc.of_ret 0⟩⟩
        exact ha.consistent.of_ret (s.popped k hd (s.lisFindmod name)).ret

theorem Consistent.atomic_iff (hs : s.Consistent) (h : s.step c = some t) : s.Atomic t ↔ s.Guard c := by
  obtain ⟨r,hr,rfl⟩ := Option.map_eq_some_iff.mp h
  cases c with
  | push k id o =>
    simp only [call] at hr
    split_ifs at hr with hid
    exact hs.push_iff ⟨hid.1,hid.2.1.trans_le hs.table⟩ hr
  | pop k waits => exact hs.pop_iff hr

variable {s0 : Stacks} {cs : List Call}

/-- As long as the calls of a run meet the condition, the counts are those of the modules on the streams.
There a call does all or, with an error, nothing, and keeps the counts right, exactly when it meets the condition. -/
theorem calls_atomic (h0 : s0.Consistent) (hm : Meets step Guard s0 cs) (h : exec step s0 cs = some s) :
    s.Consistent ∧ ∀ c t, s.step c = some t → (s.Atomic t ↔ s.Guard c) := by
  have hs : s.Consistent := by
    refine exec_preserves (fun s c t hs hg ht => ?_) h0 hm h
    exact ((hs.atomic_iff ht).mpr hg).consistent
  exact ⟨hs,fun c t ht => hs.atomic_iff ht⟩

/- A stream without modules and a table with one module, which has this name in the streamtab of its write side. -/
def oneModule (idname : Option Name) : Stacks :=
  ⟨fun i => ⟨some ⟨some ⟨true,some [109]⟩,some ⟨false,idname⟩⟩,0,if i = 1 then [109] else [],.queuePair⟩,2,[⟨[],0,9⟩],0⟩

theorem oneModule_consistent (idname : Option Name) : (oneModule idname).Consistent :=
  ⟨(by decide : 2 ≤ 256),fun _ h _ hm => absurd hm (List.mem_singleton.mp h ▸ List.not_mem_nil),
    fun _ h => List.mem_singleton.mp h ▸ rfl,fun _ _ => rfl⟩

/- A push, one that the open routine refuses, another push and a pop that waits. -/
def fourCalls : List Call :=
  [.push 0 1 ⟨[],true,true,true,0,false,false⟩,.push 0 1 ⟨[],true,true,true,12,false,false⟩,
    .push 0 1 ⟨[[true],[]],true,true,true,0,false,false⟩,.pop 0 [[true,false]]]

theorem calls_atomic_four : ∃ s, exec step (oneModule (some [109])) fourCalls = some s ∧ s.Consistent ∧
    ∀ c t, s.step c = some t → (s.Atomic t ↔ s.Guard c) := by
  have hrun : (exec step (oneModule (some [109])) fourCalls).isSome = true := by decide +kernel
  have hm : Meets step Guard (oneModule (some [109])) fourCalls := by decide +kernel
  obtain ⟨s,hs⟩ := Option.isSome_iff_exists.mp hrun
  exact ⟨s,hs,calls_atomic (oneModule_consistent _) hm hs⟩

/- A module without a name in its write side is pushed. The pop returns `-EINVAL` and has counted it off. -/
theorem pop_uncounts : ¬ ∀ s0 : Stacks, s0.Consistent → ∀ cs s, exec step s0 cs = some s →
    s.Consistent ∧ ∀ c t, s.step c = some t → s.Atomic t := by
  intro h
  let s0 := oneModule none
  let push : Call := .push 0 1 ⟨[],true,true,true,0,false,false⟩
  have hpush : ((exec step s0 [push]).bind fun s => s.step (.pop 0 [])).isSome = true := by decide +kernel
  obtain ⟨t,ht⟩ := Option.isSome_iff_exists.mp hpush
  obtain ⟨s,hs,hpop⟩ := Option.bind_eq_some_iff.mp ht
  have hcnt : (t.heads.map fun hd => (hd.stack.length,hd.sdPushcnt)) = [(1,0)] := by
    have hrun : (((exec step s0 [push]).bind fun s => s.step (.pop 0 [])).map fun t =>
        t.heads.map fun hd => (hd.stack.length,hd.sdPushcnt)) = some [(1,0)] := by decide +kernel
    rw [ht] at hrun
    exact Option.some.inj hrun
  have hatomic := (h s0 (oneModule_consistent _) [push] s hs).2 _ t hpop
  cases hh : t.heads with
  | nil =>
    rw [hh] at hcnt
    cases hcnt
  | cons hd l =>
    rw [hh] at hcnt
    have hpair := (List.cons.inj hcnt).1
    have hlen := hatomic.consistent.pushcnt hd (hh ▸ List.mem_cons_self)
    rw [(Prod.mk.inj hpair).1,(Prod.mk.inj hpair).2] at hlen
    cases hlen

end Stacks

end CSLiS.Mod.Pushing
