import CSLiS.Buffer.Tasks
import CSLiS.Buffer.Ownership

/-!
# What the tasks have of each header (head/msg.c)

The tasks' shares in a data block add up to its `db_ref`, whatever they are in the middle of, and a header or a buffer
that is no one's was given back once or is about to be.
-/

namespace CSLiS.Buffer.Tasks
open Queue Lib.Crew Lib.Exec

/- `net` is counted in `db_ref`, `use` are references to the data block, `head` is who has the header. The others are in
the middle of a call: a count that is to be tested, or raised again; a data block given up before the call takes effect;
a header nobody knows yet; headers and buffers to be given back. -/
inductive Tally
  | net
  | use
  | head
  | tests
  | raise
  | early
  | fresh
  | frees
  | rels
  deriving DecidableEq

def ind (x y : ℕ) : ℕ := if x = y then 1 else 0

@[simp] theorem ind_self (x : ℕ) : ind x x = 1 := if_pos rfl
theorem ind_ne {x y : ℕ} (h : x ≠ y) : ind x y = 0 := if_neg h

theorem ind_eq {x y : ℕ} (h : ind x y = 1) : x = y := by
  by_contra hne
  rw [ind_ne hne] at h
  cases h

def Handle.has (c : Tally) (h : Handle) (x : ℕ) : ℕ :=
  match c with
  | .net => ind h.datap x + if h.datap = h.bp then 0 else ind h.bp x
  | .use => ind h.datap x
  | .head => ind h.bp x
  | _ => 0

/- The new block of a pull-up. -/
def newHas (c : Tally) (newbp : Option ℕ) (x : ℕ) : ℕ :=
  match c with
  | .net | .use | .head | .fresh => newbp.elim 0 fun n => ind n x
  | _ => 0

def Key.has (c : Tally) (key : Key) (x : ℕ) : ℕ :=
  match key,c with
  | .ownPos bp _,.net | .ownPos bp _,.head | .decOwn bp _,.net | .decOwn bp _,.head => ind bp x
  | .ownPos _ dp,.early | .decOwn _ dp,.early => ind dp x
  | .test0 bp,.tests => ind bp x
  | .incRef _ newbp,.net | .incRef _ newbp,.use | .swap _ newbp,.use => ind newbp x
  | .incRef mp _,.head | .incRef mp _,.raise | .swap mp _,.head => ind mp x
  | .swap mp newbp,.net => ind mp x + ind newbp x
  | _,_ => 0

/- What is still to be given back. -/
def outs (c : Tally) (a : List Out) (x : ℕ) : ℕ :=
  match c with
  | .frees => a.count (.header x)
  | .rels => a.count (.buffer x)
  | _ => 0

def Pc.has (c : Tally) (pc : Pc) (x : ℕ) : ℕ :=
  match pc with
  | .idle => 0
  | .dup mp bp => mp.has c x + if c = .net ∨ c = .head ∨ c = .fresh then ind bp x else 0
  | .call h newbp | .enter h newbp _ | .dec h newbp => h.has c x + newHas c newbp x
  | .run a key z => key.has c x + (outs c a x + outs c z x)

def handlesHave (c : Tally) (hs : Multiset Handle) (x : ℕ) : ℕ := (hs.map fun h => h.has c x).sum

def Task.has (c : Tally) (t : Task) (x : ℕ) : ℕ := handlesHave c t.handles x + t.pc.has c x

def State.has (c : Tally) (s : State) (x : ℕ) : ℕ := total (fun t : Task => t.has c x) s.tasks

variable {buf : ℕ → Buf} {s : State} {sh : Shared} {t t' : Task} {i x d n : ℕ} {c : Tally} {h : Handle}
  {newbp : Option ℕ} {hs : Multiset Handle}

/- Whether the header was given out. -/
def Shared.got (s : Shared) (x : ℕ) : ℕ := if x ∈ s.used then 1 else 0

theorem got_le (s : Shared) : s.got x ≤ 1 := by
  unfold Shared.got
  split_ifs <;> omega

/- A header that is in use has a count; one that is not is given back, or will be, or its count is about to be tested or
raised again. -/
structure State.Good (s : State) (x : ℕ) : Prop where
  ref : (s.sh.ref x).val = s.has .net x
  heads : s.has .head x + s.has .tests x ≤ s.sh.got x
  unused : s.sh.got x = 0 → (s.sh.ref x).val = 0
  dead : (s.sh.ref x).val = 0 →
    s.sh.freed.count x + s.has .frees x + s.has .raise x + s.has .tests x = s.sh.got x
  alive : (s.sh.ref x).val ≠ 0 → s.sh.freed.count x + s.has .frees x + s.has .raise x = 0
  rels : s.sh.released.count x + s.has .rels x ≤ s.sh.got x
  inUse : 0 < s.has .use x → s.sh.released.count x + s.has .rels x = 0
  early : s.has .early x ≤ s.sh.freed.count x + s.has .frees x
  fresh : 0 < s.has .fresh x → (s.sh.ref x).val = 1

/- A task that has not taken the lock has the only reference; the rest of `lis_freedb` without the lock is not
reached. -/
def Pc.Fit (s : Shared) : Pc → Prop
  | .enter h _ false => (s.ref h.datap).val = 1
  | .dec h _ => (s.ref h.datap).val = 1
  | .run _ (.incRef mp newbp) _ => newbp ≠ mp
  | .run _ (.swap mp newbp) _ => newbp ≠ mp
  | .run _ (.lastOwn _) _ => False
  | .run _ (.decLast _) _ => False
  | _ => True

structure State.Inv (s : State) : Prop where
  good : ∀ x, s.Good x
  fit : ∀ t ∈ s.tasks, t.pc.Fit s.sh


theorem has_set (hi : s.tasks[i]? = some t) (sh : Shared) (t' : Task) (c : Tally) (x : ℕ) :
    State.has c ⟨sh,s.tasks.set i t'⟩ x + t.has c x = s.has c x + t'.has c x := total_set hi t' _

theorem has_le (hi : s.tasks[i]? = some t) : t.has c x ≤ s.has c x :=
  le_total (f := fun t : Task => t.has c x) hi

theorem handlesHave_add (hs hs' : Multiset Handle) :
    handlesHave c (hs + hs') x = handlesHave c hs x + handlesHave c hs' x := by
  simp [handlesHave]

theorem handlesHave_erase (hm : h ∈ hs) : handlesHave c hs x = h.has c x + handlesHave c (hs.erase h) x := by
  have := congrArg (fun m => handlesHave c m x) (Multiset.cons_erase hm)
  simpa [handlesHave] using this.symm

theorem handlesHave_single : handlesHave c {h} x = h.has c x := by simp [handlesHave]

/- What is not held has no share in the count. -/
theorem use_le_net : h.has .use x ≤ h.has .net x := Nat.le_add_right ..

theorem head_le_net : h.has .head x ≤ h.has .net x := by
  unfold Handle.has
  dsimp only
  split_ifs with he
  · rw [he]
    omega
  · omega

theorem handle_net (h : Handle) : 1 ≤ h.has .net h.datap ∧ 1 ≤ h.has .net h.bp := by
  constructor
  · exact le_trans (le_of_eq (ind_self _).symm) use_le_net
  · exact le_trans (le_of_eq (ind_self _).symm) head_le_net

theorem pc_use_le_net (pc : Pc) : pc.has .use x ≤ pc.has .net x := by
  cases pc with
  | idle => rfl
  | dup mp bp =>
    have := @use_le_net x mp
    simp only [Pc.has]
    simp
    omega
  | call h newbp | enter h newbp _ | dec h newbp =>
    have := @use_le_net x h
    simp only [Pc.has,newHas]
    omega
  | run a key z => cases key <;> simp [Pc.has,Key.has,outs]

theorem has_use_le_net : s.has .use x ≤ s.has .net x := by
  unfold State.has total
  refine List.sum_le_sum fun t _ => Nat.add_le_add ?_ (pc_use_le_net t.pc)
  exact Multiset.sum_map_le_sum_map _ _ fun h _ => use_le_net

/- A task's share is at most the count. -/
theorem State.Good.share (hg : s.Good x) (hi : s.tasks[i]? = some t) : t.has .net x ≤ (s.sh.ref x).val :=
  hg.ref ▸ has_le hi

/- Two tasks do not both have a share in a count of 1. -/
theorem State.Good.sole (hg : s.Good x) (hr : (s.sh.ref x).val = 1) (hi : s.tasks[i]? = some t) (ht : 1 ≤ t.has .net x)
    {j : ℕ} (hj : s.tasks[j]? = some t') (hne : j ≠ i) : t'.has .net x = 0 := by
  have := add_le_total (f := fun t : Task => t.has .net x) hi hj (Ne.symm hne)
  have href := hg.ref
  simp only [State.has] at href
  omega

theorem pc_fresh_le_net (pc : Pc) : pc.has .fresh x ≤ pc.has .net x := by
  cases pc with
  | idle => rfl
  | dup mp bp => simp [Pc.has,Handle.has]
  | call h newbp | enter h newbp _ | dec h newbp =>
    simp only [Pc.has,newHas,Handle.has]
    omega
  | run a key z => cases key <;> simp [Pc.has,Key.has,outs]

/- A header that is known is not fresh. -/
theorem State.Good.known (hg : s.Good x) (hi : s.tasks[i]? = some t) (ht : t.has .fresh x < t.has .net x) :
    s.has .fresh x = 0 := by
  by_contra hc
  have h1 := hg.fresh (Nat.pos_of_ne_zero hc)
  have hlt : s.has .fresh x < s.has .net x := by
    unfold State.has total
    refine List.sum_lt_sum _ _ (fun u _ => ?_) ⟨t,List.mem_of_getElem? hi,ht⟩
    have h0 : handlesHave .fresh u.handles x = 0 := by simp [handlesHave,Handle.has]
    have := @pc_fresh_le_net x u.pc
    simp only [Task.has]
    omega
  have := hg.ref
  omega

/- The tasks that stay where they are keep what they know, as long as the counts they know of are left alone. -/
theorem State.Inv.set (h : s.Inv) (hi : s.tasks[i]? = some t)
    (hgood : ∀ x, s.Good x → State.Good ⟨sh,s.tasks.set i t'⟩ x) (hfit : t'.pc.Fit sh)
    (href : ∀ x, (sh.ref x).val ≠ (s.sh.ref x).val → 1 ≤ t.has .net x ∨ (s.sh.ref x).val = 0) :
    State.Inv ⟨sh,s.tasks.set i t'⟩ := by
  refine ⟨fun x => hgood x (h.good x),fun u hu => ?_⟩
  obtain ⟨j,hj⟩ := List.getElem?_of_mem hu
  rcases set_cases hj with ⟨-,rfl⟩ | ⟨hne,hj⟩
  · exact hfit
  have hold := h.fit u (List.mem_of_getElem? hj)
  have hkeep : ∀ g : Handle, 1 ≤ u.has .net g.datap → (s.sh.ref g.datap).val = 1 → (sh.ref g.datap).val = 1 := by
    intro g hx hr
    by_contra hc
    rcases href g.datap (by omega) with ht | h0
    · have := (h.good g.datap).sole hr hi ht hj hne
      omega
    · omega
  cases hpc : u.pc with
  | idle | dup mp bp | call g newbp => trivial
  | enter g newbp l =>
    rw [hpc] at hold
    cases l with
    | true => trivial
    | false =>
      refine hkeep g ?_ hold
      have := (handle_net g).1
      simp only [Task.has,hpc,Pc.has]
      omega
  | dec g newbp =>
    rw [hpc] at hold
    refine hkeep g ?_ hold
    have := (handle_net g).1
    simp only [Task.has,hpc,Pc.has]
    omega
  | run a key z =>
    rw [hpc] at hold
    cases key <;> exact hold

/-! ### Counts -/

@[simp] theorem inc_got (s : Shared) : (s.inc d).got x = s.got x := rfl
@[simp] theorem inc_freed (s : Shared) : (s.inc d).freed = s.freed := rfl
@[simp] theorem inc_released (s : Shared) : (s.inc d).released = s.released := rfl
@[simp] theorem dec_got (s : Shared) : (s.dec d).got x = s.got x := rfl
@[simp] theorem dec_freed (s : Shared) : (s.dec d).freed = s.freed := rfl
@[simp] theorem dec_released (s : Shared) : (s.dec d).released = s.released := rfl
@[simp] theorem alloc_freed (s : Shared) : (s.alloc n).freed = s.freed := rfl
@[simp] theorem alloc_released (s : Shared) : (s.alloc n).released = s.released := rfl

theorem alloc_got {s : Shared} (h : n ∉ s.used) : (s.alloc n).got x = s.got x + ind n x := by
  rcases eq_or_ne n x with rfl | hne
  · simp [Shared.got,Shared.alloc,h]
  · simp [Shared.got,Shared.alloc,ind_ne hne,Ne.symm hne]

theorem inc_val {s : Shared} (h : s.ref d ≠ 255) (x : ℕ) : ((s.inc d).ref x).val = (s.ref x).val + ind d x := by
  rcases eq_or_ne d x with rfl | hne
  · simp [Shared.inc,Mem.uchar_val_add h]
  · simp [Shared.inc,Function.update_of_ne (Ne.symm hne),ind_ne hne]

theorem dec_val {s : Shared} (h : (s.ref d).val ≠ 0) (x : ℕ) : ((s.dec d).ref x).val + ind d x = (s.ref x).val := by
  rcases eq_or_ne d x with rfl | hne
  · have hne : s.ref d ≠ 0 := fun hc => h (by rw [hc]; rfl)
    simp only [Shared.dec,Function.update_self,Mem.uchar_val_sub hne,ind_self]
    omega
  · simp [Shared.dec,Function.update_of_ne (Ne.symm hne),ind_ne hne]

theorem alloc_val {s : Shared} (h : (s.ref n).val = 0) (x : ℕ) : ((s.alloc n).ref x).val = (s.ref x).val + ind n x := by
  rcases eq_or_ne n x with rfl | hne
  · simp [Shared.alloc,h]
  · simp [Shared.alloc,Function.update_of_ne (Ne.symm hne),ind_ne hne]

theorem val_zero {a : Uchar} : a = 0 ↔ a.val = 0 := Fin.val_eq_zero_iff.symm

end CSLiS.Buffer.Tasks
