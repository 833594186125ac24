import CSLiS.Stream.PipeClose
import CSLiS.Lib.Crew
import CSLiS.Lib.Exec

/-!
# The references of a pipe
-/

namespace CSLiS.Stream.PipeClose
open Lib.Crew Lib.Exec

/- The calls of `lis_freezestr` and `lis_unfreezestr`, and `lis_qdetach` from its call of `lis_freezestr` on. -/
def Place.inside : Place → Bool
  | .idle | .strclose _ | .probe _ | .hangup _ | .streamError _ _ | .putHung _ | .freezestr _ _ | .last _ => false
  | .unfreezestr _ c => c
  | _ => true

/- What a task means for the references of a head. `late` will take one for a mark that is set, `due` will drop the one
of a mark that is not, `check` the one of `check_for_wantenable`. `before` and `after` say whether the task that closes
the end has freed its queues. -/
inductive Part
  | late
  | due
  | check
  | before
  | after
  deriving DecidableEq, Repr

@[simp] def Place.late (x : Bool) : Place → Bool
  | .getPeer y _ => x == !y
  | _ => false

@[simp] def Place.due (x : Bool) : Place → Bool
  | .setFrozen y _ | .thawPeer y _ | .clearPeer y _ | .wake y _ | .putHd y _ | .putOwn y => x == y
  | .putHung e | .putThawed e => x == !e
  | .streamError e b | .putPipe e b => b && x == !e
  | .putPeer _ _ => true
  | _ => false

@[simp] def Place.check (x : Bool) : Place → Bool
  | .checkPut y _ => x == y
  | _ => false

@[simp] def Place.before (x : Bool) : Place → Bool
  | .strclose e | .probe e | .hangup e | .streamError e _ | .putHung e | .next e | .closing e | .unlink e => x == e
  | .freezestr e c | .getHd e c | .setFrozen e c | .freezePeer e c | .setPeer e c | .getPeer e c => c && x == e
  | _ => false

@[simp] def Place.after (x : Bool) : Place → Bool
  | .balance e | .own e | .clearOwn e | .putOwn e | .apart e | .putPipe e _ | .putThawed e | .alone e | .putAlone e |
      .last e => x == e
  | .unfreezestr y c | .checkGet y c | .checkPut y c | .clear y c | .thawPeer y c | .clearPeer y c | .putPeer y c |
      .wake y c | .putHd y c => c && x == !y
  | _ => false

@[simp] def Place.part (x : Bool) : Part → Place → Bool
  | .late => Place.late x
  | .due => Place.due x
  | .check => Place.check x
  | .before => Place.before x
  | .after => Place.after x

/- The counts of a head after a task has gone from `a` to `b`. -/
def Shift (x : Bool) (a b : Place) (n n' : Part → ℕ) : Prop :=
  ∀ p, n' p + (a.part x p).toNat = n p + (b.part x p).toNat

theorem get_taken (r : Refs) (k j : Ref) : (r.get k).taken j = r.taken j + if j = k then 1 else 0 := by
  by_cases h : j = k
  · subst h
    rw [if_pos rfl]
    exact Function.update_self ..
  · rw [if_neg h]
    exact Function.update_of_ne h ..

theorem get_rest (r : Refs) (k : Ref) :
    (r.get k).dropped = r.dropped ∧ (r.get k).tears = r.tears ∧ (r.get k).refcnt = r.refcnt + 1 := ⟨rfl,rfl,rfl⟩

theorem put_dropped (r : Refs) (k j : Ref) : (r.put k).dropped j = r.dropped j + if j = k then 1 else 0 := by
  by_cases h : j = k
  · subst h
    rw [if_pos rfl]
    exact Function.update_self ..
  · rw [if_neg h]
    exact Function.update_of_ne h ..

theorem put_rest (r : Refs) (k : Ref) : (r.put k).taken = r.taken ∧ (r.put k).refcnt = r.refcnt - 1 ∧
    (r.put k).tears = if r.refcnt = 1 then r.tears + 1 else r.tears := ⟨rfl,rfl,rfl⟩

/- STRFROZEN is set and its reference is held. -/
@[grind] def Head.held (h : Head) : Bool := h.strfrozen && !h.spent

/- The references of one head. -/
structure HeadInv (h : Head) (r : Refs) (n : Part → ℕ) (called : Bool) : Prop where
  taken : r.taken .file = 1 ∧ r.taken .pipe = 1
  freeze : r.taken .freeze + n .late = r.dropped .freeze + h.held.toNat + n .due
  check : r.taken .check = r.dropped .check + n .check
  pipe : r.dropped .pipe + h.piped.toNat = 1
  file : n .before + n .after + r.dropped .file = called.toNat
  queues : h.queues.toNat + n .after + r.dropped .file = 1
  refcnt : r.refcnt + r.dropped .file + r.dropped .pipe + r.dropped .freeze + r.dropped .check =
    r.taken .file + r.taken .pipe + r.taken .freeze + r.taken .check
  alive : r.tears = 0 ∧ 0 < r.refcnt ∨ r.tears = 1 ∧ r.refcnt = 0
  late : n .late ≤ h.held.toNat

/- One count goes up by one. -/
def Gains (p : Part) (n n' : Part → ℕ) : Prop := ∀ q, n' q = n q + if q = p then 1 else 0

section Counts

variable {h h' : Head} {r : Refs} {n n' : Part → ℕ} {called x : Bool} {a b : Place}

theorem Shift.all (hm : Shift x a b n n') :
    n' .late + (a.late x).toNat = n .late + (b.late x).toNat ∧ n' .due + (a.due x).toNat = n .due + (b.due x).toNat ∧
    n' .check + (a.check x).toNat = n .check + (b.check x).toNat ∧
    n' .before + (a.before x).toNat = n .before + (b.before x).toNat ∧
    n' .after + (a.after x).toNat = n .after + (b.after x).toNat :=
  ⟨hm .late,hm .due,hm .check,hm .before,hm .after⟩

theorem Shift.same (hm : Shift x a b n n') (hp : ∀ p, a.part x p = b.part x p) (p : Part) : n' p = n p := by
  have h := hm p
  rw [hp] at h
  exact Nat.add_right_cancel h

theorem Gains.all {p : Part} (hn : Gains p n n') :
    n' .late = n .late + (if .late = p then 1 else 0) ∧ n' .due = n .due + (if .due = p then 1 else 0) ∧
    n' .check = n .check + (if .check = p then 1 else 0) ∧ n' .before = n .before + (if .before = p then 1 else 0) ∧
    n' .after = n .after + if .after = p then 1 else 0 :=
  ⟨hn _,hn _,hn _,hn _,hn _⟩

variable (hi : HeadInv h r n called)
include hi

/- A head has not been torn down while it is open, or a pipe's end, or has a reference of a mark. -/
theorem HeadInv.lives (hl : 0 < n .before + n .after ∨ h.queues = true ∨ h.piped = true ∨ 0 < n .due) : r.tears = 0 := by
  obtain ⟨h1,h2,h3,h4,h5,h6,h7,h8,h9⟩ := hi
  have hc := Bool.toNat_le called
  rcases hl with hl | hl | hl | hl
  · omega
  · rw [hl,Bool.toNat_true] at h6
    omega
  · rw [hl,Bool.toNat_true] at h4
    omega
  · omega

/- The references do not mind the other fields. -/
theorem HeadInv.congr (hm : ∀ p, n' p = n p) (h1 : h'.held = h.held) (h2 : h'.piped = h.piped)
    (h3 : h'.queues = h.queues) : HeadInv h' r n' called := by
  obtain rfl := funext hm
  obtain ⟨a1,a2,a3,a4,a5,a6,a7,a8,a9⟩ := hi
  constructor
  all_goals simpa only [h1,h2,h3]

/- `lis_head_get` before the mark, or for `check_for_wantenable`. -/
theorem HeadInv.get (hn : Gains .due n n') (ht : r.tears = 0) : HeadInv h (r.get .freeze) n' called := by
  obtain ⟨h1,h2,h3,h4,h5,h6,h7,h8,h9⟩ := hi
  have he := hn.all
  simp only [reduceCtorEq,if_true,if_false,Nat.add_zero] at he
  constructor <;> grind -ring -linarith [get_taken,get_rest]

theorem HeadInv.getCheck (hn : Gains .check n n') (ht : r.tears = 0) : HeadInv h (r.get .check) n' called := by
  obtain ⟨h1,h2,h3,h4,h5,h6,h7,h8,h9⟩ := hi
  have he := hn.all
  simp only [reduceCtorEq,if_true,if_false,Nat.add_zero] at he
  constructor <;> grind -ring -linarith [get_taken,get_rest]

theorem HeadInv.getLate (hn : Gains .late n' n) (ht : r.tears = 0) : HeadInv h (r.get .freeze) n' called := by
  obtain ⟨h1,h2,h3,h4,h5,h6,h7,h8,h9⟩ := hi
  have he := hn.all
  simp only [reduceCtorEq,if_true,if_false,Nat.add_zero] at he
  constructor <;> grind -ring -linarith [get_taken,get_rest]

theorem HeadInv.mark (hn : Gains .due n' n) (h1 : h.held = false) (h2 : h'.held = true) (h3 : h'.piped = h.piped)
    (h4 : h'.queues = h.queues) : HeadInv h' r n' called := by
  obtain ⟨a1,a2,a3,a4,a5,a6,a7,a8,a9⟩ := hi
  have he := hn.all
  simp only [reduceCtorEq,if_true,if_false,Nat.add_zero] at he
  constructor <;> grind -ring -linarith

theorem HeadInv.markLate (hn : Gains .late n n') (h1 : h.held = false) (h2 : h'.held = true)
    (h3 : h'.piped = h.piped) (h4 : h'.queues = h.queues) : HeadInv h' r n' called := by
  obtain ⟨a1,a2,a3,a4,a5,a6,a7,a8,a9⟩ := hi
  have he := hn.all
  simp only [reduceCtorEq,if_true,if_false,Nat.add_zero] at he
  constructor <;> grind -ring -linarith

/- STRFROZEN is cleared, and the reference is to be dropped. -/
theorem HeadInv.clear (hn : Gains .due n n') (hl : n .late = 0) (h1 : h.held = true) (h2 : h'.held = false)
    (h3 : h'.piped = h.piped) (h4 : h'.queues = h.queues) : HeadInv h' r n' called := by
  obtain ⟨a1,a2,a3,a4,a5,a6,a7,a8,a9⟩ := hi
  have he := hn.all
  simp only [reduceCtorEq,if_true,if_false,Nat.add_zero] at he
  constructor <;> grind -ring -linarith

theorem HeadInv.put (hn : Gains .due n' n) : HeadInv h (r.put .freeze) n' called := by
  have htear := hi.lives (Or.inr (Or.inr (Or.inr (by have := hn .due; rw [if_pos rfl] at this; omega))))
  obtain ⟨h1,h2,h3,h4,h5,h6,h7,h8,h9⟩ := hi
  have he := hn.all
  simp only [reduceCtorEq,if_true,if_false,Nat.add_zero] at he
  constructor <;> grind -ring -linarith [put_dropped,put_rest]

theorem HeadInv.putCheck (hn : Gains .check n' n) (ht : r.tears = 0) : HeadInv h (r.put .check) n' called := by
  obtain ⟨h1,h2,h3,h4,h5,h6,h7,h8,h9⟩ := hi
  have he := hn.all
  simp only [reduceCtorEq,if_true,if_false,Nat.add_zero] at he
  constructor <;> grind -ring -linarith [put_dropped,put_rest]

/- The reference is dropped and STRFROZEN stays set. -/
theorem HeadInv.balance (hm : ∀ p, n' p = n p) (ht : r.tears = 0) (hl : n .late = 0) (h1 : h.held = true)
    (h2 : h'.held = false) (h3 : h'.piped = h.piped) (h4 : h'.queues = h.queues) :
    HeadInv h' (r.put .freeze) n' called := by
  obtain rfl := funext hm
  obtain ⟨a1,a2,a3,a4,a5,a6,a7,a8,a9⟩ := hi
  constructor <;> grind -ring -linarith [put_dropped,put_rest]

theorem HeadInv.putPipe (hm : ∀ p, n' p = n p) (h1 : h.piped = true) (h2 : h'.held = h.held)
    (h3 : h'.piped = false) (h4 : h'.queues = h.queues) : HeadInv h' (r.put .pipe) n' called := by
  have ht := hi.lives (Or.inr (Or.inr (Or.inl h1)))
  obtain rfl := funext hm
  obtain ⟨a1,a2,a3,a4,a5,a6,a7,a8,a9⟩ := hi
  constructor <;> grind -ring -linarith [put_dropped,put_rest]

theorem HeadInv.putFile (hn : Gains .after n' n) : HeadInv h (r.put .file) n' called := by
  have ht := hi.lives (Or.inl (by have := hn .after; rw [if_pos rfl] at this; omega))
  obtain ⟨h1,h2,h3,h4,h5,h6,h7,h8,h9⟩ := hi
  have he := hn.all
  simp only [reduceCtorEq,if_true,if_false,Nat.add_zero] at he
  have hc := Bool.toNat_le called
  constructor <;> grind -ring -linarith [put_dropped,put_rest]

/- The queues are freed. -/
theorem HeadInv.unlink {m : Part → ℕ} (hb : Gains .before m n) (ha : Gains .after m n') (h1 : h'.held = h.held)
    (h2 : h'.piped = h.piped) (h3 : h'.queues = false) : HeadInv h' r n' called := by
  obtain ⟨a1,a2,a3,a4,a5,a6,a7,a8,a9⟩ := hi
  have he := hb.all
  have hf := ha.all
  simp only [reduceCtorEq,if_true,if_false,Nat.add_zero] at he hf
  have hc := Bool.toNat_le called
  constructor <;> grind -ring -linarith

theorem HeadInv.close (hn : Gains .before n n') (hc : called = false) : HeadInv h r n' true := by
  obtain ⟨a1,a2,a3,a4,a5,a6,a7,a8,a9⟩ := hi
  have he := hn.all
  simp only [reduceCtorEq,if_true,if_false,Nat.add_zero] at he
  constructor <;> grind -ring -linarith

end Counts

/-! ### The two heads -/

@[grind cases,grind intro] structure Fact (h k : Head) : Prop where
  hup : h.strhup = true → h.sdPeer = false ∧ k.hangs = true
  hangs : h.hangs = true → h.strclose = true ∧ k.hangs = false
  next : h.qNext = (h.queues && k.queues)
  spent : h.spent = true → h.queues = false ∧ k.queues = false ∧ h.strfrozen = true

/- `sd_peer` is the other end while the pipe's references are held, except where `close_action` of the other end has
taken it away. -/
@[grind cases,grind intro] structure Joint (h k : Head) : Prop where
  piped : h.piped = k.piped
  peer : h.sdPeer = true → h.piped = true
  back : k.sdPeer = true → h.piped = true
  hup : h.piped = true → h.sdPeer = false → h.strhup = true
  hupBack : h.piped = true → k.sdPeer = false → k.strhup = true

/- The end has been detached: what is left of it is dropped by the other one. -/
@[grind] def Past (h k : Head) : Prop :=
  h.queues = false → (h.piped = true → h.strhup = true) ∧ (h.held = true → k.sdPeer = true)

/- Nobody is inside. -/
@[grind cases,grind intro] structure Free (h k : Head) : Prop where
  joint : Joint h k
  past : Past h k
  pastBack : Past k h

/- `lis_qdetach` of the first head has read `sd_peer`. -/
@[grind cases,grind intro] structure Reg (h k : Head) : Prop where
  piped : h.closingPipe = true → h.piped = true
  hup : h.closingPipe = false → h.piped = true → h.strhup = true
  held : k.queues = false → k.held = true → h.closingPipe = true

/- It has freed the queues. -/
@[grind cases,grind intro] structure Detach (h k : Head) : Prop where
  joint : Joint h k
  queues : h.queues = false
  hup : k.queues = false → k.piped = true → k.strhup = true
  reg : Reg h k
  spent : k.spent = false

/- The first head has been taken out of the pipe, or is about to. -/
@[grind cases,grind intro] structure Parting (h k : Head) : Prop where
  queues : h.queues = false
  peer : k.sdPeer = false
  held : h.held = false ∧ k.held = false
  piped : h.piped = true

/- After `lis_freezestr` in `lis_qdetach` the stream is frozen, or the peer has yet to be detached. -/
@[grind] def Kept (h k : Head) (c : Bool) : Prop := c = true → k.queues = false → h.held = true

@[grind] def Thawing (h k : Head) (c : Bool) : Prop :=
  (c = false → Free h k) ∧ (c = true → Detach k h) ∧ h.queues = true

theorem Thawing.joint {h k : Head} {c : Bool} (ht : Thawing h k c) : Joint h k := by
  obtain ⟨h1,h2,-⟩ := ht
  cases c with
  | false => exact (h1 rfl).joint
  | true =>
    have hj := (h2 rfl).joint
    grind -ring -linarith

/- The two heads when a task is at a place inside. -/
def Ok (f : Bool → Head) : Place → Prop
  | .getHd x _ | .setFrozen x _ => Free (f x) (f (!x)) ∧ (f x).queues = true ∧ (f x).strfrozen = false
  | .freezePeer x c => Free (f x) (f (!x)) ∧ (f x).queues = true ∧ Kept (f x) (f (!x)) c
  | .setPeer x c =>
      Free (f x) (f (!x)) ∧ (f x).queues = true ∧ Kept (f x) (f (!x)) c ∧ (f (!x)).strfrozen = false ∧
        (f x).piped = true ∧ ((f (!x)).queues = false → (f x).sdPeer = true)
  | .getPeer x c =>
      Free (f x) (f (!x)) ∧ (f x).queues = true ∧ Kept (f x) (f (!x)) c ∧ (f (!x)).held = true ∧ (f x).piped = true
  | .next e => Free (f e) (f (!e)) ∧ (f e).queues = true ∧ Kept (f e) (f (!e)) true
  | .closing e =>
      Free (f e) (f (!e)) ∧ (f e).queues = true ∧ Kept (f e) (f (!e)) true ∧ (f e).unfreezeQ = (f (!e)).queues
  | .unlink e =>
      Free (f e) (f (!e)) ∧ (f e).queues = true ∧ Kept (f e) (f (!e)) true ∧ (f e).unfreezeQ = (f (!e)).queues ∧
        Reg (f e) (f (!e))
  | .balance e => Detach (f e) (f (!e)) ∧ (f e).held = true ∧ (f (!e)).queues = false
  | .unfreezestr x c => c = true → Thawing (f x) (f (!x)) c
  | .thawPeer x c | .putPeer x c | .wake x c | .putHd x c => Thawing (f x) (f (!x)) c
  | .checkGet x c | .checkPut x c | .clear x c => Thawing (f x) (f (!x)) c ∧ (f x).held = true
  | .clearPeer x c => Thawing (f x) (f (!x)) c ∧ (f (!x)).held = true
  | .own e => Detach (f e) (f (!e)) ∧ (f (!e)).queues = true
  | .clearOwn e => Detach (f e) (f (!e)) ∧ (f (!e)).queues = true ∧ (f e).held = true
  | .putOwn e | .apart e => Detach (f e) (f (!e)) ∧ (f e).held = false
  | .putPipe e _ => Parting (f e) (f (!e)) ∧ (f (!e)).piped = true
  | .putThawed e | .alone e => Parting (f e) (f (!e)) ∧ (f (!e)).piped = false
  | .putAlone e => Parting (f e) (f (!e)) ∧ (f (!e)).piped = false ∧ (f e).sdPeer = false
  | .idle | .strclose _ | .probe _ | .hangup _ | .streamError _ _ | .putHung _ | .freezestr _ _ | .last _ => True

/- `close_action` is between its test of the peer and `lis_stream_error`. -/
def Place.marks : Place → Option Bool
  | .hangup e | .streamError e _ => some e
  | _ => none

/- The head whose STRFROZEN the task has tested and not yet acted on. -/
def Place.deciding : Place → Option Bool
  | .getHd x _ | .setFrozen x _ | .checkGet x _ | .checkPut x _ | .clear x _ | .clearOwn x => some x
  | .setPeer x _ | .getPeer x _ | .clearPeer x _ => some (!x)
  | _ => none

def Place.enters : Place → Bool
  | .freezestr _ _ => true
  | .unfreezestr _ c => !c
  | _ => false

/- The queue that another function than `lis_qdetach` freezes or thaws. -/
def Place.user : Place → Option Bool
  | .freezestr x c | .unfreezestr x c => if c then none else some x
  | _ => none

def Place.hangs : Place → Option Bool
  | .hangup e => some e
  | _ => none

/- The head a reference of which is dropped. -/
def Place.puts : Place → Option Bool
  | .putHung e | .putPipe e _ | .putThawed e => some (!e)
  | .balance e | .putOwn e | .putAlone e | .last e => some e
  | .checkPut x _ | .putHd x _ => some x
  | .putPeer x _ => some (!x)
  | _ => none

namespace Sys

variable {s t : Sys} {i j : ℕ} {a b o : Place} {x y e c : Bool}

def counts (s : Sys) (x : Bool) : Part → ℕ := fun p => tally (Place.part x p) s.tasks

def Marked (s : Sys) : Place → Prop
  | .probe e => (s.head e).strclose = true
  | .hangup e => (s.head e).hangs = true ∧ (s.refs (!e)).tears = 0
  | .streamError e _ => (s.refs (!e)).tears = 0
  | _ => True

structure Inv (s : Sys) : Prop where
  head : ∀ x, HeadInv (s.head x) (s.refs x) (s.counts x) (s.called x)
  fact : ∀ x, Fact (s.head x) (s.head (!x))
  one : tally Place.inside s.tasks ≤ 1
  marks : ∀ (j : ℕ) o, s.tasks[j]? = some o → s.Marked o
  ok : ∀ (j : ℕ) o, s.tasks[j]? = some o → Ok s.head o
  free : tally Place.inside s.tasks = 0 → ∀ x, Free (s.head x) (s.head (!x))
  safe : s.fault = false

theorem joint_other {f : Bool → Head} (hj : Joint (f x) (f (!x))) (hp : (f e).sdPeer = true) :
    (f (!e)).piped = true := by
  rcases Bool.eq_or_eq_not e x with rfl | rfl
  · grind -ring -linarith
  · rw [Bool.not_not]
    grind -ring -linarith

theorem ends {P : Bool → Prop} (x : Bool) (h1 : P x) (h2 : P (!x)) (y : Bool) : P y := by
  rcases Bool.eq_or_eq_not y x with rfl | rfl
  · exact h1
  · exact h2

theorem ok_outside (f : Bool → Head) (h : o.inside = false) : Ok f o := by
  cases o with
  | idle | strclose | probe | hangup | streamError | putHung | freezestr | last => trivial
  | unfreezestr x c =>
    intro hc
    rw [hc] at h
    cases h
  | _ => cases h

theorem counts_shift (ha : s.tasks[i]? = some a) (b : Place) (x : Bool) :
    Shift x a b (s.counts x) fun p => tally (Place.part x p) (s.tasks.set i b) :=
  fun p => tally_set ha b (Place.part x p)

/- The other tasks are outside when one is inside. -/
theorem Inv.others (hi : s.Inv) (ha : s.tasks[i]? = some a) (hin : a.inside = true) (hj : j ≠ i)
    (ho : s.tasks[j]? = some o) : o.inside = false := by
  have hmem : o ∈ s.tasks.set i .idle := by
    refine List.mem_of_getElem? (i := j) ?_
    rw [List.getElem?_set_ne (Ne.symm hj)]
    exact ho
  rcases tally_alone hi.one ha hin .idle o hmem with rfl | h
  · rfl
  · exact h

theorem Marked.kept (hh : ∀ x, ((s.head x).hangs = true → (t.head x).hangs = true) ∧
    ((s.head x).strclose = true → (t.head x).strclose = true))
    (ht : ∀ e ∈ o.marks, (s.refs (!e)).tears = 0 → (t.refs (!e)).tears = 0) (h : s.Marked o) : t.Marked o := by
  cases o with
  | probe e => exact (hh e).2 h
  | hangup e => exact ⟨(hh e).1 h.1,ht e rfl h.2⟩
  | streamError e b => exact ht e rfl h
  | _ => trivial

/- Another task stands at `o`. -/
def Other (s : Sys) (i : ℕ) (o : Place) : Prop := ∃ j : ℕ, j ≠ i ∧ s.tasks[j]? = some o

theorem none_inside (ha : s.tasks[i]? = some a) (hin : a.inside = false) (h : ∀ o, s.Other i o → o.inside = false) :
    tally Place.inside s.tasks = 0 := by
  refine List.countP_eq_zero.mpr fun o ho => ?_
  obtain ⟨j,hj⟩ := List.getElem?_of_mem ho
  by_cases hji : j = i
  · subst hji
    rw [Option.some.inj (hj.symm.trans ha),hin]
    exact Bool.false_ne_true
  · rw [h o ⟨j,hji,hj⟩]
    exact Bool.false_ne_true

/- What a step has to show. Head `y` and its references may change. What becomes of the other head does not matter for
its references. -/
structure Goes (s t : Sys) (i : ℕ) (a b : Place) (y : Bool) (h k : Head) (r : Refs) : Prop where
  tasks : t.tasks = s.tasks.set i b
  called : t.called = s.called
  head_self : t.head y = h
  head_not : t.head (!y) = k
  kin : k.held = (s.head (!y)).held ∧ k.piped = (s.head (!y)).piped ∧ k.queues = (s.head (!y)).queues ∧
    k.hangs = (s.head (!y)).hangs ∧ k.strclose = (s.head (!y)).strclose
  refs : t.refs = Function.update s.refs y r
  here : ∀ n, Shift y a b (s.counts y) n → HeadInv h r n (s.called y)
  there : ∀ p, a.part (!y) p = b.part (!y) p
  fact : Fact h k ∧ Fact k h
  hangs : ((s.head y).hangs = true → h.hangs = true) ∧ ((s.head y).strclose = true → h.strclose = true)
  tears : (s.refs y).tears = 0 → r.tears = 0 ∨ ∀ o, s.Other i o → o.marks ≠ some (!y)
  marked : t.Marked b
  safe : t.fault = false

section Goes

variable {h k : Head} {r : Refs}

theorem Goes.headInv (hg : Goes s t i a b y h k r) (hi : s.Inv) (ha : s.tasks[i]? = some a) (x : Bool) :
    HeadInv (t.head x) (t.refs x) (t.counts x) (t.called x) := by
  have hm := counts_shift ha b
  have hc : ∀ x, t.counts x = fun p => tally (Place.part x p) (s.tasks.set i b) := by
    intro x
    unfold counts
    rw [hg.tasks]
  refine ends (P := fun x => HeadInv (t.head x) (t.refs x) (t.counts x) (t.called x)) y ?_ ?_ x
  · rw [hg.head_self,hg.refs,Function.update_self,hg.called,hc]
    exact hg.here _ (hm y)
  · rw [hg.head_not,hg.refs,Function.update_of_ne (by simp),hg.called,hc]
    exact (hi.head (!y)).congr ((hm (!y)).same hg.there) hg.kin.1 hg.kin.2.1 hg.kin.2.2.1

theorem Goes.facts (hg : Goes s t i a b y h k r) (x : Bool) : Fact (t.head x) (t.head (!x)) := by
  refine ends (P := fun x => Fact (t.head x) (t.head (!x))) y ?_ ?_ x
  · rw [hg.head_self,hg.head_not]
    exact hg.fact.1
  · rw [Bool.not_not,hg.head_self,hg.head_not]
    exact hg.fact.2

theorem Goes.marks (hg : Goes s t i a b y h k r) (hi : s.Inv) (j : ℕ) (o : Place) (ho : t.tasks[j]? = some o) :
    t.Marked o := by
  rw [hg.tasks] at ho
  rcases set_cases ho with ⟨-,rfl⟩ | ⟨hj,ho⟩
  · exact hg.marked
  refine Marked.kept ?_ ?_ (hi.marks j o ho)
  · refine ends y ?_ ?_
    · rw [hg.head_self]
      exact hg.hangs
    · rw [hg.head_not,hg.kin.2.2.2.1,hg.kin.2.2.2.2]
      exact ⟨id,id⟩
  · intro e he h0
    rw [hg.refs]
    rcases Bool.eq_or_eq_not (!e) y with rfl | hy
    · rw [Function.update_self]
      rcases hg.tears h0 with h | h
      · exact h
      · exact absurd (by simpa using he) (h o ⟨j,hj,ho⟩)
    · rw [Function.update_of_ne (by rw [hy]; simp)]
      exact h0

/- A step of a task inside that goes on there. -/
theorem Goes.inner (hg : Goes s t i a b y h k r) (hi : s.Inv) (ha : s.tasks[i]? = some a) (hin : a.inside = true)
    (hok : Ok t.head b) (hfree : b.inside = false → ∀ x, Free (t.head x) (t.head (!x))) : t.Inv := by
  have hone := tally_set ha b Place.inside
  rw [← hg.tasks] at hone
  have hpos := tally_pos ha hin
  have hle := hi.one
  have hb := Bool.toNat_le b.inside
  rw [hin,Bool.toNat_true] at hone
  refine ⟨hg.headInv hi ha,hg.facts,by omega,hg.marks hi,?_,?_,hg.safe⟩
  · intro j o ho
    rw [hg.tasks] at ho
    rcases set_cases ho with ⟨-,rfl⟩ | ⟨hj,ho⟩
    · exact hok
    · exact ok_outside _ (hi.others ha hin hj ho)
  · intro h0
    refine hfree ?_
    cases hbi : b.inside with
    | false => rfl
    | true =>
      rw [hbi,Bool.toNat_true] at hone
      omega

/- A step of a task outside. -/
theorem Goes.outer (hg : Goes s t i a b y h k r) (hi : s.Inv) (ha : s.tasks[i]? = some a) (hin : a.inside = false)
    (henter : b.inside = true → ∀ o, s.Other i o → o.inside = false) (hok : Ok t.head b)
    (hstay : ∀ o, s.Other i o → Ok s.head o → Ok t.head o)
    (hfree : (∀ x, Free (s.head x) (s.head (!x))) → ∀ x, Free (t.head x) (t.head (!x))) : t.Inv := by
  have hone := tally_set ha b Place.inside
  rw [← hg.tasks,hin,Bool.toNat_false] at hone
  have hle := hi.one
  refine ⟨hg.headInv hi ha,hg.facts,?_,hg.marks hi,?_,?_,hg.safe⟩
  · cases hbi : b.inside with
    | false =>
      rw [hbi,Bool.toNat_false] at hone
      omega
    | true =>
      have hz := none_inside ha hin (henter hbi)
      rw [hbi,Bool.toNat_true] at hone
      omega
  · intro j o ho
    rw [hg.tasks] at ho
    rcases set_cases ho with ⟨-,rfl⟩ | ⟨hj,ho⟩
    · exact hok
    · exact hstay o ⟨j,hj,ho⟩ (hi.ok j o ho)
  · exact fun h0 => hfree (hi.free (by omega))

end Goes

section Alive

variable (hi : s.Inv)
include hi

theorem Inv.alive (ha : s.tasks[i]? = some a) (h : a.before x = true ∨ a.after x = true ∨ a.due x = true) :
    (s.refs x).tears = 0 := by
  have hpos : ∀ p, a.part x p = true → 0 < s.counts x p := fun p hp => tally_pos ha hp
  refine (hi.head x).lives ?_
  rcases h with h | h | h
  · exact Or.inl (Nat.add_pos_left (hpos .before h) _)
  · exact Or.inl (Nat.add_pos_right _ (hpos .after h))
  · exact Or.inr (Or.inr (Or.inr (hpos .due h)))

theorem Inv.alive_queues (h : (s.head x).queues = true) : (s.refs x).tears = 0 := (hi.head x).lives (Or.inr (Or.inl h))

theorem Inv.alive_piped (h : (s.head x).piped = true) : (s.refs x).tears = 0 :=
  (hi.head x).lives (Or.inr (Or.inr (Or.inl h)))

theorem Inv.facts (x : Bool) : Fact (s.head x) (s.head (!x)) ∧ Fact (s.head (!x)) (s.head x) := by
  have h := hi.fact (!x)
  rw [Bool.not_not] at h
  exact ⟨hi.fact x,h⟩

/- A task inside is the only one there. -/
theorem Inv.no_late (ha : s.tasks[i]? = some a) (hin : a.inside = true) (hl : a.late x = false) :
    s.counts x .late = 0 := by
  refine tally_zero_of_alone hi.one ha hin (fun o ho => ?_) hl
  cases o with
  | getPeer => rfl
  | _ => cases ho

theorem Inv.touch_safe (h : (s.refs x).tears = 0) : (s.touch x).fault = false := by
  simp only [touch,h,hi.safe,Nat.lt_irrefl,decide_false,Bool.or_false]

theorem Inv.goes_head {h : Head} (hl : (s.refs y).tears = 0)
    (here : ∀ n, Shift y a b (s.counts y) n → HeadInv h (s.refs y) n (s.called y))
    (there : ∀ p, a.part (!y) p = b.part (!y) p) (fact : Fact h (s.head (!y)) ∧ Fact (s.head (!y)) h)
    (hk : ((s.head y).hangs = true → h.hangs = true) ∧ ((s.head y).strclose = true → h.strclose = true))
    (hm : ((s.setHead y h).setPc i b).Marked b) :
    Goes s ((s.setHead y h).setPc i b) i a b y h (s.head (!y)) (s.refs y) :=
  ⟨rfl,rfl,Function.update_self ..,Function.update_of_ne (by simp) ..,⟨rfl,rfl,rfl,rfl,rfl⟩,
    (Function.update_eq_self ..).symm,here,there,fact,hk,
    fun h => Or.inl h,hm,hi.touch_safe hl⟩

theorem Inv.goes_get {k : Ref} (hl : (s.refs y).tears = 0)
    (here : ∀ n, Shift y a b (s.counts y) n → HeadInv (s.head y) ((s.refs y).get k) n (s.called y))
    (there : ∀ p, a.part (!y) p = b.part (!y) p) (hm : ((s.get y k).setPc i b).Marked b) :
    Goes s ((s.get y k).setPc i b) i a b y (s.head y) (s.head (!y)) ((s.refs y).get k) :=
  ⟨rfl,rfl,rfl,rfl,⟨rfl,rfl,rfl,rfl,rfl⟩,rfl,here,there,hi.facts y,⟨id,id⟩,fun h => Or.inl h,hm,hi.touch_safe hl⟩

omit hi in
/- Only the last put tears the structure down. -/
theorem put_tears {k : Ref} {P : Prop} (hlast : (s.refs y).refcnt = 1 → P) (h : (s.refs y).tears = 0) :
    ((s.refs y).put k).tears = 0 ∨ P := by
  by_cases h1 : (s.refs y).refcnt = 1
  · exact Or.inr (hlast h1)
  · exact Or.inl ((if_neg h1).trans h)

theorem Inv.goes_put {k : Ref} (hl : (s.refs y).tears = 0)
    (hlast : (s.refs y).refcnt = 1 → ∀ o, s.Other i o → o.marks ≠ some (!y))
    (here : ∀ n, Shift y a b (s.counts y) n → HeadInv (s.head y) ((s.refs y).put k) n (s.called y))
    (there : ∀ p, a.part (!y) p = b.part (!y) p) (hm : ((s.put y k).setPc i b).Marked b) :
    Goes s ((s.put y k).setPc i b) i a b y (s.head y) (s.head (!y)) ((s.refs y).put k) := by
  exact ⟨rfl,rfl,rfl,rfl,⟨rfl,rfl,rfl,rfl,rfl⟩,rfl,here,there,hi.facts y,⟨id,id⟩,put_tears hlast,hm,hi.touch_safe hl⟩

theorem Inv.look_safe (h : (s.refs x).tears = 0) (hp : (s.head x).sdPeer = true → (s.refs (!x)).tears = 0) :
    (s.look x).fault = false := by
  unfold look
  split_ifs with h1
  · simp only [touch,h,hp h1,hi.safe,Nat.lt_irrefl,decide_false,Bool.or_false]
  · exact hi.touch_safe h

/- The heads are only read. -/
theorem Inv.goes_same {u : Sys} (hu : u.head = s.head ∧ u.refs = s.refs ∧ u.called = s.called ∧ u.tasks = s.tasks)
    (hs : u.fault = false) (hp : ∀ x p, a.part x p = b.part x p) (hm : (u.setPc i b).Marked b) :
    Goes s (u.setPc i b) i a b true (s.head true) (s.head (!true)) (s.refs true) := by
  obtain ⟨h1,h2,h3,h4⟩ := hu
  refine ⟨?_,h3,congrFun h1 _,congrFun h1 _,⟨rfl,rfl,rfl,rfl,rfl⟩,h2.trans (Function.update_eq_self ..).symm,?_,hp _,
    hi.facts true,⟨id,id⟩,fun h => Or.inl h,hm,hs⟩
  · simp only [setPc,h4]
  · intro n hn
    exact (hi.head true).congr (hn.same (hp _)) rfl rfl rfl

end Alive

theorem free_all {f : Bool → Head} (h : Free (f x) (f (!x))) (y : Bool) : Free (f y) (f (!y)) := by
  refine ends (P := fun y => Free (f y) (f (!y))) x h ?_ y
  rw [Bool.not_not]
  grind -ring -linarith

/- `lis_freezestr` returns. -/
theorem frozen_done {f : Bool → Head} (hf : Free (f x) (f (!x))) (hq : (f x).queues = true)
    (hk : Kept (f x) (f (!x)) c) :
    Ok f (.frozen x c) ∧ ((Place.frozen x c).inside = false → ∀ y, Free (f y) (f (!y))) := by
  cases c with
  | false => exact ⟨trivial,fun _ => free_all hf⟩
  | true => exact ⟨⟨hf,hq,hk⟩,nofun⟩

/- `lis_unfreezestr` returns. -/
theorem thawed_done {f : Bool → Head} (h : Thawing (f x) (f (!x)) c) :
    Ok f (.thawed x c) ∧ ((Place.thawed x c).inside = false → ∀ y, Free (f y) (f (!y))) := by
  obtain ⟨h1,h2,h3⟩ := h
  cases c with
  | false => exact ⟨trivial,fun _ => free_all (h1 rfl)⟩
  | true =>
    refine ⟨?_,nofun⟩
    have hok : Detach (f (!x)) (f (!!x)) ∧ (f (!!x)).queues = true := by
      rw [Bool.not_not]
      exact ⟨h2 rfl,h3⟩
    exact hok

/-! ### `lis_freezestr` -/

theorem getHd_inv (hi : s.Inv) (ha : s.tasks[i]? = some (.getHd x c)) :
    ((s.get x .freeze).setPc i (.setFrozen x c)).Inv := by
  have hok := hi.ok i _ ha
  have hl := hi.alive_queues hok.2.1
  have hg : Goes s ((s.get x .freeze).setPc i (.setFrozen x c)) i (.getHd x c) (.setFrozen x c) x (s.head x)
      (s.head (!x)) ((s.refs x).get .freeze) := by
    refine hi.goes_get hl (fun n hm => ?_) (fun p => by cases p <;> simp) trivial
    refine (hi.head x).get (fun p => ?_) hl
    have hp := hm p
    cases p <;> simpa using hp
  exact hg.inner hi ha rfl hok nofun

theorem setFrozen_inv (hi : s.Inv) (ha : s.tasks[i]? = some (.setFrozen x c)) :
    ((s.setHead x { s.head x with strfrozen := true }).setPc i (.freezePeer x c)).Inv := by
  obtain ⟨hf,hq,hz⟩ := hi.ok i _ ha
  obtain ⟨h1,h2⟩ := hi.facts x
  have hg : Goes s ((s.setHead x { s.head x with strfrozen := true }).setPc i (.freezePeer x c)) i (.setFrozen x c)
      (.freezePeer x c) x { s.head x with strfrozen := true } (s.head (!x)) (s.refs x) := by
    refine hi.goes_head (hi.alive_queues hq) (fun n hm => ?_) (fun p => by cases p <;> simp) ?_ ⟨id,id⟩ trivial
    · refine (hi.head x).mark (fun p => ?_) ?_ ?_ rfl rfl
      · have hp := hm p
        cases p <;> simpa using hp.symm
      · grind -ring -linarith
      · grind -ring -linarith
    · grind -ring -linarith
  refine hg.inner hi ha rfl ?_ nofun
  rw [Ok,hg.head_self,hg.head_not]
  grind -ring -linarith

theorem freezePeer_inv (hi : s.Inv) (ha : s.tasks[i]? = some (.freezePeer x c)) :
    ((s.look x).setPc i (if (s.head x).sdPeer && !(s.head (!x)).strfrozen then .setPeer x c else .frozen x c)).Inv := by
  obtain ⟨hf,hq,hk⟩ := hi.ok i _ ha
  have hsafe : (s.look x).fault = false := by
    refine hi.look_safe (hi.alive_queues hq) fun hp => hi.alive_piped ?_
    grind -ring -linarith
  have hu : (s.look x).head = s.head ∧ (s.look x).refs = s.refs ∧ (s.look x).called = s.called ∧
      (s.look x).tasks = s.tasks := by
    unfold look
    split_ifs <;> exact ⟨rfl,rfl,rfl,rfl⟩
  split_ifs with h
  · have hg := hi.goes_same (i := i) (a := .freezePeer x c) (b := .setPeer x c) hu hsafe
      (fun y p => by cases p <;> simp) trivial
    refine hg.inner hi ha rfl ?_ nofun
    rw [show ((s.look x).setPc i (.setPeer x c)).head = s.head from hu.1,Ok]
    grind -ring -linarith
  · have hg := hi.goes_same (i := i) (a := .freezePeer x c) (b := .frozen x c) hu hsafe
      (fun y p => by cases c <;> cases p <;> simp [Place.frozen]) (by cases c <;> trivial)
    have hd := frozen_done (f := s.head) hf hq hk
    have hh : ((s.look x).setPc i (.frozen x c)).head = s.head := hu.1
    refine hg.inner hi ha rfl ?_ ?_
    · rw [hh]
      exact hd.1
    · rw [hh]
      exact hd.2

theorem setPeer_inv (hi : s.Inv) (ha : s.tasks[i]? = some (.setPeer x c)) :
    ((s.setHead (!x) { s.head (!x) with strfrozen := true }).setPc i (.getPeer x c)).Inv := by
  obtain ⟨hf,hq,hk,hz,hp,hb⟩ := hi.ok i _ ha
  obtain ⟨h1,h2⟩ := hi.facts x
  have hg : Goes s ((s.setHead (!x) { s.head (!x) with strfrozen := true }).setPc i (.getPeer x c)) i (.setPeer x c)
      (.getPeer x c) (!x) { s.head (!x) with strfrozen := true } (s.head (!!x)) (s.refs (!x)) := by
    have hl : (s.refs (!x)).tears = 0 := hi.alive_piped (by grind -ring -linarith)
    refine hi.goes_head hl (fun n hm => ?_) (fun p => by cases p <;> simp) ?_ ⟨id,id⟩ trivial
    · refine (hi.head (!x)).markLate (fun p => ?_) ?_ ?_ rfl rfl
      · have hp := hm p
        cases p <;> simpa using hp
      · grind -ring -linarith
      · grind -ring -linarith
    · rw [Bool.not_not]
      grind -ring -linarith
  refine hg.inner hi ha rfl ?_ nofun
  have h3 := hg.head_not
  rw [Bool.not_not] at h3
  rw [Ok,hg.head_self,h3]
  grind -ring -linarith

theorem getPeer_inv (hi : s.Inv) (ha : s.tasks[i]? = some (.getPeer x c)) :
    ((s.get (!x) .freeze).setPc i (.frozen x c)).Inv := by
  obtain ⟨hf,hq,hk,hz,hp⟩ := hi.ok i _ ha
  have hl : (s.refs (!x)).tears = 0 := hi.alive_piped (by grind -ring -linarith)
  have hg : Goes s ((s.get (!x) .freeze).setPc i (.frozen x c)) i (.getPeer x c) (.frozen x c) (!x) (s.head (!x))
      (s.head (!!x)) ((s.refs (!x)).get .freeze) := by
    refine hi.goes_get hl (fun n hm => ?_) (fun p => ?_) (by cases c <;> trivial)
    · refine (hi.head (!x)).getLate (fun p => ?_) hl
      have hp := hm p
      cases c <;> cases p <;> simpa [Place.frozen] using hp.symm
    · cases c <;> cases p <;> simp [Place.frozen]
  have hd := frozen_done (f := s.head) hf hq hk
  exact hg.inner hi ha rfl hd.1 hd.2

/-! ### `lis_qdetach` -/

theorem next_inv (hi : s.Inv) (ha : s.tasks[i]? = some (.next e)) :
    ((s.setHead e { s.head e with unfreezeQ := (s.head e).qNext }).setPc i (.closing e)).Inv := by
  obtain ⟨hf,hq,hk⟩ := hi.ok i _ ha
  obtain ⟨h1,h2⟩ := hi.facts e
  have hg := hi.goes_head (i := i) (a := .next e) (b := .closing e)
    (h := { s.head e with unfreezeQ := (s.head e).qNext }) (hi.alive_queues hq)
    (fun n hm => (hi.head e).congr (hm.same fun p => by cases p <;> simp) rfl rfl rfl)
    (fun p => by cases p <;> simp) (by grind -ring -linarith) ⟨id,id⟩ trivial
  refine hg.inner hi ha rfl ?_ nofun
  rw [Ok,hg.head_self,hg.head_not]
  grind -ring -linarith

theorem closing_inv (hi : s.Inv) (ha : s.tasks[i]? = some (.closing e)) :
    ((s.setHead e { s.head e with closingPipe := (s.head e).sdPeer }).setPc i (.unlink e)).Inv := by
  obtain ⟨hf,hq,hk,hu⟩ := hi.ok i _ ha
  obtain ⟨h1,h2⟩ := hi.facts e
  have hg := hi.goes_head (i := i) (a := .closing e) (b := .unlink e)
    (h := { s.head e with closingPipe := (s.head e).sdPeer }) (hi.alive_queues hq)
    (fun n hm => (hi.head e).congr (hm.same fun p => by cases p <;> simp) rfl rfl rfl)
    (fun p => by cases p <;> simp) (by grind -ring -linarith) ⟨id,id⟩ trivial
  refine hg.inner hi ha rfl ?_ nofun
  rw [Ok,hg.head_self,hg.head_not]
  grind -ring -linarith

/- The two heads after the queues of the first one have been taken out and freed. -/
theorem unlink_heads (e : Bool) : (s.unlink e).1.head e = { s.head e with qNext := false, queues := false } ∧
    (s.unlink e).1.head (!e) = { s.head (!e) with qNext := !(s.head e).qNext && (s.head (!e)).qNext } := by
  have hne : e ≠ !e := by simp
  unfold unlink
  simp only
  split_ifs with h
  · refine ⟨?_,?_⟩
    · simp only [setHead,Function.update_of_ne hne,Function.update_self]
    · rw [h]
      exact Function.update_self ..
  · rw [Bool.not_eq_true] at h
    refine ⟨Function.update_self ..,?_⟩
    simp only [setHead,Function.update_of_ne hne.symm,h,Bool.not_false,Bool.true_and]

theorem unlink_rest (e : Bool) : (s.unlink e).1.tasks = s.tasks ∧ (s.unlink e).1.called = s.called ∧
    (s.unlink e).1.refs = s.refs ∧ (s.unlink e).1.fault = (s.touch e).fault := by
  unfold unlink
  simp only
  split_ifs <;> exact ⟨rfl,rfl,rfl,rfl⟩

theorem unlink_goes (hi : s.Inv) (ha : s.tasks[i]? = some (.unlink e)) (hb : ∀ x, b.before x = false)
    (hafter : ∀ x, b.after x = (x == e)) (hrest : ∀ x, b.late x = false ∧ b.due x = false ∧ b.check x = false)
    (hm : ((s.unlink e).1.setPc i b).Marked b) : Goes s ((s.unlink e).1.setPc i b) i (.unlink e) b e
      { s.head e with qNext := false, queues := false }
      { s.head (!e) with qNext := !(s.head e).qNext && (s.head (!e)).qNext } (s.refs e) := by
  obtain ⟨hf,hq,hk,hu,hr⟩ := hi.ok i _ ha
  obtain ⟨h1,h2⟩ := hi.facts e
  obtain ⟨t1,t2,t3,t4⟩ := unlink_rest (s := s) e
  obtain ⟨u1,u2⟩ := unlink_heads (s := s) e
  refine ⟨?_,t2,u1,u2,⟨rfl,rfl,rfl,rfl,rfl⟩,t3.trans (Function.update_eq_self ..).symm,fun n hn => ?_,fun p => ?_,?_,⟨id,id⟩,
    fun h => Or.inl h,hm,t4.trans (hi.touch_safe (hi.alive_queues hq))⟩
  · simp only [setPc,t1]
  · have hall := hn.all
    simp only [hb,hafter,hrest] at hall
    refine (hi.head e).unlink (m := fun p => if p = .before then n .before else s.counts e p) (fun p => ?_)
      (fun p => ?_) rfl rfl rfl
    · cases p <;> simp at hall ⊢
      omega
    · cases p <;> simp at hall ⊢ <;> omega
  · cases p <;> simp only [Place.part,hb,hafter,hrest] <;> simp
  · grind -ring -linarith

theorem unlink_inv (hi : s.Inv) (ha : s.tasks[i]? = some (.unlink e)) : ((s.unlink e).1.setPc i (s.unlink e).2).Inv := by
  obtain ⟨hf,hq,hk,hu,hr⟩ := hi.ok i _ ha
  obtain ⟨h1,h2⟩ := hi.facts e
  have hto : (s.unlink e).2 = if (s.head e).unfreezeQ then .unfreezestr (!e) true else .balance e := rfl
  rw [hto]
  split_ifs with h
  · have hg := unlink_goes (b := .unfreezestr (!e) true) hi ha (fun _ => rfl) (fun x => by simp)
      (fun _ => ⟨rfl,rfl,rfl⟩) trivial
    refine hg.inner hi ha rfl ?_ nofun
    rw [Ok,Bool.not_not,hg.head_self,hg.head_not]
    grind -ring -linarith
  · have hg := unlink_goes (b := .balance e) hi ha (fun _ => rfl) (fun _ => rfl) (fun _ => ⟨rfl,rfl,rfl⟩) trivial
    refine hg.inner hi ha rfl ?_ nofun
    rw [Ok,hg.head_self,hg.head_not]
    grind -ring -linarith

/- The reference of STRFROZEN is dropped, and the bit stays. -/
theorem balance_inv (hi : s.Inv) (ha : s.tasks[i]? = some (.balance e))
    (hlast : (s.refs e).refcnt = 1 → ∀ o, s.Other i o → o.marks ≠ some (!e)) :
    (({ s.put e .freeze with head := Function.update s.head e { s.head e with spent := true } } : Sys).setPc i
      (.apart e)).Inv := by
  obtain ⟨hd,hh,hq⟩ := hi.ok i _ ha
  obtain ⟨h1,h2⟩ := hi.facts e
  have hl := hi.alive (x := e) ha (Or.inr (Or.inl (by simp)))
  have hnl := hi.no_late (x := e) ha rfl rfl
  have hg : Goes s (({ s.put e .freeze with head := Function.update s.head e { s.head e with spent := true } } : Sys).setPc
      i (.apart e)) i (.balance e) (.apart e) e { s.head e with spent := true } (s.head (!e))
      ((s.refs e).put .freeze) := by
    refine ⟨rfl,rfl,Function.update_self ..,Function.update_of_ne (by simp) ..,⟨rfl,rfl,rfl,rfl,rfl⟩,rfl,fun n hm => ?_,
      fun p => by cases p <;> simp,by grind -ring -linarith,⟨id,id⟩,put_tears hlast,trivial,hi.touch_safe hl⟩
    refine (hi.head e).balance (hm.same fun p => by cases p <;> simp) hl hnl hh ?_ rfl rfl
    grind -ring -linarith
  refine hg.inner hi ha rfl ?_ nofun
  rw [Ok,hg.head_self,hg.head_not]
  grind -ring -linarith

theorem own_inv (hi : s.Inv) (ha : s.tasks[i]? = some (.own e)) :
    ((s.touch e).setPc i (if (s.head e).strfrozen then .clearOwn e else .apart e)).Inv := by
  obtain ⟨hd,hq⟩ := hi.ok i _ ha
  obtain ⟨h1,h2⟩ := hi.facts e
  have hl := hi.alive (x := e) ha (Or.inr (Or.inl (by simp)))
  split_ifs with h
  · have hg := hi.goes_same (i := i) (a := .own e) (b := .clearOwn e) (u := s.touch e) ⟨rfl,rfl,rfl,rfl⟩
      (hi.touch_safe hl) (fun y p => by cases p <;> simp) trivial
    refine hg.inner hi ha rfl ?_ nofun
    rw [show ((s.touch e).setPc i (.clearOwn e)).head = s.head from rfl,Ok]
    grind -ring -linarith
  · have hg := hi.goes_same (i := i) (a := .own e) (b := .apart e) (u := s.touch e) ⟨rfl,rfl,rfl,rfl⟩
      (hi.touch_safe hl) (fun y p => by cases p <;> simp) trivial
    refine hg.inner hi ha rfl ?_ nofun
    rw [show ((s.touch e).setPc i (.apart e)).head = s.head from rfl,Ok]
    grind -ring -linarith

theorem clearOwn_inv (hi : s.Inv) (ha : s.tasks[i]? = some (.clearOwn e)) :
    ((s.setHead e { s.head e with strfrozen := false }).setPc i (.putOwn e)).Inv := by
  obtain ⟨hd,hq,hh⟩ := hi.ok i _ ha
  obtain ⟨h1,h2⟩ := hi.facts e
  have hl := hi.alive (x := e) ha (Or.inr (Or.inl (by simp)))
  have hnl := hi.no_late (x := e) ha rfl rfl
  have hg := hi.goes_head (i := i) (a := .clearOwn e) (b := .putOwn e) (h := { s.head e with strfrozen := false }) hl
    (fun n hm => (hi.head e).clear (fun p => by have := hm p; cases p <;> simpa using this) hnl hh rfl rfl rfl)
    (fun p => by cases p <;> simp) (by grind -ring -linarith) ⟨id,id⟩ trivial
  refine hg.inner hi ha rfl ?_ nofun
  rw [Ok,hg.head_self,hg.head_not]
  grind -ring -linarith

theorem putOwn_inv (hi : s.Inv) (ha : s.tasks[i]? = some (.putOwn e))
    (hlast : (s.refs e).refcnt = 1 → ∀ o, s.Other i o → o.marks ≠ some (!e)) :
    ((s.put e .freeze).setPc i (.apart e)).Inv := by
  have hok := hi.ok i _ ha
  have hl := hi.alive (x := e) ha (Or.inr (Or.inl (by simp)))
  have hg := hi.goes_put (i := i) (a := .putOwn e) (b := .apart e) hl hlast
    (fun n hm => (hi.head e).put (fun p => by have := (hm p).symm; cases p <;> simpa using this))
    (fun p => by cases p <;> simp) trivial
  exact hg.inner hi ha rfl hok nofun

theorem apart_inv (hi : s.Inv) (ha : s.tasks[i]? = some (.apart e)) : ((s.apart e).1.setPc i (s.apart e).2).Inv := by
  obtain ⟨hd,hh⟩ := hi.ok i _ ha
  obtain ⟨h1,h2⟩ := hi.facts e
  unfold apart
  simp only
  split_ifs with h
  · have hl : (s.refs (!e)).tears = 0 := hi.alive_piped (by grind -ring -linarith)
    have hnl := hi.no_late (x := !e) ha rfl rfl
    have hfact : Fact { s.head (!e) with sdPeer := false, strfrozen := false } (s.head (!!e)) ∧
        Fact (s.head (!!e)) { s.head (!e) with sdPeer := false, strfrozen := false } := by
      rw [Bool.not_not]
      grind -ring -linarith
    have hg := hi.goes_head (i := i) (a := .apart e) (b := .putPipe e (s.head (!e)).strfrozen)
      (h := { s.head (!e) with sdPeer := false, strfrozen := false }) hl
      (fun n hm => by
        cases hz : (s.head (!e)).strfrozen with
        | false =>
          refine (hi.head (!e)).congr (hm.same fun p => ?_) ?_ rfl rfl
          · rw [hz]
            cases p <;> simp
          · rw [Head.held,Head.held,hz]
        | true =>
          refine (hi.head (!e)).clear (fun p => ?_) hnl ?_ rfl rfl rfl
          · have := hm p
            rw [hz] at this
            cases p <;> simpa using this
          · grind -ring -linarith)
      (fun p => by cases p <;> simp) hfact ⟨id,id⟩ trivial
    refine hg.inner hi ha rfl ?_ nofun
    have h3 := hg.head_not
    rw [Bool.not_not] at h3
    rw [Ok,hg.head_self,h3]
    grind -ring -linarith
  · have hg := hi.goes_same (i := i) (a := .apart e) (b := .last e) (u := s) ⟨rfl,rfl,rfl,rfl⟩ hi.safe
      (fun y p => by cases p <;> simp) trivial
    refine hg.inner hi ha rfl trivial fun _ => free_all (x := e) ?_
    rw [show (s.setPc i (.last e)).head = s.head from rfl]
    grind -ring -linarith

theorem Inv.goes_putPiped (hi : s.Inv) (hp : (s.head y).piped = true)
    (hlast : (s.refs y).refcnt = 1 → ∀ o, s.Other i o → o.marks ≠ some (!y)) (hm : ((s.putPiped y).setPc i b).Marked b)
    (hsame : ∀ x p, a.part x p = b.part x p) :
    Goes s ((s.putPiped y).setPc i b) i a b y { s.head y with piped := false } (s.head (!y))
      ((s.refs y).put .pipe) := by
  obtain ⟨h1,h2⟩ := hi.facts y
  refine ⟨rfl,rfl,Function.update_self ..,Function.update_of_ne (by simp) ..,⟨rfl,rfl,rfl,rfl,rfl⟩,rfl,fun n hn => ?_,
    hsame _,by grind -ring -linarith,⟨id,id⟩,put_tears hlast,hm,hi.touch_safe (hi.alive_piped hp)⟩
  exact (hi.head y).putPipe (hn.same (hsame y)) hp rfl rfl rfl

theorem putPipe_inv (hi : s.Inv) (ha : s.tasks[i]? = some (.putPipe e c))
    (hlast : (s.refs (!e)).refcnt = 1 → ∀ o, s.Other i o → o.marks ≠ some (!!e)) :
    ((s.putPiped (!e)).setPc i (if c then .putThawed e else .alone e)).Inv := by
  obtain ⟨hd,hp⟩ := hi.ok i _ ha
  have hg := hi.goes_putPiped (i := i) (a := .putPipe e c) (b := if c then .putThawed e else .alone e) hp hlast
    (by cases c <;> trivial) (fun x p => by cases c <;> cases p <;> simp)
  have h3 := hg.head_not
  rw [Bool.not_not] at h3
  refine hg.inner hi ha rfl ?_ (fun hb => ?_)
  · cases c with
    | true =>
      rw [if_pos rfl] at hg h3 ⊢
      rw [Ok,hg.head_self,h3]
      grind -ring -linarith
    | false =>
      rw [if_neg Bool.false_ne_true] at hg h3 ⊢
      rw [Ok,hg.head_self,h3]
      grind -ring -linarith
  · cases c <;> cases hb

theorem putThawed_inv (hi : s.Inv) (ha : s.tasks[i]? = some (.putThawed e))
    (hlast : (s.refs (!e)).refcnt = 1 → ∀ o, s.Other i o → o.marks ≠ some (!!e)) :
    ((s.put (!e) .freeze).setPc i (.alone e)).Inv := by
  have hok := hi.ok i _ ha
  have hl := hi.alive (x := !e) ha (Or.inr (Or.inr (by simp)))
  have hg := hi.goes_put (i := i) (a := .putThawed e) (b := .alone e) hl hlast
    (fun n hm => (hi.head (!e)).put (fun p => by have := (hm p).symm; cases p <;> simpa using this))
    (fun p => by cases p <;> simp) trivial
  exact hg.inner hi ha rfl hok nofun

theorem alone_inv (hi : s.Inv) (ha : s.tasks[i]? = some (.alone e)) :
    ((s.setHead e { s.head e with sdPeer := false }).setPc i (.putAlone e)).Inv := by
  obtain ⟨hd,hp⟩ := hi.ok i _ ha
  obtain ⟨h1,h2⟩ := hi.facts e
  have hl := hi.alive (x := e) ha (Or.inr (Or.inl (by simp)))
  have hg := hi.goes_head (i := i) (a := .alone e) (b := .putAlone e) (h := { s.head e with sdPeer := false }) hl
    (fun n hm => (hi.head e).congr (hm.same fun p => by cases p <;> simp) rfl rfl rfl)
    (fun p => by cases p <;> simp) (by grind -ring -linarith) ⟨id,id⟩ trivial
  refine hg.inner hi ha rfl ?_ nofun
  rw [Ok,hg.head_self,hg.head_not]
  grind -ring -linarith

theorem putAlone_inv (hi : s.Inv) (ha : s.tasks[i]? = some (.putAlone e))
    (hlast : (s.refs e).refcnt = 1 → ∀ o, s.Other i o → o.marks ≠ some (!e)) :
    ((s.putPiped e).setPc i (.last e)).Inv := by
  obtain ⟨hd,hp,hz⟩ := hi.ok i _ ha
  obtain ⟨h1,h2⟩ := hi.facts e
  have hg := hi.goes_putPiped (i := i) (a := .putAlone e) (b := .last e) hd.piped hlast trivial
    (fun x p => by cases p <;> simp)
  refine hg.inner hi ha rfl trivial fun _ => free_all (x := e) ?_
  rw [hg.head_self,hg.head_not]
  grind -ring -linarith

/-! ### `lis_unfreezestr` -/

section Thaw

variable (hi : s.Inv)
include hi

/- The head that is thawed and its peer are there. -/
theorem Inv.thawing_alive (h : Thawing (s.head x) (s.head (!x)) c) :
    (s.refs x).tears = 0 ∧ ((s.head x).sdPeer = true → (s.refs (!x)).tears = 0) := by
  refine ⟨hi.alive_queues h.2.2,fun hp => hi.alive_piped ?_⟩
  have hj := h.joint
  grind -ring -linarith

/- `lis_unfreezestr` of a stream that is not frozen does nothing. -/
theorem unfreezestr_inv (ha : s.tasks[i]? = some (.unfreezestr x true)) :
    ((s.touchQueue x).setPc i (if (s.head x).strfrozen then .checkGet x true else .thawed x true)).Inv := by
  have ht : Thawing (s.head x) (s.head (!x)) true := hi.ok i _ ha rfl
  obtain ⟨h1,h2⟩ := hi.facts x
  have hsafe : (s.touchQueue x).fault = false := by
    simp only [touchQueue,hi.touch_safe (hi.thawing_alive ht).1,ht.2.2,Bool.not_true,Bool.or_false]
  split_ifs with h
  · have hg := hi.goes_same (i := i) (a := .unfreezestr x true) (b := .checkGet x true) (u := s.touchQueue x)
      ⟨rfl,rfl,rfl,rfl⟩ hsafe (fun y p => by cases p <;> simp) trivial
    refine hg.inner hi ha rfl ?_ nofun
    rw [show ((s.touchQueue x).setPc i (.checkGet x true)).head = s.head from rfl,Ok]
    grind -ring -linarith
  · have hd := thawed_done (f := s.head) ht
    have hg := hi.goes_same (i := i) (a := .unfreezestr x true) (b := .thawed x true) (u := s.touchQueue x)
      ⟨rfl,rfl,rfl,rfl⟩ hsafe (fun y p => by cases p <;> simp [Place.thawed]) trivial
    exact hg.inner hi ha rfl hd.1 hd.2

theorem checkGet_inv (ha : s.tasks[i]? = some (.checkGet x c)) : ((s.get x .check).setPc i (.checkPut x c)).Inv := by
  have hok := hi.ok i _ ha
  have hl := (hi.thawing_alive hok.1).1
  have hg := hi.goes_get (i := i) (a := .checkGet x c) (b := .checkPut x c) (k := .check) hl
    (fun n hm => (hi.head x).getCheck (fun p => by have := hm p; cases p <;> simpa using this) hl)
    (fun p => by cases p <;> simp) trivial
  exact hg.inner hi ha rfl hok nofun

theorem checkPut_inv (ha : s.tasks[i]? = some (.checkPut x c))
    (hlast : (s.refs x).refcnt = 1 → ∀ o, s.Other i o → o.marks ≠ some (!x)) :
    ((s.put x .check).setPc i (.clear x c)).Inv := by
  have hok := hi.ok i _ ha
  have hl := (hi.thawing_alive hok.1).1
  have hg := hi.goes_put (i := i) (a := .checkPut x c) (b := .clear x c) (k := .check) hl hlast
    (fun n hm => (hi.head x).putCheck (fun p => by have := (hm p).symm; cases p <;> simpa using this) hl)
    (fun p => by cases p <;> simp) trivial
  exact hg.inner hi ha rfl hok nofun

theorem clear_inv (ha : s.tasks[i]? = some (.clear x c)) :
    ((s.setHead x { s.head x with strfrozen := false }).setPc i (.thawPeer x c)).Inv := by
  obtain ⟨ht,hh⟩ := hi.ok i _ ha
  obtain ⟨h1,h2⟩ := hi.facts x
  have hl := (hi.thawing_alive ht).1
  have hq := ht.2.2
  have hnl := hi.no_late (x := x) ha rfl rfl
  have hg := hi.goes_head (i := i) (a := .clear x c) (b := .thawPeer x c) (h := { s.head x with strfrozen := false }) hl
    (fun n hm => (hi.head x).clear (fun p => by have := hm p; cases p <;> simpa using this) hnl hh rfl rfl rfl)
    (fun p => by cases p <;> simp) (by grind -ring -linarith) ⟨id,id⟩ trivial
  refine hg.inner hi ha rfl ?_ nofun
  rw [Ok,hg.head_self,hg.head_not]
  grind -ring -linarith

theorem thawPeer_inv (ha : s.tasks[i]? = some (.thawPeer x c)) :
    ((s.look x).setPc i (if (s.head x).sdPeer && (s.head (!x)).strfrozen then .clearPeer x c else .wake x c)).Inv := by
  have ht : Thawing (s.head x) (s.head (!x)) c := hi.ok i _ ha
  obtain ⟨h1,h2⟩ := hi.facts x
  obtain ⟨hl,hlp⟩ := hi.thawing_alive ht
  have hu : (s.look x).head = s.head ∧ (s.look x).refs = s.refs ∧ (s.look x).called = s.called ∧
      (s.look x).tasks = s.tasks := by
    unfold look
    split_ifs <;> exact ⟨rfl,rfl,rfl,rfl⟩
  split_ifs with h
  · have hg := hi.goes_same (i := i) (a := .thawPeer x c) (b := .clearPeer x c) hu (hi.look_safe hl hlp)
      (fun y p => by cases p <;> simp) trivial
    refine hg.inner hi ha rfl ?_ nofun
    rw [show ((s.look x).setPc i (.clearPeer x c)).head = s.head from hu.1,Ok]
    grind -ring -linarith
  · have hg := hi.goes_same (i := i) (a := .thawPeer x c) (b := .wake x c) hu (hi.look_safe hl hlp)
      (fun y p => by cases p <;> simp) trivial
    refine hg.inner hi ha rfl ?_ nofun
    rw [show ((s.look x).setPc i (.wake x c)).head = s.head from hu.1]
    exact ht

theorem clearPeer_inv (ha : s.tasks[i]? = some (.clearPeer x c)) :
    ((s.setHead (!x) { s.head (!x) with strfrozen := false }).setPc i (.putPeer x c)).Inv := by
  obtain ⟨ht,hh⟩ := hi.ok i _ ha
  obtain ⟨h1,h2⟩ := hi.facts x
  have hnl := hi.no_late (x := !x) ha rfl rfl
  have hl : (s.refs (!x)).tears = 0 := by
    have hf := (hi.head (!x)).freeze
    have hr := (hi.head (!x)).alive
    have hc := (hi.head (!x)).refcnt
    have ho := (hi.head (!x)).check
    have hp := (hi.head (!x)).pipe
    have he := (hi.head (!x)).file
    have hb := Bool.toNat_le (s.called (!x))
    obtain ⟨k1,k2⟩ := (hi.head (!x)).taken
    rw [hh,Bool.toNat_true] at hf
    omega
  have hfact : Fact { s.head (!x) with strfrozen := false } (s.head (!!x)) ∧
      Fact (s.head (!!x)) { s.head (!x) with strfrozen := false } := by
    rw [Bool.not_not]
    have hq := ht.2.2
    grind -ring -linarith
  have hg := hi.goes_head (i := i) (a := .clearPeer x c) (b := .putPeer x c)
    (h := { s.head (!x) with strfrozen := false }) hl
    (fun n hm => (hi.head (!x)).clear (fun p => by have := hm p; cases p <;> simpa using this) hnl hh rfl rfl rfl)
    (fun p => by cases p <;> simp) hfact ⟨id,id⟩ trivial
  refine hg.inner hi ha rfl ?_ nofun
  have h3 := hg.head_not
  rw [Bool.not_not] at h3
  rw [Ok,hg.head_self,h3]
  grind -ring -linarith

theorem putPeer_inv (ha : s.tasks[i]? = some (.putPeer x c))
    (hlast : (s.refs (!x)).refcnt = 1 → ∀ o, s.Other i o → o.marks ≠ some (!!x)) :
    ((s.put (!x) .freeze).setPc i (.wake x c)).Inv := by
  have hok := hi.ok i _ ha
  have hl := hi.alive (x := !x) ha (Or.inr (Or.inr rfl))
  have hg := hi.goes_put (i := i) (a := .putPeer x c) (b := .wake x c) hl hlast
    (fun n hm => (hi.head (!x)).put (fun p => by have := (hm p).symm; cases p <;> simpa using this))
    (fun p => by cases p <;> simp) trivial
  exact hg.inner hi ha rfl hok nofun

theorem wake_inv (ha : s.tasks[i]? = some (.wake x c)) : ((s.touch x).setPc i (.putHd x c)).Inv := by
  have ht : Thawing (s.head x) (s.head (!x)) c := hi.ok i _ ha
  have hg := hi.goes_same (i := i) (a := .wake x c) (b := .putHd x c) (u := s.touch x) ⟨rfl,rfl,rfl,rfl⟩
    (hi.touch_safe (hi.thawing_alive ht).1) (fun y p => by cases p <;> simp) trivial
  exact hg.inner hi ha rfl ht nofun

theorem putHd_inv (ha : s.tasks[i]? = some (.putHd x c))
    (hlast : (s.refs x).refcnt = 1 → ∀ o, s.Other i o → o.marks ≠ some (!x)) :
    ((s.put x .freeze).setPc i (.thawed x c)).Inv := by
  have ht : Thawing (s.head x) (s.head (!x)) c := hi.ok i _ ha
  have hl := hi.alive (x := x) ha (Or.inr (Or.inr (by simp)))
  have hg := hi.goes_put (i := i) (a := .putHd x c) (b := .thawed x c) hl hlast
    (fun n hm => (hi.head x).put (fun p => by
      have := (hm p).symm
      cases c <;> cases p <;> simpa [Place.thawed] using this))
    (fun p => by cases c <;> cases p <;> simp [Place.thawed]) (by cases c <;> trivial)
  have hd := thawed_done (f := s.head) ht
  exact hg.inner hi ha rfl hd.1 hd.2

end Thaw

/-! ### Outside -/

/- Nobody inside looks at these fields only. -/
@[grind cases] structure Like (h k : Head) : Prop where
  sdPeer : k.sdPeer = h.sdPeer
  strhup : k.strhup = h.strhup
  strfrozen : k.strfrozen = h.strfrozen
  queues : k.queues = h.queues
  unfreezeQ : k.unfreezeQ = h.unfreezeQ
  closingPipe : k.closingPipe = h.closingPipe
  piped : k.piped = h.piped
  spent : k.spent = h.spent

theorem Ok.like {f g : Bool → Head} (hl : ∀ x, Like (f x) (g x)) (h : Ok f o) : Ok g o := by
  have h2 : ∀ x, Like (f x) (g x) ∧ Like (f (!x)) (g (!x)) := fun x => ⟨hl x,hl (!x)⟩
  cases o with
  | idle | strclose | probe | hangup | streamError | putHung | freezestr | last => trivial
  | getHd x | setFrozen x | freezePeer x | setPeer x | getPeer x | next x | closing x | unlink x | balance x
  | unfreezestr x | checkGet x | checkPut x | clear x | thawPeer x | clearPeer x | putPeer x | wake x | putHd x
  | own x | clearOwn x | putOwn x | apart x | putPipe x | putThawed x | alone x | putAlone x =>
    obtain ⟨k1,k2⟩ := h2 x
    simp only [Ok] at h ⊢
    grind -ring -linarith

theorem Free.like {f g : Bool → Head} (hl : ∀ x, Like (f x) (g x)) (h : ∀ x, Free (f x) (f (!x))) (x : Bool) :
    Free (g x) (g (!x)) := by
  have k1 := hl x
  have k2 := hl (!x)
  have k3 := h x
  grind -ring -linarith

/- `close_action` has hung up the peer. -/
def hung (k : Head) : Head := { k with sdPeer := false, strhup := true, strfrozen := false }

theorem Ok.hung {f g : Bool → Head} (hq : (f e).queues = true) (h1 : g e = f e) (h2 : g (!e) = Sys.hung (f (!e)))
    (hd : o.deciding ≠ some (!e)) (h : Ok f o) : Ok g o := by
  unfold Sys.hung at h2
  cases o with
  | idle | strclose | probe | hangup | streamError | putHung | freezestr | last => trivial
  | getHd x | setFrozen x | freezePeer x | setPeer x | getPeer x | next x | closing x | unlink x | balance x
  | unfreezestr x | checkGet x | checkPut x | clear x | thawPeer x | clearPeer x | putPeer x | wake x | putHd x
  | own x | clearOwn x | putOwn x | apart x | putPipe x | putThawed x | alone x | putAlone x =>
    rcases Bool.eq_or_eq_not x e with rfl | rfl <;> simp only [Ok,Place.deciding,Bool.not_not] at h hd ⊢ <;>
      grind -ring -linarith

section Outside

variable (hi : s.Inv)
include hi

theorem Inv.queues_of_before (ha : s.tasks[i]? = some a) (hb : a.before e = true) : (s.head e).queues = true := by
  have hpos : 0 < s.counts e .before := tally_pos ha hb
  have hf := (hi.head e).file
  have hq := (hi.head e).queues
  have hc := Bool.toNat_le (s.called e)
  cases h : (s.head e).queues with
  | true => rfl
  | false =>
    rw [h,Bool.toNat_false] at hq
    omega

/- The peer of an end that has its queues is there. -/
theorem Inv.peer_piped (hq : (s.head e).queues = true) (hp : (s.head e).sdPeer = true) :
    (s.head (!e)).piped = true := by
  by_cases h0 : tally Place.inside s.tasks = 0
  · have hf := hi.free h0 e
    grind -ring -linarith
  obtain ⟨o,ho,hin⟩ := List.countP_pos_iff.mp (Nat.pos_of_ne_zero h0)
  obtain ⟨j,hj⟩ := List.getElem?_of_mem ho
  have hok := hi.ok j o hj
  cases o with
  | idle | strclose | probe | hangup | streamError | putHung | freezestr | last => cases hin
  | getHd x | setFrozen x | freezePeer x | setPeer x | getPeer x | next x | closing x | unlink x | balance x
  | own x | clearOwn x | putOwn x | apart x | putPipe x | putThawed x | alone x | putAlone x =>
    rcases Bool.eq_or_eq_not x e with rfl | rfl <;> simp only [Ok,Bool.not_not] at hok <;> grind -ring -linarith
  | unfreezestr x => exact joint_other (hok hin).joint hp
  | thawPeer x | putPeer x | wake x | putHd x => exact joint_other (Thawing.joint hok) hp
  | checkGet x | checkPut x | clear x | clearPeer x => exact joint_other hok.1.joint hp

theorem strclose_inv (ha : s.tasks[i]? = some (.strclose e)) :
    ((s.setHead e { s.head e with strclose := true }).setPc i (.probe e)).Inv := by
  obtain ⟨h1,h2⟩ := hi.facts e
  have hl := hi.alive (x := e) ha (Or.inl (by simp))
  have hm : ((s.setHead e { s.head e with strclose := true }).setPc i (.probe e)).Marked (.probe e) := by
    simp only [Marked,setPc,setHead,Function.update_self]
  have hg := hi.goes_head (i := i) (a := .strclose e) (b := .probe e) (h := { s.head e with strclose := true }) hl
    (fun n hm => (hi.head e).congr (hm.same fun p => by cases p <;> simp) rfl rfl rfl)
    (fun p => by cases p <;> simp) (by grind -ring -linarith) ⟨id,fun _ => rfl⟩ hm
  have hlike : ∀ x, Like (s.head x) (((s.setHead e { s.head e with strclose := true }).setPc i (.probe e)).head x) := by
    refine ends e ?_ ?_
    · rw [hg.head_self]
      exact ⟨rfl,rfl,rfl,rfl,rfl,rfl,rfl,rfl⟩
    · rw [hg.head_not]
      exact ⟨rfl,rfl,rfl,rfl,rfl,rfl,rfl,rfl⟩
  exact hg.outer hi ha rfl nofun trivial (fun o _ ho => Ok.like hlike ho) fun hf => Free.like hlike hf

theorem probe_inv (ha : s.tasks[i]? = some (.probe e)) : ((s.probe e).1.setPc i (s.probe e).2).Inv := by
  obtain ⟨h1,h2⟩ := hi.facts e
  have hl := hi.alive (x := e) ha (Or.inl (by simp))
  have hq := hi.queues_of_before (e := e) ha (by simp)
  have hclose : (s.head e).strclose = true := hi.marks i _ ha
  have hsafe : (s.look e).fault = false := hi.look_safe hl fun hp => hi.alive_piped (hi.peer_piped hq hp)
  have hu : (s.look e).head = s.head ∧ (s.look e).refs = s.refs ∧ (s.look e).called = s.called ∧
      (s.look e).tasks = s.tasks := by
    unfold look
    split_ifs <;> exact ⟨rfl,rfl,rfl,rfl⟩
  unfold probe
  simp only
  split_ifs with h
  · simp only [Bool.and_eq_true,Bool.not_eq_true',Bool.or_eq_false_iff] at h
    have hg : Goes s (({ s.look e with head := Function.update s.head e { s.head e with hangs := true } } : Sys).setPc i
        (.hangup e)) i (.probe e) (.hangup e) e { s.head e with hangs := true } (s.head (!e)) (s.refs e) := by
      refine ⟨?_,hu.2.2.1,Function.update_self ..,Function.update_of_ne (by simp) ..,⟨rfl,rfl,rfl,rfl,rfl⟩,
        hu.2.1.trans (Function.update_eq_self ..).symm,fun n hm => ?_,fun p => by cases p <;> simp,?_,
        ⟨fun _ => rfl,id⟩,fun h => Or.inl h,⟨?_,?_⟩,hsafe⟩
      · simp only [setPc,hu.2.2.2]
      · exact (hi.head e).congr (hm.same fun p => by cases p <;> simp) rfl rfl rfl
      · grind -ring -linarith
      · simp only [setPc,Function.update_self]
      · have hr : (s.look e).refs (!e) = s.refs (!e) := congrFun hu.2.1 _
        exact (congrArg Refs.tears hr).trans (hi.alive_piped (hi.peer_piped hq h.1))
    have hlike : ∀ x, Like (s.head x) ((({ s.look e with
        head := Function.update s.head e { s.head e with hangs := true } } : Sys).setPc i (.hangup e)).head x) := by
      refine ends e ?_ ?_
      · rw [hg.head_self]
        exact ⟨rfl,rfl,rfl,rfl,rfl,rfl,rfl,rfl⟩
      · rw [hg.head_not]
        exact ⟨rfl,rfl,rfl,rfl,rfl,rfl,rfl,rfl⟩
    exact hg.outer hi ha rfl nofun trivial (fun o _ ho => Ok.like hlike ho) fun hf => Free.like hlike hf
  · have hg := hi.goes_same (i := i) (a := .probe e) (b := .freezestr e true) hu hsafe
      (fun y p => by cases p <;> simp) trivial
    have hh : ((s.look e).setPc i (.freezestr e true)).head = s.head := hu.1
    refine hg.outer hi ha rfl nofun trivial (fun o _ ho => ?_) fun hf => ?_
    · rwa [hh]
    · rwa [hh]

theorem hangup_inv (ha : s.tasks[i]? = some (.hangup e)) (hd : ∀ o, s.Other i o → o.deciding ≠ some (!e)) :
    ((s.hangup e).1.setPc i (s.hangup e).2).Inv := by
  obtain ⟨h1,h2⟩ := hi.facts e
  have hq := hi.queues_of_before (e := e) ha (by simp)
  obtain ⟨hhangs,hl⟩ : (s.head e).hangs = true ∧ (s.refs (!e)).tears = 0 := hi.marks i _ ha
  have hnl : s.counts (!e) .late = 0 := by
    refine List.countP_eq_zero.mpr fun o ho hlo => ?_
    obtain ⟨j,hj⟩ := List.getElem?_of_mem ho
    by_cases hji : j = i
    · subst hji
      obtain rfl := Option.some.inj (hj.symm.trans ha)
      cases hlo
    · refine hd o ⟨j,hji,hj⟩ ?_
      cases o with
      | getPeer x c => exact congrArg some (by simpa using (beq_iff_eq.mp hlo).symm)
      | _ => cases hlo
  have hfact : Fact (hung (s.head (!e))) (s.head (!!e)) ∧ Fact (s.head (!!e)) (hung (s.head (!e))) := by
    rw [Bool.not_not]
    grind -ring -linarith [hung]
  have hg := hi.goes_head (i := i) (a := .hangup e) (b := .streamError e (s.head (!e)).strfrozen)
    (h := hung (s.head (!e))) hl
    (fun n hm => by
      cases hz : (s.head (!e)).strfrozen with
      | false =>
        refine (hi.head (!e)).congr (hm.same fun p => ?_) ?_ rfl rfl
        · rw [hz]
          cases p <;> simp
        · rw [Head.held,Head.held,hz]
          rfl
      | true =>
        refine (hi.head (!e)).clear (fun p => ?_) hnl ?_ rfl rfl rfl
        · have := hm p
          rw [hz] at this
          cases p <;> simpa using this
        · grind -ring -linarith)
    (fun p => by cases p <;> simp) hfact ⟨id,id⟩ hl
  have h3 := hg.head_not
  rw [Bool.not_not] at h3
  refine hg.outer hi ha rfl nofun trivial (fun o hother ho => Ok.hung hq h3 hg.head_self (hd o hother) ho) fun hf => ?_
  refine free_all (x := e) ?_
  have hfe := hf e
  have h4 : ((s.hangup e).1.setPc i (s.hangup e).2).head e = s.head e := h3
  have h5 : ((s.hangup e).1.setPc i (s.hangup e).2).head (!e) = hung (s.head (!e)) := hg.head_self
  show Free (((s.hangup e).1.setPc i (s.hangup e).2).head e) (((s.hangup e).1.setPc i (s.hangup e).2).head (!e))
  rw [h4,h5]
  grind -ring -linarith [hung]

theorem streamError_inv (ha : s.tasks[i]? = some (.streamError e c)) :
    ((s.touch (!e)).setPc i (if c then .putHung e else .freezestr e true)).Inv := by
  have hl : (s.refs (!e)).tears = 0 := hi.marks i _ ha
  have hg := hi.goes_same (i := i) (a := .streamError e c) (b := if c then .putHung e else .freezestr e true)
    (u := s.touch (!e)) ⟨rfl,rfl,rfl,rfl⟩ (hi.touch_safe hl) (fun y p => by cases c <;> cases p <;> simp)
    (by cases c <;> trivial)
  refine hg.outer hi ha rfl ?_ (by cases c <;> trivial) (fun _ _ ho => ho) fun hf => hf
  cases c <;> exact fun h => Bool.noConfusion h

theorem putHung_inv (ha : s.tasks[i]? = some (.putHung e))
    (hlast : (s.refs (!e)).refcnt = 1 → ∀ o, s.Other i o → o.marks ≠ some (!!e)) :
    ((s.put (!e) .freeze).setPc i (.freezestr e true)).Inv := by
  have hl := hi.alive (x := !e) ha (Or.inr (Or.inr (by simp)))
  have hg := hi.goes_put (i := i) (a := .putHung e) (b := .freezestr e true) hl hlast
    (fun n hm => (hi.head (!e)).put (fun p => by have := (hm p).symm; cases p <;> simpa using this))
    (fun p => by cases p <;> simp) trivial
  exact hg.outer hi ha rfl nofun trivial (fun _ _ ho => ho) fun hf => hf

theorem last_inv (ha : s.tasks[i]? = some (.last e))
    (hlast : (s.refs e).refcnt = 1 → ∀ o, s.Other i o → o.marks ≠ some (!e)) :
    ((s.put e .file).setPc i .idle).Inv := by
  have hl := hi.alive (x := e) ha (Or.inr (Or.inl (by simp)))
  have hg := hi.goes_put (i := i) (a := .last e) (b := .idle) hl hlast
    (fun n hm => (hi.head e).putFile (fun p => by have := (hm p).symm; cases p <;> simpa using this))
    (fun p => by cases p <;> simp) trivial
  exact hg.outer hi ha rfl nofun trivial (fun _ _ ho => ho) fun hf => hf

theorem touchQueue_safe (hq : (s.head x).queues = true) : (s.touchQueue x).fault = false := by
  simp only [touchQueue,hi.touch_safe (hi.alive_queues hq),hq,Bool.not_true,Bool.or_false]

theorem freezestr_inv (ha : s.tasks[i]? = some (.freezestr x c)) (hq : (s.head x).queues = true)
    (henter : ∀ o, s.Other i o → o.inside = false) :
    ((s.touchQueue x).setPc i (if (s.head x).strfrozen then .frozen x c else .getHd x c)).Inv := by
  have hf := hi.free (none_inside ha rfl henter) x
  obtain ⟨h1,h2⟩ := hi.facts x
  split_ifs with h
  · have hk : Kept (s.head x) (s.head (!x)) c := by grind -ring -linarith
    have hd := frozen_done (f := s.head) hf hq hk
    have hg := hi.goes_same (i := i) (a := .freezestr x c) (b := .frozen x c) (u := s.touchQueue x) ⟨rfl,rfl,rfl,rfl⟩
      (touchQueue_safe hi hq) (fun y p => by cases c <;> cases p <;> simp [Place.frozen]) (by cases c <;> trivial)
    exact hg.outer hi ha rfl (fun _ => henter) hd.1 (fun _ _ ho => ho) fun hf => hf
  · have hg := hi.goes_same (i := i) (a := .freezestr x c) (b := .getHd x c) (u := s.touchQueue x) ⟨rfl,rfl,rfl,rfl⟩
      (touchQueue_safe hi hq) (fun y p => by cases p <;> simp) trivial
    exact hg.outer hi ha rfl (fun _ => henter) ⟨hf,hq,eq_false_of_ne_true h⟩ (fun _ _ ho => ho) fun hf => hf

/- `lis_unfreezestr` is not called by `lis_qdetach`. -/
theorem unfreezestr_enters (ha : s.tasks[i]? = some (.unfreezestr x false)) (hq : (s.head x).queues = true)
    (henter : ∀ o, s.Other i o → o.inside = false) :
    ((s.touchQueue x).setPc i (if (s.head x).strfrozen then .checkGet x false else .thawed x false)).Inv := by
  have hf := hi.free (none_inside ha rfl henter) x
  obtain ⟨h1,h2⟩ := hi.facts x
  have ht : Thawing (s.head x) (s.head (!x)) false := ⟨fun _ => hf,fun h => Bool.noConfusion h,hq⟩
  split_ifs with h
  · have hg := hi.goes_same (i := i) (a := .unfreezestr x false) (b := .checkGet x false) (u := s.touchQueue x)
      ⟨rfl,rfl,rfl,rfl⟩ (touchQueue_safe hi hq) (fun y p => by cases p <;> simp) trivial
    refine hg.outer hi ha rfl (fun _ => henter) ⟨ht,?_⟩ (fun _ _ ho => ho) fun hf => hf
    show (s.head x).held = true
    grind -ring -linarith
  · have hg := hi.goes_same (i := i) (a := .unfreezestr x false) (b := .idle) (u := s.touchQueue x)
      ⟨rfl,rfl,rfl,rfl⟩ (touchQueue_safe hi hq) (fun y p => by cases p <;> simp) trivial
    exact hg.outer hi ha rfl nofun trivial (fun _ _ ho => ho) fun hf => hf

/- The last close of an end. -/
theorem close_inv (ha : s.tasks[i]? = some .idle) (hc : s.called e = false) :
    (({ s with called := Function.update s.called e true } : Sys).setPc i (.strclose e)).Inv := by
  have hm := counts_shift ha (.strclose e)
  have hone := tally_set ha (.strclose e) Place.inside
  have htally : tally Place.inside (s.tasks.set i (.strclose e)) = tally Place.inside s.tasks := Nat.add_right_cancel hone
  have hle := hi.one
  refine ⟨ends e ?_ ?_,hi.fact,htally.trans_le hle,?_,?_,fun h => hi.free (htally.symm.trans h),hi.safe⟩
  · have hcl : (({ s with called := Function.update s.called e true } : Sys).setPc i (.strclose e)).called e = true :=
      Function.update_self ..
    have hgain : Gains .before (s.counts e) fun p => tally (Place.part e p) (s.tasks.set i (.strclose e)) := by
      intro p
      have hp := hm e p
      cases p <;> simpa using hp
    rw [hcl]
    exact (hi.head e).close hgain hc
  · have hcl : (({ s with called := Function.update s.called e true } : Sys).setPc i (.strclose e)).called (!e) =
        s.called (!e) := Function.update_of_ne (by simp) ..
    rw [hcl]
    exact (hi.head (!e)).congr ((hm (!e)).same fun p => by cases p <;> simp) rfl rfl rfl
  · intro j o ho
    rcases set_cases ho with ⟨-,rfl⟩ | ⟨-,ho⟩
    · trivial
    · exact Marked.kept (fun _ => ⟨id,id⟩) (fun _ _ h => h) (hi.marks j o ho)
  · intro j o ho
    rcases set_cases ho with ⟨-,rfl⟩ | ⟨-,ho⟩
    · trivial
    · exact hi.ok j o ho

end Outside

/-! ### Every run -/

/- `lis_freezestr`, `lis_unfreezestr` and the `lis_qdetach` of the stream head queues do not overlap, and the first two
are not called with a queue that has been freed. `close_action` does not clear STRFROZEN of the peer between another
task's test of it and what follows from the test. A head is not torn down while `close_action` of the other end is
between its test of it and `lis_stream_error`. -/
def Guard (s : Sys) : Act → Prop
  | .run i => ∀ a ∈ s.tasks[i]?, (a.enters = true → ∀ o ∈ s.tasks.eraseIdx i, o.inside = false) ∧
      (∀ x ∈ a.user, (s.head x).queues = true) ∧
      (∀ e ∈ a.hangs, ∀ o ∈ s.tasks.eraseIdx i, o.deciding ≠ some (!e)) ∧
      ∀ x ∈ a.puts, (s.refs x).refcnt = 1 → ∀ o ∈ s.tasks.eraseIdx i, o.marks ≠ some (!x)
  | _ => True

instance decGuard (s : Sys) : ∀ a, Decidable (s.Guard a)
  | .run i => inferInstanceAs (Decidable (∀ a ∈ s.tasks[i]?,
      (a.enters = true → ∀ o ∈ s.tasks.eraseIdx i, o.inside = false) ∧
      (∀ x ∈ a.user, (s.head x).queues = true) ∧
      (∀ e ∈ a.hangs, ∀ o ∈ s.tasks.eraseIdx i, o.deciding ≠ some (!e)) ∧
      ∀ x ∈ a.puts, (s.refs x).refcnt = 1 → ∀ o ∈ s.tasks.eraseIdx i, o.marks ≠ some (!x)))
  | .close .. | .lisFreezestr .. | .lisUnfreezestr .. => inferInstanceAs (Decidable True)

theorem perform_inv (hi : s.Inv) (ha : s.tasks[i]? = some a) (hg : s.Guard (.run i)) {r : Sys × Place}
    (h : s.perform a = some r) : (r.1.setPc i r.2).Inv := by
  obtain ⟨g1,g2,g3,g4⟩ := hg a ha
  have hother : ∀ o, s.Other i o → o ∈ s.tasks.eraseIdx i := fun o ho => List.mem_eraseIdx_iff_getElem?.mpr ho
  have henter : a.enters = true → ∀ o, s.Other i o → o.inside = false := fun he o ho => g1 he o (hother o ho)
  have hlast : ∀ x, a.puts = some x → (s.refs x).refcnt = 1 → ∀ o, s.Other i o → o.marks ≠ some (!x) :=
    fun x hx h1 o ho => g4 x hx h1 o (hother o ho)
  cases a with
  | idle => cases h
  | strclose e =>
    obtain rfl := Option.some.inj h
    exact strclose_inv hi ha
  | probe e =>
    obtain rfl := Option.some.inj h
    exact probe_inv hi ha
  | hangup e =>
    obtain rfl := Option.some.inj h
    exact hangup_inv hi ha fun o ho => g3 e rfl o (hother o ho)
  | streamError e b =>
    obtain rfl := Option.some.inj h
    exact streamError_inv hi ha
  | putHung e =>
    obtain rfl := Option.some.inj h
    exact putHung_inv hi ha (hlast _ rfl)
  | freezestr x c =>
    obtain rfl := Option.some.inj h
    refine freezestr_inv hi ha ?_ (henter rfl)
    cases c with
    | false => exact g2 x rfl
    | true => exact hi.queues_of_before ha (by simp)
  | getHd x c =>
    obtain rfl := Option.some.inj h
    exact getHd_inv hi ha
  | setFrozen x c =>
    obtain rfl := Option.some.inj h
    exact setFrozen_inv hi ha
  | freezePeer x c =>
    obtain rfl := Option.some.inj h
    exact freezePeer_inv hi ha
  | setPeer x c =>
    obtain rfl := Option.some.inj h
    exact setPeer_inv hi ha
  | getPeer x c =>
    obtain rfl := Option.some.inj h
    exact getPeer_inv hi ha
  | next e =>
    obtain rfl := Option.some.inj h
    exact next_inv hi ha
  | closing e =>
    obtain rfl := Option.some.inj h
    exact closing_inv hi ha
  | unlink e =>
    obtain rfl := Option.some.inj h
    exact unlink_inv hi ha
  | balance e =>
    obtain rfl := Option.some.inj h
    exact balance_inv hi ha (hlast _ rfl)
  | unfreezestr x c =>
    obtain rfl := Option.some.inj h
    cases c with
    | false => exact unfreezestr_enters hi ha (g2 x rfl) (henter rfl)
    | true => exact unfreezestr_inv hi ha
  | checkGet x c =>
    obtain rfl := Option.some.inj h
    exact checkGet_inv hi ha
  | checkPut x c =>
    obtain rfl := Option.some.inj h
    exact checkPut_inv hi ha (hlast _ rfl)
  | clear x c =>
    obtain rfl := Option.some.inj h
    exact clear_inv hi ha
  | thawPeer x c =>
    obtain rfl := Option.some.inj h
    exact thawPeer_inv hi ha
  | clearPeer x c =>
    obtain rfl := Option.some.inj h
    exact clearPeer_inv hi ha
  | putPeer x c =>
    obtain rfl := Option.some.inj h
    exact putPeer_inv hi ha (hlast _ rfl)
  | wake x c =>
    obtain rfl := Option.some.inj h
    exact wake_inv hi ha
  | putHd x c =>
    obtain rfl := Option.some.inj h
    exact putHd_inv hi ha (hlast _ rfl)
  | own e =>
    obtain rfl := Option.some.inj h
    exact own_inv hi ha
  | clearOwn e =>
    obtain rfl := Option.some.inj h
    exact clearOwn_inv hi ha
  | putOwn e =>
    obtain rfl := Option.some.inj h
    exact putOwn_inv hi ha (hlast _ rfl)
  | apart e =>
    obtain rfl := Option.some.inj h
    exact apart_inv hi ha
  | putPipe e b =>
    obtain rfl := Option.some.inj h
    exact putPipe_inv hi ha (hlast _ rfl)
  | putThawed e =>
    obtain rfl := Option.some.inj h
    exact putThawed_inv hi ha (hlast _ rfl)
  | alone e =>
    obtain rfl := Option.some.inj h
    exact alone_inv hi ha
  | putAlone e =>
    obtain rfl := Option.some.inj h
    exact putAlone_inv hi ha (hlast _ rfl)
  | last e =>
    obtain rfl := Option.some.inj h
    exact last_inv hi ha (hlast _ rfl)

theorem call_inv (hi : s.Inv) (ha : s.tasks[i]? = some .idle) (hb : b = .freezestr x false ∨ b = .unfreezestr x false) :
    (s.setPc i b).Inv := by
  have hp : ∀ y p, Place.idle.part y p = b.part y p := by
    intro y p
    rcases hb with rfl | rfl <;> cases p <;> simp
  have hg := hi.goes_same (i := i) (a := .idle) (b := b) (u := s) ⟨rfl,rfl,rfl,rfl⟩ hi.safe hp
    (by rcases hb with rfl | rfl <;> trivial)
  have hout : b.inside = false := by rcases hb with rfl | rfl <;> rfl
  exact hg.outer hi ha rfl (fun h => absurd (hout.symm.trans h) Bool.false_ne_true) (ok_outside _ hout)
    (fun _ _ ho => ho) fun hf => hf

theorem step_inv (s : Sys) (act : Act) (t : Sys) (hi : s.Inv) (hg : s.Guard act) (h : s.step act = some t) :
    t.Inv := by
  cases act with
  | close i e =>
    simp only [step] at h
    split_ifs at h with hc
    obtain rfl := Option.some.inj h
    exact close_inv hi hc.1 hc.2
  | lisFreezestr i x =>
    simp only [step] at h
    split_ifs at h with hc
    obtain rfl := Option.some.inj h
    exact call_inv hi hc (Or.inl rfl)
  | lisUnfreezestr i x =>
    simp only [step] at h
    split_ifs at h with hc
    obtain rfl := Option.some.inj h
    exact call_inv hi hc (Or.inr rfl)
  | run i =>
    obtain ⟨o,ho,h⟩ := Option.bind_eq_some_iff.mp h
    obtain ⟨r,hr,rfl⟩ := Option.map_eq_some_iff.mp h
    exact perform_inv hi ho hg hr

theorem init_inv (n : ℕ) : (init n).Inv := by
  have hidle : ∀ (j : ℕ) o, (init n).tasks[j]? = some o → o = .idle := fun j o ho =>
    List.eq_of_mem_replicate (List.mem_of_getElem? ho)
  have hc : ∀ x p, (init n).counts x p = 0 := fun x p => tally_replicate n (by cases p <;> rfl)
  have hfree : Free ((init n).head true) ((init n).head false) := by
    refine ⟨⟨rfl,fun _ => rfl,fun _ => rfl,?_,?_⟩,?_,?_⟩
    · exact fun _ h => absurd h (by decide : ¬true = false)
    · exact fun _ h => absurd h (by decide : ¬true = false)
    · exact fun h => absurd h (by decide : ¬true = false)
    · exact fun h => absurd h (by decide : ¬true = false)
  refine ⟨fun x => ?_,fun x => ?_,(tally_replicate n rfl).trans_le (Nat.zero_le 1),?_,?_,fun _ x => hfree,rfl⟩
  · refine ⟨⟨rfl,rfl⟩,?_,?_,rfl,?_,?_,rfl,Or.inl ⟨rfl,(by decide : (0 : ℤ) < 2)⟩,?_⟩
    · rw [hc,hc]
      rfl
    · rw [hc]
      rfl
    · rw [hc,hc]
      rfl
    · rw [hc]
      rfl
    · rw [hc]
      exact Nat.zero_le _
  · refine ⟨fun h => ?_,fun h => ?_,rfl,fun h => ?_⟩
    · exact absurd h (by decide : ¬false = true)
    · exact absurd h (by decide : ¬false = true)
    · exact absurd h (by decide : ¬false = true)
  · intro j o ho
    rw [hidle j o ho]
    trivial
  · intro j o ho
    rw [hidle j o ho]
    trivial

/- Both ends have been closed, and nobody calls anything. -/
def Closed (s : Sys) : Prop := (∀ x, (s.refs x).dropped .file = 1) ∧ ∀ o ∈ s.tasks, o = .idle

structure Sound (s : Sys) : Prop where
  safe : s.fault = false
  bound : ∀ x k, (s.refs x).dropped k ≤ (s.refs x).taken k
  once : ∀ x, (s.refs x).taken .pipe = 1 ∧ (s.refs x).tears ≤ 1
  closed : s.Closed → ∀ x, (∀ k, (s.refs x).dropped k = (s.refs x).taken k) ∧ (s.refs x).refcnt = 0 ∧
    (s.refs x).tears = 1

/- Both ends have been taken out of the pipe, and no mark is left. -/
theorem free_over {h k : Head} (hf : Free h k) (h1 : Fact h k) (h2 : Fact k h) (hh : h.queues = false)
    (hk : k.queues = false) : h.piped = false ∧ h.held = false := by
  grind -ring -linarith

theorem Inv.closed (hi : s.Inv) (hc : s.Closed) (x : Bool) : (∀ k, (s.refs x).dropped k = (s.refs x).taken k) ∧
    (s.refs x).refcnt = 0 ∧ (s.refs x).tears = 1 := by
  obtain ⟨hfile,hidle⟩ := hc
  have hzero : ∀ (y : Bool) (p : Part), s.counts y p = 0 := by
    refine fun y p => List.countP_eq_zero.mpr fun o ho => ?_
    rw [hidle o ho]
    cases p <;> exact Bool.false_ne_true
  have hin : tally Place.inside s.tasks = 0 := by
    refine List.countP_eq_zero.mpr fun o ho => ?_
    rw [hidle o ho]
    exact Bool.false_ne_true
  have hq : ∀ y, (s.head y).queues = false := by
    intro y
    have h := (hi.head y).queues
    rw [hzero,hfile] at h
    cases hb : (s.head y).queues with
    | false => rfl
    | true =>
      rw [hb,Bool.toNat_true] at h
      omega
  obtain ⟨f1,f2⟩ := hi.facts x
  obtain ⟨hp,hh⟩ := free_over (hi.free hin x) f1 f2 (hq _) (hq _)
  obtain ⟨⟨h1,h1'⟩,h2,h3,h4,-,-,h7,h8,-⟩ := hi.head x
  have h9 := hfile x
  rw [hzero,hzero,hh,Bool.toNat_false] at h2
  rw [hzero] at h3
  rw [hp,Bool.toNat_false] at h4
  refine ⟨?_,by omega,by omega⟩
  intro k
  cases k <;> omega

theorem Inv.sound (hi : s.Inv) : s.Sound where
  safe := hi.safe
  bound x k := by
    obtain ⟨⟨h1,h1'⟩,h2,h3,h4,h5,-,-,-,h9⟩ := hi.head x
    have hc := Bool.toNat_le (s.called x)
    cases k <;> omega
  once x := by
    obtain ⟨⟨-,h1⟩,-,-,-,-,-,-,h8,-⟩ := hi.head x
    exact ⟨h1,by omega⟩
  closed hc x := hi.closed hc x

/-- Memory that has been freed is not touched, no reference of a head is dropped more often than it was taken, and no
head is torn down twice. When both ends have been closed every reference has been dropped and both heads have been torn
down. -/
theorem run_drops_once {n : ℕ} {as : List Act} (hm : Meets step Guard (init n) as)
    (h : exec step (init n) as = some s) : s.Sound :=
  (exec_preserves step_inv (init_inv n) hm h).sound

/- One end is frozen by another task. The other one is closed, and with that the pipe is thawed. -/
def closeRun : List Act :=
  [.lisFreezestr 1 true,.run 1,.run 1,.run 1,.run 1,.run 1,.run 1,.close 0 false,.run 0,.run 0,.close 1 true,.run 1,
    .run 1,.run 0,.run 0,.run 0,.run 0,.run 0,.run 0,.run 0,.run 0,.run 0,.run 0,.run 0,.run 0,.run 0,.run 0,.run 0,
    .run 0,.run 1,.run 1,.run 1,.run 1,.run 1,.run 1,.run 1,.run 1,.run 1,.run 1]

theorem run_drops_once_frozen : ∃ s, exec step (init 2) closeRun = some s ∧ s.Sound := by
  refine Exists.imp (fun s hs => ⟨hs,run_drops_once ?_ hs⟩) (Option.isSome_iff_exists.mp rfl)
  decide

example : ∃ s, exec step (init 2) closeRun = some s ∧ s.Closed := ⟨_,rfl,by decide,by decide⟩

/- Both ends are in `lis_qdetach` and have read `sd_peer`. -/
def twiceRun : List Act :=
  [.close 0 false,.run 0,.run 0,.close 1 true,.run 1,.run 1,.run 1,.run 1,.run 1,.run 1,.run 1,.run 1,.run 1,.run 1,
    .run 0,.run 0,.run 0,.run 0,.run 0,.run 0,.run 0,.run 0,.run 0,.run 0,.run 0,.run 0,.run 0,.run 0,.run 0,.run 1,
    .run 1,.run 1,.run 1,.run 1]

/- One end marks the other STRFROZEN after that one has looked at its own mark. -/
def leftRun : List Act :=
  [.close 0 false,.run 0,.close 1 true,.run 1,.run 0,.run 0,.run 0,.run 0,.run 0,.run 1,.run 1,.run 0,.run 0,.run 0,
    .run 0,.run 0,.run 0,.run 0,.run 0,.run 1,.run 1,.run 0,.run 0,.run 0,.run 0,.run 0,.run 0,.run 0,.run 1,.run 0,
    .run 0,.run 0,.run 0,.run 1,.run 1,.run 0,.run 1,.run 1,.run 1,.run 1,.run 1,.run 1]

/- A reference of the pipe is dropped twice after memory has been touched that was freed, and a head is never torn
down. -/
theorem ends_overlap :
    (¬∀ (n : ℕ) (as : List Act) (s : Sys), exec step (init n) as = some s →
      s.fault = false ∧ ∀ x, (s.refs x).dropped .pipe ≤ (s.refs x).taken .pipe) ∧
    ¬∀ (n : ℕ) (as : List Act) (s : Sys), exec step (init n) as = some s → s.Closed → ∀ x, (s.refs x).tears = 1 := by
  constructor
  · intro h
    have hbad : ∃ s, exec step (init 2) twiceRun = some s ∧ ¬(s.refs false).dropped .pipe ≤ (s.refs false).taken .pipe :=
      ⟨_,rfl,by decide⟩
    obtain ⟨s,hs,hp⟩ := hbad
    exact hp ((h _ _ s hs).2 false)
  · intro h
    have hbad : ∃ s, exec step (init 2) leftRun = some s ∧ s.Closed ∧ (s.refs false).tears ≠ 1 :=
      ⟨_,rfl,⟨by decide,by decide⟩,by decide⟩
    obtain ⟨s,hs,hc,ht⟩ := hbad
    exact ht (h _ _ s hs hc false)

end Sys

end CSLiS.Stream.PipeClose
