import CSLiS.Stream.Stropen

/-!
# Opens and closes of one device agree on the stream
-/

namespace CSLiS.Stream
open Lib.Crew Lib.Exec

namespace Opens

variable {s t : Opens} {i h k : ℕ} {p q : Place} {a b : Opener} {hd hd' : Stdata} {c c' : Place → ℕ} {act : OpenAct}

/- How many tasks are at a place with a stream head. -/
def count (s : Opens) (h : ℕ) (p : Place) : ℕ := tally (fun o => decide (o = .busy p h)) s.tasks

/- The counts after a task has gone from one place with the stream head to another one. -/
def Moves (a b : Option Place) (c c' : Place → ℕ) : Prop :=
  ∀ p, c' p + (if a = some p then 1 else 0) = c p + if b = some p then 1 else 0

/- Where a task is with the stream head. -/
def place (h : ℕ) : Opener → Option Place
  | .busy p k => if k = h then some p else none
  | _ => none

theorem place_eq_some {o : Opener} : place h o = some p ↔ o = .busy p h := by
  cases o with
  | busy q k =>
    simp only [place,Option.ite_none_right_eq_some,Option.some.injEq,Opener.busy.injEq]
    exact and_comm
  | _ => simp [place]

theorem count_moves (ha : s.tasks[i]? = some a) (ht : t.tasks = s.tasks.set i b) (h : ℕ) :
    Moves (place h a) (place h b) (s.count h) (t.count h) := by
  intro p
  have hs := tally_set ha b fun o => decide (o = .busy p h)
  simp only [Bool.toNat,Bool.cond_decide,← ht] at hs
  simp only [count,place_eq_some]
  exact hs

theorem count_pos (ha : s.tasks[i]? = some (.busy p h)) : 0 < s.count h p :=
  tally_pos ha (decide_eq_true rfl)

/- The fields of a stream head and how many tasks are at each place with it. -/
structure HeadInv (hd : Stdata) (c : Place → ℕ) : Prop where
  refs : hd.sdRefcnt = c .found + c .opening + c .reopening + c .opened + c .failed + c .dismantling + c .putting +
    c (.closing true) + c (.closing false)
  opens : hd.sdOpencnt = c .opened
  sem : (if hd.sdOpening then 1 else 0) = c .opening + c .reopening + c (.closing true) + c (.closing false)
  freed : hd.freed = true → hd.sdRefcnt = 0
  attached : 0 < c .opening + c .reopening + c .opened → hd.queues = .attached
  closed : hd.strclose = true → c .opening + c .reopening + c .opened = 0
  wrecked : hd.queues = .gone ∨ 0 < c .dismantling →
    c .opening + c .reopening + c .opened = 0 ∧ (hd.strclose = true ∨ c .found = 0)
  first : 0 < c .opening → c .opened = 0
  last : 0 < c (.closing true) → c .opened = 0

structure Inv (s : Opens) : Prop where
  head : ∀ h, HeadInv (s.heads h) (s.count h)
  unused : ∀ h, s.stdatas ≤ h → s.heads h = noStdata
  one : ∀ h k, s.usable h → s.usable k → h = k

theorem Moves.all {a b : Option Place} (hm : Moves a b c c') :
    c' .found + (if a = some .found then 1 else 0) = c .found + (if b = some .found then 1 else 0) ∧
    c' .opening + (if a = some .opening then 1 else 0) = c .opening + (if b = some .opening then 1 else 0) ∧
    c' .reopening + (if a = some .reopening then 1 else 0) = c .reopening + (if b = some .reopening then 1 else 0) ∧
    c' .opened + (if a = some .opened then 1 else 0) = c .opened + (if b = some .opened then 1 else 0) ∧
    c' .failed + (if a = some .failed then 1 else 0) = c .failed + (if b = some .failed then 1 else 0) ∧
    c' .dismantling + (if a = some .dismantling then 1 else 0) =
      c .dismantling + (if b = some .dismantling then 1 else 0) ∧
    c' .putting + (if a = some .putting then 1 else 0) = c .putting + (if b = some .putting then 1 else 0) ∧
    c' (.closing true) + (if a = some (.closing true) then 1 else 0) =
      c (.closing true) + (if b = some (.closing true) then 1 else 0) ∧
    c' (.closing false) + (if a = some (.closing false) then 1 else 0) =
      c (.closing false) + (if b = some (.closing false) then 1 else 0) :=
  ⟨hm _,hm _,hm _,hm _,hm _,hm _,hm _,hm _,hm _⟩

section Head
variable (hi : HeadInv hd c)
include hi

/- A new reference. -/
theorem HeadInv.found (hm : Moves none (some .found) c c')
    (hf : hd.freed = false) (hq : hd.queues ≠ .gone) (hz : c .dismantling = 0) :
    HeadInv { hd with sdRefcnt := hd.sdRefcnt + 1 } c' := by
  obtain ⟨h1,h2,h3,h4,h5,h6,h7,h8,h9⟩ := hi
  have he := hm.all
  simp only [reduceCtorEq,if_true,if_false,Option.some.injEq,Nat.add_zero] at he
  constructor <;> grind -ring -linarith

/- `lis_head_put`, of a task that starts over or is done. -/
theorem HeadInv.put (hm : Moves (some p) none c c')
    (hp : p = .putting ∨ p = .found) :
    HeadInv { hd with sdRefcnt := hd.sdRefcnt - 1, freed := hd.freed || hd.sdRefcnt == 1 } c' := by
  obtain ⟨h1,h2,h3,h4,h5,h6,h7,h8,h9⟩ := hi
  have he := hm.all
  simp only [reduceCtorEq,if_false,Option.some.injEq,Nat.add_zero] at he
  constructor <;> grind -ring -linarith

theorem HeadInv.reopening (hm : Moves (some .found) (some .reopening) c c')
    (hs : hd.sdOpening = false) (hn : hd.strclose = false) (hc : 1 ≤ hd.sdOpencnt) :
    HeadInv { hd with sdOpening := true } c' := by
  obtain ⟨h1,h2,h3,h4,h5,h6,h7,h8,h9⟩ := hi
  have he := hm.all
  simp only [reduceCtorEq,if_true,if_false,Option.some.injEq,Nat.add_zero] at he
  constructor <;> grind -ring -linarith

theorem HeadInv.opening (hm : Moves (some .found) (some .opening) c c')
    (hs : hd.sdOpening = false) (hn : hd.strclose = false) (hc : ¬1 ≤ hd.sdOpencnt) :
    HeadInv { hd with sdOpening := true, queues := .attached } c' := by
  obtain ⟨h1,h2,h3,h4,h5,h6,h7,h8,h9⟩ := hi
  have he := hm.all
  simp only [reduceCtorEq,if_true,if_false,Option.some.injEq,Nat.add_zero] at he
  constructor <;> grind -ring -linarith

theorem HeadInv.found_failed (hm : Moves (some .found) (some .failed) c c') :
    HeadInv hd c' := by
  obtain ⟨h1,h2,h3,h4,h5,h6,h7,h8,h9⟩ := hi
  have he := hm.all
  simp only [reduceCtorEq,if_true,if_false,Option.some.injEq,Nat.add_zero] at he
  constructor <;> grind -ring -linarith

theorem HeadInv.opening_opened (hm : Moves (some .opening) (some .opened) c c') :
    HeadInv { hd with sdOpencnt := hd.sdOpencnt + 1, sdOpening := false } c' := by
  obtain ⟨h1,h2,h3,h4,h5,h6,h7,h8,h9⟩ := hi
  have he := hm.all
  simp only [reduceCtorEq,if_true,if_false,Option.some.injEq,Nat.add_zero] at he
  constructor <;> grind -ring -linarith

theorem HeadInv.reopening_opened (hm : Moves (some .reopening) (some .opened) c c') :
    HeadInv { hd with sdOpencnt := hd.sdOpencnt + 1, sdOpening := false } c' := by
  obtain ⟨h1,h2,h3,h4,h5,h6,h7,h8,h9⟩ := hi
  have he := hm.all
  simp only [reduceCtorEq,if_true,if_false,Option.some.injEq,Nat.add_zero] at he
  constructor <;> grind -ring -linarith

theorem HeadInv.reopening_failed (hm : Moves (some .reopening) (some .failed) c c') :
    HeadInv { hd with sdOpening := false } c' := by
  obtain ⟨h1,h2,h3,h4,h5,h6,h7,h8,h9⟩ := hi
  have he := hm.all
  simp only [reduceCtorEq,if_true,if_false,Option.some.injEq,Nat.add_zero] at he
  constructor <;> grind -ring -linarith

theorem HeadInv.opening_failed (hm : Moves (some .opening) (some .failed) c c')
    (hg : hd.queues ≠ .gone) :
    HeadInv { hd with queues := .bare, sdOpening := false } c' := by
  obtain ⟨h1,h2,h3,h4,h5,h6,h7,h8,h9⟩ := hi
  have he := hm.all
  simp only [reduceCtorEq,if_true,if_false,Option.some.injEq,Nat.add_zero] at he
  constructor <;> grind -ring -linarith

theorem HeadInv.dismantling (hm : Moves (some .failed) (some .dismantling) c c')
    (hc : hd.sdOpencnt = 0) (hg : hd.strclose = false → c .found + c .opening + c .reopening = 0) :
    HeadInv hd c' := by
  obtain ⟨h1,h2,h3,h4,h5,h6,h7,h8,h9⟩ := hi
  have he := hm.all
  simp only [reduceCtorEq,if_true,if_false,Option.some.injEq,Nat.add_zero] at he
  constructor <;> grind -ring -linarith

theorem HeadInv.not_last (hm : Moves (some .failed) (some .putting) c c') :
    HeadInv hd c' := by
  obtain ⟨h1,h2,h3,h4,h5,h6,h7,h8,h9⟩ := hi
  have he := hm.all
  simp only [reduceCtorEq,if_true,if_false,Option.some.injEq,Nat.add_zero] at he
  constructor <;> grind -ring -linarith

theorem HeadInv.dismantled (hm : Moves (some .dismantling) (some .putting) c c') :
    HeadInv { hd with queues := .gone } c' := by
  obtain ⟨h1,h2,h3,h4,h5,h6,h7,h8,h9⟩ := hi
  have he := hm.all
  simp only [reduceCtorEq,if_true,if_false,Option.some.injEq,Nat.add_zero] at he
  constructor <;> grind -ring -linarith

theorem HeadInv.closing_last (hm : Moves (some .opened) (some (.closing true)) c c')
    (hs : hd.sdOpening = false) (hl : hd.sdOpencnt - 1 = 0) :
    HeadInv { hd with sdOpencnt := hd.sdOpencnt - 1, sdOpening := true } c' := by
  obtain ⟨h1,h2,h3,h4,h5,h6,h7,h8,h9⟩ := hi
  have he := hm.all
  simp only [reduceCtorEq,if_true,if_false,Option.some.injEq,Nat.add_zero] at he
  constructor <;> grind -ring -linarith

theorem HeadInv.closing_not_last (hm : Moves (some .opened) (some (.closing false)) c c')
    (hs : hd.sdOpening = false) :
    HeadInv { hd with sdOpencnt := hd.sdOpencnt - 1, sdOpening := true } c' := by
  obtain ⟨h1,h2,h3,h4,h5,h6,h7,h8,h9⟩ := hi
  have he := hm.all
  simp only [reduceCtorEq,if_true,if_false,Option.some.injEq,Nat.add_zero] at he
  constructor <;> grind -ring -linarith

theorem HeadInv.marked (hm : Moves (some (.closing true)) (some .dismantling) c c') :
    HeadInv { hd with strclose := true, sdOpening := false } c' := by
  obtain ⟨h1,h2,h3,h4,h5,h6,h7,h8,h9⟩ := hi
  have he := hm.all
  simp only [reduceCtorEq,if_true,if_false,Option.some.injEq,Nat.add_zero] at he
  constructor <;> grind -ring -linarith

theorem HeadInv.closed_not_last (hm : Moves (some (.closing false)) (some .putting) c c') :
    HeadInv { hd with sdOpening := false } c' := by
  obtain ⟨h1,h2,h3,h4,h5,h6,h7,h8,h9⟩ := hi
  have he := hm.all
  simp only [reduceCtorEq,if_true,if_false,Option.some.injEq,Nat.add_zero] at he
  constructor <;> grind -ring -linarith

end Head

/- A new stream head. -/
theorem HeadInv.alloc (hi : HeadInv noStdata c) (hm : Moves none (some .found) c c') :
    HeadInv ⟨1,0,false,false,.bare,false⟩ c' := by
  obtain ⟨h1,h2,h3,h4,h5,h6,h7,h8,h9⟩ := hi
  have he := hm.all
  simp only [reduceCtorEq,if_true,if_false,Option.some.injEq,Nat.add_zero,noStdata] at h1 he
  constructor <;> grind -ring -linarith

/- A task that has put a stream head and is back at `retry_from_start`. -/
def startsOver : Opener → Bool
  | .start (some _) => true
  | _ => false

/- A failing open does not find the open count zero while another open of the stream head is under way, an open
does not find a stream head that a failing open dismantles, and `lis_down` is not interrupted when an open that
has put its stream head starts over. -/
def Guard (s : Opens) : OpenAct → Prop
  | .lookup i _ => ∀ o ∈ s.tasks[i]?, ∀ h ∈ s.lisLookupStdata, (s.heads h).queues ≠ .gone ∧ s.count h .dismantling = 0
  | .intr i => ∀ o ∈ s.tasks[i]?, startsOver o = false
  | .check i => ∀ h < s.stdatas, s.tasks[i]? = some (.busy .failed h) → (s.heads h).sdOpencnt = 0 →
      (s.heads h).strclose = false → s.count h .found + s.count h .opening + s.count h .reopening = 0
  | _ => True

instance decGuard (s : Opens) : ∀ a, Decidable (s.Guard a)
  | .lookup i _ => inferInstanceAs (Decidable (∀ o ∈ s.tasks[i]?, ∀ h ∈ s.lisLookupStdata,
      (s.heads h).queues ≠ .gone ∧ s.count h .dismantling = 0))
  | .intr i => inferInstanceAs (Decidable (∀ o ∈ s.tasks[i]?, startsOver o = false))
  | .check i => inferInstanceAs (Decidable (∀ h < s.stdatas, s.tasks[i]? = some (.busy .failed h) →
      (s.heads h).sdOpencnt = 0 → (s.heads h).strclose = false →
      s.count h .found + s.count h .opening + s.count h .reopening = 0))
  | .down _ | .openRtn .. | .dismantled _ | .put _ | .close _ | .mark _ => inferInstanceAs (Decidable True)

/- A task moves on, with one stream head. -/
theorem heads_moved (hi : s.Inv) (ha : s.tasks[i]? = some a) (ht : t.tasks = s.tasks.set i b)
    (hh : t.heads = Function.update s.heads h hd) (hfar : ∀ k, k ≠ h → place k a = none ∧ place k b = none)
    (hhd : ∀ c, Moves (place h a) (place h b) (s.count h) c → HeadInv hd c) :
    ∀ k, HeadInv (t.heads k) (t.count k) := by
  intro k
  by_cases hk : k = h
  · subst hk
    rw [hh,Function.update_self]
    exact hhd _ (count_moves ha ht k)
  · have hsame : t.count k = s.count k := by
      funext p
      have hc := count_moves ha ht k p
      rw [(hfar k hk).1,(hfar k hk).2] at hc
      exact hc
    rw [hh,Function.update_of_ne hk,hsame]
    exact hi.head k

/-- The invariant when the stream head is one that there was. -/
theorem Inv.moved (hi : s.Inv) (ha : s.tasks[i]? = some a) (ht : t.tasks = s.tasks.set i b)
    (hh : t.heads = Function.update s.heads h hd) (hn : t.stdatas = s.stdatas)
    (hfar : ∀ k, k ≠ h → place k a = none ∧ place k b = none) (hlt : h < s.stdatas)
    (huse : hd.freed = false → hd.strclose = false → (s.heads h).freed = false ∧ (s.heads h).strclose = false)
    (hhd : ∀ c, Moves (place h a) (place h b) (s.count h) c → HeadInv hd c) : t.Inv := by
  refine ⟨heads_moved hi ha ht hh hfar hhd,?_,?_⟩
  · intro k hk
    rw [hh,Function.update_of_ne (by omega)]
    exact hi.unused k (hn ▸ hk)
  · have hold : ∀ k, t.usable k → s.usable k := by
      rintro k ⟨h1,h2,h3⟩
      rw [hh] at h2 h3
      rw [hn] at h1
      by_cases hk : k = h
      · subst hk
        rw [Function.update_self] at h2 h3
        exact ⟨h1,huse h2 h3⟩
      · rw [Function.update_of_ne hk] at h2 h3
        exact ⟨h1,h2,h3⟩
    exact fun k k' hu hu' => hi.one k k' (hold k hu) (hold k' hu')

theorem place_self : place h (.busy p h) = some p := if_pos rfl

theorem place_far (hk : k ≠ h) : place k (.busy p h) = none := if_neg (Ne.symm hk)

theorem Inv.lt (hi : s.Inv) (ha : s.tasks[i]? = some (.busy p h)) : h < s.stdatas := by
  by_contra hc
  have hr := (hi.head h).refs
  rw [hi.unused h (by omega)] at hr
  have hp := count_pos ha
  simp only [noStdata] at hr
  cases p with
  | closing last => cases last <;> omega
  | _ => omega

/- A task with a stream head goes on with it. -/
theorem Inv.goes (hi : s.Inv) (ha : s.tasks[i]? = some (.busy p h)) (hd : Stdata) (q : Place)
    (huse : hd.freed = false → hd.strclose = false → (s.heads h).freed = false ∧ (s.heads h).strclose = false)
    (hhd : ∀ c, Moves (some p) (some q) (s.count h) c → HeadInv hd c) :
    ((s.setHead h hd).setPc i (.busy q h)).Inv := by
  refine hi.moved (t := (s.setHead h hd).setPc i (.busy q h)) ha rfl rfl rfl ?_ (hi.lt ha) huse ?_
  · exact fun k hk => ⟨place_far hk,place_far hk⟩
  · rw [place_self,place_self]
    exact hhd

/- The stream head stays as it is. -/
theorem Inv.stays (hi : s.Inv) (ha : s.tasks[i]? = some (.busy p h)) (q : Place)
    (hhd : ∀ c, Moves (some p) (some q) (s.count h) c → HeadInv (s.heads h) c) : (s.setPc i (.busy q h)).Inv := by
  have hg := hi.goes ha (s.heads h) q (fun h1 h2 => ⟨h1,h2⟩) hhd
  rwa [setHead,Function.update_eq_self] at hg

/- A task leaves its stream head. -/
theorem Inv.leaves (hi : s.Inv) (ha : s.tasks[i]? = some (.busy p h)) (hp : p = .putting ∨ p = .found)
    (hb : ∀ k, place k b = none) : ((s.headPut h).setPc i b).Inv := by
  refine hi.moved (t := (s.headPut h).setPc i b) ha rfl rfl rfl (fun k hk => ⟨place_far hk,hb k⟩) (hi.lt ha) ?_ ?_
  · intro h1 h2
    exact ⟨(Bool.or_eq_false_iff.mp h1).1,h2⟩
  · rw [place_self,hb h]
    exact fun c hm => (hi.head h).put hm hp

/- A task that has nothing to do with a stream head ends. -/
theorem Inv.ends (hi : s.Inv) (ha : s.tasks[i]? = some a) (hn : ∀ k, place k a = none) : (s.setPc i .done).Inv := by
  refine ⟨?_,hi.unused,hi.one⟩
  intro h
  have hsame : (s.setPc i .done).count h = s.count h := by
    funext p
    have hc := count_moves (t := s.setPc i .done) ha rfl h p
    rw [hn h] at hc
    exact hc
  rw [hsame]
  exact hi.head h

theorem lookup_some (hl : s.lisLookupStdata = some h) : s.usable h :=
  of_decide_eq_true (List.find?_some (p := fun h => decide (s.usable h)) hl)

theorem lookup_none (hl : s.lisLookupStdata = none) (h : ℕ) : ¬s.usable h := by
  intro hu
  have hn := List.find?_eq_none.mp hl h (List.mem_range.mpr hu.1)
  exact hn (decide_eq_true hu)

/- The invariant when a stream head is allocated since there is no usable one. -/
theorem Inv.added {stale : Option ℕ} (hi : s.Inv) (ha : s.tasks[i]? = some (.start stale))
    (ht : t.tasks = s.tasks.set i (.busy .found s.stdatas))
    (hh : t.heads = Function.update s.heads s.stdatas ⟨1,0,false,false,.bare,false⟩)
    (hn : t.stdatas = s.stdatas + 1) (hnone : ∀ k, ¬s.usable k) : t.Inv := by
  refine ⟨heads_moved hi ha ht hh (fun k hk => ⟨rfl,place_far hk⟩) ?_,?_,?_⟩
  · rw [place_self]
    exact fun c hm => HeadInv.alloc (hi.unused _ le_rfl ▸ hi.head s.stdatas) hm
  · intro k hk
    rw [hh,Function.update_of_ne (by omega)]
    exact hi.unused k (by omega)
  · have hnew : ∀ k, t.usable k → k = s.stdatas := by
      rintro k ⟨h1,h2,h3⟩
      by_contra hk
      rw [hh,Function.update_of_ne hk] at h2 h3
      exact hnone k ⟨by omega,h2,h3⟩
    exact fun k k' hu hu' => (hnew k hu).trans (hnew k' hu').symm

theorem lookup_inv {stale : Option ℕ} {alloc : Bool} (hi : s.Inv) (ha : s.tasks[i]? = some (.start stale))
    (hg : s.Guard (.lookup i alloc)) : (s.lookup i alloc).Inv := by
  simp only [lookup]
  split
  next h hl =>
    obtain ⟨hlt,hf,hc⟩ := lookup_some hl
    obtain ⟨hq,hz⟩ := hg _ ha h hl
    refine hi.moved (h := h) ha rfl rfl rfl (fun k hk => ⟨rfl,place_far hk⟩) hlt (fun _ _ => ⟨hf,hc⟩) ?_
    rw [place_self]
    exact fun c hm => (hi.head h).found hm hf hq hz
  next hl =>
    cases alloc with
    | false => exact hi.ends ha fun _ => rfl
    | true => exact hi.added ha rfl rfl rfl (lookup_none hl)

theorem down_inv (hi : s.Inv) (ha : s.tasks[i]? = some (.busy .found h)) (hs : s.down i h = some t) : t.Inv := by
  have hh := hi.head h
  simp only [down] at hs
  split_ifs at hs with h1 h2 h3 h4 <;> obtain rfl := Option.some.inj hs
  · exact hi.leaves ha (Or.inr rfl) fun _ => rfl
  · refine hi.goes ha _ .reopening (fun h1 h2 => ⟨h1,h2⟩) fun c hm => ?_
    exact hh.reopening hm (eq_false_of_ne_true h1) (eq_false_of_ne_true h2) h3
  · exact hi.stays ha .failed fun c hm => hh.found_failed hm
  · refine hi.goes ha _ .opening (fun h1 h2 => ⟨h1,h2⟩) fun c hm => ?_
    exact hh.opening hm (eq_false_of_ne_true h1) (eq_false_of_ne_true h2) h3

theorem openRtn_inv {ok : Bool} (hi : s.Inv) (h : s.step (.openRtn i ok) = some t) : t.Inv := by
  simp only [step] at h
  split at h
  next h' ha =>
    obtain rfl := Option.some.inj h
    have hh := hi.head h'
    have hpos : 0 < s.count h' .opening := count_pos ha
    have hgone : (s.heads h').queues ≠ .gone := by
      rw [hh.attached (by omega)]
      exact nofun
    cases ok with
    | true =>
      simp only [opened,Bool.true_or,if_true]
      exact hi.goes ha _ .opened (fun h1 h2 => ⟨h1,h2⟩) fun c hm => hh.opening_opened hm
    | false =>
      simp only [opened,Bool.false_or,decide_eq_true_eq,if_neg hgone]
      exact hi.goes ha _ .failed (fun h1 h2 => ⟨h1,h2⟩) fun c hm => hh.opening_failed hm hgone
  next h' ha =>
    obtain rfl := Option.some.inj h
    have hh := hi.head h'
    cases ok with
    | true => exact hi.goes ha _ .opened (fun h1 h2 => ⟨h1,h2⟩) fun c hm => hh.reopening_opened hm
    | false => exact hi.goes ha _ .failed (fun h1 h2 => ⟨h1,h2⟩) fun c hm => hh.reopening_failed hm
  next => cases h

theorem step_inv (hi : s.Inv) (hg : s.Guard act) (h : s.step act = some t) : t.Inv := by
  cases act with
  | lookup i alloc =>
    simp only [step] at h
    split at h
    next stale ha => exact Option.some.inj h ▸ lookup_inv hi ha hg
    next => cases h
  | down i =>
    simp only [step] at h
    split at h
    next h' ha => exact down_inv hi ha h
    next => cases h
  | intr i =>
    simp only [step] at h
    split at h
    next ha => exact Option.some.inj h ▸ hi.ends ha fun _ => rfl
    next h' ha => exact Bool.noConfusion (hg _ ha)
    next h' ha => exact Option.some.inj h ▸ hi.stays ha .failed fun c hm => (hi.head h').found_failed hm
    next => cases h
  | openRtn i ok => exact openRtn_inv hi h
  | check i =>
    simp only [step] at h
    split at h
    next h' ha =>
      obtain rfl := Option.some.inj h
      split_ifs with hc
      · exact hi.stays ha _ fun c hm => (hi.head h').dismantling hm hc (hg h' (hi.lt ha) ha hc)
      · exact hi.stays ha _ fun c hm => (hi.head h').not_last hm
    next => cases h
  | dismantled i =>
    simp only [step] at h
    split at h
    next h' ha =>
      obtain rfl := Option.some.inj h
      exact hi.goes ha _ .putting (fun h1 h2 => ⟨h1,h2⟩) fun c hm => (hi.head h').dismantled hm
    next => cases h
  | put i =>
    simp only [step] at h
    split at h
    next h' ha => exact Option.some.inj h ▸ hi.leaves ha (Or.inl rfl) fun _ => rfl
    next => cases h
  | close i =>
    simp only [step] at h
    split at h
    next h' ha =>
      split_ifs at h with hs
      obtain rfl := Option.some.inj h
      have hh := hi.head h'
      by_cases hl : (s.heads h').sdOpencnt - 1 = 0
      · simp only [decide_eq_true hl]
        exact hi.goes ha _ _ (fun h1 h2 => ⟨h1,h2⟩) fun c hm => hh.closing_last hm (eq_false_of_ne_true hs) hl
      · simp only [decide_eq_false hl]
        exact hi.goes ha _ _ (fun h1 h2 => ⟨h1,h2⟩) fun c hm => hh.closing_not_last hm (eq_false_of_ne_true hs)
    next => cases h
  | mark i =>
    simp only [step] at h
    split at h
    next last h' ha =>
      cases last with
      | true =>
        obtain rfl := Option.some.inj h
        exact hi.goes ha _ .dismantling nofun fun c hm => (hi.head h').marked hm
      | false =>
        obtain rfl := Option.some.inj h
        exact hi.goes ha _ .putting (fun h1 h2 => ⟨h1,h2⟩) fun c hm => (hi.head h').closed_not_last hm
    next => cases h

/-- Opens and closes agree: one stream head is usable, those who have it open have its queues, and it counts them. -/
structure Agree (s : Opens) : Prop where
  one : ∀ h k, s.usable h → s.usable k → h = k
  opened : ∀ (i h : ℕ), s.tasks[i]? = some (.busy .opened h) →
    s.usable h ∧ (s.heads h).queues = .attached ∧ s.count h .dismantling = 0
  opencnt : ∀ h, (s.heads h).sdOpencnt = s.count h .opened

theorem Inv.agree (hi : s.Inv) : s.Agree := by
  refine ⟨hi.one,?_,fun h => (hi.head h).opens⟩
  intro i h ha
  have hpos : 0 < s.count h .opened := count_pos ha
  have hh := hi.head h
  refine ⟨⟨hi.lt ha,?_,?_⟩,hh.attached (by omega),?_⟩
  · refine eq_false_of_ne_true fun hc => ?_
    have hz := hh.freed hc
    have hr := hh.refs
    omega
  · refine eq_false_of_ne_true fun hc => ?_
    have hz := hh.closed hc
    omega
  · by_contra hc
    have hz := (hh.wrecked (Or.inr (Nat.pos_of_ne_zero hc))).1
    omega

theorem init_inv (n : ℕ) : (init n).Inv := by
  have hcount : ∀ h, (init n).count h = fun _ => 0 :=
    fun h => funext fun p => tally_replicate n (decide_eq_false nofun)
  have hnone : HeadInv noStdata fun _ => 0 := by constructor <;> simp [noStdata]
  refine ⟨?_,fun _ _ => rfl,?_⟩
  · intro h
    rw [hcount h]
    exact hnone
  · exact fun h k hu => absurd hu.1 (Nat.not_lt_zero h)

/-- In a run in which no failing open finds the open count zero while another open is under way with the stream
head, or dismantles it where an open can find it, opens and closes agree. -/
theorem run_agree {n : ℕ} {as : List OpenAct} (hm : Meets step Guard (init n) as)
    (h : exec step (init n) as = some t) : t.Agree :=
  Inv.agree (exec_preserves (fun _ _ _ => step_inv) (init_inv n) hm h)

/- Three tasks. One opens, another one finds the stream head and opens it too, both close while the third one is
before its `lis_down` of `sd_opening`; it gets another stream head, and its driver's open routine fails. -/
theorem run_agree_three : ∃ t, exec step (init 3) [.lookup 0 true,.lookup 1 true,.down 0,.openRtn 0 true,.down 1,
    .openRtn 1 true,.close 0,.mark 0,.put 0,.lookup 2 true,.close 1,.mark 1,.down 2,.lookup 2 true,.dismantled 1,
    .put 1,.down 2,.openRtn 2 false,.check 2,.dismantled 2,.put 2] = some t ∧ t.Agree := by
  refine Exists.imp (fun t ht => ⟨ht,run_agree ?_ ht⟩) (Option.isSome_iff_exists.mp rfl)
  decide

/- The first open fails while the second one is before its `lis_down`, and sees no open when the second one is in
the driver's open routine, which succeeds. -/
theorem opened_dismantled : ¬ ∀ n as t, exec step (init n) as = some t → t.Agree := by
  intro h
  have hopen := (h 2 [.lookup 0 true,.lookup 1 true,.down 0,.openRtn 0 false,.down 1,.check 0,.openRtn 1 true]
    _ rfl).opened 1 0 rfl
  exact absurd hopen.2.2 (by decide)

end Opens

end CSLiS.Stream
