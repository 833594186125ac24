import CSLiS.Lib.Crew
import CSLiS.Locks.Spin

/-!
# Who has a nested spin lock

Whoever has the kernel lock is the task at `taskp` but for the steps next to taking and releasing it, and `nest`
is how often it has acquired the lock. `lis_spin_trylock` succeeds in the task that has the lock without counting
in `nest`, as the other three do, and its unlock releases the lock too early.
-/

namespace CSLiS.Locks.Spin

open Lib.Exec Lib.Crew

variable {m : Machine} {s t : Spin} {i k : ℕ} {x y z : Thread}

section Seats

/- The acquisitions that have the kernel lock for the task, the one under way included. -/
def held (x : Thread) : List Frame :=
  match x.place with
  | .idle | .read _ | .isLocked | .ownTask => x.frames
  | .spin _ | .tryRead | .trySpin => []
  | .set f | .inc f | .unRead _ f | .unDec _ f | .unTest _ f | .unClear _ f | .unSpin _ f => f :: x.frames
  | .tryInc | .trySet => ⟨.trylock,0⟩ :: x.frames

def named (x : Thread) : Prop :=
  match x.place with
  | .idle | .read _ | .isLocked | .ownTask => x.frames ≠ []
  | .inc _ | .unRead _ _ | .unDec _ _ | .unTest _ _ | .unClear _ _ => True
  | _ => False

def depth (x : Thread) : ℤ :=
  match x.place with
  | .unRead _ _ | .unDec _ _ => x.frames.length + 1
  | .trySet => 1
  | .set _ | .tryInc | .unClear _ _ | .unSpin _ _ => 0
  | _ => x.frames.length

/- Here the acquisition under way is the outermost one. -/
def outermost (x : Thread) : Prop :=
  match x.place with
  | .spin _ | .set _ | .tryRead | .trySpin | .tryInc | .trySet | .unClear _ _ | .unSpin _ _ => True
  | _ => False

structure Seat (s : Spin) (i : ℕ) (x : Thread) : Prop where
  own : held x ≠ [] ↔ s.kernel = some i
  task : named x ↔ s.taskp = some i
  nest : held x ≠ [] → s.nest = depth x
  saved : ∀ f ∈ (held x).getLast?, f.kind = .irqsave → f.flags = s.saved
  alone : outermost x → x.frames = []

/- The kernel lock is released by the task that holds it, which has given up all that it had acquired, and restores
the interrupt state that was saved with the lock. -/
structure Released (r : Release) : Prop where
  owner : r.holder = some r.task
  last : r.left = []
  state : r.spl = false → r.kind = .irqsave → r.restored = r.saved

structure Inv (s : Spin) : Prop where
  seat : ∀ k z, s.threads[k]? = some z → Seat s k z
  free : s.kernel = none → s.nest = 0
  released : ∀ r ∈ s.released, Released r

theorem named_held (h : named x) : held x ≠ [] := by
  unfold named at h
  unfold held
  split at h <;> simp_all

/- A step of another task while this one has not got the lock. -/
theorem Seat.other (h : Seat s k z) (hs : s.kernel ≠ some k) (ht : t.kernel ≠ some k)
    (hp : t.taskp = some k → s.taskp = some k) : Seat t k z := by
  have hnone : ¬ held z ≠ [] := fun hc => hs (h.own.mp hc)
  have hname : ¬ named z := fun hc => hnone (named_held hc)
  have hempty : held z = [] := not_not.mp hnone
  refine ⟨⟨fun hc => absurd hc hnone,fun hc => absurd hc ht⟩,
    ⟨fun hc => absurd hc hname,fun hc => absurd (h.task.mpr (hp hc)) hname⟩,fun hc => absurd hc hnone,?_,h.alone⟩
  rw [hempty]
  intro f hf
  cases hf

/- The task has moved in its code and has as much of the lock as before. -/
theorem Seat.same (h : Seat s i x) (hl : (held y).getLast? = (held x).getLast?) (hn : named y ↔ named x)
    (hd : held x ≠ [] → depth y = depth x) (ho : outermost y → y.frames = []) : Seat s i y := by
  have hnil : held y ≠ [] ↔ held x ≠ [] := by
    rw [← List.getLast?_isSome,hl,List.getLast?_isSome]
  exact ⟨hnil.trans h.own,hn.trans h.task,fun hc => (h.nest (hnil.mp hc)).trans (hd (hnil.mp hc)).symm,
    fun f hf => h.saved f (hl ▸ hf),ho⟩

theorem Inv.update (h : Inv s) (ht : t.threads = s.threads.set i y) (hr : ∀ r ∈ t.released, Released r)
    (hf : t.kernel = none → t.nest = 0) (hy : Seat t i y)
    (hk : ∀ k z, k ≠ i → Seat s k z → Seat t k z) : Inv t := by
  refine ⟨fun k z hz => ?_,hf,hr⟩
  rw [ht] at hz
  rcases set_cases hz with ⟨rfl,rfl⟩ | ⟨hne,hz⟩
  · exact hy
  · exact hk k z hne (h.seat k z hz)

/- Only the task itself moves. -/
theorem Inv.move (h : Inv s) (hy : Seat s i y) : Inv { s with threads := s.threads.set i y } :=
  h.update rfl h.released h.free ⟨hy.own,hy.task,hy.nest,hy.saved,hy.alone⟩
    fun _ _ _ hz => ⟨hz.own,hz.task,hz.nest,hz.saved,hz.alone⟩

/- The task takes the kernel lock, has it or lets it go. -/
theorem Inv.hold (h : Inv s) (ht : t.threads = s.threads.set i y) (hr : ∀ r ∈ t.released, Released r)
    (hf : t.kernel = none → t.nest = 0) (hy : Seat t i y) (hs : s.kernel = none ∨ s.kernel = some i)
    (hk : t.kernel = none ∨ t.kernel = some i) (hp : t.taskp = s.taskp ∨ t.taskp = none ∨ t.taskp = some i) :
    Inv t := by
  refine h.update ht hr hf hy fun k z hne hz => hz.other ?_ ?_ fun hc => ?_
  · rcases hs with hs | hs <;> simp [hs,Ne.symm hne]
  · rcases hk with hk | hk <;> simp [hk,Ne.symm hne]
  · rcases hp with hp | hp | hp
    · exact hp ▸ hc
    · exact absurd (hp.symm.trans hc) (by simp)
    · exact absurd (Option.some.inj (hp.symm.trans hc)).symm hne

end Seats

section Steps

variable {f : Frame} {spl : Bool}

theorem inv_read (h : Inv s) (hx : s.threads[i]? = some x) (hp : x.place = .read f) :
    Inv (s.goto i x (if s.taskp = some i then .inc f else .spin f)) := by
  have hi := h.seat i x hx
  have hname : named x ↔ x.frames ≠ [] := by simp only [named,hp]
  have hheld : held x = x.frames := by simp only [held,hp]
  have hdepth : depth x = x.frames.length := by simp only [depth,hp]
  by_cases ht : s.taskp = some i
  · obtain ⟨g,fs,hfs⟩ := List.exists_cons_of_ne_nil (hname.mp (hi.task.mpr ht))
    rw [if_pos ht]
    refine h.move (hi.same ?_ ⟨fun _ => hi.task.mpr ht,fun _ => trivial⟩ (fun _ => hdepth.symm) fun hc => hc.elim)
    rw [hheld,hfs]
    simp [held]
  · have hnil : x.frames = [] := not_not.mp fun hc => ht (hi.task.mp (hname.mpr hc))
    rw [if_neg ht]
    refine h.move (hi.same ?_ ⟨fun hc => hc.elim,fun hc => absurd hnil (hname.mp hc)⟩ ?_ fun _ => hnil)
    · rw [hheld,hnil]
      rfl
    · exact fun hc => absurd (hheld.trans hnil) hc

theorem inv_spin (h : Inv s) (hx : s.threads[i]? = some x) (hp : x.place = .spin f) (hk : s.kernel = none) :
    Inv (s.locked m i x f) := by
  have hi := h.seat i x hx
  have hnil : x.frames = [] := hi.alone (by simp [outermost,hp])
  have hname : ¬ named x := by simp [named,hp]
  refine h.hold rfl h.released (fun hc => by cases hc) ?_ (Or.inl hk) (Or.inr rfl) (Or.inl rfl)
  refine ⟨by simp [held,locked],⟨fun hc => hc.elim,fun hc => absurd (hi.task.mpr hc) hname⟩,fun _ => h.free hk,?_,
    fun _ => hnil⟩
  intro g hg hs
  simp only [held,hnil,List.getLast?_singleton,Option.mem_some_iff] at hg
  subst hg
  by_cases hf : f.kind = .irqsave
  · simp [hf,locked]
  · simp [hf] at hs

theorem inv_set (h : Inv s) (hx : s.threads[i]? = some x) (hp : x.place = .set f) :
    Inv ({ s with taskp := some i }.goto i x (.inc f)) := by
  have hi := h.seat i x hx
  have hnil : x.frames = [] := hi.alone (by simp [outermost,hp])
  have hheld : held x = f :: x.frames := by simp only [held,hp]
  have hk : s.kernel = some i := hi.own.mp (by simp [hheld])
  refine h.hold rfl h.released h.free ?_ (Or.inr hk) (Or.inr hk) (Or.inr (Or.inr rfl))
  refine ⟨⟨fun _ => hk,fun _ => by simp [held]⟩,⟨fun _ => rfl,fun _ => trivial⟩,fun _ => ?_,?_,fun hc => hc.elim⟩
  · have hn := hi.nest (by simp [hheld])
    simp only [depth,hp] at hn
    simpa [depth,goto,hnil] using hn
  · intro g hg
    exact hi.saved g (by rw [hheld]; exact hg)

theorem inv_inc (h : Inv s) (hx : s.threads[i]? = some x) (hp : x.place = .inc f) :
    Inv ({ s with nest := s.nest + 1 }.acquired i x f) := by
  have hi := h.seat i x hx
  have hheld : held x = f :: x.frames := by simp only [held,hp]
  have hk : s.kernel = some i := hi.own.mp (by simp [hheld])
  have hn : s.nest = x.frames.length := (hi.nest (by simp [hheld])).trans (by simp only [depth,hp])
  have ht : s.taskp = some i := hi.task.mp (by simp [named,hp])
  refine h.hold rfl h.released (fun hc => absurd (hk.symm.trans hc) (by simp)) ?_ (Or.inr hk) (Or.inr hk) (Or.inl rfl)
  refine ⟨⟨fun _ => hk,fun _ => by simp [held]⟩,⟨fun _ => ht,fun _ => by simp [named]⟩,fun _ => ?_,?_,
    fun hc => hc.elim⟩
  · simp [acquired,depth,hn]
  · intro g hg
    exact hi.saved g (by rw [hheld]; exact hg)

theorem inv_tryInc (h : Inv s) (hx : s.threads[i]? = some x) (hp : x.place = .trySpin) (hk : s.kernel = none) :
    Inv ({ s with kernel := some i, saved := x.irq }.goto i x .tryInc) := by
  have hi := h.seat i x hx
  have hnil : x.frames = [] := hi.alone (by simp [outermost,hp])
  have hname : ¬ named x := by simp [named,hp]
  refine h.hold rfl h.released (fun hc => by cases hc) ?_ (Or.inl hk) (Or.inr rfl) (Or.inl rfl)
  refine ⟨by simp [held,goto],⟨fun hc => hc.elim,fun hc => absurd (hi.task.mpr hc) hname⟩,fun _ => h.free hk,?_,
    fun _ => hnil⟩
  intro g hg hs
  simp only [held,hnil,List.getLast?_singleton,Option.mem_some_iff] at hg
  subst hg
  cases hs

theorem inv_trySet (h : Inv s) (hx : s.threads[i]? = some x) (hp : x.place = .tryInc) :
    Inv ({ s with nest := s.nest + 1 }.goto i x .trySet) := by
  have hi := h.seat i x hx
  have hheld : held x = ⟨.trylock,0⟩ :: x.frames := by simp only [held,hp]
  have hk : s.kernel = some i := hi.own.mp (by simp [hheld])
  have hn : s.nest = 0 := (hi.nest (by simp [hheld])).trans (by simp only [depth,hp])
  have hname : ¬ named x := by simp [named,hp]
  refine h.hold rfl h.released (fun hc => absurd (hk.symm.trans hc) (by simp)) ?_ (Or.inr hk) (Or.inr hk) (Or.inl rfl)
  refine ⟨⟨fun _ => hk,fun _ => by simp [held]⟩,⟨fun hc => hc.elim,fun hc => absurd (hi.task.mpr hc) hname⟩,
    fun _ => ?_,?_,fun _ => hi.alone (by simp [outermost,hp])⟩
  · simp [goto,depth,hn]
  · intro g hg
    exact hi.saved g (by rw [hheld]; exact hg)

theorem inv_tried (h : Inv s) (hx : s.threads[i]? = some x) (hp : x.place = .trySet) :
    Inv ({ s with taskp := some i }.acquired i x ⟨.trylock,0⟩) := by
  have hi := h.seat i x hx
  have hheld : held x = ⟨.trylock,0⟩ :: x.frames := by simp only [held,hp]
  have hnil : x.frames = [] := hi.alone (by simp [outermost,hp])
  have hk : s.kernel = some i := hi.own.mp (by simp [hheld])
  have hn : s.nest = 1 := (hi.nest (by simp [hheld])).trans (by simp only [depth,hp])
  refine h.hold rfl h.released h.free ?_ (Or.inr hk) (Or.inr hk) (Or.inr (Or.inr rfl))
  refine ⟨⟨fun _ => hk,fun _ => by simp [held]⟩,⟨fun _ => rfl,fun _ => by simp [named]⟩,fun _ => ?_,?_,
    fun hc => hc.elim⟩
  · simp [acquired,depth,hn,hnil]
  · intro g hg
    exact hi.saved g (by rw [hheld]; exact hg)

theorem inv_unDec (h : Inv s) (hx : s.threads[i]? = some x) (hp : x.place = .unRead spl f) :
    0 < s.nest ∧ Inv (s.goto i x (.unDec spl f)) := by
  have hi := h.seat i x hx
  have hheld : held x = f :: x.frames := by simp only [held,hp]
  have hn : s.nest = x.frames.length + 1 := (hi.nest (by simp [hheld])).trans (by simp only [depth,hp])
  refine ⟨by omega,h.move (hi.same ?_ ?_ (fun _ => ?_) fun hc => hc.elim)⟩
  · rw [hheld]
    rfl
  · simp [named,hp]
  · simp [depth,hp]

theorem inv_unTest (h : Inv s) (hx : s.threads[i]? = some x) (hp : x.place = .unDec spl f) :
    Inv ({ s with nest := s.nest - 1 }.goto i x (.unTest spl f)) := by
  have hi := h.seat i x hx
  have hheld : held x = f :: x.frames := by simp only [held,hp]
  have hk : s.kernel = some i := hi.own.mp (by simp [hheld])
  have hn : s.nest = x.frames.length + 1 := (hi.nest (by simp [hheld])).trans (by simp only [depth,hp])
  have ht : s.taskp = some i := hi.task.mp (by simp [named,hp])
  refine h.hold rfl h.released (fun hc => absurd (hk.symm.trans hc) (by simp)) ?_ (Or.inr hk) (Or.inr hk) (Or.inl rfl)
  refine ⟨⟨fun _ => hk,fun _ => by simp [held]⟩,⟨fun _ => ht,fun _ => trivial⟩,fun _ => ?_,?_,fun hc => hc.elim⟩
  · simp [goto,depth,hn]
  · intro g hg
    exact hi.saved g (by rw [hheld]; exact hg)

/- An unlock that was not the outermost one returns. -/
theorem inv_kept (h : Inv s) (hx : s.threads[i]? = some x) (hp : x.place = .unTest spl f) (hn : s.nest ≠ 0) :
    Inv (s.kept i x spl) := by
  have hi := h.seat i x hx
  have hheld : held x = f :: x.frames := by simp only [held,hp]
  have hlen : s.nest = x.frames.length := (hi.nest (by simp [hheld])).trans (by simp only [depth,hp])
  obtain ⟨g,fs,hfs⟩ : ∃ g fs, x.frames = g :: fs := by
    refine List.exists_cons_of_ne_nil fun hc => hn ?_
    rw [hlen,hc]
    rfl
  refine h.move (hi.same ?_ ?_ (fun _ => ?_) fun hc => ?_)
  · rw [hheld]
    cases spl <;> simp [held,hfs]
  · cases spl <;> simp [named,hp,hfs]
  · cases spl <;> simp [depth,hp]
  · cases spl <;> cases hc

theorem inv_unClear (h : Inv s) (hx : s.threads[i]? = some x) (hp : x.place = .unTest spl f) (hn : s.nest = 0) :
    Inv (s.goto i x (.unClear spl f)) := by
  have hi := h.seat i x hx
  have hheld : held x = f :: x.frames := by simp only [held,hp]
  have hlen : s.nest = x.frames.length := (hi.nest (by simp [hheld])).trans (by simp only [depth,hp])
  have hnil : x.frames = [] := List.length_eq_zero_iff.mp (by omega)
  refine h.move (hi.same ?_ ?_ (fun _ => ?_) fun _ => hnil)
  · rw [hheld]
    rfl
  · simp [named,hp]
  · simp [depth,hp,hnil]

theorem inv_unSpin (h : Inv s) (hx : s.threads[i]? = some x) (hp : x.place = .unClear spl f) :
    Inv ({ s with taskp := none }.goto i x (.unSpin spl f)) := by
  have hi := h.seat i x hx
  have hheld : held x = f :: x.frames := by simp only [held,hp]
  have hk : s.kernel = some i := hi.own.mp (by simp [hheld])
  have hn : s.nest = 0 := (hi.nest (by simp [hheld])).trans (by simp only [depth,hp])
  refine h.hold rfl h.released h.free ?_ (Or.inr hk) (Or.inr hk) (Or.inr (Or.inl rfl))
  refine ⟨⟨fun _ => hk,fun _ => by simp [held]⟩,⟨fun hc => hc.elim,fun hc => by cases hc⟩,fun _ => hn,?_,
    fun _ => hi.alone (by simp [outermost,hp])⟩
  intro g hg
  exact hi.saved g (by rw [hheld]; exact hg)

/- The outermost unlock lets the kernel lock go, with the flags of the outermost acquisition. -/
theorem inv_unlocked (h : Inv s) (hx : s.threads[i]? = some x) (hp : x.place = .unSpin spl f) :
    Inv (s.unlocked m i x spl f) := by
  have hi := h.seat i x hx
  have hheld : held x = f :: x.frames := by simp only [held,hp]
  have hnil : x.frames = [] := hi.alone (by simp [outermost,hp])
  have hk : s.kernel = some i := hi.own.mp (by simp [hheld])
  have hn : s.nest = 0 := (hi.nest (by simp [hheld])).trans (by simp only [depth,hp])
  have hname : ¬ named x := by simp [named,hp]
  refine h.hold rfl (fun r hr => ?_) (fun _ => hn) ?_ (Or.inr hk) (Or.inl rfl) (Or.inl rfl)
  · rcases List.mem_append.mp hr with hr | hr
    · exact h.released r hr
    · obtain rfl := List.mem_singleton.mp hr
      refine ⟨hk,hnil,fun hs hf => ?_⟩
      have hs : spl = false := hs
      have hf : f.kind = .irqsave := hf
      have hsaved := hi.saved f (by simp [hheld,hnil]) hf
      simp [restore,hs,hf,hsaved]
  · have hfree : (s.unlocked m i x spl f).kernel = none := rfl
    have hother : s.taskp ≠ some i := fun hc => hname (hi.task.mpr hc)
    refine ⟨?_,?_,?_,?_,fun _ => hnil⟩
    · rw [hfree]
      cases spl <;> simp [held,hnil]
    · cases spl <;> simpa [named,hnil,unlocked] using hother
    · cases spl <;> simp [held,hnil]
    · cases spl <;> simp [held,hnil]

/- The task has not got the lock, or gives up its latest acquisition for `lis_spl0`. -/
theorem inv_ownTask (h : Inv s) (hx : s.threads[i]? = some x) (hp : x.place = .ownTask) :
    if s.taskp = some i then
      x.frames ≠ [] ∧ Inv { s with threads := s.threads.set i ⟨.unRead true (x.frames.headD ⟨.irqsave,m.lisPsw0⟩),
        x.frames.tail,x.irq⟩ }
    else x.frames = [] ∧ Inv (s.goto i x .idle) := by
  have hi := h.seat i x hx
  have hname : named x ↔ x.frames ≠ [] := by simp only [named,hp]
  have hheld : held x = x.frames := by simp only [held,hp]
  split
  next ht =>
    obtain ⟨g,fs,hfs⟩ := List.exists_cons_of_ne_nil (hname.mp (hi.task.mpr ht))
    refine ⟨by simp [hfs],h.move (hi.same ?_ ?_ (fun _ => ?_) fun hc => hc.elim)⟩
    · rw [hheld,hfs]
      rfl
    · rw [hname]
      simp [named,hfs]
    · simp [depth,hp,hfs]
  next ht =>
    have hnil : x.frames = [] := not_not.mp fun hc => ht (hi.task.mp (hname.mpr hc))
    refine ⟨hnil,h.move (hi.same ?_ ?_ (fun _ => ?_) fun hc => hc.elim)⟩
    · rw [hheld]
      rfl
    · rw [hname]
      simp [named]
    · simp [depth,hp]

/- The places that all acquisitions of the task are at rest in. -/
theorem inv_resting (h : Inv s) (hx : s.threads[i]? = some x) (hp : x.place = .idle ∨ x.place = .isLocked)
    {p : Place} (hq : (∃ f, p = .read f) ∨ p = .isLocked ∨ p = .ownTask ∨ p = .idle) : Inv (s.goto i x p) := by
  have hi := h.seat i x hx
  have hheld : held x = x.frames := by rcases hp with hp | hp <;> simp only [held,hp]
  have hname : named x ↔ x.frames ≠ [] := by rcases hp with hp | hp <;> simp only [named,hp]
  have hdepth : depth x = x.frames.length := by rcases hp with hp | hp <;> simp only [depth,hp]
  rcases hq with ⟨f,rfl⟩ | rfl | rfl | rfl
  all_goals exact h.move (hi.same (by rw [hheld]; rfl) (by rw [hname]; rfl) (fun _ => hdepth.symm) fun hc => hc.elim)

theorem inv_trySpin (h : Inv s) (hx : s.threads[i]? = some x) (hp : x.place = .idle ∨ x.place = .tryRead)
    (ht : s.taskp ≠ some i) {p : Place} (hq : p = .tryRead ∨ p = .trySpin) : Inv (s.goto i x p) := by
  have hi := h.seat i x hx
  have hname : ¬ named x := fun hc => ht (hi.task.mp hc)
  have hnil : x.frames = [] := by
    rcases hp with hp | hp
    · exact not_not.mp fun hc => hname (by simpa only [named,hp] using hc)
    · exact hi.alone (by simp only [outermost,hp])
  have hheld : held x = [] := by rcases hp with hp | hp <;> simp only [held,hp,hnil]
  rcases hq with rfl | rfl
  all_goals exact h.move (hi.same (by rw [hheld]; rfl) ⟨fun hc => hc.elim,fun hc => absurd hc hname⟩
    (fun hc => absurd hheld hc) fun _ => hnil)

/- `lis_spin_trylock` fails. -/
theorem inv_tryFail (h : Inv s) (hx : s.threads[i]? = some x) (hp : x.place = .trySpin) : Inv (s.goto i x .idle) := by
  have hi := h.seat i x hx
  have hnil : x.frames = [] := hi.alone (by simp [outermost,hp])
  refine h.move (hi.same ?_ ?_ (fun hc => ?_) fun hc => hc.elim)
  · simp [held,hp,hnil]
  · simp [named,hp,hnil]
  · simp [held,hp] at hc

theorem inv_unlock (h : Inv s) (hx : s.threads[i]? = some x) (hp : x.place = .idle) {frames : List Frame}
    (hf : x.frames = f :: frames) : Inv { s with threads := s.threads.set i ⟨.unRead false f,frames,x.irq⟩ } := by
  have hi := h.seat i x hx
  refine h.move (hi.same ?_ ?_ (fun _ => ?_) fun hc => hc.elim)
  · simp [held,hp,hf]
  · simp [named,hp,hf]
  · simp [depth,hp,hf]

theorem inv_task (h : Inv s) (hx : s.threads[i]? = some x) (ht : s.taskStep m i x = some t) : Inv t := by
  unfold taskStep at ht
  split at ht
  case h_1 => cases ht
  case h_2 hp => exact Option.some.inj ht ▸ inv_read h hx hp
  case h_3 hp =>
    split at ht
    next hk => exact Option.some.inj ht ▸ inv_spin h hx hp hk
    next => cases ht
  case h_4 hp => exact Option.some.inj ht ▸ inv_set h hx hp
  case h_5 hp => exact Option.some.inj ht ▸ inv_inc h hx hp
  case h_6 hp =>
    have hname : ¬ named x := by simp [named,hp]
    have hother : s.taskp ≠ some i := fun hc => hname ((h.seat i x hx).task.mpr hc)
    rw [if_neg hother] at ht
    exact Option.some.inj ht ▸ inv_trySpin h hx (Or.inr hp) hother (Or.inr rfl)
  case h_7 hp =>
    split at ht
    next hk => exact Option.some.inj ht ▸ inv_tryInc h hx hp hk
    next => exact Option.some.inj ht ▸ inv_tryFail h hx hp
  case h_8 hp => exact Option.some.inj ht ▸ inv_trySet h hx hp
  case h_9 hp => exact Option.some.inj ht ▸ inv_tried h hx hp
  case h_10 hp =>
    obtain ⟨hn,hi⟩ := inv_unDec h hx hp
    rw [if_pos hn] at ht
    exact Option.some.inj ht ▸ hi
  case h_11 hp => exact Option.some.inj ht ▸ inv_unTest h hx hp
  case h_12 hp =>
    obtain rfl := Option.some.inj ht
    split
    next hn => exact inv_unClear h hx hp hn
    next hn => exact inv_kept h hx hp hn
  case h_13 hp => exact Option.some.inj ht ▸ inv_unSpin h hx hp
  case h_14 hp => exact Option.some.inj ht ▸ inv_unlocked h hx hp
  case h_15 hp =>
    obtain rfl := Option.some.inj ht
    split
    next => exact inv_resting h hx (Or.inr hp) (Or.inr (Or.inr (Or.inr rfl)))
    next => exact inv_resting h hx (Or.inr hp) (Or.inr (Or.inr (Or.inl rfl)))
  case h_16 hp =>
    have ho := inv_ownTask (m := m) h hx hp
    split at ht
    next hs => exact Option.some.inj ht ▸ (if_pos hs ▸ ho).2
    next hs => exact Option.some.inj ht ▸ (if_neg hs ▸ ho).2

end Steps

section Runs

/- `lis_spin_trylock` is not called by the task that has the lock. -/
def Once (s : Spin) : Act → Prop
  | .trylock i => s.taskp ≠ some i
  | _ => True

instance Once.decidable (s : Spin) : ∀ a, Decidable (Once s a)
  | .trylock i => inferInstanceAs (Decidable (s.taskp ≠ some i))
  | .lock _ _ | .unlock _ | .spl0 _ | .task _ => inferInstanceAs (Decidable True)

theorem inv_step (s : Spin) (a : Act) (t : Spin) (h : Inv s) (ho : Once s a) (ht : step m s a = some t) : Inv t := by
  cases a with
  | lock i f =>
    obtain ⟨x,hx,ht⟩ := Option.bind_eq_some_iff.mp ht
    split at ht
    next hp => exact Option.some.inj ht ▸ inv_resting h hx (Or.inl hp) (Or.inl ⟨f,rfl⟩)
    next => cases ht
  | trylock i =>
    obtain ⟨x,hx,ht⟩ := Option.bind_eq_some_iff.mp ht
    split at ht
    next hp => exact Option.some.inj ht ▸ inv_trySpin h hx (Or.inl hp) ho (Or.inl rfl)
    next => cases ht
  | unlock i =>
    obtain ⟨x,hx,ht⟩ := Option.bind_eq_some_iff.mp ht
    split at ht
    next hp =>
      split at ht
      next => cases ht
      next f frames hf => exact Option.some.inj ht ▸ inv_unlock h hx hp hf
    next => cases ht
  | spl0 i =>
    obtain ⟨x,hx,ht⟩ := Option.bind_eq_some_iff.mp ht
    split at ht
    next hp => exact Option.some.inj ht ▸ inv_resting h hx (Or.inl hp) (Or.inr (Or.inl rfl))
    next => cases ht
  | task i =>
    obtain ⟨x,hx,ht⟩ := Option.bind_eq_some_iff.mp ht
    exact inv_task h hx ht

theorem inv_init (states : List ℕ) : Inv (init states) := by
  refine ⟨fun k z hz => ?_,fun _ => rfl,fun r hr => by cases hr⟩
  obtain ⟨irq,-,rfl⟩ := List.mem_map.mp (List.mem_of_getElem? hz)
  refine ⟨?_,?_,fun hc => absurd rfl hc,fun f hf => (by cases hf),fun hc => hc.elim⟩
  · simp [held,init]
  · simp [named,init]

/- What holds of the lock whenever a step has been taken. -/
structure Right (s : Spin) : Prop where
  one : ∀ (i k : ℕ) (x z : Thread), s.threads[i]? = some x → s.threads[k]? = some z → x.frames ≠ [] → z.frames ≠ [] →
    i = k
  owner : ∀ i x, s.threads[i]? = some x → x.place = .idle → x.frames ≠ [] →
    s.kernel = some i ∧ s.nest = x.frames.length
  free : ∀ i x, s.threads[i]? = some x → x.place = .idle → x.frames = [] → s.kernel ≠ some i
  released : ∀ r ∈ s.released, Released r

theorem Seat.kernel (h : Seat s i x) (hf : x.frames ≠ []) : s.kernel = some i := by
  refine h.own.mp ?_
  have ho := h.alone
  revert ho
  unfold outermost held
  cases x.place <;> simp_all

theorem Inv.right (h : Inv s) : Right s where
  one i k x z hx hz hi hk := by
    have hx := (h.seat i x hx).kernel hi
    have hz := (h.seat k z hz).kernel hk
    exact Option.some.inj (hx.symm.trans hz)
  owner i x hx hp hf := by
    have hi := h.seat i x hx
    refine ⟨hi.kernel hf,?_⟩
    simpa [depth,hp] using hi.nest (by simpa [held,hp] using hf)
  free i x hx hp hf hk := by
    have hheld := (h.seat i x hx).own.mpr hk
    simp [held,hp,hf] at hheld
  released := h.released

end Runs

section Spl0

/- The task is in `lis_spl0`. -/
def InSpl0 (x : Thread) : Prop :=
  match x.place with
  | .isLocked | .ownTask => True
  | .unRead spl _ | .unDec spl _ | .unTest spl _ | .unClear spl _ | .unSpin spl _ => spl = true
  | _ => False

/- How many steps of its own the task takes at most before `lis_spl0` returns. -/
def toGo (x : Thread) : ℕ :=
  7 * x.frames.length + match x.place with
  | .ownTask => 1
  | .isLocked => 2
  | .unSpin _ _ => 3
  | .unClear _ _ => 4
  | .unTest _ _ => 5
  | .unDec _ _ => 6
  | .unRead _ _ => 7
  | _ => 0

/- `lis_spl0` has returned and the task has not got the lock. -/
structure AtBase (s : Spin) (i : ℕ) (x : Thread) : Prop where
  back : x.place = .idle
  none : x.frames = []
  notOwner : s.kernel ≠ some i

theorem goto_self (hx : s.threads[i]? = some x) (p : Place) :
    (s.goto i x p).threads[i]? = some { x with place := p } :=
  List.getElem?_set_self (List.getElem?_eq_some_iff.mp hx).1

/- The task is never stopped in `lis_spl0`, and each of its steps brings it nearer to the end. -/
theorem spl0_step (h : Inv s) (hx : s.threads[i]? = some x) (hp : InSpl0 x) :
    ∃ t y, s.taskStep m i x = some t ∧ t.threads[i]? = some y ∧ toGo y < toGo x ∧ (InSpl0 y ∨ AtBase t i y) := by
  have hi := h.seat i x hx
  have hlt := (List.getElem?_eq_some_iff.mp hx).1
  obtain ⟨p,frames,irq⟩ := x
  cases p with
  | unRead spl f =>
    have hn := (inv_unDec h hx rfl).1
    exact ⟨_,_,congrArg some (if_pos hn),goto_self hx (.unDec spl f),by simp [toGo],Or.inl hp⟩
  | unDec spl f => exact ⟨_,_,rfl,List.getElem?_set_self hlt,by simp [toGo],Or.inl hp⟩
  | unTest spl f =>
    obtain rfl : spl = true := hp
    by_cases hn : s.nest = 0
    · exact ⟨_,_,congrArg some (if_pos hn),goto_self hx (.unClear true f),by simp [toGo],Or.inl rfl⟩
    · exact ⟨_,_,congrArg some (if_neg hn),goto_self hx .isLocked,by simp [toGo],Or.inl trivial⟩
  | unClear spl f => exact ⟨_,_,rfl,List.getElem?_set_self hlt,by simp [toGo],Or.inl hp⟩
  | unSpin spl f =>
    obtain rfl : spl = true := hp
    exact ⟨_,_,rfl,List.getElem?_set_self hlt,by simp [toGo],Or.inl trivial⟩
  | isLocked =>
    by_cases hk : s.kernel = none
    · have hnil : frames = [] := not_not.mp fun hc => absurd (hk.symm.trans (hi.kernel hc)) (by simp)
      refine ⟨_,_,congrArg (fun p => some (s.goto i _ p)) (if_pos hk),goto_self hx .idle,by simp [toGo],Or.inr ?_⟩
      exact ⟨rfl,hnil,fun hc => absurd (hk.symm.trans hc) (by simp)⟩
    · exact ⟨_,_,congrArg (fun p => some (s.goto i _ p)) (if_neg hk),goto_self hx .ownTask,by simp [toGo],
        Or.inl trivial⟩
  | ownTask =>
    have ho := inv_ownTask (m := m) h hx rfl
    by_cases ht : s.taskp = some i
    · rw [if_pos ht] at ho
      obtain ⟨g,fs,rfl⟩ := List.exists_cons_of_ne_nil ho.1
      refine ⟨_,⟨.unRead true g,fs,irq⟩,if_pos ht,List.getElem?_set_self hlt,?_,Or.inl rfl⟩
      simp only [toGo,List.length_cons]
      omega
    · rw [if_neg ht] at ho
      obtain rfl := ho.1
      exact ⟨_,_,if_neg ht,goto_self hx .idle,by simp [toGo],Or.inr ⟨rfl,rfl,fun hc => hi.own.mpr hc rfl⟩⟩
  | _ => exact hp.elim

/- What the other tasks do does not move it. -/
theorem spl0_other {a : Act} (hx : s.threads[i]? = some x) (hp : InSpl0 x) (ha : a ≠ .task i)
    (ht : step m s a = some t) : t.threads[i]? = some x := by
  have hbusy : x.place ≠ .idle := by
    intro hc
    simp [InSpl0,hc] at hp
  have hset (k : ℕ) (z y : Thread) (hz : s.threads[k]? = some z) (hne : z.place = .idle ∨ k ≠ i) :
      (s.threads.set k y)[i]? = some x := by
    have hki : k ≠ i := by
      rcases hne with hne | hne
      · rintro rfl
        exact hbusy (Option.some.inj (hz.symm.trans hx) ▸ hne)
      · exact hne
    rw [List.getElem?_set_ne hki,hx]
  cases a with
  | lock k f =>
    obtain ⟨z,hz,ht⟩ := Option.bind_eq_some_iff.mp ht
    split at ht
    next hq => exact Option.some.inj ht ▸ hset k z _ hz (Or.inl hq)
    next => cases ht
  | trylock k =>
    obtain ⟨z,hz,ht⟩ := Option.bind_eq_some_iff.mp ht
    split at ht
    next hq => exact Option.some.inj ht ▸ hset k z _ hz (Or.inl hq)
    next => cases ht
  | unlock k =>
    obtain ⟨z,hz,ht⟩ := Option.bind_eq_some_iff.mp ht
    split at ht
    next hq =>
      split at ht
      next => cases ht
      next => exact Option.some.inj ht ▸ hset k z _ hz (Or.inl hq)
    next => cases ht
  | spl0 k =>
    obtain ⟨z,hz,ht⟩ := Option.bind_eq_some_iff.mp ht
    split at ht
    next hq => exact Option.some.inj ht ▸ hset k z _ hz (Or.inl hq)
    next => cases ht
  | task k =>
    obtain ⟨z,hz,ht⟩ := Option.bind_eq_some_iff.mp ht
    have hne : k ≠ i := fun hc => ha (hc ▸ rfl)
    obtain ⟨y,hy⟩ : ∃ y, t.threads = s.threads.set k y := by
      unfold taskStep at ht
      split at ht
      all_goals try split at ht
      all_goals first
        | exact Option.some.inj ht ▸ ⟨_,rfl⟩
        | cases ht
    rw [hy]
    exact hset k z y hz (Or.inr hne)

/- In the run the task comes out of `lis_spl0`. -/
def Returns (m : Machine) (s : Spin) (i : ℕ) (as : List Act) : Prop :=
  ∃ bs t y, bs <+: as ∧ exec (step m) s bs = some t ∧ t.threads[i]? = some y ∧ AtBase t i y

theorem spl0_returns {as : List Act} (h : Inv s) (hx : s.threads[i]? = some x) (hp : InSpl0 x)
    (ho : Meets (step m) Once s as) (ht : exec (step m) s as = some t) (hc : toGo x ≤ as.count (.task i)) :
    Returns m s i as := by
  induction as generalizing s x with
  | nil =>
    obtain ⟨-,y,-,-,hlt,-⟩ := spl0_step (m := m) h hx hp
    rw [List.count_nil] at hc
    omega
  | cons a as ih =>
    obtain ⟨u,hu,hr⟩ := exec_cons_eq_some ht
    have hi := inv_step s a u h ho.1 hu
    have hback {bs : List Act} {v : Spin} (hbs : bs <+: as) (hv : exec (step m) u bs = some v) :
        a :: bs <+: a :: as ∧ exec (step m) s (a :: bs) = some v :=
      ⟨List.prefix_cons_inj a |>.mpr hbs,by rw [exec_cons,hu]; exact hv⟩
    by_cases ha : a = .task i
    · subst ha
      obtain ⟨v,y,hv,hy,hlt,hend⟩ := spl0_step (m := m) h hx hp
      obtain rfl : v = u := by
        refine Option.some.inj (hv.symm.trans ?_)
        rw [step,hx] at hu
        exact hu
      rw [List.count_cons_self] at hc
      rcases hend with hend | hend
      · obtain ⟨bs,w,z,hbs,hw,hz,hbase⟩ := ih hi hy hend (ho.2 v hu) hr (by omega)
        obtain ⟨hpre,hexec⟩ := hback hbs hw
        exact ⟨_,w,z,hpre,hexec,hz,hbase⟩
      · obtain ⟨hpre,hexec⟩ := hback as.nil_prefix rfl
        exact ⟨_,v,y,hpre,hexec,hy,hend⟩
    · rw [List.count_cons_of_ne ha] at hc
      obtain ⟨bs,w,z,hbs,hw,hz,hbase⟩ := ih hi (spl0_other hx hp ha hu) hp (ho.2 u hu) hr hc
      obtain ⟨hpre,hexec⟩ := hback hbs hw
      exact ⟨_,w,z,hpre,hexec,hz,hbase⟩

theorem nested_locks (states : List ℕ) {as : List Act} (ho : Meets (step m) Once (init states) as)
    (h : exec (step m) (init states) as = some s) :
    Right s ∧ ∀ i x, s.threads[i]? = some x → InSpl0 x →
      (s.taskStep m i x).isSome ∧ ∀ bs t, Meets (step m) Once s bs → exec (step m) s bs = some t →
        toGo x ≤ bs.count (.task i) → Returns m s i bs := by
  have hi : Inv s := exec_preserves inv_step (inv_init states) ho h
  refine ⟨hi.right,fun i x hx hp => ⟨?_,fun bs t hb ht hc => spl0_returns hi hx hp hb ht hc⟩⟩
  obtain ⟨t,-,ht,-⟩ := spl0_step (m := m) hi hx hp
  exact Option.isSome_of_eq_some ht

/- Interrupts off is 0, on is 1. -/
def oneCpu : Machine := ⟨fun _ => 0,fun _ => 1,1⟩

/- Nested to the depth of three with a task that waits for the lock, and `lis_spl0` for two of the levels. -/
def threeDeep : List Act :=
  [.lock 0 ⟨.irqsave,9⟩,.task 0,.task 0,.task 0,.task 0,.lock 1 ⟨.irq,0⟩,.task 1,.lock 0 ⟨.plain,0⟩,.task 0,.task 0,
    .lock 0 ⟨.irq,0⟩,.task 0,.task 0,.unlock 0,.task 0,.task 0,.task 0,.spl0 0,.task 0]

theorem nested_locks_three : ∃ s, exec (step oneCpu) (init [1,1]) threeDeep = some s ∧ Right s ∧
    ∀ i x, s.threads[i]? = some x → InSpl0 x →
      (s.taskStep oneCpu i x).isSome ∧ ∀ bs t, Meets (step oneCpu) Once s bs → exec (step oneCpu) s bs = some t →
        toGo x ≤ bs.count (.task i) → Returns oneCpu s i bs :=
  Exists.imp (fun _ hs => ⟨hs,nested_locks [1,1] (by decide) hs⟩) (Option.isSome_iff_exists.mp rfl)

/- The task has the lock and acquires it once more with `lis_spin_trylock`; the first of the two unlocks is enough
to release it. -/
def heldTwice : List Act :=
  [.lock 0 ⟨.plain,0⟩,.task 0,.task 0,.task 0,.task 0,.trylock 0,.task 0,.unlock 0,.task 0,.task 0,.task 0,.task 0,
    .task 0]

theorem lock_lost : ¬ ∀ s, exec (step oneCpu) (init [1,1]) heldTwice = some s → Right s := by
  intro h
  have hr := (h _ rfl).released _ (List.mem_singleton_self _)
  exact absurd hr.last (by decide)

end Spl0

end CSLiS.Locks.Spin
