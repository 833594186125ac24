import CSLiS.Minimux.Routes

/-!
# What is in the table

An entry is that of an open stream or of a stream that is linked below, with its routes as pointers to the entries at
their other ends. The thread of the entries is not looked at.
-/

namespace CSLiS.Minimux

abbrev Heap := ℕ → Option Entry

/- The thread of the entries, and what is in them besides. -/
def thread (h : Heap) (a : ℕ) : Option ℕ := (h a).bind Entry.list
def body (h : Heap) (a : ℕ) : Option Entry := (h a).map fun e => { e with list := none }

variable {h : Heap} {a b p : ℕ} {e x : Entry} {o : Option ℕ}

@[simp] theorem thread_put : thread (Function.update h a (some e)) = Function.update (thread h) a e.list := by
  funext b
  by_cases hb : b = a <;> simp [thread,hb]

@[simp] theorem thread_drop : thread (Function.update h a none) = Function.update (thread h) a none := by
  funext b
  by_cases hb : b = a <;> simp [thread,hb]

@[simp] theorem body_put :
    body (Function.update h a (some e)) = Function.update (body h) a (some { e with list := none }) := by
  funext b
  by_cases hb : b = a <;> simp [body,hb]

@[simp] theorem body_drop : body (Function.update h a none) = Function.update (body h) a none := by
  funext b
  by_cases hb : b = a <;> simp [body,hb]

theorem body_some (hx : body h a = some x) : ∃ e, h a = some e ∧ { e with list := none } = x :=
  Option.map_eq_some_iff.mp hx

/- The table without its thread: the entries, and those that the queues point to. -/
structure View where
  entry : ℕ → Option Entry
  ptr : Outq → Option ℕ

def Driver.ptr (s : Driver) : Outq → Option ℕ
  | .rd q => s.upper q
  | .wr l => s.lower l

def Driver.view (s : Driver) : View := ⟨body s.heap,s.ptr⟩

/- The entry that a stream of the driver, or one that is linked below, should have. -/
def Net.entry (n : Net) (ptr : Outq → Option ℕ) : Outq → Option Entry
  | .rd q => (n.minor q).map fun m => ⟨none,.rd q,(n.down q).bind fun l => ptr (.wr l),none,0,m⟩
  | .wr l => (n.ctl l).map fun c => ⟨none,.wr l,ptr (.rd c.1),ptr (.rd c.1),c.2,0⟩

/- An entry of the table is that of a queue, and every queue that should have one has it. -/
structure Content (v : View) (n : Net) : Prop where
  absent : ∀ w, n.entry v.ptr w = none → v.ptr w = none
  present : ∀ w x, n.entry v.ptr w = some x → ∃ a, v.ptr w = some a ∧ v.entry a = some x
  owned : ∀ a x, v.entry a = some x → ∃ w, v.ptr w = some a

variable {v : View} {n g : Net} {w w' : Outq} {ptr : Outq → Option ℕ} {q l c m : ℕ} {id : ℤ}

theorem Net.entry_outq (hx : n.entry ptr w = some x) : x.outq = w := by
  cases w with
  | rd q =>
    obtain ⟨m,-,rfl⟩ := Option.map_eq_some_iff.mp hx
    rfl
  | wr l =>
    obtain ⟨c,-,rfl⟩ := Option.map_eq_some_iff.mp hx
    rfl

/- What does not lead to a queue does not change with it. -/
theorem Net.entry_rd (hd : (n.minor q).isSome → n.down q ≠ some l) :
    n.entry (Function.update ptr (.wr l) o) (.rd q) = n.entry ptr (.rd q) := by
  refine Option.map_congr fun m hm => ?_
  have hd' := hd (Option.isSome_iff_exists.mpr ⟨m,hm⟩)
  cases hy : n.down q with
  | none => rfl
  | some y =>
    have hyl : y ≠ l := fun he => hd' (he ▸ hy)
    simp [hyl]

theorem Net.entry_wr (hc : ∀ id, n.ctl l ≠ some (q,id)) :
    n.entry (Function.update ptr (.rd q) o) (.wr l) = n.entry ptr (.wr l) := by
  refine Option.map_congr fun c hl => ?_
  have hcq : c.1 ≠ q := by
    rintro rfl
    exact hc c.2 hl
  simp [hcq]

namespace Content

theorem of_ptr (h : Content v n) (ha : v.ptr w = some a) : ∃ x, n.entry v.ptr w = some x ∧ v.entry a = some x := by
  cases hx : n.entry v.ptr w with
  | none => rw [h.absent w hx] at ha; cases ha
  | some x =>
    obtain ⟨b,hb,hbx⟩ := h.present w x hx
    obtain rfl := Option.some.inj (ha.symm.trans hb)
    exact ⟨x,rfl,hbx⟩

theorem inj (h : Content v n) (ha : v.ptr w = some a) (hb : v.ptr w' = some a) : w = w' := by
  obtain ⟨x,hx,hax⟩ := h.of_ptr ha
  obtain ⟨y,hy,hay⟩ := h.of_ptr hb
  obtain rfl := Option.some.inj (hax.symm.trans hay)
  exact (Net.entry_outq hx).symm.trans (Net.entry_outq hy)

theorem upper_ne_lower (h : Content v n) (ha : v.ptr (.rd q) = some a) (hb : v.ptr (.wr l) = some b) : a ≠ b :=
  fun he => Outq.noConfusion (h.inj ha (he ▸ hb))

theorem upper (h : Content v n) (hm : n.minor q = some m) : ∃ a, v.ptr (.rd q) = some a ∧
    v.entry a = some ⟨none,.rd q,(n.down q).bind fun l => v.ptr (.wr l),none,0,m⟩ :=
  h.present _ _ (by simp [Net.entry,hm])

theorem lower (h : Content v n) (hc : n.ctl l = some (c,id)) : ∃ a, v.ptr (.wr l) = some a ∧
    v.entry a = some ⟨none,.wr l,v.ptr (.rd c),v.ptr (.rd c),id,0⟩ :=
  h.present _ _ (by simp [Net.entry,hc])

theorem closed (h : Content v n) (hm : n.minor q = none) : v.ptr (.rd q) = none := h.absent _ (by simp [Net.entry,hm])

theorem apart (h : Content v n) (hc : n.ctl l = none) : v.ptr (.wr l) = none := h.absent _ (by simp [Net.entry,hc])

theorem of_upper (h : Content v n) (ha : v.ptr (.rd q) = some a) : ∃ m, n.minor q = some m ∧
    v.entry a = some ⟨none,.rd q,(n.down q).bind fun l => v.ptr (.wr l),none,0,m⟩ := by
  obtain ⟨x,hx,hax⟩ := h.of_ptr ha
  obtain ⟨m,hm,rfl⟩ := Option.map_eq_some_iff.mp hx
  exact ⟨m,hm,hax⟩

theorem of_lower (h : Content v n) (ha : v.ptr (.wr l) = some a) : ∃ c id, n.ctl l = some (c,id) ∧
    v.entry a = some ⟨none,.wr l,v.ptr (.rd c),v.ptr (.rd c),id,0⟩ := by
  obtain ⟨x,hx,hax⟩ := h.of_ptr ha
  obtain ⟨c,hc,rfl⟩ := Option.map_eq_some_iff.mp hx
  exact ⟨c.1,c.2,hc,hax⟩

theorem upper_isSome (h : Content v n) (q : ℕ) : (v.ptr (.rd q)).isSome = (n.minor q).isSome := by
  cases hm : n.minor q with
  | none => rw [h.closed hm]
  | some m =>
    obtain ⟨a,ha,-⟩ := h.upper hm
    rw [ha]
    rfl

/- What the entries say nothing about. -/
theorem congr (h : Content v n) (hm : g.minor = n.minor) (hc : g.ctl = n.ctl) (hd : g.down = n.down) :
    Content v g := by
  have hentry : g.entry v.ptr = n.entry v.ptr := by
    funext w
    cases w <;> simp only [Net.entry,hm,hc,hd]
  exact ⟨fun w => hentry ▸ h.absent w,fun w => hentry ▸ h.present w,h.owned⟩

/- The entry of one queue is made, changed or freed, the others should stay as they are. -/
theorem put (h : Content v n) {z : Option Entry} (hb : v.ptr w = some b ∨ v.ptr w = none ∧ v.entry b = none)
    (hw : g.entry (Function.update v.ptr w (z.map fun _ => b)) w = z)
    (hother : ∀ w', w' ≠ w → g.entry (Function.update v.ptr w (z.map fun _ => b)) w' = n.entry v.ptr w') :
    Content ⟨Function.update v.entry b z,Function.update v.ptr w (z.map fun _ => b)⟩ g := by
  refine ⟨fun w' hx => ?_,fun w' x hx => ?_,fun a x hx => ?_⟩
  · by_cases he : w' = w
    · subst he
      rw [hw] at hx
      simp [hx]
    · exact (Function.update_of_ne he ..).trans (h.absent w' ((hother w' he).symm.trans hx))
  · by_cases he : w' = w
    · subst he
      rw [hw] at hx
      exact ⟨b,by simp [hx],by simp [hx]⟩
    · obtain ⟨a,ha,hax⟩ := h.present w' x ((hother w' he).symm.trans hx)
      refine ⟨a,(Function.update_of_ne he ..).trans ha,(Function.update_of_ne ?_ ..).trans hax⟩
      rintro rfl
      obtain hb | ⟨-,hb⟩ := hb
      · exact he (h.inj ha hb)
      · cases hax.symm.trans hb
  · by_cases hab : a = b
    · subst hab
      have hz : z = some x := by simpa using hx
      exact ⟨w,by simp [hz]⟩
    · obtain ⟨w',hw'⟩ := h.owned a x (by simpa [hab] using hx)
      refine ⟨w',(Function.update_of_ne ?_ ..).trans hw'⟩
      rintro rfl
      obtain hb | ⟨hb,-⟩ := hb
      · exact hab (Option.some.inj (hw'.symm.trans hb))
      · cases hw'.symm.trans hb

theorem add (h : Content v n) (hs : Sane n) (hq : n.minor q = none) (hb : v.entry b = none) :
    Content ⟨Function.update v.entry b (some ⟨none,.rd q,none,none,0,m⟩),Function.update v.ptr (.rd q) (some b)⟩
      (n.add q m) := by
  refine h.put (z := some _) (.inr ⟨h.closed hq,hb⟩) (by simp [Net.entry,Net.add]) fun w' hw' => ?_
  cases w' with
  | rd p =>
    have hpq : p ≠ q := fun he => hw' (congrArg _ he)
    simp [Net.entry,Net.add,hpq]
  | wr l =>
    refine Net.entry_wr (n := n) fun id hc => ?_
    have hm := (hs.linked l q id hc).1
    rw [hq] at hm
    cases hm

theorem attach (h : Content v n) (hs : Sane n) (ha : v.ptr (.rd q) = some a) (hl : n.ctl l = none)
    (hb : v.entry b = none) (id : ℤ) :
    Content ⟨Function.update v.entry b (some ⟨none,.wr l,some a,some a,id,0⟩),Function.update v.ptr (.wr l) (some b)⟩
      (n.attach q l id) := by
  refine h.put (z := some _) (.inr ⟨h.apart hl,hb⟩) (by simp [Net.entry,Net.attach,ha]) fun w' hw' => ?_
  cases w' with
  | rd p => exact Net.entry_rd (n := n) fun hm hd => (hs.down p l hm hd).elim fun id hc => by simp [hl] at hc
  | wr x =>
    have hxl : x ≠ l := fun he => hw' (congrArg _ he)
    simp [Net.entry,Net.attach,hxl]

/- The route of a stream is the other end of its entry. -/
theorem reroute (h : Content v n) (hm : n.minor q = some m) (ha : v.ptr (.rd q) = some a) {d : Option ℕ}
    (ho : o = d.bind fun l => v.ptr (.wr l)) :
    Content ⟨Function.update v.entry a (some ⟨none,.rd q,o,none,0,m⟩),v.ptr⟩
      { n with down := Function.update n.down q d } := by
  have hsame : v.ptr = Function.update v.ptr (.rd q) (some a) := by rw [← ha,Function.update_eq_self]
  have hput := h.put (g := { n with down := Function.update n.down q d }) (z := some ⟨none,.rd q,o,none,0,m⟩) (.inl ha)
  rw [Option.map_some,← hsame] at hput
  refine hput (by simp [Net.entry,hm,ho]) fun w' hw' => ?_
  cases w' with
  | rd p =>
    have hpq : p ≠ q := fun he => hw' (congrArg _ he)
    simp [Net.entry,hpq]
  | wr l => rfl

/- A lower stream that no route leads to any more. -/
theorem detach (h : Content v n) (hs : Sane n) (hl : n.ctl l = some (q,id)) (hd : n.down q ≠ some l)
    (hb : v.ptr (.wr l) = some b) :
    Content ⟨Function.update v.entry b none,Function.update v.ptr (.wr l) none⟩ (n.detach q l) := by
  refine h.put (z := none) (.inl hb) (by simp [Net.entry,Net.detach]) fun w' hw' => ?_
  cases w' with
  | rd p =>
    refine Net.entry_rd (n := n) fun hm hp => hd ?_
    obtain ⟨id',hc⟩ := hs.down p l hm hp
    obtain rfl := (Prod.mk.inj (Option.some.inj (hc.symm.trans hl))).1
    exact hp
  | wr x =>
    have hxl : x ≠ l := fun he => hw' (congrArg _ he)
    simp [Net.entry,Net.detach,hxl]

/- A stream that nothing is linked to is closed. -/
theorem close (h : Content v n) (hs : Sane n) (ha : v.ptr (.rd q) = some a) (hq : n.lowers q = []) :
    Content ⟨Function.update v.entry a none,Function.update v.ptr (.rd q) none⟩ (n.close q m) := by
  refine h.put (z := none) (.inl ha) (by simp [Net.entry,Net.close]) fun w' hw' => ?_
  cases w' with
  | rd p =>
    have hpq : p ≠ q := fun he => hw' (congrArg _ he)
    simp [Net.entry,Net.close,hpq]
  | wr l =>
    refine Net.entry_wr (n := n) fun id hc => ?_
    have hmem := (hs.linked l q id hc).2
    rw [hq] at hmem
    cases hmem

end Content

end CSLiS.Minimux
