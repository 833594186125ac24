import CSLiS.Lib.Threaded

/-!
# Two lists threaded in opposite directions

Elements come in pairs, `other` goes from one of a pair to the other one. A list is mirrored by the links
when they lead through it and, the other way, through the other elements of its pairs.
-/

namespace CSLiS.Lib

variable {α : Type*}

def mirror (other : α → α) (l : List α) : List α := l.reverse.map other

/-- The links lead through the list, and back through its mirror image. -/
structure Mirrored (other : α → α) (next : α → Option α) (l : List α) : Prop where
  there : Threaded next l.head? l
  back : Threaded next (mirror other l).head? (mirror other l)

variable {other : α → α} {next next' : α → Option α} {o : Option α} {l m : List α} {x y : α}

@[simp] theorem mirror_append : mirror other (l ++ m) = mirror other m ++ mirror other l := by
  simp [mirror]

@[simp] theorem mirror_cons : mirror other (x :: l) = mirror other l ++ [other x] := by
  simp [mirror]

@[simp] theorem mirror_nil : mirror other [] = [] := rfl

theorem mirror_mirror (hinv : Function.Involutive other) (l : List α) : mirror other (mirror other l) = l := by
  simp [mirror,Function.comp_def,hinv _]

theorem mem_mirror (hinv : Function.Involutive other) : x ∈ mirror other l ↔ other x ∈ l := by
  simp only [mirror,List.mem_map,List.mem_reverse]
  constructor
  · rintro ⟨y,hy,rfl⟩
    rwa [hinv y]
  · exact fun h => ⟨other x,h,hinv x⟩

theorem mirror_flatMap (f : α → List α) (hf : ∀ a, f (other a) = mirror other (f a)) (l : List α) :
    mirror other (l.flatMap f) = (mirror other l).flatMap f := by
  induction l with
  | nil => rfl
  | cons a l ih =>
    rw [List.flatMap_cons,mirror_append,mirror_cons,List.flatMap_append,ih,List.flatMap_singleton,hf]

namespace Threaded

theorem of_head (h : Threaded next o l) : Threaded next l.head? l := h.head ▸ h

theorem next_eq {a : α} (h : Threaded next o (l ++ a :: m)) : next a = m.head? := by
  induction l generalizing o with
  | nil => exact h.2.head
  | cons b l ih => exact ih h.2

/- The element after one of the list is the next one of the list. -/
theorem split_next (h : Threaded next o l) (hx : x ∈ l) (hn : next x = some y) : ∃ a b, l = a ++ x :: y :: b := by
  obtain ⟨a,b,rfl⟩ := List.append_of_mem hx
  have hb : b.head? = some y := h.next_eq.symm.trans hn
  obtain ⟨b,rfl⟩ := List.head?_eq_some_iff.mp hb
  exact ⟨a,b,rfl⟩

/-- Each element `a` is replaced by `f a`, whose first one is `first a`. -/
theorem flatMap {f : α → List α} {first : α → α}
    (hf : ∀ a ∈ l, ∀ m, Threaded next' ((next a).map first) m → Threaded next' (some (first a)) (f a ++ m))
    (h : Threaded next o l) : Threaded next' (o.map first) (l.flatMap f) := by
  induction l generalizing o with
  | nil => exact congrArg (Option.map first) h
  | cons a l ih =>
    obtain ⟨rfl,h2⟩ := h
    exact hf a (List.mem_cons_self ..) _ (ih (fun b hb => hf b (List.mem_cons_of_mem _ hb)) h2)

/-- The elements of each `f a` are replaced by `a`. -/
theorem of_flatMap {f : α → List α} {last : α → α}
    (hf : ∀ a ∈ l, ∀ o m, Threaded next o (f a ++ m) → o.map last = some a ∧
      ∃ o', next' a = o'.map last ∧ Threaded next o' m)
    (h : Threaded next o (l.flatMap f)) : Threaded next' (o.map last) l := by
  induction l generalizing o with
  | nil => exact congrArg (Option.map last) h
  | cons a l ih =>
    obtain ⟨ha,o',hn,hm⟩ := hf a (List.mem_cons_self ..) o _ h
    refine ⟨ha,?_⟩
    rw [hn]
    exact ih (fun b hb => hf b (List.mem_cons_of_mem _ hb)) hm

end Threaded

namespace Mirrored

theorem symm (hinv : Function.Involutive other) (h : Mirrored other next l) : Mirrored other next (mirror other l) := by
  refine ⟨h.back,?_⟩
  rw [mirror_mirror hinv]
  exact h.there

theorem next_of_there (h : Mirrored other next l) (hx : x ∈ l) (hn : next x = some y) :
    next (other y) = some (other x) ∧ y ∈ l := by
  obtain ⟨a,b,rfl⟩ := h.there.split_next hx hn
  have hback := h.back
  simp only [mirror_append,mirror_cons,List.append_assoc,List.singleton_append] at hback
  exact ⟨hback.next_eq,by simp⟩

variable (hinv : Function.Involutive other)
include hinv

/-- An element leads to another one if and only if the others of the two pairs lead back. -/
theorem next_other (h : Mirrored other next l) (hx : x ∈ l ∨ x ∈ mirror other l) (hn : next x = some y) :
    next (other y) = some (other x) := by
  rcases hx with hx | hx
  · exact (h.next_of_there hx hn).1
  · exact ((h.symm hinv).next_of_there hx hn).1

theorem next_mem (h : Mirrored other next l) (hx : x ∈ l ∨ x ∈ mirror other l) (hn : next x = some y) :
    y ∈ l ∨ y ∈ mirror other l := by
  rcases hx with hx | hx
  · exact Or.inl (h.next_of_there hx hn).2
  · exact Or.inr ((h.symm hinv).next_of_there hx hn).2

/-- No two elements lead to the same one. -/
theorem next_inj (h : Mirrored other next l) {z : α} (hx : x ∈ l ∨ x ∈ mirror other l) (hz : z ∈ l ∨ z ∈ mirror other l)
    (hxy : next x = some y) (hzy : next z = some y) : z = x := by
  have h1 := h.next_other hinv hx hxy
  have h2 := h.next_other hinv hz hzy
  exact hinv.injective (Option.some.inj (h2.symm.trans h1))

end Mirrored

end CSLiS.Lib
