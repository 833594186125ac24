import Mathlib

/-!
# A list split at an element

Search loops over a list return a position. Here the position is the split of
the list around the element found, so that the element can be replaced without
an index.
-/

namespace CSLiS.Lib.Split

variable {α β : Type*}

/-- The split of a list around its first element with the property. -/
def splitFirst (p : α → Bool) : List α → Option (List α × α × List α)
  | [] => none
  | x :: l =>
      if p x then some ([],x,l)
      else (splitFirst p l).map fun z => (x :: z.1,z.2.1,z.2.2)

theorem splitFirst_some {p : α → Bool} {l a b : List α} {x : α}
    (h : splitFirst p l = some (a,x,b)) :
    l = a ++ x :: b ∧ p x = true ∧ ∀ y ∈ a, p y = false := by
  induction l generalizing a with
  | nil => cases h
  | cons y l ih =>
    unfold splitFirst at h
    split_ifs at h with hy
    · obtain ⟨rfl,rfl,rfl⟩ : [] = a ∧ y = x ∧ l = b := by simpa using h
      exact ⟨rfl,hy,by simp⟩
    · obtain ⟨⟨a',x',b'⟩,hz,he⟩ := Option.map_eq_some_iff.mp h
      obtain ⟨rfl,rfl,rfl⟩ : y :: a' = a ∧ x' = x ∧ b' = b := by simpa using he
      obtain ⟨rfl,hp,ha⟩ := ih hz
      refine ⟨rfl,hp,fun z hz => ?_⟩
      rcases List.mem_cons.mp hz with rfl | hz
      · simpa using hy
      · exact ha z hz

theorem splitFirst_none {p : α → Bool} {l : List α} :
    splitFirst p l = none ↔ ∀ x ∈ l, p x = false := by
  induction l with
  | nil => simp [splitFirst]
  | cons y l ih =>
    unfold splitFirst
    by_cases hy : p y = true
    · simp [hy]
    · simp [hy,ih]

theorem splitFirst_of_mem {p : α → Bool} {l : List α} {x : α} (hx : x ∈ l) (hp : p x = true) :
    ∃ a y b, splitFirst p l = some (a,y,b) ∧ p y = true := by
  cases h : splitFirst p l with
  | none => rw [splitFirst_none.mp h x hx] at hp; cases hp
  | some z => exact ⟨z.1,z.2.1,z.2.2,rfl,(splitFirst_some h).2.1⟩

/- Two lists that agree element by element, and on the property, are split alike. -/
theorem splitFirst_forall₂ {R : α → β → Prop} {l : List α} {l' : List β}
    (h : List.Forall₂ R l l') (p : α → Bool) (p' : β → Bool) (hp : ∀ x y, R x y → p x = p' y) :
    (splitFirst p l = none → splitFirst p' l' = none) ∧
      ∀ a x b, splitFirst p l = some (a,x,b) → ∃ a' x' b', splitFirst p' l' = some (a',x',b') ∧
        List.Forall₂ R a a' ∧ R x x' ∧ List.Forall₂ R b b' := by
  induction h with
  | nil => exact ⟨fun _ => rfl,fun _ _ _ h => by cases h⟩
  | @cons x y l l' hxy hl ih =>
    unfold splitFirst
    rw [← hp x y hxy]
    split_ifs with hx
    · refine ⟨(nomatch ·),fun a z b h => ?_⟩
      obtain ⟨rfl,rfl,rfl⟩ : [] = a ∧ x = z ∧ l = b := by simpa using h
      exact ⟨[],y,l',rfl,.nil,hxy,hl⟩
    · refine ⟨fun h => ?_,fun a z b h => ?_⟩
      · rw [ih.1 (by simpa using h)]
        rfl
      · obtain ⟨⟨a₁,x₁,b₁⟩,hs,he⟩ := Option.map_eq_some_iff.mp h
        obtain ⟨rfl,rfl,rfl⟩ : x :: a₁ = a ∧ x₁ = z ∧ b₁ = b := by simpa using he
        obtain ⟨a',x',b',hs',ha,hx',hb⟩ := ih.2 _ _ _ hs
        exact ⟨y :: a',x',b',by rw [hs']; rfl,.cons hxy ha,hx',hb⟩

/-- The split of a list around its first element with the property, or around its last one if none has it. -/
def splitStop (p : α → Bool) : List α → Option (List α × α × List α)
  | [] => none
  | [x] => some ([],x,[])
  | x :: y :: l =>
      if p x then some ([],x,y :: l)
      else (splitStop p (y :: l)).map fun z => (x :: z.1,z.2.1,z.2.2)

theorem splitStop_cons {p : α → Bool} {x y : α} {l : List α} (hx : p x = false) :
    splitStop p (x :: y :: l) = (splitStop p (y :: l)).map fun z => (x :: z.1,z.2.1,z.2.2) := by
  rw [splitStop,if_neg (by simp [hx])]

theorem splitStop_some {p : α → Bool} {l a b : List α} {x : α} (h : splitStop p l = some (a,x,b)) :
    l = a ++ x :: b ∧ (p x = true ∨ b = []) ∧ ∀ y ∈ a, p y = false := by
  induction l generalizing a with
  | nil => cases h
  | cons y l ih =>
    cases l with
    | nil =>
      obtain ⟨rfl,rfl,rfl⟩ : [] = a ∧ y = x ∧ [] = b := by simpa [splitStop] using h
      exact ⟨rfl,Or.inr rfl,by simp⟩
    | cons z l =>
      cases hy : p y with
      | true =>
        obtain ⟨rfl,rfl,rfl⟩ : [] = a ∧ y = x ∧ z :: l = b := by simpa [splitStop,hy] using h
        exact ⟨rfl,Or.inl hy,by simp⟩
      | false =>
        rw [splitStop_cons hy] at h
        obtain ⟨⟨a',x',b'⟩,hz,he⟩ := Option.map_eq_some_iff.mp h
        obtain ⟨rfl,rfl,rfl⟩ : y :: a' = a ∧ x' = x ∧ b' = b := by simpa using he
        obtain ⟨heq,hp,ha⟩ := ih hz
        exact ⟨congrArg (y :: ·) heq,hp,List.forall_mem_cons.mpr ⟨hy,ha⟩⟩

/- An element that took the place of the one found, and agrees with it on the property, is found there. -/
theorem splitStop_put {p : α → Bool} {l a b : List α} {x x' : α} (h : splitStop p l = some (a,x,b))
    (hp : p x' = p x) : splitStop p (a ++ x' :: b) = some (a,x',b) := by
  obtain ⟨-,hx,ha⟩ := splitStop_some h
  clear h
  induction a with
  | nil =>
    cases b with
    | nil => rfl
    | cons y b =>
      have hx : p x = true := by simpa using hx
      simp [splitStop,hp,hx]
  | cons y a ih =>
    have hy := ha y List.mem_cons_self
    have ih := ih fun z hz => ha z (List.mem_cons_of_mem _ hz)
    cases a with
    | nil =>
      have ih : splitStop p (x' :: b) = some ([],x',b) := ih
      rw [List.cons_append,List.nil_append,splitStop_cons hy,ih]
      rfl
    | cons z a =>
      rw [List.cons_append,List.cons_append,splitStop_cons hy,← List.cons_append,ih]
      rfl

end CSLiS.Lib.Split
