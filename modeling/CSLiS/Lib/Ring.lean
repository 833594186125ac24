import CSLiS.Lib.Linked

/-!
# Circular lists with an anchor

A doubly linked list whose first element is linked back to an anchor and whose last one is
linked on to it. The anchor is not an element. The rules name the four links that an
insertion sets and the two that a removal sets.
-/

namespace CSLiS.Lib

variable {α : Type*}

/-- The links lead from the anchor through the list and back to it. -/
structure Ring (next prev : α → Option α) (hd : α) (l : List α) : Prop where
  nodup : (hd :: l).Nodup
  linked : Linked next prev (some (l.getLast?.getD hd)) (hd :: l) (some hd)

variable {next prev next' prev' : α → Option α} {p p' n n' : Option α} {l m : List α} {a hd : α}

/-- Only the links out of the two ends of a list are set. -/
theorem Linked.relinkEnds (hnd : l.Nodup) (hn : ∀ x ∈ l, l.getLast? ≠ some x → next' x = next x)
    (hl : ∀ x, l.getLast? = some x → next' x = n') (hp : ∀ x ∈ l, l.head? ≠ some x → prev' x = prev x)
    (hh : ∀ x, l.head? = some x → prev' x = p') (h : Linked next prev p l n) : Linked next' prev' p' l n' :=
  (h.relinkLast hnd (fun _ _ => rfl) hn hl).relinkHead hnd (fun _ _ => rfl) hp hh

namespace Ring

theorem head?_or (hd : α) (l : List α) : l.head?.or (some hd) = some (l.head?.getD hd) := by
  cases l <;> rfl

theorem anchor (h1 : next hd = some hd) (h2 : prev hd = some hd) : Ring next prev hd [] :=
  ⟨List.nodup_singleton hd,h2,h1,trivial⟩

theorem congr (hn : ∀ a ∈ hd :: l, next' a = next a) (hp : ∀ a ∈ hd :: l, prev' a = prev a)
    (h : Ring next prev hd l) : Ring next' prev' hd l := ⟨h.nodup,h.linked.congr hn hp⟩

theorem first (h : Ring next prev hd l) : next hd = some (l.head?.getD hd) := by
  rw [h.linked.2.1,head?_or]

/- The part up to some element, and the rest of the ring. -/
theorem parts (h : Ring next prev hd (l ++ m)) :
    Linked next prev (some ((l ++ m).getLast?.getD hd)) (hd :: l) (some (m.head?.getD hd)) ∧
      Linked next prev (some (l.getLast?.getD hd)) m (some hd) := by
  obtain ⟨h1,h2⟩ := Linked.append.mp (show Linked next prev _ ((hd :: l) ++ m) _ from h.linked)
  rw [head?_or] at h1
  rw [List.getLast?_cons] at h2
  exact ⟨h1,h2⟩

theorem of_parts (hnd : (hd :: (l ++ m)).Nodup)
    (h1 : Linked next prev (some ((l ++ m).getLast?.getD hd)) (hd :: l) (some (m.head?.getD hd)))
    (h2 : Linked next prev (some (l.getLast?.getD hd)) m (some hd)) : Ring next prev hd (l ++ m) := by
  refine ⟨hnd,(Linked.append (l := hd :: l)).mpr ⟨?_,?_⟩⟩
  · rwa [head?_or]
  · rwa [List.getLast?_cons]

theorem prev_of_split (h : Ring next prev hd (l ++ m)) : prev (m.head?.getD hd) = some (l.getLast?.getD hd) := by
  cases m with
  | nil => simpa using h.linked.1
  | cons b m => exact h.parts.2.1

theorem next_of_split (h : Ring next prev hd (l ++ m)) : next (l.getLast?.getD hd) = some (m.head?.getD hd) := by
  rcases List.eq_nil_or_concat l with rfl | ⟨k,b,rfl⟩
  · exact h.first
  · rw [List.concat_eq_append,List.append_assoc] at h
    have hb : next b = _ := h.parts.2.2.1
    rw [List.concat_eq_append,List.getLast?_concat]
    exact hb.trans (head?_or hd m)

/- Every element is linked on. -/
theorem next_mem (h : Ring next prev hd l) {x : α} (hx : x ∈ hd :: l) : ∃ y, next x = some y := by
  rcases List.mem_cons.mp hx with rfl | hx
  · exact ⟨_,h.first⟩
  · obtain ⟨k,m,rfl⟩ := List.append_of_mem hx
    exact ⟨_,h.parts.2.2.1.trans (head?_or hd m)⟩

/- The elements around a place of the ring. -/
theorem last_mem (hd : α) (l : List α) : l.getLast?.getD hd ∈ hd :: l := by
  cases h : l.getLast? with
  | none => exact List.mem_cons_self ..
  | some b => exact List.mem_cons_of_mem _ (List.mem_of_getLast? h)

theorem head_mem (hd : α) (l : List α) : l.head?.getD hd ∈ hd :: l := by
  cases h : l.head? with
  | none => exact List.mem_cons_self ..
  | some b => exact List.mem_cons_of_mem _ (List.mem_of_head? h)

section Ends

variable (hnd : (hd :: (l ++ m)).Nodup)
include hnd

/- The two ends of a part of the ring are told from its other elements by the links. -/
theorem front_ends (hn : ∀ x ∈ hd :: (l ++ m), x ≠ l.getLast?.getD hd → next' x = next x)
    (hl : next' (l.getLast?.getD hd) = n') (hp : ∀ x ∈ hd :: (l ++ m), x ≠ m.head?.getD hd → prev' x = prev x)
    (hh : prev' hd = p') (h : Linked next prev p (hd :: l) n) : Linked next' prev' p' (hd :: l) n' := by
  have hndl : (hd :: l).Nodup := hnd.sublist ((List.sublist_append_left l m).cons_cons hd)
  have hmem : ∀ x ∈ hd :: l, x ∈ hd :: (l ++ m) := fun x hx =>
    ((List.sublist_append_left l m).cons_cons hd).subset hx
  refine h.relinkEnds hndl (fun x hx hlast => hn x (hmem x hx) ?_) (fun x hx => ?_) (fun x hx hhead => ?_) ?_
  · rintro rfl
    exact hlast List.getLast?_cons
  · rw [List.getLast?_cons] at hx
    exact Option.some.inj hx ▸ hl
  · refine hp x (hmem x hx) ?_
    rintro rfl
    have hne : m.head?.getD hd ≠ hd := fun he => hhead (congrArg some he.symm)
    obtain ⟨hhd,hlm⟩ := List.nodup_cons.mp hnd
    have hin : m.head?.getD hd ∈ m := (List.mem_cons.mp (head_mem hd m)).resolve_left hne
    exact (List.nodup_append.mp hlm).2.2 _ ((List.mem_cons.mp hx).resolve_left hne) _ hin rfl
  · rintro x hx
    exact Option.some.inj hx ▸ hh

theorem back_ends (hn : ∀ x ∈ hd :: (l ++ m), x ≠ l.getLast?.getD hd → next' x = next x)
    (hp : ∀ x ∈ hd :: (l ++ m), x ≠ m.head?.getD hd → prev' x = prev x)
    (hh : ∀ x, m.head? = some x → prev' x = p') (h : Linked next prev p m n) : Linked next' prev' p' m n := by
  obtain ⟨hhd,hlm⟩ := List.nodup_cons.mp hnd
  obtain ⟨-,hndm,hdisj⟩ := List.nodup_append.mp hlm
  have hmem : ∀ x ∈ m, x ∈ hd :: (l ++ m) := fun x hx => List.mem_cons_of_mem _ (List.mem_append_right _ hx)
  have hnx : ∀ x ∈ m, next' x = next x := by
    intro x hx
    refine hn x (hmem x hx) ?_
    rintro rfl
    rcases List.mem_cons.mp (last_mem hd l) with he | he
    · exact hhd (he ▸ List.mem_append_right _ hx)
    · exact hdisj _ he _ hx rfl
  refine h.relinkHead hndm hnx (fun x hx hhead => hp x (hmem x hx) ?_) hh
  rintro rfl
  have hne : m ≠ [] := List.ne_nil_of_mem hx
  obtain ⟨b,m,rfl⟩ := List.exists_cons_of_ne_nil hne
  exact hhead rfl

end Ends

/-- An element is linked in between the two at a place of the ring. -/
theorem insert (ha : a ∉ hd :: (l ++ m)) (h : Ring next prev hd (l ++ m))
    (hna : next' a = some (m.head?.getD hd)) (hpa : prev' a = some (l.getLast?.getD hd))
    (hnp : next' (l.getLast?.getD hd) = some a) (hpn : prev' (m.head?.getD hd) = some a)
    (hn : ∀ x ∈ hd :: (l ++ m), x ≠ l.getLast?.getD hd → next' x = next x)
    (hp : ∀ x ∈ hd :: (l ++ m), x ≠ m.head?.getD hd → prev' x = prev x) : Ring next' prev' hd (l ++ a :: m) := by
  obtain ⟨h1,h2⟩ := h.parts
  have hperm : (hd :: (l ++ a :: m)).Perm (a :: hd :: (l ++ m)) :=
    ((List.perm_middle).cons hd).trans (List.Perm.swap ..)
  refine of_parts (hperm.nodup_iff.mpr (List.nodup_cons.mpr ⟨ha,h.nodup⟩)) ?_ ⟨hpa,hna.trans (head?_or hd m).symm,?_⟩
  · refine front_ends h.nodup hn hnp hp ?_ h1
    cases m with
    | nil => simpa using hpn
    | cons b m =>
      have hne : hd ≠ b := by
        rintro rfl
        exact (List.nodup_cons.mp h.nodup).1 (List.mem_append_right _ (List.mem_cons_self ..))
      rw [hp hd (List.mem_cons_self ..) hne]
      have hlast : (l ++ a :: b :: m).getLast? = (l ++ b :: m).getLast? := by simp
      rw [hlast]
      exact h1.1
  · refine back_ends h.nodup hn hp (fun x hx => ?_) h2
    rw [hx] at hpn
    exact hpn

/-- An element is left out: its two neighbours are linked to each other. -/
theorem remove (h : Ring next prev hd (l ++ a :: m))
    (hnp : next' (l.getLast?.getD hd) = some (m.head?.getD hd))
    (hpn : prev' (m.head?.getD hd) = some (l.getLast?.getD hd))
    (hn : ∀ x ∈ hd :: (l ++ m), x ≠ l.getLast?.getD hd → next' x = next x)
    (hp : ∀ x ∈ hd :: (l ++ m), x ≠ m.head?.getD hd → prev' x = prev x) : Ring next' prev' hd (l ++ m) := by
  obtain ⟨h1,h2⟩ := h.parts
  have hnd : (hd :: (l ++ m)).Nodup :=
    h.nodup.sublist (((List.sublist_cons_self a m).append_left l).cons_cons hd)
  refine of_parts hnd ?_ ?_
  · refine front_ends hnd hn hnp hp ?_ h1
    cases m with
    | nil => simpa using hpn
    | cons b m =>
      have hne : hd ≠ b := by
        rintro rfl
        exact (List.nodup_cons.mp hnd).1 (List.mem_append_right _ (List.mem_cons_self ..))
      rw [hp hd (List.mem_cons_self ..) hne]
      have hlast : (l ++ b :: m).getLast? = (l ++ a :: b :: m).getLast? := by simp
      rw [hlast]
      exact h1.1
  · refine back_ends hnd hn hp (fun x hx => ?_) h2.2.2
    rw [hx] at hpn
    exact hpn

end Ring

end CSLiS.Lib
