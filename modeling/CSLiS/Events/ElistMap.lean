import CSLiS.Lib.Ring
import CSLiS.Events.Elist

/-!
# The list of events is a map from process ids to events

The nodes stay on a ring, sorted by process id, and each has the events that its process has asked for.
-/

namespace CSLiS.Events.Elist
open Lib Lib.Exec

def nx (s : Elist) (a : ℕ) : Option ℕ := (s.mem a).map Strevent.seNext
def pv (s : Elist) (a : ℕ) : Option ℕ := (s.mem a).map Strevent.sePrev

/- The node is that of the process, with these events. -/
def Has (s : Elist) (a : ℕ) (pid : ℤ) (evs : BitVec 16) : Prop := ∃ x y, s.mem a = some ⟨x,y,pid,evs⟩

/- The nodes of the list `l`, in their order. -/
structure Shape (s : Elist) (l : List ℕ) : Prop where
  list : s.list ≠ 0
  ring : Ring s.nx s.pv s.list l
  mem : ∀ a, s.mem a ≠ none ↔ a = s.list ∨ a ∈ l
  live : s.live = l.length + 1
  sorted : l.Pairwise fun a b => ∀ p q, (∃ u, s.Has a p u) → (∃ v, s.Has b q v) → p < q
  null : s.mem 0 = none

/- The events of every process are those in its node, and none without a node. -/
structure Holds (s : Elist) (l : List ℕ) (m : ℤ → BitVec 16) : Prop where
  evs : ∀ a ∈ l, ∀ pid evs, s.Has a pid evs → evs = m pid
  none : ∀ pid, (∀ a ∈ l, ∀ evs, ¬ s.Has a pid evs) → m pid = 0

variable {s t : Elist} {l pre post : List ℕ} {m : ℤ → BitVec 16} {pid p q : ℤ} {events evs : BitVec 16}
  {a b hd x y : ℕ} {e junk : Strevent}

theorem Has.unique {u v : BitVec 16} (h1 : s.Has a p u) (h2 : s.Has a q v) : p = q ∧ u = v := by
  obtain ⟨x1,y1,h1⟩ := h1
  obtain ⟨x2,y2,h2⟩ := h2
  rw [h1,Option.some.injEq,Strevent.mk.injEq] at h2
  exact ⟨h2.2.2.1,h2.2.2.2⟩

theorem Shape.node (h : Shape s l) (ha : a = s.list ∨ a ∈ l) : ∃ e, s.mem a = some e :=
  Option.ne_none_iff_exists'.mp ((h.mem a).mpr ha)

theorem Shape.has (h : Shape s l) (ha : a ∈ l) : ∃ p u, s.Has a p u := by
  obtain ⟨e,he⟩ := h.node (.inr ha)
  exact ⟨e.sePid,e.seEvs,e.seNext,e.sePrev,he⟩

theorem Shape.ne_list (h : Shape s l) (ha : a ∈ l) : a ≠ s.list := by
  rintro rfl
  exact (List.nodup_cons.mp h.ring.nodup).1 ha

theorem Shape.lt (h : Shape s (pre ++ a :: post)) (hb : b ∈ post) {u v : BitVec 16} (ha : s.Has a p u) (hv : s.Has b q v) :
    p < q :=
  (List.pairwise_cons.mp (List.pairwise_append.mp h.sorted).2.1).1 b hb p q ⟨u,ha⟩ ⟨v,hv⟩

/-! ## The search -/

/- From some node on. -/
theorem Shape.walk (h : Shape s (pre ++ post)) {fuel : ℕ} (hf : post.length < fuel) (pid : ℤ) :
    ∃ mid rest, post = mid ++ rest ∧ s.walk pid fuel (post.head?.getD s.list) = some (rest.head?.getD s.list) ∧
      (∀ a ∈ mid, ∀ p u, s.Has a p u → p < pid) ∧ ∀ a ∈ rest, ∀ p u, s.Has a p u → pid ≤ p := by
  induction post generalizing pre fuel with
  | nil =>
    obtain ⟨n,rfl⟩ := Nat.exists_eq_succ_of_ne_zero (Nat.ne_of_gt hf)
    refine ⟨[],[],rfl,?_,by simp,by simp⟩
    simp [Elist.walk]
  | cons a post ih =>
    obtain ⟨n,rfl⟩ := Nat.exists_eq_succ_of_ne_zero (Nat.ne_of_gt (Nat.zero_lt_of_lt hf))
    have hne : a ≠ s.list := h.ne_list (by simp)
    obtain ⟨e,he⟩ := h.node (.inr (show a ∈ pre ++ a :: post by simp))
    have hha : s.Has a e.sePid e.seEvs := ⟨e.seNext,e.sePrev,he⟩
    have hnext : e.seNext = post.head?.getD s.list := by
      have h1 : s.nx a = _ := h.ring.parts.2.2.1
      rw [nx,he,Ring.head?_or] at h1
      exact Option.some.inj h1
    by_cases hlt : e.sePid < pid
    · have h1 : Shape s ((pre ++ [a]) ++ post) := by simpa using h
      rw [List.length_cons] at hf
      obtain ⟨mid,rest,rfl,hw,hmid,hrest⟩ := ih h1 (Nat.lt_of_succ_lt_succ hf)
      refine ⟨a :: mid,rest,rfl,?_,?_,hrest⟩
      · simp only [List.head?_cons,Option.getD_some,Elist.walk,hne,if_false,he,Option.bind_some,hlt,if_true]
        rw [hnext]
        exact hw
      · rw [List.forall_mem_cons]
        refine ⟨fun p u hp => ?_,hmid⟩
        rw [(hp.unique hha).1]
        exact hlt
    · refine ⟨[],a :: post,rfl,?_,by simp,?_⟩
      · simp only [List.head?_cons,Option.getD_some,Elist.walk,hne,if_false,he,Option.bind_some,hlt]
      · rw [List.forall_mem_cons]
        refine ⟨fun p u hp => ?_,fun b hb p u hp => ?_⟩
        · rw [(hp.unique hha).1]
          omega
        · have := h.lt hb hha hp
          omega

theorem Shape.find (h : Shape s l) (pid : ℤ) :
    ∃ pre post, l = pre ++ post ∧ s.find pid = some (post.head?.getD s.list) ∧
      (∀ a ∈ pre, ∀ p u, s.Has a p u → p < pid) ∧ ∀ a ∈ post, ∀ p u, s.Has a p u → pid ≤ p := by
  obtain ⟨e,he⟩ := h.node (.inl rfl)
  have hnext : e.seNext = l.head?.getD s.list := by
    have h1 := h.ring.first
    rw [nx,he] at h1
    exact Option.some.inj h1
  have h0 : Shape s ([] ++ l) := h
  have hlive : l.length < s.live := by
    rw [h.live]
    omega
  obtain ⟨pre,post,hl,hw,h1,h2⟩ := h0.walk hlive pid
  refine ⟨pre,post,hl,?_,h1,h2⟩
  rw [Elist.find,he,Option.bind_some,hnext]
  exact hw

/-! ## What a process has asked for -/

/- The node the search has found is that of the process, or the process has none. -/
theorem Shape.found (h : Shape s (pre ++ post)) (hlt : ∀ a ∈ pre, ∀ p u, s.Has a p u → p < pid)
    (hge : ∀ a ∈ post, ∀ p u, s.Has a p u → pid ≤ p) (ha : a ∈ pre ++ post) (hp : s.Has a pid evs) :
    ∃ rest, post = a :: rest := by
  rcases List.mem_append.mp ha with h1 | h1
  · exact absurd (hlt a h1 pid evs hp) (lt_irrefl _)
  · cases post with
    | nil => cases h1
    | cons b post =>
      rcases List.mem_cons.mp h1 with rfl | h2
      · exact ⟨post,rfl⟩
      · obtain ⟨q,v,hb⟩ := h.has (a := b) (by simp)
        have h3 := h.lt h2 hb hp
        have h4 := hge b List.mem_cons_self q v hb
        omega

theorem Shape.get (h : Shape s l) (hm : Holds s l m) (pid : ℤ) : s.lisGetElistEnt pid = some (m pid) := by
  obtain ⟨pre,post,rfl,hfind,hlt,hge⟩ := h.find pid
  rw [lisGetElistEnt,if_neg h.list,hfind,Option.bind_some]
  cases post with
  | nil =>
    rw [List.head?_nil,Option.getD_none,if_pos rfl,hm.none pid]
    intro a ha evs hp
    obtain ⟨rest,hr⟩ := h.found hlt hge ha hp
    cases hr
  | cons a post =>
    have hmem : a ∈ pre ++ a :: post := by simp
    obtain ⟨e,he⟩ := h.node (.inr hmem)
    have hha : s.Has a e.sePid e.seEvs := ⟨e.seNext,e.sePrev,he⟩
    rw [List.head?_cons,Option.getD_some,if_neg (h.ne_list hmem),he,Option.map_some]
    by_cases hp : e.sePid = pid
    · rw [if_pos hp,hm.evs a hmem _ _ hha,hp]
    · rw [if_neg hp,hm.none pid]
      intro b hb evs hpb
      obtain ⟨rest,hr⟩ := h.found hlt hge hb hpb
      obtain ⟨rfl,-⟩ := List.cons.inj hr
      exact hp (hha.unique hpb).1

/-! ## Nodes come and go -/

theorem has_congr {f g : Strevent → ℕ} (h : t.mem b = (s.mem b).map fun e => ⟨f e,g e,e.sePid,e.seEvs⟩) :
    t.Has b p evs ↔ s.Has b p evs := by
  unfold Has
  rw [h]
  cases s.mem b with
  | none => simp
  | some e => cases e; simp

theorem nx_congr {f g : Strevent → ℕ} (h : t.mem b = (s.mem b).map fun e => ⟨f e,g e,e.sePid,e.seEvs⟩) :
    t.nx b = (s.mem b).map f ∧ t.pv b = (s.mem b).map g := by
  unfold nx pv
  rw [h]
  cases s.mem b <;> simp

/- The neighbours of a place are nodes. -/
theorem Shape.ends (h : Shape s (pre ++ post)) :
    (∃ e, s.mem (pre.getLast?.getD s.list) = some e) ∧ ∃ e, s.mem (post.head?.getD s.list) = some e := by
  constructor
  · apply h.node
    rcases List.mem_cons.mp (Ring.last_mem s.list pre) with h1 | h1
    · exact .inl h1
    · exact .inr (List.mem_append_left _ h1)
  · apply h.node
    rcases List.mem_cons.mp (Ring.head_mem s.list post) with h1 | h1
    · exact .inl h1
    · exact .inr (List.mem_append_right _ h1)

theorem ne_of_mem {o : Option Strevent} (ha : s.mem a = none) (hb : s.mem b = o) (ho : o ≠ none) : b ≠ a := by
  rintro rfl
  exact ho (hb.symm.trans ha)

/- A node is linked in at a place of the list. -/
theorem Shape.insert (h : Shape s (pre ++ post)) (ha : s.mem a = none) (hl : t.list = s.list) (hv : t.live = s.live + 1)
    (ha0 : a ≠ 0) (hself : t.mem a = some ⟨post.head?.getD s.list,pre.getLast?.getD s.list,pid,evs⟩)
    (hmem : ∀ b, b ≠ a → t.mem b = (s.mem b).map fun e =>
      ⟨if b = pre.getLast?.getD s.list then a else e.seNext,if b = post.head?.getD s.list then a else e.sePrev,
        e.sePid,e.seEvs⟩)
    (hlt : ∀ b ∈ pre, ∀ p u, s.Has b p u → p < pid) (hgt : ∀ b ∈ post, ∀ p u, s.Has b p u → pid < p) :
    Shape t (pre ++ a :: post) ∧ t.Has a pid evs ∧ ∀ b, b ≠ a → ∀ p u, t.Has b p u ↔ s.Has b p u := by
  obtain ⟨⟨el,hel⟩,⟨eh,heh⟩⟩ := h.ends
  have hother : ∀ b, b ≠ a → ∀ p u, t.Has b p u ↔ s.Has b p u := fun b hb p u => has_congr (hmem b hb)
  have hnode : ∀ b, b ∈ s.list :: (pre ++ post) → b ≠ a := by
    rintro b hb rfl
    exact (h.mem b).mpr (List.mem_cons.mp hb) ha
  have hta : t.Has a pid evs := ⟨_,_,hself⟩
  have hpost : ∀ b ∈ pre ++ post, b ≠ a := fun b hb => hnode b (List.mem_cons_of_mem _ hb)
  refine ⟨⟨hl ▸ h.list,?_,fun b => ?_,?_,?_,?_⟩,hta,hother⟩
  · rw [hl]
    have hal : a ∉ s.list :: (pre ++ post) := fun hc => hnode a hc rfl
    have h1 := nx_congr (hmem _ (ne_of_mem ha hel (by simp)))
    have h2 := nx_congr (hmem _ (ne_of_mem ha heh (by simp)))
    apply Ring.insert hal h.ring
    · rw [nx,hself]
      rfl
    · rw [pv,hself]
      rfl
    · rw [h1.1,hel]
      simp
    · rw [h2.2,heh]
      simp
    · intro b hb hne
      rw [(nx_congr (hmem b (hnode b hb))).1]
      simp only [hne,if_false]
      rfl
    · intro b hb hne
      rw [(nx_congr (hmem b (hnode b hb))).2]
      simp only [hne,if_false]
      rfl
  · by_cases hb : b = a
    · subst hb
      exact iff_of_true (by simp [hself]) (.inr (by simp))
    · have h1 : b ∈ pre ++ a :: post ↔ b ∈ pre ++ post := by simp [hb]
      rw [hmem b hb,hl,h1,← h.mem b]
      simp
  · rw [hv,h.live]
    simp only [List.length_append,List.length_cons]
    omega
  · have hs := h.sorted
    rw [List.pairwise_append] at hs ⊢
    obtain ⟨s1,s2,s3⟩ := hs
    have hback : ∀ b, b ∈ pre ++ post → ∀ p, (∃ u, t.Has b p u) → ∃ u, s.Has b p u := by
      rintro b hb p ⟨u,hu⟩
      exact ⟨u,(hother b (hpost b hb) p u).mp hu⟩
    refine ⟨s1.imp_of_mem fun hx hy hxy p q hp hq => ?_,List.pairwise_cons.mpr ⟨?_,?_⟩,?_⟩
    · exact hxy p q (hback _ (List.mem_append_left _ hx) p hp) (hback _ (List.mem_append_left _ hy) q hq)
    · rintro b hb p q ⟨u,hu⟩ hq
      obtain ⟨v,hv⟩ := hback b (List.mem_append_right _ hb) q hq
      rw [(hu.unique hta).1]
      exact hgt b hb q v hv
    · refine s2.imp_of_mem fun hx hy hxy p q hp hq => ?_
      exact hxy p q (hback _ (List.mem_append_right _ hx) p hp) (hback _ (List.mem_append_right _ hy) q hq)
    · intro b hb c hc p q hp hq
      have hp1 := hback b (List.mem_append_left _ hb) p hp
      rcases List.mem_cons.mp hc with rfl | hc
      · obtain ⟨u,hu⟩ := hp1
        obtain ⟨v,hv⟩ := hq
        rw [(hv.unique hta).1]
        exact hlt b hb p u hu
      · exact s3 b hb c hc p q hp1 (hback c (List.mem_append_right _ hc) q hq)
  · rw [hmem 0 (Ne.symm ha0),h.null]
    rfl

/- A node is taken out. -/
theorem Shape.remove (h : Shape s (pre ++ a :: post)) (hl : t.list = s.list) (hv : t.live = s.live - 1)
    (hself : t.mem a = none)
    (hmem : ∀ b, b ≠ a → t.mem b = (s.mem b).map fun e =>
      ⟨if b = pre.getLast?.getD s.list then post.head?.getD s.list else e.seNext,
        if b = post.head?.getD s.list then pre.getLast?.getD s.list else e.sePrev,e.sePid,e.seEvs⟩) :
    Shape t (pre ++ post) ∧ ∀ b, b ≠ a → ∀ p u, t.Has b p u ↔ s.Has b p u := by
  have hother : ∀ b, b ≠ a → ∀ p u, t.Has b p u ↔ s.Has b p u := fun b hb p u => has_congr (hmem b hb)
  have hsub : (s.list :: (pre ++ post)).Sublist (s.list :: (pre ++ a :: post)) :=
    ((List.sublist_cons_self a post).append_left pre).cons_cons s.list
  have hnode : ∀ b, b ∈ s.list :: (pre ++ post) → b ≠ a ∧ ∃ e, s.mem b = some e := by
    intro b hb
    constructor
    · rintro rfl
      have hperm : (s.list :: (pre ++ b :: post)).Perm (b :: s.list :: (pre ++ post)) :=
        (List.perm_middle.cons _).trans (List.Perm.swap ..)
      exact (List.nodup_cons.mp (hperm.nodup_iff.mp h.ring.nodup)).1 hb
    · exact h.node (List.mem_cons.mp (hsub.subset hb))
  have hlast : pre.getLast?.getD s.list ∈ s.list :: (pre ++ post) := by
    rcases List.mem_cons.mp (Ring.last_mem s.list pre) with h1 | h1
    · exact List.mem_cons.mpr (.inl h1)
    · exact List.mem_cons_of_mem _ (List.mem_append_left _ h1)
  have hhead : post.head?.getD s.list ∈ s.list :: (pre ++ post) := by
    rcases List.mem_cons.mp (Ring.head_mem s.list post) with h1 | h1
    · exact List.mem_cons.mpr (.inl h1)
    · exact List.mem_cons_of_mem _ (List.mem_append_right _ h1)
  refine ⟨⟨hl ▸ h.list,?_,fun b => ?_,?_,?_,?_⟩,hother⟩
  · rw [hl]
    obtain ⟨h1,el,hel⟩ := hnode _ hlast
    obtain ⟨h2,eh,heh⟩ := hnode _ hhead
    apply Ring.remove h.ring
    · rw [(nx_congr (hmem _ h1)).1,hel]
      simp
    · rw [(nx_congr (hmem _ h2)).2,heh]
      simp
    · intro b hb hne
      rw [(nx_congr (hmem b (hnode b hb).1)).1]
      simp only [hne,if_false]
      rfl
    · intro b hb hne
      rw [(nx_congr (hmem b (hnode b hb).1)).2]
      simp only [hne,if_false]
      rfl
  · by_cases hb : b = a
    · subst hb
      apply iff_of_false (by simp [hself])
      intro hc
      rw [hl] at hc
      exact (hnode b (List.mem_cons.mpr hc)).1 rfl
    · have h1 : b ∈ pre ++ a :: post ↔ b ∈ pre ++ post := by simp [hb]
      rw [hmem b hb,hl,← h1,← h.mem b]
      simp
  · rw [hv,h.live]
    simp only [List.length_append,List.length_cons]
    omega
  · have hback : ∀ b, b ∈ pre ++ post → ∀ p, (∃ u, t.Has b p u) → ∃ u, s.Has b p u := by
      rintro b hb p ⟨u,hu⟩
      exact ⟨u,(hother b (hnode b (List.mem_cons_of_mem _ hb)).1 p u).mp hu⟩
    refine (h.sorted.sublist ((List.sublist_cons_self a post).append_left pre)).imp_of_mem fun hx hy hxy p q hp hq => ?_
    exact hxy p q (hback _ hx p hp) (hback _ hy q hq)
  · have h0 : (0 : ℕ) ≠ a := by
      rintro rfl
      exact (h.mem 0).mpr (.inr (by simp)) h.null
    rw [hmem 0 h0,h.null]
    rfl

/-! ## The functions -/

/- The assignments of an insertion. -/
theorem Shape.linkNew (h : Shape s (pre ++ post)) (ha : s.mem a = none) (junk : Strevent) (pid : ℤ) (events : BitVec 16) :
    ∃ t, (s.alloc a junk).linkNew a (post.head?.getD s.list) pid events = some t ∧ t.list = s.list ∧
      t.live = s.live + 1 ∧ t.mem a = some ⟨post.head?.getD s.list,pre.getLast?.getD s.list,pid,events⟩ ∧
      ∀ b, b ≠ a → t.mem b = (s.mem b).map fun e =>
        ⟨if b = pre.getLast?.getD s.list then a else e.seNext,if b = post.head?.getD s.list then a else e.sePrev,
          e.sePid,e.seEvs⟩ := by
  obtain ⟨⟨el,hel⟩,⟨eh,heh⟩⟩ := h.ends
  have hprev : eh.sePrev = pre.getLast?.getD s.list := by
    have h1 := h.ring.prev_of_split
    rw [pv,heh] at h1
    exact Option.some.inj h1
  have h1 := ne_of_mem ha hel (by simp)
  have h2 := ne_of_mem ha heh (by simp)
  generalize pre.getLast?.getD s.list = x at hel hprev h1 ⊢
  generalize post.head?.getD s.list = y at heh h2 ⊢
  generalize hrun : (s.alloc a junk).linkNew a y pid events = o
  by_cases hxy : y = x
  · subst hxy
    obtain rfl := Option.some.inj (hel.symm.trans heh)
    simp [Elist.linkNew,put,alloc,heh,hprev,h2,Ne.symm h2] at hrun
    subst hrun
    refine ⟨_,rfl,rfl,rfl,by simp,fun b hb => ?_⟩
    by_cases hby : b = y
    · subst hby
      simp [hb,heh]
    · simp [hb,hby]
  · simp [Elist.linkNew,put,alloc,heh,hel,hprev,h1,h2,hxy,Ne.symm h1,Ne.symm h2] at hrun
    subst hrun
    refine ⟨_,rfl,rfl,rfl,by simp,fun b hb => ?_⟩
    by_cases hby : b = y
    · subst hby
      simp [hb,heh,hxy]
    · by_cases hbx : b = x
      · subst hbx
        simp [hb,hel,hby]
      · simp [hb,hby,hbx]

/- Those of a removal. -/
theorem Shape.unlink (h : Shape s (pre ++ a :: post)) :
    ∃ t, s.unlink a = some t ∧ t.list = s.list ∧ t.live = s.live - 1 ∧ t.mem a = none ∧
      ∀ b, b ≠ a → t.mem b = (s.mem b).map fun e =>
        ⟨if b = pre.getLast?.getD s.list then post.head?.getD s.list else e.seNext,
          if b = post.head?.getD s.list then pre.getLast?.getD s.list else e.sePrev,e.sePid,e.seEvs⟩ := by
  obtain ⟨⟨el,hel⟩,-⟩ := h.ends
  have h' : Shape s ((pre ++ [a]) ++ post) := by simpa using h
  obtain ⟨-,⟨eh,heh⟩⟩ := h'.ends
  obtain ⟨e,he⟩ := h.node (.inr (show a ∈ pre ++ a :: post by simp))
  have hnext : e.seNext = post.head?.getD s.list := by
    have h1 : s.nx a = _ := h.ring.parts.2.2.1
    rw [nx,he,Ring.head?_or] at h1
    exact Option.some.inj h1
  have hprev : e.sePrev = pre.getLast?.getD s.list := by
    have h1 := h.ring.prev_of_split
    rw [List.head?_cons,Option.getD_some,pv,he] at h1
    exact Option.some.inj h1
  have hne : ∀ b, b = s.list ∨ b ∈ pre ++ post → b ≠ a := by
    rintro b hb rfl
    have hperm : (s.list :: (pre ++ b :: post)).Perm (b :: s.list :: (pre ++ post)) :=
      (List.perm_middle.cons _).trans (List.Perm.swap ..)
    exact (List.nodup_cons.mp (hperm.nodup_iff.mp h.ring.nodup)).1 (List.mem_cons.mpr hb)
  have h1 : pre.getLast?.getD s.list ≠ a := by
    apply hne
    exact (List.mem_cons.mp (Ring.last_mem s.list pre)).imp id (List.mem_append_left _)
  have h2 : post.head?.getD s.list ≠ a := by
    apply hne
    exact (List.mem_cons.mp (Ring.head_mem s.list post)).imp id (List.mem_append_right _)
  have hx0 : pre.getLast?.getD s.list ≠ 0 := by
    intro h0
    rw [h0,h.null] at hel
    cases hel
  have hy0 : post.head?.getD s.list ≠ 0 := by
    intro h0
    rw [h0,h.null] at heh
    cases heh
  generalize pre.getLast?.getD s.list = x at hel hprev h1 hx0 ⊢
  generalize post.head?.getD s.list = y at heh hnext h2 hy0 ⊢
  generalize hrun : s.unlink a = o
  by_cases hxy : y = x
  · subst hxy
    obtain rfl := Option.some.inj (hel.symm.trans heh)
    simp [Elist.unlink,put,free,he,heh,hprev,hnext,hy0] at hrun
    subst hrun
    refine ⟨_,rfl,rfl,rfl,by simp,fun b hb => ?_⟩
    by_cases hby : b = y
    · subst hby
      simp [hb,heh]
    · simp [hb,hby]
  · simp [Elist.unlink,put,free,he,heh,hel,hprev,hnext,hx0,hy0,Ne.symm hxy] at hrun
    subst hrun
    refine ⟨_,rfl,rfl,rfl,by simp,fun b hb => ?_⟩
    by_cases hby : b = y
    · subst hby
      simp [hb,heh,hxy]
    · by_cases hbx : b = x
      · subst hbx
        simp [hb,hel,hby]
      · simp [hb,hby,hbx]

end CSLiS.Events.Elist
