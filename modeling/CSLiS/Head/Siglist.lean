import CSLiS.Head.Events
import CSLiS.Lib.Ring

/-!
# The list of processes as a circle of nodes

The routines of `events.c` keep the circle and the order of the pids, and what a process has asked for
is in the one node with its pid.
-/

namespace CSLiS.Head
open Lib

namespace Kmem

variable (s : Kmem)

def next (a : ℕ) : Option ℕ := (s.node a).map Strevent.seNext
def prev (a : ℕ) : Option ℕ := (s.node a).map Strevent.sePrev
def pid (a : ℕ) : ℕ := ((s.node a).map Strevent.sePid).getD 0
def evs (a : ℕ) : BitVec 16 := ((s.node a).map Strevent.seEvs).getD 0

/-- The nodes behind the dummy node at `list`. -/
structure Circle (list : ℕ) (as : List ℕ) : Prop where
  ring : Ring s.next s.prev list as
  below : ∀ a ∈ list :: as, 0 < a ∧ a < s.brk
  sorted : as.Pairwise fun a b => s.pid a < s.pid b

/-- What the processes asked for, in the nodes. -/
structure Asks (as : List ℕ) (reg : ℕ → BitVec 16) : Prop where
  holds : ∀ a ∈ as, s.evs a = reg (s.pid a)
  others : ∀ p, (∀ a ∈ as, s.pid a ≠ p) → reg p = 0

/-- There is no list, or a circle of nodes. -/
structure Held (list : ℕ) (as : List ℕ) (reg : ℕ → BitVec 16) : Prop where
  null : s.node 0 = none
  pos : 0 < s.brk
  here : (list = 0 ∧ as = []) ∨ s.Circle list as
  asks : s.Asks as reg

variable {s} {t : Kmem} {list p n : ℕ} {as l m : List ℕ} {a b c : ℕ} {e v w : Strevent} {g e1 : BitVec 16}
  {reg : ℕ → BitVec 16}

theorem node_set (x : ℕ) : (s.set a v).node x = if x = a then some v else s.node x := Function.update_apply ..
theorem node_free (x : ℕ) : (s.free a).node x = if x = a then none else s.node x := Function.update_apply ..

theorem next_eq (h : s.node a = some v) : s.next a = some v.seNext := by rw [next,h]; rfl
theorem prev_eq (h : s.node a = some v) : s.prev a = some v.sePrev := by rw [prev,h]; rfl
theorem pid_eq (h : s.node a = some v) : s.pid a = v.sePid := by rw [pid,h]; rfl
theorem evs_eq (h : s.node a = some v) : s.evs a = v.seEvs := by rw [Kmem.evs,h]; rfl

theorem node_of_next (h : s.next a = some b) : ∃ v, s.node a = some v ∧ v.seNext = b := Option.map_eq_some_iff.mp h
theorem node_of_prev (h : s.prev a = some b) : ∃ v, s.node a = some v ∧ v.sePrev = b := Option.map_eq_some_iff.mp h

/-! ### The loops -/

theorem below_length (hc : s.Circle list as) : as.length + 1 < s.brk := by
  have hsub : list :: as ⊆ (List.range (s.brk - 1)).map (· + 1) := by
    intro a ha
    obtain ⟨h1,h2⟩ := hc.below a ha
    exact List.mem_map.mpr ⟨a - 1,List.mem_range.mpr (by omega),by omega⟩
  have hle := (hc.ring.nodup.subperm hsub).length_le
  simp only [List.length_cons,List.length_map,List.length_range] at hle
  have hpos := (hc.below list (List.mem_cons_self ..)).2
  omega

theorem killNodes_rest {o : Option ℕ} (h : Linked s.next s.prev o m (some list)) (hm : list ∉ m) (hn : m.length < n) :
    s.killNodes list e1 n (m.head?.getD list) =
      some (m.flatMap fun a => (sends e1 (s.evs a)).map (Prod.mk (s.pid a))) := by
  induction m generalizing o n with
  | nil =>
    obtain ⟨n,rfl⟩ := Nat.exists_eq_succ_of_ne_zero (Nat.ne_of_gt hn)
    exact if_pos rfl
  | cons a m ih =>
    obtain ⟨n,rfl⟩ := Nat.exists_eq_succ_of_ne_zero (Nat.ne_of_gt (Nat.zero_lt_of_lt hn))
    obtain ⟨-,h2,h3⟩ := h
    obtain ⟨hne,hm⟩ := not_or.mp (mt List.mem_cons.mpr hm)
    obtain ⟨v,hv,hvn⟩ := node_of_next (h2.trans (Ring.head?_or list m))
    have hrest := ih h3 hm (Nat.lt_of_succ_lt_succ hn)
    rw [List.head?_cons,Option.getD_some,killNodes,if_neg (Ne.symm hne),hv,Option.bind_some,hvn,hrest,Option.map_some,
      List.flatMap_cons,pid_eq hv,evs_eq hv]

theorem killProcs_circle (hc : s.Circle list as) (e1 : BitVec 16) :
    s.killProcs list e1 = some (as.flatMap fun a => (sends e1 (s.evs a)).map (Prod.mk (s.pid a))) := by
  obtain ⟨v,hv,hvn⟩ := node_of_next hc.ring.first
  have hlen := below_length hc
  rw [killProcs,hv,Option.bind_some,hvn]
  exact killNodes_rest (hc.ring.parts (l := [])).2 (List.nodup_cons.mp hc.ring.nodup).1 (by omega)

theorem search_rest {o : Option ℕ} (h : Linked s.next s.prev o (l ++ m) (some list)) (hm : list ∉ l ++ m)
    (hl : ∀ a ∈ l, s.pid a < p) (hstop : ∀ a, m.head? = some a → p ≤ s.pid a) (hn : l.length < n) :
    s.search list p n ((l ++ m).head?.getD list) = some (m.head?.getD list) := by
  induction l generalizing o n with
  | nil =>
    obtain ⟨n,rfl⟩ := Nat.exists_eq_succ_of_ne_zero (Nat.ne_of_gt hn)
    cases m with
    | nil => exact if_pos rfl
    | cons a m =>
      obtain ⟨-,h2,-⟩ := h
      obtain ⟨v,hv,-⟩ := node_of_next (h2.trans (Ring.head?_or list m))
      have hne : a ≠ list := fun he => hm (he ▸ List.mem_cons_self ..)
      have hp := pid_eq hv ▸ hstop a rfl
      rw [List.nil_append,List.head?_cons,Option.getD_some,search,if_neg hne,hv,Option.bind_some,if_neg (Nat.not_lt.mpr hp)]
  | cons a l ih =>
    obtain ⟨n,rfl⟩ := Nat.exists_eq_succ_of_ne_zero (Nat.ne_of_gt (Nat.zero_lt_of_lt hn))
    obtain ⟨-,h2,h3⟩ := h
    obtain ⟨hne,hm⟩ := not_or.mp (mt List.mem_cons.mpr hm)
    obtain ⟨v,hv,hvn⟩ := node_of_next (h2.trans (Ring.head?_or list _))
    have hp := pid_eq hv ▸ hl a (List.mem_cons_self ..)
    rw [List.cons_append,List.head?_cons,Option.getD_some,search,if_neg (Ne.symm hne),hv,Option.bind_some,if_pos hp,hvn]
    exact ih h3 hm (fun x hx => hl x (List.mem_cons_of_mem _ hx)) (Nat.lt_of_succ_lt_succ hn)

theorem searchList_circle (hc : s.Circle list (l ++ m)) (hl : ∀ a ∈ l, s.pid a < p)
    (hstop : ∀ a, m.head? = some a → p ≤ s.pid a) : s.searchList list p = some (m.head?.getD list) := by
  obtain ⟨v,hv,hvn⟩ := node_of_next hc.ring.first
  have hlen := below_length hc
  rw [List.length_append] at hlen
  rw [searchList,if_neg (Nat.ne_of_gt (hc.below list (List.mem_cons_self ..)).1),hv,Option.bind_some,hvn]
  exact search_rest (hc.ring.parts (l := [])).2 (List.nodup_cons.mp hc.ring.nodup).1 hl hstop (by omega)

/- The place of a pid in the circle. -/
theorem exists_place (hc : s.Circle list as) (p : ℕ) : ∃ l m, as = l ++ m ∧ (∀ a ∈ l, s.pid a < p) ∧
    ∀ a ∈ m, p ≤ s.pid a := by
  obtain hs := hc.sorted
  clear hc
  induction as with
  | nil => exact ⟨[],[],rfl,by simp,by simp⟩
  | cons a as ih =>
    obtain ⟨h1,h2⟩ := List.pairwise_cons.mp hs
    rcases Nat.lt_or_ge (s.pid a) p with hlt | hge
    · obtain ⟨l,m,rfl,hl,hm⟩ := ih h2
      exact ⟨a :: l,m,rfl,List.forall_mem_cons.mpr ⟨hlt,hl⟩,hm⟩
    · exact ⟨[],a :: as,rfl,by simp,List.forall_mem_cons.mpr ⟨hge,fun x hx => (hge.trans_lt (h1 x hx)).le⟩⟩

theorem freeNodes_rest {o : Option ℕ} (h : Linked s.next s.prev o (a :: m) (some list)) (hnd : (a :: m).Nodup)
    (hm : list ∉ m) (h0 : ∀ x ∈ m, x ≠ 0) (hn : m.length < n) :
    ∃ t, freeNodes list n a s = some t ∧ t.brk = s.brk ∧ ∀ x, s.node x = none → t.node x = none := by
  induction m generalizing o n s a with
  | nil =>
    obtain ⟨n,rfl⟩ := Nat.exists_eq_succ_of_ne_zero (Nat.ne_of_gt hn)
    obtain ⟨v,hv,hvn⟩ := node_of_next h.2.1
    refine ⟨s.free a,?_,rfl,fun x hx => ?_⟩
    · rw [freeNodes,hv,Option.bind_some,if_pos (Or.inl hvn)]
    · rw [node_free,hx,ite_self]
  | cons b m ih =>
    obtain ⟨n,rfl⟩ := Nat.exists_eq_succ_of_ne_zero (Nat.ne_of_gt (Nat.zero_lt_of_lt hn))
    obtain ⟨-,h2,h3⟩ := h
    obtain ⟨v,hv,hvn⟩ := node_of_next h2
    obtain ⟨hab,hndm⟩ := List.nodup_cons.mp hnd
    have hb : b ∈ b :: m := List.mem_cons_self ..
    have hstop : ¬(v.seNext = list ∨ v.seNext = 0) := by
      rw [hvn]
      exact not_or.mpr ⟨fun he => hm (he ▸ hb),h0 b hb⟩
    have hoff : ∀ x ∈ b :: m, (s.free a).node x = s.node x := by
      intro x hx
      refine (node_free x).trans (if_neg ?_)
      rintro rfl
      exact hab hx
    have h3 : Linked (s.free a).next (s.free a).prev (some a) (b :: m) (some list) :=
      h3.congr (fun x hx => by rw [next,next,hoff x hx]) fun x hx => by rw [prev,prev,hoff x hx]
    obtain ⟨t,ht,hbrk,hnone⟩ := ih h3 hndm (fun hx => hm (List.mem_cons_of_mem _ hx))
      (fun x hx => h0 x (List.mem_cons_of_mem _ hx)) (Nat.lt_of_succ_lt_succ hn)
    refine ⟨t,?_,hbrk,fun x hx => hnone x ?_⟩
    · rw [freeNodes,hv,Option.bind_some,if_neg hstop,hvn,ht]
    · rw [node_free,hx,ite_self]

/-- `lis_free_elist` follows no pointer that it should not, and ends. -/
theorem lisFreeElist_held (h : s.Held list as reg) : ∃ t, s.lisFreeElist list = some t ∧ t.Held 0 [] 0 := by
  have hnil (t : Kmem) : t.Asks [] 0 := ⟨fun a ha => absurd ha List.not_mem_nil,fun _ _ => rfl⟩
  rcases h.here with ⟨rfl,-⟩ | hc
  · exact ⟨s,if_pos rfl,h.null,h.pos,Or.inl ⟨rfl,rfl⟩,hnil s⟩
  · have hlen := below_length hc
    have h0 := hc.below list (List.mem_cons_self ..)
    obtain ⟨t,ht,hbrk,hnone⟩ := freeNodes_rest hc.ring.linked hc.ring.nodup (List.nodup_cons.mp hc.ring.nodup).1
      (fun x hx => Nat.ne_of_gt (hc.below x (List.mem_cons_of_mem _ hx)).1) (show as.length < s.brk by omega)
    exact ⟨t,(if_neg (Nat.ne_of_gt h0.1)).trans ht,hnone 0 h.null,hbrk ▸ h.pos,Or.inl ⟨rfl,rfl⟩,hnil t⟩

/-! ### Links -/

/-- The new node stands before `b` and behind the one that was before it. -/
structure Linkage (s t : Kmem) (a b c p : ℕ) (evs : BitVec 16) : Prop where
  brk : t.brk = s.brk
  node : ∀ x, s.node x = none → x ≠ a → t.node x = none
  next : ∀ x, t.next x = if x = c then some a else if x = a then some b else s.next x
  prev : ∀ x, t.prev x = if x = b then some a else if x = a then some c else s.prev x
  pid : ∀ x, t.pid x = if x = a then p else s.pid x
  evs : ∀ x, t.evs x = if x = a then evs else s.evs x

theorem link_spec (hb : s.node b = some e) (hc : s.node e.sePrev = some v) (hab : a ≠ b) (hac : a ≠ e.sePrev) :
    ∃ t, s.link a b p g = some t ∧ Linkage s t a b e.sePrev p g := by
  have h1 : (s.set a ⟨b,e.sePrev,p,g⟩).node e.sePrev = some v := by
    rw [node_set,if_neg (Ne.symm hac),hc]
  have h2 : ((s.set a ⟨b,e.sePrev,p,g⟩).set e.sePrev { v with seNext := a }).node b =
      some (if b = e.sePrev then { v with seNext := a } else e) := by
    rw [node_set,node_set,if_neg (Ne.symm hab),hb]
    split_ifs <;> rfl
  have ht : s.link a b p g = some (((s.set a ⟨b,e.sePrev,p,g⟩).set e.sePrev { v with seNext := a }).set b
      { (if b = e.sePrev then { v with seNext := a } else e) with sePrev := a }) := by
    rw [link,hb,Option.bind_some,modify,h1,Option.map_some,Option.bind_some,modify,h2,Option.map_some]
  refine ⟨_,ht,rfl,fun x hx hxa => ?_,fun x => ?_,fun x => ?_,fun x => ?_,fun x => ?_⟩
  all_goals simp only [Kmem.next,Kmem.prev,Kmem.pid,Kmem.evs,node_set]
  all_goals grind

theorem node_allocf (x : ℕ) : (s.allocf v).node x = if x = s.brk then some v else s.node x := node_set x

/- What is read at another node than the new one. -/
theorem allocf_off (h : a ≠ s.brk) : (s.allocf v).next a = s.next a ∧ (s.allocf v).prev a = s.prev a ∧
    (s.allocf v).pid a = s.pid a ∧ (s.allocf v).evs a = s.evs a := by
  simp only [Kmem.next,Kmem.prev,Kmem.pid,Kmem.evs,node_allocf,if_neg h,and_self]

theorem Circle.allocf (h : s.Circle list as) (v : Strevent) : (s.allocf v).Circle list as := by
  have hne : ∀ a ∈ list :: as, a ≠ s.brk := fun a ha => Nat.ne_of_lt (h.below a ha).2
  refine ⟨h.ring.congr (fun a ha => (allocf_off (hne a ha)).1) (fun a ha => (allocf_off (hne a ha)).2.1),?_,?_⟩
  · exact fun a ha => ⟨(h.below a ha).1,Nat.lt_succ_of_lt (h.below a ha).2⟩
  · refine h.sorted.imp_of_mem fun {a b} ha hb hlt => ?_
    rwa [(allocf_off (hne a (List.mem_cons_of_mem _ ha))).2.2.1,(allocf_off (hne b (List.mem_cons_of_mem _ hb))).2.2.1]

/-- A node for a process is linked in at the place of its pid. -/
theorem Circle.link (h : s.Circle list (l ++ m)) (ha : a ∉ list :: (l ++ m)) (ha0 : 0 < a ∧ a < s.brk)
    (hl : ∀ x ∈ l, s.pid x < p) (hm : ∀ x ∈ m, p < s.pid x) :
    ∃ t, s.link a (m.head?.getD list) p g = some t ∧ t.Circle list (l ++ a :: m) ∧
      Linkage s t a (m.head?.getD list) (l.getLast?.getD list) p g := by
  have hin (x : ℕ) (k : List ℕ) (hk : k ⊆ l ++ m) (hx : x ∈ list :: k) : x ∈ list :: (l ++ m) :=
    (List.cons_subset_cons list hk) hx
  have hhead := hin _ m (List.subset_append_right l m) (Ring.head_mem list m)
  have hlast := hin _ l (List.subset_append_left l m) (Ring.last_mem list l)
  obtain ⟨e,he,hep⟩ := node_of_prev h.ring.prev_of_split
  obtain ⟨v,hv,-⟩ := node_of_next h.ring.next_of_split
  rw [← hep] at hv
  have hab : a ≠ m.head?.getD list := fun hc => ha (hc ▸ hhead)
  have hac : a ≠ l.getLast?.getD list := fun hc => ha (hc ▸ hlast)
  obtain ⟨t,ht,hlink⟩ := link_spec (p := p) (g := g) he hv hab (hep ▸ hac)
  rw [hep] at hlink
  have hoff : ∀ x ∈ list :: (l ++ m), x ≠ a := fun x hx hc => ha (hc ▸ hx)
  refine ⟨t,ht,⟨h.ring.insert ha ?_ ?_ ?_ ?_ ?_ ?_,?_,?_⟩,hlink⟩
  · rw [hlink.next,if_neg hac,if_pos rfl]
  · rw [hlink.prev,if_neg hab,if_pos rfl]
  · rw [hlink.next,if_pos rfl]
  · rw [hlink.prev,if_pos rfl]
  · exact fun x hx hne => by rw [hlink.next,if_neg hne,if_neg (hoff x hx)]
  · exact fun x hx hne => by rw [hlink.prev,if_neg hne,if_neg (hoff x hx)]
  · intro x hx
    rw [hlink.brk]
    rcases List.mem_cons.mp hx with rfl | hx
    · exact h.below _ (List.mem_cons_self ..)
    rcases List.mem_append.mp hx with hx | hx
    · exact h.below x (List.mem_cons_of_mem _ (List.mem_append_left _ hx))
    rcases List.mem_cons.mp hx with rfl | hx
    · exact ha0
    · exact h.below x (List.mem_cons_of_mem _ (List.mem_append_right _ hx))
  · obtain ⟨hsl,hsm,hlm⟩ := List.pairwise_append.mp h.sorted
    have hpid : ∀ x ∈ l ++ m, t.pid x = s.pid x := fun x hx => by
      rw [hlink.pid,if_neg (hoff x (List.mem_cons_of_mem _ hx))]
    have hpa : t.pid a = p := by rw [hlink.pid,if_pos rfl]
    have hpl : ∀ x ∈ l, t.pid x = s.pid x := fun x hx => hpid x (List.mem_append_left _ hx)
    have hpm : ∀ x ∈ m, t.pid x = s.pid x := fun x hx => hpid x (List.mem_append_right _ hx)
    refine List.pairwise_append.mpr ⟨hsl.imp_of_mem ?_,List.pairwise_cons.mpr ⟨fun x hx => ?_,hsm.imp_of_mem ?_⟩,?_⟩
    · exact fun {x y} hx hy hlt => by rwa [hpl x hx,hpl y hy]
    · rw [hpa,hpm x hx]
      exact hm x hx
    · exact fun {x y} hx hy hlt => by rwa [hpm x hx,hpm y hy]
    · intro x hx y hy
      rw [hpl x hx]
      rcases List.mem_cons.mp hy with rfl | hy
      · exact hpa ▸ hl x hx
      · rw [hpm y hy]
        exact hlm x hx y hy

/- A process that was not in the list is, with what it asks for now. -/
theorem Asks.link (h : s.Asks (l ++ m) reg) (ha : a ∉ l ++ m) (hp : ∀ x ∈ l ++ m, s.pid x ≠ p)
    (hlink : Linkage s t a b c p g) : t.Asks (l ++ a :: m) (Function.update reg p (reg p ||| g)) := by
  have h0 : reg p = 0 := h.others p hp
  have hoff : ∀ x ∈ l ++ m, x ≠ a := fun x hx hc => ha (hc ▸ hx)
  have hmem : ∀ x, x ∈ l ++ a :: m ↔ x = a ∨ x ∈ l ++ m := fun x => by simp [or_left_comm]
  refine ⟨fun x hx => ?_,fun q hq => ?_⟩
  · rcases (hmem x).mp hx with rfl | hx
    · rw [hlink.evs,hlink.pid,if_pos rfl,if_pos rfl,Function.update_self,h0]
      exact (BitVec.zero_or (x := g)).symm
    · rw [hlink.evs,hlink.pid,if_neg (hoff x hx),if_neg (hoff x hx),Function.update_of_ne (hp x hx),h.holds x hx]
  · have hqp : q ≠ p := by
      rintro rfl
      exact hq a ((hmem a).mpr (Or.inl rfl)) (by rw [hlink.pid,if_pos rfl])
    rw [Function.update_of_ne hqp]
    refine h.others q fun x hx => ?_
    have := hq x ((hmem x).mpr (Or.inr hx))
    rwa [hlink.pid,if_neg (hoff x hx)] at this

theorem setEvs_views (h : s.node a = some e) (g : BitVec 16) (x : ℕ) :
    (s.set a { e with seEvs := g }).next x = s.next x ∧ (s.set a { e with seEvs := g }).prev x = s.prev x ∧
      (s.set a { e with seEvs := g }).pid x = s.pid x ∧
      (s.set a { e with seEvs := g }).evs x = if x = a then g else s.evs x := by
  simp only [Kmem.next,Kmem.prev,Kmem.pid,Kmem.evs,node_set]
  grind

theorem Circle.setEvs (hc : s.Circle list as) (h : s.node a = some e) (g : BitVec 16) :
    (s.set a { e with seEvs := g }).Circle list as := by
  refine ⟨hc.ring.congr (fun x _ => (setEvs_views h g x).1) (fun x _ => (setEvs_views h g x).2.1),hc.below,?_⟩
  refine hc.sorted.imp fun {x y} hlt => ?_
  rwa [(setEvs_views h g x).2.2.1,(setEvs_views h g y).2.2.1]

/- The events of the process that `a` is the node of are set. -/
theorem Asks.setEvs (hs : as.Pairwise fun a b => s.pid a < s.pid b) (ha : a ∈ as) (hask : s.Asks as reg)
    (h : s.node a = some e) (g : BitVec 16) :
    (s.set a { e with seEvs := g }).Asks as (Function.update reg (s.pid a) g) := by
  have hinj : ∀ x ∈ as, s.pid x = s.pid a → x = a := by
    have hnd : (as.map s.pid).Nodup := List.pairwise_map.mpr (hs.imp fun {x y} hlt => hlt.ne)
    exact fun x hx he => List.inj_on_of_nodup_map hnd hx ha he
  refine ⟨fun x hx => ?_,fun q hq => ?_⟩
  · rw [(setEvs_views h g x).2.2.1,(setEvs_views h g x).2.2.2]
    by_cases hxa : x = a
    · rw [if_pos hxa,hxa,Function.update_self]
    · rw [if_neg hxa,Function.update_of_ne (fun he => hxa (hinj x hx he)),hask.holds x hx]
  · have hne : q ≠ s.pid a := by
      rintro rfl
      exact hq a ha (setEvs_views h g a).2.2.1
    rw [Function.update_of_ne hne]
    refine hask.others q fun x hx => ?_
    rw [← (setEvs_views h g x).2.2.1]
    exact hq x hx

/-- The node is gone, the two beside it are linked to each other. -/
structure Unlinkage (s t : Kmem) (a p n : ℕ) : Prop where
  brk : t.brk = s.brk
  node : ∀ x, s.node x = none → t.node x = none
  next : ∀ x, x ≠ a → t.next x = if x = p then some n else s.next x
  prev : ∀ x, x ≠ a → t.prev x = if x = n then some p else s.prev x
  pid : ∀ x, x ≠ a → t.pid x = s.pid x
  evs : ∀ x, x ≠ a → t.evs x = s.evs x

theorem unlink_spec (hn : s.node e.seNext = some w) (hp : s.node e.sePrev = some v) (hn0 : e.seNext ≠ 0)
    (hp0 : e.sePrev ≠ 0) : ∃ t, s.unlink a e = some t ∧ Unlinkage s t a e.sePrev e.seNext := by
  have h1 : (s.set e.seNext { w with sePrev := e.sePrev }).node e.sePrev =
      some (if e.sePrev = e.seNext then { w with sePrev := e.sePrev } else v) := by
    rw [node_set,hp]
    split_ifs <;> rfl
  have ht : s.unlink a e = some (((s.set e.seNext { w with sePrev := e.sePrev }).set e.sePrev
      { (if e.sePrev = e.seNext then { w with sePrev := e.sePrev } else v) with seNext := e.seNext }).free a) := by
    rw [unlink,if_neg hn0,modify,hn,Option.map_some,Option.bind_some,if_neg hp0,modify,h1,Option.map_some,Option.map_some]
  refine ⟨_,ht,rfl,fun x hx => ?_,fun x hx => ?_,fun x hx => ?_,fun x hx => ?_,fun x hx => ?_⟩
  all_goals simp only [Kmem.next,Kmem.prev,Kmem.pid,Kmem.evs,node_free,node_set]
  all_goals grind

/-- The node of a process is taken out of the circle. -/
theorem Circle.unlink (h : s.Circle list (l ++ a :: m)) (hv : s.node a = some e) :
    ∃ t, s.unlink a e = some t ∧ t.Circle list (l ++ m) ∧ Unlinkage s t a e.sePrev e.seNext := by
  obtain ⟨-,hp,hn,-⟩ := h.ring.parts
  rw [Ring.head?_or,next_eq hv] at hn
  rw [prev_eq hv] at hp
  have hsub : list :: (l ++ m) ⊆ list :: (l ++ a :: m) :=
    List.cons_subset_cons list (((List.sublist_cons_self a m).append_left l).subset)
  have hperm : (list :: (l ++ a :: m)).Perm (a :: list :: (l ++ m)) :=
    ((List.perm_middle).cons list).trans (List.Perm.swap ..)
  have hoff : ∀ x ∈ list :: (l ++ m), x ≠ a := by
    rintro x hx rfl
    exact (List.nodup_cons.mp (hperm.nodup_iff.mp h.ring.nodup)).1 hx
  have hin (x : ℕ) (k : List ℕ) (hk : k ⊆ l ++ m) (hx : x ∈ list :: k) : x ∈ list :: (l ++ m) :=
    (List.cons_subset_cons list hk) hx
  have hhead := hin _ m (List.subset_append_right l m) (Ring.head_mem list m)
  have hlast := hin _ l (List.subset_append_left l m) (Ring.last_mem list l)
  rw [← Option.some.inj hn] at hhead
  rw [← Option.some.inj hp] at hlast
  have hex : ∀ x ∈ list :: (l ++ m), ∃ w, s.node x = some w := by
    intro x hx
    obtain ⟨b,hb⟩ := h.ring.next_mem (hsub hx)
    obtain ⟨w,hw,-⟩ := node_of_next hb
    exact ⟨w,hw⟩
  obtain ⟨w,hw⟩ := hex _ hhead
  obtain ⟨v,hv'⟩ := hex _ hlast
  obtain ⟨t,ht,hu⟩ := unlink_spec (a := a) hw hv' (Nat.ne_of_gt (h.below _ (hsub hhead)).1)
    (Nat.ne_of_gt (h.below _ (hsub hlast)).1)
  have hpe := Option.some.inj hp
  have hne := Option.some.inj hn
  refine ⟨t,ht,⟨h.ring.remove ?_ ?_ ?_ ?_,fun x hx => hu.brk ▸ h.below x (hsub hx),?_⟩,hu⟩
  · rw [← hpe,← hne,hu.next _ (hoff _ hlast),if_pos rfl]
  · rw [← hpe,← hne,hu.prev _ (hoff _ hhead),if_pos rfl]
  · exact fun x hx hx' => by rw [hu.next x (hoff x hx),if_neg (hpe ▸ hx')]
  · exact fun x hx hx' => by rw [hu.prev x (hoff x hx),if_neg (hne ▸ hx')]
  · refine (h.sorted.sublist ((List.sublist_cons_self a m).append_left l)).imp_of_mem fun {x y} hx hy hlt => ?_
    rwa [hu.pid x (hoff x (List.mem_cons_of_mem _ hx)),hu.pid y (hoff y (List.mem_cons_of_mem _ hy))]

/- A process that asks for nothing any more has no node. -/
theorem Asks.unlink (h : s.Asks (l ++ a :: m) reg) (ha : a ∉ l ++ m) (hz : reg (s.pid a) = 0)
    (hu : Unlinkage s t a b c) : t.Asks (l ++ m) reg := by
  have hoff : ∀ x ∈ l ++ m, x ≠ a := fun x hx hc => ha (hc ▸ hx)
  have hsub : l ++ m ⊆ l ++ a :: m := ((List.sublist_cons_self a m).append_left l).subset
  refine ⟨fun x hx => ?_,fun q hq => ?_⟩
  · rw [hu.evs x (hoff x hx),hu.pid x (hoff x hx),h.holds x (hsub hx)]
  · by_cases hqa : s.pid a = q
    · exact hqa ▸ hz
    · refine h.others q fun x hx => ?_
      by_cases hxa : x = a
      · exact hxa ▸ hqa
      · rw [← hu.pid x hxa]
        refine hq x ?_
        have := (List.perm_middle (a := a)).mem_iff.mp hx
        exact (List.mem_cons.mp this).resolve_left hxa

/-! ### The routines -/

theorem Asks.nil (h : s.Asks [] reg) : t.Asks [] reg :=
  ⟨fun _ ha => absurd ha List.not_mem_nil,fun p _ => h.others p fun _ ha => absurd ha List.not_mem_nil⟩

theorem null_set (h : s.node 0 = none) (ha : s.node a = some v) : (s.set a w).node 0 = none := by
  have h0 : (0 : ℕ) ≠ a := by
    rintro rfl
    exact Option.some_ne_none v (ha.symm.trans h)
  rw [node_set,if_neg h0,h]

/- The node handed out is linked in for a process that has none. -/
theorem Held.link (h : s.Held list (l ++ m) reg) (hc : s.Circle list (l ++ m)) (hl : ∀ x ∈ l, s.pid x < p)
    (hm : ∀ x ∈ m, p < s.pid x) : ∃ t, (s.allocf ⟨0,0,0,0⟩).link s.brk (m.head?.getD list) p g = some t ∧
      t.Held list (l ++ s.brk :: m) (Function.update reg p (reg p ||| g)) := by
  have hfresh : s.brk ∉ list :: (l ++ m) := fun hx => Nat.lt_irrefl _ (hc.below _ hx).2
  have hoff : ∀ x ∈ l ++ m, (s.allocf ⟨0,0,0,0⟩).pid x = s.pid x ∧ (s.allocf ⟨0,0,0,0⟩).evs x = s.evs x := fun x hx =>
    (allocf_off fun he => hfresh (he ▸ List.mem_cons_of_mem _ hx)).2.2
  have hask : (s.allocf ⟨0,0,0,0⟩).Asks (l ++ m) reg := by
    refine ⟨fun x hx => ?_,fun q hq => h.asks.others q fun x hx => (hoff x hx).1 ▸ hq x hx⟩
    rw [(hoff x hx).1,(hoff x hx).2]
    exact h.asks.holds x hx
  have hl' : ∀ x ∈ l, (s.allocf ⟨0,0,0,0⟩).pid x < p := fun x hx =>
    (hoff x (List.mem_append_left _ hx)).1.symm ▸ hl x hx
  have hm' : ∀ x ∈ m, p < (s.allocf ⟨0,0,0,0⟩).pid x := fun x hx =>
    (hoff x (List.mem_append_right _ hx)).1.symm ▸ hm x hx
  have hnone : ∀ x ∈ l ++ m, (s.allocf ⟨0,0,0,0⟩).pid x ≠ p := by
    intro x hx
    rcases List.mem_append.mp hx with hx | hx
    · exact (hl' x hx).ne
    · exact (hm' x hx).ne'
  obtain ⟨t,ht,hct,hlink⟩ := (hc.allocf ⟨0,0,0,0⟩).link (g := g) hfresh ⟨h.pos,Nat.lt_succ_self _⟩ hl' hm'
  refine ⟨t,ht,hlink.node 0 ?_ (Nat.ne_of_lt h.pos),hlink.brk ▸ Nat.succ_pos _,Or.inr hct,
    hask.link (fun hx => hfresh (List.mem_cons_of_mem _ hx)) hnone hlink⟩
  rw [node_allocf,if_neg (Nat.ne_of_lt h.pos),h.null]

/-- `lis_add_to_elist`: when it succeeds the process asks for the events too. -/
theorem lisAddToElist_held (h : s.Held list as reg) (p : ℕ) (g : BitVec 16) (ok okHead : Bool) :
    ∃ b list' t as', s.lisAddToElist list p g ok okHead = some (b,list',t) ∧
      t.Held list' as' (if b then Function.update reg p (reg p ||| g) else reg) := by
  rcases h.here with ⟨rfl,rfl⟩ | hc
  · have hs : s.searchList 0 p = some 0 := if_pos rfl
    have h0 : (s.allocf ⟨0,0,0,0⟩).node 0 = none := by rw [node_allocf,if_neg (Nat.ne_of_lt h.pos),h.null]
    rw [lisAddToElist,hs,Option.bind_some,if_pos rfl]
    cases ok with
    | false => exact ⟨false,0,s,[],rfl,h⟩
    | true =>
      cases okHead with
      | false =>
        refine ⟨false,0,_,[],rfl,?_,Nat.succ_pos _,Or.inl ⟨rfl,rfl⟩,h.asks.nil⟩
        rw [node_free,h0,ite_self]
      | true =>
        -- the dummy node is handed out second
        have hpos := h.pos
        let t := s.allocf ⟨0,0,0,0⟩
        let u := t.allocf ⟨t.brk,t.brk,0,0⟩
        have hu : u.node t.brk = some ⟨t.brk,t.brk,0,0⟩ := (node_allocf _).trans (if_pos rfl)
        have hcirc : u.Circle t.brk [] := by
          refine ⟨Ring.anchor (next_eq hu) (prev_eq hu),fun a ha => ?_,List.Pairwise.nil⟩
          rw [List.mem_singleton.mp ha]
          exact ⟨Nat.succ_pos _,Nat.lt_succ_self _⟩
        have hask : u.Asks [] reg := h.asks.nil
        have hne : s.brk ∉ [t.brk] := fun hx => Nat.ne_of_lt (Nat.lt_succ_self s.brk) (List.mem_singleton.mp hx)
        obtain ⟨v,hv,hcv,hlink⟩ := hcirc.link (l := []) (m := []) (p := p) (g := g) hne
          ⟨h.pos,Nat.lt_succ_of_lt (Nat.lt_succ_self _)⟩ (fun x hx => absurd hx List.not_mem_nil)
          (fun x hx => absurd hx List.not_mem_nil)
        refine ⟨true,t.brk,v,[s.brk],congrArg (Option.map _) hv,?_⟩
        refine ⟨hlink.node 0 ?_ (Nat.ne_of_lt hpos),hlink.brk ▸ Nat.succ_pos _,Or.inr hcv,
          Asks.link (l := []) (m := []) hask List.not_mem_nil (fun x hx => absurd hx List.not_mem_nil) hlink⟩
        exact (node_allocf 0).trans ((if_neg (Nat.ne_of_lt (Nat.succ_pos s.brk))).trans h0)
  · have hlist := Nat.ne_of_gt (hc.below list (List.mem_cons_self ..)).1
    obtain ⟨l,m,rfl,hl,hm⟩ := exists_place hc p
    have hs := searchList_circle hc hl fun a ha => hm a (List.mem_of_head? ha)
    rw [lisAddToElist,hs,Option.bind_some]
    cases m with
    | nil =>
      obtain ⟨t,ht,hheld⟩ := h.link hc (g := g) hl (fun x hx => absurd hx List.not_mem_nil)
      rw [List.head?_nil,Option.getD_none,if_pos rfl]
      cases ok with
      | false => exact ⟨false,list,s,l ++ [],rfl,h⟩
      | true =>
        rw [if_neg (by decide),if_pos hlist]
        exact ⟨true,list,t,l ++ [s.brk],congrArg (Option.map _) ht,hheld⟩
    | cons b m =>
      have hne : b ≠ list := by
        rintro rfl
        exact (List.nodup_cons.mp hc.ring.nodup).1 (List.mem_append_right _ (List.mem_cons_self ..))
      have hb : b ∈ l ++ b :: m := List.mem_append_right _ (List.mem_cons_self ..)
      obtain ⟨y,hy⟩ := hc.ring.next_mem (List.mem_cons_of_mem _ hb)
      obtain ⟨e,he,-⟩ := node_of_next hy
      have hsort := List.pairwise_cons.mp (List.pairwise_append.mp hc.sorted).2.1
      rw [List.head?_cons,Option.getD_some,if_neg hne,he,Option.bind_some]
      by_cases hep : e.sePid = p
      · have hpid : s.pid b = p := (pid_eq he).trans hep
        refine ⟨true,list,_,_,if_neg (fun hn => hn hep),null_set h.null he,h.pos,Or.inr (hc.setEvs he _),?_⟩
        · have hset := Asks.setEvs hc.sorted hb h.asks he (e.seEvs ||| g)
          rw [hpid] at hset
          rwa [← hpid,← h.asks.holds b hb,evs_eq he,hpid]
      · have hlt : ∀ x ∈ b :: m, p < s.pid x := by
          have hbp : p < s.pid b :=
            lt_of_le_of_ne (hm b (List.mem_cons_self ..)) (fun hc => hep ((pid_eq he).symm.trans hc.symm))
          exact List.forall_mem_cons.mpr ⟨hbp,fun x hx => hbp.trans (hsort.1 x hx)⟩
        obtain ⟨t,ht,hheld⟩ := h.link hc (g := g) hl hlt
        rw [if_pos hep]
        cases ok with
        | false => exact ⟨false,list,s,l ++ b :: m,rfl,h⟩
        | true => exact ⟨true,list,t,l ++ s.brk :: b :: m,congrArg (Option.map _) ht,hheld⟩

/-- `lis_del_from_elist`: the process does not ask for the events any more, and the list stays. -/
theorem lisDelFromElist_held (h : s.Held list as reg) (p : ℕ) (g : BitVec 16) :
    ∃ b t as', s.lisDelFromElist list p g = some (b,t) ∧
      t.Held list as' (Function.update reg p (reg p &&& ~~~g)) := by
  have hnone (hp : ∀ a ∈ as, s.pid a ≠ p) : s.Held list as (Function.update reg p (reg p &&& ~~~g)) := by
    have h0 := h.asks.others p hp
    have hz : reg p &&& ~~~g = reg p := by simp [h0]
    rwa [hz,Function.update_eq_self]
  rcases h.here with ⟨rfl,rfl⟩ | hc
  · have hs : s.searchList 0 p = some 0 := if_pos rfl
    rw [lisDelFromElist,hs,Option.bind_some,if_pos rfl]
    exact ⟨false,s,[],rfl,hnone fun a ha => absurd ha List.not_mem_nil⟩
  · obtain ⟨l,m,rfl,hl,hm⟩ := exists_place hc p
    have hs := searchList_circle hc hl fun a ha => hm a (List.mem_of_head? ha)
    rw [lisDelFromElist,hs,Option.bind_some]
    cases m with
    | nil =>
      rw [List.head?_nil,Option.getD_none,if_pos rfl]
      refine ⟨false,s,l ++ [],rfl,hnone fun a ha => (hl a ?_).ne⟩
      rwa [List.append_nil] at ha
    | cons b m =>
      have hb : b ∈ l ++ b :: m := List.mem_append_right _ (List.mem_cons_self ..)
      have hne : b ≠ list := by
        rintro rfl
        exact (List.nodup_cons.mp hc.ring.nodup).1 hb
      obtain ⟨y,hy⟩ := hc.ring.next_mem (List.mem_cons_of_mem _ hb)
      obtain ⟨e,he,-⟩ := node_of_next hy
      have hsort := List.pairwise_cons.mp (List.pairwise_append.mp hc.sorted).2.1
      rw [List.head?_cons,Option.getD_some,if_neg hne,he,Option.bind_some]
      by_cases hep : e.sePid = p
      · have hpid : s.pid b = p := (pid_eq he).trans hep
        have hreg : reg p = e.seEvs := by rw [← hpid,← h.asks.holds b hb,evs_eq he]
        have hnode : (s.set b { e with seEvs := e.seEvs &&& ~~~g }).node b = some { e with seEvs := e.seEvs &&& ~~~g } :=
          (node_set b).trans (if_pos rfl)
        have hnull : (s.set b { e with seEvs := e.seEvs &&& ~~~g }).node 0 = none := null_set h.null he
        have hask := Asks.setEvs hc.sorted hb h.asks he (e.seEvs &&& ~~~g)
        rw [hpid] at hask
        have hcirc := hc.setEvs he (e.seEvs &&& ~~~g)
        rw [if_neg (fun hn => hn hep),hreg]
        by_cases hz : e.seEvs &&& ~~~g = 0
        · obtain ⟨t,ht,hct,hu⟩ := hcirc.unlink hnode
          have hperm : (l ++ b :: m).Perm (b :: (l ++ m)) := List.perm_middle
          have hbn : b ∉ l ++ m :=
            (List.nodup_cons.mp (hperm.nodup_iff.mp (List.nodup_cons.mp hc.ring.nodup).2)).1
          refine ⟨true,t,l ++ m,?_,hu.node 0 hnull,hu.brk ▸ h.pos,Or.inr hct,hask.unlink hbn ?_ hu⟩
          · rw [if_pos hz]
            exact congrArg (Option.map _) ht
          · rw [(setEvs_views he _ b).2.2.1,hpid,Function.update_self,hz]
        · exact ⟨true,_,l ++ b :: m,if_neg hz,hnull,h.pos,Or.inr hcirc,hask⟩
      · rw [if_pos hep]
        refine ⟨false,s,l ++ b :: m,rfl,hnone fun a ha => ?_⟩
        have hbp : p < s.pid b :=
          lt_of_le_of_ne (hm b (List.mem_cons_self ..)) (fun hc => hep ((pid_eq he).symm.trans hc.symm))
        rcases List.mem_append.mp ha with ha | ha
        · exact (hl a ha).ne
        rcases List.mem_cons.mp ha with rfl | ha
        · exact hbp.ne'
        · exact (hbp.trans (hsort.1 a ha)).ne'

theorem killProcs_held (h : s.Held list as reg) (e1 : BitVec 16) : s.killProcs list e1 =
    if list = 0 then none else some (as.flatMap fun a => (sends e1 (reg (s.pid a))).map (Prod.mk (s.pid a))) := by
  rcases h.here with ⟨rfl,rfl⟩ | hc
  · rw [if_pos rfl,killProcs,h.null,Option.bind_none]
  · rw [if_neg (Nat.ne_of_gt (hc.below list (List.mem_cons_self ..)).1),killProcs_circle hc]
    refine congrArg some (List.flatMap_congr fun a ha => ?_)
    rw [h.asks.holds a ha]

end Kmem

end CSLiS.Head
