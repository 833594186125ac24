import CSLiS.Events.ElistMap

/-!
# Runs over a list of events

Every call keeps the ring and does to the events of the processes what it says.
-/

namespace CSLiS.Events.Elist
open Lib Lib.Exec

variable {s t : Elist} {l pre post : List ℕ} {m : ℤ → BitVec 16} {pid p : ℤ} {events evs u : BitVec 16}
  {a b hd : ℕ} {e junk : Strevent} {cs : List Call} {c : Call}

/- No node of the list is that of the process. -/
def Absent (s : Elist) (l : List ℕ) (pid : ℤ) : Prop := ∀ a ∈ l, ∀ evs, ¬ s.Has a pid evs

/- There is no list yet, or its nodes hold the events. -/
def Refines (s : Elist) (l : List ℕ) (m : ℤ → BitVec 16) : Prop :=
  (s = start ∧ l = [] ∧ m = fun _ => 0) ∨ (Shape s l ∧ Holds s l m)

theorem has_node (h : s.mem a = some e) : s.Has a e.sePid e.seEvs := ⟨e.seNext,e.sePrev,h⟩

/-! ## Events are set and nodes are added -/

/- The events in a node are set. -/
theorem Shape.setEvs (h : Shape s l) (ha : a ∈ l) (he : s.mem a = some e) (f : Strevent → BitVec 16) :
    ∃ t, (s.put a fun x => { x with seEvs := f x }) = some t ∧ Shape t l ∧ t.Has a e.sePid (f e) ∧
      ∀ b, b ≠ a → ∀ p u, t.Has b p u ↔ s.Has b p u := by
  refine ⟨{ s with mem := Function.update s.mem a (some { e with seEvs := f e }) },?_,?_,?_,?_⟩
  · rw [put,he]
    rfl
  · set t : Elist := { s with mem := Function.update s.mem a (some { e with seEvs := f e }) } with ht
    have hself : t.mem a = some { e with seEvs := f e } := Function.update_self ..
    have hother : ∀ b, b ≠ a → t.mem b = s.mem b := fun b hb => Function.update_of_ne hb ..
    have hnx : ∀ b, t.nx b = s.nx b ∧ t.pv b = s.pv b := by
      intro b
      unfold nx pv
      by_cases hb : b = a
      · subst hb
        rw [hself,he]
        exact ⟨rfl,rfl⟩
      · rw [hother b hb]
        exact ⟨rfl,rfl⟩
    have hback : ∀ b p, (∃ u, t.Has b p u) → ∃ u, s.Has b p u := by
      rintro b p ⟨u,x,y,hu⟩
      by_cases hb : b = a
      · subst hb
        obtain rfl : e.sePid = p := congrArg Strevent.sePid (Option.some.inj (hself.symm.trans hu))
        exact ⟨e.seEvs,has_node he⟩
      · exact ⟨u,x,y,(hother b hb).symm.trans hu⟩
    have h0 : (0 : ℕ) ≠ a := by
      rintro rfl
      exact (h.mem 0).mpr (.inr ha) h.null
    refine ⟨h.list,h.ring.congr (fun b _ => (hnx b).1) fun b _ => (hnx b).2,fun b => ?_,h.live,?_,?_⟩
    · by_cases hb : b = a
      · subst hb
        exact iff_of_true (by simp [hself]) (.inr ha)
      · rw [hother b hb]
        exact h.mem b
    · exact h.sorted.imp fun hxy p q hp hq => hxy p q (hback _ p hp) (hback _ q hq)
    · exact (hother 0 h0).trans h.null
  · exact ⟨e.seNext,e.sePrev,Function.update_self ..⟩
  · intro b hb p u
    simp [Has,hb]

/- One process has other events than before, those of its node. -/
theorem Holds.set (h : Holds s l m) (ha : a ∈ l) (hs : s.Has a pid evs) (ht : t.Has a pid u)
    (huniq : ∀ b ∈ l, b ≠ a → ∀ v, ¬ s.Has b pid v) (hother : ∀ b, b ≠ a → ∀ p u, t.Has b p u ↔ s.Has b p u) :
    Holds t l (Function.update m pid u) := by
  constructor
  · intro b hb p v hv
    by_cases hba : b = a
    · subst hba
      obtain ⟨rfl,rfl⟩ := hv.unique ht
      rw [Function.update_self]
    · have hv1 := (hother b hba p v).mp hv
      have hp : p ≠ pid := by
        rintro rfl
        exact huniq b hb hba v hv1
      rw [Function.update_of_ne hp]
      exact h.evs b hb p v hv1
  · intro p hp
    have hne : p ≠ pid := by
      rintro rfl
      exact hp a ha u ht
    rw [Function.update_of_ne hne]
    apply h.none
    intro b hb v hv
    by_cases hba : b = a
    · subst hba
      exact hne (hv.unique hs).1
    · exact hp b hb v ((hother b hba p v).mpr hv)

/- A process without a node gets one. -/
theorem Holds.insert (h : Holds s (pre ++ post) m) (habs : Absent s (pre ++ post) pid) (ht : t.Has a pid u)
    (ha : ∀ b ∈ pre ++ post, b ≠ a) (hother : ∀ b, b ≠ a → ∀ p u, t.Has b p u ↔ s.Has b p u) :
    Holds t (pre ++ a :: post) (Function.update m pid u) := by
  have hmem : ∀ b, b ∈ pre ++ a :: post ↔ b = a ∨ b ∈ pre ++ post := by
    intro b
    simp only [List.mem_append,List.mem_cons]
    tauto
  constructor
  · intro b hb p v hv
    rcases (hmem b).mp hb with rfl | hb
    · obtain ⟨rfl,rfl⟩ := hv.unique ht
      rw [Function.update_self]
    · have hv1 := (hother b (ha b hb) p v).mp hv
      have hp : p ≠ pid := by
        rintro rfl
        exact habs b hb v hv1
      rw [Function.update_of_ne hp]
      exact h.evs b hb p v hv1
  · intro p hp
    have hne : p ≠ pid := by
      rintro rfl
      exact hp a ((hmem a).mpr (.inl rfl)) u ht
    rw [Function.update_of_ne hne]
    apply h.none
    intro b hb v hv
    exact hp b ((hmem b).mpr (.inr hb)) v ((hother b (ha b hb) p v).mpr hv)

/- The node of a process goes, it has no events any more. -/
theorem Holds.remove (h : Holds s (pre ++ a :: post) m) (hs : s.Has a pid 0)
    (ha : ∀ b ∈ pre ++ post, b ≠ a) (hother : ∀ b, b ≠ a → ∀ p u, t.Has b p u ↔ s.Has b p u) :
    Holds t (pre ++ post) m := by
  have hmem : ∀ b, b ∈ pre ++ a :: post ↔ b = a ∨ b ∈ pre ++ post := by
    intro b
    simp only [List.mem_append,List.mem_cons]
    tauto
  constructor
  · intro b hb p v hv
    exact h.evs b ((hmem b).mpr (.inr hb)) p v ((hother b (ha b hb) p v).mp hv)
  · intro p hp
    by_cases hpp : p = pid
    · subst hpp
      exact (h.evs a ((hmem a).mpr (.inl rfl)) p 0 hs).symm
    · apply h.none
      intro b hb v hv
      rcases (hmem b).mp hb with rfl | hb
      · exact hpp (hv.unique hs).1
      · exact hp b hb v ((hother b (ha b hb) p v).mpr hv)

/-! ## One call -/

theorem Shape.ne_fresh (h : Shape s l) (ha : s.mem a = none) : ∀ b ∈ l, b ≠ a := by
  rintro b hb rfl
  exact (h.mem b).mpr (.inr hb) ha

/- A process without a node gets one, wherever its place is. -/
theorem Shape.addNew (h : Shape s (pre ++ post)) (hm : Holds s (pre ++ post) m) (ha : s.mem a = none) (ha0 : a ≠ 0)
    (hlt : ∀ b ∈ pre, ∀ p u, s.Has b p u → p < pid) (hgt : ∀ b ∈ post, ∀ p u, s.Has b p u → pid < p)
    (events : BitVec 16) (junk : Strevent) :
    ∃ t, (s.alloc a junk).linkNew a (post.head?.getD s.list) pid events = some t ∧
      Refines t (pre ++ a :: post) (Function.update m pid (m pid ||| events)) := by
  obtain ⟨t,hrun,hl,hv,hself,hmem⟩ := h.linkNew ha junk pid events
  obtain ⟨hshape,hta,hother⟩ := h.insert ha hl hv ha0 hself hmem hlt hgt
  have habs : Absent s (pre ++ post) pid := by
    intro b hb v hv
    rcases List.mem_append.mp hb with hb | hb
    · exact absurd (hlt b hb pid v hv) (lt_irrefl _)
    · exact absurd (hgt b hb pid v hv) (lt_irrefl _)
  refine ⟨t,hrun,.inr ⟨hshape,?_⟩⟩
  rw [hm.none pid habs,show (0 : BitVec 16) ||| events = events from BitVec.zero_or]
  exact hm.insert habs hta (h.ne_fresh ha) hother

/- Where the search has stopped. -/
theorem Shape.gt (h : Shape s (pre ++ b :: post)) (hge : ∀ a ∈ b :: post, ∀ p u, s.Has a p u → pid ≤ p)
    (hb : s.mem b = some e) (hne : e.sePid ≠ pid) : ∀ a ∈ b :: post, ∀ p u, s.Has a p u → pid < p := by
  have h1 := hge b List.mem_cons_self _ _ (has_node hb)
  intro a ha p u hp
  rcases List.mem_cons.mp ha with rfl | ha
  · rw [(hp.unique (has_node hb)).1]
    omega
  · have h2 := h.lt ha (has_node hb) hp
    omega

/- No other node is that of the process. -/
theorem Shape.alone (h : Shape s (pre ++ a :: post)) (ha : s.Has a pid evs) :
    ∀ b ∈ pre ++ a :: post, b ≠ a → ∀ v, ¬ s.Has b pid v := by
  intro b hb hba v hv
  rcases List.mem_append.mp hb with hb | hb
  · have h1 := (List.pairwise_append.mp h.sorted).2.2 b hb a List.mem_cons_self pid pid ⟨v,hv⟩ ⟨evs,ha⟩
    exact lt_irrefl _ h1
  · rcases List.mem_cons.mp hb with rfl | hb
    · exact hba rfl
    · exact lt_irrefl _ (h.lt hb ha hv)

theorem start_alloc_free (a : ℕ) (junk : Strevent) : (start.alloc a junk).free a = start := by
  simp only [start,alloc,free,Function.update_idem]
  congr 1
  funext b
  by_cases hb : b = a
  · subst hb
    exact Function.update_self ..
  · exact Function.update_of_ne hb ..

/- A list with the dummy node only. -/
def dummy (hd : ℕ) (junk : Strevent) : Elist :=
  { start.alloc hd { junk with sePid := 0, seNext := hd, sePrev := hd } with list := hd }

theorem shape_dummy (hd : ℕ) (h0 : hd ≠ 0) (junk : Strevent) :
    Shape (dummy hd junk) [] ∧ Holds (dummy hd junk) [] fun _ => 0 := by
  refine ⟨⟨h0,Ring.anchor ?_ ?_,fun b => ?_,rfl,List.Pairwise.nil,?_⟩,fun b hb => ?_,fun _ _ => rfl⟩
  · simp [nx,dummy,alloc]
  · simp [pv,dummy,alloc]
  · by_cases hb : b = hd
    · simp [dummy,alloc,hb]
    · simp [dummy,alloc,hb,start]
  · simp [dummy,alloc,Ne.symm h0,start]
  · cases hb

/- The two allocations of the first insertion are of different nodes. -/
theorem dummy_alloc (hne : hd ≠ a) (junk : Strevent) :
    { (start.alloc a junk).alloc hd { junk with sePid := 0, seNext := hd, sePrev := hd } with list := hd } =
      (dummy hd junk).alloc a junk := by
  simp only [dummy,alloc,start]
  rw [Function.update_comm hne]

theorem Refines.add (h : Refines s l m) (hf : s.Fresh a hd) (pid : ℤ) (events : BitVec 16) (junk : Strevent) :
    ∃ ret t, s.lisAddToElist pid events a hd junk = some (ret,t) ∧
      (ret ≠ 0 ∧ t = s ∨ ret = 0 ∧ ∃ k, Refines t k (Function.update m pid (m pid ||| events))) := by
  obtain ⟨ha,hh,hne⟩ := hf
  rw [Option.isNone_iff_eq_none] at ha hh
  have hE : - ENOMEM ≠ 0 := by decide
  rcases h with ⟨rfl,rfl,rfl⟩ | ⟨h,hm⟩
  · rw [lisAddToElist,if_pos (show start.list = 0 from rfl)]
    by_cases ha0 : a = 0
    · rw [if_pos ha0]
      exact ⟨_,_,rfl,.inl ⟨hE,rfl⟩⟩
    · rw [if_neg ha0]
      by_cases hh0 : hd = 0
      · rw [if_pos hh0]
        exact ⟨_,_,rfl,.inl ⟨hE,start_alloc_free a junk⟩⟩
      · rw [if_neg hh0]
        have hha : hd ≠ a := by
          rintro rfl
          exact ha0 (hne rfl)
        obtain ⟨hs,hm⟩ := shape_dummy hd hh0 junk
        have hs' : Shape (dummy hd junk) ([] ++ []) := hs
        have hfree : (dummy hd junk).mem a = none := (Function.update_of_ne (Ne.symm hha) ..).trans ha
        have hnone : ∀ b ∈ [], ∀ p u, (dummy hd junk).Has b p u → p < pid := fun b hb => absurd hb List.not_mem_nil
        obtain ⟨t,hrun,hr⟩ := hs'.addNew hm hfree ha0 hnone (fun b hb => absurd hb List.not_mem_nil) events junk
        refine ⟨0,t,?_,.inr ⟨rfl,_,hr⟩⟩
        rw [List.head?_nil,Option.getD_none,← dummy_alloc hha] at hrun
        exact congrArg (Option.map fun t => ((0 : ℤ),t)) hrun
  · obtain ⟨pre,post,rfl,hfind,hlt,hge⟩ := h.find pid
    rw [lisAddToElist,if_neg h.list,hfind,Option.bind_some]
    cases post with
    | nil =>
      rw [List.head?_nil,Option.getD_none,if_pos rfl]
      by_cases ha0 : a = 0
      · rw [if_pos ha0]
        exact ⟨_,_,rfl,.inl ⟨hE,rfl⟩⟩
      · obtain ⟨t,hrun,hr⟩ := h.addNew hm ha ha0 hlt (fun b hb => absurd hb List.not_mem_nil) events junk
        rw [List.head?_nil,Option.getD_none] at hrun
        rw [if_neg ha0,hrun]
        exact ⟨0,t,rfl,.inr ⟨rfl,_,hr⟩⟩
    | cons b post =>
      have hb : b ∈ pre ++ b :: post := by simp
      obtain ⟨e,he⟩ := h.node (.inr hb)
      rw [List.head?_cons,Option.getD_some,if_neg (h.ne_list hb),he,Option.bind_some]
      by_cases hp : e.sePid = pid
      · subst hp
        rw [if_neg (not_not.mpr rfl)]
        obtain ⟨t,hrun,hs,ht,hother⟩ := h.setEvs hb he fun x => x.seEvs ||| events
        rw [hrun]
        refine ⟨0,t,rfl,.inr ⟨rfl,_,.inr ⟨hs,?_⟩⟩⟩
        have hset := hm.set hb (has_node he) ht (h.alone (has_node he)) hother
        rwa [hm.evs b hb _ _ (has_node he)] at hset
      · rw [if_pos hp]
        by_cases ha0 : a = 0
        · rw [if_pos ha0]
          exact ⟨_,_,rfl,.inl ⟨hE,rfl⟩⟩
        · obtain ⟨t,hrun,hr⟩ := h.addNew hm ha ha0 hlt (h.gt hge he hp) events junk
          rw [List.head?_cons,Option.getD_some] at hrun
          rw [if_neg ha0,hrun]
          exact ⟨0,t,rfl,.inr ⟨rfl,_,hr⟩⟩

theorem Refines.del (h : Refines s l m) (pid : ℤ) (events : BitVec 16) :
    ∃ ret t, s.lisDelFromElist pid events = some (ret,t) ∧
      (ret ≠ 0 ∧ t = s ∧ Absent s l pid ∨
        ret = 0 ∧ ¬ Absent s l pid ∧ ∃ k, Refines t k (Function.update m pid (m pid &&& ~~~events))) := by
  rcases h with ⟨rfl,rfl,rfl⟩ | ⟨h,hm⟩
  · rw [lisDelFromElist,if_pos (show start.list = 0 from rfl)]
    exact ⟨1,_,rfl,.inl ⟨one_ne_zero,rfl,fun b hb => absurd hb List.not_mem_nil⟩⟩
  · obtain ⟨pre,post,rfl,hfind,hlt,hge⟩ := h.find pid
    rw [lisDelFromElist,if_neg h.list,hfind,Option.bind_some]
    cases post with
    | nil =>
      rw [List.head?_nil,Option.getD_none,if_pos rfl]
      refine ⟨1,s,rfl,.inl ⟨one_ne_zero,rfl,fun a ha evs hp => ?_⟩⟩
      obtain ⟨rest,hr⟩ := h.found hlt hge ha hp
      cases hr
    | cons b post =>
      have hb : b ∈ pre ++ b :: post := by simp
      obtain ⟨e,he⟩ := h.node (.inr hb)
      have hhb := has_node he
      rw [List.head?_cons,Option.getD_some,if_neg (h.ne_list hb),he,Option.bind_some]
      by_cases hp : e.sePid = pid
      · subst hp
        have hpres : ¬ Absent s (pre ++ b :: post) e.sePid := fun hc => hc b hb _ hhb
        obtain ⟨t,hrun,hs,ht,hother⟩ := h.setEvs hb he fun x => x.seEvs &&& ~~~events
        have hset := hm.set hb hhb ht (h.alone hhb) hother
        rw [if_neg (not_not.mpr rfl),hrun,Option.bind_some]
        rw [hm.evs b hb _ _ hhb] at hset ht ⊢
        by_cases h0 : m e.sePid &&& ~~~events = 0
        · rw [if_pos h0]
          obtain ⟨w,hun,hwl,hwv,hwself,hwmem⟩ := hs.unlink
          obtain ⟨hw,hwother⟩ := hs.remove hwl hwv hwself hwmem
          rw [hun]
          refine ⟨0,w,rfl,.inr ⟨rfl,hpres,pre ++ post,.inr ⟨hw,?_⟩⟩⟩
          rw [h0] at ht
          exact hset.remove ht (hw.ne_fresh hwself) hwother
        · rw [if_neg h0]
          exact ⟨0,t,rfl,.inr ⟨rfl,hpres,_,.inr ⟨hs,hset⟩⟩⟩
      · rw [if_pos hp]
        refine ⟨1,s,rfl,.inl ⟨one_ne_zero,rfl,fun a ha evs hpa => ?_⟩⟩
        obtain ⟨rest,hr⟩ := h.found hlt hge ha hpa
        obtain ⟨rfl,-⟩ := List.cons.inj hr
        exact hp (hhb.unique hpa).1

theorem Refines.get (h : Refines s l m) (pid : ℤ) : s.lisGetElistEnt pid = some (m pid) := by
  rcases h with ⟨rfl,-,rfl⟩ | ⟨h,hm⟩
  · rfl
  · exact h.get hm pid

/- What a call that can be made does. -/
theorem Refines.call (h : Refines s l m) (hc : s.Allowed c) :
    ∃ ret t k, s.call c = some (ret,t) ∧ Refines t k (if ret = 0 then c.apply m else m) := by
  cases c with
  | get pid =>
    refine ⟨(m pid).toInt,s,l,?_,?_⟩
    · rw [Elist.call,h.get]
      rfl
    · rw [show Call.apply m (Call.get pid) = m from rfl,ite_self]
      exact h
  | add pid events a hd junk =>
    obtain ⟨ret,t,hrun,⟨hret,rfl⟩ | ⟨rfl,k,hk⟩⟩ := h.add hc pid events junk
    · refine ⟨ret,t,l,hrun,?_⟩
      rw [if_neg hret]
      exact h
    · exact ⟨0,t,k,hrun,hk⟩
  | del pid events =>
    obtain ⟨ret,t,hrun,⟨hret,rfl,-⟩ | ⟨rfl,-,k,hk⟩⟩ := h.del pid events
    · refine ⟨ret,t,l,hrun,?_⟩
      rw [if_neg hret]
      exact h
    · exact ⟨0,t,k,hrun,hk⟩

/-! ## Runs -/

/- A run of calls leads from nodes that hold some events to nodes that hold what the calls make of them. -/
theorem Refines.run (h : Refines s l m) (hcs : Meets step Allowed s cs) :
    ∃ t k, exec step s cs = some t ∧ Refines t k (s.masks cs m) := by
  induction cs generalizing s l m with
  | nil => exact ⟨s,l,rfl,h⟩
  | cons c cs ih =>
    obtain ⟨ret,t,k,hrun,hk⟩ := h.call hcs.1
    have hstep : s.step c = some t := by
      rw [step,hrun]
      rfl
    obtain ⟨u,j,hu,hj⟩ := ih hk (hcs.2 t hstep)
    refine ⟨u,j,?_,?_⟩
    · rw [exec_cons,hstep]
      exact hu
    · rw [masks,hrun]
      exact hj

instance (s : Elist) (c : Call) : Decidable (s.Allowed c) :=
  match c with
  | .add _ _ a hd _ => inferInstanceAs (Decidable (s.Fresh a hd))
  | .get _ => inferInstanceAs (Decidable True)
  | .del .. => inferInstanceAs (Decidable True)
end CSLiS.Events.Elist
