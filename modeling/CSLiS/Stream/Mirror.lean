import CSLiS.Stream.Plumbing

/-!
# The links of a stream lead back as they lead there
-/

namespace CSLiS.Stream
open Lib Lib.Exec Qid

variable {s : Plumbing} {l : List Qid} {h n : ℕ} {q x y : Qid}

/- What becomes of the queues when pair `n` is put in below stream head `h`. -/
def ins (h n : ℕ) (q : Qid) : List Qid :=
  if q = WR h then [WR h,WR n] else if q = RD h then [RD n,RD h] else [q]

def first (h n : ℕ) (q : Qid) : Qid := if q = RD h then RD n else q

def last (h n : ℕ) (q : Qid) : Qid := if q = RD n then RD h else q

theorem WR_ne_RD {m : ℕ} : WR m ≠ RD n := by simp [WR,RD]

theorem other_eq_iff : x.OTHER = y ↔ x = y.OTHER := other_involutive.eq_iff

theorem ne_of_pair (hx : q.pair ≠ n) : q ≠ RD n ∧ q ≠ WR n :=
  ⟨fun he => hx (congrArg pair he),fun he => hx (congrArg pair he)⟩

theorem ins_mirror (h n : ℕ) (q : Qid) : ins h n q.OTHER = mirror OTHER (ins h n q) := by
  simp only [ins,other_eq_iff,other_RD,other_WR]
  by_cases h1 : q = WR h
  · subst h1
    simp [WR_ne_RD]
  · by_cases h2 : q = RD h
    · subst h2
      simp [WR_ne_RD.symm]
    · simp [h1,h2]

/- A pair that is not in the list is not that of a queue in it or in its mirror image. -/
theorem pair_ne (hf : n ∉ l.map pair) (hq : q ∈ l ∨ q ∈ mirror OTHER l) : q.pair ≠ n := by
  rintro rfl
  rcases hq with hq | hq
  · exact hf (List.mem_map.mpr ⟨q,hq,rfl⟩)
  · exact hf (List.mem_map.mpr ⟨q.OTHER,(mem_mirror other_involutive).mp hq,rfl⟩)

namespace Plumbing

@[simp] theorem setNext_qNext (q : Qid) (o : Option Qid) : (s.setNext q o).qNext = Function.update s.qNext q o := rfl

/- The links after `lis_qattach`, when the write queue of the stream head leads somewhere. -/
theorem attach_some (hne : h ≠ s.fresh) (hw : s.qNext (WR h) = some y) :
    (s.lisQattach h).qNext = Function.update (Function.update (Function.update (Function.update s.qNext
      (RD s.fresh) (some (RD h))) (WR s.fresh) (some (first h s.fresh y))) (first h s.fresh y).OTHER
      (some (RD s.fresh))) (WR h) (some (WR s.fresh)) := by
  have hww : WR h ≠ WR s.fresh := fun he => hne (congrArg pair he)
  have hif : (if some y = some (RD h) then some (RD s.fresh) else some y) = some (first h s.fresh y) := by
    by_cases hy : y = RD h <;> simp [first,hy]
  simp only [lisQattach,setNext_qNext,Function.update_of_ne WR_ne_RD,Function.update_of_ne hww,
    Function.update_self,hw,hif]

section Attach
variable (hm : Mirrored OTHER s.qNext l) (hh : WR h ∈ l ∨ WR h ∈ mirror OTHER l) (hf : s.fresh ∉ l.map pair)
  (hw : s.qNext (WR h) = some y)
include hm hh hf hw

theorem attach_rq : (s.lisQattach h).qNext (RD s.fresh) = some (RD h) := by
  have hne : h ≠ s.fresh := pair_ne hf hh
  have hyf : y.pair ≠ s.fresh := pair_ne hf (hm.next_mem other_involutive hh hw)
  have hot : RD s.fresh ≠ (first h s.fresh y).OTHER := by
    intro he
    rw [eq_comm,other_eq_iff] at he
    simp only [first] at he
    split_ifs at he
    · exact WR_ne_RD he.symm
    · exact (ne_of_pair hyf).2 he
  rw [attach_some hne hw,Function.update_of_ne WR_ne_RD.symm,Function.update_of_ne hot,
    Function.update_of_ne WR_ne_RD.symm,Function.update_self]

theorem attach_wq : (s.lisQattach h).qNext (WR s.fresh) = some (first h s.fresh y) := by
  have hne : h ≠ s.fresh := pair_ne hf hh
  have hyf : y.pair ≠ s.fresh := pair_ne hf (hm.next_mem other_involutive hh hw)
  have hww : WR s.fresh ≠ WR h := fun he => hne (congrArg pair he).symm
  rw [attach_some hne hw,Function.update_of_ne hww]
  by_cases hy : y = RD h
  · rw [first,if_pos hy,other_RD,Function.update_self]
  · have hot : WR s.fresh ≠ y.OTHER := by
      intro he
      rw [eq_comm,other_eq_iff] at he
      exact (ne_of_pair hyf).1 he
    rw [first,if_neg hy,Function.update_of_ne hot,Function.update_self]

theorem attach_next (hx : x ∈ l ∨ x ∈ mirror OTHER l) (hxh : x ≠ WR h) :
    (s.lisQattach h).qNext x = (s.qNext x).map (first h s.fresh) := by
  have hne : h ≠ s.fresh := pair_ne hf hh
  obtain ⟨hx1,hx2⟩ := ne_of_pair (pair_ne hf hx)
  rw [attach_some hne hw,Function.update_of_ne hxh]
  by_cases hxy : x = (first h s.fresh y).OTHER
  · have hy : y ≠ RD h := by
      intro hy
      rw [first,if_pos hy,other_RD] at hxy
      exact hx2 hxy
    rw [first,if_neg hy] at hxy
    have hlaw : s.qNext x = some (RD h) := hxy ▸ hm.next_other other_involutive hh hw
    rw [hlaw,first,if_neg hy,hxy,Function.update_self]
    simp [first]
  · rw [Function.update_of_ne hxy,Function.update_of_ne hx2,Function.update_of_ne hx1]
    cases hz : s.qNext x with
    | none => rfl
    | some z =>
      have hzh : z ≠ RD h := by
        rintro rfl
        have hlaw := hm.next_other other_involutive hx hz
        obtain rfl : y = x.OTHER := Option.some.inj (hw.symm.trans hlaw)
        by_cases hy : x.OTHER = RD h
        · exact hxh (other_eq_iff.mp hy)
        · rw [first,if_neg hy] at hxy
          exact hxy (other_involutive x).symm
      simp [first,hzh]

end Attach

/-- `lis_qattach` puts the new pair in next to the stream head, wherever the queues lead to it. -/
theorem attach_mirrored (hm : Mirrored OTHER s.qNext l) (hh : WR h ∈ l ∨ WR h ∈ mirror OTHER l)
    (hf : s.fresh ∉ l.map pair) (hw : s.qNext (WR h) = some y) :
    Mirrored OTHER (s.lisQattach h).qNext (l.flatMap (ins h s.fresh)) := by
  have hne : h ≠ s.fresh := pair_ne hf hh
  have hstep : ∀ a, (a ∈ l ∨ a ∈ mirror OTHER l) → ∀ m,
      Threaded (s.lisQattach h).qNext ((s.qNext a).map (first h s.fresh)) m →
      Threaded (s.lisQattach h).qNext (some (first h s.fresh a)) (ins h s.fresh a ++ m) := by
    intro a ha m hm'
    by_cases h1 : a = WR h
    · subst h1
      have hhead : (s.lisQattach h).qNext (WR h) = some (WR s.fresh) := by
        rw [attach_some hne hw,Function.update_self]
      rw [ins,if_pos rfl,first,if_neg WR_ne_RD]
      refine ⟨rfl,hhead,?_⟩
      rw [attach_wq hm hh hf hw]
      rwa [hw] at hm'
    · rw [← attach_next hm hh hf hw ha h1] at hm'
      rw [ins,if_neg h1]
      by_cases h2 : a = RD h
      · subst h2
        rw [if_pos rfl,first,if_pos rfl]
        exact ⟨rfl,attach_rq hm hh hf hw,hm'⟩
      · rw [if_neg h2,first,if_neg h2]
        exact ⟨rfl,hm'⟩
  refine ⟨(hm.there.flatMap fun a ha => hstep a (Or.inl ha)).of_head,?_⟩
  rw [mirror_flatMap _ (ins_mirror h s.fresh)]
  exact (hm.back.flatMap fun a ha => hstep a (Or.inr ha)).of_head

theorem detach_qNext (hr : s.qNext (RD n) = some (RD h)) : (s.lisQdetach n).qNext =
    Function.update (match (s.qNext (WR n)).map (last h n) with
      | some nq => Function.update s.qNext nq.OTHER (some (RD h))
      | none => s.qNext) (WR h) ((s.qNext (WR n)).map (last h n)) := by
  have hif : (if s.qNext (WR n) = some (RD n) then some (RD h) else s.qNext (WR n)) =
      (s.qNext (WR n)).map (last h n) := by
    cases hw : s.qNext (WR n) with
    | none => rfl
    | some z => by_cases hz : z = RD n <;> simp [last,hz]
  simp only [lisQdetach,hr,hif]
  cases (s.qNext (WR n)).map (last h n) <;> rfl

/- The links of the queues that remain. -/
theorem detach_next (hm : Mirrored OTHER s.qNext l) (hn : WR n ∈ l ∨ WR n ∈ mirror OTHER l)
    (hr : s.qNext (RD n) = some (RD h)) (hx : x ∈ l ∨ x ∈ mirror OTHER l) (hxn : x.pair ≠ n) (hxh : x ≠ WR h) :
    (s.lisQdetach n).qNext x = (s.qNext x).map (last h n) := by
  have hlaw : s.qNext x = some (RD n) → s.qNext (WR n) = some x.OTHER := hm.next_other other_involutive hx
  rw [detach_qNext hr,Function.update_of_ne hxh]
  cases hw : s.qNext (WR n) with
  | none =>
    cases hz : s.qNext x with
    | none => simp [hz]
    | some z =>
      have hzn : z ≠ RD n := by
        rintro rfl
        exact absurd (hw.symm.trans (hlaw hz)) nofun
      simp [hz,last,hzn]
  | some z =>
    simp only [Option.map_some]
    by_cases hxz : x = (last h n z).OTHER
    · have hzn : z ≠ RD n := by
        intro he
        rw [last,if_pos he,other_RD] at hxz
        exact hxh hxz
      rw [last,if_neg hzn] at hxz
      have hback : s.qNext x = some (RD n) := hxz ▸ hm.next_other other_involutive hn hw
      rw [hback,last,if_neg hzn,hxz,Function.update_self]
      simp [last]
    · rw [Function.update_of_ne hxz]
      cases hy : s.qNext x with
      | none => rfl
      | some y =>
        have hyn : y ≠ RD n := by
          rintro rfl
          obtain rfl : z = x.OTHER := Option.some.inj (hw.symm.trans (hlaw hy))
          have hne : x.OTHER ≠ RD n := (ne_of_pair (q := x.OTHER) hxn).1
          rw [last,if_neg hne] at hxz
          exact hxz (other_involutive x).symm
        simp [last,hyn]

section Detach
variable (hm : Mirrored OTHER s.qNext (l.flatMap (ins h n))) (hh : WR h ∈ l ∨ WR h ∈ mirror OTHER l)

theorem mem_ins (hx : x ∈ l ∨ x ∈ mirror OTHER l) :
    x ∈ l.flatMap (ins h n) ∨ x ∈ mirror OTHER (l.flatMap (ins h n)) := by
  have hself : x ∈ ins h n x := by
    simp only [ins]
    split_ifs with h1 h2 <;> simp_all
  rw [mirror_flatMap _ (ins_mirror h n)]
  exact hx.imp (fun hx => List.mem_flatMap.mpr ⟨x,hx,hself⟩) fun hx => List.mem_flatMap.mpr ⟨x,hx,hself⟩

include hm hh

/- The pair next to the stream head. -/
theorem ins_top : s.qNext (WR h) = some (WR n) ∧ s.qNext (RD n) = some (RD h) ∧
    (WR n ∈ l.flatMap (ins h n) ∨ WR n ∈ mirror OTHER (l.flatMap (ins h n))) := by
  have hw : s.qNext (WR h) = some (WR n) := by
    rcases hh with hh | hh
    · obtain ⟨a,b,rfl⟩ := List.append_of_mem hh
      have ht := hm.there
      simp only [List.flatMap_append,List.flatMap_cons,ins,if_pos] at ht
      exact ht.next_eq
    · obtain ⟨a,b,hl⟩ := List.append_of_mem hh
      have ht := hm.back
      rw [mirror_flatMap _ (ins_mirror h n),hl] at ht
      simp only [List.flatMap_append,List.flatMap_cons,ins,if_pos] at ht
      exact ht.next_eq
  have hlive := mem_ins (h := h) (n := n) hh
  exact ⟨hw,hm.next_other other_involutive hlive hw,hm.next_mem other_involutive hlive hw⟩

/-- `lis_qdetach` takes out the pair that is next to the stream head. -/
theorem detach_mirrored (hf : n ∉ l.map pair) : Mirrored OTHER (s.lisQdetach n).qNext l := by
  obtain ⟨hw,hr,hn⟩ := ins_top hm hh
  have hstep : ∀ a, (a ∈ l ∨ a ∈ mirror OTHER l) → ∀ o m, Threaded s.qNext o (ins h n a ++ m) →
      o.map (last h n) = some a ∧
        ∃ o', (s.lisQdetach n).qNext a = o'.map (last h n) ∧ Threaded s.qNext o' m := by
    intro a ha o m ht
    have hpair : a.pair ≠ n := pair_ne hf ha
    have hlast : last h n a = a := by rw [last,if_neg (ne_of_pair hpair).1]
    by_cases h1 : a = WR h
    · subst h1
      rw [ins,if_pos rfl] at ht
      obtain ⟨rfl,-,ht⟩ := ht
      refine ⟨congrArg some hlast,_,?_,ht⟩
      rw [detach_qNext hr,Function.update_self]
    · have hnext := detach_next hm hn hr (mem_ins ha) hpair h1
      rw [ins,if_neg h1] at ht
      by_cases h2 : a = RD h
      · subst h2
        rw [if_pos rfl] at ht
        obtain ⟨rfl,-,ht⟩ := ht
        exact ⟨by simp [last],_,hnext,ht⟩
      · rw [if_neg h2] at ht
        obtain ⟨rfl,ht⟩ := ht
        exact ⟨congrArg some hlast,_,hnext,ht⟩
  have hback := hm.back
  rw [mirror_flatMap _ (ins_mirror h n)] at hback
  exact ⟨(hm.there.of_flatMap fun a ha => hstep a (Or.inl ha)).of_head,
    (hback.of_flatMap fun a ha => hstep a (Or.inr ha)).of_head⟩

end Detach

end Plumbing

end CSLiS.Stream
