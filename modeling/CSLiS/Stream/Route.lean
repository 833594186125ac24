import CSLiS.Stream.Mirror

/-!
# The queues that a stream leads through
-/

namespace CSLiS.Stream
open Lib Lib.Exec Qid

variable {k : Kind} {s s' : Plumbing} {m : Stacks} {h n : ℕ} {x y : Qid} {a : PlumbAct}

theorem flatMap_ins_WR {l : List ℕ} (hl : h ∉ l) : (l.map WR).flatMap (ins h n) = l.map WR := by
  induction l with
  | nil => rfl
  | cons i l ih =>
    simp only [List.mem_cons,not_or] at hl
    have hi : WR i ≠ WR h := fun he => hl.1 (congrArg pair he).symm
    rw [List.map_cons,List.flatMap_cons,ih hl.2,ins,if_neg hi,if_neg WR_ne_RD]
    rfl

theorem flatMap_ins_RD {l : List ℕ} (hl : h ∉ l) : (l.map RD).flatMap (ins h n) = l.map RD := by
  induction l with
  | nil => rfl
  | cons i l ih =>
    simp only [List.mem_cons,not_or] at hl
    have hi : RD i ≠ RD h := fun he => hl.1 (congrArg pair he).symm
    rw [List.map_cons,List.flatMap_cons,ih hl.2,ins,if_neg WR_ne_RD.symm,if_neg hi]
    rfl

theorem mirror_WR (l : List ℕ) : mirror OTHER (l.map WR) = l.reverse.map RD := by
  simp [mirror,List.map_reverse]

theorem mirror_RD (l : List ℕ) : mirror OTHER (l.map RD) = l.reverse.map WR := by
  simp [mirror,List.map_reverse]

namespace Stacks

/- The numbers of the modules are their own. -/
structure Valid (m : Stacks) : Prop where
  heads : 2 ≤ m.fresh
  range : ∀ h, ∀ i ∈ m.mods h, 2 ≤ i ∧ i < m.fresh
  nodup : ∀ h, (m.mods h).Nodup
  apart : ∀ h h' i, i ∈ m.mods h → i ∈ m.mods h' → h = h'

theorem init_valid : init.Valid := ⟨le_rfl,nofun,fun _ => List.nodup_nil,nofun⟩

theorem Valid.notMem (hv : m.Valid) (hn : n < 2) (h : ℕ) : n ∉ m.mods h := by
  intro hc
  have := hv.range h n hc
  omega

theorem route_mirror (m : Stacks) : ∀ h ∈ k.heads, m.route h k = m.route 0 k ∨
    m.route h k = mirror OTHER (m.route 0 k) := by
  intro h hh
  cases k with
  | plain | fifo =>
    obtain rfl := List.mem_singleton.mp hh
    exact Or.inl rfl
  | pipe =>
    rcases List.mem_pair.mp hh with rfl | rfl
    · exact Or.inl rfl
    · refine Or.inr ?_
      simp only [route,mirror_append,mirror_cons,mirror_WR,mirror_RD]
      simp

/- A FIFO turns round into itself. -/
theorem mirror_fifo (m : Stacks) : mirror OTHER (m.route 0 .fifo) = m.route 0 .fifo := by
  simp only [route,mirror_append,mirror_cons,mirror_WR,mirror_RD]
  simp

/-- A push puts the module in next to its stream head. -/
theorem route_push (hv : m.Valid) (hh : h ∈ k.heads) (n : ℕ) :
    (m.push h n).route 0 k = (m.route 0 k).flatMap (ins h n) := by
  have hmods := hv.notMem (n := h) (by cases k <;> simp [Kind.heads] at hh <;> omega)
  have hWR : ∀ j, ((m.mods j).map WR).flatMap (ins h n) = (m.mods j).map WR := fun j => flatMap_ins_WR (hmods j)
  have hRD : ∀ j, ((m.mods j).reverse.map RD).flatMap (ins h n) = (m.mods j).reverse.map RD :=
    fun j => flatMap_ins_RD fun hc => hmods j (List.mem_reverse.mp hc)
  have hW1 : h ≠ 1 → ins h n (WR 1) = [WR 1] := by
    intro hne
    rw [ins,if_neg fun he => hne (congrArg pair he).symm,if_neg WR_ne_RD]
  cases k with
  | plain =>
    obtain rfl := List.mem_singleton.mp hh
    simp only [route,push,Function.update_self,List.flatMap_append,List.flatMap_cons,hWR,hW1 Nat.zero_ne_one,List.flatMap_nil]
    simp [ins]
  | fifo =>
    obtain rfl := List.mem_singleton.mp hh
    simp only [route,push,Function.update_self,List.flatMap_append,List.flatMap_cons,hWR,hRD,List.flatMap_nil]
    simp [ins,WR_ne_RD.symm]
  | pipe =>
    rcases List.mem_pair.mp hh with rfl | rfl
    · have hR1 : ins 0 n (RD 1) = [RD 1] := by simp [ins,RD,WR]
      simp only [route,push,Function.update_self,List.flatMap_append,List.flatMap_cons,hWR,hRD,hR1,List.flatMap_nil]
      simp [ins]
    · have hW0 : ins 1 n (WR 0) = [WR 0] := by simp [ins,RD,WR]
      simp only [route,push,Function.update_self,List.flatMap_append,List.flatMap_cons,hWR,hRD,hW0,List.flatMap_nil]
      simp [ins,WR_ne_RD.symm]

theorem push_valid (hv : m.Valid) : (m.push h m.fresh).Valid := by
  have hold : ∀ j i, i ∈ (m.push h m.fresh).mods j → i = m.fresh ∧ j = h ∨ i ∈ m.mods j := by
    intro j i hi
    simp only [push] at hi
    by_cases hj : j = h
    · subst hj
      rw [Function.update_self] at hi
      exact (List.mem_cons.mp hi).imp (fun he => ⟨he,rfl⟩) id
    · rw [Function.update_of_ne hj] at hi
      exact Or.inr hi
  have hnew : ∀ j, m.fresh ∉ m.mods j := fun j hc => Nat.lt_irrefl _ (hv.range j _ hc).2
  refine ⟨Nat.le_succ_of_le hv.heads,?_,?_,?_⟩
  · intro j i hi
    rcases hold j i hi with ⟨rfl,-⟩ | hi
    · exact ⟨hv.heads,Nat.lt_succ_self _⟩
    · exact ⟨(hv.range j i hi).1,Nat.lt_succ_of_lt (hv.range j i hi).2⟩
  · intro j
    by_cases hj : j = h
    · subst hj
      simp only [push,Function.update_self]
      exact List.nodup_cons.mpr ⟨hnew j,hv.nodup j⟩
    · simp only [push,Function.update_of_ne hj]
      exact hv.nodup j
  · intro j j' i hi hi'
    rcases hold j i hi with ⟨hn,hj⟩ | hm <;> rcases hold j' i hi' with ⟨hn',hj'⟩ | hm'
    · exact hj.trans hj'.symm
    · exact absurd (hn ▸ hm') (hnew j')
    · exact absurd (hn' ▸ hm) (hnew j)
    · exact hv.apart j j' i hm hm'

/- The modules that are left after a pop. -/
def rest (m : Stacks) (h : ℕ) (l : List ℕ) : Stacks := { m with mods := Function.update m.mods h l }

theorem rest_valid {l : List ℕ} (hv : m.Valid) (hm : m.mods h = n :: l) :
    (m.rest h l).Valid ∧ ∀ j, n ∉ (m.rest h l).mods j := by
  have hold : ∀ j i, i ∈ (m.rest h l).mods j → i ∈ m.mods j := by
    intro j i hi
    simp only [rest] at hi
    by_cases hj : j = h
    · subst hj
      rw [Function.update_self] at hi
      exact hm ▸ List.mem_cons_of_mem n hi
    · rwa [Function.update_of_ne hj] at hi
  have hnd := hv.nodup h
  rw [hm,List.nodup_cons] at hnd
  refine ⟨⟨hv.heads,fun j i hi => hv.range j i (hold j i hi),?_,?_⟩,?_⟩
  · intro j
    by_cases hj : j = h
    · subst hj
      simp only [rest,Function.update_self]
      exact hnd.2
    · simp only [rest,Function.update_of_ne hj]
      exact hv.nodup j
  · exact fun j j' i hi hi' => hv.apart j j' i (hold j i hi) (hold j' i hi')
  · intro j hc
    have hn : n ∈ m.mods h := hm ▸ List.mem_cons_self ..
    obtain rfl := hv.apart j h n (hold j n hc) hn
    simp only [rest,Function.update_self] at hc
    exact hnd.1 hc

theorem rest_push {l : List ℕ} (hm : m.mods h = n :: l) : ((m.rest h l).push h n).mods = m.mods := by
  simp only [push,rest,Function.update_self,Function.update_idem,← hm,Function.update_eq_self]

theorem route_congr {m' : Stacks} (h : m.mods = m'.mods) (j : ℕ) : m.route j k = m'.route j k := by
  cases k <;> simp only [route,h]

/- The pairs of the queues on the line. -/
theorem mem_pairs : x ∈ m.route 0 k ∨ x ∈ mirror OTHER (m.route 0 k) ↔ x.pair ∈ m.pairs k := by
  obtain ⟨i,b⟩ := x
  rw [mem_mirror other_involutive]
  cases k <;> cases b <;> simp [route,pairs,OTHER,RD,WR,eq_comm]
  all_goals tauto

theorem fresh_notMem (hn : 2 ≤ n) (hm : ∀ j, n ∉ m.mods j) : n ∉ (m.route 0 k).map pair := by
  intro hc
  obtain ⟨q,hq,rfl⟩ := List.mem_map.mp hc
  have hp := mem_pairs.mp (Or.inl hq)
  have hne : q.pair ≠ 0 ∧ q.pair ≠ 1 := by omega
  cases k <;> simp [pairs,hm,hne] at hp

end Stacks

namespace Plumbing

structure Plumbed (k : Kind) (s : Plumbing) (m : Stacks) : Prop where
  pushcnt : ∀ h, s.sdPushcnt h = (m.mods h).length
  fresh : s.fresh = m.fresh
  valid : m.Valid
  lines : Mirrored OTHER s.qNext (m.route 0 k)

theorem init_plumbed (k : Kind) (maxpushcnt : ℕ → ℕ) : Plumbed k (init maxpushcnt k) Stacks.init := by
  refine ⟨?_,?_,Stacks.init_valid,?_⟩
  · cases k <;> exact fun h => rfl
  · cases k <;> rfl
  · cases k <;> exact ⟨⟨rfl,rfl,rfl⟩,⟨rfl,rfl,rfl⟩⟩

theorem head_mem (hh : h ∈ k.heads) : WR h ∈ m.route 0 k ∨ WR h ∈ mirror OTHER (m.route 0 k) := by
  rw [Stacks.mem_pairs]
  cases k <;> simp [Kind.heads] at hh <;> simp [Stacks.pairs,WR,hh]
  tauto

theorem Plumbed.route (hp : Plumbed k s m) (hh : h ∈ k.heads) : Threaded s.qNext (some (WR h)) (m.route h k) := by
  have hhead : (m.route h k).head? = some (WR h) := by cases k <;> simp [Stacks.route]
  rcases m.route_mirror h hh with hr | hr
  · rw [← hhead,hr]
    exact hp.lines.there
  · rw [← hhead,hr]
    exact hp.lines.back

/- The write queue of a stream head leads to another queue. -/
theorem Plumbed.head_next (hp : Plumbed k s m) (hh : h ∈ k.heads) : ∃ y, s.qNext (WR h) = some y := by
  have hr := hp.route hh
  cases k <;> simp only [Stacks.route,List.cons_append] at hr <;>
    exact Option.isSome_iff_exists.mp (by rw [hr.2.head]; simp)

theorem attach_pushcnt : (s.lisQattach h).sdPushcnt = s.sdPushcnt := by
  simp only [lisQattach]
  split <;> rfl

theorem detach_same : (s.lisQdetach n).fresh = s.fresh ∧ (s.lisQdetach n).sdPushcnt = s.sdPushcnt := by
  simp only [lisQdetach]
  split <;> split <;> exact ⟨rfl,rfl⟩

/- The new queue pair is in its place, the rest as before. -/
theorem Plumbed.attached (hp : Plumbed k s m) (hh : h ∈ k.heads) :
    Mirrored OTHER (s.lisQattach h).qNext ((m.route 0 k).flatMap (ins h s.fresh)) ∧ s.fresh ∉ (m.route 0 k).map pair := by
  obtain ⟨y,hy⟩ := hp.head_next hh
  have hf : s.fresh ∉ (m.route 0 k).map pair := by
    rw [hp.fresh]
    exact Stacks.fresh_notMem hp.valid.heads fun j hc => Nat.lt_irrefl _ (hp.valid.range j _ hc).2
  exact ⟨attach_mirrored hp.lines (head_mem hh) hf hy,hf⟩

/-- A step keeps the links as the modules on the stream heads say. -/
theorem step_plumbed (hp : Plumbed k s m) (hs : step k s a = some s') :
    ∃ m', m.step a = some m' ∧ Plumbed k s' m' := by
  cases a with
  | push h openOk =>
    simp only [step,Option.ite_none_right_eq_some] at hs
    obtain ⟨⟨hh,-⟩,hs⟩ := hs
    obtain ⟨hm,hf⟩ := hp.attached hh
    cases openOk with
    | true =>
      obtain rfl := Option.some.inj hs
      refine ⟨_,rfl,?_,?_,Stacks.push_valid hp.valid,?_⟩
      · intro j
        simp only [setPushcnt,attach_pushcnt,Stacks.push]
        by_cases hj : j = h
        · subst hj
          simp [hp.pushcnt j]
        · simp [Function.update_of_ne hj,hp.pushcnt j]
      · exact congrArg (· + 1) hp.fresh
      · rw [Stacks.route_push hp.valid hh,← hp.fresh]
        exact hm
    | false =>
      obtain rfl := Option.some.inj hs
      obtain ⟨h1,h2⟩ := detach_same (s := s.lisQattach h) (n := s.fresh)
      refine ⟨_,rfl,?_,?_,⟨Nat.le_succ_of_le hp.valid.heads,?_,hp.valid.nodup,hp.valid.apart⟩,?_⟩
      · intro j
        rw [h2,attach_pushcnt]
        exact hp.pushcnt j
      · exact h1.trans (congrArg (· + 1) hp.fresh)
      · exact fun j i hi => ⟨(hp.valid.range j i hi).1,Nat.lt_succ_of_lt (hp.valid.range j i hi).2⟩
      · exact detach_mirrored hm (head_mem hh) hf
  | pop h =>
    simp only [step,Option.ite_none_right_eq_some] at hs
    obtain ⟨⟨hh,hcnt⟩,hs⟩ := hs
    obtain ⟨n,l,hl⟩ : ∃ n l, m.mods h = n :: l := by
      rw [hp.pushcnt h] at hcnt
      exact List.exists_cons_of_length_pos (Nat.pos_of_ne_zero hcnt)
    obtain ⟨hvr,hnr⟩ := Stacks.rest_valid hp.valid hl
    have hf : n ∉ ((m.rest h l).route 0 k).map pair :=
      Stacks.fresh_notMem (hp.valid.range h n (hl ▸ List.mem_cons_self ..)).1 hnr
    have hlines := hp.lines
    rw [← Stacks.route_congr (Stacks.rest_push hl),Stacks.route_push hvr hh] at hlines
    rw [(ins_top hlines (head_mem hh)).1] at hs
    obtain rfl := Option.some.inj hs
    obtain ⟨h1,h2⟩ := detach_same (s := s) (n := (WR n).pair)
    refine ⟨m.rest h l,?_,?_,?_,hvr,?_⟩
    · simp only [Stacks.step,hl]
      rfl
    · intro j
      simp only [setPushcnt,h2,Stacks.rest]
      by_cases hj : j = h
      · subst hj
        simp [hp.pushcnt j,hl]
      · simp [Function.update_of_ne hj,hp.pushcnt j]
    · exact h1.trans hp.fresh
    · exact detach_mirrored hlines (head_mem hh) hf

/-- The queues are in push order, lead back as they lead there, and `lis_backq` gives the one that leads to a queue. -/
structure Twisted (k : Kind) (s : Plumbing) (m : Stacks) : Prop where
  route : ∀ h ∈ k.heads, Threaded s.qNext (some (WR h)) (m.route h k)
  visits : ∀ x, x.pair ∈ m.pairs k → x ∈ m.route 0 k ∨ x.OTHER ∈ m.route 0 k
  fifo : k = .fifo → ∀ x, x.pair ∈ m.pairs k → x ∈ m.route 0 k
  other : ∀ x y, x.pair ∈ m.pairs k → s.qNext x = some y → y.pair ∈ m.pairs k ∧ s.qNext y.OTHER = some x.OTHER
  backq : ∀ x y, y.pair ∈ m.pairs k → (s.lisBackq y = some x ↔ x.pair ∈ m.pairs k ∧ s.qNext x = some y)
  unique : ∀ x y z, x.pair ∈ m.pairs k → z.pair ∈ m.pairs k → s.qNext x = some y → s.qNext z = some y → z = x

theorem Plumbed.twisted (hp : Plumbed k s m) : Twisted k s m := by
  have hlaw : ∀ x y, x.pair ∈ m.pairs k → s.qNext x = some y →
      y.pair ∈ m.pairs k ∧ s.qNext y.OTHER = some x.OTHER := by
    intro x y hx hn
    rw [← Stacks.mem_pairs] at hx ⊢
    exact ⟨hp.lines.next_mem other_involutive hx hn,hp.lines.next_other other_involutive hx hn⟩
  refine ⟨fun h hh => hp.route hh,?_,?_,hlaw,?_,?_⟩
  · intro x hx
    rw [← Stacks.mem_pairs,mem_mirror other_involutive] at hx
    exact hx
  · rintro rfl x hx
    rw [← Stacks.mem_pairs] at hx
    rw [Stacks.mirror_fifo,or_self] at hx
    exact hx
  · intro x y hy
    constructor
    · intro hb
      simp only [lisBackq] at hb
      split at hb
      · cases hb
      next nq hnq =>
        obtain rfl := Option.some.inj hb
        obtain ⟨hpair,hback⟩ := hlaw y.OTHER nq hy hnq
        split_ifs with h1
        · exact ⟨hy,h1 ▸ hnq⟩
        · exact ⟨hpair,by rw [hback,other_involutive y]⟩
    · rintro ⟨hx,hn⟩
      rw [lisBackq,(hlaw x y hx hn).2]
      simp only [Option.some.injEq]
      split_ifs with h1
      · rw [← h1,other_involutive x]
      · exact other_involutive x
  · intro x y z hx hz hxy hzy
    rw [← Stacks.mem_pairs] at hx hz
    exact hp.lines.next_inj other_involutive hx hz hxy hzy

/-- After every run of pushes and pops. -/
theorem run_twisted {maxpushcnt : ℕ → ℕ} {as : List PlumbAct} (h : exec (step k) (init maxpushcnt k) as = some s) :
    ∃ m, exec Stacks.step Stacks.init as = some m ∧ Twisted k s m := by
  obtain ⟨m,hm,hp⟩ := exec_simulates (fun _ _ _ _ => step_plumbed) (init_plumbed k maxpushcnt) h
  exact ⟨m,hm,hp.twisted⟩

/- Both ends of a pipe, with a push that fails. -/
theorem run_twisted_pipe : ∃ s, exec (step .pipe) (init (fun _ => 0) .pipe)
    [.push 0 true,.push 1 true,.push 0 false,.push 0 true,.pop 1,.push 1 true,.pop 0] = some s ∧
    ∃ m, exec Stacks.step Stacks.init
      [.push 0 true,.push 1 true,.push 0 false,.push 0 true,.pop 1,.push 1 true,.pop 0] = some m ∧ Twisted .pipe s m :=
  Exists.imp (fun _ hs => ⟨hs,run_twisted hs⟩) (Option.isSome_iff_exists.mp rfl)

/- The read queues of a stream with a driver are not reached from the write queue of its head. -/
theorem read_side_not_visited : ¬ ∀ k maxpushcnt as s m, exec (step k) (init maxpushcnt k) as = some s →
    exec Stacks.step Stacks.init as = some m → ∀ h ∈ k.heads, ∃ l, Threaded s.qNext (some (WR h)) l ∧
      ∀ q, q.pair ∈ m.pairs k → q ∈ l := by
  intro h
  obtain ⟨l,hl,hq⟩ := h .plain (fun _ => 0) [] _ _ rfl rfl 0 (List.mem_singleton_self _)
  have htwo : Threaded (init (fun _ => 0) .plain).qNext (some (WR 0)) [WR 0,WR 1] := ⟨rfl,rfl,rfl⟩
  obtain rfl := hl.unique htwo
  exact absurd (hq (RD 0) (List.mem_cons_self ..)) (by decide)

end Plumbing

end CSLiS.Stream
