import CSLiS.Buffer.TaskSteps

/-!
# The calls one after the other (head/msg.c, head/msgutl.c)

What a call does when no other task runs in between.
-/

namespace CSLiS.Buffer.Tasks
open Queue Lib.Crew Lib.Exec

variable {buf : ℕ → Buf} {s s' : Shared} {t t' : Task} {i x n j k m : ℕ} {h : Handle} {newbp : Option ℕ}
  {H : Multiset Handle} {cs : List Op} {a z : List Out} {o : Out} {key : Key} {pc : Pc} {r : ℕ → ℕ}

theorem settle_idle (ht : t.pc = .idle) (k : ℕ) : settle buf k s t = (s,t) := by
  cases k with
  | zero => rfl
  | succ k => simp [settle,ht]

/- In at most `k` steps the task has nothing to do any more, and each buffer `x` is released `r x` times. -/
def Runs (buf : ℕ → Buf) (k : ℕ) (s : Shared) (t t' : Task) (r : ℕ → ℕ) : Prop :=
  t'.pc = .idle ∧ ∃ s', (∀ m, k ≤ m → settle buf m s t = (s',t')) ∧ (∀ x, s'.got x = s.got x) ∧
    ∀ x, s'.released.count x = s.released.count x + r x

theorem Runs.here (ht : t.pc = .idle) : Runs buf 0 s t t fun _ => 0 :=
  ⟨ht,s,fun m _ => settle_idle ht m,fun _ => rfl,fun _ => rfl⟩

theorem Runs.mono {q : ℕ → ℕ} (h : Runs buf k s t t' r) (hkm : k ≤ m) (hq : ∀ x, r x = q x) :
    Runs buf m s t t' q := by
  obtain ⟨hpc,s',hs,hg,hr⟩ := h
  exact ⟨hpc,s',fun m' hm' => hs m' (hkm.trans hm'),hg,fun x => hq x ▸ hr x⟩

/- A step of its own that gives back `q`. -/
theorem Runs.next {s₁ : Shared} {t₁ : Task} {q : ℕ → ℕ} (hadv : advance buf s t = (s₁,t₁)) (ht : t.pc ≠ .idle)
    (hg : ∀ x, s₁.got x = s.got x) (hq : ∀ x, s₁.released.count x = s.released.count x + q x)
    (h : Runs buf k s₁ t₁ t' r) : Runs buf (k + 1) s t t' fun x => q x + r x := by
  obtain ⟨hpc,s',hs,hg',hr⟩ := h
  refine ⟨hpc,s',fun m hm => ?_,fun x => (hg' x).trans (hg x),fun x => ?_⟩
  · obtain ⟨m,rfl⟩ := Nat.exists_eq_add_of_le' hm
    rw [show m + (k + 1) = (m + k) + 1 from rfl,settle,if_neg ht,hadv]
    exact hs _ (Nat.le_add_left ..)
  · rw [hr x,hq x,Nat.add_assoc]

/- A step that gives nothing back. -/
theorem Runs.quiet {s₁ : Shared} {t₁ : Task} (h : Runs buf k s₁ t₁ t' r) (hadv : advance buf s t = (s₁,t₁))
    (ht : t.pc ≠ .idle) (hg : ∀ x, s₁.got x = s.got x) (hq : s₁.released = s.released) : Runs buf (k + 1) s t t' r := by
  have := h.next (q := fun _ => 0) hadv ht hg fun x => by rw [hq,Nat.add_zero]
  simpa using this

theorem out_got (s : Shared) (o : Out) : (s.out o).got x = s.got x := by cases o <;> rfl

/- Giving back one after the other. -/
theorem Runs.outs (h : ∀ s : Shared, Runs buf k s ⟨H,.run [] key z,cs⟩ t' r) :
    Runs buf (k + a.length) s ⟨H,.run a key z,cs⟩ t' fun x => outs .rels a x + r x := by
  induction a generalizing s with
  | nil => simpa [Tasks.outs] using h s
  | cons o a ih =>
    have hadv : advance buf s ⟨H,.run (o :: a) key z,cs⟩ = (s.out o,⟨H,.run a key z,cs⟩) := by
      simp [advance,Tasks.next]
    have hcount : ∀ x, (s.out o).released.count x = s.released.count x + Tasks.outs .rels [o] x := by
      intro x
      cases o <;> simp [Shared.out,Tasks.outs,List.count_cons]
    refine ((ih (s := s.out o)).next hadv (fun hc => by cases hc) (fun x => out_got s o) hcount).mono (le_refl _) ?_
    intro x
    cases o with
    | buffer y =>
      simp [Tasks.outs,List.count_cons]
      omega
    | header y => simp [Tasks.outs]

theorem runs_done : Runs buf (a.length + 1) s ⟨H,.run a .done [],cs⟩ ⟨H,.idle,cs⟩ (outs .rels a) := by
  have hlast : ∀ s : Shared, Runs buf 1 s ⟨H,.run [] .done [],cs⟩ ⟨H,.idle,cs⟩ fun _ => 0 := fun s =>
    (Runs.here rfl).quiet (by simp [advance,Tasks.next]) (fun hc => by cases hc) (fun _ => rfl) rfl
  exact (Runs.outs hlast).mono (by omega) fun x => rfl

theorem runs_test0 {b : ℕ} :
    Runs buf (z.length + 3) s ⟨H,.run [] (.test0 b) z,cs⟩ ⟨H,.idle,cs⟩ (outs .rels z) := by
  have hadv : advance buf s ⟨H,.run [] (.test0 b) z,cs⟩ =
      (s,⟨H,.run (if s.ref b = 0 then .header b :: z else z) .done [],cs⟩) := by
    simp [advance,Tasks.next]
  refine (runs_done.quiet hadv (fun hc => by cases hc) (fun _ => rfl) rfl).mono ?_ fun x => ?_
  · split_ifs <;> simp
  · split_ifs <;> simp [outs]

theorem runs_own {b d : ℕ} :
    Runs buf (z.length + 5) s ⟨H,.run [] (.ownPos b d) z,cs⟩ ⟨H,.idle,cs⟩ (outs .rels z) := by
  by_cases hb : s.ref b = 0
  · have hadv : advance buf s ⟨H,.run [] (.ownPos b d) z,cs⟩ = (s,⟨H,.run [] (.test0 b) z,cs⟩) := by
      simp [advance,Tasks.next,hb]
    refine (runs_test0.quiet hadv (fun hc => by cases hc) (fun _ => rfl) rfl).mono ?_ fun _ => rfl
    omega
  · have hadv : advance buf s ⟨H,.run [] (.ownPos b d) z,cs⟩ = (s,⟨H,.run [] (.decOwn b d) z,cs⟩) := by
      simp [advance,Tasks.next,hb]
    have hdec : advance buf s ⟨H,.run [] (.decOwn b d) z,cs⟩ = (s.dec b,⟨H,.run [] (.test0 b) z,cs⟩) := by
      simp [advance,Tasks.next]
    have h1 := (@runs_test0 buf (s.dec b) H cs z b).quiet hdec (fun hc => by cases hc) (fun _ => rfl) rfl
    exact h1.quiet hadv (fun hc => by cases hc) (fun _ => rfl) rfl

theorem runs_swap : Runs buf (z.length + 2) s ⟨H,.run [] (.swap m n) z,cs⟩ ⟨H + {⟨m,n⟩},.idle,cs⟩ (outs .rels z) := by
  have hadv : advance buf s ⟨H,.run [] (.swap m n) z,cs⟩ = (s,⟨H + {⟨m,n⟩},.run z .done [],cs⟩) := by
    simp [advance,Tasks.next]
  exact runs_done.quiet hadv (fun hc => by cases hc) (fun _ => rfl) rfl

theorem runs_incRef :
    Runs buf (z.length + 3) s ⟨H,.run [] (.incRef m n) z,cs⟩ ⟨H + {⟨m,n⟩},.idle,cs⟩ (outs .rels z) := by
  have hadv : advance buf s ⟨H,.run [] (.incRef m n) z,cs⟩ = (s.inc m,⟨H,.run z (.swap m n) [],cs⟩) := by
    simp [advance,Tasks.next]
  have hswap : ∀ s : Shared, Runs buf 2 s ⟨H,.run [] (.swap m n) [],cs⟩ ⟨H + {⟨m,n⟩},.idle,cs⟩ (outs .rels []) :=
    fun s => runs_swap.mono (le_refl _) fun _ => rfl
  refine ((Runs.outs hswap).quiet hadv (fun hc => by cases hc) (fun _ => rfl) rfl).mono ?_ fun x => ?_
  · omega
  · simp [outs]

/- The blocks that a task has when lis_freedb and its caller are done with `h`. -/
def gains (h : Handle) : Option ℕ → Multiset Handle
  | none => 0
  | some newbp => {⟨h.bp,newbp⟩}

/- The buffer that is released when the last reference to the data block is given up. -/
def bufferOf (buf : ℕ → Buf) (d x : ℕ) : ℕ := if buf d = .inside then 0 else ind d x

theorem runs_zeroed : Runs buf 8 s ⟨H,zeroed buf h newbp,cs⟩ ⟨H + gains h newbp,.idle,cs⟩
    (bufferOf buf h.datap) := by
  obtain ⟨b,d⟩ := h
  unfold zeroed
  dsimp only
  generalize hf : (if buf d = .user then [Out.buffer d] else []) = f
  generalize hz : (if buf d = .separate then [Out.buffer d] else []) = z
  have hlen : f.length + z.length ≤ 1 := by
    subst hf hz
    cases hb : buf d <;> simp
  have hrels : ∀ x, outs .rels f x + outs .rels z x = bufferOf buf d x := by
    intro x
    subst hf hz
    cases hb : buf d <;> simp [outs,bufferOf,hb,ind,List.count_cons]
  have hsplit : ∀ x, outs .rels (f ++ .header d :: z) x = bufferOf buf d x := by
    intro x
    have := hrels x
    simp only [outs] at this
    simp [outs,this]
  cases newbp with
  | none =>
    simp only [gains,add_zero]
    split_ifs with hdb
    · exact (Runs.outs fun s => runs_test0).mono (by omega) hrels
    · refine (Runs.outs fun s => runs_own).mono ?_ fun x => ?_
      · simp
        omega
      · rw [← hrels x]
        simp [outs]
  | some n =>
    simp only [gains]
    split_ifs with hdb
    · exact (Runs.outs fun s => runs_incRef).mono (by omega) hrels
    · refine (Runs.outs fun s => runs_swap).mono ?_ fun x => ?_
      · simp
        omega
      · rw [← hsplit x]
        simp [outs]

theorem runs_commit {s₁ : Shared} (hc : Commit buf s h newbp s₁ pc) :
    Runs buf 8 s₁ ⟨H,pc,cs⟩ ⟨H + gains h newbp,.idle,cs⟩
      fun x => if (s.ref h.datap).val = 1 then bufferOf buf h.datap x else 0 := by
  have hnone : 1 < (s.ref h.datap).val → ∀ x, 0 = if (s.ref h.datap).val = 1 then bufferOf buf h.datap x else 0 :=
    fun h1 x => (if_neg (by omega)).symm
  cases hc with
  | zero h1 => exact runs_zeroed.mono (le_refl _) fun x => (if_pos h1).symm
  | more hk hd h1 =>
    subst hk
    rw [gains,add_zero]
    exact runs_done.mono (by simp) (hnone h1)
  | own hk hd h1 =>
    subst hk
    rw [gains,add_zero]
    refine runs_done.mono ?_ fun x => ?_
    · split_ifs <;> simp
    · rw [← hnone h1 x]
      split_ifs <;> simp [outs]
  | keep n hk hd h1 | lose n hk hd h1 =>
    subst hk
    exact runs_swap.mono (by simp) (hnone h1)

theorem commit_same {s₁ : Shared} (hc : Commit buf s h newbp s₁ pc) :
    (∀ x, s₁.got x = s.got x) ∧ s₁.released = s.released := by
  cases hc <;> exact ⟨fun _ => rfl,rfl⟩

/- A whole call of lis_freedb for a block in use. -/
theorem runs_call (hd : (s.ref h.datap).val ≠ 0) (hb : (s.ref h.bp).val ≠ 0) :
    Runs buf 16 s ⟨H,.call h newbp,cs⟩ ⟨H + gains h newbp,.idle,cs⟩
      fun x => if (s.ref h.datap).val = 1 then bufferOf buf h.datap x else 0 := by
  have hcall : advance buf s ⟨H,.call h newbp,cs⟩ = (s,⟨H,.enter h newbp (decide (s.ref h.datap ≠ 1)),cs⟩) := by
    simp [advance,Tasks.next]
  suffices hin : Runs buf 15 s ⟨H,.enter h newbp (decide (s.ref h.datap ≠ 1)),cs⟩ ⟨H + gains h newbp,.idle,cs⟩
      fun x => if (s.ref h.datap).val = 1 then bufferOf buf h.datap x else 0 from
    hin.quiet hcall (fun hc => by cases hc) (fun _ => rfl) rfl
  by_cases h1 : s.ref h.datap = 1
  · have hv : (s.ref h.datap).val = 1 := Mem.uchar_val_one.mp h1
    have hz : (s.dec h.datap).ref h.datap = 0 := by
      have := dec_val hd h.datap
      rw [ind_self] at this
      exact val_zero.mpr (by omega)
    have henter : advance buf s ⟨H,.enter h newbp false,cs⟩ = (s,⟨H,.dec h newbp,cs⟩) := by
      have hne : s.ref h.datap ≠ 0 := fun hc => hd (val_zero.mp hc)
      simp [advance,Tasks.next,hne]
    have hdec : advance buf s ⟨H,.dec h newbp,cs⟩ = (s.dec h.datap,⟨H,zeroed buf h newbp,cs⟩) := by
      simp [advance,Tasks.next,hz]
    have hzero := (runs_commit (.zero hv)).quiet hdec (fun hc => by cases hc) (fun _ => rfl) rfl
    simp only [h1,ne_eq,not_true_eq_false,decide_false]
    exact (hzero.quiet henter (fun hc => by cases hc) (fun _ => rfl) rfl).mono (by omega) fun x => by simp only [h1]
  · have hc : Commit buf s h newbp (locked buf s h newbp).1 (locked buf s h newbp).2 := locked_commit hd hb
    have henter : advance buf s ⟨H,.enter h newbp true,cs⟩ =
        ((locked buf s h newbp).1,⟨H,(locked buf s h newbp).2,cs⟩) := by
      simp [advance,Tasks.next]
    obtain ⟨hg,hr⟩ := commit_same hc
    simp only [h1,ne_eq,not_false_eq_true,decide_true]
    exact ((runs_commit hc).quiet henter (fun hc => by cases hc) hg hr).mono (by omega) fun _ => rfl

/- The section of lis_dupb. -/
theorem runs_dup {mp : Handle} {bp : ℕ} :
    Runs buf 1 s ⟨H,.dup mp bp,cs⟩ ⟨H + {mp,⟨bp,mp.datap⟩},.idle,cs⟩ fun _ => 0 := by
  have hadv : advance buf s ⟨H,.dup mp bp,cs⟩ = (s.inc mp.datap,⟨H + {mp,⟨bp,mp.datap⟩},.idle,cs⟩) := by
    simp [advance,Tasks.next]
  exact (Runs.here rfl).quiet hadv (fun hc => by cases hc) (fun _ => rfl) rfl

/-! ### The tallies -/

/- What comes next is never the section of lis_dupb. -/
theorem next_dup {mp : Handle} {bp : ℕ} : (next buf s pc).2.1 ≠ .dup mp bp := by
  have hafter : ∀ h newbp, after h newbp ≠ .dup mp bp := by
    intro h newbp
    cases newbp <;> exact fun hc => by cases hc
  have hzeroed : ∀ h newbp, zeroed buf h newbp ≠ .dup mp bp := by
    intro h newbp
    cases newbp <;> unfold zeroed <;> dsimp only <;> split_ifs <;> exact fun hc => by cases hc
  cases pc with
  | idle => exact fun hc => by cases hc
  | dup => exact fun hc => by cases hc
  | call => exact fun hc => by cases hc
  | enter h newbp l =>
    cases l with
    | false =>
      simp only [next]
      split_ifs
      · exact hafter h newbp
      · exact fun hc => by cases hc
    | true =>
      simp only [next,locked]
      split_ifs
      · exact hafter h newbp
      · exact hzeroed h newbp
      · exact fun hc => by cases hc
      · exact fun hc => by cases hc
      · exact hafter h newbp
      · exact hafter h newbp
  | dec h newbp =>
    simp only [next]
    split_ifs
    · exact hzeroed h newbp
    · cases newbp <;> simp only [unlocked] <;> split_ifs <;> exact fun hc => by cases hc
  | run a key z =>
    cases a with
    | cons o a => exact fun hc => by cases hc
    | nil =>
      cases key with
      | done => cases z <;> exact fun hc => by cases hc
      | _ => exact fun hc => by cases hc

theorem settle_inv (k : ℕ) (sh : Shared) (t : Task) (l : List Task) (hinv : State.Inv ⟨sh,l⟩) (hi : l[i]? = some t)
    (hidle : ∀ j u, l[j]? = some u → j ≠ i → u.pc = .idle)
    (hdup : ∀ mp bp, t.pc = .dup mp bp → sh.ref mp.datap ≠ 255) :
    State.Inv ⟨(settle buf k sh t).1,l.set i (settle buf k sh t).2⟩ := by
  have hsame : l.set i t = l := by
    obtain ⟨hlt,rfl⟩ := List.getElem?_eq_some_iff.mp hi
    exact List.set_getElem_self hlt
  induction k generalizing sh t l with
  | zero =>
    rw [settle,hsame]
    exact hinv
  | succ k ih =>
    by_cases ht : t.pc = .idle
    · rw [settle_idle ht,hsame]
      exact hinv
    have hno : ∀ x, (¬ t.pc.tests x) → ∀ u ∈ l, ¬ u.pc.tests x := by
      intro x hx u hu
      obtain ⟨j,hj⟩ := List.getElem?_of_mem hu
      by_cases hji : j = i
      · subst hji
        exact Option.some.inj (hi.symm.trans hj) ▸ hx
      · rw [hidle j u hj hji]
        exact fun hc => hc
    have hguard : Guard ⟨sh,l⟩ (.advance i) := by
      intro u hu
      obtain rfl := Option.some.inj (hi.symm.trans (Option.mem_def.mp hu))
      cases hpc : t.pc with
      | dup mp bp => exact hdup mp bp hpc
      | enter h newbp l =>
        cases l with
        | true => exact fun _ => hno _ (by rw [hpc]; exact fun hc => hc)
        | false => trivial
      | dec h newbp => exact fun _ => hno _ (by rw [hpc]; exact fun hc => hc)
      | _ => trivial
    have hstep := @Inv.advance buf ⟨sh,l⟩ t i hinv hi hguard
    have hlt : i < l.length := (List.getElem?_eq_some_iff.mp hi).1
    have := ih (advance buf sh t).1 (advance buf sh t).2 _ hstep (List.getElem?_set_self hlt) ?_ ?_ (List.set_set ..)
    · rw [List.set_set] at this
      rw [settle,if_neg ht]
      exact this
    · intro j u hu hne
      rw [List.getElem?_set_ne (Ne.symm hne)] at hu
      exact hidle j u hu hne
    · intro mp bp hc
      exact absurd hc next_dup

/- A whole call of a task while the others have nothing to do. -/
theorem whole_call {st : State} {op : Op} {sh : Shared} {u : Task} (hinv : st.Inv)
    (hidle : ∀ v ∈ st.tasks, v.pc = .idle) (hi : st.tasks[i]? = some u)
    (hstart : st.start buf i op = some ⟨sh,st.tasks.set i t⟩)
    (hdup : ∀ mp bp, t.pc = .dup mp bp → sh.ref mp.datap ≠ 255) (hr : Runs buf 16 sh t t' r) :
    ∃ sh', st.whole buf (i,op) = some ⟨sh',st.tasks.set i t'⟩ ∧ State.Inv ⟨sh',st.tasks.set i t'⟩ ∧
      (∀ x, sh'.got x = sh.got x) ∧ ∀ x, sh'.released.count x = sh.released.count x + r x := by
  obtain ⟨-,sh',hs,hg,hrel⟩ := hr
  have hlt : i < st.tasks.length := (List.getElem?_eq_some_iff.mp hi).1
  have hset : (st.tasks.set i t)[i]? = some t := List.getElem?_set_self hlt
  refine ⟨sh',?_,?_,hg,hrel⟩
  · simp [State.whole,hstart,hset,hs 16 (le_refl _)]
  · have := @settle_inv buf i 16 sh t _ (start_inv hinv hstart) hset (fun j v hv hne => ?_) hdup
    · rw [List.set_set,hs 16 (le_refl _)] at this
      exact this
    · rw [List.getElem?_set_ne (Ne.symm hne)] at hv
      exact hidle v (List.mem_of_getElem? hv)

end CSLiS.Buffer.Tasks
