import CSLiS.Buffer.TaskCounts

/-!
# Every step of a task keeps the tallies (head/msg.c, head/msgutl.c)
-/

namespace CSLiS.Buffer.Tasks
open Queue Lib.Crew Lib.Exec

variable {buf : ℕ → Buf} {s : State} {sh : Shared} {t t' : Task} {i x d n : ℕ} {c : Tally} {h : Handle}
  {newbp : Option ℕ} {hs : Multiset Handle} {l : Bool} {a z : List Out} {o : Out} {key : Key} {pc : Pc}

/-! ### What lis_freedb does to the counts -/

/- The key that is left when a count has become 0. -/
def zeroedKey (h : Handle) : Option ℕ → Key
  | none => if h.datap = h.bp then .test0 h.bp else .ownPos h.bp h.datap
  | some newbp => if h.datap = h.bp then .incRef h.bp newbp else .swap h.bp newbp

/- The header of the data block is given back, if it is not that of the block, and the buffer, if it is outside. -/
theorem zeroed_has : (zeroed buf h newbp).has c x = (zeroedKey h newbp).has c x +
    match c with
    | .frees => if h.datap = h.bp then 0 else ind h.datap x
    | .rels => if buf h.datap = .inside then 0 else ind h.datap x
    | _ => 0 := by
  obtain ⟨b,d⟩ := h
  rcases eq_or_ne d b with rfl | hd
  · cases newbp <;> cases hb : buf d <;> cases c <;>
      simp [zeroed,zeroedKey,hb,Pc.has,outs,Key.has,List.count_cons,ind]
  · cases newbp <;> cases hb : buf d <;> cases c <;>
      simp [zeroed,zeroedKey,hd,hb,Pc.has,outs,Key.has,List.count_cons,ind]

/-- What `lis_freedb` does with the count of a block that is in use, whether it has taken the lock or has the only
reference. -/
inductive Commit (buf : ℕ → Buf) (s : Shared) (h : Handle) (newbp : Option ℕ) : Shared → Pc → Prop
  | zero (h1 : (s.ref h.datap).val = 1) : Commit buf s h newbp (s.dec h.datap) (zeroed buf h newbp)
  | more (hk : newbp = none) (hd : h.datap = h.bp) (h1 : 1 < (s.ref h.datap).val) :
      Commit buf s h newbp (s.dec h.datap) (.run [] .done [])
  | own (hk : newbp = none) (hd : h.datap ≠ h.bp) (h1 : 1 < (s.ref h.datap).val) :
      Commit buf s h newbp ((s.dec h.datap).dec h.bp)
        (.run (if (s.ref h.bp).val = 1 then [.header h.bp] else []) .done [])
  | keep (n : ℕ) (hk : newbp = some n) (hd : h.datap = h.bp) (h1 : 1 < (s.ref h.datap).val) :
      Commit buf s h newbp s (.run [] (.swap h.bp n) [])
  | lose (n : ℕ) (hk : newbp = some n) (hd : h.datap ≠ h.bp) (h1 : 1 < (s.ref h.datap).val) :
      Commit buf s h newbp (s.dec h.datap) (.run [] (.swap h.bp n) [])

theorem dec_inc {s : Shared} (x : ℕ) : (s.dec x).inc x = s := by
  simp [Shared.dec,Shared.inc]

theorem locked_commit {s : Shared} (hd : (s.ref h.datap).val ≠ 0) (hb : (s.ref h.bp).val ≠ 0) :
    Commit buf s h newbp (locked buf s h newbp).1 (locked buf s h newbp).2 := by
  have hval := dec_val (s := s) hd h.datap
  rw [ind_self] at hval
  unfold locked
  rw [if_neg fun hc => hd (val_zero.mp hc)]
  dsimp only
  by_cases h0 : (s.dec h.datap).ref h.datap = 0
  · rw [if_pos h0]
    have := val_zero.mp h0
    exact .zero (by omega)
  rw [if_neg h0]
  have h1 : 1 < (s.ref h.datap).val := by
    have : ((s.dec h.datap).ref h.datap).val ≠ 0 := fun hc => h0 (val_zero.mpr hc)
    omega
  cases newbp with
  | none =>
    by_cases hdb : h.datap = h.bp
    · rw [if_neg fun hc => hc.2.1 hdb,if_neg fun hc => hc.1 rfl]
      exact .more rfl hdb h1
    · have hown := dec_val (s := s) hd h.bp
      rw [ind_ne hdb] at hown
      have hb' : ((s.dec h.datap).ref h.bp).val ≠ 0 := by omega
      have hdec := dec_val (s := s.dec h.datap) hb' h.bp
      rw [ind_self] at hdec
      rw [if_pos ⟨rfl,hdb,fun hc => hb' (val_zero.mp hc)⟩]
      have hiff : ((s.dec h.datap).dec h.bp).ref h.bp = 0 ↔ (s.ref h.bp).val = 1 := by
        rw [val_zero]
        omega
      have := @Commit.own buf s h none rfl hdb h1
      dsimp only
      by_cases h2 : (s.ref h.bp).val = 1
      · rw [if_pos (hiff.mpr h2)]
        rw [if_pos h2] at this
        exact this
      · rw [if_neg fun hc => h2 (hiff.mp hc)]
        rw [if_neg h2] at this
        exact this
  | some n =>
    rw [if_neg fun hc => by cases hc.1]
    by_cases hdb : h.datap = h.bp
    · rw [if_pos ⟨Option.some_ne_none n,hdb⟩,dec_inc]
      exact .keep n rfl hdb h1
    · rw [if_neg fun hc => hdb hc.2]
      exact .lose n rfl hdb h1

/-! ### Steps -/

/- Tallies `T` become `T'` when a share `p` of one task becomes `p'`. -/
structure Moved (T T' p p' : Tally → ℕ) : Prop where
  net : T' .net + p .net = T .net + p' .net
  use : T' .use + p .use = T .use + p' .use
  head : T' .head + p .head = T .head + p' .head
  tests : T' .tests + p .tests = T .tests + p' .tests
  raise : T' .raise + p .raise = T .raise + p' .raise
  early : T' .early + p .early = T .early + p' .early
  fresh : T' .fresh + p .fresh = T .fresh + p' .fresh
  frees : T' .frees + p .frees = T .frees + p' .frees
  rels : T' .rels + p .rels = T .rels + p' .rels

theorem moved (hi : s.tasks[i]? = some t) (hs : Multiset Handle) (sh : Shared) (pc : Pc) (x : ℕ) :
    Moved (fun c => s.has c x)
      (fun c => State.has c ⟨sh,s.tasks.set i { t with handles := t.handles + hs, pc := pc }⟩ x)
      (fun c => t.pc.has c x) fun c => pc.has c x + handlesHave c hs x := by
  have hm : ∀ c, State.has c ⟨sh,s.tasks.set i { t with handles := t.handles + hs, pc := pc }⟩ x + t.pc.has c x =
      s.has c x + (pc.has c x + handlesHave c hs x) := by
    intro c
    have := has_set hi sh { t with handles := t.handles + hs, pc := pc } c x
    simp only [Task.has,handlesHave_add] at this
    omega
  exact ⟨hm .net,hm .use,hm .head,hm .tests,hm .raise,hm .early,hm .fresh,hm .frees,hm .rels⟩

theorem pc_le (hi : s.tasks[i]? = some t) : t.pc.has c x ≤ s.has c x :=
  le_trans (Nat.le_add_left ..) (has_le hi)

theorem pc_share (h : s.Inv) (hi : s.tasks[i]? = some t) : t.pc.has .net x ≤ (s.sh.ref x).val :=
  (h.good x).ref ▸ pc_le hi

/- A header in which the task has a share was given out. -/
theorem pc_got (h : s.Inv) (hi : s.tasks[i]? = some t) (hn : 1 ≤ t.pc.has .net x) : s.sh.got x = 1 := by
  have := (h.good x).unused
  have := pc_share h hi (x := x)
  have := got_le s.sh (x := x)
  omega

theorem pc_known (h : s.Inv) (hi : s.tasks[i]? = some t) (hn : t.pc.has .fresh x < t.pc.has .net x) :
    s.has .fresh x = 0 := by
  refine (h.good x).known hi ?_
  have h0 : handlesHave .fresh t.handles x = 0 := by simp [handlesHave,Handle.has]
  simp only [Task.has,h0]
  omega

/- What is known at `x` of the block that is given up. -/
structure Given (s : State) (h : Handle) (x : ℕ) : Prop where
  datap : ind h.datap x = 1 → s.has .fresh x = 0 ∧ 1 ≤ s.has .use x ∧ s.sh.got x = 1
  bp : ind h.bp x = 1 → s.has .tests x = 0 ∧ s.has .fresh x = 0 ∧ s.sh.got x = 1

/- The new block of a pull-up is neither that of the message nor the one it refers to. -/
theorem new_apart (hinv : s.Inv) (hi : s.tasks[i]? = some t)
    (hpc : ∀ c x, t.pc.has c x = h.has c x + newHas c newbp x) : ∀ n, newbp = some n → n ≠ h.bp ∧ n ≠ h.datap := by
  rintro n rfl
  constructor
  · rintro rfl
    have hheads := (hinv.good h.bp).heads
    have hle := pc_le hi (c := .head) (x := h.bp)
    have := got_le s.sh (x := h.bp)
    simp [hpc,Handle.has,newHas] at hle
    omega
  · rintro rfl
    have hf := pc_le hi (c := .fresh) (x := h.datap)
    have hs := pc_share hinv hi (x := h.datap)
    simp [hpc,Handle.has,newHas] at hf hs
    have h1 := (hinv.good h.datap).fresh (by omega)
    omega

theorem given (hinv : s.Inv) (hi : s.tasks[i]? = some t) (hpc : ∀ c x, t.pc.has c x = h.has c x + newHas c newbp x)
    (x : ℕ) : Given s h x := by
  have hnet := handle_net h
  have hapart := new_apart hinv hi hpc
  have hknown : ∀ y, (∀ n, newbp = some n → n ≠ y) → 1 ≤ t.pc.has .net y → s.has .fresh y = 0 := by
    intro y hy hn
    refine pc_known hinv hi (lt_of_lt_of_le ?_ hn)
    rw [hpc]
    cases newbp with
    | none => simp [Handle.has,newHas]
    | some n => simp [Handle.has,newHas,ind_ne (hy n rfl)]
  constructor
  · intro hx
    obtain rfl := ind_eq hx
    have hd : 1 ≤ t.pc.has .net h.datap := by rw [hpc]; omega
    have huse : 1 ≤ t.pc.has .use h.datap := by simp [hpc,Handle.has]
    exact ⟨hknown _ (fun n hn => (hapart n hn).2) hd,le_trans huse (pc_le hi),pc_got hinv hi hd⟩
  · intro hx
    obtain rfl := ind_eq hx
    have hb : 1 ≤ t.pc.has .net h.bp := by rw [hpc]; omega
    have hhead : 1 ≤ t.pc.has .head h.bp := by simp [hpc,Handle.has]
    have hheads := (hinv.good h.bp).heads
    have hle := pc_le hi (c := .head) (x := h.bp)
    have := got_le s.sh (x := h.bp)
    exact ⟨by omega,hknown _ (fun n hn => (hapart n hn).1) hb,pc_got hinv hi hb⟩

/- A header with a count was given out and not given back, and no call has given it up. -/
theorem State.Good.live (hg : s.Good x) (hr : (s.sh.ref x).val ≠ 0) : s.sh.freed.count x = 0 ∧ s.has .frees x = 0 ∧
    s.has .raise x = 0 ∧ s.has .early x = 0 ∧ s.sh.got x = 1 := by
  have ha := hg.alive hr
  have he := hg.early
  have hu := hg.unused
  have := got_le s.sh (x := x)
  refine ⟨by omega,by omega,by omega,by omega,by omega⟩

theorem State.Good.quiet (hg : s.Good x) (hu : 1 ≤ s.has .use x) : s.sh.released.count x = 0 ∧ s.has .rels x = 0 := by
  have := hg.inUse hu
  omega

/- A share that is as it was, but for what nobody refers to or has any more. The count takes `k` less, and `f` and `r`
are given back. -/
structure Kept (k f r : ℕ) (p p' : Tally → ℕ) : Prop where
  net : p' .net + k = p .net
  use : p' .use ≤ p .use
  head : p' .head ≤ p .head
  tests : p' .tests = p .tests
  raise : p' .raise = p .raise
  early : p' .early ≤ p .early
  fresh : p' .fresh ≤ p .fresh
  frees : p' .frees + f = p .frees
  rels : p' .rels + r = p .rels

/- A step that leaves `x` in use if it takes something off its count. -/
theorem State.Good.kept (hg : s.Good x) {s' : State} {k f r : ℕ} {p p' : Tally → ℕ}
    (hm : Moved (fun c => s.has c x) (fun c => s'.has c x) p p') (hk : Kept k f r p p')
    (hr : (s'.sh.ref x).val + k = (s.sh.ref x).val) (hlive : k = 0 ∨ (s'.sh.ref x).val ≠ 0 ∧ s.has .fresh x = 0)
    (hu : s'.sh.got x = s.sh.got x) (hF : s'.sh.freed.count x = s.sh.freed.count x + f)
    (hR : s'.sh.released.count x = s.sh.released.count x + r) : s'.Good x := by
  obtain ⟨h1,h2,h3,h4,h5,h6,h7,h8,h9⟩ := hm
  obtain ⟨k1,k2,k3,k4,k5,k6,k7,k8,k9⟩ := hk
  have htests : s'.has .tests x = s.has .tests x := by omega
  have hraise : s'.has .raise x = s.has .raise x := by omega
  have hfrees : s'.has .frees x + f = s.has .frees x := by omega
  have hrels : s'.has .rels x + r = s.has .rels x := by omega
  have href := hg.ref
  have hheads := hg.heads
  have hearly := hg.early
  have hrl := hg.rels
  constructor
  · omega
  · omega
  · intro h0
    have := hg.unused (hu.symm.trans h0)
    omega
  · intro h0
    have := hg.dead (by omega)
    omega
  · intro h0
    have := hg.alive (by omega)
    omega
  · omega
  · intro h0
    have := hg.inUse (by omega)
    omega
  · omega
  · intro hf
    have := hg.fresh (by omega)
    omega

/- The last reference to a data block is given up. -/
theorem zero_good (hinv : s.Inv) (hi : s.tasks[i]? = some t)
    (hpc : ∀ c x, t.pc.has c x = h.has c x + newHas c newbp x) (h1 : (s.sh.ref h.datap).val = 1)
    (htd : s.has .tests h.datap = 0) (x : ℕ) : State.Good ⟨s.sh.dec h.datap,s.tasks.set i
      { t with handles := t.handles + 0, pc := zeroed buf h newbp }⟩ x := by
  have hm := moved hi 0 (s.sh.dec h.datap) (zeroed buf h newbp) x
  have h0 : ∀ c, handlesHave c 0 x = 0 := fun c => by simp [handlesHave]
  have hle := @has_use_le_net ⟨s.sh.dec h.datap,s.tasks.set i
      { t with handles := t.handles + 0, pc := zeroed buf h newbp }⟩ x
  obtain ⟨hgd,hgb⟩ := given hinv hi hpc x
  have hapart := new_apart hinv hi hpc
  have hval := dec_val (show (s.sh.ref h.datap).val ≠ 0 by omega) x
  have hg := hinv.good x
  have hgot := got_le s.sh (x := x)
  obtain ⟨b,d⟩ := h
  dsimp only at *
  simp only [hpc,h0,zeroed_has,zeroedKey] at hm
  rcases eq_or_ne d x with rfl | hdx
  · obtain ⟨hF,hfr,hra,hea,hu⟩ := hg.live (by omega)
    obtain ⟨hkn,hus,-⟩ := hgd (ind_self _)
    obtain ⟨hR,hrl⟩ := hg.quiet hus
    have href := hg.ref
    have hheads := hg.heads
    rw [ind_self] at hval
    obtain ⟨hnet,huse,hhead,htests,hraise,hearly,hfresh,hfrees,hrels⟩ := hm
    clear hg hgd hinv hpc
    cases newbp with
    | none =>
      rcases eq_or_ne d b with rfl | hdb
      · have htb := (hgb (ind_self _)).1
        simp only [Handle.has,newHas,Key.has,if_true,ind_self,Option.elim] at *
        split_ifs at hrels <;> constructor <;> simp only [dec_got,dec_freed,dec_released] <;> omega
      · simp only [Handle.has,newHas,Key.has,if_neg hdb,ind_self,ind_ne (Ne.symm hdb),Option.elim] at *
        split_ifs at hrels <;> constructor <;> simp only [dec_got,dec_freed,dec_released] <;> omega
    | some n =>
      obtain ⟨hnb,hnd⟩ := hapart n rfl
      rcases eq_or_ne d b with rfl | hdb
      · have htb := (hgb (ind_self _)).1
        simp only [Handle.has,newHas,Key.has,if_true,ind_self,ind_ne hnd,Option.elim] at *
        split_ifs at hrels <;> constructor <;> simp only [dec_got,dec_freed,dec_released] <;> omega
      · simp only [Handle.has,newHas,Key.has,if_neg hdb,ind_self,ind_ne (Ne.symm hdb),ind_ne hnd,Option.elim] at *
        split_ifs at hrels <;> constructor <;> simp only [dec_got,dec_freed,dec_released] <;> omega
  · refine hg.kept (k := 0) (f := 0) (r := 0) hm ?_ (by rw [ind_ne hdx] at hval; exact hval) (Or.inl rfl) rfl rfl rfl
    cases newbp with
    | none =>
      rcases eq_or_ne d b with rfl | hdb
      · constructor <;> simp [Handle.has,newHas,Key.has,ind_ne hdx]
      · constructor <;> simp [Handle.has,newHas,Key.has,ind_ne hdx,hdb]
    | some n =>
      rcases eq_or_ne d b with rfl | hdb
      · constructor <;> simp [Handle.has,newHas,Key.has,ind_ne hdx]
      · constructor <;> simp [Handle.has,newHas,Key.has,ind_ne hdx,hdb]

/- A reference is given up that is not the last one. -/
theorem fewer_good (hinv : s.Inv) (hi : s.tasks[i]? = some t)
    (hpc : ∀ c x, t.pc.has c x = h.has c x + newHas c newbp x) (h1 : 1 < (s.sh.ref h.datap).val) {pc : Pc}
    (hk : ∀ x, Kept (ind h.datap x) 0 0 (fun c => t.pc.has c x) fun c => pc.has c x + handlesHave c 0 x) (x : ℕ) :
    State.Good ⟨s.sh.dec h.datap,s.tasks.set i { t with handles := t.handles + 0, pc := pc }⟩ x := by
  have hval := dec_val (show (s.sh.ref h.datap).val ≠ 0 by omega) x
  refine (hinv.good x).kept (moved hi 0 _ pc x) (hk x) hval ?_ rfl rfl rfl
  rcases eq_or_ne h.datap x with rfl | hdx
  · rw [ind_self] at hval
    have hne : ((s.sh.dec h.datap).ref h.datap).val ≠ 0 := by omega
    exact Or.inr ⟨hne,((given hinv hi hpc h.datap).datap (ind_self _)).1⟩
  · exact Or.inl (ind_ne hdx)

/- A reference that is not the last one, and the block's own header. -/
theorem own_good (hinv : s.Inv) (hi : s.tasks[i]? = some t)
    (hpc : ∀ c x, t.pc.has c x = h.has c x + newHas c none x) (hd : h.datap ≠ h.bp)
    (h1 : 1 < (s.sh.ref h.datap).val) (x : ℕ) :
    State.Good ⟨(s.sh.dec h.datap).dec h.bp,s.tasks.set i { t with
      handles := t.handles + 0, pc := .run (if (s.sh.ref h.bp).val = 1 then [.header h.bp] else []) .done [] }⟩ x := by
  have h0 : ∀ c x, handlesHave c 0 x = 0 := fun c x => by simp [handlesHave]
  have hg := hinv.good x
  have hgiven := given hinv hi hpc x
  have hval := dec_val (show (s.sh.ref h.datap).val ≠ 0 by omega)
  have hshare := pc_share hinv hi (x := h.bp)
  have hown := hval h.bp
  have hnet := (handle_net h).2
  rw [hpc] at hshare
  rw [ind_ne hd] at hown
  have hval' := dec_val (show ((s.sh.dec h.datap).ref h.bp).val ≠ 0 by omega) x
  have hvalx := hval x
  have hm := moved hi 0 ((s.sh.dec h.datap).dec h.bp)
    (.run (if (s.sh.ref h.bp).val = 1 then [.header h.bp] else []) .done []) x
  simp only [hpc,h0] at hm
  rcases eq_or_ne h.bp x with rfl | hbx
  · rw [ind_self] at hval'
    by_cases hb1 : (s.sh.ref h.bp).val = 1
    · rw [if_pos hb1] at hm ⊢
      obtain ⟨hF,hfr,hra,hea,hu⟩ := hg.live (by omega)
      obtain ⟨ht,hkn,-⟩ := hgiven.bp (ind_self _)
      have hle := @has_use_le_net ⟨(s.sh.dec h.datap).dec h.bp,s.tasks.set i { t with
        handles := t.handles + 0, pc := .run [.header h.bp] .done [] }⟩ h.bp
      have hn0 : (((s.sh.dec h.datap).dec h.bp).ref h.bp).val = 0 := by omega
      have href := hg.ref
      have hheads := hg.heads
      have hrl := hg.rels
      obtain ⟨hnet,huse,hhead,htests,hraise,hearly,hfresh,hfrees,hrels⟩ := hm
      have hp : ∀ c, Pc.has c (.run [.header h.bp] .done []) h.bp = if c = .frees then 1 else 0 := by
        intro c
        cases c <;> simp [Pc.has,Key.has,outs]
      simp only [hp,reduceCtorEq,if_true,if_false,Handle.has,newHas,Option.elim,if_neg hd,ind_self,ind_ne hd] at *
      constructor <;> simp only [dec_got,dec_freed,dec_released,hn0] <;> omega
    · rw [if_neg hb1] at hm ⊢
      refine hg.kept (k := 1) (f := 0) (r := 0) hm ?_ ?_ ?_ rfl rfl rfl
      · constructor <;> simp [Handle.has,newHas,Pc.has,Key.has,outs,hd,ind_ne hd]
      · show (((s.sh.dec h.datap).dec h.bp).ref h.bp).val + 1 = _
        omega
      · refine Or.inr ⟨?_,(hgiven.bp (ind_self _)).2.1⟩
        show (((s.sh.dec h.datap).dec h.bp).ref h.bp).val ≠ 0
        omega
  · rw [ind_ne hbx] at hval'
    have houts : ∀ c, outs c (if (s.sh.ref h.bp).val = 1 then [Out.header h.bp] else []) x = 0 := by
      intro c
      split_ifs <;> cases c <;> simp [outs,hbx]
    refine hg.kept (k := ind h.datap x) (f := 0) (r := 0) hm ?_ ?_ ?_ rfl rfl rfl
    · constructor <;> simp [Handle.has,newHas,Pc.has,Key.has,houts,hd,ind_ne hbx] <;> simp [outs]
    · show (((s.sh.dec h.datap).dec h.bp).ref x).val + _ = _
      omega
    · rcases eq_or_ne h.datap x with rfl | hdx
      · refine Or.inr ⟨?_,(hgiven.datap (ind_self _)).1⟩
        show (((s.sh.dec h.datap).dec h.bp).ref h.datap).val ≠ 0
        rw [ind_self] at hvalx
        omega
      · exact Or.inl (ind_ne hdx)

theorem commit_good (hinv : s.Inv) (hi : s.tasks[i]? = some t)
    (hpc : ∀ c x, t.pc.has c x = h.has c x + newHas c newbp x) {pc : Pc} (hc : Commit buf s.sh h newbp sh pc)
    (hguard : (s.sh.ref h.datap).val = 1 → s.has .tests h.datap = 0) (x : ℕ) :
    State.Good ⟨sh,s.tasks.set i { t with handles := t.handles + 0, pc := pc }⟩ x := by
  have h0 : ∀ c x, handlesHave c 0 x = 0 := fun c x => by simp [handlesHave]
  cases hc with
  | zero h1 => exact zero_good hinv hi hpc h1 (hguard h1) x
  | more hk hd h1 =>
    subst hk
    refine fewer_good hinv hi hpc h1 (fun y => ?_) x
    simp only [hpc,h0]
    constructor <;> simp [Handle.has,newHas,Pc.has,Key.has,outs,hd]
  | own hk hd h1 =>
    subst hk
    exact own_good hinv hi hpc hd h1 x
  | keep n hk hd h1 =>
    subst hk
    refine (hinv.good x).kept (k := 0) (f := 0) (r := 0) (moved hi 0 _ _ x) ?_ rfl (Or.inl rfl) rfl rfl rfl
    simp only [hpc,h0]
    constructor <;> simp [Handle.has,newHas,Pc.has,Key.has,outs,hd]
  | lose n hk hd h1 =>
    subst hk
    refine fewer_good hinv hi hpc h1 (fun y => ?_) x
    simp only [hpc,h0]
    constructor <;> simp [Handle.has,newHas,Pc.has,Key.has,outs,hd]
    omega

/-! ### The other steps -/

theorem no_handles (c : Tally) (x : ℕ) : handlesHave c 0 x = 0 := by simp [handlesHave]

/- A step that only shifts what the task has. -/
theorem shift_good (hinv : s.Inv) (hi : s.tasks[i]? = some t) {pc : Pc} {hs : Multiset Handle}
    (hk : ∀ x, Kept 0 0 0 (fun c => t.pc.has c x) fun c => pc.has c x + handlesHave c hs x) (x : ℕ) :
    State.Good ⟨s.sh,s.tasks.set i { t with handles := t.handles + hs, pc := pc }⟩ x :=
  (hinv.good x).kept (k := 0) (f := 0) (r := 0) (moved hi hs s.sh pc x) (hk x) rfl (Or.inl rfl) rfl rfl rfl

theorem out_good (hinv : s.Inv) (hi : s.tasks[i]? = some t) (hpc : t.pc = .run (o :: a) key z) (x : ℕ) :
    State.Good ⟨s.sh.out o,s.tasks.set i { t with handles := t.handles + 0, pc := .run a key z }⟩ x := by
  have hm := moved hi 0 (s.sh.out o) (.run a key z) x
  rw [hpc] at hm
  refine (hinv.good x).kept (k := 0) (f := outs .frees [o] x) (r := outs .rels [o] x) hm ?_ ?_ (Or.inl rfl) ?_ ?_ ?_
  · simp only [no_handles]
    constructor <;> simp [Pc.has,outs,List.count_cons] <;> omega
  · cases o <;> rfl
  · cases o <;> rfl
  · cases o <;> simp [Shared.out,outs,List.count_cons]
  · cases o <;> simp [Shared.out,outs,List.count_cons]

/- The header of the task that gives up its own count is known to nobody else. -/
theorem own_alone (hinv : s.Inv) (hi : s.tasks[i]? = some t) {bp dp : ℕ} (hpc : t.pc = .run [] (.decOwn bp dp) z) :
    s.has .tests bp = 0 ∧ s.has .fresh bp = 0 ∧ (s.sh.ref bp).val ≠ 0 := by
  have hnet : t.pc.has .net bp = 1 := by simp [hpc,Pc.has,Key.has,outs]
  have hhead : t.pc.has .head bp = 1 := by simp [hpc,Pc.has,Key.has,outs]
  have hfresh : t.pc.has .fresh bp = 0 := by simp [hpc,Pc.has,Key.has,outs]
  have hle := pc_le hi (c := .head) (x := bp)
  have hheads := (hinv.good bp).heads
  have hgot := got_le s.sh (x := bp)
  have hs := pc_share hinv hi (x := bp)
  exact ⟨by omega,pc_known hinv hi (by omega),by omega⟩

theorem decOwn_good (hinv : s.Inv) (hi : s.tasks[i]? = some t) {bp dp : ℕ} (hpc : t.pc = .run [] (.decOwn bp dp) z)
    (x : ℕ) : State.Good ⟨s.sh.dec bp,s.tasks.set i
      { t with handles := t.handles + 0, pc := .run [] (.test0 bp) z }⟩ x := by
  have hg := hinv.good x
  have hm := moved hi 0 (s.sh.dec bp) (.run [] (.test0 bp) z) x
  obtain ⟨ht,hfr,hne⟩ := own_alone hinv hi hpc
  have hval := dec_val hne x
  rw [hpc] at hm
  simp only [no_handles] at hm
  rcases eq_or_ne bp x with rfl | hbx
  · obtain ⟨hF,hfrees,hra,hea,hu⟩ := hg.live hne
    have href := hg.ref
    have hheads := hg.heads
    have hrl := hg.rels
    have hin := hg.inUse
    obtain ⟨hnet,huse,hhead,htests,hraise,hearly,hfresh,hfrees',hrels⟩ := hm
    simp only [Pc.has,Key.has,outs,ind_self] at *
    constructor <;> simp only [dec_got,dec_freed,dec_released] <;> omega
  · refine hg.kept (k := 0) (f := 0) (r := 0) hm ?_ (by rw [ind_ne hbx] at hval; exact hval) (Or.inl rfl) rfl rfl rfl
    constructor <;> simp [Pc.has,Key.has,ind_ne hbx,outs]

theorem test0_good (hinv : s.Inv) (hi : s.tasks[i]? = some t) {bp : ℕ} (hpc : t.pc = .run [] (.test0 bp) z) (x : ℕ) :
    State.Good ⟨s.sh,s.tasks.set i { t with
      handles := t.handles + 0, pc := .run (if s.sh.ref bp = 0 then .header bp :: z else z) .done [] }⟩ x := by
  have hg := hinv.good x
  have hm := moved hi 0 s.sh (.run (if s.sh.ref bp = 0 then .header bp :: z else z) .done []) x
  rw [hpc] at hm
  simp only [no_handles] at hm
  rcases eq_or_ne bp x with rfl | hbx
  · have hd := hg.dead
    have ha := hg.alive
    obtain ⟨href,hheads,hun,-,-,hrl,hin,hear,hfr⟩ := hg
    by_cases h0 : s.sh.ref bp = 0
    · have hv := val_zero.mp h0
      have hd := hd hv
      have hcount : List.count (Out.header bp) (Out.header bp :: z) = List.count (Out.header bp) z + 1 := by simp
      have hcross : List.count (Out.buffer bp) (Out.header bp :: z) = List.count (Out.buffer bp) z := by simp
      rw [if_pos h0] at hm ⊢
      obtain ⟨hnet,huse,hhead,htests,hraise,hearly,hfresh,hfrees,hrels⟩ := hm
      simp only [Pc.has,Key.has,outs,ind_self,hcount,hcross,List.count_nil] at *
      constructor <;> dsimp only <;> omega
    · have hv : (s.sh.ref bp).val ≠ 0 := fun hc => h0 (val_zero.mpr hc)
      have ha := ha hv
      rw [if_neg h0] at hm ⊢
      obtain ⟨hnet,huse,hhead,htests,hraise,hearly,hfresh,hfrees,hrels⟩ := hm
      simp only [Pc.has,Key.has,outs,ind_self,List.count_nil] at *
      constructor <;> dsimp only <;> omega
  · refine hg.kept (k := 0) (f := 0) (r := 0) hm ?_ rfl (Or.inl rfl) rfl rfl rfl
    constructor <;> split_ifs <;> simp [Pc.has,Key.has,ind_ne hbx,outs,hbx]

theorem incRef_good (hinv : s.Inv) (hi : s.tasks[i]? = some t) {mp : ℕ} (hpc : t.pc = .run [] (.incRef mp n) z)
    (x : ℕ) : (s.sh.ref mp).val = 0 ∧ State.Good ⟨s.sh.inc mp,s.tasks.set i
      { t with handles := t.handles + 0, pc := .run z (.swap mp n) [] }⟩ x := by
  have hr : 1 ≤ s.has .raise mp := by
    refine le_trans ?_ (pc_le hi)
    simp [hpc,Pc.has,Key.has]
  have h0 : (s.sh.ref mp).val = 0 := by
    by_contra hc
    have := (hinv.good mp).alive hc
    omega
  refine ⟨h0,?_⟩
  have hg := hinv.good x
  have hm := moved hi 0 (s.sh.inc mp) (.run z (.swap mp n) []) x
  have hval := inc_val (show s.sh.ref mp ≠ 255 from fun hc => by rw [hc] at h0; cases h0) x
  rw [hpc] at hm
  simp only [no_handles] at hm
  rcases eq_or_ne mp x with rfl | hbx
  · have hd := hg.dead h0
    have hgot := got_le s.sh (x := mp)
    obtain ⟨href,hheads,hun,-,-,hrl,hin,hear,hfr⟩ := hg
    obtain ⟨hnet,huse,hhead,htests,hraise,hearly,hfresh,hfrees,hrels⟩ := hm
    simp only [Pc.has,Key.has,outs,ind_self,List.count_nil] at *
    constructor <;> simp only [inc_got,inc_freed,inc_released] <;> omega
  · refine hg.kept (k := 0) (f := 0) (r := 0) hm ?_ (by rw [ind_ne hbx] at hval; exact hval) (Or.inl rfl) rfl rfl rfl
    constructor <;> simp [Pc.has,Key.has,ind_ne hbx,outs]

/- The block of which lis_dupb makes another one. -/
theorem dup_known (hinv : s.Inv) (hi : s.tasks[i]? = some t) {mp : Handle} {bp : ℕ} (hpc : t.pc = .dup mp bp) :
    mp.datap ≠ bp ∧ s.has .fresh mp.datap = 0 ∧ (s.sh.ref mp.datap).val ≠ 0 := by
  have hn : 1 ≤ t.pc.has .net mp.datap := by
    have := (handle_net mp).1
    simp only [hpc,Pc.has]
    omega
  have hs := pc_share hinv hi (x := mp.datap)
  have hdb : mp.datap ≠ bp := by
    rintro rfl
    have hf := pc_le hi (c := .fresh) (x := mp.datap)
    simp [hpc,Pc.has,Handle.has] at hf hs
    have h1 := (hinv.good mp.datap).fresh (by omega)
    omega
  refine ⟨hdb,pc_known hinv hi (lt_of_lt_of_le ?_ hn),by omega⟩
  simp [hpc,Pc.has,Handle.has,ind_ne (Ne.symm hdb)]

/- The new block of lis_dupb and the one it was made of. -/
theorem dup_good (hinv : s.Inv) (hi : s.tasks[i]? = some t) {mp : Handle} {bp : ℕ} (hpc : t.pc = .dup mp bp)
    (hguard : s.sh.ref mp.datap ≠ 255) (x : ℕ) : State.Good ⟨s.sh.inc mp.datap,s.tasks.set i
      { t with handles := t.handles + {mp,⟨bp,mp.datap⟩}, pc := .idle }⟩ x := by
  have hg := hinv.good x
  have hm := moved hi {mp,⟨bp,mp.datap⟩} (s.sh.inc mp.datap) .idle x
  have hval := inc_val hguard x
  have hnew : ∀ c, handlesHave c {mp,⟨bp,mp.datap⟩} x = mp.has c x + Handle.has c ⟨bp,mp.datap⟩ x := fun c => by
    simp [handlesHave]
  obtain ⟨hdb,hkn,hne⟩ := dup_known hinv hi hpc
  rw [hpc] at hm
  simp only [hnew] at hm
  rcases eq_or_ne mp.datap x with rfl | hdx
  · have hu : 1 ≤ s.has .use mp.datap := by
      refine le_trans ?_ (pc_le hi)
      simp [hpc,Pc.has,Handle.has]
    obtain ⟨hF,hfr,hra,hea,hgt⟩ := hg.live hne
    obtain ⟨hR,hrl⟩ := hg.quiet hu
    have href := hg.ref
    have hheads := hg.heads
    obtain ⟨hnet,huse,hhead,htests,hraise,hearly,hfresh,hfrees,hrels⟩ := hm
    clear hg hinv
    simp only [Pc.has,Handle.has,if_neg hdb,ind_self,ind_ne (Ne.symm hdb),ite_self] at *
    constructor <;> simp only [inc_got,inc_freed,inc_released] <;> omega
  · refine hg.kept (k := 0) (f := 0) (r := 0) hm ?_ (by rw [ind_ne hdx] at hval; exact hval) (Or.inl rfl) rfl rfl rfl
    constructor <;> simp [Pc.has,Handle.has,ind_ne hdx,hdb]

theorem commit_fit {s : Shared} (hc : Commit buf s h newbp sh pc) (hn : ∀ n, newbp = some n → n ≠ h.bp) :
    pc.Fit sh := by
  cases hc with
  | zero h1 =>
    cases newbp with
    | none =>
      unfold zeroed
      dsimp only
      split_ifs <;> trivial
    | some n =>
      unfold zeroed
      dsimp only
      split_ifs <;> exact hn n rfl
  | more | own => trivial
  | keep n hk | lose n hk => exact hn n hk

theorem commit_ref {s : Shared} (hc : Commit buf s h newbp sh pc) (hd : (s.ref h.datap).val ≠ 0)
    (hb : (s.ref h.bp).val ≠ 0) (hx : (sh.ref x).val ≠ (s.ref x).val) : h.datap = x ∨ h.bp = x := by
  by_contra hno
  obtain ⟨hdx,hbx⟩ := not_or.mp hno
  have hval := dec_val hd
  have hvx := hval x
  rw [ind_ne hdx] at hvx
  cases hc with
  | zero | more | lose => exact hx (by omega)
  | keep => exact hx rfl
  | own hk hdb h1 =>
    have hvb := hval h.bp
    rw [ind_ne hdb] at hvb
    have hvx' := dec_val (show ((s.dec h.datap).ref h.bp).val ≠ 0 by omega) x
    rw [ind_ne hbx] at hvx'
    exact hx (by omega)

theorem no_tests (h : ∀ u ∈ s.tasks, ¬ u.pc.tests x) : s.has .tests x = 0 := by
  unfold State.has total
  refine List.sum_eq_zero fun n hn => ?_
  obtain ⟨u,hu,rfl⟩ := List.mem_map.mp hn
  have hno := h u hu
  have h0 : handlesHave .tests u.handles x = 0 := by simp [handlesHave,Handle.has]
  rw [Task.has,h0,zero_add]
  cases hpc : u.pc with
  | run a key z =>
    rw [hpc] at hno
    cases key with
    | test0 bp => simp [Pc.has,Key.has,outs,ind_ne (show bp ≠ x from hno)]
    | _ => simp [Pc.has,Key.has,outs]
  | _ => simp [Pc.has,Handle.has,newHas]

/- lis_freedb takes effect. -/
theorem commit_inv (hinv : s.Inv) (hi : s.tasks[i]? = some t)
    (hpc : ∀ c x, t.pc.has c x = h.has c x + newHas c newbp x) (hc : Commit buf s.sh h newbp sh pc)
    (hguard : s.sh.ref h.datap = 1 → ∀ u ∈ s.tasks, ¬ u.pc.tests h.datap) :
    State.Inv ⟨sh,s.tasks.set i { t with handles := t.handles + 0, pc := pc }⟩ := by
  have hnet := handle_net h
  have hd := pc_share hinv hi (x := h.datap)
  have hb := pc_share hinv hi (x := h.bp)
  rw [hpc] at hd hb
  refine hinv.set hi (fun x _ => commit_good hinv hi hpc hc (fun h1 => ?_) x) ?_ fun x hx => Or.inl ?_
  · exact no_tests (hguard (Mem.uchar_val_one.mpr h1))
  · exact commit_fit hc fun n hn => (new_apart hinv hi hpc n hn).1
  · have ht : t.pc.has .net x ≤ t.has .net x := Nat.le_add_left ..
    rw [hpc] at ht
    rcases commit_ref hc (by omega) (by omega) hx with rfl | rfl <;> omega

theorem shift_inv (hinv : s.Inv) (hi : s.tasks[i]? = some t) {hs : Multiset Handle}
    (hk : ∀ x, Kept 0 0 0 (fun c => t.pc.has c x) fun c => pc.has c x + handlesHave c hs x) (hfit : pc.Fit s.sh) :
    State.Inv ⟨s.sh,s.tasks.set i { t with handles := t.handles + hs, pc := pc }⟩ :=
  hinv.set hi (fun x _ => shift_good hinv hi hk x) hfit fun _ hx => absurd rfl hx

theorem run_inv (hinv : s.Inv) (hi : s.tasks[i]? = some t) (hpc : t.pc = .run a key z) :
    State.Inv ⟨(next buf s.sh t.pc).1,s.tasks.set i { t with
      handles := t.handles + (next buf s.sh t.pc).2.2, pc := (next buf s.sh t.pc).2.1 }⟩ := by
  have hfit := hinv.fit t (List.mem_of_getElem? hi)
  have hnet : ∀ x, t.pc.has .net x ≤ t.has .net x := fun x => Nat.le_add_left ..
  rw [hpc] at hfit ⊢
  cases a with
  | cons o a =>
    refine hinv.set hi (fun x _ => out_good hinv hi hpc x) ?_ fun x hx => ?_
    · cases key <;> exact hfit
    · cases o <;> exact absurd rfl hx
  | nil =>
    cases key with
    | done =>
      cases z with
      | nil =>
        simp only [next]
        refine shift_inv hinv hi (fun x => ?_) trivial
        rw [hpc]
        constructor <;> simp [no_handles,Pc.has,Key.has,outs]
      | cons o z =>
        simp only [next]
        refine shift_inv hinv hi (fun x => ?_) trivial
        rw [hpc]
        constructor <;> simp [no_handles,Pc.has,Key.has,outs]
    | ownPos bp dp =>
      have hb : s.sh.ref bp ≠ 0 := by
        have hs := pc_share hinv hi (x := bp)
        simp only [hpc,Pc.has,Key.has,ind_self] at hs
        intro hc
        have := val_zero.mp hc
        omega
      simp only [next,if_pos hb]
      refine shift_inv hinv hi (fun x => ?_) trivial
      rw [hpc]
      constructor <;> simp [no_handles,Pc.has,Key.has]
    | decOwn bp dp =>
      refine hinv.set hi (fun x _ => decOwn_good hinv hi hpc x) trivial fun x hx => Or.inl ?_
      have hval := dec_val (own_alone hinv hi hpc).2.2 x
      have := hnet x
      rcases eq_or_ne bp x with rfl | hbx
      · simp only [hpc,Pc.has,Key.has,ind_self] at this
        omega
      · rw [ind_ne hbx] at hval
        exact absurd hval hx
    | test0 bp => exact hinv.set hi (fun x _ => test0_good hinv hi hpc x) trivial fun x hx => absurd rfl hx
    | incRef mp n =>
      have h0 := (incRef_good hinv hi hpc 0).1
      refine hinv.set hi (fun x _ => (incRef_good hinv hi hpc x).2) hfit fun x hx => Or.inr ?_
      rcases eq_or_ne mp x with rfl | hbx
      · exact h0
      · have hval := inc_val (show s.sh.ref mp ≠ 255 from fun hc => by rw [hc] at h0; cases h0) x
        rw [ind_ne hbx] at hval
        exact absurd hval hx
    | swap mp n =>
      refine shift_inv hinv hi (fun x => ?_) trivial
      have hn : n ≠ mp := hfit
      rw [hpc]
      simp only [next,handlesHave_single]
      constructor <;> simp [Pc.has,Key.has,Handle.has,outs,hn]
      omega
    | lastOwn bp => exact hfit.elim
    | decLast bp => exact hfit.elim

/-- A step of a task keeps the tallies. -/
theorem Inv.advance (hinv : s.Inv) (hi : s.tasks[i]? = some t) (hguard : Guard s (.advance i)) :
    State.Inv ⟨(advance buf s.sh t).1,s.tasks.set i (advance buf s.sh t).2⟩ := by
  have hg := hguard t (Option.mem_def.mpr hi)
  have hfit := hinv.fit t (List.mem_of_getElem? hi)
  unfold Tasks.advance
  dsimp only
  have hnet : ∀ x, t.pc.has .net x ≤ t.has .net x := fun x => Nat.le_add_left ..
  cases hpc : t.pc with
  | idle =>
    simp only [next]
    refine shift_inv hinv hi (fun x => ?_) trivial
    rw [hpc]
    constructor <;> simp [no_handles,Pc.has]
  | dup mp bp =>
    rw [hpc] at hg
    refine hinv.set hi (fun x _ => dup_good hinv hi hpc hg x) trivial fun x hx => Or.inl ?_
    have hval := inc_val hg x
    have := hnet x
    rcases eq_or_ne mp.datap x with rfl | hdx
    · have := (handle_net mp).1
      simp only [hpc,Pc.has] at *
      omega
    · rw [ind_ne hdx] at hval
      exact absurd hval hx
  | call h newbp =>
    simp only [next]
    refine shift_inv hinv hi (fun x => ?_) ?_
    · rw [hpc]
      constructor <;> simp [no_handles,Pc.has]
    · by_cases h1 : s.sh.ref h.datap = 1
      · simp only [h1,ne_eq,not_true_eq_false,decide_false]
        exact Mem.uchar_val_one.mp h1
      · simp only [h1,ne_eq,not_false_eq_true,decide_true]
        trivial
  | enter h newbp l =>
    rw [hpc] at hg hfit
    have hhas : ∀ c x, t.pc.has c x = h.has c x + newHas c newbp x := fun c x => by rw [hpc]; rfl
    cases l with
    | true =>
      have hn := handle_net h
      have hd := pc_share hinv hi (x := h.datap)
      have hb := pc_share hinv hi (x := h.bp)
      rw [hhas] at hd hb
      exact commit_inv hinv hi hhas (locked_commit (by omega) (by omega)) hg
    | false =>
      have h1 : (s.sh.ref h.datap).val = 1 := hfit
      have hne : s.sh.ref h.datap ≠ 0 := fun hc => by rw [hc] at h1; cases h1
      simp only [next,if_neg hne]
      refine shift_inv hinv hi (fun x => ?_) h1
      rw [hpc]
      constructor <;> simp [no_handles,Pc.has]
  | dec h newbp =>
    rw [hpc] at hg hfit
    have hhas : ∀ c x, t.pc.has c x = h.has c x + newHas c newbp x := fun c x => by rw [hpc]; rfl
    have h1 : (s.sh.ref h.datap).val = 1 := hfit
    have hval := dec_val (show (s.sh.ref h.datap).val ≠ 0 by omega) h.datap
    rw [ind_self] at hval
    have hz : (s.sh.dec h.datap).ref h.datap = 0 := val_zero.mpr (by omega)
    simp only [next,if_pos hz]
    exact commit_inv hinv hi hhas (.zero h1) hg
  | run a key z =>
    have := @run_inv buf s t i a z key hinv hi hpc
    rw [hpc] at this
    exact this

/-! ### Calls -/

theorem moved_task (hi : s.tasks[i]? = some t) (sh : Shared) (t' : Task) (x : ℕ) :
    Moved (fun c => s.has c x) (fun c => State.has c ⟨sh,s.tasks.set i t'⟩ x) (fun c => t.has c x)
      fun c => t'.has c x :=
  have h := fun c => has_set hi sh t' c x
  ⟨h .net,h .use,h .head,h .tests,h .raise,h .early,h .fresh,h .frees,h .rels⟩

/- What a task has of a header that it gets. -/
structure Gets (p p' : Tally → ℕ) : Prop where
  net : p' .net = p .net + 1
  use : p' .use ≤ p .use + 1
  head : p' .head = p .head + 1
  tests : p' .tests = p .tests
  raise : p' .raise = p .raise
  early : p' .early = p .early
  fresh : p' .fresh ≤ p .fresh + 1
  frees : p' .frees = p .frees
  rels : p' .rels = p .rels

theorem alloc_good (hinv : s.Inv) (hi : s.tasks[i]? = some t) (hn : n ∉ s.sh.used)
    (hk : ∀ x ≠ n, Kept 0 0 0 (fun c => t.has c x) fun c => t'.has c x)
    (hg : Gets (fun c => t.has c n) fun c => t'.has c n) (x : ℕ) :
    State.Good ⟨s.sh.alloc n,s.tasks.set i t'⟩ x := by
  have hgot : s.sh.got n = 0 := if_neg hn
  have h0 := (hinv.good n).unused hgot
  have hval := alloc_val h0 x
  have hu := alloc_got hn (x := x)
  have hm := moved_task hi (s.sh.alloc n) t' x
  rcases eq_or_ne n x with rfl | hnx
  · have hd := (hinv.good n).dead h0
    have hle := @has_use_le_net s n
    obtain ⟨href,hheads,-,-,-,hrl,-,hear,hfr⟩ := hinv.good n
    obtain ⟨hnet,huse,hhead,htests,hraise,hearly,hfresh,hfrees,hrels⟩ := hm
    obtain ⟨k1,k2,k3,k4,k5,k6,k7,k8,k9⟩ := hg
    rw [ind_self] at hval hu
    clear hinv hk
    constructor <;> simp only [alloc_freed,alloc_released,hu,hval] <;> omega
  · rw [ind_ne hnx] at hval hu
    exact (hinv.good x).kept (k := 0) (f := 0) (r := 0) hm (hk x (Ne.symm hnx)) hval (Or.inl rfl) hu rfl rfl

theorem alloc_inv (hinv : s.Inv) (hi : s.tasks[i]? = some t) (hn : n ∉ s.sh.used)
    (hk : ∀ x ≠ n, Kept 0 0 0 (fun c => t.has c x) fun c => t'.has c x)
    (hg : Gets (fun c => t.has c n) fun c => t'.has c n) (hfit : t'.pc.Fit (s.sh.alloc n)) :
    State.Inv ⟨s.sh.alloc n,s.tasks.set i t'⟩ := by
  have h0 := (hinv.good n).unused (if_neg hn)
  refine hinv.set hi (fun x _ => alloc_good hinv hi hn hk hg x) hfit fun x hx => Or.inr ?_
  have hval := alloc_val h0 x
  rcases eq_or_ne n x with rfl | hnx
  · exact h0
  · rw [ind_ne hnx] at hval
    exact absurd hval hx

theorem start_cases {op : Op} {s' : State} (h : s.start buf i op = some s') : ∃ t r l, s.tasks[i]? = some t ∧
    t.pc = .idle ∧ Tasks.start buf s.sh t op = some r ∧
    receive (s.tasks.set i { r.2 with calls := r.2.calls ++ [op] }) op = some l ∧ s' = ⟨r.1,l⟩ := by
  unfold State.start at h
  split at h
  · cases h
  · rename_i t hi
    split_ifs at h with hidle
    split at h
    · cases h
    · rename_i r hr
      obtain ⟨l,hl,rfl⟩ := Option.map_eq_some_iff.mp h
      exact ⟨t,r,l,hi,hidle,hr,hl,rfl⟩

/- A block changes hands. -/
theorem give_has (hi : s.tasks[i]? = some t) (hm : h ∈ t.handles) {j : ℕ} {cs : List Op} {u : Task}
    (hj : (s.tasks.set i { t with handles := t.handles.erase h, calls := cs })[j]? = some u) (c : Tally) (x : ℕ) :
    State.has c ⟨s.sh,(s.tasks.set i { t with handles := t.handles.erase h, calls := cs }).set j
      { u with handles := u.handles + {h} }⟩ x = s.has c x := by
  have hfst := has_set hi s.sh { t with handles := t.handles.erase h, calls := cs } c x
  have hsnd := has_set (s := ⟨s.sh,s.tasks.set i { t with handles := t.handles.erase h, calls := cs }⟩) hj s.sh
    { u with handles := u.handles + {h} } c x
  have he := handlesHave_erase (c := c) (x := x) hm
  simp only [Task.has,handlesHave_add,handlesHave_single] at hfst hsnd
  omega

theorem give_inv (hinv : s.Inv) (hi : s.tasks[i]? = some t) (hidle : t.pc = .idle) (hm : h ∈ t.handles) {j : ℕ}
    {cs : List Op} {u : Task} (hj : (s.tasks.set i { t with handles := t.handles.erase h, calls := cs })[j]? = some u) :
    State.Inv ⟨s.sh,(s.tasks.set i { t with handles := t.handles.erase h, calls := cs }).set j
      { u with handles := u.handles + {h} }⟩ := by
  have hsame := give_has hi hm hj
  refine ⟨fun x => ?_,fun v hv => ?_⟩
  · have hk : Kept 0 0 0 (fun _ => 0) fun _ => 0 := by constructor <;> rfl
    refine (hinv.good x).kept ?_ hk rfl (Or.inl rfl) rfl rfl rfl
    constructor <;> simp only [hsame]
  · have hsome : ∀ w ∈ s.tasks.set i { t with handles := t.handles.erase h, calls := cs }, w.pc.Fit s.sh := by
      intro w hw
      rcases List.mem_or_eq_of_mem_set hw with hw | rfl
      · exact hinv.fit w hw
      · simp only [hidle]
        trivial
    rcases List.mem_or_eq_of_mem_set hv with hv | rfl
    · exact hsome v hv
    · exact hsome u (List.mem_of_getElem? hj)

theorem start_inv {op : Op} {s' : State} (hinv : s.Inv) (h : s.start buf i op = some s') : s'.Inv := by
  obtain ⟨t,r,l,hi,hidle,hr,hl,rfl⟩ := start_cases h
  cases op with
  | allocb n =>
    simp only [Tasks.start,Option.ite_none_right_eq_some,Option.some.injEq] at hr
    obtain ⟨hn,rfl⟩ := hr
    obtain rfl := Option.some.inj hl
    refine alloc_inv hinv hi hn (fun x hx => ?_) ?_ ?_
    · constructor <;> simp [Task.has,handlesHave_add,handlesHave_single,Handle.has,ind_ne (Ne.symm hx)]
    · constructor <;> simp [Task.has,handlesHave_add,handlesHave_single,Handle.has] <;> omega
    · simp only [hidle]
      trivial
  | give j h =>
    simp only [Tasks.start,Option.ite_none_right_eq_some,Option.some.injEq] at hr
    obtain ⟨hm,rfl⟩ := hr
    obtain ⟨u,hj,rfl⟩ := Option.map_eq_some_iff.mp hl
    exact give_inv hinv hi hidle hm hj
  | dupb mp bp =>
    simp only [Tasks.start,Option.ite_none_right_eq_some,Option.some.injEq] at hr
    obtain ⟨⟨hm,hn,-⟩,rfl⟩ := hr
    obtain rfl := Option.some.inj hl
    have he := fun c x => handlesHave_erase (c := c) (x := x) hm
    refine alloc_inv hinv hi hn (fun x hx => ?_) ?_ trivial
    · constructor <;> simp [Task.has,he,hidle,Pc.has,ind_ne (Ne.symm hx)] <;> omega
    · constructor <;> simp [Task.has,he,hidle,Pc.has] <;> omega
  | freeb h =>
    simp only [Tasks.start,Option.ite_none_right_eq_some,Option.some.injEq] at hr
    obtain ⟨hm,rfl⟩ := hr
    obtain rfl := Option.some.inj hl
    have he := fun c x => handlesHave_erase (c := c) (x := x) hm
    refine hinv.set hi (fun x hg => ?_) trivial fun _ hx => absurd rfl hx
    refine hg.kept (k := 0) (f := 0) (r := 0) (moved_task hi _ _ x) ?_ rfl (Or.inl rfl) rfl rfl rfl
    constructor <;> simp [Task.has,he,hidle,Pc.has,newHas] <;> omega
  | pullup mp n =>
    simp only [Tasks.start,Option.ite_none_right_eq_some,Option.some.injEq] at hr
    obtain ⟨⟨hm,hn,-⟩,rfl⟩ := hr
    obtain rfl := Option.some.inj hl
    have he := fun c x => handlesHave_erase (c := c) (x := x) hm
    refine alloc_inv hinv hi hn (fun x hx => ?_) ?_ trivial
    · constructor <;> simp [Task.has,he,hidle,Pc.has,newHas,ind_ne (Ne.symm hx)] <;> omega
    · constructor <;> simp [Task.has,he,hidle,Pc.has,newHas] <;> omega

theorem step_inv {act : Act} {s' : State} (hinv : s.Inv) (hguard : Guard s act) (h : s.step buf act = some s') :
    s'.Inv := by
  cases act with
  | start i op => exact start_inv hinv h
  | advance i =>
    obtain ⟨t,hi,rfl⟩ := Option.map_eq_some_iff.mp h
    exact Inv.advance hinv hi hguard

end CSLiS.Buffer.Tasks
