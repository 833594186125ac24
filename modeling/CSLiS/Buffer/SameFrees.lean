import CSLiS.Buffer.Serial

/-!
# The tasks free what one call after the other frees (head/msg.c, head/msgutl.c)

A call takes effect where it decrements a count, or, when the header of the data block is given back first, where it
decrements that of its own. Until then the run of whole calls has not made it.
-/

namespace CSLiS.Buffer.Tasks
open Queue Lib.Crew Lib.Exec

variable {buf : ℕ → Buf} {s s' a a' : State} {sh : Shared} {t t' : Task} {i x n : ℕ} {c : Tally} {h : Handle}
  {newbp : Option ℕ} {l z : List Out} {pc pc' : Pc}

/- The call that a task makes when it gives up `h`. -/
def callOf (h : Handle) : Option ℕ → Op
  | none => .freeb h
  | some newbp => .pullup h newbp

/- The call that has not taken effect. -/
def Pc.todo : Pc → Option Op
  | .dup mp bp => some (.dupb mp bp)
  | .call h newbp | .enter h newbp _ | .dec h newbp => some (callOf h newbp)
  | .run _ (.ownPos bp dp) _ | .run _ (.decOwn bp dp) _ => some (.freeb ⟨bp,dp⟩)
  | _ => none

/- The blocks that the task will have, or would have if the call had not begun. -/
def Pc.owed : Pc → Multiset Handle
  | .dup mp _ => {mp}
  | .call h _ | .enter h _ _ | .dec h _ => {h}
  | .run _ (.ownPos bp dp) _ | .run _ (.decOwn bp dp) _ => {⟨bp,dp⟩}
  | .run _ (.incRef mp newbp) _ | .run _ (.swap mp newbp) _ => {⟨mp,newbp⟩}
  | _ => 0

/- The task in the run of whole calls. -/
def twin (t : Task) : Task :=
  ⟨t.handles + t.pc.owed,.idle,match t.pc.todo with | none => t.calls | some _ => t.calls.dropLast⟩

def Op.sized (buf : ℕ → Buf) : Op → Prop
  | .dupb _ bp => buf bp = .inside
  | .pullup _ newbp => buf newbp = .separate
  | _ => True

def Task.Asked (buf : ℕ → Buf) (t : Task) : Prop :=
  ∀ op ∈ t.pc.todo, op ∈ t.calls.getLast? ∧ op.sized buf

/- A state `s` and the state `a` of the run of whole calls. -/
structure Rel (buf : ℕ → Buf) (s a : State) : Prop where
  inv : a.Inv
  asked : ∀ t ∈ s.tasks, t.Asked buf
  tasks : a.tasks = s.tasks.map twin
  got : ∀ x, a.sh.got x + s.has .fresh x = s.sh.got x
  released : ∀ x, s.sh.released.count x + s.has .rels x =
    a.sh.released.count x + if buf x = .inside then 0 else s.has .early x

theorem Rel.idle (hr : Rel buf s a) : ∀ u ∈ a.tasks, u.pc = .idle := by
  intro u hu
  rw [hr.tasks] at hu
  obtain ⟨t,-,rfl⟩ := List.mem_map.mp hu
  rfl

theorem Rel.task (hr : Rel buf s a) (hi : s.tasks[i]? = some t) : a.tasks[i]? = some (twin t) := by
  rw [hr.tasks,List.getElem?_map,hi]
  rfl

/- The header of a block that is given up early was not the block's own. -/
theorem early_apart (hinv : s.Inv) (ht : t ∈ s.tasks) {bp dp : ℕ}
    (hpc : t.pc = .run l (.ownPos bp dp) z ∨ t.pc = .run l (.decOwn bp dp) z) :
    dp ≠ bp ∧ (s.sh.ref dp).val = 0 ∧ (s.sh.ref bp).val ≠ 0 := by
  obtain ⟨i,hi⟩ := List.getElem?_of_mem ht
  have he : 1 ≤ t.pc.has .early dp := by rcases hpc with hpc | hpc <;> simp [hpc,Pc.has,Key.has]
  have hn : 1 ≤ t.pc.has .net bp := by rcases hpc with hpc | hpc <;> simp [hpc,Pc.has,Key.has]
  have hb := pc_share hinv hi (x := bp)
  have hle := pc_le hi (c := .early) (x := dp)
  have h0 : (s.sh.ref dp).val = 0 := by
    by_contra hne
    have := (hinv.good dp).live hne
    omega
  refine ⟨?_,h0,by omega⟩
  rintro rfl
  omega

/- What the task has in the other run. -/
theorem twin_net (hinv : s.Inv) (ht : t ∈ s.tasks) (x : ℕ) :
    (twin t).has .net x + t.has .fresh x = t.has .net x + (t.has .raise x + t.has .early x) := by
  have hfit := hinv.fit t ht
  have h0 : ∀ c, c = .fresh ∨ c = .raise ∨ c = .early → handlesHave c t.handles x = 0 := by
    rintro c (rfl | rfl | rfl) <;> simp [handlesHave,Handle.has]
  simp only [Task.has,Tasks.twin,handlesHave_add,h0 .fresh (Or.inl rfl),h0 .raise (Or.inr (Or.inl rfl)),
    h0 .early (Or.inr (Or.inr rfl))]
  cases hpc : t.pc with
  | idle => simp [Pc.has,Pc.owed,no_handles]
  | dup mp bp =>
    simp [Pc.has,Pc.owed,handlesHave_single,Handle.has]
    omega
  | call h newbp | enter h newbp _ | dec h newbp =>
    simp [Pc.has,Pc.owed,handlesHave_single,newHas,Handle.has]
    omega
  | run l key z =>
    rw [hpc] at hfit
    cases key with
    | ownPos bp dp | decOwn bp dp =>
      have hdb := (@early_apart s t l z hinv ht bp dp (by simp [hpc])).1
      simp [Pc.has,Pc.owed,handlesHave_single,Key.has,outs,Handle.has,hdb]
      omega
    | incRef mp n | swap mp n =>
      have hn : n ≠ mp := hfit
      simp [Pc.has,Pc.owed,handlesHave_single,Key.has,outs,Handle.has,hn]
      omega
    | lastOwn bp => exact hfit.elim
    | decLast bp => exact hfit.elim
    | _ => simp [Pc.has,Pc.owed,Key.has,outs,no_handles]

/- The counts of the other run. -/
theorem Rel.ref (hinv : s.Inv) (hr : Rel buf s a) (x : ℕ) :
    (a.sh.ref x).val + s.has .fresh x = (s.sh.ref x).val + (s.has .raise x + s.has .early x) := by
  rw [(hr.inv.good x).ref,(hinv.good x).ref,State.has,State.has,State.has,State.has,State.has,hr.tasks,total_map,
    ← total_add,← total_add,← total_add]
  exact total_congr fun t ht => twin_net hinv ht x

/- A header with a count has the same one in the other run, if it is known. -/
theorem Rel.same (hinv : s.Inv) (hr : Rel buf s a) (hx : (s.sh.ref x).val ≠ 0) (hf : s.has .fresh x = 0) :
    (a.sh.ref x).val = (s.sh.ref x).val := by
  have := hr.ref hinv x
  obtain ⟨-,-,hra,hea,-⟩ := (hinv.good x).live hx
  omega

theorem set_same {i : ℕ} (hi : s.tasks[i]? = some t) (h : twin t' = twin t) :
    (s.tasks.set i t').map twin = s.tasks.map twin := by
  obtain ⟨hlt,rfl⟩ := List.getElem?_eq_some_iff.mp hi
  rw [List.map_set,h]
  apply List.ext_getElem?
  intro j
  rcases eq_or_ne i j with rfl | hne
  · simp [hlt]
  · simp [List.getElem?_set_ne hne]

theorem asked_set (hr : Rel buf s a) (ht : t'.Asked buf) (sh : Shared) :
    ∀ u ∈ (State.mk sh (s.tasks.set i t')).tasks, u.Asked buf := by
  intro u hu
  rcases List.mem_or_eq_of_mem_set hu with hu | rfl
  · exact hr.asked u hu
  · exact ht

/-! ### Steps that have no effect yet -/

/- The step of a task in the middle of a call leaves the other run alone. -/
theorem Rel.stay (hr : Rel buf s a) (hi : s.tasks[i]? = some t) (htw : twin t' = twin t) (hask : t'.Asked buf)
    (hgot : ∀ x, sh.got x + t.has .fresh x = s.sh.got x + t'.has .fresh x)
    (hrel : ∀ x, sh.released.count x + t'.has .rels x + (if buf x = .inside then 0 else t.has .early x) =
      s.sh.released.count x + t.has .rels x + if buf x = .inside then 0 else t'.has .early x) :
    Rel buf ⟨sh,s.tasks.set i t'⟩ a := by
  refine ⟨hr.inv,asked_set hr hask sh,hr.tasks.trans (set_same hi htw).symm,fun x => ?_,fun x => ?_⟩
  · have h1 := has_set hi sh t' .fresh x
    have h2 := hr.got x
    have h3 := hgot x
    dsimp only at *
    omega
  · have h1 := has_set hi sh t' .rels x
    have h2 := hr.released x
    have h3 := hrel x
    have h4 := has_set hi sh t' .early x
    dsimp only at *
    split_ifs at * <;> omega

theorem handles_none (hc : c = .fresh ∨ c = .raise ∨ c = .early ∨ c = .rels) (hs : Multiset Handle) (x : ℕ) :
    handlesHave c hs x = 0 := by
  rcases hc with rfl | rfl | rfl | rfl <;> simp [handlesHave,Handle.has]

theorem Rel.shift (hr : Rel buf s a) (hi : s.tasks[i]? = some t) {hs : Multiset Handle}
    (howed : hs + pc.owed = t.pc.owed) (htodo : pc.todo = t.pc.todo)
    (hgot : ∀ x, sh.got x + t.pc.has .fresh x = s.sh.got x + pc.has .fresh x)
    (hrel : ∀ x, sh.released.count x + pc.has .rels x + (if buf x = .inside then 0 else t.pc.has .early x) =
      s.sh.released.count x + t.pc.has .rels x + if buf x = .inside then 0 else pc.has .early x) :
    Rel buf ⟨sh,s.tasks.set i { t with handles := t.handles + hs, pc := pc }⟩ a := by
  have hask := hr.asked t (List.mem_of_getElem? hi)
  have hf := handles_none (Or.inl rfl)
  have he := handles_none (c := .early) (by simp)
  have hq := handles_none (c := .rels) (by simp)
  refine hr.stay hi ?_ ?_ (fun x => ?_) fun x => ?_
  · simp only [Tasks.twin,htodo,← howed,add_assoc]
  · rw [Task.Asked]
    rw [Task.Asked] at hask
    simp only [htodo]
    exact hask
  · simp only [Task.has,hf,zero_add]
    exact hgot x
  · simp only [Task.has,he,hq,zero_add]
    exact hrel x

/- The task goes on, but gives nothing back. -/
theorem Rel.rest (hr : Rel buf s a) (hi : s.tasks[i]? = some t) {hs : Multiset Handle}
    (howed : hs + pc.owed = t.pc.owed) (htodo : pc.todo = t.pc.todo) (hgot : ∀ x, sh.got x = s.sh.got x)
    (hrel : sh.released = s.sh.released)
    (hhas : ∀ x, pc.has .fresh x = t.pc.has .fresh x ∧ pc.has .rels x = t.pc.has .rels x ∧
      pc.has .early x = t.pc.has .early x) :
    Rel buf ⟨sh,s.tasks.set i { t with handles := t.handles + hs, pc := pc }⟩ a :=
  hr.shift hi howed htodo (fun x => by rw [hgot,(hhas x).1]) fun x => by rw [hrel,(hhas x).2.1,(hhas x).2.2]

/-! ### Steps that take effect -/

theorem Rel.effect (hr : Rel buf s a) (hi : s.tasks[i]? = some t) (ha : a'.Inv)
    (htask : a'.tasks = a.tasks.set i (twin t')) (hask : t'.Asked buf)
    (hgot : ∀ x, sh.got x + a.sh.got x + t.has .fresh x = s.sh.got x + a'.sh.got x + t'.has .fresh x)
    (hrel : ∀ x, sh.released.count x + t'.has .rels x + a.sh.released.count x +
        (if buf x = .inside then 0 else t.has .early x) =
      s.sh.released.count x + t.has .rels x + a'.sh.released.count x + if buf x = .inside then 0 else t'.has .early x) :
    Rel buf ⟨sh,s.tasks.set i t'⟩ a' := by
  refine ⟨ha,asked_set hr hask sh,?_,fun x => ?_,fun x => ?_⟩
  · rw [htask,hr.tasks,List.map_set]
  · have h1 := has_set hi sh t' .fresh x
    have h2 := hr.got x
    have h3 := hgot x
    dsimp only at *
    omega
  · have h1 := has_set hi sh t' .rels x
    have h2 := hr.released x
    have h3 := hrel x
    have h4 := has_set hi sh t' .early x
    dsimp only at *
    split_ifs at * <;> omega

theorem twin_erase (ht : t.pc.owed = {h}) : (twin t).handles.erase h = t.handles ∧ h ∈ (twin t).handles := by
  have : (twin t).handles = h ::ₘ t.handles := by
    rw [Tasks.twin,ht,add_comm]
    rfl
  rw [this]
  exact ⟨Multiset.erase_cons_head ..,Multiset.mem_cons_self ..⟩

theorem twin_calls {op : Op} (ht : t.Asked buf) (htodo : t.pc.todo = some op) :
    (twin t).calls ++ [op] = t.calls ∧ op.sized buf := by
  obtain ⟨hlast,hsized⟩ := ht op (by rw [htodo]; rfl)
  refine ⟨?_,hsized⟩
  simp only [Tasks.twin,htodo]
  exact List.dropLast_append_getLast? op hlast

/- The whole call in the other run. -/
theorem Rel.call (hr : Rel buf s a) (hi : s.tasks[i]? = some t) (htodo : t.pc.todo = some (callOf h newbp))
    (howed : t.pc.owed = {h}) (hd : (a.sh.ref h.datap).val ≠ 0) (hb : (a.sh.ref h.bp).val ≠ 0)
    (hnew : ∀ n, newbp = some n → a.sh.got n = 0 ∧ n ≠ h.bp ∧ n ≠ h.datap) :
    ∃ a', a.whole buf (i,callOf h newbp) = some a' ∧ a'.Inv ∧
      a'.tasks = a.tasks.set i ⟨t.handles + gains h newbp,.idle,t.calls⟩ ∧
      (∀ x, a'.sh.got x = a.sh.got x + newHas .fresh newbp x) ∧
      ∀ x, a'.sh.released.count x = a.sh.released.count x +
        if (a.sh.ref h.datap).val = 1 then bufferOf buf h.datap x else 0 := by
  obtain ⟨herase,hmem⟩ := twin_erase howed
  obtain ⟨hcalls,hsized⟩ := twin_calls (hr.asked t (List.mem_of_getElem? hi)) htodo
  have hia := hr.task hi
  cases newbp with
  | none =>
    have hstart : a.start buf i (callOf h none) = some ⟨a.sh,a.tasks.set i ⟨t.handles,.call h none,t.calls⟩⟩ := by
      simp only [State.start,hia,Tasks.start,callOf,receive]
      rw [if_pos (show (twin t).pc = .idle from rfl),if_pos hmem]
      simp only [herase,Option.map_some]
      rw [show (twin t).calls ++ [Op.freeb h] = t.calls from hcalls]
    obtain ⟨sh',hw,hinv',hg,hrel⟩ :=
      whole_call hr.inv hr.idle hia hstart (fun mp bp hc => by cases hc) (runs_call hd hb)
    exact ⟨_,hw,hinv',rfl,hg,hrel⟩
  | some n =>
    obtain ⟨hgot,hnb,hnd⟩ := hnew n rfl
    have hn : n ∉ a.sh.used := fun hc => by simp [Shared.got,hc] at hgot
    have hz := (hr.inv.good n).unused hgot
    have hstart : a.start buf i (callOf h (some n)) =
        some ⟨a.sh.alloc n,a.tasks.set i ⟨t.handles,.call h (some n),t.calls⟩⟩ := by
      simp only [State.start,hia,Tasks.start,callOf,receive]
      rw [if_pos (show (twin t).pc = .idle from rfl),if_pos ⟨hmem,hn,hsized⟩]
      simp only [herase,Option.map_some]
      rw [show (twin t).calls ++ [Op.pullup h n] = t.calls from hcalls]
    have hvd := alloc_val hz h.datap
    have hvb := alloc_val hz h.bp
    rw [ind_ne hnd,add_zero] at hvd
    rw [ind_ne hnb,add_zero] at hvb
    obtain ⟨sh',hw,hinv',hg,hrel⟩ :=
      whole_call hr.inv hr.idle hia hstart (fun mp bp hc => by cases hc)
        (runs_call (by rw [hvd]; exact hd) (by rw [hvb]; exact hb))
    refine ⟨_,hw,hinv',rfl,fun x => ?_,fun x => ?_⟩
    · rw [hg,alloc_got hn]
      rfl
    · rw [hrel,hvd]
      rfl

/- One more whole call, or none. -/
def Follows (buf : ℕ → Buf) (a : State) (s' : State) : Prop :=
  ∃ log a', exec (State.whole buf) a log = some a' ∧ Rel buf s' a'

theorem Follows.none (h : Rel buf s' a) : Follows buf a s' := ⟨[],a,rfl,h⟩

theorem Follows.one {call : ℕ × Op} (hw : a.whole buf call = some a') (h : Rel buf s' a') : Follows buf a s' :=
  ⟨[call],a',by simp [exec_cons,hw],h⟩

theorem key_none (key : Key) (x : ℕ) : key.has .fresh x = 0 ∧ key.has .rels x = 0 := by
  cases key <;> exact ⟨rfl,rfl⟩

theorem zeroed_rels (x : ℕ) : (zeroed buf h newbp).has .fresh x = 0 ∧
    (zeroed buf h newbp).has .rels x = bufferOf buf h.datap x := by
  obtain ⟨hf,hr⟩ := key_none (zeroedKey h newbp) x
  rw [zeroed_has,zeroed_has,hf,hr]
  exact ⟨rfl,Nat.zero_add _⟩

/- Only a block whose data block is another header's is given up early. -/
theorem zeroed_todo : newbp = none ∧ (zeroed buf h newbp).owed = {h} ∧
      (zeroed buf h newbp).todo = some (callOf h newbp) ∧ (∀ x, (zeroed buf h newbp).has .early x = ind h.datap x) ∨
    (zeroed buf h newbp).todo = none ∧ (zeroed buf h newbp).owed = gains h newbp ∧
      ∀ x, (zeroed buf h newbp).has .early x = 0 := by
  by_cases hdb : h.datap = h.bp
  · refine Or.inr ⟨?_,?_,fun x => ?_⟩
    · cases newbp <;> simp [zeroed,hdb,Pc.todo]
    · cases newbp <;> simp [zeroed,hdb,Pc.owed,gains]
    · rw [zeroed_has]
      cases newbp <;> simp [zeroedKey,hdb,Key.has]
  · cases newbp with
    | none =>
      refine Or.inl ⟨rfl,?_,?_,fun x => ?_⟩
      · simp [zeroed,hdb,Pc.owed]
      · simp [zeroed,hdb,Pc.todo,callOf]
      · rw [zeroed_has]
        simp [zeroedKey,hdb,Key.has]
    | some n =>
      refine Or.inr ⟨?_,?_,fun x => ?_⟩
      · simp [zeroed,hdb,Pc.todo]
      · simp [zeroed,hdb,Pc.owed,gains]
      · rw [zeroed_has]
        simp [zeroedKey,hdb,Key.has]

/- What is left to do when lis_freedb has decremented the count. -/
theorem commit_pc {s : Shared} (hc : Commit buf s h newbp sh pc) :
    (∀ x, pc.has .fresh x = 0 ∧ pc.has .rels x = if (s.ref h.datap).val = 1 then bufferOf buf h.datap x else 0) ∧
    ((newbp = none ∧ (s.ref h.datap).val = 1 ∧ pc.owed = {h} ∧ pc.todo = some (callOf h newbp) ∧
        ∀ x, pc.has .early x = ind h.datap x) ∨
      pc.todo = none ∧ pc.owed = gains h newbp ∧ ∀ x, pc.has .early x = 0) := by
  cases hc with
  | zero h1 =>
    refine ⟨fun x => ?_,?_⟩
    · rw [if_pos h1]
      exact zeroed_rels x
    · rcases @zeroed_todo buf h newbp with ⟨hn,ho,ht,he⟩ | hlate
      · exact Or.inl ⟨hn,h1,ho,ht,he⟩
      · exact Or.inr hlate
  | more hk hd h1 =>
    subst hk
    refine ⟨fun x => ?_,Or.inr ⟨rfl,rfl,fun x => by simp [Pc.has,Key.has,outs]⟩⟩
    rw [if_neg (by omega)]
    simp [Pc.has,Key.has,outs]
  | own hk hd h1 =>
    subst hk
    refine ⟨fun x => ?_,Or.inr ⟨rfl,rfl,fun x => by simp [Pc.has,Key.has,outs]⟩⟩
    rw [if_neg (show (s.ref h.datap).val ≠ 1 by omega)]
    split_ifs <;> simp [Pc.has,Key.has,outs]
  | keep n hk hd h1 | lose n hk hd h1 =>
    subst hk
    refine ⟨fun x => ?_,Or.inr ⟨rfl,rfl,fun x => by simp [Pc.has,Key.has,outs]⟩⟩
    rw [if_neg (by omega)]
    simp [Pc.has,Key.has,outs]

theorem bufferOf_eq (d x : ℕ) : bufferOf buf d x = if buf x = .inside then 0 else ind d x := by
  unfold bufferOf
  rcases eq_or_ne d x with rfl | hne
  · rfl
  · simp [ind_ne hne]

/- A section or a decrement of lis_freedb. -/
theorem commit_rel (hinv : s.Inv) (hr : Rel buf s a) (hi : s.tasks[i]? = some t)
    (hpc : ∀ c x, t.pc.has c x = h.has c x + newHas c newbp x) (htodo : t.pc.todo = some (callOf h newbp))
    (howed : t.pc.owed = {h}) (hc : Commit buf s.sh h newbp sh pc) :
    Follows buf a ⟨sh,s.tasks.set i { t with handles := t.handles + 0, pc := pc }⟩ := by
  obtain ⟨hgot,hreleased⟩ := commit_same hc
  obtain ⟨hfr,hcase⟩ := commit_pc hc
  have hhas : ∀ x, t.pc.has .fresh x = newHas .fresh newbp x ∧ t.pc.has .rels x = 0 ∧ t.pc.has .early x = 0 := by
    intro x
    simp [hpc,Handle.has,newHas]
  rcases hcase with ⟨hk,h1,ho,ht,he⟩ | ⟨ht,ho,he⟩
  · refine .none (hr.shift hi ?_ ?_ (fun x => ?_) fun x => ?_)
    · rw [ho,howed,zero_add]
    · rw [ht,htodo]
    · rw [hgot,(hhas x).1,(hfr x).1,hk]
      rfl
    · rw [hreleased,(hhas x).2.1,(hhas x).2.2,(hfr x).2,he,if_pos h1,bufferOf_eq,ite_self]
      omega
  · have hnet := handle_net h
    have hd : (s.sh.ref h.datap).val ≠ 0 := by
      have := pc_share hinv hi (x := h.datap)
      rw [hpc] at this
      omega
    have hb : (s.sh.ref h.bp).val ≠ 0 := by
      have := pc_share hinv hi (x := h.bp)
      rw [hpc] at this
      omega
    have had := hr.same hinv hd ((given hinv hi hpc h.datap).datap (ind_self _)).1
    have hab := hr.same hinv hb ((given hinv hi hpc h.bp).bp (ind_self _)).2.1
    have hapart := new_apart hinv hi hpc
    have hnew : ∀ n, newbp = some n → a.sh.got n = 0 := by
      intro n hn
      have hgn := hr.got n
      have hfn := pc_le hi (c := .fresh) (x := n)
      have hle := got_le s.sh (x := n)
      rw [(hhas n).1,hn] at hfn
      simp only [newHas,Option.elim,ind_self] at hfn
      omega
    obtain ⟨a',hw,ha',htask,hg,hrel⟩ := hr.call hi htodo howed (by rw [had]; exact hd) (by rw [hab]; exact hb)
      fun n hn => ⟨hnew n hn,hapart n hn⟩
    refine .one hw (hr.effect hi ha' ?_ ?_ (fun x => ?_) fun x => ?_)
    · rw [htask]
      simp only [Tasks.twin,ht,ho,add_zero]
    · intro op hop
      simp only [ht] at hop
      cases hop
    · rw [hgot,hg]
      simp only [Task.has,handles_none (Or.inl rfl),(hhas x).1,(hfr x).1]
      omega
    · rw [hreleased,hrel,had]
      simp only [Task.has,handles_none (c := .early) (by simp),handles_none (c := .rels) (by simp),(hhas x).2.1,
        (hhas x).2.2,(hfr x).2,he]
      omega

/- A data block that was given back early has its one reference in the other run. -/
theorem early_ref (hinv : s.Inv) (hr : Rel buf s a) (hi : s.tasks[i]? = some t) {bp dp : ℕ}
    (hpc : t.pc = .run [] (.decOwn bp dp) z) : (a.sh.ref dp).val = 1 := by
  obtain ⟨-,h0,-⟩ := early_apart hinv (List.mem_of_getElem? hi) (Or.inr hpc)
  have hd := (hinv.good dp).dead h0
  have he := (hinv.good dp).early
  have hf := (hinv.good dp).fresh
  have hle := pc_le hi (c := .early) (x := dp)
  have hgot := got_le s.sh (x := dp)
  have href := hr.ref hinv dp
  rw [hpc] at hle
  simp only [Pc.has,Key.has,ind_self] at hle
  omega

theorem decOwn_rel (hinv : s.Inv) (hr : Rel buf s a) (hi : s.tasks[i]? = some t) {bp dp : ℕ}
    (hpc : t.pc = .run [] (.decOwn bp dp) z) : Follows buf a
      ⟨s.sh.dec bp,s.tasks.set i { t with handles := t.handles + 0, pc := .run [] (.test0 bp) z }⟩ := by
  obtain ⟨hdb,h0,hb⟩ := early_apart hinv (List.mem_of_getElem? hi) (Or.inr hpc)
  have hd := early_ref hinv hr hi hpc
  have hab := hr.same hinv hb (own_alone hinv hi hpc).2.1
  obtain ⟨a',hw,ha',htask,hg,hrel⟩ := @Rel.call buf s a t i ⟨bp,dp⟩ none hr hi (by rw [hpc]; rfl) (by rw [hpc]; rfl)
    (by rw [hd]; exact Nat.one_ne_zero) (by rw [hab]; exact hb) fun n hn => by cases hn
  refine .one hw (hr.effect hi ha' (htask.trans ?_) ?_ (fun x => ?_) fun x => ?_)
  · simp [Tasks.twin,gains,Pc.owed,Pc.todo]
  · intro op hop
    cases hop
  · have h1 := hg x
    simp only [Task.has,handles_none (Or.inl rfl),dec_got]
    simp only [hpc,Pc.has,Key.has,newHas,Option.elim,outs] at h1 ⊢
    omega
  · have h1 := hrel x
    rw [if_pos hd,bufferOf_eq] at h1
    simp only [Task.has,handles_none (c := .early) (by simp),handles_none (c := .rels) (by simp),dec_released]
    simp only [hpc,Pc.has,Key.has,outs] at h1 ⊢
    split_ifs at * <;> omega

theorem run_rel {key : Key} (hinv : s.Inv) (hr : Rel buf s a) (hi : s.tasks[i]? = some t)
    (hpc : t.pc = .run l key z) : Follows buf a
      ⟨(next buf s.sh t.pc).1,s.tasks.set i { t with
        handles := t.handles + (next buf s.sh t.pc).2.2, pc := (next buf s.sh t.pc).2.1 }⟩ := by
  have hfit := hinv.fit t (List.mem_of_getElem? hi)
  cases l with
  | cons o l =>
    refine .none (hr.shift hi ?_ ?_ (fun x => ?_) fun x => ?_)
    · rw [hpc]
      cases key <;> simp [next,Pc.owed]
    · rw [hpc]
      cases key <;> rfl
    · rw [hpc]
      simp only [next,out_got,Pc.has,outs]
    · rw [hpc]
      cases o with
      | buffer y =>
        simp [next,Pc.has,outs,Shared.out,List.count_cons]
        omega
      | header y =>
        simp [next,Pc.has,outs,Shared.out]
  | nil =>
    rw [hpc] at hfit
    cases key with
    | done =>
      cases z with
      | nil =>
        exact .none (hr.rest hi (by rw [hpc]; rfl) (by rw [hpc]; rfl) (fun _ => by rw [hpc]; rfl) (by rw [hpc]; rfl)
          fun x => by rw [hpc]; simp [next,Pc.has,Key.has,outs])
      | cons o z =>
        exact .none (hr.rest hi (by rw [hpc]; rfl) (by rw [hpc]; rfl) (fun _ => by rw [hpc]; rfl) (by rw [hpc]; rfl)
          fun x => by rw [hpc]; simp [next,Pc.has,outs])
    | ownPos bp dp =>
      have hb := (early_apart hinv (List.mem_of_getElem? hi) (Or.inl hpc)).2.2
      have hne : s.sh.ref bp ≠ 0 := fun hc => hb (val_zero.mp hc)
      simp only [hpc,next,if_pos hne]
      exact .none (hr.rest hi (by rw [hpc]; rfl) (by rw [hpc]; rfl) (fun _ => rfl) rfl
        fun x => by rw [hpc]; simp [Pc.has,Key.has])
    | decOwn bp dp =>
      have := decOwn_rel hinv hr hi hpc
      rw [hpc]
      exact this
    | test0 bp =>
      refine .none (hr.rest hi (by rw [hpc]; rfl) (by rw [hpc]; rfl) (fun _ => by rw [hpc]; rfl) (by rw [hpc]; rfl)
        fun x => ?_)
      rw [hpc]
      simp only [next]
      split_ifs <;> simp [Pc.has,Key.has,outs]
    | incRef mp n =>
      exact .none (hr.rest hi (by rw [hpc]; rfl) (by rw [hpc]; rfl) (fun _ => by rw [hpc]; rfl) (by rw [hpc]; rfl)
        fun x => by rw [hpc]; simp [next,Pc.has,Key.has,outs])
    | swap mp n =>
      exact .none (hr.rest hi (by rw [hpc]; rfl) (by rw [hpc]; rfl) (fun _ => by rw [hpc]; rfl) (by rw [hpc]; rfl)
        fun x => by rw [hpc]; simp [next,Pc.has,Key.has,outs])
    | lastOwn bp => exact hfit.elim
    | decLast bp => exact hfit.elim

/- The section of lis_dupb. -/
theorem dup_rel (hinv : s.Inv) (hr : Rel buf s a) (hi : s.tasks[i]? = some t) {mp : Handle} {bp : ℕ}
    (hpc : t.pc = .dup mp bp) (hguard : s.sh.ref mp.datap ≠ 255) : Follows buf a
      ⟨s.sh.inc mp.datap,s.tasks.set i { t with handles := t.handles + {mp,⟨bp,mp.datap⟩}, pc := .idle }⟩ := by
  obtain ⟨herase,hmem⟩ := @twin_erase t mp (by rw [hpc]; rfl)
  obtain ⟨hcalls,hsized⟩ := @twin_calls buf t (.dupb mp bp) (hr.asked t (List.mem_of_getElem? hi)) (by rw [hpc]; rfl)
  have hia := hr.task hi
  have hfp := pc_le hi (c := .fresh) (x := bp)
  have hgn := hr.got bp
  have hle := got_le s.sh (x := bp)
  rw [hpc] at hfp
  simp only [Pc.has,Handle.has,reduceCtorEq,or_true,if_true,ind_self] at hfp
  have hgot : a.sh.got bp = 0 := by omega
  have hn : bp ∉ a.sh.used := fun hc => by simp [Shared.got,hc] at hgot
  have hstart : a.start buf i (.dupb mp bp) = some ⟨a.sh.alloc bp,a.tasks.set i ⟨t.handles,.dup mp bp,t.calls⟩⟩ := by
    simp only [State.start,hia,Tasks.start,receive]
    rw [if_pos (show (twin t).pc = .idle from rfl),if_pos ⟨hmem,hn,hsized⟩]
    simp only [herase,Option.map_some]
    rw [show (twin t).calls ++ [Op.dupb mp bp] = t.calls from hcalls]
  have hz := (hr.inv.good bp).unused hgot
  obtain ⟨hdb,hf,hd⟩ := dup_known hinv hi hpc
  have hval := alloc_val hz mp.datap
  rw [ind_ne (Ne.symm hdb),add_zero,hr.same hinv hd hf] at hval
  have hsame : (a.sh.alloc bp).ref mp.datap ≠ 255 := by
    rw [show (a.sh.alloc bp).ref mp.datap = s.sh.ref mp.datap from Fin.ext hval]
    exact hguard
  obtain ⟨sh',hw,ha',hg,hrel⟩ := whole_call hr.inv hr.idle hia hstart
    (fun mp' bp' hc => by obtain ⟨rfl,-⟩ := Pc.dup.inj hc; exact hsame) (runs_dup.mono (by omega) fun _ => rfl)
  refine .one hw (hr.effect hi ha' ?_ ?_ (fun x => ?_) fun x => ?_)
  · simp [Tasks.twin,Pc.owed,Pc.todo]
  · intro op hop
    cases hop
  · have h1 := hg x
    rw [alloc_got hn] at h1
    simp only [Task.has,handles_none (Or.inl rfl),inc_got]
    simp only [hpc,Pc.has,Handle.has,reduceCtorEq,or_true,if_true] at h1 ⊢
    omega
  · have h1 := hrel x
    simp only [Task.has,handles_none (c := .early) (by simp),handles_none (c := .rels) (by simp),inc_released]
    simp only [hpc,Pc.has,Handle.has,alloc_released,reduceCtorEq,or_false,if_false,ite_self] at h1 ⊢
    omega

theorem Rel.advance (hinv : s.Inv) (hr : Rel buf s a) (hi : s.tasks[i]? = some t) (hguard : Guard s (.advance i)) :
    Follows buf a ⟨(advance buf s.sh t).1,s.tasks.set i (advance buf s.sh t).2⟩ := by
  have hg := hguard t (Option.mem_def.mpr hi)
  have hfit := hinv.fit t (List.mem_of_getElem? hi)
  unfold Tasks.advance
  dsimp only
  cases hpc : t.pc with
  | idle =>
    exact .none (hr.rest hi (by rw [hpc]; rfl) (by rw [hpc]; rfl) (fun _ => rfl) rfl
      fun x => by rw [hpc]; simp [next])
  | dup mp bp =>
    rw [hpc] at hg
    exact dup_rel hinv hr hi hpc hg
  | call h newbp =>
    exact .none (hr.rest hi (by rw [hpc]; simp [next,Pc.owed]) (by rw [hpc]; rfl) (fun _ => rfl) rfl
      fun x => by rw [hpc]; simp [next,Pc.has])
  | enter h newbp l =>
    rw [hpc] at hg hfit
    have hhas : ∀ c x, t.pc.has c x = h.has c x + newHas c newbp x := fun c x => by rw [hpc]; rfl
    cases l with
    | true =>
      have hn := handle_net h
      have hd := pc_share hinv hi (x := h.datap)
      have hb := pc_share hinv hi (x := h.bp)
      rw [hhas] at hd hb
      exact commit_rel hinv hr hi hhas (by rw [hpc]; rfl) (by rw [hpc]; rfl) (locked_commit (by omega) (by omega))
    | false =>
      have h1 : (s.sh.ref h.datap).val = 1 := hfit
      have hne : s.sh.ref h.datap ≠ 0 := fun hc => by rw [hc] at h1; cases h1
      simp only [next,if_neg hne]
      exact .none (hr.rest hi (by rw [hpc]; simp [Pc.owed]) (by rw [hpc]; rfl) (fun _ => rfl) rfl
        fun x => by rw [hpc]; simp [Pc.has])
  | dec h newbp =>
    rw [hpc] at hfit
    have hhas : ∀ c x, t.pc.has c x = h.has c x + newHas c newbp x := fun c x => by rw [hpc]; rfl
    have h1 : (s.sh.ref h.datap).val = 1 := hfit
    have hval := dec_val (show (s.sh.ref h.datap).val ≠ 0 by omega) h.datap
    rw [ind_self] at hval
    have hz : (s.sh.dec h.datap).ref h.datap = 0 := val_zero.mpr (by omega)
    simp only [next,if_pos hz]
    exact commit_rel hinv hr hi hhas (by rw [hpc]; rfl) (by rw [hpc]; rfl) (.zero h1)
  | run l key z =>
    have := @run_rel buf s a t i l z key hinv hr hi hpc
    rw [hpc] at this
    exact this

/-! ### Calls -/

theorem twin_idle (h : t.pc = .idle) : twin t = t := by
  obtain ⟨hs,pc,cs⟩ := t
  obtain rfl := h
  simp [Tasks.twin,Pc.owed,Pc.todo]

/- A call that has no effect when it is made. -/
theorem Rel.begin (hr : Rel buf s a) (hi : s.tasks[i]? = some t) (hidle : t.pc = .idle) {op : Op} (hm : h ∈ t.handles)
    (htodo : pc.todo = some op) (howed : pc.owed = {h}) (hsized : op.sized buf)
    (hgot : ∀ x, sh.got x = s.sh.got x + pc.has .fresh x) (hrel : sh.released = s.sh.released)
    (hno : ∀ x, pc.has .rels x = 0 ∧ pc.has .early x = 0) :
    Rel buf ⟨sh,s.tasks.set i ⟨t.handles.erase h,pc,t.calls ++ [op]⟩⟩ a := by
  have h0 : ∀ c x, Pc.has c .idle x = 0 := fun c x => rfl
  refine hr.stay hi ?_ ?_ (fun x => ?_) fun x => ?_
  · rw [twin_idle hidle]
    obtain ⟨hs,pc',cs⟩ := t
    obtain rfl := hidle
    simp only [Tasks.twin,htodo,howed,List.dropLast_concat]
    rw [add_comm]
    exact congrArg (fun m => Task.mk m _ _) (Multiset.cons_erase hm)
  · intro op' hop
    rw [htodo] at hop
    obtain rfl := Option.some.inj hop
    exact ⟨by simp,hsized⟩
  · simp only [Task.has,handles_none (Or.inl rfl),hidle,h0,hgot]
    omega
  · simp only [Task.has,handles_none (c := .early) (by simp),handles_none (c := .rels) (by simp),hidle,h0,hrel,hno]

theorem asked_idle (h : t.pc = .idle) : t.Asked buf := by
  intro op hop
  rw [h] at hop
  cases hop

theorem asked_get (hr : Rel buf s a) (ht : t'.Asked buf) {j : ℕ} {u : Task}
    (hj : (s.tasks.set i t')[j]? = some u) : u.Asked buf := by
  rcases List.mem_or_eq_of_mem_set (List.mem_of_getElem? hj) with hu | rfl
  · exact hr.asked u hu
  · exact ht

/- A block changes hands. -/
theorem give_rel (hr : Rel buf s a) (hi : s.tasks[i]? = some t) (hidle : t.pc = .idle) (hm : h ∈ t.handles) {j : ℕ}
    {u : Task} (hj : (s.tasks.set i { t with
      handles := t.handles.erase h, calls := t.calls ++ [.give j h] })[j]? = some u) :
    Follows buf a ⟨s.sh,(s.tasks.set i { t with
      handles := t.handles.erase h, calls := t.calls ++ [.give j h] }).set j
      { u with handles := u.handles + {h} }⟩ := by
  generalize ht' : ({ t with handles := t.handles.erase h, calls := t.calls ++ [.give j h] } : Task) = t' at hj ⊢
  have hidle' : t'.pc = .idle := ht' ▸ hidle
  have hia := hr.task hi
  rw [twin_idle hidle] at hia
  have htasks : ((s.tasks.set i t').set j { u with handles := u.handles + {h} }).map twin =
      (a.tasks.set i t').set j { twin u with handles := (twin u).handles + {h} } := by
    rw [List.map_set,List.map_set,← hr.tasks,twin_idle hidle']
    simp only [Tasks.twin,add_right_comm]
  have hju : (a.tasks.set i t')[j]? = some (twin u) := by
    have := congrArg (Option.map twin) hj
    rw [← List.getElem?_map,List.map_set,← hr.tasks,twin_idle hidle'] at this
    exact this
  have hs : a.start buf i (.give j h) =
      some ⟨a.sh,(a.tasks.set i t').set j { twin u with handles := (twin u).handles + {h} }⟩ := by
    simp only [State.start,hia,Tasks.start]
    rw [if_pos hidle,if_pos hm]
    simp only [ht',receive,hju]
    rfl
  have hidles : ∀ v ∈ (a.tasks.set i t').set j { twin u with handles := (twin u).handles + {h} }, v.pc = .idle := by
    intro v hv
    rw [← htasks] at hv
    obtain ⟨w,-,rfl⟩ := List.mem_map.mp hv
    rfl
  have hlt : i < ((a.tasks.set i t').set j { twin u with handles := (twin u).handles + {h} }).length := by
    simp only [List.length_set]
    exact (List.getElem?_eq_some_iff.mp hia).1
  have hw : a.whole buf (i,.give j h) =
      some ⟨a.sh,(a.tasks.set i t').set j { twin u with handles := (twin u).handles + {h} }⟩ := by
    simp only [State.whole,hs,Option.bind_some,List.getElem?_eq_getElem hlt,Option.map_some]
    rw [settle_idle (hidles _ (List.getElem_mem hlt))]
    simp only [List.set_getElem_self]
  have hsame := ht' ▸ give_has hi hm (ht' ▸ hj)
  refine .one hw ⟨start_inv hr.inv hs,fun v hv => ?_,htasks.symm,fun x => ?_,fun x => ?_⟩
  · rcases List.mem_or_eq_of_mem_set hv with hv | rfl
    · rcases List.mem_or_eq_of_mem_set hv with hv | rfl
      · exact hr.asked v hv
      · exact asked_idle hidle'
    · exact show u.Asked buf from asked_get hr (asked_idle hidle') hj
  · rw [hsame]
    exact hr.got x
  · rw [hsame,hsame]
    exact hr.released x

theorem Rel.start {op : Op} (hr : Rel buf s a) (h : s.start buf i op = some s') : Follows buf a s' := by
  obtain ⟨t,r,l,hi,hidle,hstart,hl,rfl⟩ := start_cases h
  have hia := hr.task hi
  rw [twin_idle hidle] at hia
  cases op with
  | allocb n =>
    simp only [Tasks.start,Option.ite_none_right_eq_some,Option.some.injEq] at hstart
    obtain ⟨hn,rfl⟩ := hstart
    obtain rfl := Option.some.inj hl
    have hgn := hr.got n
    have hsn : s.sh.got n = 0 := if_neg hn
    have hna : n ∉ a.sh.used := fun hc => by
      have : a.sh.got n = 1 := if_pos hc
      omega
    have hs : a.start buf i (.allocb n) = some ⟨a.sh.alloc n,a.tasks.set i
        ⟨t.handles + {⟨n,n⟩},t.pc,t.calls ++ [.allocb n]⟩⟩ := by
      simp only [State.start,hia,Tasks.start,receive]
      rw [if_pos hidle,if_pos hna]
      rfl
    have hnew : Task.pc ⟨t.handles + {⟨n,n⟩},t.pc,t.calls ++ [.allocb n]⟩ = .idle := hidle
    have hruns := (@Runs.here buf (a.sh.alloc n) _ hnew).mono (Nat.zero_le 16) fun _ => rfl
    obtain ⟨sh',hw,ha',hg,hrel⟩ :=
      whole_call hr.inv hr.idle hia hs (fun mp bp hc => by rw [hidle] at hc; cases hc) hruns
    refine .one hw (hr.effect hi ha' ?_ ?_ (fun x => ?_) fun x => ?_)
    · exact congrArg (a.tasks.set i) (twin_idle hnew).symm
    · intro op hop
      simp only [hidle] at hop
      cases hop
    · have h1 := hg x
      rw [alloc_got hna] at h1
      simp only [Task.has,handles_none (Or.inl rfl),alloc_got hn,hidle]
      omega
    · have h1 := hrel x
      simp only [Task.has,handles_none (c := .early) (by simp),handles_none (c := .rels) (by simp),hidle]
      simp only [alloc_released] at h1 ⊢
      omega
  | give j h =>
    simp only [Tasks.start,Option.ite_none_right_eq_some,Option.some.injEq] at hstart
    obtain ⟨hm,rfl⟩ := hstart
    obtain ⟨u,hj,rfl⟩ := Option.map_eq_some_iff.mp hl
    exact give_rel hr hi hidle hm hj
  | dupb mp bp =>
    simp only [Tasks.start,Option.ite_none_right_eq_some,Option.some.injEq] at hstart
    obtain ⟨⟨hm,hn,hb⟩,rfl⟩ := hstart
    obtain rfl := Option.some.inj hl
    refine .none (hr.begin hi hidle hm rfl rfl hb (fun x => ?_) rfl fun x => ?_)
    · rw [alloc_got hn]
      simp [Pc.has,Handle.has]
    · simp [Pc.has,Handle.has]
  | freeb h =>
    simp only [Tasks.start,Option.ite_none_right_eq_some,Option.some.injEq] at hstart
    obtain ⟨hm,rfl⟩ := hstart
    obtain rfl := Option.some.inj hl
    refine .none (hr.begin hi hidle hm rfl rfl trivial (fun x => ?_) rfl fun x => ?_)
    · simp [Pc.has,Handle.has,newHas]
    · simp [Pc.has,Handle.has,newHas]
  | pullup mp n =>
    simp only [Tasks.start,Option.ite_none_right_eq_some,Option.some.injEq] at hstart
    obtain ⟨⟨hm,hn,hb⟩,rfl⟩ := hstart
    obtain rfl := Option.some.inj hl
    refine .none (hr.begin hi hidle hm rfl rfl hb (fun x => ?_) rfl fun x => ?_)
    · rw [alloc_got hn]
      simp [Pc.has,Handle.has,newHas]
    · simp [Pc.has,Handle.has,newHas]

/-! ### Runs -/

theorem init_has (n : ℕ) (c : Tally) (x : ℕ) : (State.init n).has c x = 0 := by
  refine total_zero fun t ht => ?_
  obtain rfl := List.eq_of_mem_replicate ht
  simp [Task.has,no_handles,Pc.has]

theorem init_inv (n : ℕ) : (State.init n).Inv := by
  constructor
  · intro x
    have h0 : (State.init n).sh.got x = 0 := rfl
    constructor <;> simp only [init_has,h0,le_refl,lt_irrefl,false_implies,add_zero] <;> intros <;> rfl
  · intro t ht
    obtain rfl := List.eq_of_mem_replicate ht
    trivial

theorem init_rel (n : ℕ) : Rel buf (State.init n) (State.init n) := by
  refine ⟨init_inv n,fun t ht => ?_,?_,fun x => ?_,fun x => ?_⟩
  · obtain rfl := List.eq_of_mem_replicate ht
    exact asked_idle rfl
  · simp [State.init,Tasks.twin,Pc.owed,Pc.todo]
  · rw [init_has]
    rfl
  · simp [init_has]

theorem step_rel {act : Act} (hinv : s.Inv) (hguard : Guard s act) (hr : Rel buf s a) (h : s.step buf act = some s') :
    Follows buf a s' := by
  cases act with
  | start i op => exact hr.start h
  | advance i =>
    obtain ⟨t,hi,rfl⟩ := Option.map_eq_some_iff.mp h
    exact hr.advance hinv hi hguard

theorem handlesHave_le {hs : Multiset Handle} (hm : h ∈ hs) : h.has c x ≤ handlesHave c hs x := by
  rw [handlesHave_erase hm]
  exact Nat.le_add_right ..

theorem holds_has (hh : t.Holds h) (c : Tally) (x : ℕ) : h.has c x ≤ t.has c x := by
  rcases hh with hm | hm
  · exact le_trans (handlesHave_le hm) (Nat.le_add_right ..)
  · refine le_trans ?_ (Nat.le_add_left ..)
    cases hpc : t.pc with
    | idle | run => rw [hpc] at hm; exact hm.elim
    | dup mp bp | call h' newbp | enter h' newbp l | dec h' newbp =>
      rw [hpc] at hm
      obtain rfl := hm
      exact Nat.le_add_right ..

theorem inv_once (hinv : s.Inv) (x : ℕ) : s.sh.freed.count x ≤ 1 ∧ s.sh.released.count x ≤ 1 := by
  have hgot := got_le s.sh (x := x)
  have hrels := (hinv.good x).rels
  refine ⟨?_,by omega⟩
  by_cases h0 : (s.sh.ref x).val = 0
  · have := (hinv.good x).dead h0
    omega
  · have := (hinv.good x).alive h0
    omega

/- What a task still has was not given back. -/
theorem inv_unused (hinv : s.Inv) (ht : t ∈ s.tasks) (hh : t.Holds h) (x : ℕ) :
    (x ∈ s.sh.released → h.datap ≠ x) ∧ (x ∈ s.sh.freed → h.datap ≠ x ∧ h.bp ≠ x) := by
  obtain ⟨i,hi⟩ := List.getElem?_of_mem ht
  have huse := holds_has hh .use h.datap
  have hnet := fun y => holds_has hh .net y
  obtain ⟨hd,hb⟩ := handle_net h
  have hfree : ∀ y, 1 ≤ h.has .net y → y ∉ s.sh.freed := by
    intro y hy hm
    have hshare := (hinv.good y).share hi
    have := (hinv.good y).alive (by have := hnet y; omega)
    have := List.count_pos_iff.mpr hm
    omega
  refine ⟨fun hm hx => ?_,fun hm => ⟨fun hx => ?_,fun hx => ?_⟩⟩
  · subst hx
    have := (hinv.good h.datap).quiet (le_trans (by simpa [Handle.has] using huse) (has_le hi))
    have := List.count_pos_iff.mpr hm
    omega
  · exact hfree x (hx ▸ hd) hm
  · exact hfree x (hx ▸ hb) hm

/- Between the calls the two runs have given back the same. -/
theorem Rel.settled (hinv : s.Inv) (hr : Rel buf s a) (hidle : ∀ t ∈ s.tasks, t.pc = .idle) :
    a.tasks = s.tasks ∧ a.sh.freed.Perm s.sh.freed ∧ a.sh.released.Perm s.sh.released := by
  have htasks : a.tasks = s.tasks := by
    rw [hr.tasks]
    exact (List.map_congr_left fun t ht => twin_idle (hidle t ht)).trans (List.map_id' s.tasks)
  have h0 : ∀ c x, c ≠ .net → c ≠ .use → c ≠ .head → s.has c x = 0 := by
    intro c x h1 h2 h3
    refine total_zero fun t ht => ?_
    rw [Task.has,hidle t ht]
    cases c <;> simp_all [handlesHave,Handle.has,Pc.has]
  have hsame : ∀ c x, a.has c x = s.has c x := fun c x => by rw [State.has,State.has,htasks]
  refine ⟨htasks,List.perm_iff_count.mpr fun x => ?_,List.perm_iff_count.mpr fun x => ?_⟩
  · have hgot := hr.got x
    rw [h0 .fresh x (by simp) (by simp) (by simp)] at hgot
    have href : (a.sh.ref x).val = (s.sh.ref x).val := by
      rw [(hr.inv.good x).ref,(hinv.good x).ref,hsame]
    have hg := hinv.good x
    have hg' := hr.inv.good x
    by_cases hz : (s.sh.ref x).val = 0
    · have h1 := hg.dead hz
      have h2 := hg'.dead (href.trans hz)
      simp only [hsame] at h2
      omega
    · have h1 := hg.alive hz
      have h2 := hg'.alive fun hc => hz (href.symm.trans hc)
      omega
  · have hrel := hr.released x
    rw [h0 .rels x (by simp) (by simp) (by simp),h0 .early x (by simp) (by simp) (by simp),ite_self] at hrel
    omega

/-- However the steps of the tasks fall between each other, what is given back is what one call after the other gives
back, once, and nothing that a task still has. -/
theorem tasks_right (buf : ℕ → Buf) (n : ℕ) (acts : List Act) (s : State)
    (hguard : Meets (State.step buf) Guard (State.init n) acts)
    (h : exec (State.step buf) (State.init n) acts = some s) : Right buf n s := by
  have hrun : s.Inv ∧ Follows buf (State.init n) s := by
    refine exec_preserves (I := fun s => s.Inv ∧ Follows buf (State.init n) s) ?_
      ⟨init_inv n,.none (init_rel n)⟩ hguard h
    intro s act s' ⟨hinv,log,a,hlog,hr⟩ hg hstep
    obtain ⟨log',a',hlog',hr'⟩ := step_rel hinv hg hr hstep
    exact ⟨step_inv hinv hg hstep,log ++ log',a',by rw [exec_append,hlog]; exact hlog',hr'⟩
  obtain ⟨hinv,log,a,hlog,hr⟩ := hrun
  refine ⟨fun x => inv_once hinv x,fun x t ht g hg => inv_unused hinv ht hg x,fun hidle => ?_⟩
  obtain ⟨htasks,hfreed,hreleased⟩ := hr.settled hinv hidle
  exact ⟨log,a,hlog,htasks,hfreed,hreleased⟩

def plain : ℕ → Buf := fun n => if n = 2 then .separate else .inside

/- One task pulls up a block that the other one has a duplicate of, and both free what they have. -/
def sharedRun : List Act :=
  [.start 0 (.allocb 0),.start 0 (.dupb ⟨0,0⟩ 1),.advance 0,.start 0 (.give 1 ⟨1,0⟩),.start 0 (.pullup ⟨0,0⟩ 2)] ++
    List.replicate 4 (.advance 0) ++ [.start 0 (.freeb ⟨0,2⟩)]

def sharedFrees : List Act :=
  sharedRun ++ [.start 1 (.freeb ⟨1,0⟩)] ++ List.replicate 4 (.advance 1) ++ List.replicate 9 (.advance 0)

theorem tasks_right_shared : ∃ s, exec (State.step plain) (State.init 2) sharedFrees = some s ∧ Right plain 2 s := by
  have hsome : (exec (State.step plain) (State.init 2) sharedFrees).isSome := by decide
  obtain ⟨s,hs⟩ := Option.isSome_iff_exists.mp hsome
  exact ⟨s,hs,tasks_right plain 2 sharedFrees s (by decide) hs⟩

/- The other task gives up the last reference before the first one looks at the count of its own header. -/
theorem twice_freed : (exec (State.step plain) (State.init 2) (sharedRun ++ List.replicate 6 (.advance 0) ++
    [.start 1 (.freeb ⟨1,0⟩)] ++ List.replicate 4 (.advance 1) ++ List.replicate 2 (.advance 0))).map
      (fun s => s.sh.freed) = some [2,0,0] := by decide

theorem header_twice : ¬ ∀ (buf : ℕ → Buf) (n : ℕ) (acts : List Act) (s : State),
    exec (State.step buf) (State.init n) acts = some s → Right buf n s := by
  intro hall
  obtain ⟨s,hs,hfreed⟩ := Option.map_eq_some_iff.mp twice_freed
  have honce := ((hall _ _ _ s hs).once 0).1
  rw [hfreed] at honce
  exact absurd honce (by decide)

end CSLiS.Buffer.Tasks
