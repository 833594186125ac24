import CSLiS.Sched.Runq
import CSLiS.Lib.Threaded
import CSLiS.Lib.Crew
import CSLiS.Lib.Exec

/-!
# No enable is lost (head/queue.c, head/stream.c, head/head.c)

Every queue is looked at alone: how often it is on the list, which sections are to be run for
it, and its flags. A queue that has QENAB is on the list, being put there, or taken and not yet
looked at. A queue that was enabled is one of these, or it is about to be served, or it has
QWANTENAB and something is in the way that is followed by `lis_retry_qenable`.
-/

namespace CSLiS.Sched
open Lib Exec Crew

structure View where
  listed : ℕ
  linking : ℕ
  enabling : ℕ
  clearing : ℕ
  serving : ℕ
  skipping : ℕ
  finishing : ℕ
  retrying : ℕ
  flag : Qflag
  owed : Bool

structure View.Ok (v : View) : Prop where
  enab : v.flag.qrunning = false → v.listed + v.linking = v.flag.qenab.toNat
  apart : v.flag.qrunning = true → v.listed + v.linking = 0
  running : v.clearing + v.serving + v.skipping + v.finishing = v.flag.qrunning.toNat
  cleared : v.flag.qrunning = true → v.clearing = 0 → v.flag.qenab = false
  due : v.owed = true → v.flag.gone = false → 0 < v.listed + v.linking + v.enabling + v.clearing + v.serving ∨
    v.flag.qwantenab = true ∧ (v.flag.deferEnable = true ∨ 0 < v.retrying)

theorem Qflag.deferEnable_of {f : Qflag} (h : f.inhEnable = true) (hg : f.gone = false) : f.deferEnable = true := by
  simp_all [inhEnable,deferEnable,gone]

/-! ### What the sections do to one queue -/

namespace View

variable {v : View} {n : ℕ}

/- `lis_qenable` finds the queue inhibited. -/
theorem Ok.defer (h : v.Ok) (hi : v.flag.inhEnable = true) : { v with
    enabling := v.enabling - 1, owed := true
    flag := { v.flag with qwantenab := v.flag.qwantenab || v.flag.deferEnable } }.Ok := by
  refine ⟨h.enab,h.apart,h.running,h.cleared,fun _ hg => .inr ?_⟩
  have hd : v.flag.deferEnable = true := Qflag.deferEnable_of hi hg
  simp only [hd,Bool.or_true]
  exact ⟨trivial,.inl hd⟩

theorem Ok.enable (h : v.Ok) (hi : v.flag.inhEnable = false) : { v with
    enabling := v.enabling - 1, linking := v.linking + 1, owed := true
    flag := { v.flag with qenab := true } }.Ok := by
  simp only [Qflag.inhEnable,Bool.or_eq_false_iff] at hi
  obtain ⟨⟨⟨⟨⟨he,-⟩,-⟩,hr⟩,-⟩,-⟩ := hi
  have h1 := h.enab hr
  rw [he,Bool.toNat_false] at h1
  have hrun : v.flag.qrunning ≠ true := by simp [hr]
  refine ⟨fun _ => ?_,fun h => absurd h hrun,h.running,fun h => absurd h hrun,fun _ _ => .inl ?_⟩
  · simp only [Bool.toNat_true]
    omega
  · simp only
    omega

theorem Ok.link (h : v.Ok) (hl : 0 < v.linking) : { v with linking := v.linking - 1, listed := v.listed + 1 }.Ok := by
  have hs : v.listed + 1 + (v.linking - 1) = v.listed + v.linking := by omega
  refine ⟨fun hr => hs.trans (h.enab hr),fun hr => hs.trans (h.apart hr),h.running,h.cleared,fun ho hg => ?_⟩
  simp only [hs]
  exact h.due ho hg

/- `lis_retry_qenable` calls `lis_qenable`. -/
theorem Ok.again (h : v.Ok) : { v with
    retrying := v.retrying - 1, enabling := v.enabling + 1, flag := { v.flag with qwantenab := false } }.Ok := by
  refine ⟨h.enab,h.apart,h.running,h.cleared,fun _ _ => .inl ?_⟩
  simp only
  omega

theorem Ok.retried (h : v.Ok) (hi : (v.flag.qwantenab && !v.flag.inhEnable) = false) :
    { v with retrying := v.retrying - 1 }.Ok := by
  refine ⟨h.enab,h.apart,h.running,h.cleared,fun ho hg => (h.due ho hg).imp_right fun ⟨hw,_⟩ => ⟨hw,.inl ?_⟩⟩
  exact Qflag.deferEnable_of (by simpa [hw] using hi) hg

/- The procedures are on again, and the queue is to be retried. -/
theorem Ok.on (h : v.Ok) (hs : v.flag.qenab = true → v.flag.qrunning = true) (hn : 0 < n) : { v with
    retrying := v.retrying + n, flag := { v.flag with qprocsoff := false, qenab := false } }.Ok := by
  refine ⟨fun hr => ?_,h.apart,h.running,fun _ _ => rfl,fun ho hg => (h.due ho hg).imp_right fun ⟨hw,_⟩ => ⟨hw,.inr ?_⟩⟩
  · have he : v.flag.qenab = false := by
      by_contra hc
      exact absurd (hs (by simpa using hc)) (by simpa using hr)
    rw [← he]
    exact h.enab hr
  · simp only
    omega

theorem Ok.thaw (h : v.Ok) : { v with
    retrying := v.retrying + 1, flag := { v.flag with qopening := false, qfrozen := false } }.Ok :=
  ⟨h.enab,h.apart,h.running,h.cleared,fun ho hg => (h.due ho hg).imp_right fun ⟨hw,_⟩ => ⟨hw,.inr (Nat.succ_pos _)⟩⟩

/- One more thing is in the way. -/
theorem Ok.inhibit (h : v.Ok) (b c : Bool) : { v with
    flag := { v.flag with qprocsoff := b || v.flag.qprocsoff, qfrozen := c || v.flag.qfrozen } }.Ok := by
  refine ⟨h.enab,h.apart,h.running,h.cleared,fun ho hg => ?_⟩
  refine (h.due ho hg).imp_right fun ⟨hw,hd⟩ => ⟨hw,hd.imp_left fun hd => ?_⟩
  simp only [Qflag.deferEnable,Bool.or_eq_true] at hd ⊢
  tauto

theorem Ok.take (h : v.Ok) (hl : 0 < v.listed) : { v with
    listed := v.listed - 1, clearing := v.clearing + 1, flag := { v.flag with qrunning := true } }.Ok := by
  have hr : v.flag.qrunning = false := by
    by_contra hc
    have := h.apart (by simpa using hc)
    omega
  have he := h.enab hr
  have h0 := h.running
  have hle := Bool.toNat_le v.flag.qenab
  rw [hr,Bool.toNat_false] at h0
  refine ⟨nofun,fun _ => ?_,?_,fun _ hc => absurd hc (Nat.succ_ne_zero _),fun _ _ => .inl ?_⟩
  · simp only
    omega
  · simp only [Bool.toNat_true]
    omega
  · simp only
    omega

/- `queuerun` clears QENAB and is going to call the service procedure, or not. -/
theorem Ok.clear (h : v.Ok) (hc : 0 < v.clearing)
    (hs : v.flag.qprocsoff = true → v.owed = true → v.flag.gone = true ∨ v.flag.qwantenab = true) : { v with
    clearing := v.clearing - 1, serving := v.serving + if v.flag.qprocsoff then 0 else 1
    skipping := v.skipping + if v.flag.qprocsoff then 1 else 0, flag := { v.flag with qenab := false } }.Ok := by
  have h0 := h.running
  have hr : v.flag.qrunning = true := by
    by_contra hn
    rw [Bool.not_eq_true] at hn
    rw [hn,Bool.toNat_false] at h0
    omega
  refine ⟨fun hn => absurd hr (by simpa using hn),fun _ => h.apart hr,?_,fun _ _ => rfl,fun ho hg => ?_⟩
  · simp only
    split_ifs <;> omega
  · cases hp : v.flag.qprocsoff
    · simp
    · have hgone : v.flag.gone = false := hg
      refine .inr ⟨?_,.inl ?_⟩
      · exact (hs hp ho).resolve_left (by simp [hgone])
      · simp [Qflag.deferEnable,hr]

/- The service procedure is called, or left out as the procedures are off. -/
theorem Ok.serve (h : v.Ok) (hs : 0 < v.serving) :
    { v with serving := v.serving - 1, finishing := v.finishing + 1, owed := false }.Ok := by
  refine ⟨h.enab,h.apart,?_,h.cleared,nofun⟩
  have := h.running
  simp only
  omega

theorem Ok.skip (h : v.Ok) (hs : 0 < v.skipping) :
    { v with skipping := v.skipping - 1, finishing := v.finishing + 1 }.Ok := by
  refine ⟨h.enab,h.apart,?_,h.cleared,h.due⟩
  have := h.running
  simp only
  omega

theorem running_of (h : v.Ok) (hc : 0 < v.serving + v.skipping + v.finishing) :
    v.flag.qrunning = true ∧ v.clearing = 0 ∧ v.serving + v.skipping + v.finishing = 1 := by
  have h0 := h.running
  have hle := Bool.toNat_le v.flag.qrunning
  refine ⟨?_,by omega,by omega⟩
  by_contra hn
  rw [Bool.not_eq_true] at hn
  rw [hn,Bool.toNat_false] at h0
  omega

/- The queue's lock was not to be had. -/
theorem Ok.unlocked (h : v.Ok) {a b : ℕ} (hab : a + b = 1) (ha : a ≤ v.serving) (hb : b ≤ v.skipping)
    (hs : v.owed = true → v.flag.gone = true ∨ v.flag.qwantenab = true ∧
      (v.flag.qprocsoff = true ∨ v.flag.qopening = true ∨ v.flag.qfrozen = true)) : { v with
    serving := v.serving - a, skipping := v.skipping - b, flag := { v.flag with qrunning := false } }.Ok := by
  obtain ⟨hr,hc,hone⟩ := running_of h (by omega)
  have hl := h.apart hr
  have he := h.cleared hr hc
  refine ⟨fun _ => ?_,nofun,?_,nofun,fun ho hg => .inr ?_⟩
  · rw [he]
    exact hl
  · simp only [Bool.toNat_false]
    omega
  · have hgone : v.flag.gone = false := hg
    obtain ⟨hw,hd⟩ := (hs ho).resolve_left (by simp [hgone])
    refine ⟨hw,.inl ?_⟩
    simp only [Qflag.deferEnable,Bool.or_eq_true]
    tauto

/- The round ends, with a retry if the queue was enabled meanwhile. -/
theorem Ok.finish (h : v.Ok) (hf : 0 < v.finishing) : { v with
    finishing := v.finishing - 1, flag := { v.flag with qrunning := false }
    retrying := v.retrying + if v.flag.qwaiting = false ∧ v.flag.qwantenab = true then 1 else 0 }.Ok := by
  obtain ⟨hr,hc,hone⟩ := running_of h (by omega)
  have hl := h.apart hr
  have he := h.cleared hr hc
  refine ⟨fun _ => ?_,nofun,?_,nofun,fun ho hg => ?_⟩
  · rw [he]
    exact hl
  · simp only [Bool.toNat_false]
    omega
  · refine (h.due ho hg).imp_right fun ⟨hw,_⟩ => ⟨hw,.inr ?_⟩
    simp only [Qflag.gone,Bool.or_eq_false_iff] at hg
    simp [hg.2,hw]

end View

namespace Runq

variable {S : Streams} {s t : Runq} {l : List ℕ} {q x i : ℕ} {ok : Bool} {o : Section} {os ns : List Section}

def view (s : Runq) (l : List ℕ) (q : ℕ) : View where
  listed := l.count q
  linking := pending s.tasks (.append q)
  enabling := pending s.tasks (.qenable q)
  clearing := pending s.tasks (.clear q)
  serving := pending s.tasks (.service q false)
  skipping := pending s.tasks (.service q true)
  finishing := pending s.tasks (.finish q)
  retrying := pending s.tasks (.retry q)
  flag := s.flag q
  owed := s.owed q

structure Inv (s : Runq) (l : List ℕ) : Prop where
  list : Threaded s.link s.lisQhead l
  tail : s.lisQtail = l.getLast?
  views : ∀ q, (s.view l q).Ok

/- A run through a section that may go wrong: QENAB is not cleared by `lis_qprocson` while the
queue is on the list or being put there; a queue that was enabled is not taken while its
procedures are off, and `queuerun` gets its lock, unless it will be retried anyway. -/
def Safe (S : Streams) (s : Runq) (ok : Bool) : Section → Prop
  | .procson rdq => ((s.flag rdq).qenab = true → (s.flag rdq).qrunning = true) ∧
      ((s.flag (S.other rdq)).qenab = true → (s.flag (S.other rdq)).qrunning = true)
  | .clear q => (s.flag q).qprocsoff = true → s.owed q = true → (s.flag q).gone = true ∨ (s.flag q).qwantenab = true
  | .service q _ => ok = false → s.owed q = true → (s.flag q).gone = true ∨ (s.flag q).qwantenab = true ∧
      ((s.flag q).qprocsoff = true ∨ (s.flag q).qopening = true ∨ (s.flag q).qfrozen = true)
  | _ => True

/- What a section of task `i` does to the sections that are to be run. -/
theorem pending_perform {u : Runq} (hi : s.tasks[i]? = some (o :: os)) (ht : u.tasks = s.tasks.set i (ns ++ os))
    (y : Section) : pending u.tasks y = pending s.tasks y + ns.count y - if o = y then 1 else 0 := by
  have h := pending_run hi ns y
  rw [ht]
  omega

theorem view_run {u : Runq} {l' : List ℕ} (hi : s.tasks[i]? = some (o :: os))
    (ht : u.tasks = s.tasks.set i (ns ++ os)) (x : ℕ) : u.view l' x =
      { listed := l'.count x
        linking := pending s.tasks (.append x) + ns.count (.append x) - if o = .append x then 1 else 0
        enabling := pending s.tasks (.qenable x) + ns.count (.qenable x) - if o = .qenable x then 1 else 0
        clearing := pending s.tasks (.clear x) + ns.count (.clear x) - if o = .clear x then 1 else 0
        serving := pending s.tasks (.service x false) + ns.count (.service x false) -
          if o = .service x false then 1 else 0
        skipping := pending s.tasks (.service x true) + ns.count (.service x true) -
          if o = .service x true then 1 else 0
        finishing := pending s.tasks (.finish x) + ns.count (.finish x) - if o = .finish x then 1 else 0
        retrying := pending s.tasks (.retry x) + ns.count (.retry x) - if o = .retry x then 1 else 0
        flag := u.flag x
        owed := u.owed x } := by
  simp only [view,pending_perform hi ht]

/- The state after a section of task `i`. -/
def after (r : Runq × List Section) (i : ℕ) (os : List Section) : Runq :=
  { r.1 with tasks := r.1.tasks.set i (r.2 ++ os) }

theorem Inv.qenable (hi : s.Inv l) (ht : s.tasks[i]? = some (.qenable q :: os)) {r : Runq × List Section}
    (h : s.perform S ok (.qenable q) = some r) : (after r i os).Inv l := by
  simp only [perform] at h
  have hv := hi.views q
  split_ifs at h with hinh <;> obtain rfl := Option.some.inj h
  all_goals
    refine ⟨hi.list,hi.tail,fun x => ?_⟩
    rw [view_run ht rfl]
    by_cases hx : x = q
  · subst hx
    simpa [after,setFlag,view] using hv.defer hinh
  · simpa [after,setFlag,view,hx,Ne.symm hx] using hi.views x
  · subst hx
    simpa [after,setFlag,view] using hv.enable (by simpa [view] using hinh)
  · simpa [after,setFlag,view,hx,Ne.symm hx] using hi.views x

theorem Inv.retry (hi : s.Inv l) (ht : s.tasks[i]? = some (.retry q :: os)) {r : Runq × List Section}
    (h : s.perform S ok (.retry q) = some r) : (after r i os).Inv l := by
  simp only [perform] at h
  have hv := hi.views q
  split_ifs at h with hr <;> obtain rfl := Option.some.inj h
  all_goals
    refine ⟨hi.list,hi.tail,fun x => ?_⟩
    rw [view_run ht rfl]
    by_cases hx : x = q
  · subst hx
    simpa [after,setFlag,view] using hv.again
  · simpa [after,setFlag,view,hx,Ne.symm hx] using hi.views x
  · subst hx
    simpa [after,view] using hv.retried (by simpa [view] using hr)
  · simpa [after,view,hx,Ne.symm hx] using hi.views x

theorem linkTail_eq (hl : Threaded s.link s.lisQhead l) (ht : s.lisQtail = l.getLast?) : s.linkTail q = some
    { s with link := relinkLast s.link l q, lisQhead := l.head?.or (some q), lisQtail := some q } := by
  have hhead := hl.head
  cases l with
  | nil =>
    have hlink : relinkLast s.link [] q = Function.update s.link q none := by
      funext x
      simp [relinkLast,Function.update_apply]
    simp only [linkTail,setLink,hhead,hlink,List.head?_nil,Option.none_or]
  | cons a l =>
    obtain ⟨last,hlast⟩ := Option.isSome_iff_exists.mp (List.getLast?_isSome.mpr (List.cons_ne_nil a l))
    have hlink : relinkLast s.link (a :: l) q = Function.update (Function.update s.link q none) last (some q) := by
      funext x
      simp only [relinkLast,hlast,Function.update_apply,Option.some.injEq,eq_comm (a := last)]
    simp only [linkTail,setLink,hhead,ht,hlast,hlink,List.head?_cons,Option.some_or]

theorem Inv.sum_le (hi : s.Inv l) (x : ℕ) : l.count x + pending s.tasks (.append x) ≤ 1 := by
  have hv := hi.views x
  cases hr : (s.flag x).qrunning with
  | false => exact (hv.enab hr).trans_le (Bool.toNat_le _)
  | true => exact (hv.apart hr).trans_le Nat.one_pos.le

theorem Inv.nodup (hi : s.Inv l) : l.Nodup :=
  List.nodup_iff_count_le_one.mpr fun x => (Nat.le_add_right ..).trans (hi.sum_le x)

/- A queue that is being put on the list is not on it. -/
theorem Inv.unlisted (hi : s.Inv l) (hq : 0 < pending s.tasks (.append q)) : q ∉ l := by
  have hsum := hi.sum_le q
  exact List.count_eq_zero.mp (by omega)

theorem Inv.append (hi : s.Inv l) (ht : s.tasks[i]? = some (.append q :: os)) {r : Runq × List Section}
    (h : s.perform S ok (.append q) = some r) : (after r i os).Inv (l ++ [q]) := by
  have hpos : 0 < pending s.tasks (.append q) := pending_pos ht
  have hq : q ∉ l := hi.unlisted hpos
  obtain ⟨u,hu,rfl⟩ := Option.map_eq_some_iff.mp h
  rw [linkTail_eq hi.list hi.tail] at hu
  obtain rfl := Option.some.inj hu
  refine ⟨hi.list.append hq hi.nodup,by simp [after],fun x => ?_⟩
  rw [view_run ht rfl]
  by_cases hx : x = q
  · subst hx
    simpa [after,view] using (hi.views x).link hpos
  · simpa [after,view,hx,Ne.symm hx] using hi.views x

theorem Inv.take (hi : s.Inv l) (ht : s.tasks[i]? = some (.take :: os)) {r : Runq × List Section}
    (h : s.perform S ok .take = some r) : (after r i os).Inv l.tail := by
  have hhead := hi.list.head
  have hnd := hi.nodup
  have htail := hi.tail
  have hlist := hi.list
  cases l with
  | nil =>
    simp only [perform,hhead,List.head?_nil] at h
    obtain rfl := Option.some.inj h
    refine ⟨hi.list,hi.tail,fun x => ?_⟩
    rw [view_run ht rfl]
    simpa [after,view] using hi.views x
  | cons q l =>
    simp only [perform,hhead,List.head?_cons] at h
    obtain rfl := Option.some.inj h
    obtain ⟨hq,hl⟩ := List.nodup_cons.mp hnd
    refine ⟨(Threaded.pop hq hlist),?_,fun x => ?_⟩
    · simp only [after,unlinkHead,setFlag,setLink,htail,List.tail_cons]
      cases l with
      | nil => simp
      | cons a l =>
        have hlast : (a :: l).getLast? ≠ some q := fun he => hq (List.mem_of_getLast? he)
        simp only [List.getLast?_cons_cons,if_neg hlast]
    · rw [view_run ht rfl]
      by_cases hx : x = q
      · subst hx
        simpa [after,unlinkHead,setFlag,setLink,view] using (hi.views x).take (by simp [view])
      · simpa [after,unlinkHead,setFlag,setLink,view,hx,Ne.symm hx] using hi.views x

theorem Inv.procson (hi : s.Inv l) (ht : s.tasks[i]? = some (.procson q :: os)) {r : Runq × List Section}
    (hs : Safe S s ok (.procson q)) (h : s.perform S ok (.procson q) = some r) : (after r i os).Inv l := by
  obtain rfl := Option.some.inj h
  refine ⟨hi.list,hi.tail,fun x => ?_⟩
  rw [view_run ht rfl]
  by_cases hx : x = q <;> by_cases ho : x = S.other q
  · subst hx
    simpa [after,setFlag,view,← ho] using (hi.views x).on (n := 2) (by simpa [view] using hs.1) Nat.two_pos
  · subst hx
    simpa [after,setFlag,view,ho,Ne.symm ho] using (hi.views x).on (n := 1) (by simpa [view] using hs.1) Nat.one_pos
  · subst ho
    simpa [after,setFlag,view,hx,Ne.symm hx] using (hi.views (S.other q)).on (n := 1) (by simpa [view] using hs.2) Nat.one_pos
  · simpa [after,setFlag,view,hx,Ne.symm hx,ho,Ne.symm ho] using hi.views x

theorem Inv.procsoff (hi : s.Inv l) (ht : s.tasks[i]? = some (.procsoff q :: os)) {r : Runq × List Section}
    (h : s.perform S ok (.procsoff q) = some r) : (after r i os).Inv l := by
  obtain rfl := Option.some.inj h
  refine ⟨hi.list,hi.tail,fun x => ?_⟩
  rw [view_run ht rfl]
  by_cases hx : x = q <;> by_cases ho : x = S.other q
  · subst hx
    simpa [after,setFlag,view,← ho] using (hi.views x).inhibit true false
  · subst hx
    simpa [after,setFlag,view,ho] using (hi.views x).inhibit true false
  · subst ho
    simpa [after,setFlag,view,hx] using (hi.views (S.other q)).inhibit true false
  · simpa [after,setFlag,view,hx,ho] using hi.views x

theorem Inv.freeze (hi : s.Inv l) (ht : s.tasks[i]? = some (.freeze q :: os)) {r : Runq × List Section}
    (h : s.perform S ok (.freeze q) = some r) : (after r i os).Inv l := by
  obtain rfl := Option.some.inj h
  refine ⟨hi.list,hi.tail,fun x => ?_⟩
  rw [view_run ht rfl]
  by_cases hx : x = q
  · subst hx
    simpa [after,setFlag,view] using (hi.views x).inhibit false true
  · simpa [after,setFlag,view,hx] using hi.views x

theorem Inv.sdFlag {hd : ℕ} {frozen : Bool} (hi : s.Inv l) (ht : s.tasks[i]? = some (.sdFlag hd frozen :: os))
    {r : Runq × List Section} (h : s.perform S ok (.sdFlag hd frozen) = some r) : (after r i os).Inv l := by
  obtain rfl := Option.some.inj h
  refine ⟨hi.list,hi.tail,fun x => ?_⟩
  rw [view_run ht rfl]
  simpa [after,view] using hi.views x

theorem Inv.thaw (hi : s.Inv l) (ht : s.tasks[i]? = some (.thaw q :: os)) {r : Runq × List Section}
    (h : s.perform S ok (.thaw q) = some r) : (after r i os).Inv l := by
  obtain rfl := Option.some.inj h
  refine ⟨hi.list,hi.tail,fun x => ?_⟩
  rw [view_run ht rfl]
  by_cases hx : x = q
  · subst hx
    simpa [after,setFlag,view] using (hi.views x).thaw
  · simpa [after,setFlag,view,hx,Ne.symm hx] using hi.views x

theorem Inv.clear (hi : s.Inv l) (ht : s.tasks[i]? = some (.clear q :: os)) {r : Runq × List Section}
    (hs : Safe S s ok (.clear q)) (h : s.perform S ok (.clear q) = some r) : (after r i os).Inv l := by
  obtain rfl := Option.some.inj h
  refine ⟨hi.list,hi.tail,fun x => ?_⟩
  rw [view_run ht rfl]
  by_cases hx : x = q
  · subst hx
    have hv := (hi.views x).clear (pending_pos ht) hs
    cases hp : (s.flag x).qprocsoff <;> simpa [after,setFlag,view,hp] using hv
  · cases hp : (s.flag q).qprocsoff <;> simpa [after,setFlag,view,hx,Ne.symm hx] using hi.views x

theorem Inv.service {p : Bool} (hi : s.Inv l) (ht : s.tasks[i]? = some (.service q p :: os)) {r : Runq × List Section}
    (hs : Safe S s ok (.service q p)) (h : s.perform S ok (.service q p) = some r) : (after r i os).Inv l := by
  have hpos : 0 < pending s.tasks (.service q p) := pending_pos ht
  cases ok <;> obtain rfl := Option.some.inj h
  all_goals
    refine ⟨hi.list,hi.tail,fun x => ?_⟩
    rw [view_run ht rfl]
    by_cases hx : x = q
  · subst hx
    cases p
    · simpa [after,setFlag,view] using (hi.views x).unlocked (a := 1) (b := 0) rfl hpos (Nat.zero_le _) (hs rfl)
    · simpa [after,setFlag,view] using (hi.views x).unlocked (a := 0) (b := 1) rfl (Nat.zero_le _) hpos (hs rfl)
  · simpa [after,setFlag,view,hx,Ne.symm hx] using hi.views x
  · subst hx
    cases p
    · simpa [after,view] using (hi.views x).serve hpos
    · simpa [after,view] using (hi.views x).skip hpos
  · cases p <;> simpa [after,view,hx,Ne.symm hx] using hi.views x

theorem Inv.finish (hi : s.Inv l) (ht : s.tasks[i]? = some (.finish q :: os)) {r : Runq × List Section}
    (h : s.perform S ok (.finish q) = some r) : (after r i os).Inv l := by
  obtain rfl := Option.some.inj h
  refine ⟨hi.list,hi.tail,fun x => ?_⟩
  rw [view_run ht rfl]
  by_cases hx : x = q
  · subst hx
    have hv := (hi.views x).finish (pending_pos ht)
    cases hw : (s.flag x).qwaiting <;> cases he : (s.flag x).qwantenab <;> simpa [after,setFlag,view,hw,he] using hv
  · cases hw : (s.flag q).qwaiting <;> cases he : (s.flag q).qwantenab <;>
      simpa [after,setFlag,view,hx,Ne.symm hx] using hi.views x

/-! ### Every run -/

/- The sections that a call brings are not those that count a queue as scheduled. -/
def plain : Section → Bool
  | .append _ | .clear _ | .service _ _ | .finish _ => false
  | _ => true

theorem sections_plain (c : Call) : ∀ y ∈ s.sections S c, plain y = true := by
  cases c with
  | lisFreezestr q | lisUnfreezestr q =>
    simp only [sections]
    split
    · simp
    · split_ifs
      all_goals
        simp only [sdFlags,List.mem_append,List.mem_cons,List.mem_map,List.mem_flatMap,List.not_mem_nil,or_false]
        intro y hy
        aesop
  | _ => simp [sections,plain]

theorem more_ok {v : View} (h : v.Ok) (a b : ℕ) :
    { v with enabling := v.enabling + a, retrying := v.retrying + b }.Ok := by
  refine ⟨h.enab,h.apart,h.running,h.cleared,fun ho hg => ?_⟩
  rcases h.due ho hg with hd | ⟨hw,hd⟩
  · refine .inl ?_
    simp only
    omega
  · refine .inr ⟨hw,hd.imp_right fun hd => ?_⟩
    simp only
    omega

theorem Inv.call (hi : s.Inv l) (ht : s.tasks[i]? = some []) (c : Call) :
    { s with tasks := s.tasks.set i (s.sections S c) }.Inv l := by
  refine ⟨hi.list,hi.tail,fun x => ?_⟩
  have hp : ∀ y, pending (s.tasks.set i (s.sections S c)) y = pending s.tasks y + (s.sections S c).count y := by
    intro y
    have := pending_set ht (s.sections S c) y
    simpa using this
  have h0 : ∀ y, plain y = false → (s.sections S c).count y = 0 := by
    intro y hy
    refine List.count_eq_zero.mpr fun hm => ?_
    rw [sections_plain c y hm] at hy
    cases hy
  have hv := more_ok (hi.views x) ((s.sections S c).count (.qenable x)) ((s.sections S c).count (.retry x))
  simpa [view,hp,h0 (.append x) rfl,h0 (.clear x) rfl,h0 (.service x false) rfl,h0 (.service x true) rfl,
    h0 (.finish x) rfl] using hv

def Guard (S : Streams) (s : Runq) : Act → Prop
  | .call _ _ => True
  | .run i ok => ∀ o ∈ (s.tasks[i]?).bind List.head?, s.Safe S ok o

instance decSafe (S : Streams) (s : Runq) (ok : Bool) : ∀ o, Decidable (s.Safe S ok o)
  | .procson rdq => inferInstanceAs (Decidable (((s.flag rdq).qenab = true → (s.flag rdq).qrunning = true) ∧
      ((s.flag (S.other rdq)).qenab = true → (s.flag (S.other rdq)).qrunning = true)))
  | .clear q => inferInstanceAs (Decidable ((s.flag q).qprocsoff = true → s.owed q = true →
      (s.flag q).gone = true ∨ (s.flag q).qwantenab = true))
  | .service q _ => inferInstanceAs (Decidable (ok = false → s.owed q = true → (s.flag q).gone = true ∨
      (s.flag q).qwantenab = true ∧
        ((s.flag q).qprocsoff = true ∨ (s.flag q).qopening = true ∨ (s.flag q).qfrozen = true)))
  | .qenable _ | .append _ | .retry _ | .procsoff _ | .freeze _ | .thaw _ | .sdFlag _ _ | .take | .finish _ =>
      inferInstanceAs (Decidable True)

instance decGuard (S : Streams) (s : Runq) : ∀ a, Decidable (s.Guard S a)
  | .call _ _ => inferInstanceAs (Decidable True)
  | .run i _ => Option.decidableForallMem ((s.tasks[i]?).bind List.head?)

theorem step_inv {a : Act} (hi : ∃ l, s.Inv l) (hg : s.Guard S a) (h : s.step S a = some t) : ∃ l, t.Inv l := by
  obtain ⟨l,hi⟩ := hi
  cases a with
  | call i c =>
    simp only [step] at h
    split at h
    next ht => exact Option.some.inj h ▸ ⟨l,hi.call ht c⟩
    next => cases h
  | run i ok =>
    simp only [step] at h
    split at h
    next o os ht =>
      obtain ⟨r,hr,rfl⟩ := Option.map_eq_some_iff.mp h
      have hg : s.Safe S ok o := hg o (by rw [ht]; rfl)
      cases o with
      | qenable q => exact ⟨l,hi.qenable ht hr⟩
      | append q => exact ⟨_,hi.append ht hr⟩
      | retry q => exact ⟨l,hi.retry ht hr⟩
      | procson q => exact ⟨l,hi.procson ht hg hr⟩
      | procsoff q => exact ⟨l,hi.procsoff ht hr⟩
      | freeze q => exact ⟨l,hi.freeze ht hr⟩
      | thaw q => exact ⟨l,hi.thaw ht hr⟩
      | sdFlag hd fr => exact ⟨l,hi.sdFlag ht hr⟩
      | take => exact ⟨_,hi.take ht hr⟩
      | clear q => exact ⟨l,hi.clear ht hg hr⟩
      | service q p => exact ⟨l,hi.service ht hg hr⟩
      | finish q => exact ⟨l,hi.finish ht hr⟩
    next => cases h

theorem init_inv (n : ℕ) (f : ℕ → Qflag) : (init n f).Inv [] :=
  ⟨rfl,rfl,fun x => ⟨fun _ => by simp [view,init,pending_idle],nofun,by simp [view,init,pending_idle],nofun,nofun⟩⟩

/- A task is at this section, or will come to it. -/
def Ahead (s : Runq) (o : Section) : Prop := o ∈ s.tasks.flatten

/- The queue will be served, or linked, or retried. -/
structure Kept (s : Runq) (l : List ℕ) : Prop where
  link : Threaded s.link s.lisQhead l
  tail : s.lisQtail = l.getLast?
  nodup : l.Nodup
  mem : ∀ q, q ∈ l ↔ (s.flag q).qenab = true ∧ ¬ s.Ahead (.clear q) ∧ ¬ s.Ahead (.append q)
  due : ∀ q, s.owed q = true → (s.flag q).gone = false →
    q ∈ l ∨ s.Ahead (.append q) ∨ s.Ahead (.qenable q) ∨ s.Ahead (.clear q) ∨ s.Ahead (.service q false) ∨
      (s.flag q).qwantenab = true ∧ ((s.flag q).deferEnable = true ∨ s.Ahead (.retry q))

theorem Inv.kept (hi : s.Inv l) : s.Kept l := by
  have ha : ∀ o, s.Ahead o ↔ 0 < pending s.tasks o := fun o => List.count_pos_iff.symm
  refine ⟨hi.list,hi.tail,hi.nodup,fun q => ?_,fun q ho hg => ?_⟩
  all_goals
    have hv := hi.views q
    simp only [ha,← List.count_pos_iff (l := l)]
  · have hsum := hi.sum_le q
    have h3 := hv.running
    cases hr : (s.flag q).qrunning with
    | false =>
      have h1 := hv.enab hr
      simp only [view] at h1 h3
      rw [hr,Bool.toNat_false] at h3
      cases he : (s.flag q).qenab with
      | false =>
        rw [he,Bool.toNat_false] at h1
        exact ⟨fun h => by omega,fun h => Bool.noConfusion h.1⟩
      | true =>
        rw [he,Bool.toNat_true] at h1
        exact ⟨fun h => ⟨rfl,by omega,by omega⟩,fun h => by omega⟩
    | true =>
      have h2 := hv.apart hr
      have h4 := hv.cleared hr
      simp only [view] at h2 h4
      refine ⟨fun h => by omega,fun h => ?_⟩
      have hc := h.2.1
      rw [h4 (by omega)] at h
      exact Bool.noConfusion h.1
  · rcases hv.due ho hg with hd | hd
    · simp only [view] at hd
      omega
    · exact .inr (.inr (.inr (.inr (.inr hd))))

/-- When no QENAB of a scheduled queue is cleared by `lis_qprocson`, and no enabled queue is taken
with its procedures off or without its lock, the run list is sound and keeps every enable. -/
theorem run_kept {n : ℕ} {f : ℕ → Qflag} {as : List Act} (hm : Meets (step S) (Guard S) (init n f) as)
    (h : exec (step S) (init n f) as = some t) : ∃ l, t.Kept l := by
  obtain ⟨l,hi⟩ : ∃ l, t.Inv l := exec_preserves (fun _ _ _ => step_inv) ⟨[],init_inv n f⟩ hm h
  exact ⟨l,hi.kept⟩

/- Two streams of one queue pair each. -/
def pairs : Streams := ⟨fun q => if q % 2 = 0 then q + 1 else q - 1,fun q => some (q / 2),fun _ => none,fun hd => [2 * hd]⟩

def opened : Qflag := ⟨false,false,false,false,false,false,false,false⟩
def closed : Qflag := ⟨false,true,false,false,true,false,false,false⟩

/- Queue 0 is enabled while its stream is frozen and again while it is served. -/
theorem run_kept_frozen : ∃ t, exec (step pairs) (init 3 fun _ => closed) [.call 0 (.lisQprocson 0),.run 0 true,
    .run 0 true,.run 0 true,.call 1 (.lisFreezestr 0),.run 1 true,.run 1 true,.run 1 true,.call 0 (.lisQenable 0),
    .run 0 true,.call 1 (.lisUnfreezestr 0),.run 1 true,.run 1 true,.run 1 true,.run 1 true,.call 2 .queuerun,
    .run 2 true,.run 2 true,.call 0 (.lisQenable 0),.run 0 true,.run 2 true,.run 2 true,.run 2 true] = some t ∧
    ∃ l, t.Kept l := by
  refine Exists.imp (fun t ht => ⟨ht,run_kept ?_ ht⟩) (Option.isSome_iff_exists.mp rfl)
  decide

/- `lis_qprocson` clears QENAB of queue 0, which is on the list, and the next `lis_qenable` links it
to itself. `queuerun` takes queue 0 while its procedures are off, and nothing tells that it was enabled. -/
theorem linked_twice_or_lost : (¬ ∀ as t, exec (step pairs) (init 2 fun _ => opened) as = some t →
      ∃ l, Threaded t.link t.lisQhead l) ∧
    ¬ ∀ as t, exec (step pairs) (init 2 fun _ => opened) as = some t → ∃ l, t.Kept l := by
  constructor
  · intro h
    obtain ⟨l,hl⟩ := h [.call 0 (.lisQenable 0),.run 0 true,.run 0 true,.call 1 (.lisQprocsoff 0),.run 1 true,
      .call 1 (.lisQprocson 0),.run 1 true,.run 1 true,.run 1 true,.call 0 (.lisQenable 0),.run 0 true,.run 0 true] _ rfl
    refine Threaded.not_cycle (a := 0) ?_ hl
    rfl
  · intro h
    obtain ⟨l,hk⟩ := h [.call 0 (.lisQenable 0),.run 0 true,.run 0 true,.call 1 (.lisQprocsoff 0),.run 1 true,
      .call 0 .queuerun,.run 0 true,.run 0 true,.run 0 true,.run 0 true] _ rfl
    rcases hk.due 0 rfl rfl with hq | hq
    · exact absurd ((hk.mem 0).mp hq).1 (by decide)
    · exact absurd hq (by unfold Ahead; decide)

end Runq

end CSLiS.Sched
