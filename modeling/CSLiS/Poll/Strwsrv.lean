import CSLiS.Queue.ListQueue
import CSLiS.Head.Getpmsg

/-!
# Polling a stream (head/head.c, head/queue.c)

A stream head with the write queues below it, the nearest first: `q_next` of the last one is null. Every queue has its
magic number, and the kernel polls by itself (LINUX_POLL): who polls waits in `sd_task_list`.
-/

namespace CSLiS.Poll
open Lib.Split Queue

structure SdFlag where
  strderr : Bool := false
  stwrerr : Bool := false
  strhup : Bool := false
  strclose : Bool := false
  stplex : Bool := false
  strselpnd : Bool := false
  deriving DecidableEq, Repr

structure Revents where
  pollin : Bool := false
  pollpri : Bool := false
  pollout : Bool := false
  pollrdnorm : Bool := false
  pollrdband : Bool := false
  pollwrnorm : Bool := false
  pollwrband : Bool := false
  pollmsg : Bool := false
  pollerr : Bool := false
  pollhup : Bool := false
  pollnval : Bool := false
  deriving DecidableEq, Repr

/- `sOutput` and `sWrband` are bits of `sd_sigflags`. An entry of `sdTaskList` has the events that somebody who is in
poll waits for. -/
structure Stdata where
  sdFlag : SdFlag
  sdRq : Head.Rdq
  sdWq : ListQueue
  below : List ListQueue
  sOutput : Bool
  sWrband : Bool
  sdWrcnt : ℤ
  sdTaskList : List Revents
  deriving DecidableEq, Repr

/-! ### What can be written (queue.c) -/

/- The search of `lis_bcanput` and of `lis_bcanputnext_anyband` (`queue.c:2109-2118` and `queue.c:2203-2207`) through
the queues from one on. -/
def search (below : List ListQueue) : Option (List ListQueue × ListQueue × List ListQueue) :=
  splitStop (fun q => q.core.qiSrvp) below

/-- `lis_bcanputnext` (`queue.c:2170-2178`) of the queue before these. -/
def lisBcanputnext (allocBand : Bool) (below : List ListQueue) (band : Uchar) : List ListQueue × Bool :=
  match search below with
  | none => (below,false)
  | some z =>
      let r := z.2.1.lisBcanput allocBand band
      (z.1 ++ r.1 :: z.2.2,r.2 == .ok)

/-- `lis_bcanputnext_anyband` (`queue.c:2190-2233`) of the queue before these. -/
def lisBcanputnextAnyband (below : List ListQueue) : Bool :=
  match search below with
  | none => false
  | some z => z.2.1.core.qBandp.any fun qp => !qp.qbFull

/- The queue that `lis_bcanputnext` tests. -/
def tested (below : List ListQueue) : Option ListQueue := (search below).map fun z => z.2.1

/- `QFULL` is clear there. -/
def room (below : List ListQueue) : Bool := ((tested below).map fun q => !q.core.qFlag.qfull).getD false

variable {below : List ListQueue} {alloc : Msg → Bool} {put : List ListQueue → Msg → List ListQueue} {s t : Stdata}
  {n : ℕ} {a : Bool}

theorem search_cons {q q' : ListQueue} (h : q.core.qiSrvp = false) :
    search (q :: q' :: below) = (search (q' :: below)).map fun z => (q :: z.1,z.2.1,z.2.2) :=
  @splitStop_cons _ (fun q : ListQueue => q.core.qiSrvp) _ _ _ h

theorem anyband_iff : lisBcanputnextAnyband below = true ↔
    ∃ q, tested below = some q ∧ ∃ qp ∈ q.core.qBandp, qp.qbFull = false := by
  unfold lisBcanputnextAnyband tested
  cases search below with
  | none => simp
  | some z => simp

theorem anyband_tested : lisBcanputnextAnyband below =
    ((tested below).map fun q => q.core.qBandp.any fun qp => !qp.qbFull).getD false := by
  unfold lisBcanputnextAnyband tested
  cases search below <;> rfl

theorem bcanputnext_snd : (lisBcanputnext a below 0).2 = room below := by
  unfold lisBcanputnext room tested
  cases search below with
  | none => rfl
  | some z =>
    simp only [ListQueue.lisBcanput,Option.map_some,Option.getD_some,ne_eq,not_true_eq_false,if_false]
    split_ifs with hf <;> simp [hf]

theorem bcanputnext_room (h : room below = true) : (lisBcanputnext a below 0).1 = below := by
  unfold room tested at h
  unfold lisBcanputnext
  cases hz : search below with
  | none => rfl
  | some z =>
    have hf : z.2.1.core.qFlag.qfull = false := by simpa [hz] using h
    have hput : z.2.1.lisBcanput a 0 = (z.2.1,.ok) := by simp [ListQueue.lisBcanput,hf]
    simp only [hput]
    exact (splitStop_some hz).1.symm

/- The test leaves its wish at the queue, and neither fills nor drains it. -/
theorem bcanputnext_tested : (tested (lisBcanputnext a below 0).1).map (fun q => (q.core.qFlag.qfull,q.core.qBandp)) =
    (tested below).map fun q => (q.core.qFlag.qfull,q.core.qBandp) := by
  unfold lisBcanputnext tested
  cases hz : search below with
  | none => simp [hz]
  | some z =>
    have hsrvp : (z.2.1.lisBcanput a 0).1.core.qiSrvp = z.2.1.core.qiSrvp := by
      simp only [ListQueue.lisBcanput,ne_eq,not_true_eq_false,if_false]
      split_ifs <;> rfl
    have hkeep : (z.2.1.lisBcanput a 0).1.core.qFlag.qfull = z.2.1.core.qFlag.qfull ∧
        (z.2.1.lisBcanput a 0).1.core.qBandp = z.2.1.core.qBandp := by
      simp only [ListQueue.lisBcanput,ne_eq,not_true_eq_false,if_false]
      split_ifs <;> exact ⟨rfl,rfl⟩
    have := splitStop_put hz hsrvp
    simp only [search] at this ⊢
    simp [this,hkeep]

theorem room_bcanputnext : room (lisBcanputnext a below 0).1 = room below := by
  have := congrArg (fun o => (o.map fun (x : Bool × List (Qband Msg)) => !x.1).getD false)
    (@bcanputnext_tested below a)
  simpa [room,Option.map_map,Function.comp_def] using this

theorem anyband_bcanputnext : lisBcanputnextAnyband (lisBcanputnext a below 0).1 = lisBcanputnextAnyband below := by
  have := congrArg (fun o => (o.map fun (x : Bool × List (Qband Msg)) => x.2.any fun qp => !qp.qbFull).getD false)
    (@bcanputnext_tested below a)
  simpa [anyband_tested,Option.map_map,Function.comp_def] using this

namespace Stdata

/-! ### The write service procedure of the stream head (head.c) -/

/- `lis_bcanputnext(sd_wq,0)`, which allocates no band. -/
def canput (s : Stdata) : Stdata × Bool :=
  let r := lisBcanputnext false s.below 0
  ({ s with below := r.1 },r.2)

/- `getq(sd_wq)`: the message, if any. There is no queue behind. -/
def getq (alloc : Msg → Bool) (s : Stdata) : Stdata × Option Msg :=
  ({ s with sdWq := (s.sdWq.lisGetq alloc []).1 },if s.sdWq.core.qFlag.shut then none else s.sdWq.msgs.head?)

/- The loop (`head.c:3521-3528`), a round for each message. `put` is what the queues below are after their put
procedures ran for a message. -/
def forward (alloc : Msg → Bool) (put : List ListQueue → Msg → List ListQueue) : ℕ → Stdata → Stdata × Bool
  | 0, s =>
      let r := s.canput
      if r.2 then ((r.1.getq alloc).1,true) else (r.1,false)
  | n + 1, s =>
      let r := s.canput
      if r.2 then
        let g := r.1.getq alloc
        match g.2 with
        | none => (g.1,true)
        | some mp => forward alloc put n { g.1 with below := put g.1.below mp }
      else (r.1,false)

/-- `lis_qcountstrm(sd_wq)` (`queue.c:2240-2262`) -/
def lisQcountstrm (s : Stdata) : BitVec 32 :=
  ((s.sdWq :: s.below.takeWhile fun q => q.core.qFlag.qreadr == s.sdWq.core.qFlag.qreadr).map fun q =>
    q.core.qCount.setWidth 32).sum

inductive Wake
  | close
  | sOutput
  | sWrband
  | write
  | poll
  deriving DecidableEq, Repr

/- A test of band 0 that is made only if somebody wants to know, and who is woken then. -/
def wakeIf (s : Stdata) (wanted : Bool) (w : Wake) : Stdata × List Wake :=
  if wanted then (s.canput.1,if s.canput.2 then [w] else []) else (s,[])

/- Somebody polls (POLL_WAITING), or is in select. -/
def waiting (s : Stdata) : Bool := !s.sdTaskList.isEmpty || s.sdFlag.strselpnd

/-- `lis_strwsrv` (`head.c:3498-3584`) and whom it wakes. -/
def lisStrwsrv (alloc : Msg → Bool) (put : List ListQueue → Msg → List ListQueue) (s : Stdata) : Stdata × List Wake :=
  let r := s.forward alloc put s.sdWq.msgs.length
  let closed := if r.1.sdFlag.strclose && r.1.lisQcountstrm == 0 then [Wake.close] else []
  let o := r.1.wakeIf r.1.sOutput .sOutput
  let b := if o.1.sWrband && lisBcanputnextAnyband o.1.below then [Wake.sWrband] else []
  let w := if r.2 && o.1.sdWrcnt ≠ 0 then [Wake.write] else []
  let p := o.1.wakeIf o.1.waiting .poll
  (p.1,closed ++ o.2 ++ b ++ w ++ p.2)

theorem canput_snd : s.canput.2 = room s.below := bcanputnext_snd

theorem canput_of_room (h : room s.below = true) : s.canput = (s,true) := by
  have hb := bcanputnext_room (a := false) h
  have hr := (@bcanputnext_snd s.below false).trans h
  simp only [canput,hb,hr]

/- What the poller sees and who is there, with a wish more or less at the queue that was tested. -/
structure Alike (s t : Stdata) : Prop where
  room : room t.below = room s.below
  anyband : lisBcanputnextAnyband t.below = lisBcanputnextAnyband s.below
  waiting : t.waiting = s.waiting

theorem canput_alike : s.Alike s.canput.1 := ⟨room_bcanputnext,anyband_bcanputnext,rfl⟩

theorem wakeIf_alike {b : Bool} {w : Wake} : s.Alike (s.wakeIf b w).1 := by
  unfold wakeIf
  cases b with
  | true => exact canput_alike
  | false => exact ⟨rfl,rfl,rfl⟩

theorem wakeIf_mem {b : Bool} {w w' : Wake} : w' ∈ (s.wakeIf b w).2 ↔ b = true ∧ room s.below = true ∧ w' = w := by
  unfold wakeIf
  rw [canput_snd]
  cases b <;> cases room s.below <;> simp

/- What the queues below are when the loop ends is what they are when the procedure ends. -/
theorem strwsrv_alike : (s.forward alloc put s.sdWq.msgs.length).1.Alike (s.lisStrwsrv alloc put).1 := by
  simp only [lisStrwsrv]
  generalize s.forward alloc put s.sdWq.msgs.length = r
  have ho : r.1.Alike (r.1.wakeIf r.1.sOutput .sOutput).1 := wakeIf_alike
  generalize r.1.wakeIf r.1.sOutput .sOutput = o at ho ⊢
  have hp : o.1.Alike (o.1.wakeIf o.1.waiting .poll).1 := wakeIf_alike
  exact ⟨hp.room.trans ho.room,hp.anyband.trans ho.anyband,hp.waiting.trans ho.waiting⟩

/- Who polls is woken if somebody waits and band 0 has room at the end. -/
theorem strwsrv_poll : Wake.poll ∈ (s.lisStrwsrv alloc put).2 ↔
    (s.lisStrwsrv alloc put).1.waiting = true ∧ room (s.lisStrwsrv alloc put).1.below = true := by
  have halike := @strwsrv_alike alloc put s
  rw [halike.waiting,halike.room]
  simp only [lisStrwsrv]
  generalize s.forward alloc put s.sdWq.msgs.length = r
  have ho : r.1.Alike (r.1.wakeIf r.1.sOutput .sOutput).1 := wakeIf_alike
  have hno : Wake.poll ∉ (r.1.wakeIf r.1.sOutput .sOutput).2 := fun h => by simpa using (wakeIf_mem.mp h).2.2
  generalize r.1.wakeIf r.1.sOutput .sOutput = o at ho hno ⊢
  simp only [List.mem_append,wakeIf_mem,← ho.room,← ho.waiting]
  constructor
  · rintro ((((h | h) | h) | h) | h)
    · split_ifs at h <;> simp at h
    · exact absurd h hno
    · split_ifs at h <;> simp at h
    · split_ifs at h <;> simp at h
    · exact ⟨h.1,h.2.1⟩
  · exact fun h => Or.inr ⟨h.1,h.2,trivial⟩

/-! ### How the loop ends -/

theorem forward_full (h : room s.below = false) : s.forward alloc put n = (s.canput.1,false) := by
  have hc : s.canput.2 = false := canput_snd.trans h
  cases n <;> simp [forward,hc]

/- The head has nothing to send. -/
def idle (s : Stdata) : Prop := s.sdWq.core.qFlag.shut = true ∨ s.sdWq.msgs = []

theorem getq_idle (h : s.idle) : (s.getq alloc).2 = none := by
  rcases h with h | h <;> simp [getq,h]

theorem forward_idle (h : room s.below = true) (hi : s.idle) : s.forward alloc put n = ((s.getq alloc).1,true) := by
  cases n with
  | zero => simp [forward,canput_of_room h]
  | succ n => simp [forward,canput_of_room h,getq_idle hi]

theorem getq_waiting : (s.getq alloc).1.Alike s := ⟨rfl,rfl,rfl⟩

/- One message fills the queue. -/
theorem forward_filled {l : List ListQueue} (h : room s.below = true) (hi : ¬ s.idle) (hl : room l = false) :
    ∃ u : Stdata, u.below = l ∧ u.waiting = s.waiting ∧
      s.forward alloc (fun _ _ => l) s.sdWq.msgs.length = (u.canput.1,false) := by
  obtain ⟨hshut,hmsgs⟩ := not_or.mp hi
  obtain ⟨mp,k,hk⟩ := List.exists_cons_of_ne_nil hmsgs
  have hg : (s.getq alloc).2 = some mp := by simp [getq,hshut,hk]
  refine ⟨{ (s.getq alloc).1 with below := l },rfl,rfl,?_⟩
  rw [hk,List.length_cons,forward]
  simp only [canput_of_room h,hg,if_true]
  exact forward_full hl

end Stdata

end CSLiS.Poll
