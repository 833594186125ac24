import CSLiS.Ioctl.Strdoioctl
import CSLiS.Lib.Exec

/-!
# Answers match their ioctl (head/head.c)

`Matched` is what callers rely on. It can fail when an answer or a wakeup comes in
while the caller is about to go on for another reason, and when a stream error is
returned. `Guard` leaves these steps out; then whatever is in `sd_iocblk` or
`sd_wiocing` is there for the ioctl in progress, phase by phase.
-/

namespace CSLiS.Ioctl
open Queue Head Lib.Exec

variable {x86 : Bool} {s t : IocHead} {a : Act} {m : IocMsg} {o : Outcome} {err v : ℤ}

/-- Ioctls succeed on their own answer only; no answer and no wakeup is there for any
other ioctl than the one in progress. -/
structure Matched (s : IocHead) : Prop where
  success : ∀ r ∈ s.results, 0 ≤ r.value →
    ∃ m, r.reply = some m ∧ m.dbType = M_IOCACK ∧ r.iocId = some m.iocId ∧ m.iocError = 0
  own : ∀ r ∈ s.results, ∀ m ∈ r.reply, m.req = r.call
  slot : ∀ m ∈ s.sdIocblk, s.phase ≠ .idle ∧ m.req = s.call
  wakeups : ∀ k ∈ s.sdWiocing, s.phase ≠ .idle ∧ k = s.call

def Guard (s : IocHead) : Act → Prop
  | .wait => s.ignoreErrors = true ∨ s.sdErr.strderr = false ∧ s.sdErr.stwrerr = false
  | .finish _ => (s.sdIocblk = none → s.sdErr.sdWerror = 0 ∧ s.sdErr.sdRerror = 0) ∧
      ∀ m ∈ s.sdIocblk, m.dbType = M_IOCACK ∨ m.dbType = M_IOCNAK → 0 ≤ m.iocError
  | .rput m => s.accepts m = true → m.req = s.call ∧ s.sdWiocing = [] ∧ (s.phase = .sent ∨ s.phase = .sleeping)
  | .tmout => s.stioctmr = true → s.phase = .sleeping ∧ s.sdIocblk = none
  | .error _ _ => s.iocwait = false
  | _ => True

instance : ∀ a, Decidable (Guard s a)
  | .wait => inferInstanceAs (Decidable (s.ignoreErrors = true ∨ s.sdErr.strderr = false ∧ s.sdErr.stwrerr = false))
  | .finish _ => inferInstanceAs (Decidable ((s.sdIocblk = none → s.sdErr.sdWerror = 0 ∧ s.sdErr.sdRerror = 0) ∧
      ∀ m ∈ s.sdIocblk, m.dbType = M_IOCACK ∨ m.dbType = M_IOCNAK → 0 ≤ m.iocError))
  | .rput m => inferInstanceAs (Decidable (s.accepts m = true → m.req = s.call ∧ s.sdWiocing = [] ∧
      (s.phase = .sent ∨ s.phase = .sleeping)))
  | .tmout => inferInstanceAs (Decidable (s.stioctmr = true → s.phase = .sleeping ∧ s.sdIocblk = none))
  | .error _ _ => inferInstanceAs (Decidable (s.iocwait = false))
  | .start .. | .down | .signal | .woken | .clear | .hangup | .closing | .other =>
      inferInstanceAs (Decidable True)

/- An answer to the ioctl in progress is in `sd_iocblk`. -/
def Answer (s : IocHead) : Prop := ∃ m, s.sdIocblk = some m ∧ m.req = s.call ∧ m.iocId = s.iocId

/- Nothing has come in yet, or an answer and its wakeup. -/
def Pending (s : IocHead) : Prop :=
  s.sdIocblk = none ∧ s.sdWiocing = [] ∨ Answer s ∧ s.sdWiocing = [s.call]

/- What `lis_wait_for_wiocing` returned, or will return. -/
def Outcome.Is (s : IocHead) (err : ℤ) : Prop := err < 0 ∧ s.sdIocblk = none ∨ err = 0 ∧ Answer s

def PhaseOk (s : IocHead) : Phase → Prop
  | .idle => s.iocwait = false ∧ s.stioctmr = false ∧ s.sdIocblk = none ∧ s.sdWiocing = []
  | .sent => s.iocwait = true ∧ s.stioctmr = false ∧ Pending s
  | .sleeping => s.iocwait = true ∧
      (s.stioctmr = true ∧ Pending s ∨ s.stioctmr = false ∧ s.sdIocblk = none ∧ s.sdWiocing = [s.call])
  | .awake rslt => s.iocwait = true ∧ s.sdWiocing = [] ∧
      (s.stioctmr = true ∧ Outcome.Is s rslt ∨ rslt = 0 ∧ s.stioctmr = false ∧ s.sdIocblk = none)
  | .waited err => s.iocwait = true ∧ s.stioctmr = false ∧ s.sdWiocing = [] ∧ Outcome.Is s err
  | .cleared err => s.iocwait = false ∧ s.stioctmr = false ∧ s.sdWiocing = [] ∧ Outcome.Is s err

def ResultOk (r : Result) : Prop :=
  (0 ≤ r.value → ∃ m, r.reply = some m ∧ m.dbType = M_IOCACK ∧ r.iocId = some m.iocId ∧ m.iocError = 0) ∧
    ∀ m ∈ r.reply, m.req = r.call

structure Inv (s : IocHead) : Prop where
  phase : PhaseOk s s.phase
  seq : s.phase ≠ .idle → s.sdIocseq = s.iocId
  results : ∀ r ∈ s.results, ResultOk r

theorem init_inv (n : Uint) : Inv (.init n) := ⟨⟨rfl,rfl,rfl,rfl⟩,fun h => absurd rfl h,nofun⟩

theorem prologue_neg {ioc : Strioctl} {dc : Bool} {p : Start} (h : prologue ioc dc p = some err) : err < 0 := by
  unfold prologue at h
  split_ifs at h with h1 h2 h3 h4 h5 h6 <;> simp only [Option.some.injEq] at h <;> subst h
  · decide
  · decide
  · simpa using (by simpa using h4 : dc = true ∧ _).2
  · decide
  · simpa using (by simpa using h6 : dc = true ∧ _).2

/- An answer gives a result of 0 or more only if it is an M_IOCACK without an error. -/
theorem consume_nonneg {dc : Bool} (h : consume x86 dc m o = some v)
    (he : m.dbType = M_IOCACK ∨ m.dbType = M_IOCNAK → 0 ≤ m.iocError) (hv : 0 ≤ v) :
    m.dbType = M_IOCACK ∧ m.iocError = 0 := by
  unfold consume at h
  split_ifs at h with h1 h2 h3 h4 h5 h6 <;> simp only [Option.some.injEq] at h
  · have := he (.inl h1)
    omega
  · simp only [Bool.and_eq_true,decide_eq_true_eq] at h3
    exact absurd (h ▸ hv) (not_le.mpr h3.2)
  · exact ⟨h1,not_not.mp h2⟩
  · have := he (.inr h4)
    omega
  · exact absurd (h ▸ hv) (by decide)
  · simp only [Option.ite_none_right_eq_some,Option.some.injEq] at h
    exact absurd (h.2 ▸ hv) (not_le.mpr h.1)
  · exact absurd (h ▸ hv) (by decide)

theorem ResultOk.fail {c : ℕ} {id : Option Uint} (h : v < 0) : ResultOk ⟨c,id,v,none⟩ :=
  ⟨fun h0 => absurd h0 (not_le.mpr h),nofun⟩

theorem start_inv {ioc : Strioctl} {dc : Bool} {p : Start} (hi : Inv s) (hp : s.phase = .idle) :
    Inv (s.start ioc dc p) := by
  obtain ⟨h1,h2,h3,h4⟩ : PhaseOk s .idle := hp ▸ hi.phase
  unfold IocHead.start
  cases hpr : prologue ioc dc p with
  | some err =>
    refine ⟨⟨h1,h2,h3,h4⟩,fun h => absurd rfl h,?_⟩
    intro r hr
    rcases List.mem_append.mp hr with hr | hr
    · exact hi.results r hr
    · exact List.mem_singleton.mp hr ▸ .fail (prologue_neg hpr)
  | none => exact ⟨⟨rfl,h2,.inl ⟨h3,h4⟩⟩,fun _ => rfl,hi.results⟩

theorem wait_inv (hi : Inv s) (hg : Guard s .wait) (hp : s.phase = .sent) : Inv s.waitForWiocing := by
  obtain ⟨h1,h2,h3⟩ : PhaseOk s .sent := hp ▸ hi.phase
  have hno : (!s.ignoreErrors && (s.sdErr.strderr || s.sdErr.stwrerr)) = false := by
    rcases hg with h | ⟨h,h'⟩
    · simp [h]
    · simp [h,h']
  rw [IocHead.waitForWiocing,hno]
  exact ⟨⟨h1,.inl ⟨rfl,h3⟩⟩,fun _ => hi.seq (by simp [hp]),hi.results⟩

theorem woken_inv {rslt : ℤ} (hi : Inv s) (hp : s.phase = .awake rslt) : Inv (s.woken rslt) := by
  obtain ⟨h1,h2,h3⟩ : PhaseOk s (.awake rslt) := hp ▸ hi.phase
  have hseq := hi.seq (by simp [hp])
  unfold IocHead.woken
  rcases h3 with ⟨ht,h3⟩ | ⟨h0,ht,hn⟩
  · split_ifs with hr hs
    · exact ⟨⟨h1,rfl,h2,h3⟩,fun _ => hseq,hi.results⟩
    · simp [ht] at hs
    · have hz : rslt = 0 := (h3.resolve_left fun h => hr h.1).1
      exact ⟨⟨h1,rfl,h2,hz ▸ h3⟩,fun _ => hseq,hi.results⟩
  · split_ifs with hr hs
    · omega
    · exact ⟨⟨h1,ht,h2,.inl ⟨by decide,hn⟩⟩,fun _ => hseq,hi.results⟩
    · simp [ht] at hs

theorem finish_inv (hi : Inv s) (hg : Guard s (.finish o)) (hp : s.phase = .cleared err) :
    Inv (s.finish x86 err o) := by
  obtain ⟨h1,h2,h3,h4⟩ : PhaseOk s (.cleared err) := hp ▸ hi.phase
  have hseq := hi.seq (by simp [hp])
  unfold IocHead.finish
  rcases h4 with ⟨hneg,hn⟩ | ⟨h0,m,hm,hreq,hid⟩
  · obtain ⟨hw,hr⟩ := hg.1 hn
    simp only [hn,hw,hr,ne_eq,not_true_eq_false,if_false]
    refine ⟨⟨h1,h2,hn,h3⟩,fun h => absurd rfl h,?_⟩
    intro r hr
    rcases List.mem_append.mp hr with hr | hr
    · exact hi.results r hr
    · exact List.mem_singleton.mp hr ▸ .fail hneg
  · subst h0
    have hnn : decide ((0 : ℤ) < 0) = false := rfl
    simp only [hm,hnn]
    cases hc : consume x86 s.doCopyin m o with
    | some v =>
      refine ⟨⟨h1,h2,rfl,h3⟩,fun h => absurd rfl h,?_⟩
      intro r hr
      rcases List.mem_append.mp hr with hr | hr
      · exact hi.results r hr
      · have hr := List.mem_singleton.mp hr
        subst hr
        refine ⟨fun hv => ⟨m,rfl,?_⟩,fun m' hm' => ?_⟩
        · obtain ⟨ha,he⟩ := consume_nonneg hc (hg.2 m hm) hv
          exact ⟨ha,congrArg some hid.symm,he⟩
        · cases hm'
          exact hreq
    | none => exact ⟨⟨rfl,h2,.inl ⟨rfl,h3⟩⟩,fun _ => hseq,hi.results⟩

theorem down_inv {k : ℕ} {rest : List ℕ} (hi : Inv s) (hp : s.phase = .sleeping)
    (hw : s.sdWiocing = k :: rest) : Inv { s with sdWiocing := rest, phase := .awake 0 } := by
  obtain ⟨h1,h2⟩ : PhaseOk s .sleeping := hp ▸ hi.phase
  have hseq := hi.seq (by simp [hp])
  rcases h2 with ⟨ht,⟨-,he⟩ | ⟨hans,he⟩⟩ | ⟨ht,hn,he⟩
  · simp [he] at hw
  · rw [he] at hw
    cases hw
    exact ⟨⟨h1,rfl,.inl ⟨ht,.inr ⟨rfl,hans⟩⟩⟩,fun _ => hseq,hi.results⟩
  · rw [he] at hw
    cases hw
    exact ⟨⟨h1,rfl,.inr ⟨rfl,ht,hn⟩⟩,fun _ => hseq,hi.results⟩

theorem signal_inv (hi : Inv s) (hp : s.phase = .sleeping) (hw : s.sdWiocing = []) :
    Inv { s with phase := .awake (-EINTR) } := by
  obtain ⟨h1,h2⟩ : PhaseOk s .sleeping := hp ▸ hi.phase
  have hseq := hi.seq (by simp [hp])
  rcases h2 with ⟨ht,⟨hn,-⟩ | ⟨-,he⟩⟩ | ⟨-,-,he⟩
  · exact ⟨⟨h1,hw,.inl ⟨ht,.inl ⟨by decide,hn⟩⟩⟩,fun _ => hseq,hi.results⟩
  · simp [he] at hw
  · simp [he] at hw

theorem rput_inv (hi : Inv s) (hg : Guard s (.rput m)) : Inv (s.lisStrrput m) := by
  unfold IocHead.lisStrrput
  by_cases ha : s.accepts m = true
  · obtain ⟨hreq,hw,hp⟩ := hg ha
    rw [if_pos ha]
    simp only [IocHead.accepts,Bool.and_eq_true,Option.isNone_iff_eq_none,beq_iff_eq] at ha
    obtain ⟨⟨⟨hwait,hn⟩,-⟩,hid⟩ := ha
    have hseq : s.sdIocseq = s.iocId := hi.seq (by rcases hp with h | h <;> simp [h])
    have hpend : Pending { s with sdIocblk := some m }.lisWakeUpWiocing :=
      .inr ⟨⟨m,rfl,hreq,hid.trans hseq⟩,by simp [IocHead.lisWakeUpWiocing,hw]⟩
    refine ⟨?_,fun _ => hseq,hi.results⟩
    show PhaseOk _ s.phase
    rcases hp with hp | hp
    · obtain ⟨-,h2,-⟩ : PhaseOk s .sent := hp ▸ hi.phase
      exact hp ▸ ⟨hwait,h2,hpend⟩
    · obtain ⟨-,h2⟩ : PhaseOk s .sleeping := hp ▸ hi.phase
      rcases h2 with ⟨ht,-⟩ | ⟨-,-,he⟩
      · exact hp ▸ ⟨hwait,.inl ⟨ht,hpend⟩⟩
      · simp [he] at hw
  · rw [if_neg ha]
    exact hi

theorem tmout_inv (hi : Inv s) (hg : Guard s .tmout) : Inv s.lisDoTmout := by
  unfold IocHead.lisDoTmout
  cases ht : s.stioctmr with
  | false =>
    simp only [Bool.false_eq_true,if_false]
    exact ⟨ht ▸ hi.phase,hi.seq,hi.results⟩
  | true =>
    obtain ⟨hp,hn⟩ := hg ht
    obtain ⟨h1,h2⟩ : PhaseOk s .sleeping := hp ▸ hi.phase
    have hw : s.sdWiocing = [] := by
      rcases h2 with ⟨-,⟨-,he⟩ | ⟨⟨m,hm,-⟩,-⟩⟩ | ⟨hf,-⟩
      · exact he
      · simp [hn] at hm
      · simp [ht] at hf
    simp only [h1,if_true]
    refine ⟨?_,hi.seq,hi.results⟩
    show PhaseOk _ s.phase
    exact hp ▸ ⟨rfl,.inr ⟨rfl,hn,by simp [IocHead.lisWakeUpWiocing,hw]⟩⟩

theorem step_inv (hi : Inv s) (hg : Guard s a) (hs : step x86 s a = some t) : Inv t := by
  cases a with
  | start ioc dc p =>
    simp only [step,Option.ite_none_right_eq_some,Option.some.injEq] at hs
    exact hs.2 ▸ start_inv hi hs.1
  | wait =>
    simp only [step,Option.ite_none_right_eq_some,Option.some.injEq] at hs
    exact hs.2 ▸ wait_inv hi hg hs.1
  | down =>
    simp only [step] at hs
    split at hs
    · next hp hw => exact Option.some.inj hs ▸ down_inv hi hp hw
    · cases hs
  | signal =>
    simp only [step,Option.ite_none_right_eq_some,Option.some.injEq] at hs
    exact hs.2 ▸ signal_inv hi hs.1.1 hs.1.2
  | woken =>
    simp only [step] at hs
    split at hs
    · next hp => exact Option.some.inj hs ▸ woken_inv hi hp
    · cases hs
  | clear =>
    simp only [step] at hs
    split at hs
    · next err hp =>
      obtain ⟨-,h2⟩ : PhaseOk s (.waited err) := hp ▸ hi.phase
      exact Option.some.inj hs ▸ ⟨⟨rfl,h2⟩,fun _ => hi.seq (by simp [hp]),hi.results⟩
    · cases hs
  | finish o =>
    simp only [step] at hs
    split at hs
    · next hp => exact Option.some.inj hs ▸ finish_inv hi hg hp
    · cases hs
  | rput m =>
    simp only [step,Option.ite_none_right_eq_some,Option.some.injEq] at hs
    exact hs.2 ▸ rput_inv hi hg
  | tmout =>
    simp only [step,Option.ite_none_right_eq_some,Option.some.injEq] at hs
    exact hs.2 ▸ tmout_inv hi hg
  | error r w =>
    have hw : s.iocwait = false := hg
    simp only [step,IocHead.streamError,hw,Bool.false_eq_true,if_false,Option.some.injEq] at hs
    exact hs ▸ ⟨hw ▸ hi.phase,hi.seq,hi.results⟩
  | hangup => exact Option.some.inj hs ▸ ⟨hi.phase,hi.seq,hi.results⟩
  | closing => exact Option.some.inj hs ▸ ⟨hi.phase,hi.seq,hi.results⟩
  | other => exact Option.some.inj hs ▸ ⟨hi.phase,hi.seq,hi.results⟩

theorem Pending.own (h : Pending s) : (∀ m ∈ s.sdIocblk, m.req = s.call) ∧ ∀ k ∈ s.sdWiocing, k = s.call := by
  rcases h with ⟨hn,hw⟩ | ⟨⟨m,hm,hreq,-⟩,hw⟩
  · simp [hn,hw]
  · simp [hm,hw,hreq]

theorem Outcome.Is.own (h : Outcome.Is s err) : ∀ m ∈ s.sdIocblk, m.req = s.call := by
  rcases h with ⟨-,hn⟩ | ⟨-,m,hm,hreq,-⟩
  · simp [hn]
  · simp [hm,hreq]

theorem phaseOk_own {p : Phase} (h : PhaseOk s p) :
    (∀ m ∈ s.sdIocblk, m.req = s.call) ∧ ∀ k ∈ s.sdWiocing, k = s.call := by
  cases p with
  | idle => simp [h.2.2.1,h.2.2.2]
  | sent => exact h.2.2.own
  | sleeping =>
    rcases h.2 with ⟨-,h⟩ | ⟨-,hn,hw⟩
    · exact h.own
    · simp [hn,hw]
  | awake r =>
    refine ⟨?_,by simp [h.2.1]⟩
    rcases h.2.2 with ⟨-,h⟩ | ⟨-,-,hn⟩
    · exact h.own
    · simp [hn]
  | waited e => exact ⟨h.2.2.2.own,by simp [h.2.2.1]⟩
  | cleared e => exact ⟨h.2.2.2.own,by simp [h.2.2.1]⟩

theorem matched_of_inv (hi : Inv s) : Matched s := by
  have hidle : s.phase = .idle → s.sdIocblk = none ∧ s.sdWiocing = [] := fun hp =>
    (show PhaseOk s .idle from hp ▸ hi.phase).2.2
  obtain ⟨hslot,hwake⟩ := phaseOk_own hi.phase
  refine ⟨fun r hr => (hi.results r hr).1,fun r hr => (hi.results r hr).2,fun m hm => ⟨?_,hslot m hm⟩,
    fun k hk => ⟨?_,hwake k hk⟩⟩
  · intro hp
    simp [(hidle hp).1] at hm
  · intro hp
    simp [(hidle hp).2] at hk

/-- In every run whose steps all meet the condition, ioctls and answers match. -/
theorem run_matched {n : Uint} {as : List Act} (hg : Meets (step x86) Guard (.init n) as)
    (h : exec (step x86) (.init n) as = some s) : Matched s :=
  matched_of_inv (exec_preserves (fun _ _ _ => step_inv) (init_inv n) hg h)

/- The steps of an ioctl that gets an answer. -/
def answered (m : IocMsg) : List Act :=
  [.start ⟨8,0,0⟩ true {},.wait,.rput m,.down,.woken,.clear,.finish ⟨true,true,fun _ => true,fun _ => 0⟩]

/-- An M_IOCACK for the first ioctl and an M_IOCNAK with EINVAL for the second. -/
theorem run_matched_two : ∃ s, exec (step true) (.init 0)
      (answered { dbType := M_IOCACK, iocId := 1, iocRval := 5, req := 1 } ++
        answered { dbType := M_IOCNAK, iocId := 2, iocError := 22, req := 2 }) = some s ∧
    s.results.map Result.value = [5,-22] ∧ Matched s :=
  ⟨_,rfl,rfl,@run_matched true _ 0
    (answered { dbType := M_IOCACK, iocId := 1, iocRval := 5, req := 1 } ++
      answered { dbType := M_IOCNAK, iocId := 2, iocError := 22, req := 2 }) (by decide) rfl⟩

/-- The timer runs out between the answer and the caller. The first ioctl returns -ETIME
and leaves its M_IOCACK in `sd_iocblk`; the second is done at once, with that answer. -/
theorem late_timer_mismatch : ∃ s, exec (step true) (.init 0)
      [.start ⟨8,15,0⟩ true {},.wait,.rput { dbType := M_IOCACK, iocId := 1, req := 1 },.tmout,.down,.woken,.clear,
        .finish ⟨true,true,fun _ => true,fun _ => 0⟩,
        .start ⟨8,15,0⟩ true {},.wait,.down,.woken,.clear,.finish ⟨true,true,fun _ => true,fun _ => 0⟩] = some s ∧
    s.results.map Result.value = [-62,0] ∧ ¬Matched s := by
  refine ⟨_,rfl,rfl,fun h => ?_⟩
  have hown := h.own ⟨2,some 2,0,some { dbType := M_IOCACK, iocId := 1, req := 1 }⟩ (by decide) _ rfl
  cases hown

end CSLiS.Ioctl
