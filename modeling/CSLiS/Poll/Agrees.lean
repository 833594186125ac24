import CSLiS.Poll.Strwsrv

/-!
# Whether poll agrees with what reads and writes do

`lis_poll_bits` against the calls that read and against the queue that `lis_bcanputnext` tests, and `lis_strwsrv`
against those who wait in poll.
-/

namespace CSLiS.Poll
open Lib.Split Queue Head

def SIGPOLL : Uchar := 29

/- What the first message of the read queue tells (`head.c:7936-7963`). -/
def readBits : Option Mesg → Revents
  | none => {}
  | some mp =>
      if lisHipri mp.dbType then { pollpri := true }
      else if mp.dbType = M_DATA ∨ mp.dbType = M_PROTO then
        if 0 < mp.blk.bBand then { pollin := true, pollrdband := true } else { pollin := true, pollrdnorm := true }
      else if mp.dbType = M_SIG then { pollin := true, pollmsg := mp.blk.buf[mp.blk.bRptr]? == some SIGPOLL }
      else { pollin := true }

/-- `lis_poll_bits` (`head.c:7910-7979`) -/
def Stdata.lisPollBits (s : Stdata) : Stdata × Revents :=
  if s.sdFlag.strderr || s.sdFlag.stwrerr then (s,{ pollerr := true })
  else if s.sdFlag.strhup || s.sdFlag.strclose then (s,{ pollhup := true })
  else if s.sdFlag.stplex then (s,{ pollnval := true })
  else
    let r := s.canput
    -- the queue below the head is given, and the one after it is where the search starts
    (r.1,{ readBits s.sdRq.msgs.head? with
      pollwrnorm := r.2
      pollout := r.2
      pollwrband := lisBcanputnextAnyband r.1.below.tail })

/- No error, hangup, close or link. -/
def Stdata.Quiet (s : Stdata) : Prop :=
  s.sdFlag.strderr = false ∧ s.sdFlag.stwrerr = false ∧ s.sdFlag.strhup = false ∧ s.sdFlag.strclose = false ∧
    s.sdFlag.stplex = false

/-! ### Back-enabling (queue.c) -/

/- What is done to the queue that has what was written; each of these ends in `lis_backenable`. -/
inductive Drain
  | getq
  | rmvq (addr : ℕ)
  | flushband (band : Uchar) (flushAll : Bool)
  | flushq (flushAll : Bool)
  deriving DecidableEq, Repr

def Drain.run (alloc : Msg → Bool) (q : ListQueue) (back : List BackQ) : Drain → ListQueue × List BackQ × Bool
  | getq => q.lisGetq alloc back
  | rmvq addr => q.lisRmvq alloc addr back
  | flushband band flushAll => q.lisFlushband alloc band flushAll back
  | flushq flushAll => q.lisFlushq alloc flushAll back

def toBackQ (q : ListQueue) : BackQ := ⟨q.core.qFlag,q.core.qiSrvp,q.core.qCount⟩
def enabled (q : ListQueue) (b : BackQ) : ListQueue := { q with core := { q.core with qFlag := b.qFlag } }

/- The queue is drained. The result is the stream as `lis_strwsrv` finds it, if that is enabled. -/
def Stdata.drained (alloc : Msg → Bool) (d : Drain) (s : Stdata) : Option Stdata :=
  match search s.below with
  | none => none
  | some z =>
      let behind := z.1.reverse ++ [s.sdWq]
      let r := d.run alloc z.2.1 (behind.map toBackQ)
      let behind := List.zipWith enabled behind r.2.1
      let sdWq := behind.getLastD s.sdWq
      if sdWq.core.qFlag.qenab then
        some { s with sdWq := sdWq, below := behind.dropLast.reverse ++ r.1 :: z.2.2 }
      else none

/-! ### What is claimed -/

/- The priority and the band of the message that a getpmsg takes. -/
def taken (rd : Rdq) (c : Call) : Option (Bool × Uchar) :=
  (lisStrgetpmsg rd c).bind fun r => if r.2.err.isNone then some (r.2.flags == MSG_HIPRI,r.2.band) else none

/- I_RECVFD takes the first message (`linux-mdep.c:4196`). -/
def passed (rd : Rdq) : Bool := rd.msgs.head?.map Mesg.dbType == some M_PASSFP

/- A getpmsg with its buffers, from memory that is there. -/
def getpmsg (ctl dat : Option ℤ) (flags band : ℤ) : Call := ⟨ctl,dat,flags,some band,fun _ => false⟩

structure BitsRight (s : Stdata) (ctl dat : Option ℤ) : Prop where
  pollout : s.lisPollBits.2.pollout = true ↔ (lisBcanputnext false s.below 0).2 = true
  pollwrnorm : s.lisPollBits.2.pollwrnorm = true ↔ (lisBcanputnext false s.below 0).2 = true
  pollwrband : s.lisPollBits.2.pollwrband = true ↔
    ∃ q, tested s.below = some q ∧ ∃ qp ∈ q.core.qBandp, qp.qbFull = false
  pollpri : s.lisPollBits.2.pollpri = true ↔ ∃ b, taken s.sdRq (getpmsg ctl dat MSG_HIPRI 0) = some (true,b)
  pollin : s.lisPollBits.2.pollin = true ↔
    (∃ b, taken s.sdRq (getpmsg ctl dat MSG_ANY 0) = some (false,b)) ∨ passed s.sdRq = true
  pollrdnorm : s.lisPollBits.2.pollrdnorm = true ↔ taken s.sdRq (getpmsg ctl dat MSG_BAND 0) = some (false,0)
  pollrdband : s.lisPollBits.2.pollrdband = true ↔
    ∃ b, 0 < b ∧ taken s.sdRq (getpmsg ctl dat MSG_BAND 1) = some (false,b)

/- A condition that did not hold before, and holds at the end of the service procedure, was waited for. -/
structure WakesRight (alloc : Msg → Bool) (put : List ListQueue → Msg → List ListQueue) (before s : Stdata)
    (ev : Revents) : Prop where
  pollout : ev.pollout = true ∨ ev.pollwrnorm = true → room before.below = false →
    room (s.lisStrwsrv alloc put).1.below = true → .poll ∈ (s.lisStrwsrv alloc put).2
  pollwrband : ev.pollwrband = true → lisBcanputnextAnyband before.below = false →
    lisBcanputnextAnyband (s.lisStrwsrv alloc put).1.below = true → .poll ∈ (s.lisStrwsrv alloc put).2

structure PollAgrees (alloc : Msg → Bool) (d : Drain) (s : Stdata) : Prop where
  bits : ∀ ctl dat, BitsRight s ctl dat
  wakes : ∀ t, s.drained alloc d = some t → ∀ put, ∀ ev ∈ t.sdTaskList, WakesRight alloc put s t ev

/-! ### When it is so -/

/- Both searches find the queue below the head, or one that agrees with it. -/
def Settled : List ListQueue → Prop
  | [] => True
  | [q] => ∀ qp ∈ q.core.qBandp, qp.qbFull = true
  | q :: q' :: below => q.core.qiSrvp = false ∨
      ((∃ qp ∈ q.core.qBandp, qp.qbFull = false) ↔ lisBcanputnextAnyband (q' :: below) = true)

/- Nobody waits for a band that had no room, or band 0 gets room and keeps it, or no band gets any. -/
def Spared (before s : Stdata) : Prop :=
  (∃ ev ∈ s.sdTaskList, ev.pollwrband = true) → lisBcanputnextAnyband before.below = false →
    (room s.below = true ∧ s.idle) ∨ (room s.below = false ∧ lisBcanputnextAnyband s.below = false)

structure Agreeing (alloc : Msg → Bool) (d : Drain) (s : Stdata) : Prop where
  readable : ∀ mp ∈ s.sdRq.msgs.head?, mp.dbType = M_DATA ∨ mp.dbType = M_PROTO ∨ mp.dbType = M_PCPROTO ∨
    mp.dbType = M_PASSFP
  settled : Settled s.below
  spared : ∀ t, s.drained alloc d = some t → Spared s t

variable {below : List ListQueue} {alloc : Msg → Bool} {put : List ListQueue → Msg → List ListQueue} {s t : Stdata}
  {ctl dat : Option ℤ} {flags band : ℤ} {mp : Mesg} {l : List Mesg} {d : Drain}

/-! ### The reading side -/

theorem copyoutLoop_err {isCtl : Bool} {fault : Ucopy → Bool} (hf : ∀ u, fault u = false) {n : ℕ} {rtnlen maxlen : ℤ}
    {mlen : Option ℕ} {m : List Mblk} : (copyoutLoop isCtl fault n rtnlen maxlen mlen m).err = false := by
  induction n generalizing rtnlen maxlen mlen m with
  | zero => rfl
  | succ n ih =>
    cases m with
    | nil => rfl
    | cons b m =>
      unfold copyoutLoop
      simp only [hf,Bool.false_eq_true,and_false,if_false]
      split_ifs <;> first | rfl | exact ih

theorem copyoutMsgpart_err {isCtl : Bool} {fault : Ucopy → Bool} (hf : ∀ u, fault u = false) {sb : Option ℤ}
    {m : List Mblk} : (copyoutMsgpart isCtl fault sb m).err = false := by
  unfold copyoutMsgpart
  simp only [hf,Bool.false_eq_true,and_false,if_false,copyoutLoop_err hf,Bool.and_false]

/- Which message a getpmsg takes depends on the first one only. -/
theorem taken_eq {rd : Rdq} (h : rd.msgs = mp :: l) : taken rd (getpmsg ctl dat flags band) =
    if mp.dbType = M_DATA ∨ mp.dbType = M_PROTO ∨ mp.dbType = M_PCPROTO then
      match (getpmsg ctl dat flags band).selects mp with
      | .error _ => none
      | .ok flags => some (flags == MSG_HIPRI,if lisHipri mp.dbType then 0 else mp.blk.bBand)
    else none := by
  have hf : ∀ u, (getpmsg ctl dat flags band).fault u = false := fun _ => rfl
  have hband : (getpmsg ctl dat flags band).band = some band := rfl
  unfold taken lisStrgetpmsg
  simp only [h,hf,Bool.false_eq_true,if_false,copyoutMsgpart_err hf,and_false,or_self]
  by_cases hfp : mp.dbType = M_PASSFP
  · have hno : ¬ (mp.dbType = M_DATA ∨ mp.dbType = M_PROTO ∨ mp.dbType = M_PCPROTO) := by rw [hfp]; decide
    rw [if_pos hfp,if_neg hno]
    rfl
  rw [if_neg hfp]
  by_cases hin : mp.dbType ∉ [M_DATA,M_PROTO,M_PCPROTO,M_SIG]
  · rw [if_pos hin,if_neg fun h => hin (by rcases h with h | h | h <;> simp [h])]
    rfl
  rw [if_neg hin]
  cases hs : (getpmsg ctl dat flags band).selects mp with
  | error e => simp [Answer.error]
  | ok fl =>
    by_cases hsig : mp.dbType = M_SIG
    · have hno : ¬ (mp.dbType = M_DATA ∨ mp.dbType = M_PROTO ∨ mp.dbType = M_PCPROTO) := by rw [hsig]; decide
      simp only [hsig,if_true]
      rw [← hsig,if_neg hno]
      rfl
    · have hty : mp.dbType = M_DATA ∨ mp.dbType = M_PROTO ∨ mp.dbType = M_PCPROTO := by
        simp only [List.mem_cons,hsig,List.not_mem_nil,or_false,not_not] at hin
        exact hin
      simp [hsig,hty,Call.flagsBack,hband]

theorem taken_nil {rd : Rdq} {c : Call} (h : rd.msgs = []) (hc : c.fault .args = false) : taken rd c = none := by
  simp [taken,lisStrgetpmsg,h,hc]

theorem selects_hipri (h : lisHipri mp.dbType = true) : (getpmsg ctl dat flags band).selects mp = .ok MSG_HIPRI := by
  simp [Call.selects,h]

/- A message that is not of high priority, asked for in each of the ways. -/
theorem selects_low (h : lisHipri mp.dbType = false) :
    (getpmsg ctl dat MSG_HIPRI 0).selects mp = .error .ebadmsg ∧
      (getpmsg ctl dat MSG_ANY 0).selects mp = .ok MSG_BAND ∧
      (getpmsg ctl dat MSG_BAND 0).selects mp = .ok MSG_BAND ∧
      (getpmsg ctl dat MSG_BAND 1).selects mp = if 0 < mp.blk.bBand then .ok MSG_BAND else .error .ebadmsg := by
  have hone : mp.blk.bBand < Fin.ofNat 256 ((1 : ℤ) % 256).toNat ↔ ¬ 0 < mp.blk.bBand := by
    rw [Fin.lt_def,Fin.lt_def]
    have : (Fin.ofNat 256 ((1 : ℤ) % 256).toNat : Uchar).val = 1 := by decide
    have h0 : (0 : Uchar).val = 0 := rfl
    omega
  refine ⟨?_,?_,?_,?_⟩
  · simp [Call.selects,h,getpmsg]
  · simp [Call.selects,h,getpmsg,MSG_ANY,MSG_HIPRI,MSG_BAND]
  · simp [Call.selects,h,getpmsg,MSG_HIPRI,MSG_BAND]
  · simp only [Call.selects,h,getpmsg,MSG_HIPRI,MSG_BAND,Bool.false_eq_true,if_false,hone]
    split_ifs <;> simp_all

/- The bits of the reading side are right if the first message is of a kind that somebody reads, and not otherwise. -/
theorem readBits_right (rd : Rdq) : (∀ ctl dat,
    ((readBits rd.msgs.head?).pollpri = true ↔ ∃ b, taken rd (getpmsg ctl dat MSG_HIPRI 0) = some (true,b)) ∧
    ((readBits rd.msgs.head?).pollin = true ↔
      (∃ b, taken rd (getpmsg ctl dat MSG_ANY 0) = some (false,b)) ∨ passed rd = true) ∧
    ((readBits rd.msgs.head?).pollrdnorm = true ↔ taken rd (getpmsg ctl dat MSG_BAND 0) = some (false,0)) ∧
    ((readBits rd.msgs.head?).pollrdband = true ↔
      ∃ b, 0 < b ∧ taken rd (getpmsg ctl dat MSG_BAND 1) = some (false,b))) ↔
    ∀ mp ∈ rd.msgs.head?, mp.dbType = M_DATA ∨ mp.dbType = M_PROTO ∨ mp.dbType = M_PCPROTO ∨
      mp.dbType = M_PASSFP := by
  cases hm : rd.msgs with
  | nil =>
    have ht : ∀ ctl dat flags band, taken rd (getpmsg ctl dat flags band) = none :=
      fun ctl dat flags band => taken_nil hm rfl
    simp [ht,readBits,passed,hm]
  | cons mp l =>
    have ht : ∀ ctl dat flags band, taken rd (getpmsg ctl dat flags band) = _ :=
      fun ctl dat flags band => taken_eq hm
    simp only [List.head?_cons,Option.mem_some_iff,forall_eq']
    constructor
    · intro h
      by_contra hno
      have hty : ¬ (mp.dbType = M_DATA ∨ mp.dbType = M_PROTO ∨ mp.dbType = M_PCPROTO) := by tauto
      have hfp : passed rd = false := by
        simp [passed,hm]
        tauto
      obtain ⟨hpri,hin,-,-⟩ := h none none
      rw [ht,if_neg hty] at hpri hin
      cases hh : lisHipri mp.dbType with
      | true => simp [readBits,hh] at hpri
      | false =>
        have hbit : (readBits (some mp)).pollin = true := by
          simp only [readBits,hh,Bool.false_eq_true,if_false]
          split_ifs <;> rfl
        simp [hbit,hfp] at hin
    · intro h ctl dat
      simp only [ht]
      rcases or_assoc.mpr h with h | h | h
      · have hh : lisHipri mp.dbType = false := by rcases h with h | h <;> (rw [h]; decide)
        have hty : mp.dbType = M_DATA ∨ mp.dbType = M_PROTO ∨ mp.dbType = M_PCPROTO := or_assoc.mp (Or.inl h)
        have hfp : passed rd = false := by
          rw [passed,hm]
          rcases h with h | h <;> (simp only [List.head?_cons,Option.map_some,h]; decide)
        obtain ⟨hhi,hany,hb0,hb1⟩ := @selects_low ctl dat mp hh
        rw [if_pos hty,if_pos hty,if_pos hty,if_pos hty,hhi,hany,hb0,hb1,hfp]
        by_cases hb : 0 < mp.blk.bBand
        · simp [readBits,hh,h,hb,MSG_HIPRI,MSG_BAND,Fin.pos_iff_ne_zero.mp hb]
        · have h0 : mp.blk.bBand = 0 := by simpa [Fin.pos_iff_ne_zero] using hb
          simp [readBits,hh,h,h0,MSG_HIPRI,MSG_BAND]
      · have hh : lisHipri mp.dbType = true := by rw [h]; decide
        have hfp : passed rd = false := by
          rw [passed,hm]
          simp only [List.head?_cons,Option.map_some,h]
          decide
        have hty : mp.dbType = M_DATA ∨ mp.dbType = M_PROTO ∨ mp.dbType = M_PCPROTO := Or.inr (Or.inr h)
        simp only [if_pos hty,selects_hipri hh]
        simp [readBits,hh,hfp]
      · have hh : lisHipri mp.dbType = false := by rw [h]; decide
        have hfp : passed rd = true := by simp [passed,hm,h]
        have hno : ¬ (mp.dbType = M_DATA ∨ mp.dbType = M_PROTO ∨ mp.dbType = M_PCPROTO) := by rw [h]; decide
        have hlow : ¬ (mp.dbType = M_DATA ∨ mp.dbType = M_PROTO) ∧ mp.dbType ≠ M_SIG := by rw [h]; decide
        simp only [if_neg hno,hfp,readBits,hh,if_neg hlow.1,if_neg hlow.2]
        simp

/-! ### The writing side -/

/- The search from one queue further on is another one if the first queue has a service procedure or is the last. -/
theorem settled_iff : (lisBcanputnextAnyband below.tail = true ↔
    ∃ q, tested below = some q ∧ ∃ qp ∈ q.core.qBandp, qp.qbFull = false) ↔ Settled below := by
  rw [← anyband_iff]
  match below with
  | [] => exact ⟨fun _ => trivial,fun _ => Iff.rfl⟩
  | [q] => simp [Settled,lisBcanputnextAnyband,search,splitStop]
  | q :: q' :: l =>
    rw [List.tail_cons,Settled]
    cases hq : q.core.qiSrvp with
    | false =>
      have : lisBcanputnextAnyband (q :: q' :: l) = lisBcanputnextAnyband (q' :: l) := by
        unfold lisBcanputnextAnyband
        rw [search_cons hq]
        cases search (q' :: l) <;> rfl
      simp [this]
    | true =>
      have : lisBcanputnextAnyband (q :: q' :: l) = q.core.qBandp.any fun qp => !qp.qbFull := by
        simp [lisBcanputnextAnyband,search,splitStop,hq]
      rw [this]
      simp [iff_comm]

/- The wish that the test of band 0 leaves does not change what the other test finds. -/
theorem bcanputnext_tail : lisBcanputnextAnyband (lisBcanputnext false below 0).1.tail =
    lisBcanputnextAnyband below.tail := by
  match below with
  | [] => rfl
  | [q] => rfl
  | q :: q' :: l =>
    cases hq : q.core.qiSrvp with
    | true => simp [lisBcanputnext,search,splitStop,hq]
    | false =>
      have : (lisBcanputnext false (q :: q' :: l) 0).1 = q :: (lisBcanputnext false (q' :: l) 0).1 := by
        unfold lisBcanputnext
        rw [search_cons hq]
        cases search (q' :: l) <;> rfl
      rw [this,List.tail_cons,List.tail_cons,anyband_bcanputnext]

theorem pollBits_quiet (hq : s.Quiet) : s.lisPollBits.2 = { readBits s.sdRq.msgs.head? with
    pollwrnorm := room s.below, pollout := room s.below, pollwrband := lisBcanputnextAnyband s.below.tail } := by
  obtain ⟨h1,h2,h3,h4,h5⟩ := hq
  unfold Stdata.lisPollBits
  simp only [h1,h2,h3,h4,h5,Bool.or_self,Bool.false_eq_true,if_false,Stdata.canput_snd]
  rw [show s.canput.1.below = (lisBcanputnext false s.below 0).1 from rfl,bcanputnext_tail]

theorem bits_iff (hq : s.Quiet) : (∀ ctl dat, BitsRight s ctl dat) ↔
    (∀ mp ∈ s.sdRq.msgs.head?, mp.dbType = M_DATA ∨ mp.dbType = M_PROTO ∨ mp.dbType = M_PCPROTO ∨
      mp.dbType = M_PASSFP) ∧ Settled s.below := by
  rw [← readBits_right,← settled_iff]
  have hbits := pollBits_quiet hq
  constructor
  · intro h
    refine ⟨fun ctl dat => ?_,by simpa [hbits] using (h none none).pollwrband⟩
    obtain ⟨-,-,-,hpri,hin,hnorm,hband⟩ := h ctl dat
    rw [hbits] at hpri hin hnorm hband
    exact ⟨hpri,hin,hnorm,hband⟩
  · rintro ⟨hr,hw⟩ ctl dat
    obtain ⟨hpri,hin,hnorm,hband⟩ := hr ctl dat
    refine ⟨?_,?_,?_,?_,?_,?_,?_⟩ <;> rw [hbits]
    · rw [bcanputnext_snd]
    · rw [bcanputnext_snd]
    · exact hw
    · exact hpri
    · exact hin
    · exact hnorm
    · exact hband

/-! ### The waiters -/

theorem wait_of_mem {ev : Revents} (h : ev ∈ s.sdTaskList) : s.waiting = true := by
  have : s.sdTaskList ≠ [] := List.ne_nil_of_mem h
  simp [Stdata.waiting,this]

/- The loop leaves who waits alone. -/
theorem forward_waiting {n : ℕ} : (s.forward alloc put n).1.waiting = s.waiting := by
  induction n generalizing s with
  | zero =>
    simp only [Stdata.forward]
    split_ifs <;> rfl
  | succ n ih =>
    simp only [Stdata.forward]
    split_ifs
    · cases (s.canput.1.getq alloc).2 with
      | none => rfl
      | some mp => exact ih
    · rfl

theorem woken_iff {ev : Revents} (h : ev ∈ t.sdTaskList) : .poll ∈ (t.lisStrwsrv alloc put).2 ↔
    room (t.lisStrwsrv alloc put).1.below = true := by
  have hw : (t.lisStrwsrv alloc put).1.waiting = true := by
    rw [Stdata.strwsrv_alike.waiting,forward_waiting,wait_of_mem h]
  rw [Stdata.strwsrv_poll]
  exact and_iff_right hw

/- A queue that a message has filled, with a band that has room. -/
def filled : ListQueue :=
  ⟨⟨1,0,0,{ qfull := true },[⟨0,none,none,0,0,false,false,false⟩],true⟩,[],[]⟩

/- Whatever the put procedures below do, the waiters are woken, unless band 0 has no room where a band got some. -/
theorem wakes_iff : (∀ put, ∀ ev ∈ t.sdTaskList, WakesRight alloc put s t ev) ↔ Spared s t := by
  constructor
  · rintro h ⟨ev,hev,hwr⟩ hbefore
    cases hr : room t.below with
    | true =>
      refine Or.inl ⟨rfl,?_⟩
      by_contra hi
      obtain ⟨u,hu,-,hf⟩ := @Stdata.forward_filled alloc t [filled] hr hi rfl
      have hw := (h (fun _ _ => [filled]) ev hev).pollwrband hwr hbefore
      have halike := @Stdata.strwsrv_alike alloc (fun _ _ => [filled]) t
      rw [woken_iff hev,halike.room,halike.anyband,hf,(Stdata.canput_alike).room,(Stdata.canput_alike).anyband,
        hu] at hw
      exact Bool.false_ne_true (hw rfl)
    | false =>
      refine Or.inr ⟨rfl,?_⟩
      have hw := (h (fun l _ => l) ev hev).pollwrband hwr hbefore
      have halike := @Stdata.strwsrv_alike alloc (fun l _ => l) t
      rw [woken_iff hev,halike.room,halike.anyband,Stdata.forward_full hr,(Stdata.canput_alike).room,
        (Stdata.canput_alike).anyband,hr] at hw
      exact Bool.eq_false_iff.mpr fun hb => Bool.false_ne_true (hw hb)
  · intro h put ev hev
    refine ⟨fun _ _ hroom => (woken_iff hev).mpr hroom,fun hwr hbefore hband => (woken_iff hev).mpr ?_⟩
    have halike := @Stdata.strwsrv_alike alloc put t
    rw [halike.room]
    rw [halike.anyband] at hband
    rcases h ⟨ev,hev,hwr⟩ hbefore with ⟨hr,hi⟩ | ⟨hr,hb⟩
    · rw [Stdata.forward_idle hr hi]
      exact hr
    · rw [Stdata.forward_full hr,(Stdata.canput_alike).anyband,hb] at hband
      exact absurd hband Bool.false_ne_true

/- Poll agrees with reads and writes, and those who wait in it are woken, exactly if the first message is one that is
read, both searches settle on queues that agree, and band 0 has room where a band gets some. -/
theorem poll_agrees_iff (alloc : Msg → Bool) (d : Drain) (s : Stdata) (hq : s.Quiet) :
    PollAgrees alloc d s ↔ Agreeing alloc d s := by
  constructor
  · rintro ⟨hbits,hwakes⟩
    obtain ⟨hread,hset⟩ := (bits_iff hq).mp hbits
    exact ⟨hread,hset,fun t ht => wakes_iff.mp (hwakes t ht)⟩
  · rintro ⟨hread,hset,hsp⟩
    exact ⟨(bits_iff hq).mpr ⟨hread,hset⟩,fun t ht => wakes_iff.mpr (hsp t ht)⟩

/- A driver with a service procedure right below the stream head. -/
def driver (bands : List (Qband Msg)) : ListQueue := ⟨⟨0,1000,100,{},bands,true⟩,[],[]⟩
def overDriver (bands : List (Qband Msg)) : Stdata :=
  ⟨{},⟨[],false⟩,driver [],[driver bands],false,false,0,[{ pollwrband := true }]⟩

theorem poll_agrees_iff_noBands : (overDriver []).Quiet ∧
    (PollAgrees (fun _ => true) .getq (overDriver []) ↔ Agreeing (fun _ => true) .getq (overDriver [])) :=
  ⟨⟨rfl,rfl,rfl,rfl,rfl⟩,poll_agrees_iff (fun _ => true) .getq (overDriver []) ⟨rfl,rfl,rfl,rfl,rfl⟩⟩

/- A band that has room, in the queue that lis_bcanputnext tests, is not seen by poll. -/
theorem band_unseen : ¬ ∀ (alloc : Msg → Bool) (d : Drain) (s : Stdata), s.Quiet → PollAgrees alloc d s := by
  intro h
  have hbits := (h (fun _ => true) .getq (overDriver [⟨0,none,none,1000,100,false,false,false⟩])
    ⟨rfl,rfl,rfl,rfl,rfl⟩).bits none none
  exact Bool.false_ne_true (hbits.pollwrband.mpr ⟨_,rfl,_,List.mem_singleton_self _,rfl⟩)

end CSLiS.Poll
