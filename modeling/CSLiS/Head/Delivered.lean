import CSLiS.Head.Signals

/-!
# Who is sent a signal

After every run the nodes hold what the processes have asked for, so that a delivery sends the signals
that its events stand for. It is right exactly when these are the events that have arrived, and when
there is a list to go through.
-/

namespace CSLiS.Head
open Queue Lib.Exec

/-! ### Events -/

theorem fIsset_iff {m e : BitVec 16} : fIsset m e = true ↔ ∃ i, m.getLsbD i = true ∧ e.getLsbD i = true := by
  rw [fIsset,bne_iff_ne,ne_eq,← not_forall_not (p := fun i => m.getLsbD i = true ∧ e.getLsbD i = true),not_iff_not]
  constructor
  · intro h i
    have hi := congrArg (fun b => b.getLsbD i) h
    simpa [BitVec.getLsbD_and] using hi
  · intro h
    refine BitVec.eq_of_getLsbD_eq fun i _ => ?_
    have hi := h i
    simp only [BitVec.getLsbD_and]
    simpa using hi

namespace SigHead

variable {s t : SigHead} {e e1 m : BitVec 16} {es : List (BitVec 16)} {p : ℕ}

theorem sends_congr (h : m &&& e1 = m &&& e) : Kmem.sends e1 m = Kmem.sends e m := by
  have hf : fIsset m e1 = fIsset m e := congrArg (· != 0) h
  rw [Kmem.sends,hf,h]
  rfl

theorem fIsset_off (m e : BitVec 16) : fIsset m (e &&& ~~~S_RDBAND) = fIsset (m &&& e) (~~~S_RDBAND) := by
  rw [fIsset,fIsset,BitVec.and_assoc]

/- A process that asks for S_RDBAND is concerned by it. -/
theorem fIsset_urgent (hu : urgent m = true) (h : fIsset e S_RDBAND = true) : fIsset m e = true := by
  obtain ⟨-,hm⟩ := Bool.and_eq_true_iff.mp hu
  have hbit : ∀ x : BitVec 16, fIsset x S_RDBAND = true → x.getLsbD 7 = true := by
    intro x hx
    obtain ⟨i,h1,h2⟩ := fIsset_iff.mp hx
    have hi : i = 7 := by
      have hlt : i < 16 := BitVec.lt_of_getLsbD h2
      interval_cases i <;> revert h2 <;> decide
    exact hi ▸ h1
  exact fIsset_iff.mpr ⟨7,hbit m hm,hbit e h⟩

/- Either signal of an event is sent as it is wanted, or SIGURG comes for one that does not stand for it. -/
theorem sends_cases (e m : BitVec 16) : (Kmem.sends e m = wanted e m ∧
      (urgent m = true → fIsset m e = true → fIsset e S_RDBAND = true)) ∨
    (Signal.sigurg ∈ Kmem.sends e m ∧ urgent m = true ∧ fIsset m e = true ∧ fIsset e S_RDBAND = false) := by
  have hoff := fIsset_off m e
  cases hu : urgent m with
  | false =>
    have hu' : (fIsset m S_BANDURG && fIsset m S_RDBAND) = false := hu
    refine Or.inl ⟨?_,fun h => Bool.noConfusion h⟩
    simp [Kmem.sends,wanted,hu,hu']
  | true =>
    have hu' : (fIsset m S_BANDURG && fIsset m S_RDBAND) = true := hu
    cases hr : fIsset e S_RDBAND with
    | true =>
      have hme := fIsset_urgent hu hr
      refine Or.inl ⟨?_,fun _ _ => rfl⟩
      simp only [Kmem.sends,wanted,hu,hu',hr,hme,if_true,Bool.and_self,hoff]
      split_ifs <;> rfl
    | false =>
      cases hme : fIsset m e with
      | true =>
        refine Or.inr ⟨?_,rfl,rfl,rfl⟩
        simp only [Kmem.sends,hme,hu',if_true]
        split_ifs <;> exact List.mem_cons_self ..
      | false =>
        refine Or.inl ⟨?_,fun _ h => Bool.noConfusion h⟩
        have hz : m &&& e = 0 := by simpa [fIsset] using hme
        have hoff' : fIsset m (e &&& ~~~S_RDBAND) = false := by
          rw [hoff,hz]
          decide
        simp [Kmem.sends,wanted,hu,hr,hme,hoff']

/- Nobody wants SIGURG for events without S_RDBAND. -/
theorem sigurg_wanted (h : fIsset e S_RDBAND = false) : Signal.sigurg ∉ wanted e m := by
  simp only [wanted,h,Bool.false_and,Bool.false_eq_true,if_false,List.nil_append]
  split_ifs <;> simp

theorem sends_eq_wanted : Kmem.sends e m = wanted e m ↔
    (urgent m = true → fIsset m e = true → fIsset e S_RDBAND = true) := by
  rcases sends_cases e m with ⟨h1,h2⟩ | ⟨h1,h2,h3,h4⟩
  · exact iff_of_true h1 h2
  · refine iff_of_false (fun hc => sigurg_wanted h4 (hc ▸ h1)) fun hc => ?_
    exact Bool.noConfusion (h4.symm.trans (hc h2 h3))

/- The events that the number SIGPOLL is made of, against S_MSG. -/
theorem sends_sigpoll : Kmem.sends (BitVec.ofNat 16 SIGPOLL) m = wanted S_MSG m ↔
    (fIsset m (BitVec.ofNat 16 SIGPOLL) = true → fIsset m S_MSG = true ∧ urgent m = false) := by
  have hmsg : fIsset m S_MSG = true → fIsset m (BitVec.ofNat 16 SIGPOLL) = true := by
    intro h
    obtain ⟨i,h1,h2⟩ := fIsset_iff.mp h
    have hi : i = 3 := by
      have hlt : i < 16 := BitVec.lt_of_getLsbD h2
      interval_cases i <;> revert h2 <;> decide
    exact fIsset_iff.mpr ⟨3,hi ▸ h1,by decide⟩
  have hw : wanted S_MSG m = if fIsset m S_MSG then [.sigpoll] else [] := by
    have h1 : fIsset S_MSG S_RDBAND = false := by decide
    have h2 : S_MSG &&& ~~~S_RDBAND = S_MSG := by decide
    simp only [wanted,h1,h2,Bool.false_and,Bool.false_eq_true,if_false,List.nil_append,ite_self]
  rw [hw]
  cases hp : fIsset m (BitVec.ofNat 16 SIGPOLL) with
  | false =>
    have hm : fIsset m S_MSG = false := Bool.eq_false_iff.mpr fun h => Bool.noConfusion (hp.symm.trans (hmsg h))
    simp [Kmem.sends,hp,hm]
  | true =>
    cases hu : urgent m with
    | false =>
      have hu' : (fIsset m S_BANDURG && fIsset m S_RDBAND) = false := hu
      cases hm : fIsset m S_MSG <;> simp [Kmem.sends,hp,hu']
    | true =>
      have hu' : (fIsset m S_BANDURG && fIsset m S_RDBAND) = true := hu
      refine iff_of_false ?_ fun hc => Bool.noConfusion (hc rfl).2
      simp only [Kmem.sends,hp,hu',if_true]
      cases hm : fIsset m S_MSG <;> split_ifs <;> simp

/-! ### Deliveries -/

theorem sentTo_append (p : ℕ) (k l : List (ℕ × Signal)) : sentTo p (k ++ l) = sentTo p k ++ sentTo p l := by
  simp [sentTo]

theorem sentTo_map (p q : ℕ) (k : List Signal) : sentTo p (k.map (Prod.mk q)) = if q = p then k else [] := by
  induction k with
  | nil => simp [sentTo]
  | cons a k ih =>
    rw [List.map_cons,← List.singleton_append,sentTo_append,ih]
    by_cases hq : q = p <;> simp [sentTo,hq]

/-- What the state holds is held by the nodes, and the flags have all of it. -/
def Inv (s : SigHead) : Prop := (∃ as, s.mem.Held s.sdSiglist as s.reg) ∧ s.Covers

/- One process has one node. -/
theorem sentTo_nodes {mem : Kmem} {list : ℕ} {as : List ℕ} {reg : ℕ → BitVec 16} (h : mem.Held list as reg)
    (e : BitVec 16) (p : ℕ) :
    sentTo p (as.flatMap fun a => (Kmem.sends e (reg (mem.pid a))).map (Prod.mk (mem.pid a))) = Kmem.sends e (reg p) := by
  have hsort : as.Pairwise fun a b => mem.pid a ≠ mem.pid b := by
    rcases h.here with ⟨-,rfl⟩ | hc
    · exact List.Pairwise.nil
    · exact hc.sorted.imp fun {a b} hlt => hlt.ne
  have hoff : ∀ k ⊆ as, (∀ a ∈ k, mem.pid a ≠ p) →
      sentTo p (k.flatMap fun a => (Kmem.sends e (reg (mem.pid a))).map (Prod.mk (mem.pid a))) = [] := by
    intro k hk hp
    induction k with
    | nil => rfl
    | cons a k ih =>
      rw [List.flatMap_cons,sentTo_append,sentTo_map,if_neg (hp a (List.mem_cons_self ..)),List.nil_append]
      exact ih (fun x hx => hk (List.mem_cons_of_mem _ hx)) fun x hx => hp x (List.mem_cons_of_mem _ hx)
  by_cases hp : ∃ a ∈ as, mem.pid a = p
  · obtain ⟨a,ha,rfl⟩ := hp
    obtain ⟨k,l,rfl⟩ := List.append_of_mem ha
    obtain ⟨-,hl,hkl⟩ := List.pairwise_append.mp hsort
    rw [List.flatMap_append,List.flatMap_cons,sentTo_append,sentTo_append,sentTo_map,if_pos rfl,
      hoff k (List.subset_append_left ..) (fun x hx => hkl x hx a (List.mem_cons_self ..)),
      hoff l (fun x hx => List.mem_append_right _ (List.mem_cons_of_mem _ hx)) (fun x hx =>
         ((List.pairwise_cons.mp hl).1 x hx).symm),
      List.nil_append,List.append_nil]
  · have hp' : ∀ a ∈ as, mem.pid a ≠ p := fun a ha hc => hp ⟨a,ha,hc⟩
    rw [hoff as (fun x hx => hx) hp',h.asks.others p hp']
    simp [Kmem.sends,fIsset]

/-- `kill_procs` with a list to go through sends each process its signals. -/
theorem killProcs_sends (h : Inv s) (hl : s.sdSiglist ≠ 0) (e : BitVec 16) :
    ∃ new, s.killProcs e = { s with sent := s.sent ++ new } ∧ ∀ p, sentTo p new = Kmem.sends e (s.reg p) := by
  obtain ⟨⟨as,has⟩,-⟩ := h
  refine ⟨_,?_,sentTo_nodes has e⟩
  rw [killProcs,Kmem.killProcs_held has,if_neg hl]

theorem killProcs_null (h : Inv s) (hl : s.sdSiglist = 0) (e : BitVec 16) :
    s.killProcs e = { s with oops := true } := by
  obtain ⟨⟨as,has⟩,-⟩ := h
  rw [killProcs,Kmem.killProcs_held has,if_pos hl]

/- A step that sends nothing. -/
theorem exact_nil (hs : t.sent = s.sent) (ho : t.oops = false) : Exact s t [] :=
  ⟨ho,[],hs.trans (List.append_nil _).symm,fun _ => rfl⟩

/- The events of a process among those of the flags. -/
theorem covers_and (h : s.Covers) (e : BitVec 16) (p : ℕ) : s.reg p &&& (e &&& s.sigflags) = s.reg p &&& e := by
  rw [BitVec.and_comm e,← BitVec.and_assoc,h p]

theorem fIsset_covers (h : s.Covers) (hf : fIsset s.sigflags e = false) (p : ℕ) : fIsset (s.reg p) e = false := by
  refine Bool.eq_false_iff.mpr fun hp => ?_
  obtain ⟨i,h1,h2⟩ := fIsset_iff.mp hp
  have hi := congrArg (fun b => b.getLsbD i) (h p)
  simp only [BitVec.getLsbD_and,h1,Bool.true_and] at hi
  exact Bool.noConfusion (hf.symm.trans (fIsset_iff.mpr ⟨i,hi,h2⟩))

/- Events are delivered by `kill_procs` with as many of them as the flags have: if the flags have one of them
there has to be a list. -/
theorem deliver_cases (h : Inv s) (he : ∀ p, s.reg p &&& e1 = s.reg p &&& e) :
    (fIsset s.sigflags e = true ∧ s.sdSiglist = 0 ∧
      (if fIsset s.sigflags e then s.killProcs e1 else s) = { s with oops := true }) ∨
    ((fIsset s.sigflags e = true → s.sdSiglist ≠ 0) ∧ ∃ new,
      (if fIsset s.sigflags e then s.killProcs e1 else s) = { s with sent := s.sent ++ new } ∧
        ∀ p, sentTo p new = Kmem.sends e (s.reg p)) := by
  cases hf : fIsset s.sigflags e with
  | false =>
    refine Or.inr ⟨fun hc => Bool.noConfusion hc,[],?_,fun p => ?_⟩
    · rw [List.append_nil]
      rfl
    · rw [Kmem.sends,fIsset_covers h.2 hf p]
      rfl
  | true =>
    rw [if_pos rfl]
    by_cases hl : s.sdSiglist = 0
    · exact Or.inl ⟨rfl,hl,killProcs_null h hl e1⟩
    · obtain ⟨new,hnew,hsent⟩ := killProcs_sends h hl e1
      exact Or.inr ⟨fun _ => hl,new,hnew,fun p => (hsent p).trans (sends_congr (he p))⟩

theorem deliver_exact (h : Inv s) (ho : s.oops = false) (hmsg : e ≠ S_MSG) (he : ∀ p, s.reg p &&& m = s.reg p &&& e) :
    Exact s (if fIsset s.sigflags e then s.killProcs m else s) [e] ↔ s.Safe e := by
  rw [Safe,if_neg hmsg]
  rcases deliver_cases h he with ⟨hf,hl,hs⟩ | ⟨hl,new,hs,hsent⟩
  · rw [hs]
    exact iff_of_false (fun hc => Bool.noConfusion hc.1) fun hc => hc.1 hf hl
  · rw [hs]
    constructor
    · rintro ⟨-,new',hn,hw⟩
      obtain rfl := List.append_cancel_left hn
      refine ⟨hl,fun p => ?_⟩
      rw [← sends_eq_wanted,← hsent p,hw p,List.flatMap_singleton]
    · rintro ⟨-,hp⟩
      refine ⟨ho,new,rfl,fun p => ?_⟩
      rw [hsent p,sends_eq_wanted.mpr (hp p),List.flatMap_singleton]

/- Signals for two events in a row. That one of them is sent as SIGURG shows in what is sent for both. -/
theorem sends_append {e1 e2 : BitVec 16} (h1 : fIsset e1 S_RDBAND = false) (h2 : fIsset e2 S_RDBAND = false) :
    Kmem.sends e1 m ++ Kmem.sends e2 m = wanted e1 m ++ wanted e2 m ↔
      Kmem.sends e1 m = wanted e1 m ∧ Kmem.sends e2 m = wanted e2 m := by
  constructor
  · intro h
    have hno : Signal.sigurg ∉ Kmem.sends e1 m ++ Kmem.sends e2 m := by
      rw [h]
      exact fun hc => (List.mem_append.mp hc).elim (sigurg_wanted h1) (sigurg_wanted h2)
    rcases sends_cases e1 m with ⟨ha,-⟩ | ⟨ha,-⟩
    · exact ⟨ha,List.append_cancel_left (ha ▸ h)⟩
    · exact absurd (List.mem_append_left _ ha) hno
  · rintro ⟨ha,hb⟩
    rw [ha,hb]

theorem strwsrv_exact (h : Inv s) (ho : s.oops = false) (canput anyband : Bool) :
    Exact s (s.lisStrwsrv canput anyband) ((if canput then [S_OUTPUT] else []) ++ if anyband then [S_WRBAND] else []) ↔
      ∀ e ∈ (if canput then [S_OUTPUT] else []) ++ (if anyband then [S_WRBAND] else []), s.Safe e := by
  have hone : ∀ {e : BitVec 16}, e ≠ S_MSG → (Exact s (s.killIf e) [e] ↔ ∀ x ∈ [e], s.Safe x) := by
    intro e he
    rw [List.forall_mem_singleton]
    exact deliver_exact h ho he fun _ => rfl
  cases canput with
  | false =>
    cases anyband with
    | false => exact iff_of_true (exact_nil rfl ho) fun e he => absurd he List.not_mem_nil
    | true => exact hone (by decide)
  | true =>
    cases anyband with
    | false => exact hone (by decide)
    | true =>
      have hr1 : fIsset S_OUTPUT S_RDBAND = false := by decide
      have hr2 : fIsset S_WRBAND S_RDBAND = false := by decide
      have hm1 : S_OUTPUT ≠ S_MSG := by decide
      have hm2 : S_WRBAND ≠ S_MSG := by decide
      simp only [if_true,List.singleton_append,List.forall_mem_cons,Safe,if_neg hm1,if_neg hm2]
      have hdef : s.lisStrwsrv true true = (s.killIf S_OUTPUT).killIf S_WRBAND := rfl
      rcases deliver_cases (e := S_OUTPUT) h (fun _ => rfl) with ⟨hf,hl,hs⟩ | ⟨hl1,new1,hs1,hsent1⟩
      · refine iff_of_false (fun hc => ?_) fun hc => hc.1.1 hf hl
        have hoops : ((s.killIf S_OUTPUT).killIf S_WRBAND).oops = true := by
          rw [show s.killIf S_OUTPUT = _ from hs,killIf]
          split_ifs
          · rw [killProcs]
            split <;> rfl
          · rfl
        exact Bool.noConfusion (hc.1.symm.trans hoops)
      · have h1 : Inv { s with sent := s.sent ++ new1 } := h
        rw [hdef,show s.killIf S_OUTPUT = _ from hs1]
        rcases deliver_cases (e := S_WRBAND) h1 (fun _ => rfl) with ⟨hf,hl,hs⟩ | ⟨hl2,new2,hs2,hsent2⟩
        · rw [show killIf _ S_WRBAND = _ from hs]
          exact iff_of_false (fun hc => Bool.noConfusion hc.1) fun hc => hc.2.1.1 hf hl
        · rw [show killIf _ S_WRBAND = _ from hs2]
          constructor
          · rintro ⟨-,new,hn,hw⟩
            obtain rfl := List.append_cancel_left ((List.append_assoc ..).symm.trans hn)
            have hboth := fun p => (sends_append hr1 hr2).mp (by
              rw [← hsent1 p,← show sentTo p new2 = _ from hsent2 p,← sentTo_append,hw p,List.flatMap_cons,
                List.flatMap_singleton])
            refine ⟨⟨hl1,fun p => sends_eq_wanted.mp (hboth p).1⟩,⟨hl2,fun p => sends_eq_wanted.mp (hboth p).2⟩,?_⟩
            exact fun e he => absurd he List.not_mem_nil
          · rintro ⟨⟨-,hp1⟩,⟨-,hp2⟩,-⟩
            refine ⟨ho,new1 ++ new2,List.append_assoc ..,fun p => ?_⟩
            rw [sentTo_append,hsent1 p,show sentTo p new2 = _ from hsent2 p,sends_eq_wanted.mpr (hp1 p),
              sends_eq_wanted.mpr (hp2 p),List.flatMap_cons,List.flatMap_singleton]

theorem signalusr_exact (h : Inv s) (ho : s.oops = false) (sig : ℕ) :
    Exact s (s.signalusr sig) (sigEvents sig) ↔ ∀ e ∈ sigEvents sig, s.Safe e := by
  rw [signalusr,sigEvents]
  split_ifs with hs ht
  · rw [List.forall_mem_singleton,Safe,if_pos rfl]
    by_cases hl : s.sdSiglist = 0
    · rw [killProcs_null h hl]
      exact iff_of_false (fun hc => Bool.noConfusion hc.1) fun hc => hc.1 hl
    · obtain ⟨new,hnew,hsent⟩ := killProcs_sends h hl (BitVec.ofNat 16 SIGPOLL)
      rw [hnew]
      constructor
      · rintro ⟨-,new',hn,hw⟩
        obtain rfl := List.append_cancel_left hn
        refine ⟨hl,fun p => ?_⟩
        rw [← sends_sigpoll,← hsent p,hw p,List.flatMap_singleton]
      · rintro ⟨-,hp⟩
        refine ⟨ho,new,rfl,fun p => ?_⟩
        rw [hsent p,sends_sigpoll.mpr (hp p),List.flatMap_singleton]
  · exact iff_of_true (exact_nil rfl ho) fun e he => absurd he List.not_mem_nil
  · exact iff_of_true (exact_nil rfl ho) fun e he => absurd he List.not_mem_nil

/-! ### Steps -/

theorem checkMSig_exact (h : Inv s) (ho : s.oops = false) (alloc : Msg → Bool) :
    Exact s (s.lisCheckMSig alloc) (msigEvents s.hd) ↔
      (∀ e ∈ msigEvents s.hd, s.Safe e) ∧ (s.hd.sdRq.core.qFlag.shut = true → mSigAt s.hd = none) := by
  rw [lisCheckMSig,msigEvents]
  cases hm : mSigAt s.hd with
  | none => exact iff_of_true (exact_nil rfl ho) ⟨fun e he => absurd he List.not_mem_nil,fun _ => rfl⟩
  | some hdmp =>
    cases hs : s.hd.sdRq.core.qFlag.shut with
    | true => exact iff_of_false (fun hc => Bool.noConfusion hc.1) fun hc => Option.some_ne_none _ (hc.2 rfl)
    | false =>
      have h1 : Inv { s with hd := s.hd.lisGetq alloc } := h
      have hsig := signalusr_exact h1 ho (flushByte hdmp).val
      exact hsig.trans (and_iff_left fun hc => Bool.noConfusion hc).symm

theorem updatequeue_shut (alloc fromInsq bandPtrs : Bool) (c : Core Msg) (mp : Msg) (k n : Option Msg) :
    (updatequeue Msg.info alloc fromInsq bandPtrs c mp k n).qFlag.shut = c.qFlag.shut := by
  have hen : ∀ c : Core Msg, c.lisQenable.qFlag.shut = c.qFlag.shut := by
    intro c
    unfold Core.lisQenable qenableFlags
    dsimp only
    split_ifs <;> rfl
  have hcount : (countIn Msg.info alloc bandPtrs c mp k n).qFlag.shut = c.qFlag.shut := by
    unfold countIn
    by_cases hin : mp.info.inQCount = true
    · rw [if_pos hin]
      dsimp only
      split_ifs <;> rfl
    · rw [if_neg hin]
      cases findQband Msg.info alloc c mp.info.bBand <;> rfl
  unfold updatequeue schedule
  split_ifs
  · exact hcount
  · exact (hen _).trans hcount
  · exact hcount

theorem dataEvents_ne (mp : Msg) : dataEvents mp ≠ S_MSG := by
  unfold dataEvents
  split_ifs <;> decide

theorem process_exact (so : Msg → Stroptions) (h : Inv s) (ho : s.oops = false) (alloc : Msg → Bool) (mp : Msg) :
    Exact s (s.lisProcessRput so alloc mp) (s.arrives so (.process alloc mp)) ↔
      ∀ e ∈ s.arrives so (.process alloc mp), s.Safe e := by
  have h1 : Inv { s with hd := s.hd.processMsg so alloc mp } := h
  have hnil : Exact s { s with hd := s.hd.processMsg so alloc mp } [] ↔ ∀ e ∈ ([] : List (BitVec 16)), s.Safe e :=
    iff_of_true (exact_nil rfl ho) fun e he => absurd he List.not_mem_nil
  have hone : ∀ {e : BitVec 16}, e ≠ S_MSG →
      (Exact s (killIf { s with hd := s.hd.processMsg so alloc mp } e) [e] ↔ ∀ x ∈ [e], s.Safe x) := by
    intro e he
    rw [List.forall_mem_singleton]
    exact deliver_exact h1 ho he fun _ => rfl
  simp only [lisProcessRput,arrives]
  split_ifs with hc hsig hq hf hev herr hhup hpc
  · exact hnil
  · have hsig' := checkMSig_exact h1 ho alloc
    refine hsig'.trans (and_iff_left fun hshut => ?_)
    -- the message was put on a queue that is not shut
    have hopen : s.hd.sdRq.core.qFlag.shut = false := (Bool.or_eq_false_iff.mp (Bool.eq_false_iff.mpr hc)).2
    have hq : queued mp.dbType = true := by rw [hsig]; decide
    have hput : (s.hd.processMsg so alloc mp).sdRq.core.qFlag.shut = s.hd.sdRq.core.qFlag.shut := by
      have hc' : ¬(s.hd.sdFlag.strclose || s.hd.sdRq.core.qFlag.shut) = true := hc
      rw [Stdata.processMsg,if_neg hc',if_pos hq]
      simp only [ListQueue.lisPutq,hopen,Bool.false_eq_true,if_false,updatequeue_shut]
    exact Bool.noConfusion ((hput.trans hopen).symm.trans hshut)
  · have hfs : fIsset s.sigflags (dataEvents mp) = true := by
      rw [fIsset,BitVec.and_comm]
      exact bne_iff_ne.mpr hev
    have hd := deliver_exact (m := dataEvents mp &&& s.sigflags) h1 ho (dataEvents_ne mp) (covers_and h.2 _)
    rw [List.forall_mem_singleton]
    rwa [if_pos (show fIsset (sigflags { s with hd := s.hd.processMsg so alloc mp }) _ = true from hfs)] at hd
  · have hfs : fIsset s.sigflags (dataEvents mp) = false := by
      rw [fIsset,BitVec.and_comm]
      exact bne_eq_false_iff_eq.mpr (not_not.mp hev)
    have hd := deliver_exact (m := dataEvents mp &&& s.sigflags) h1 ho (dataEvents_ne mp) (covers_and h.2 _)
    rw [List.forall_mem_singleton]
    rwa [if_neg (show ¬ fIsset (sigflags { s with hd := s.hd.processMsg so alloc mp }) _ = true from
      Bool.eq_false_iff.mp hfs)] at hd
  · exact hnil
  · exact hone (by decide)
  · exact hone (by decide)
  · exact signalusr_exact h1 ho _
  · exact hnil

theorem killIf_error (h : Inv s) (ho : s.oops = false) (hd : Stdata) :
    Exact s (killIf { s with hd := hd } S_ERROR) [S_ERROR] ↔ s.Safe S_ERROR :=
  deliver_exact (s := { s with hd := hd }) h ho (by decide) fun _ => rfl

/-! ### The invariant -/

/- A state that only the list of processes distinguishes from another one. -/
structure Quiet (s t : SigHead) : Prop where
  inv : Inv t
  sent : t.sent = s.sent
  oops : t.oops = s.oops

theorem reg_zero {mem : Kmem} {as : List ℕ} {reg : ℕ → BitVec 16} (h : mem.Held 0 as reg) (p : ℕ) : reg p = 0 := by
  rcases h.here with ⟨-,rfl⟩ | hc
  · exact h.asks.others p fun a ha => absurd ha List.not_mem_nil
  · exact absurd (hc.below 0 (List.mem_cons_self ..)).1 (Nat.lt_irrefl 0)

theorem covers_update {f m : BitVec 16} {pid : ℕ} (hf : ∀ p, s.reg p &&& f = s.reg p)
    (hm : m &&& f = m) (p : ℕ) : Function.update s.reg pid m p &&& f = Function.update s.reg pid m p := by
  by_cases hp : p = pid
  · rw [hp,Function.update_self,hm]
  · rw [Function.update_of_ne hp,hf p]

theorem or_covers {r f a : BitVec 16} (h : r &&& f = r) : (r ||| a) &&& (f ||| a) = r ||| a := by
  refine BitVec.eq_of_getLsbD_eq fun i _ => ?_
  have hi := congrArg (fun b => b.getLsbD i) h
  simp only [BitVec.getLsbD_and,BitVec.getLsbD_or] at hi ⊢
  cases hr : r.getLsbD i <;> cases hf : f.getLsbD i <;> cases ha : a.getLsbD i <;> simp_all

theorem and_covers {r f a : BitVec 16} (h : r &&& f = r) : r &&& a &&& f = r &&& a := by
  rw [BitVec.and_assoc,BitVec.and_comm a,← BitVec.and_assoc,h]

theorem covers_or {r f a : BitVec 16} (h : r &&& f = r) : r &&& (f ||| a) = r := by
  refine BitVec.eq_of_getLsbD_eq fun i _ => ?_
  have hi := congrArg (fun b => b.getLsbD i) h
  simp only [BitVec.getLsbD_and,BitVec.getLsbD_or] at hi ⊢
  cases hr : r.getLsbD i <;> cases hf : f.getLsbD i <;> simp_all

theorem flags_or (f : BitVec 32) (arg : BitVec 64) :
    (f ||| arg.setWidth 32).setWidth 16 = f.setWidth 16 ||| arg.setWidth 16 := by
  rw [BitVec.setWidth_or,BitVec.setWidth_setWidth_of_le _ (by decide)]

theorem closeDel_quiet (h : Inv s) (pid : ℕ) : Quiet s (s.closeDel pid) := by
  obtain ⟨⟨as,has⟩,hcov⟩ := h
  obtain ⟨b,mem,as',he,hheld⟩ := Kmem.lisDelFromElist_held has pid S_ALL
  rw [closeDel,he]
  exact ⟨⟨⟨as',hheld⟩,covers_update hcov (and_covers (hcov pid))⟩,rfl,rfl⟩

theorem freeElist_quiet (h : Inv s) : Quiet s s.freeElist := by
  obtain ⟨⟨as,has⟩,-⟩ := h
  obtain ⟨mem,he,hheld⟩ := Kmem.lisFreeElist_held has
  rw [freeElist,he]
  exact ⟨⟨⟨[],hheld⟩,fun p => BitVec.zero_and⟩,rfl,rfl⟩

/-- I_SETSIG keeps the invariant, and signals nobody. -/
theorem setsig_quiet (h : Inv s) (pid : ℕ) (arg : BitVec 64) (ok okHead : Bool) :
    Quiet s (s.setsig pid arg ok okHead) := by
  obtain ⟨⟨as,has⟩,hcov⟩ := h
  rw [setsig]
  split_ifs with ha
  · obtain ⟨found,mem,as',he,hheld⟩ := Kmem.lisDelFromElist_held has pid S_ALL
    rw [he]
    refine ⟨⟨⟨as',hheld⟩,?_⟩,rfl,rfl⟩
    by_cases hl : s.sdSiglist = 0
    · intro p
      have hz : Function.update s.reg pid (s.reg pid &&& ~~~S_ALL) p = 0 := reg_zero (hl ▸ hheld) p
      simp [hz]
    · have hlf : (found && s.sdSiglist == 0) = false := by simp [hl]
      simp only [Covers,sigflags,hlf,Bool.false_eq_true,if_false]
      exact covers_update hcov (and_covers (hcov pid))
  · obtain ⟨b,list,mem,as',he,hheld⟩ := Kmem.lisAddToElist_held has pid (arg.setWidth 16) ok okHead
    rw [he]
    cases b with
    | false => exact ⟨⟨⟨as',hheld⟩,hcov⟩,rfl,rfl⟩
    | true =>
      refine ⟨⟨⟨as',hheld⟩,?_⟩,rfl,rfl⟩
      simp only [Covers,sigflags,flags_or]
      exact covers_update (fun p => covers_or (hcov p)) (or_covers (hcov pid))

theorem killProcs_inv (h : Inv s) (e : BitVec 16) : Inv (s.killProcs e) := by
  rw [killProcs]
  split <;> exact h

theorem killIf_inv (h : Inv s) (e : BitVec 16) : Inv (s.killIf e) := by
  rw [killIf]
  split_ifs
  · exact killProcs_inv h e
  · exact h

theorem signalusr_inv (h : Inv s) (sig : ℕ) : Inv (s.signalusr sig) := by
  rw [signalusr]
  split_ifs
  · exact killProcs_inv h _
  · exact h
  · exact h

theorem checkMSig_inv (h : Inv s) (alloc : Msg → Bool) : Inv (s.lisCheckMSig alloc) := by
  rw [lisCheckMSig]
  cases mSigAt s.hd with
  | none => exact h
  | some hdmp =>
    dsimp only
    split_ifs
    · exact h
    · exact signalusr_inv (s := { s with hd := s.hd.lisGetq alloc }) h _

theorem process_inv (so : Msg → Stroptions) (h : Inv s) (alloc : Msg → Bool) (mp : Msg) :
    Inv (s.lisProcessRput so alloc mp) := by
  have h1 : Inv { s with hd := s.hd.processMsg so alloc mp } := h
  simp only [lisProcessRput]
  split_ifs
  · exact h1
  · exact checkMSig_inv h1 alloc
  · exact killProcs_inv h1 _
  all_goals first | exact h1 | exact killIf_inv h1 _ | exact signalusr_inv h1 _

theorem strwsrv_inv (h : Inv s) (canput anyband : Bool) : Inv (s.lisStrwsrv canput anyband) := by
  have h1 : Inv (if canput then s.killIf S_OUTPUT else s) := by
    split_ifs
    · exact killIf_inv h _
    · exact h
  rw [lisStrwsrv]
  split_ifs at h1 ⊢
  all_goals first | exact h1 | exact killIf_inv h1 _

theorem step_cases {so : Msg → Stroptions} {x : SigAct} (hx : step so s x = some t) :
    s.oops = false ∧ s.act so x = t := by
  rw [step] at hx
  split_ifs at hx with ho
  exact ⟨Bool.eq_false_iff.mpr ho,Option.some.inj hx⟩

theorem step_inv (so : Msg → Stroptions) (h : Inv s) {x : SigAct} (hx : step so s x = some t) : Inv t := by
  obtain ⟨-,rfl⟩ := step_cases hx
  cases x with
  | setsig pid arg ok okHead => exact (setsig_quiet h pid arg ok okHead).inv
  | closeDel pid => exact (closeDel_quiet h pid).inv
  | freeElist => exact (freeElist_quiet h).inv
  | process alloc mp => exact process_inv so h alloc mp
  | getq alloc => exact h
  | checkMSig alloc => exact checkMSig_inv h alloc
  | strwsrv canput anyband => exact strwsrv_inv h canput anyband
  | streamError rderr wrerr => 
    exact killIf_inv (s := { s with hd := { s.hd with sdErr := lisStreamError s.hd.sdErr rderr wrerr } }) h S_ERROR
  | flags qFlag sdFlag stristty => exact h

/-- From a state that a run can reach, a step sends exactly the signals that were asked for if and only if
the guard holds. -/
theorem step_exact (so : Msg → Stroptions) (h : Inv s) {x : SigAct} (hx : step so s x = some t) :
    Exact s t (s.arrives so x) ↔ Guard so s x := by
  obtain ⟨ho,rfl⟩ := step_cases hx
  have hquiet (hq : Quiet s (s.act so x)) (he : s.arrives so x = []) (hx : ∀ alloc, x ≠ .checkMSig alloc) :
      Exact s (s.act so x) (s.arrives so x) ↔ Guard so s x := by
    rw [Guard,he]
    exact iff_of_true (exact_nil hq.sent (hq.oops.trans ho)) ⟨fun e he => absurd he List.not_mem_nil,fun alloc hc =>
      absurd hc (hx alloc)⟩
  have hguard (k : ∀ alloc, x ≠ .checkMSig alloc) : Guard so s x ↔ ∀ e ∈ s.arrives so x, s.Safe e :=
    and_iff_left fun alloc hc => absurd hc (k alloc)
  cases x with
  | setsig pid arg ok okHead => exact hquiet (setsig_quiet h pid arg ok okHead) rfl fun _ hc => SigAct.noConfusion hc
  | closeDel pid => exact hquiet (closeDel_quiet h pid) rfl fun _ hc => SigAct.noConfusion hc
  | freeElist => exact hquiet (freeElist_quiet h) rfl fun _ hc => SigAct.noConfusion hc
  | process alloc mp =>
    exact (process_exact so h ho alloc mp).trans (hguard fun _ hc => SigAct.noConfusion hc).symm
  | getq alloc => exact hquiet ⟨h,rfl,rfl⟩ rfl fun _ hc => SigAct.noConfusion hc
  | checkMSig alloc =>
    refine (checkMSig_exact h ho alloc).trans (and_congr_right fun _ => ?_)
    exact ⟨fun hs _ _ => hs,fun hs => hs alloc rfl⟩
  | strwsrv canput anyband =>
    exact (strwsrv_exact h ho canput anyband).trans (hguard fun _ hc => SigAct.noConfusion hc).symm
  | streamError rderr wrerr =>
    refine (killIf_error h ho _).trans ?_
    rw [hguard fun _ hc => SigAct.noConfusion hc]
    exact List.forall_mem_singleton.symm
  | flags qFlag sdFlag stristty => exact hquiet ⟨h,rfl,rfl⟩ rfl fun _ hc => SigAct.noConfusion hc

theorem init_inv (hd : Stdata) : Inv (init hd) := by
  refine ⟨⟨[],rfl,Nat.zero_lt_one,Or.inl ⟨rfl,rfl⟩,fun a ha => absurd ha List.not_mem_nil,fun _ _ => rfl⟩,fun p => ?_⟩
  exact BitVec.zero_and

/-- After every run sd_sigflags has all events that were asked for, and a step sends exactly the signals that
were asked for if and only if the guard holds. -/
theorem signals_exact {so : Msg → Stroptions} {hd : Stdata} {xs : List SigAct}
    (h : exec (step so) (init hd) xs = some s) :
    s.Covers ∧ ∀ x t, step so s x = some t → (Exact s t (s.arrives so x) ↔ Guard so s x) := by
  have hinv : Inv s := exec_invariant (fun _ _ _ hi hs => step_inv so hi hs) (init_inv hd) h
  exact ⟨hinv.2,fun x t hx => step_exact so hinv hx⟩

def quietHead : Stdata :=
  ⟨ListQueue.empty {} 512 128 true,ListQueue.empty {} 512 128 true,[],{},⟨0,0,false,false⟩,[],[]⟩

def noOptions : Msg → Stroptions := fun _ => ⟨none,none,none⟩

/- A message with a signal, of high priority. -/
def pcsig (sig : Uchar) : Msg := ⟨⟨0,false,⟨M_PCSIG,1,[sig]⟩,[]⟩,1⟩

/- Two processes ask for events. -/
theorem signals_exact_two : ∃ s, exec (step noOptions) (init quietHead)
      [.setsig 7 0x280 true true,.setsig 5 0x9 true true] = some s ∧
    s.Covers ∧ ∀ x t, step noOptions s x = some t → (Exact s t (s.arrives noOptions x) ↔ Guard noOptions s x) :=
  Exists.imp (fun _ hs => ⟨hs,signals_exact hs⟩) (Option.isSome_iff_exists.mp rfl)

/-- Nobody has asked for signals, and an M_PCSIG with SIGPOLL makes the head follow a NULL pointer. -/
theorem sigpoll_astray : ¬ ∀ (so : Msg → Stroptions) (hd : Stdata) (xs : List SigAct) (s t : SigHead) (x : SigAct),
    exec (step so) (init hd) xs = some s → step so s x = some t → Exact s t (s.arrives so x) := by
  intro h
  have hx := h noOptions quietHead [] (init quietHead) _ (.process (fun _ => true) (pcsig 29)) rfl rfl
  have ho : ((init quietHead).act noOptions (.process (fun _ => true) (pcsig 29))).oops = true := by rfl
  exact Bool.noConfusion (ho.symm.trans hx.1)

/- It asked for S_INPUT and is sent SIGPOLL for S_MSG; it asked for SIGURG and is sent that for S_HIPRI. -/
example : (((init quietHead).setsig 7 0x1 true true).act noOptions (.process (fun _ => true) (pcsig 29))).sent =
    [(7,.sigpoll)] := by decide
example : (((init quietHead).setsig 7 0x282 true true).act noOptions
    (.process (fun _ => true) ⟨⟨0,false,⟨M_PCPROTO,1,[]⟩,[]⟩,1⟩)).sent = [(7,.sigurg),(7,.sigpoll)] := by decide

end SigHead

end CSLiS.Head
