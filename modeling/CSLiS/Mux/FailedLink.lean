import CSLiS.Mux.Ilink

/-!
# What a link that fails leaves behind
-/

namespace CSLiS.Mux.Streams

variable {s t : Streams} {hd muxed h x : ℕ} {cmd : Cmd} {f : Stdata → Stdata} {old : Bool} {await ioctl sync err : ℤ}

/- The stream at a place of the list of a control stream. -/
def lower (s : Streams) (hd : ℕ) : ℕ → Option ℕ
  | 0 => (s.heads hd).mxHd
  | k + 1 => (s.lower hd k).bind fun h => (s.heads h).mxNext

/-- What a call that failed has to leave as it was. -/
structure NoTrace (s t : Streams) (hd muxed : ℕ) (err : ℤ) : Prop where
  err : err < 0
  qinfo : (t.heads muxed).qinfo = (s.heads muxed).qinfo
  qnoenb : (t.heads muxed).qnoenb = (s.heads muxed).qnoenb
  opencnt : (t.heads muxed).sdOpencnt = (s.heads muxed).sdOpencnt
  linkcnt : (t.heads muxed).sdLinkcnt = (s.heads muxed).sdLinkcnt
  refcnt : (t.heads muxed).sdRefcnt = (s.heads muxed).sdRefcnt
  stplex : (t.heads muxed).stplex = (s.heads muxed).stplex
  ctlRefcnt : (t.heads hd).sdRefcnt = (s.heads hd).sdRefcnt
  lowers : ∀ k, t.lower hd k = s.lower hd k

theorem upd_heads (s : Streams) (h : ℕ) (f : Stdata → Stdata) (x : ℕ) :
    (s.upd h f).heads x = if x = h then f (s.heads x) else s.heads x := by
  simp only [upd,Function.update_apply]
  split_ifs with hx
  · rw [hx]
  · rfl

/- The fields that linking changes before it can fail. -/
structure Begun (s t : Streams) (hd muxed : ℕ) : Prop where
  qinfo : ∀ x, (t.heads x).qinfo = (s.heads x).qinfo
  strtab : ∀ x, (t.heads x).sdStrtab = (s.heads x).sdStrtab
  opencnt : ∀ x, (t.heads x).sdOpencnt = (s.heads x).sdOpencnt
  linkcnt : ∀ x, (t.heads x).sdLinkcnt = (s.heads x).sdLinkcnt
  refcnt : ∀ x, (t.heads x).sdRefcnt = (s.heads x).sdRefcnt + if x = hd then 1 else 0
  mxNext : ∀ x, (t.heads x).mxNext = if x = muxed then (s.heads hd).mxHd else (s.heads x).mxNext

theorem begun (hl : (s.headGet hd).strLinkMux hd muxed cmd = some (x,t)) :
    Begun s (t.upd muxed fun m => { m with qnoenb := false }) hd muxed := by
  simp only [strLinkMux] at hl
  split at hl
  · cases hl
  next id hid =>
    obtain ⟨rfl,rfl⟩ := Prod.mk.inj (Option.some.inj hl)
    constructor <;> intro y <;> simp only [headGet,upd_heads] <;> split_ifs <;> simp_all

/- What the clean-up at `error_rtn` makes of them. -/
structure Ended (s t : Streams) (hd muxed : ℕ) : Prop where
  qinfo : (t.heads muxed).qinfo = (s.heads hd).sdStrtab.st
  qnoenb : (t.heads muxed).qnoenb = true
  stplex : (t.heads muxed).stplex = false
  opencnt : ∀ x, (t.heads x).sdOpencnt = (s.heads x).sdOpencnt
  linkcnt : ∀ x, (t.heads x).sdLinkcnt = (s.heads x).sdLinkcnt
  refcnt : ∀ x, (t.heads x).sdRefcnt = (s.heads x).sdRefcnt - (if x = muxed then 1 else 0) - if x = hd then 1 else 0
  mxHd : (t.heads hd).mxHd = (s.heads muxed).mxNext
  mxNext : ∀ x, (t.heads x).mxNext = if x = muxed then none else (s.heads x).mxNext

theorem ended (s : Streams) (hd muxed : ℕ) : Ended s (s.errorRtn hd muxed) hd muxed := by
  constructor
  case qinfo | qnoenb | stplex | mxHd =>
    simp only [errorRtn,headPut,upd_heads]
    split_ifs <;> simp_all
  all_goals
    intro y
    simp only [errorRtn,headPut,upd_heads]
    split_ifs <;> simp_all

theorem lowers_iff (hhd : (t.heads hd).mxHd = (s.heads hd).mxHd)
    (hn : ∀ x, (t.heads x).mxNext = if x = muxed then none else (s.heads x).mxNext) :
    (∀ k, t.lower hd k = s.lower hd k) ↔ (s.heads muxed).mxNext = none ∨ ∀ k, s.lower hd k ≠ some muxed := by
  constructor
  · intro h
    by_contra hc
    obtain ⟨hne,hk⟩ := not_or.mp hc
    obtain ⟨k,hk⟩ := not_forall_not.mp hk
    have hsucc := h (k + 1)
    simp only [lower,h k,hk,Option.bind_some,hn,if_pos] at hsucc
    exact hne hsucc.symm
  · intro h k
    induction k with
    | zero => exact hhd
    | succ k ih =>
      simp only [lower,ih]
      cases hx : s.lower hd k with
      | none => rfl
      | some x =>
        rw [Option.bind_some,Option.bind_some,hn]
        split_ifs with hxm
        · subst hxm
          rcases h with h | h
          · exact h.symm
          · exact absurd hx (h k)
        · rfl

/-- When the clean-up restores what was there: the driver has refused the link (with a kernel before 6.8), the
queues of the stream head had the procedures of the control stream's driver and could not be enabled, and the
stream is not one of the control stream's that has another one behind it. -/
def Restored (s : Streams) (old : Bool) (hd muxed : ℕ) (await ioctl : ℤ) : Prop :=
  0 ≤ await ∧ ioctl < 0 ∧ old = true ∧ (s.heads muxed).qinfo = (s.heads hd).sdStrtab.st ∧
    (s.heads muxed).qnoenb = true ∧ (s.heads muxed).stplex = false ∧
    ((s.heads muxed).mxNext = none ∨ ∀ k, s.lower hd k ≠ some muxed)

theorem strLinkMux_some (hm : s.muxid < 2 ^ 31) (hl : s.stdatas.length < 2 ^ 31 - 1) (hd muxed : ℕ) (cmd : Cmd) :
    ∃ id t, (s.headGet hd).strLinkMux hd muxed cmd = some (id,t) := by
  obtain ⟨id,hid⟩ := newMuxid_isSome (s := (s.headGet hd).upd muxed fun m => { m with mxCmd := cmd }) hm hl
  exact ⟨id,_,by simp only [strLinkMux,hid]; rfl⟩

/- The wait for the queue fails: the lower stream is put but was not got. -/
theorem await_failed (hb : Begun s t hd muxed) : ¬NoTrace s (t.errorRtn hd muxed) hd muxed err := by
  intro hn
  have hr := hn.refcnt
  rw [(ended t hd muxed).refcnt,hb.refcnt,if_pos rfl] at hr
  omega

/- The counters of the lower stream are bumped, and its queues have the lower procedures. -/
def tried (t : Streams) (old : Bool) (hd muxed : ℕ) : Streams :=
  ((t.upd muxed fun m => { m with qinfo := (t.heads hd).sdStrtab.stMux, stplex := true }).headGet muxed).upd muxed
    fun m => { m with sdOpencnt := m.sdOpencnt + if old then 1 else 0, sdLinkcnt := m.sdLinkcnt + 1 }

/- Setting the queue sync option fails: the stream stays counted as linked. -/
theorem sync_failed (hb : Begun s t hd muxed) : ¬NoTrace s ((t.tried old hd muxed).errorRtn hd muxed) hd muxed err := by
  intro hn
  have hc := hn.linkcnt
  rw [(ended _ hd muxed).linkcnt] at hc
  simp only [tried,headGet,upd_heads,if_pos,hb.linkcnt] at hc
  omega

/- The counters when the driver has refused the link and they were taken back. -/
def refused (t : Streams) (old : Bool) (hd muxed : ℕ) : Streams :=
  (t.tried old hd muxed).upd muxed fun m => { m with sdOpencnt := m.sdOpencnt - 1, sdLinkcnt := m.sdLinkcnt - 1 }

structure Refused (s t : Streams) (old : Bool) (hd muxed : ℕ) : Prop where
  strtab : ∀ x, (t.heads x).sdStrtab = (s.heads x).sdStrtab
  opencnt : (t.heads muxed).sdOpencnt = (s.heads muxed).sdOpencnt + (if old then 1 else 0) - 1
  linkcnt : (t.heads muxed).sdLinkcnt = (s.heads muxed).sdLinkcnt
  refcnt : ∀ x, (t.heads x).sdRefcnt = (s.heads x).sdRefcnt + (if x = hd then 1 else 0) + if x = muxed then 1 else 0
  mxNext : ∀ x, (t.heads x).mxNext = if x = muxed then (s.heads hd).mxHd else (s.heads x).mxNext

theorem refused_spec (hb : Begun s t hd muxed) : Refused s (t.refused old hd muxed) old hd muxed := by
  obtain ⟨-,h2,h3,h4,h5,h6⟩ := hb
  constructor
  case opencnt => simp only [refused,tried,headGet,upd_heads,if_pos,h3]
  case linkcnt =>
    simp only [refused,tried,headGet,upd_heads,if_pos,h4]
    omega
  case strtab | refcnt | mxNext =>
    intro x
    simp only [refused,tried,headGet,upd_heads]
    split_ifs <;> simp_all

/- The driver refuses the link. -/
theorem ioctl_failed_iff (hb : Begun s t hd muxed) (ha : 0 ≤ await) (hi : ioctl < 0) :
    NoTrace s ((t.refused old hd muxed).errorRtn hd muxed) hd muxed ioctl ↔ Restored s old hd muxed await ioctl := by
  have hr : Refused s (t.refused old hd muxed) old hd muxed := refused_spec hb
  obtain ⟨u1,u2,u3,u4,u5⟩ := hr
  obtain ⟨e1,e2,e3,e4,e5,e6,e7,e8⟩ := ended (t.refused old hd muxed) hd muxed
  have hlist : (∀ k, ((t.refused old hd muxed).errorRtn hd muxed).lower hd k = s.lower hd k) ↔
      (s.heads muxed).mxNext = none ∨ ∀ k, s.lower hd k ≠ some muxed :=
    lowers_iff (by rw [e7,u5,if_pos rfl]) (by intro x; rw [e8,u5]; split_ifs <;> rfl)
  constructor
  · rintro ⟨-,n1,n2,n3,-,-,n6,-,n8⟩
    refine ⟨ha,hi,?_,?_,?_,?_,hlist.mp n8⟩
    · by_contra hold
      rw [e4,u2,if_neg hold] at n3
      omega
    · rw [← n1,e1,u1]
    · rw [← n2,e2]
    · rw [← n6,e3]
  · rintro ⟨-,-,rfl,r1,r2,r3,r4⟩
    refine ⟨hi,?_,?_,?_,?_,?_,?_,?_,hlist.mpr r4⟩
    · rw [e1,u1,r1]
    · rw [e2,r2]
    · rw [e4,u2,if_pos rfl]
      omega
    · rw [e5,u3]
    · rw [e6,u4]
      omega
    · rw [e3,r3]
    · rw [e6,u4]
      omega

/-- A link that fails returns the error, and leaves no trace in this case only. -/
theorem failed_link_iff (hm : s.muxid < 2 ^ 31) (hl : s.stdatas.length < 2 ^ 31 - 1)
    (hf : await < 0 ∨ ioctl < 0 ∨ sync < 0) : ∃ err t, s.lisILink old hd muxed cmd await ioctl sync = some (err,t) ∧
      err < 0 ∧ (NoTrace s t hd muxed err ↔ Restored s old hd muxed await ioctl) := by
  obtain ⟨id,t,ht⟩ := strLinkMux_some hm hl hd muxed cmd
  have hb := begun ht
  by_cases ha : await < 0
  · refine ⟨await,_,by simp only [lisILink,ht,if_pos ha]; rfl,ha,?_⟩
    exact iff_of_false (await_failed hb) fun hr => absurd hr.1 (not_le.mpr ha)
  · by_cases hi : ioctl < 0
    · refine ⟨ioctl,_,by simp only [lisILink,ht,if_neg ha,if_pos hi]; rfl,hi,?_⟩
      exact ioctl_failed_iff hb (not_lt.mp ha) hi
    · have hs : sync < 0 := (hf.resolve_left ha).resolve_left hi
      refine ⟨sync,_,by simp only [lisILink,ht,if_neg ha,if_neg hi,if_pos hs]; rfl,hs,?_⟩
      exact iff_of_false (sync_failed hb) fun hr => absurd hr.2.1 hi

/- A control stream 0 and a stream 1 whose head has the procedures `p`. -/
def twoStreams (p : ℕ × ℕ) : Streams :=
  ⟨fun x => ⟨if x = 0 then (1,2) else p,true,false,1,0,1,none,none,0,.link,⟨(5,6),(7,8)⟩⟩,[0,1],0⟩

theorem failed_link_iff_refused : ∃ err t, (twoStreams (5,6)).lisILink true 0 1 .link 0 (-1) 0 = some (err,t) ∧
    err < 0 ∧ (NoTrace (twoStreams (5,6)) t 0 1 err ↔ Restored (twoStreams (5,6)) true 0 1 0 (-1)) :=
  failed_link_iff (by decide) (by decide) (Or.inr (Or.inl (by decide)))

/- The driver refuses the link of a stream whose head has the procedures 1 and 2: it is left with 5 and 6. -/
theorem procedures_not_restored : ¬ ∀ s old hd muxed cmd await ioctl sync err t,
    (await < 0 ∨ ioctl < 0 ∨ sync < 0) → lisILink s old hd muxed cmd await ioctl sync = some (err,t) →
      NoTrace s t hd muxed err := by
  intro h
  have hq := (h (twoStreams (1,2)) true 0 1 .link 0 (-22) 0 _ _ (Or.inr (Or.inl (by decide))) rfl).qinfo
  exact absurd hq (by decide)

end CSLiS.Mux.Streams
