import CSLiS.Lib.Exec
import CSLiS.Mux.UnlinkAll

/-!
# The books of the multiplexors over all calls

Every run of opens, closes, links and unlinks keeps the lists and the counters in order, as long as no call links a
stream that is a lower one or the control stream itself, or is let down in the middle.
-/

namespace CSLiS.Mux

open Lib Lib.Exec Lib.Forest Muxes

section Books

variable (s : Muxes)

/- The list of a control stream is that of its lower streams, and the counters are those of the files and the links. -/
structure Booked : Prop where
  lists : ∀ h ∈ s.str.stdatas, Threaded s.next (s.head h).mxHd (s.lowers h)
  there : ∀ h ∈ s.str.stdatas, ∀ x ∈ s.lowers h, x ∈ s.str.stdatas
  once : ∀ x, s.uppers x ≤ 1
  distinct : ∀ x ∈ s.str.stdatas, ∀ y ∈ s.str.stdatas, 0 < s.uppers x → 0 < s.uppers y →
    (s.head x).mxIndex = (s.head y).mxIndex → x = y
  positive : ∀ x ∈ s.str.stdatas, 0 < s.uppers x → 0 < (s.head x).mxIndex
  linkcnt : ∀ x ∈ s.str.stdatas, (s.head x).sdLinkcnt % 2 ^ 16 = ((s.uppers x + s.plinks x : ℕ) : ℤ) % 2 ^ 16
  opencnt : ∀ x ∈ s.str.stdatas, (s.head x).sdOpencnt = s.files x + s.uppers x + s.plinks x
  refcnt : ∀ x ∈ s.str.stdatas, (s.head x).sdRefcnt = s.files x + s.uppers x + (s.lowers x).length + s.plinks x
  used : ∀ x ∈ s.str.stdatas, (s.head x).sdRefcnt ≠ 0

/- The calls that are possible, and keep the books. A link is made of a stream that is not a lower one and not the
control stream itself, on a kernel before 6.8, and neither the wait nor the queue sync option fails. No wait fails
while all multiplexors of a major are unlinked, and there are at most 100 of them. -/
def Guard (old : Bool) (s : Muxes) : Op → Prop
  | .stropen h _ _ => h ∉ s.str.stdatas
  | .reopen h => h ∈ s.str.stdatas
  | .strclose h _ => 0 < s.files h
  | .link _ hd m g await ioctl sync =>
      0 < s.files hd ∧ ∀ x ∈ m, 0 < s.files x ∧ (g.link (s.head hd).stplex = none → old = true ∧
        (s.head x).stplex = false ∧ x ≠ hd ∧ 0 ≤ await ∧ (0 ≤ ioctl → 0 ≤ sync) ∧
          s.str.stdatas.length < 2 ^ 31 - 1)
  | .unlink cmd hd arg g d =>
      0 < s.files hd ∧ (g.unlink (s.head hd).stplex arg = none → cmd = .punlink → arg = -1 →
        Agreed s d (s.major hd) ∧ ctls s (s.major hd) ≤ 100)

instance Agreed.decidable (d : Driver) (maj : ℕ) : Decidable (Agreed s d maj) :=
  inferInstanceAs (Decidable (∀ h ∈ _, _ → ∀ x ∈ _, _))

instance Guard.decidable (old : Bool) : ∀ op, Decidable (Guard old s op)
  | .stropen _ _ _ => inferInstanceAs (Decidable (_ ∉ _))
  | .reopen _ => inferInstanceAs (Decidable (_ ∈ _))
  | .strclose _ _ => inferInstanceAs (Decidable (_ < _))
  | .link _ _ _ _ _ _ _ => inferInstanceAs (Decidable (_ ∧ ∀ x ∈ _, _ ∧ (_ → _)))
  | .unlink _ _ _ _ _ => inferInstanceAs (Decidable (_ ∧ (_ → _ → _ → _ ∧ _)))

end Books

variable {s t u : Muxes} {opens held extra opens' held' extra' : ℕ → ℕ} {owner owner' : ℕ → Option ℕ}
  {h hd m x y : ℕ} {cmd : Cmd} {old : Bool} {await ioctl sync : ℤ}

/- What holds between two calls. -/
def Kept (s : Muxes) : Prop := s.str.muxid < 2 ^ 31 ∧ ∃ owner, Inv s s.files (fun _ => 0) (fun _ => 0) owner

theorem Inv.booked (hi : Inv s s.files (fun _ => 0) (fun _ => 0) owner) : Booked s where
  lists h _ := hi.lists h
  there h _ x hx := hi.live x (by rw [up_some ((hi.owned x h).mp hx)]; omega)
  once x := by
    rw [hi.uppers_eq]
    exact Bool.toNat_le _
  distinct x hx y hy hux _ he := by
    rw [hi.uppers_eq] at hux
    exact hi.distinct x hx y hy he (hi.positive x fun ho => absurd (up_none ho) (Nat.ne_of_gt hux))
  positive x _ hux := by
    rw [hi.uppers_eq] at hux
    exact Nat.pos_of_ne_zero (hi.positive x fun ho => absurd (up_none ho) (Nat.ne_of_gt hux))
  linkcnt x _ := by
    rw [hi.linkcnt,hi.uppers_eq]
    push_cast
    rw [Int.zero_add]
  opencnt x _ := by rw [hi.opencnt,hi.uppers_eq]
  refcnt x _ := by
    rw [hi.refcnt,hi.uppers_eq]
    simp
  used := hi.used

/-! ### Links -/

namespace Streams

variable {s t : Streams} {muxed : ℕ} {r : ℤ}

/- The stream heads after a link. -/
def linked (s : Streams) (hd muxed : ℕ) (cmd : Cmd) (id x : ℕ) : Stdata :=
  if x = muxed then { s.heads x with
    qinfo := (s.heads hd).sdStrtab.stMux, qnoenb := false, stplex := true, sdOpencnt := (s.heads x).sdOpencnt + 1,
    sdLinkcnt := (s.heads x).sdLinkcnt + 1, sdRefcnt := (s.heads x).sdRefcnt + 1, mxNext := (s.heads hd).mxHd,
    mxIndex := id, mxCmd := cmd }
  else if x = hd then { s.heads x with
    sdOpencnt := (s.heads x).sdOpencnt + if cmd = .plink then 1 else 0,
    sdLinkcnt := (s.heads x).sdLinkcnt + if cmd = .plink then 1 else 0,
    sdRefcnt := (s.heads x).sdRefcnt + 1 + if cmd = .plink then 1 else 0, mxHd := some muxed }
  else s.heads x

/- And after one that the driver has refused. -/
def unlinked (s : Streams) (hd muxed : ℕ) (cmd : Cmd) (id x : ℕ) : Stdata :=
  if x = muxed then { s.heads x with
    qinfo := (s.heads hd).sdStrtab.st, qnoenb := true, stplex := false, mxNext := none, mxIndex := id, mxCmd := cmd }
  else s.heads x

end Streams

theorem Inv.not_mem (hi : Inv s opens held extra owner) (ho : owner m = none) (h : ℕ) : m ∉ s.lowers h := by
  intro hm
  rw [hi.owned,ho] at hm
  cases hm

/- The driver has agreed to the link. -/
theorem Inv.linked {id : ℕ} (hi : Inv s opens held extra owner) (hm : owner m = none) (hhd : owner hd = none)
    (hne : m ≠ hd) (hml : m ∈ s.str.stdatas) (hdl : hd ∈ s.str.stdatas) (hpos : 0 < id)
    (hfresh : ∀ k ∈ s.str.stdatas, (s.head k).mxIndex ≠ id) (hh : t.str.heads = s.str.linked hd m cmd id)
    (hst : t.str.stdatas = s.str.stdatas) (hlow : t.lowers = Function.update s.lowers hd (m :: s.lowers hd)) :
    Inv t opens held extra (Function.update owner m (some hd)) := by
  have hhead (x) : t.head x = s.str.linked hd m cmd id x := congrFun hh x
  have hnext : t.next = Function.update s.next m (s.head hd).mxHd := by
    funext x
    rw [Muxes.next,hhead,Function.update_apply,Streams.linked]
    split_ifs <;> rfl
  have hcmd (x) : (t.head x).mxCmd = if x = m then cmd else (s.head x).mxCmd := by
    rw [hhead,Streams.linked]
    split_ifs <;> rfl
  have hidx (x) : (t.head x).mxIndex = if x = m then id else (s.head x).mxIndex := by
    rw [hhead,Streams.linked]
    split_ifs <;> rfl
  have hup (x) : up (Function.update owner m (some hd)) x = up owner x + if x = m then 1 else 0 := by
    split_ifs with hx
    · rw [hx,up_none hm,up_some (Function.update_self ..)]
    · rw [up,up,Function.update_of_ne hx,Nat.add_zero]
  have hold (l : List ℕ) (hml : m ∉ l) : (l.countP fun y => (t.head y).mxCmd == .plink) =
      l.countP fun y => (s.head y).mxCmd == .plink := by
    refine List.countP_congr fun y hy => ?_
    rw [hcmd,if_neg fun he : y = m => hml (he ▸ hy)]
  have hpl (x) : t.plinks x = s.plinks x + if x = hd ∧ cmd = .plink then 1 else 0 := by
    rw [Muxes.plinks,hlow,Function.update_apply]
    by_cases hx : x = hd
    · rw [if_pos hx,List.countP_cons,hold _ (hi.not_mem hm hd),hcmd,if_pos rfl,hx]
      simp [Muxes.plinks]
    · rw [if_neg hx,if_neg fun hc => hx hc.1,hold _ (hi.not_mem hm x),Nat.add_zero]
      rfl
  have hlen (x) : (t.lowers x).length = (s.lowers x).length + if x = hd then 1 else 0 := by
    rw [hlow,Function.update_apply]
    split_ifs with hx
    · rw [hx]
      rfl
    · rfl
  have hcount (x) : (t.head x).sdLinkcnt = (s.head x).sdLinkcnt + (if x = m then 1 else 0) +
        (if x = hd ∧ cmd = .plink then 1 else 0) ∧
      (t.head x).sdOpencnt = (s.head x).sdOpencnt + (if x = m then 1 else 0) +
        (if x = hd ∧ cmd = .plink then 1 else 0) ∧
      (t.head x).sdRefcnt = (s.head x).sdRefcnt + (if x = m then 1 else 0) + (if x = hd then 1 else 0) +
        (if x = hd ∧ cmd = .plink then 1 else 0) := by
    rw [hhead,Streams.linked]
    by_cases hx : x = m
    · have hxd : x ≠ hd := fun he => hne (hx.symm.trans he)
      simp only [if_pos hx,hxd,false_and,if_false,Int.add_zero]
      exact ⟨rfl,rfl,rfl⟩
    · rw [if_neg hx]
      by_cases hxd : x = hd
      · subst hxd
        simp only [if_neg hx,if_true,true_and,Int.add_zero]
        exact ⟨rfl,rfl,rfl⟩
      · simp only [if_neg hx,hxd,false_and,if_false,Int.add_zero]
        exact ⟨rfl,rfl,rfl⟩
  constructor
  case lists =>
    intro h
    rw [hnext,hlow,Function.update_apply]
    split_ifs with hx
    · subst hx
      have hmx : (t.head h).mxHd = some m := by
        rw [hhead,Streams.linked,if_neg hne.symm,if_pos rfl]
      rw [hmx]
      exact Threaded.push (hi.not_mem hm h) (hi.lists h)
    · have hmx : (t.head h).mxHd = (s.head h).mxHd := by
        rw [hhead,Streams.linked]
        split_ifs <;> rfl
      rw [hmx]
      refine (hi.lists h).congr fun x hxl => Function.update_of_ne ?_ ..
      rintro rfl
      exact hi.not_mem hm h hxl
  case owned =>
    intro x h
    rw [hlow,Function.update_apply,Function.update_apply]
    by_cases hx : x = m
    · subst hx
      rw [if_pos rfl,Option.some.injEq]
      split_ifs with hh
      · exact iff_of_true (List.mem_cons_self ..) hh.symm
      · exact iff_of_false (hi.not_mem hm h) fun hc => hh hc.symm
    · rw [if_neg hx]
      split_ifs with hh
      · rw [List.mem_cons,or_iff_right hx,hh,hi.owned]
      · exact hi.owned x h
  case forest => exact hi.forest.link hne hhd
  case plex =>
    intro x hx
    rw [hhead,Streams.linked]
    by_cases h1 : x = m
    · rw [if_pos h1]
    · rw [Function.update_of_ne h1] at hx
      rw [if_neg h1,apply_ite Stdata.stplex,ite_self]
      exact hi.plex x hx
  case distinct =>
    intro x hx y hy he hz
    rw [hst] at hx hy
    rw [hidx,hidx] at he
    rw [hidx] at hz
    split_ifs at he hz with h1 h2 h3
    · exact h1.trans h2.symm
    · exact absurd he.symm (hfresh y hy)
    · exact absurd he (hfresh x hx)
    · exact hi.distinct x hx y hy he hz
  case positive =>
    intro x hx
    rw [hidx]
    split_ifs with h1
    · exact Nat.ne_of_gt hpos
    · rw [Function.update_of_ne h1] at hx
      exact hi.positive x hx
  case linkcnt =>
    intro x
    rw [(hcount x).1,hi.linkcnt,hup,hpl]
    split_ifs <;> push_cast <;> omega
  case opencnt =>
    intro x
    rw [(hcount x).2.1,hi.opencnt,hup,hpl]
    split_ifs <;> push_cast <;> omega
  case refcnt =>
    intro x
    rw [(hcount x).2.2,hi.refcnt,hup,hpl,hlen]
    split_ifs <;> push_cast <;> omega
  case live =>
    intro x hx
    rw [hst]
    rw [hup,hlen] at hx
    by_cases h1 : x = m
    · exact h1 ▸ hml
    · by_cases h2 : x = hd
      · exact h2 ▸ hdl
      · rw [if_neg h1,if_neg h2] at hx
        exact hi.live x hx
  case used =>
    intro x hx
    rw [hst] at hx
    have h0 := hi.used x hx
    have h1 := hi.refcnt x
    rw [(hcount x).2.2]
    split_ifs <;> omega
  case nodup => exact hst ▸ hi.nodup

/- The head of a stream that is no lower one changes, but not its list, or it is a new one. -/
theorem Inv.rehead (hi : Inv s opens held extra owner) (hm : owner m = none)
    (hother : ∀ x, x ≠ m → t.head x = s.head x ∧ opens' x = opens x) (hlow : t.lowers = s.lowers)
    (hhd : Threaded s.next (t.head m).mxHd (s.lowers m)) (hst : ∀ x, x ∈ t.str.stdatas ↔ x ∈ s.str.stdatas ∨ x = m)
    (hnd : t.str.stdatas.Nodup) (hidx : (t.head m).mxIndex = 0 ∨ ∀ k ∈ s.str.stdatas, (s.head k).mxIndex ≠ (t.head m).mxIndex)
    (hlink : (t.head m).sdLinkcnt = extra m + s.plinks m) (hopen : (t.head m).sdOpencnt = opens' m + s.plinks m)
    (href : (t.head m).sdRefcnt = opens' m + held m + (s.lowers m).length + s.plinks m) (hused : (t.head m).sdRefcnt ≠ 0) :
    Inv t opens' held extra owner := by
  have hpl (x) : t.plinks x = s.plinks x :=
    plinks_congr (congrFun hlow _) fun y hy => by rw [(hother y fun he => hi.not_mem hm x (he ▸ hy)).1]
  have howned (x) (hx : owner x ≠ none) : x ≠ m := fun he => hx (he ▸ hm)
  have hnext (k) : ∀ x ∈ s.lowers k, t.next x = s.next x := fun x hx => by
    rw [Muxes.next,(hother x fun he => hi.not_mem hm k (he ▸ hx)).1]
    rfl
  have hup : up owner m = 0 := up_none hm
  constructor
  case lists =>
    intro k
    rw [hlow]
    by_cases hk : k = m
    · subst hk
      exact hhd.congr (hnext k)
    · rw [(hother k hk).1]
      exact (hi.lists k).congr (hnext k)
  case owned => exact fun x k => hlow ▸ hi.owned x k
  case forest => exact hi.forest
  case plex => exact fun x hx => (hother x (howned x hx)).1 ▸ hi.plex x hx
  case distinct =>
    intro x hx y hy he hz
    by_cases hxm : x = m <;> by_cases hym : y = m
    · exact hxm.trans hym.symm
    · subst hxm
      rw [(hother y hym).1] at he
      exact (hidx.elim hz fun hf => hf y (((hst y).mp hy).resolve_right hym) he.symm).elim
    · subst hym
      rw [(hother x hxm).1] at he hz
      exact (hidx.elim (fun h0 => hz (he.trans h0)) fun hf => hf x (((hst x).mp hx).resolve_right hxm) he).elim
    · rw [(hother x hxm).1] at he hz
      rw [(hother y hym).1] at he
      exact hi.distinct x (((hst x).mp hx).resolve_right hxm) y (((hst y).mp hy).resolve_right hym) he hz
  case positive => exact fun x hx => (hother x (howned x hx)).1 ▸ hi.positive x hx
  case linkcnt =>
    intro x
    rw [hpl]
    by_cases hx : x = m
    · rw [hx,hlink,hup]
      simp
    · rw [(hother x hx).1,hi.linkcnt]
  case opencnt =>
    intro x
    rw [hpl]
    by_cases hx : x = m
    · rw [hx,hopen,hup]
      rfl
    · rw [(hother x hx).1,(hother x hx).2,hi.opencnt]
  case refcnt =>
    intro x
    rw [hpl,hlow]
    by_cases hx : x = m
    · rw [hx,href,hup]
      rfl
    · rw [(hother x hx).1,(hother x hx).2,hi.refcnt]
  case live =>
    intro x hx
    by_cases hxm : x = m
    · exact (hst x).mpr (Or.inr hxm)
    · rw [hlow,(hother x hxm).2] at hx
      exact (hst x).mpr (Or.inl (hi.live x hx))
  case used =>
    intro x hx
    by_cases hxm : x = m
    · exact hxm ▸ hused
    · rw [(hother x hxm).1]
      exact hi.used x (((hst x).mp hx).resolve_right hxm)
  case nodup => exact hnd

/- The driver has refused it. -/
theorem Inv.unlinked {id : ℕ} (hi : Inv s opens held extra owner) (hm : owner m = none) (hml : m ∈ s.str.stdatas)
    (hfresh : ∀ k ∈ s.str.stdatas, (s.head k).mxIndex ≠ id) (hh : t.str.heads = s.str.unlinked hd m cmd id)
    (hst : t.str.stdatas = s.str.stdatas) (hlow : t.lowers = s.lowers) : Inv t opens held extra owner := by
  have hhead (x) : t.head x = s.str.unlinked hd m cmd id x := congrFun hh x
  have hself : t.head m = { s.head m with
      qinfo := (s.str.heads hd).sdStrtab.st, qnoenb := true, stplex := false, mxNext := none, mxIndex := id, mxCmd := cmd } :=
    (hhead m).trans (if_pos rfl)
  have hup : up owner m = 0 := up_none hm
  refine hi.rehead hm (fun x hx => ⟨(hhead x).trans (if_neg hx),rfl⟩) hlow ?_ (fun x => ?_) (hst ▸ hi.nodup)
    (Or.inr fun k hk => ?_) ?_ ?_ ?_ ?_
  · rw [hself]
    exact hi.lists m
  · rw [hst,or_iff_left_of_imp fun he => he ▸ hml]
  · rw [hself]
    exact hfresh k hk
  all_goals rw [hself]
  · simpa [hup] using hi.linkcnt m
  · simpa [hup] using hi.opencnt m
  · simpa [hup] using hi.refcnt m
  · exact hi.used m hml

/-! ### Calls -/

variable {d : Driver} {g : Gate} {r : ℤ}

theorem Inv.relabel (hi : Inv s opens held extra owner) (hstr : t.str = s.str) (hlow : t.lowers = s.lowers) :
    Inv t opens held extra owner := by
  obtain ⟨str,major,lowers,lost,files,ret⟩ := t
  obtain rfl : str = s.str := hstr
  obtain rfl : lowers = s.lowers := hlow
  exact ⟨hi.lists,hi.owned,hi.forest,hi.plex,hi.distinct,hi.positive,hi.linkcnt,hi.opencnt,hi.refcnt,hi.live,hi.used,
    hi.nodup⟩

theorem links_lt_enough (s : Muxes) (owner : ℕ → Option ℕ) : links s owner + 1 < s.enough := by
  have h1 := links_le_length s owner
  have h3 : s.enough = s.str.stdatas.length * s.str.stdatas.length + 4 * s.str.stdatas.length + 4 := by
    rw [Muxes.enough]
    ring
  omega

theorem bump_pred (f : ℕ → ℕ) (hp : 0 < f h) : bump (Function.update f h (f h - 1)) h = f := by
  funext x
  rw [bump,Function.update_apply]
  split_ifs with hx
  · rw [hx]
    omega
  · rfl

end CSLiS.Mux
