import CSLiS.Mux.Booked

/-!
# Taking a multiplexor apart

What `lis_i_unlink` and `lis_doclose` do to the lists and the counters, when a close unlinks what is below the stream
that it closes.
-/

namespace CSLiS.Mux

open Lib Lib.Forest Muxes

variable {s t u : Muxes} {opens held extra opens' held' extra' : ℕ → ℕ} {owner owner' : ℕ → Option ℕ} {h hd hp x y : ℕ}
  {pre rest : List ℕ}

/-! ### Taking a stream out of its list -/

/- What taking a stream out does to the heads. -/
structure Taken (s t : Muxes) (hd hp : ℕ) (prev : Option ℕ) : Prop extends Kin s t where
  mxHd : ∀ x, (t.head x).mxHd = if x = hd ∧ prev = none then s.next hp else (s.head x).mxHd
  next : ∀ x, t.next x = if x = hp then none else if prev = some x then s.next hp else s.next x
  rest : ∀ x, t.head x = { s.head x with mxHd := (t.head x).mxHd, mxNext := (t.head x).mxNext }
  lowers : t.lowers = Function.update s.lowers hd ((s.lowers hd).erase hp)
  stdatas : t.str.stdatas = s.str.stdatas
  lost : t.lost = s.lost

theorem taken_first (h1 : (s.head hd).mxHd = some hp) : ∃ t, s.delink hd none hp = some t ∧ Taken s t hd hp none := by
  refine ⟨_,by rw [Muxes.delink,if_pos h1,Option.map_some],?_⟩
  constructor
  case toKin => exact ⟨rfl,rfl,rfl⟩
  case lowers | stdatas | lost => rfl
  all_goals
    intro x
    simp only [Muxes.head,Muxes.upd,Muxes.next,Streams.upd_heads]
    split_ifs <;> simp_all

theorem taken_behind {p : ℕ} (h1 : (s.head hd).mxHd ≠ some hp) :
    ∃ t, s.delink hd (some p) hp = some t ∧ Taken s t hd hp (some p) := by
  refine ⟨_,by rw [Muxes.delink,if_neg h1,Option.map_some,Option.map_some],?_⟩
  constructor
  case toKin => exact ⟨rfl,rfl,rfl⟩
  case lowers | stdatas | lost => rfl
  all_goals
    intro x
    simp only [Muxes.head,Muxes.upd,Muxes.next,Streams.upd_heads]
    split_ifs <;> simp_all

theorem Inv.taken (hi : Inv s opens held extra owner) (hl : s.lowers hd = pre ++ hp :: rest) :
    ∃ t, s.delink hd pre.getLast? hp = some t ∧ Taken s t hd hp pre.getLast? := by
  have hth := hi.lists hd
  rw [hl] at hth
  rcases List.eq_nil_or_concat pre with rfl | ⟨l,p,rfl⟩
  · exact taken_first hth.1
  · have hne : (s.head hd).mxHd ≠ some hp := by
      intro hc
      rw [hth.head] at hc
      have hmem : hp ∈ l.concat p := by
        rw [List.concat_eq_append] at hc ⊢
        cases l with
        | nil => exact List.mem_of_mem_head? hc
        | cons a l => exact List.mem_of_mem_head? (by simpa using hc)
      exact (List.nodup_append.mp hth.nodup).2.2 hp hmem hp (List.mem_cons_self ..) rfl
    rw [List.concat_eq_append,List.getLast?_concat]
    exact taken_behind hne

theorem Taken.lowers_eq (ht : Taken s t hd hp pre.getLast?) (hi : Inv s opens held extra owner)
    (hl : s.lowers hd = pre ++ hp :: rest) : t.lowers = Function.update s.lowers hd (pre ++ rest) := by
  have hth := hi.lists hd
  rw [hl] at hth
  have hpre : hp ∉ pre := fun hc => (List.nodup_append.mp hth.nodup).2.2 hp hc hp (List.mem_cons_self ..) rfl
  rw [ht.lowers,hl,List.erase_append_right _ hpre,List.erase_cons_head]

theorem Taken.lists (ht : Taken s t hd hp pre.getLast?) (hi : Inv s opens held extra owner)
    (hl : s.lowers hd = pre ++ hp :: rest) (h : ℕ) : Threaded t.next (t.head h).mxHd (t.lowers h) := by
  have hth := hi.lists hd
  rw [hl] at hth
  obtain ⟨hnd,hnd',hdis⟩ := List.nodup_append.mp hth.nodup
  have hpre : hp ∉ pre := fun hc => hdis hp hc hp (List.mem_cons_self ..) rfl
  have hlast (p : ℕ) (hp' : pre.getLast? = some p) : p ≠ hp := fun hc => hpre (hc ▸ List.mem_of_getLast? hp')
  rw [ht.lowers_eq hi hl]
  by_cases hh : h = hd
  · subst hh
    rw [Function.update_self]
    refine hth.remove (fun hnil => ?_) (fun hnil => ?_) (fun p hp' => ?_) fun x hx hne => ?_
    · rw [ht.mxHd,if_pos ⟨rfl,by rw [hnil]; rfl⟩]
    · rw [ht.mxHd,if_neg fun hc => hnil (List.getLast?_eq_none_iff.mp hc.2)]
    · rw [ht.next,if_neg (hlast p hp'),if_pos hp']
    · rw [ht.next,if_neg ?_,if_neg hne]
      rintro rfl
      rcases List.mem_append.mp hx with hx | hx
      · exact hpre hx
      · exact (List.nodup_cons.mp hnd').1 hx
  · rw [Function.update_of_ne hh,ht.mxHd,if_neg fun hc => hh hc.1]
    refine (hi.lists h).congr fun x hx => ?_
    -- a stream of another list is not on this one
    have hout : x ∉ pre ++ hp :: rest := by
      intro hc
      rw [← hl] at hc
      exact hh (Option.some.inj (((hi.owned x h).mp hx).symm.trans ((hi.owned x hd).mp hc)))
    rw [ht.next,if_neg,if_neg]
    · exact fun hc => hout (List.mem_append_left _ (List.mem_of_getLast? hc))
    · rintro rfl
      exact hout (List.mem_append_right _ (List.mem_cons_self ..))

/- What is counted less when a stream is no lower one any more. -/
structure Unplexed (s t : Muxes) (hd hp : ℕ) : Prop extends Kin s t where
  next : t.next = s.next
  mxHd : ∀ x, (t.head x).mxHd = (s.head x).mxHd
  mxIndex : ∀ x, (t.head x).mxIndex = (s.head x).mxIndex
  mxCmd : ∀ x, (t.head x).mxCmd = (s.head x).mxCmd
  stplex : ∀ x, (t.head x).stplex = if x = hp then false else (s.head x).stplex
  linkcnt : ∀ x, (t.head x).sdLinkcnt + (if x = hp then 1 else 0) +
    (if x = hd ∧ (s.head hp).mxCmd = .plink then 1 else 0) = (s.head x).sdLinkcnt
  opencnt : ∀ x, (t.head x).sdOpencnt + (if x = hd ∧ (s.head hp).mxCmd = .plink then 1 else 0) = (s.head x).sdOpencnt
  refcnt : ∀ x, (t.head x).sdRefcnt + (if x = hd ∧ (s.head hp).mxCmd = .plink then 1 else 0) = (s.head x).sdRefcnt
  lowers : t.lowers = s.lowers
  stdatas : t.str.stdatas = s.str.stdatas
  lost : t.lost = s.lost

theorem unplexed (hpl : (s.head hp).mxCmd = .plink → 0 < (s.head hd).sdOpencnt ∧ (s.head hd).sdRefcnt ≠ 1) :
    Unplexed s (s.unplex hd hp) hd hp := by
  let idle (m : Stdata) : Stdata := { m with qinfo := strmhdInit, qnoenb := true }
  let less (h : Stdata) : Stdata := { h with sdOpencnt := h.sdOpencnt - 1, sdLinkcnt := h.sdLinkcnt - 1 }
  let put (h : Stdata) : Stdata := { h with sdRefcnt := h.sdRefcnt - 1 }
  let out (m : Stdata) : Stdata := { m with sdLinkcnt := m.sdLinkcnt - 1, stplex := false }
  have hcmd : ((s.upd hp idle).head hp).mxCmd = (s.head hp).mxCmd := by rw [upd_head,if_pos rfl]
  have hopen : ((s.upd hp idle).head hd).sdOpencnt = (s.head hd).sdOpencnt := by
    rw [upd_head]
    split_ifs <;> rfl
  cases hc : (s.head hp).mxCmd with
  | link =>
    have hu : s.unplex hd hp = (s.upd hp idle).upd hp out := by
      rw [Muxes.unplex,if_neg fun hp => Cmd.noConfusion (hc.symm.trans (hcmd.symm.trans hp.1))]
    rw [hu]
    constructor
    case toKin => exact ⟨rfl,rfl,rfl⟩
    case lowers | stdatas | lost => rfl
    case next => exact funext fun x => by simp only [Muxes.next,upd_head]; split_ifs <;> rfl
    all_goals
      intro x
      simp only [upd_head,hc]
      split_ifs <;> simp_all [idle,out]
  | plink =>
    obtain ⟨hpos,hr⟩ := hpl hc
    have href : (((s.upd hp idle).upd hd less).head hd).sdRefcnt = (s.head hd).sdRefcnt := by
      rw [upd_head,if_pos rfl,upd_head]
      split_ifs <;> rfl
    have hu : s.unplex hd hp = (((s.upd hp idle).upd hd less).upd hd put).upd hp out := by
      rw [Muxes.unplex,if_pos ⟨hcmd.trans hc,hopen.symm ▸ hpos⟩,Muxes.headPut,if_neg fun hp => hr (href.symm.trans hp)]
    rw [hu]
    constructor
    case toKin => exact ⟨rfl,rfl,rfl⟩
    case lowers | stdatas | lost => rfl
    case next => exact funext fun x => by simp only [Muxes.next,upd_head]; split_ifs <;> rfl
    all_goals
      intro x
      simp only [upd_head,hc]
      split_ifs <;> simp_all [idle,out,less,put]

/-! ### What is left of the lists -/

/- Lower streams of what is below `top` were unlinked, and nothing else happened to the lists. -/
structure Shrunk (s t : Muxes) (owner : ℕ → Option ℕ) (top : ℕ) : Prop extends Kin s t where
  sub : ∀ h, (t.lowers h).Sublist (s.lowers h)
  away : ∀ h, ¬Below owner h top → t.lowers h = s.lowers h
  mxCmd : ∀ x, (t.head x).mxCmd = (s.head x).mxCmd
  mxIndex : ∀ x, (t.head x).mxIndex = (s.head x).mxIndex
  stdatas : t.str.stdatas.Sublist s.str.stdatas
  lost : t.lost = s.lost

theorem Muxes.Like.shrunk (hl : Like s t) (hs : t.str.stdatas.Sublist s.str.stdatas) : Shrunk s t owner hd :=
  ⟨hl.toKin,fun _ => hl.lowers ▸ List.Sublist.refl _,fun _ _ => by rw [hl.lowers],hl.mxCmd,hl.mxIndex,hs,hl.lost⟩

theorem Shrunk.refl (s : Muxes) : Shrunk s s owner hd := (Like.refl s).shrunk (List.Sublist.refl _)

theorem Shrunk.trans (h1 : Shrunk s t owner hd) (h2 : Shrunk t u owner' hp)
    (hb : ∀ h, Below owner' h hp → Below owner h hd) : Shrunk s u owner hd where
  toKin := h1.toKin.trans h2.toKin
  sub h := (h2.sub h).trans (h1.sub h)
  away h hn := (h2.away h fun hc => hn (hb h hc)).trans (h1.away h hn)
  mxCmd x := (h2.mxCmd x).trans (h1.mxCmd x)
  mxIndex x := (h2.mxIndex x).trans (h1.mxIndex x)
  stdatas := h2.stdatas.trans h1.stdatas
  lost := h2.lost.trans h1.lost

/- Who is owned afterwards was owned by the same before. -/
theorem Shrunk.owner_le (hs : Shrunk s t owner hd) (hi : Inv s opens held extra owner)
    (ht : Inv t opens' held' extra' owner') (ho : owner' x = some h) : owner x = some h :=
  (hi.owned x h).mp ((hs.sub h).subset ((ht.owned x h).mpr ho))

/- The number of streams that are lower ones. -/
def links (s : Muxes) (owner : ℕ → Option ℕ) : ℕ := s.str.stdatas.countP fun x => (owner x).isSome

theorem links_le (hsub : t.str.stdatas.Sublist s.str.stdatas) (ho : ∀ x h, owner' x = some h → owner x = some h) :
    links t owner' ≤ links s owner := by
  refine (hsub.countP_le).trans (List.countP_mono_left fun x _ hx => ?_)
  obtain ⟨h,hh⟩ := Option.isSome_iff_exists.mp hx
  rw [ho x h hh]
  rfl

theorem Inv.lowers_length_le (hi : Inv s opens held extra owner) (h : ℕ) : (s.lowers h).length ≤ links s owner := by
  have hsub : (s.lowers h).Subperm (s.str.stdatas.filter fun x => (owner x).isSome) := by
    refine List.subperm_of_subset (hi.lists h).nodup fun x hx => List.mem_filter.mpr ⟨?_,?_⟩
    · exact hi.live x (by rw [up_some ((hi.owned x h).mp hx)]; omega)
    · rw [(hi.owned x h).mp hx]
      rfl
  rw [links,List.countP_eq_length_filter]
  exact hsub.length_le

/- What taking a lower stream out and making it an ordinary one does, `low` are the other ones of the control stream. -/
structure Cut (s t : Muxes) (hd hp : ℕ) (low : List ℕ) : Prop extends Kin s t where
  lists : ∀ h, Threaded t.next (t.head h).mxHd (t.lowers h)
  lowers : t.lowers = Function.update s.lowers hd low
  mxIndex : ∀ x, (t.head x).mxIndex = (s.head x).mxIndex
  mxCmd : ∀ x, (t.head x).mxCmd = (s.head x).mxCmd
  stplex : ∀ x, x ≠ hp → (t.head x).stplex = (s.head x).stplex
  linkcnt : ∀ x, (t.head x).sdLinkcnt + (if x = hp then 1 else 0) +
    (if x = hd ∧ (s.head hp).mxCmd = .plink then 1 else 0) = (s.head x).sdLinkcnt
  opencnt : ∀ x, (t.head x).sdOpencnt + (if x = hd ∧ (s.head hp).mxCmd = .plink then 1 else 0) = (s.head x).sdOpencnt
  refcnt : ∀ x, (t.head x).sdRefcnt + (if x = hd ∧ (s.head hp).mxCmd = .plink then 1 else 0) = (s.head x).sdRefcnt
  stdatas : t.str.stdatas = s.str.stdatas
  lost : t.lost = s.lost

theorem Inv.plinks_pos (hi : Inv s opens held extra owner) (ho : owner hp = some hd)
    (hc : (s.head hp).mxCmd = .plink) : 0 < s.plinks hd := by
  rw [Muxes.plinks,List.countP_pos_iff]
  exact ⟨hp,(hi.owned hp hd).mpr ho,by rw [hc]; rfl⟩

theorem Inv.cut (hi : Inv s opens held extra owner) (hl : s.lowers hd = pre ++ hp :: rest)
    (hh : 0 < opens hd + held hd) :
    ∃ t, s.delink hd pre.getLast? hp = some t ∧ Cut s (t.unplex hd hp) hd hp (pre ++ rest) := by
  obtain ⟨t,ht,htk⟩ := hi.taken hl
  have ho : owner hp = some hd := (hi.owned hp hd).mp (hl ▸ List.mem_append_right _ (List.mem_cons_self ..))
  have hopen (x) : (t.head x).sdOpencnt = (s.head x).sdOpencnt := by rw [htk.rest]
  have href (x) : (t.head x).sdRefcnt = (s.head x).sdRefcnt := by rw [htk.rest]
  have hlink (x) : (t.head x).sdLinkcnt = (s.head x).sdLinkcnt := by rw [htk.rest]
  have hcmd (x) : (t.head x).mxCmd = (s.head x).mxCmd := by rw [htk.rest]
  have hu : Unplexed t (t.unplex hd hp) hd hp := by
    refine unplexed fun hc => ?_
    rw [hcmd] at hc
    have hpl := hi.plinks_pos ho hc
    have h1 := hi.opencnt hd
    have h2 := hi.refcnt hd
    rw [hopen,href]
    omega
  refine ⟨t,ht,?_⟩
  constructor
  case toKin => exact htk.toKin.trans hu.toKin
  case lists =>
    intro h
    rw [hu.next,hu.mxHd,hu.lowers]
    exact htk.lists hi hl h
  case lowers => rw [hu.lowers,htk.lowers_eq hi hl]
  case mxIndex => exact fun x => (hu.mxIndex x).trans (by rw [htk.rest])
  case mxCmd => exact fun x => (hu.mxCmd x).trans (hcmd x)
  case stplex => exact fun x hx => (hu.stplex x).trans (by rw [if_neg hx,htk.rest])
  case linkcnt => exact fun x => by rw [← hlink x,← hu.linkcnt x,hcmd]
  case opencnt => exact fun x => by rw [← hopen x,← hu.opencnt x,hcmd]
  case refcnt => exact fun x => by rw [← href x,← hu.refcnt x,hcmd]
  case stdatas => exact hu.stdatas.trans htk.stdatas
  case lost => exact hu.lost.trans htk.lost

namespace Cut

variable {low : List ℕ}

theorem lowers_self (hc : Cut s t hd hp low) : t.lowers hd = low := by rw [hc.lowers,Function.update_self]

theorem lowers_ne (hc : Cut s t hd hp low) (hh : h ≠ hd) : t.lowers h = s.lowers h := by
  rw [hc.lowers,Function.update_of_ne hh]

theorem length (hc : Cut s t hd hp (pre ++ rest)) (hl : s.lowers hd = pre ++ hp :: rest) (x : ℕ) :
    (t.lowers x).length + (if x = hd then 1 else 0) = (s.lowers x).length := by
  split_ifs with hx
  · subst hx
    rw [hc.lowers_self,hl,List.length_append,List.length_append,List.length_cons]
    omega
  · rw [hc.lowers_ne hx,Nat.add_zero]

theorem plinks (hc : Cut s t hd hp (pre ++ rest)) (hl : s.lowers hd = pre ++ hp :: rest) (x : ℕ) :
    t.plinks x + (if x = hd ∧ (s.head hp).mxCmd = .plink then 1 else 0) = s.plinks x := by
  have hcongr : t.plinks x = (t.lowers x).countP fun y => (s.head y).mxCmd == .plink :=
    List.countP_congr fun y _ => by rw [hc.mxCmd]
  rw [hcongr,Muxes.plinks]
  by_cases hx : x = hd
  · subst hx
    rw [hc.lowers_self,hl,List.countP_append,List.countP_append,List.countP_cons]
    simp only [true_and,beq_iff_eq]
    omega
  · rw [hc.lowers_ne hx,if_neg fun h => hx h.1,Nat.add_zero]

theorem up_eq (ho : owner hp = some hd) (x : ℕ) :
    up (Function.update owner hp none) x + (if x = hp then 1 else 0) = up owner x := by
  split_ifs with hx
  · subst hx
    rw [up_some ho,up_none (Function.update_self ..)]
  · rw [up,up,Function.update_of_ne hx,Nat.add_zero]

theorem owner_le (hx : Function.update owner hp none x = some h) : owner x = some h := by
  rw [Function.update_apply] at hx
  split_ifs at hx
  exact hx

/- The link is an open of the stream now, and the control stream is held for it. -/
theorem inv (hc : Cut s t hd hp (pre ++ rest)) (hi : Inv s opens held extra owner)
    (hl : s.lowers hd = pre ++ hp :: rest) (hh : 0 < opens hd + held hd) :
    Inv t (bump opens hp) (bump held hd) extra (Function.update owner hp none) := by
  have ho : owner hp = some hd := (hi.owned hp hd).mp (hl ▸ List.mem_append_right _ (List.mem_cons_self ..))
  have hnd : (pre ++ hp :: rest).Nodup := hl ▸ (hi.lists hd).nodup
  constructor
  case lists => exact hc.lists
  case owned =>
    intro x h
    rw [Function.update_apply]
    split_ifs with hx
    · subst hx
      refine iff_of_false (fun hm => ?_) (by simp)
      by_cases hh' : h = hd
      · subst hh'
        rw [hc.lowers_self] at hm
        exact (List.nodup_middle.mp hnd |> List.nodup_cons.mp).1 hm
      · rw [hc.lowers_ne hh',hi.owned,ho] at hm
        exact hh' (Option.some.inj hm).symm
    · by_cases hh' : h = hd
      · subst hh'
        rw [hc.lowers_self,← hi.owned,hl]
        simp [hx]
      · rw [hc.lowers_ne hh',hi.owned]
  case forest => exact hi.forest.mono fun x h => owner_le
  case plex =>
    intro x hx
    rw [Function.update_apply] at hx
    split_ifs at hx with hxp
    · exact absurd rfl hx
    · rw [hc.stplex x hxp]
      exact hi.plex x hx
  case distinct =>
    intro x hx y hy he hz
    rw [hc.mxIndex] at he hz
    rw [hc.mxIndex] at he
    rw [hc.stdatas] at hx hy
    exact hi.distinct x hx y hy he hz
  case positive =>
    intro x hx
    rw [hc.mxIndex]
    refine hi.positive x fun hn => hx ?_
    rw [Function.update_apply,hn,ite_self]
  case linkcnt =>
    intro x
    have h1 := hc.linkcnt x
    have h2 := hi.linkcnt x
    have h3 := hc.plinks hl x
    have h4 := up_eq ho x
    split_ifs at h1 h3 h4 <;> omega
  case opencnt =>
    intro x
    have h1 := hc.opencnt x
    have h2 := hi.opencnt x
    have h3 := hc.plinks hl x
    have h4 := up_eq ho x
    rw [bump]
    split_ifs at h1 h3 h4 ⊢ <;> omega
  case refcnt =>
    intro x
    have h1 := hc.refcnt x
    have h2 := hi.refcnt x
    have h3 := hc.plinks hl x
    have h4 := up_eq ho x
    have h5 := hc.length hl x
    rw [bump,bump]
    split_ifs at h1 h3 h4 h5 ⊢ <;> omega
  case live =>
    intro x hx
    rw [hc.stdatas]
    refine hi.live x ?_
    have h4 := up_eq ho x
    have h5 := hc.length hl x
    rw [bump,bump] at hx
    by_cases hxd : x = hd
    · rw [hxd]
      omega
    · rw [if_neg hxd] at hx h5
      split_ifs at hx h4 <;> omega
  case used =>
    intro x hx
    rw [hc.stdatas] at hx
    have h0 := hi.used x hx
    have h1 := hc.refcnt x
    have h2 := hi.refcnt x
    have h3 := hc.plinks hl x
    have h5 := hc.length hl x
    split_ifs at h1 h3 h5 <;> omega
  case nodup => exact hc.stdatas ▸ hi.nodup

theorem shrunk (hc : Cut s t hd hp (pre ++ rest)) (hl : s.lowers hd = pre ++ hp :: rest) : Shrunk s t owner hd where
  toKin := hc.toKin
  sub h := by
    by_cases hh : h = hd
    · subst hh
      rw [hc.lowers_self,hl]
      exact (List.sublist_cons_self ..).append_left pre
    · rw [hc.lowers_ne hh]
  away h hn := hc.lowers_ne fun hh => hn (hh ▸ Below.refl ..)
  mxCmd := hc.mxCmd
  mxIndex := hc.mxIndex
  stdatas := hc.stdatas ▸ List.Sublist.refl _
  lost := hc.lost

theorem links_lt (hc : Cut s t hd hp low) (hi : Inv s opens held extra owner) (ho : owner hp = some hd) :
    links t (Function.update owner hp none) < links s owner := by
  have hm : hp ∈ s.str.stdatas := hi.live hp (by rw [up_some ho]; omega)
  have hcongr : links t (Function.update owner hp none) = (s.str.stdatas.erase hp).countP fun x => (owner x).isSome := by
    rw [links,hc.stdatas,(List.perm_cons_erase hm).countP_eq,List.countP_cons,Function.update_self,if_neg (by simp)]
    refine List.countP_congr fun x hx => ?_
    rw [Function.update_of_ne fun he => ?_]
    rw [he] at hx
    exact hi.nodup.not_mem_erase hx
  rw [hcongr,links,(List.perm_cons_erase hm).countP_eq,List.countP_cons,ho]
  simp

end Cut

/-! ### The loop and the close -/

variable {doclose : ℕ → Muxes → Option Muxes} {d : Driver} {lIndex : ℤ} {cmd : Ucmd} {n fuel : ℕ}

/- `doclose` closes the streams that have been opened, as long as less than `n` streams are lower ones. -/
def Closes (doclose : ℕ → Muxes → Option Muxes) (n : ℕ) (extra : ℕ → ℕ) : Prop :=
  ∀ s opens held owner h, Inv s (bump opens h) held extra owner → links s owner < n →
    ∃ t owner', doclose h s = some t ∧ Inv t opens held extra owner' ∧ Shrunk s t owner h

theorem Closes.mono {m : ℕ} (hc : Closes doclose n extra) (hm : m ≤ n) : Closes doclose m extra :=
  fun s opens held owner h hi hl => hc s opens held owner h hi (hl.trans_le hm)

/- The stream that is no lower one any more is closed, or one of its opens is given back. -/
theorem Inv.unlinkLower_eq (doclose : ℕ → Muxes → Option Muxes) (rtn : ℤ) (hi : Inv s opens held extra owner)
    (hl : s.lowers hd = pre ++ hp :: rest) (hh : 0 < opens hd + held hd) : ∃ u, Cut s u hd hp (pre ++ rest) ∧
      s.unlinkLower doclose hd hp pre.getLast? rtn = ((if (u.head hp).sdOpencnt = 1 then doclose hp u
        else some ((u.decOpencnt hp).headPut hp)).map fun t => (rtn,t.headPut hd)) := by
  obtain ⟨s1,hs1,hc⟩ := hi.cut hl hh
  refine ⟨s1.unplex hd hp,hc,?_⟩
  have hpos : 0 < ((s1.unplex hd hp).head hp).sdOpencnt := by
    have := (hc.inv hi hl hh).opencnt hp
    rw [bump_self] at this
    omega
  rw [Muxes.unlinkLower,hs1,Option.bind_some]
  by_cases h1 : ((s1.unplex hd hp).head hp).sdOpencnt = 1
  · simp only [if_pos h1,Option.map_map]
    rfl
  · simp only [if_neg h1,if_pos (by omega : 1 < ((s1.unplex hd hp).head hp).sdOpencnt)]
    rfl

/- One lower stream is unlinked. -/
theorem Inv.unlinkLower (rtn : ℤ) (hi : Inv s opens held extra owner) (hl : s.lowers hd = pre ++ hp :: rest)
    (hh : 0 < opens hd + held hd) (hdc : Closes doclose (links s owner) extra) :
    ∃ t owner', s.unlinkLower doclose hd hp pre.getLast? rtn = some (rtn,t) ∧ Inv t opens held extra owner' ∧
      Shrunk s t owner hd ∧ t.lowers hd = pre ++ rest := by
  have ho : owner hp = some hd := (hi.owned hp hd).mp (hl ▸ List.mem_append_right _ (List.mem_cons_self ..))
  obtain ⟨u,hc,heq⟩ := hi.unlinkLower_eq doclose rtn hl hh
  have hiu : Inv u (bump opens hp) (bump held hd) extra (Function.update owner hp none) := hc.inv hi hl hh
  obtain ⟨t,owner',ht,hit,hst⟩ : ∃ t owner', (if (u.head hp).sdOpencnt = 1 then doclose hp u
      else some ((u.decOpencnt hp).headPut hp)) = some t ∧ Inv t opens (bump held hd) extra owner' ∧
        Shrunk u t (Function.update owner hp none) hp := by
    by_cases h1 : (u.head hp).sdOpencnt = 1
    · rw [if_pos h1]
      exact hdc u opens (bump held hd) _ hp hiu (hc.links_lt hi ho)
    · refine ⟨_,_,if_neg h1,hiu.decOpencnt.headPut,?_⟩
      have hdec : Shrunk u (u.decOpencnt hp) (Function.update owner hp none) hp :=
        (like_decOpencnt u hp).shrunk (List.Sublist.refl _)
      exact hdec.trans ((like_headPut _ hp).shrunk (headPut_sublist ..)) fun h hb => hb
  have hbelow (h : ℕ) (hb : Below (Function.update owner hp none) h hp) : Below owner h hd :=
    (hb.mono fun x h hx => Cut.owner_le hx).trans (Below.owned ho)
  have hput : Shrunk t (t.headPut hd) owner hd := (like_headPut t hd).shrunk (headPut_sublist ..)
  refine ⟨t.headPut hd,owner',by rw [heq,ht,Option.map_some],hit.headPut,
    ((hc.shrunk hl).trans hst hbelow).trans hput fun h hb => hb,?_⟩
  rw [(like_headPut t hd).lowers,hst.away hd ?_,hc.lowers_self]
  exact fun hb => hi.forest.not_below ho (hb.mono fun x h hx => Cut.owner_le hx)

/- The results of the driver that the loop meets. -/
def refusals (s : Muxes) (d : Driver) (hd : ℕ) (lIndex : ℤ) (cmd : Ucmd) (l : List ℕ) : List ℤ :=
  l.filterMap fun x => if s.Skipped lIndex cmd x then none else d.refuses cmd hd x

/- The lower streams that stay: those that are skipped or refused. -/
def stays (s : Muxes) (d : Driver) (hd : ℕ) (lIndex : ℤ) (cmd : Ucmd) (x : ℕ) : Bool :=
  decide (s.Skipped lIndex cmd x) || (d.refuses cmd hd x).isSome

theorem Shrunk.skipped (hs : Shrunk s t owner h) (x : ℕ) : t.Skipped lIndex cmd x ↔ s.Skipped lIndex cmd x := by
  rw [Muxes.Skipped,Muxes.Skipped,hs.mxCmd,hs.mxIndex]

theorem Shrunk.stays_eq (hs : Shrunk s t owner h) : stays t d hd lIndex cmd = stays s d hd lIndex cmd :=
  funext fun x => by simp only [stays,hs.skipped]

theorem Shrunk.refusals_eq (hs : Shrunk s t owner h) (l : List ℕ) :
    refusals t d hd lIndex cmd l = refusals s d hd lIndex cmd l := by
  simp only [refusals,hs.skipped]

/- An index is that of one lower stream only. -/
theorem Inv.skipped_rest (hi : Inv s opens held extra owner) (hl : s.lowers hd = pre ++ hp :: rest)
    (hx : 0 ≤ lIndex) (hn : ¬s.Skipped lIndex cmd hp) : ∀ x ∈ rest, s.Skipped lIndex cmd x := by
  intro x hxr
  have hmem (y) (hy : y ∈ hp :: rest) : owner y = some hd := (hi.owned y hd).mp (hl ▸ List.mem_append_right _ hy)
  have hlive (y) (hy : y ∈ hp :: rest) : y ∈ s.str.stdatas := hi.live y (by rw [up_some (hmem y hy)]; omega)
  have hidx : ((s.head hp).mxIndex : ℤ) = lIndex := by
    by_contra hc
    exact hn (Or.inl ⟨hx,hc⟩)
  refine Or.inl ⟨hx,fun he => ?_⟩
  have heq : hp = x := by
    refine hi.distinct hp (hlive hp (List.mem_cons_self ..)) x (hlive x (List.mem_cons_of_mem _ hxr)) ?_ ?_
    · exact Int.ofNat_inj.mp (hidx.trans he.symm)
    · exact hi.positive hp (by rw [hmem hp (List.mem_cons_self ..)]; simp)
  have hnd : (pre ++ hp :: rest).Nodup := hl ▸ (hi.lists hd).nodup
  exact (List.nodup_cons.mp (List.nodup_append.mp hnd).2.1).1 (heq ▸ hxr)

theorem filter_stays (d : Driver) (hd : ℕ) (h : ∀ x ∈ rest, s.Skipped lIndex cmd x) :
    rest.filter (stays s d hd lIndex cmd) = rest ∧ refusals s d hd lIndex cmd rest = [] := by
  constructor
  · exact List.filter_eq_self.mpr fun x hx => by simp [stays,h x hx]
  · exact List.filterMap_eq_nil_iff.mpr fun x hx => if_pos (h x hx)

/- The result of the loop is the last refusal, and what was neither skipped nor refused is unlinked. -/
theorem Inv.iUnlinkLoop (d : Driver) (lIndex : ℤ) (cmd : Ucmd) (rtn : ℤ) (hi : Inv s opens held extra owner)
    (hl : s.lowers hd = pre ++ rest) (hh : 0 < opens hd + held hd) (hdc : Closes doclose (links s owner) extra)
    (hf : rest.length < fuel) :
    ∃ t owner', iUnlinkLoop doclose d hd lIndex cmd fuel rest.head? pre.getLast? rtn s =
        some ((refusals s d hd lIndex cmd rest).getLast?.getD rtn,t) ∧ Inv t opens held extra owner' ∧
      Shrunk s t owner hd ∧ t.lowers hd = pre ++ rest.filter (stays s d hd lIndex cmd) := by
  induction rest generalizing pre rtn fuel s owner with
  | nil =>
    obtain ⟨fuel,rfl⟩ := Nat.exists_eq_add_one_of_ne_zero (Nat.ne_of_gt hf)
    exact ⟨s,owner,rfl,hi,Shrunk.refl s,hl⟩
  | cons hp rest ih =>
    obtain ⟨fuel,rfl⟩ := Nat.exists_eq_add_one_of_ne_zero (Nat.ne_of_gt (Nat.zero_lt_of_lt hf))
    rw [List.length_cons,Nat.add_lt_add_iff_right] at hf
    have hnext : s.next hp = rest.head? := by
      have hth := hi.lists hd
      rw [hl] at hth
      exact hth.suffix.2.head
    have hsnoc : (pre ++ [hp]).getLast? = some hp := List.getLast?_concat
    have hl' : s.lowers hd = (pre ++ [hp]) ++ rest := by rw [hl,List.append_assoc]; rfl
    rw [List.head?_cons,Mux.iUnlinkLoop,hnext]
    by_cases hsk : s.Skipped lIndex cmd hp
    · -- it is skipped
      have hst : stays s d hd lIndex cmd hp = true := by simp [stays,hsk]
      obtain ⟨t,owner',ht,hit,hs,hlow⟩ := ih rtn hi hl' hdc hf
      rw [hsnoc] at ht
      refine ⟨t,owner',?_,hit,hs,?_⟩
      · rw [if_pos hsk,ht,refusals,refusals,List.filterMap_cons,if_pos hsk]
      · rw [hlow,List.filter_cons_of_pos hst,List.append_assoc]
        rfl
    · rw [if_neg hsk]
      cases hr : d.refuses cmd hd hp with
      | some err =>
        -- the driver refuses, or the wait for the queue fails
        have hst : stays s d hd lIndex cmd hp = true := by simp [stays,hr]
        have hrf : refusals s d hd lIndex cmd (hp :: rest) = err :: refusals s d hd lIndex cmd rest := by
          rw [refusals,List.filterMap_cons,if_neg hsk,hr]
          rfl
        rw [hrf,List.filter_cons_of_pos hst,List.getLast?_cons,Option.getD_some]
        by_cases hx : lIndex < 0
        · obtain ⟨t,owner',ht,hit,hs,hlow⟩ := ih err hi hl' hdc hf
          rw [hsnoc] at ht
          refine ⟨t,owner',?_,hit,hs,?_⟩
          · simp only [if_pos hx]
            exact ht
          · rw [hlow,List.append_assoc]
            rfl
        · have hrest := hi.skipped_rest hl (not_lt.mp hx) hsk
          obtain ⟨h1,h2⟩ := filter_stays d hd hrest
          refine ⟨s,owner,?_,hi,Shrunk.refl s,by rw [h1,hl]⟩
          simp only [if_neg hx,h2]
          rfl
      | none =>
        have hst : stays s d hd lIndex cmd hp = false := by simp [stays,hr,hsk]
        have hrf : refusals s d hd lIndex cmd (hp :: rest) = refusals s d hd lIndex cmd rest := by
          rw [refusals,List.filterMap_cons,if_neg hsk,hr]
          rfl
        obtain ⟨u,owner1,hu,hiu,hsu,hlu⟩ := hi.unlinkLower rtn hl hh hdc
        rw [hrf,List.filter_cons_of_neg (by rw [hst]; exact Bool.false_ne_true)]
        simp only [hu,Option.bind_some]
        have hle : ∀ x h, owner1 x = some h → owner x = some h := fun x h ho => hsu.owner_le hi hiu ho
        by_cases hx : lIndex < 0
        · obtain ⟨t,owner',ht,hit,hs,hlow⟩ := ih rtn hiu hlu (hdc.mono (links_le hsu.stdatas hle)) hf
          rw [hsu.refusals_eq] at ht
          rw [hsu.stays_eq] at hlow
          exact ⟨t,owner',by rw [if_pos hx,ht],hit,hsu.trans hs fun h hb => hb.mono hle,hlow⟩
        · have hrest := hi.skipped_rest hl (not_lt.mp hx) hsk
          obtain ⟨h1,h2⟩ := filter_stays d hd hrest
          refine ⟨u,owner1,by rw [if_neg hx,h2]; rfl,hiu,hsu,?_⟩
          rw [hlu,h1]

theorem closes_lisDoclose (d : Driver) (extra : ℕ → ℕ) (hf : n < fuel) : Closes (lisDoclose d fuel) n extra := by
  induction fuel generalizing n with
  | zero => exact absurd hf (Nat.not_lt_zero n)
  | succ fuel ih =>
    intro s opens held owner h hi hlt
    have hpos : 0 < (s.head h).sdOpencnt := by
      have := hi.opencnt h
      rw [bump_self] at this
      omega
    have hi1 := hi.decOpencnt
    have hl1 : links (s.decOpencnt h) owner = links s owner := rfl
    have hs1 : Shrunk s (s.decOpencnt h) owner h := (like_decOpencnt s h).shrunk (List.Sublist.refl _)
    have hput (t : Muxes) : Shrunk t (t.headPut h) owner h := (like_headPut t h).shrunk (headPut_sublist ..)
    rw [lisDoclose,if_pos hpos]
    by_cases hz : ((s.decOpencnt h).head h).sdOpencnt = 0
    · have hlen := hi1.lowers_length_le h
      have hlow : (s.decOpencnt h).lowers h = [] ++ (s.decOpencnt h).lowers h := rfl
      obtain ⟨t,owner',ht,hit,hst,-⟩ := hi1.iUnlinkLoop d (-1) .punlink 0 hlow
        (by rw [bump_self]; omega) (ih (by omega)) (by omega : ((s.decOpencnt h).lowers h).length < fuel)
      refine ⟨t.headPut h,owner',?_,hit.headPut,(hs1.trans hst fun x hb => hb).trans (hput t) fun x hb => hb⟩
      simp only [if_pos hz,(hi1.lists h).head]
      rw [List.getLast?_nil] at ht
      rw [ht,Option.map_some,Option.map_some]
    · exact ⟨_,owner,by rw [if_neg hz]; rfl,hi1.headPut,hs1.trans (hput _) fun x hb => hb⟩

end CSLiS.Mux
