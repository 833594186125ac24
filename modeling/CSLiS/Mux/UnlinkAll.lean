import CSLiS.Mux.Dismantle

/-!
# All multiplexors of a driver (head/head.c)

`lis_unlink_all` takes the control streams of a major apart, one after the other. It does what it should as long as
100 of them are enough.
-/

namespace CSLiS.Mux

open Lib Lib.Forest Muxes

variable {s t u : Muxes} {opens held extra opens' held' extra' : ℕ → ℕ} {owner owner' : ℕ → Option ℕ}
  {d : Driver} {h hd hdp maj calls fuel again n : ℕ} {w w' : Walk} {pre rest : List ℕ}

/- The lists and the counters are in order, whatever opens and references there are. -/
def Formed (s : Muxes) : Prop := ∃ opens held extra owner, Inv s opens held extra owner

/- The control streams of the major can be taken apart one after the other, the first one on the list each time, and
none is left after `n` of them. -/
def FewLeft (d : Driver) (calls maj : ℕ) : ℕ → Muxes → Prop
  | 0, s => ∀ h ∈ s.str.stdatas, ¬s.IsCtl maj h
  | n + 1, s =>
      match s.str.stdatas.find? fun h => decide (s.IsCtl maj h) with
      | none => True
      | some hdp => ∃ r, s.takeApart d calls hdp = some r ∧ FewLeft d calls maj n r.2

/- No lower stream of the major refuses, the errors of the driver do not matter to `I_PUNLINK`. -/
def Agreed (s : Muxes) (d : Driver) (maj : ℕ) : Prop :=
  ∀ h ∈ s.str.stdatas, s.major h = maj → ∀ x ∈ s.lowers h, 0 ≤ d.await h x

/- What `lis_unlink_all` has to do: it comes back, it holds the lock exactly while it follows `sd_next` and never
follows a head that is freed, and no lower stream is left under a control stream of the major, nor lost, if none
refuses. -/
def Right (s : Muxes) (d : Driver) (fuel hd : ℕ) : Prop :=
  ∃ w, lisUnlinkAll d fuel hd s = some w ∧ w.ok = true ∧ w.locked = false ∧
    (Agreed s d (s.major hd) → w.mux.lost = s.lost ∧
      ∀ h ∈ w.mux.str.stdatas, w.mux.major h = s.major hd → w.mux.lowers h = [])

/-! ### Dropping what was refused -/

theorem Muxes.drop_head (s : Muxes) (h x : ℕ) :
    (s.drop h).head x = { s.head x with mxHd := if x = h then none else (s.head x).mxHd } := by
  have hu : (s.drop h).head x = (s.upd h fun m => { m with mxHd := none }).head x := rfl
  rw [hu,upd_head]
  split_ifs <;> rfl

theorem Inv.drop (hi : Inv s (bump opens h) held extra owner) : ∃ opens' held' extra' owner',
    Inv (s.drop h) (bump opens' h) held' extra' owner' ∧ (∀ x k, owner' x = some k → owner x = some k) ∧
      (s.lowers h = [] → opens' = opens ∧ held' = held ∧ extra' = extra) := by
  let lost (x : ℕ) : ℕ := if owner x = some h then 1 else 0
  let pl (x : ℕ) : ℕ := if x = h then s.plinks h else 0
  let owner' (x : ℕ) : Option ℕ := if owner x = some h then none else owner x
  have hle (x k) (hk : owner' x = some k) : owner x = some k ∧ k ≠ h := by
    simp only [owner'] at hk
    split_ifs at hk with hx
    exact ⟨hk,fun he => hx (he ▸ hk)⟩
  have hup (x) : up owner' x + lost x = up owner x := by
    simp only [lost,owner',up]
    split_ifs with hx
    · rw [hx]
      rfl
    · rfl
  have hlow (x) : (s.drop h).lowers x = if x = h then [] else s.lowers x := Function.update_apply ..
  have hhead (x) := drop_head s h x
  have hpl (x) : (s.drop h).plinks x + pl x = s.plinks x := by
    have hcongr : (s.drop h).plinks x = ((s.drop h).lowers x).countP fun y => (s.head y).mxCmd == .plink :=
      List.countP_congr fun y _ => by rw [hhead]
    simp only [hcongr,pl,hlow]
    split_ifs with hx
    · rw [hx,List.countP_nil,Nat.zero_add]
    · rfl
  have hlen (x) : ((s.drop h).lowers x).length + (if x = h then (s.lowers h).length else 0) = (s.lowers x).length := by
    rw [hlow]
    split_ifs with hx
    · rw [hx,List.length_nil,Nat.zero_add]
    · rfl
  refine ⟨fun x => opens x + lost x + pl x,fun x => held x + if x = h then (s.lowers h).length else 0,
    fun x => extra x + lost x + pl x,owner',?_,fun x k hk => (hle x k hk).1,fun hnil => ?_⟩
  · constructor
    case lists =>
      intro k
      have hnext : (s.drop h).next = s.next := funext fun x => by rw [Muxes.next,hhead]; rfl
      rw [hnext,hhead,hlow]
      simp only
      split_ifs with hk
      · exact rfl
      · exact hi.lists k
    case owned =>
      intro x k
      rw [hlow]
      split_ifs with hk
      · exact iff_of_false List.not_mem_nil fun hc => (hle x k hc).2 hk
      · rw [hi.owned]
        refine ⟨fun ho => ?_,fun ho => (hle x k ho).1⟩
        simp only [owner']
        rw [if_neg fun hc => hk (Option.some.inj (ho.symm.trans hc)),ho]
    case forest => exact hi.forest.mono fun x k hk => (hle x k hk).1
    case plex =>
      intro x hx
      rw [hhead]
      refine hi.plex x fun hn => hx ?_
      simp only [owner',hn,ite_self]
    case distinct =>
      intro x hx y hy he hz
      rw [hhead x,hhead y] at he
      rw [hhead x] at hz
      exact hi.distinct x hx y hy he hz
    case positive =>
      intro x hx
      rw [hhead]
      refine hi.positive x fun hn => hx ?_
      simp only [owner',hn,ite_self]
    case linkcnt =>
      intro x
      have h0 := hi.linkcnt x
      have h1 := hup x
      have h2 := hpl x
      rw [hhead]
      simp only
      omega
    case opencnt =>
      intro x
      have h0 := hi.opencnt x
      have h1 := hup x
      have h2 := hpl x
      rw [hhead]
      simp only [bump] at h0 ⊢
      omega
    case refcnt =>
      intro x
      have h0 := hi.refcnt x
      have h1 := hup x
      have h2 := hpl x
      have h3 := hlen x
      rw [hhead]
      simp only [bump] at h0 ⊢
      omega
    case live =>
      intro x hx
      refine hi.live x ?_
      have h1 := hup x
      have h3 := hlen x
      have h4 : pl x ≤ (if x = h then (s.lowers h).length else 0) := by
        simp only [pl]
        split_ifs
        · exact List.countP_le_length
        · exact le_rfl
      simp only [bump] at hx ⊢
      omega
    case used =>
      intro x hx
      rw [hhead]
      exact hi.used x hx
    case nodup => exact hi.nodup
  · have hz (x) : lost x = 0 := by
      refine if_neg fun ho => ?_
      have := (hi.owned x h).mpr ho
      rw [hnil] at this
      exact List.not_mem_nil this
    have hp (x) : pl x = 0 := by
      simp only [pl]
      split_ifs
      · rw [Muxes.plinks,hnil,List.countP_nil]
      · rfl
    refine ⟨funext fun x => ?_,funext fun x => ?_,funext fun x => ?_⟩
    · simp only [hz,hp,Nat.add_zero]
    · rw [hnil,List.length_nil,ite_self,Nat.add_zero]
    · simp only [hz,hp,Nat.add_zero]

/-! ### One control stream -/

/- No lower stream is left under `h`, and the lists of what is not below it are as they were. -/
structure Apart (s t : Muxes) (owner owner' : ℕ → Option ℕ) (h : ℕ) : Prop extends Kin s t where
  gone : t.lowers h = []
  sub : ∀ k, (t.lowers k).Sublist (s.lowers k)
  away : ∀ k, ¬Below owner k h → t.lowers k = s.lowers k
  owner_le : ∀ x k, owner' x = some k → owner x = some k
  stdatas : t.str.stdatas.Sublist s.str.stdatas

theorem Inv.isCtl_iff (hi : Inv s opens held extra owner) : s.IsCtl maj h ↔ s.major h = maj ∧ s.lowers h ≠ [] := by
  rw [Muxes.IsCtl,(hi.lists h).head,Ne,Ne,List.head?_eq_none_iff]

theorem refuses_punlink (d : Driver) (hd hp : ℕ) :
    d.refuses .punlink hd hp = if d.await hd hp < 0 then some (d.await hd hp) else none := by
  rw [Driver.refuses,if_neg (fun hc => Ucmd.noConfusion hc.2 : ¬(d.ioctl hd hp < 0 ∧ Ucmd.punlink = .unlink))]

theorem not_skipped_all (s : Muxes) (x : ℕ) : ¬s.Skipped (-1) .punlink x := by
  rintro (⟨h,-⟩ | ⟨h,-⟩)
  · omega
  · cases h

/- Without a refusal the loop takes all. -/
theorem unrefused {l : List ℕ} (hr : ∀ x ∈ l, 0 ≤ d.await h x) :
    l.filter (stays s d h (-1) .punlink) = [] ∧ refusals s d h (-1) .punlink l = [] := by
  constructor
  · refine List.filter_eq_nil_iff.mpr fun x hx => ?_
    simp only [stays,refuses_punlink,if_neg (not_lt.mpr (hr x hx)),decide_eq_false (not_skipped_all s x)]
    exact Bool.false_ne_true
  · refine List.filterMap_eq_nil_iff.mpr fun x hx => ?_
    rw [if_neg (not_skipped_all s x),refuses_punlink,if_neg (not_lt.mpr (hr x hx))]

theorem Inv.lisIUnlink (calls : ℕ) (d : Driver) (lIndex : ℤ) (cmd : Ucmd) (hi : Inv s opens held extra owner)
    (hh : 0 < opens h + held h) (hf : links s owner < calls) :
    ∃ t owner', lisIUnlink d calls h lIndex cmd s =
        some ((refusals s d h lIndex cmd (s.lowers h)).getLast?.getD 0,t) ∧ Inv t opens held extra owner' ∧
      Shrunk s t owner h ∧ t.lowers h = (s.lowers h).filter (stays s d h lIndex cmd) := by
  have hlow : s.lowers h = [] ++ s.lowers h := rfl
  obtain ⟨t,owner',ht,hrest⟩ := hi.iUnlinkLoop d lIndex cmd 0 hlow hh (closes_lisDoclose d extra hf)
    ((hi.lowers_length_le h).trans_lt hf)
  refine ⟨t,owner',?_,hrest⟩
  rw [Mux.lisIUnlink,(hi.lists h).head]
  exact ht

theorem Inv.takeApart (d : Driver) (hi : Inv s opens held extra owner) (hm : h ∈ s.str.stdatas)
    (hf : links s owner + 1 < calls) :
    ∃ r t opens' held' extra' owner', s.takeApart d calls h = some (r,t) ∧ Inv t opens' held' extra' owner' ∧
      Apart s t owner owner' h ∧ ((∀ x ∈ s.lowers h, 0 ≤ d.await h x) →
        r = 0 ∧ t.lost = s.lost ∧ opens' = opens ∧ held' = held ∧ extra' = extra) := by
  have hi1 := hi.opened hm
  have hl1 := like_opened s h
  obtain ⟨t1,owner1,ht1,hit1,hs1,hlow1⟩ := hi1.lisIUnlink calls d (-1) .punlink (by rw [bump_self]; omega)
    ((Nat.lt_succ_self _).trans hf)
  have hs1' : Shrunk s t1 owner h :=
    (hl1.shrunk (List.Sublist.refl _) : Shrunk s (s.opened h) owner h).trans hs1 fun k hb => hb
  have hle1 (x k) (ho : owner1 x = some k) : owner x = some k := hs1.owner_le hi1 hit1 ho
  obtain ⟨opens',held',extra',owner2,hi2,hle2,hsame⟩ := hit1.drop
  have hle2' (x k) (ho : owner2 x = some k) : owner x = some k := hle1 x k (hle2 x k ho)
  have hlinks : links (t1.drop h) owner2 < links s owner + 1 := Nat.lt_succ_of_le (links_le hs1'.stdatas hle2')
  obtain ⟨t,owner',ht,hit,hs⟩ := closes_lisDoclose d extra' hf (t1.drop h) opens' held' owner2 h hi2 hlinks
  have hdrop (k) : (t1.drop h).lowers k = if k = h then [] else t1.lowers k := Function.update_apply ..
  refine ⟨(refusals (s.opened h) d h (-1) .punlink ((s.opened h).lowers h)).getLast?.getD 0,t,opens',held',extra',
    owner',?_,hit,?_,fun hr => ?_⟩
  · rw [Muxes.takeApart,ht1,Option.bind_some]
    simp only [ht]
    rfl
  · constructor
    case gone =>
      have hsub := hs.sub h
      rw [hdrop,if_pos rfl] at hsub
      exact List.sublist_nil.mp hsub
    case sub =>
      intro k
      have hsub := hs.sub k
      rw [hdrop] at hsub
      split_ifs at hsub with hk
      · rw [List.sublist_nil.mp hsub]
        exact List.nil_sublist _
      · exact hsub.trans (hs1'.sub k)
    case away =>
      intro k hk
      have hkh : k ≠ h := by
        rintro rfl
        exact hk (Below.refl ..)
      rw [hs.away k fun hb => hk (hb.mono hle2'),hdrop,if_neg hkh,hs1'.away k hk]
    case owner_le => exact fun x k ho => hle2' x k (hs.owner_le hi2 hit ho)
    case stdatas => exact hs.stdatas.trans hs1'.stdatas
    case toKin => exact hs1'.toKin.trans ⟨hs.muxid,hs.major,hs.files⟩
  · rw [← hl1.lowers] at hr
    obtain ⟨h1,h2⟩ := unrefused (s := s.opened h) hr
    rw [h1] at hlow1
    refine ⟨by rw [h2]; rfl,?_,hsame hlow1⟩
    rw [hs.lost,Muxes.drop,hlow1,List.nil_append]
    exact hs1'.lost

/-! ### The walk -/

def ctls (s : Muxes) (maj : ℕ) : ℕ := s.str.stdatas.countP fun h => decide (s.IsCtl maj h)

theorem find_ctl (hs : s.str.stdatas = pre ++ hdp :: rest) (hpre : ∀ h ∈ pre, ¬s.IsCtl maj h) (hc : s.IsCtl maj hdp) :
    (s.str.stdatas.find? fun h => decide (s.IsCtl maj h)) = some hdp := by
  rw [hs,List.find?_append,List.find?_eq_none.mpr fun h hh => by simpa using hpre h hh,Option.none_or,List.find?_cons,
    decide_eq_true hc]

theorem fewLeft_none (hn : ∀ h ∈ s.str.stdatas, ¬s.IsCtl maj h) (n : ℕ) : FewLeft d calls maj n s := by
  cases n with
  | zero => exact hn
  | succ n =>
    rw [FewLeft,List.find?_eq_none.mpr fun h hh => by simpa using hn h hh]
    trivial

/- A control stream is taken apart, and no other stream becomes one. -/
theorem ctls_lt (hi : Inv s opens held extra owner) (ht : Inv t opens' held' extra' owner')
    (ha : Apart s t owner owner' h) (hm : h ∈ s.str.stdatas) (hc : s.IsCtl maj h) : ctls t maj < ctls s maj := by
  have hle : ctls t maj ≤ t.str.stdatas.countP fun k => decide (s.IsCtl maj k) && k != h := by
    refine List.countP_mono_left fun k _ hk => ?_
    rw [decide_eq_true_eq,ht.isCtl_iff,ha.major] at hk
    rw [Bool.and_eq_true,decide_eq_true_eq,hi.isCtl_iff,bne_iff_ne]
    refine ⟨⟨hk.1,fun hn => hk.2 ?_⟩,fun he => hk.2 (he ▸ ha.gone)⟩
    have hsub := ha.sub k
    rw [hn] at hsub
    exact List.sublist_nil.mp hsub
  have hlt : (s.str.stdatas.countP fun k => decide (s.IsCtl maj k) && k != h) < ctls s maj := by
    rw [ctls,(List.perm_cons_erase hm).countP_eq,(List.perm_cons_erase hm).countP_eq,List.countP_cons,List.countP_cons]
    have hmono : ((s.str.stdatas.erase h).countP fun k => decide (s.IsCtl maj k) && k != h) ≤
        (s.str.stdatas.erase h).countP fun k => decide (s.IsCtl maj k) :=
      List.countP_mono_left fun k _ hk => (Bool.and_eq_true_iff.mp hk).1
    simp only [bne_self_eq_false,Bool.and_false,hc,decide_true]
    simp only [Bool.false_eq_true,if_false,if_true]
    omega
  exact (hle.trans ha.stdatas.countP_le).trans_lt hlt

theorem Agreed.apart (hag : Agreed s d maj) (ha : Apart s t owner owner' h) : Agreed t d maj := by
  intro k hk hmaj x hx
  exact hag k (ha.stdatas.subset hk) (ha.major ▸ hmaj) x ((ha.sub k).subset hx)

/- What a walk that is right has done. -/
structure Walked (s : Muxes) (opens held extra : ℕ → ℕ) (d : Driver) (maj : ℕ) (w : Walk) : Prop
    extends Kin s w.mux where
  ok : w.ok = true
  unlocked : w.locked = false
  formed : Formed w.mux
  none : ∀ h ∈ w.mux.str.stdatas, ¬w.mux.IsCtl maj h
  agreed : Agreed s d maj → w.mux.lost = s.lost ∧ ∃ owner, Inv w.mux opens held extra owner

theorem follow_ok {rtn : ℤ} (hm : hdp ∈ s.str.stdatas) :
    (⟨rtn,s,true,true⟩ : Walk).follow hdp = ⟨rtn,s,true,true⟩ := by
  rw [Walk.follow]
  simp only [List.contains_iff_mem.mpr hm,Bool.and_self]

theorem walked_of_fewLeft (rtn : ℤ) (hi : Inv s opens held extra owner) (hs : s.str.stdatas = pre ++ rest)
    (hpre : ∀ h ∈ pre, ¬s.IsCtl maj h) (hcalls : links s owner + 1 < calls) (hn : again + n = 100)
    (hf : rest.length + ctls s maj * (s.str.stdatas.length + 1) < fuel) (hfew : FewLeft d calls maj n s) :
    ∃ w, unlinkAllLoop d calls maj fuel again rest ⟨rtn,s,true,true⟩ = some w ∧ Walked s opens held extra d maj w := by
  induction fuel generalizing s opens held extra owner pre rest rtn again n with
  | zero => exact absurd hf (Nat.not_lt_zero _)
  | succ fuel ih =>
    cases rest with
    | nil =>
      refine ⟨_,rfl,⟨rfl,rfl,rfl⟩,rfl,rfl,⟨_,_,_,_,hi⟩,?_,fun _ => ⟨rfl,_,hi⟩⟩
      rw [List.append_nil] at hs
      exact fun h hh => hpre h (hs ▸ hh)
    | cons hdp rest =>
      have hm : hdp ∈ s.str.stdatas := hs ▸ List.mem_append_right _ (List.mem_cons_self ..)
      rw [List.length_cons] at hf
      rw [unlinkAllLoop]
      by_cases hc : s.IsCtl maj hdp
      · rw [if_neg (not_not_intro hc)]
        cases n with
        | zero => exact absurd hc (hfew hdp hm)
        | succ n =>
          rw [FewLeft,find_ctl hs hpre hc] at hfew
          obtain ⟨r,hr,hfew'⟩ := hfew
          obtain ⟨r0,t,opens',held',extra',owner',ht,hit,ha,hun⟩ := hi.takeApart d hm hcalls
          obtain rfl := Option.some.inj (hr.symm.trans ht)
          have hlt := ctls_lt hi hit ha hm hc
          have hlen := ha.stdatas.length_le
          have hlinks : links t owner' ≤ links s owner := links_le ha.stdatas ha.owner_le
          have hsame (hag : Agreed s d maj) := (hun fun x hx => hag hdp hm (hi.isCtl_iff.mp hc).1 x hx).2
          simp only [hr,Option.bind_some,if_pos (by omega : again < 100)]
          by_cases hnil : t.str.stdatas = []
          · rw [if_pos hnil]
            refine ⟨_,rfl,ha.toKin,rfl,rfl,⟨_,_,_,_,hit⟩,fun h hh => ?_,fun hag => ?_⟩
            · rw [hnil] at hh
              exact absurd hh List.not_mem_nil
            · obtain ⟨hlost,rfl,rfl,rfl⟩ := hsame hag
              exact ⟨hlost,_,hit⟩
          · rw [if_neg hnil]
            have hf' : t.str.stdatas.length + ctls t maj * (t.str.stdatas.length + 1) < fuel := by
              have h1 : (ctls t maj + 1) * (s.str.stdatas.length + 1) ≤ ctls s maj * (s.str.stdatas.length + 1) :=
                Nat.mul_le_mul_right _ hlt
              have h2 : ctls t maj * (t.str.stdatas.length + 1) ≤ ctls t maj * (s.str.stdatas.length + 1) :=
                Nat.mul_le_mul_left _ (Nat.add_le_add_right hlen 1)
              rw [Nat.add_mul,Nat.one_mul] at h1
              omega
            obtain ⟨w,hw,hwd⟩ := ih (if r0 < 0 then r0 else rtn) hit (List.nil_append _).symm
              (fun h hh => absurd hh List.not_mem_nil) (by omega) (by omega : again + 1 + n = 100) hf' hfew'
            refine ⟨w,hw,ha.toKin.trans hwd.toKin,hwd.ok,hwd.unlocked,hwd.formed,hwd.none,fun hag => ?_⟩
            obtain ⟨hlost,rfl,rfl,rfl⟩ := hsame hag
            obtain ⟨hlost',hw'⟩ := hwd.agreed (hag.apart ha)
            exact ⟨hlost'.trans hlost,hw'⟩
      · rw [if_pos hc,follow_ok hm]
        have hs' : s.str.stdatas = (pre ++ [hdp]) ++ rest := by rw [hs,List.append_assoc]; rfl
        refine ih rtn hi hs' (fun h hh => ?_) hcalls hn (by omega) hfew
        rcases List.mem_append.mp hh with hh | hh
        · exact hpre h hh
        · exact List.mem_singleton.mp hh ▸ hc

/- What went wrong stays wrong. -/
theorem stays_wrong (hw : w.ok = false) (h : unlinkAllLoop d calls maj fuel again rest w = some w') :
    w'.ok = false := by
  induction fuel generalizing again rest w with
  | zero => cases h
  | succ fuel ih =>
    cases rest with
    | nil =>
      obtain rfl := Option.some.inj h
      exact Bool.and_eq_false_imp.mpr fun hc => absurd hc (by rw [hw]; exact Bool.false_ne_true)
    | cons hdp rest =>
      have hfollow (v : Walk) (hv : v.ok = false) : (v.follow hdp).ok = false := by
        simp only [Walk.follow,hv,Bool.false_and]
      rw [unlinkAllLoop] at h
      by_cases hc : w.mux.IsCtl maj hdp
      · rw [if_neg (not_not_intro hc)] at h
        obtain ⟨r,-,h⟩ := Option.bind_eq_some_iff.mp h
        have hunlock : w.unlock.ok = false := by simp only [Walk.unlock,hw,Bool.false_and]
        by_cases hlt : again < 100
        · simp only [if_pos hlt] at h
          by_cases hnil : r.2.str.stdatas = []
          · rw [if_pos hnil] at h
            obtain rfl := Option.some.inj h
            exact hunlock
          · rw [if_neg hnil] at h
            refine ih ?_ h
            simp only [Walk.lock,hunlock,Bool.false_and]
        · simp only [if_neg hlt] at h
          by_cases hm : r.2.str.stdatas.contains hdp
          · rw [if_pos hm] at h
            exact ih (by exact hfollow _ hunlock) h
          · rw [if_neg hm] at h
            obtain rfl := Option.some.inj h
            exact hfollow _ hunlock
      · rw [if_pos hc] at h
        exact ih (hfollow w hw) h

theorem wrong_of_not_fewLeft (rtn : ℤ) (hs : s.str.stdatas = pre ++ rest) (hpre : ∀ h ∈ pre, ¬s.IsCtl maj h)
    (hn : again + n = 100) (hfew : ¬FewLeft d calls maj n s)
    (h : unlinkAllLoop d calls maj fuel again rest ⟨rtn,s,true,true⟩ = some w') : w'.ok = false := by
  induction fuel generalizing s pre rest rtn again n with
  | zero => cases h
  | succ fuel ih =>
    cases rest with
    | nil =>
      rw [List.append_nil] at hs
      exact absurd (fewLeft_none (fun h hh => hpre h (hs ▸ hh)) n) hfew
    | cons hdp rest =>
      have hm : hdp ∈ s.str.stdatas := hs ▸ List.mem_append_right _ (List.mem_cons_self ..)
      rw [unlinkAllLoop] at h
      by_cases hc : s.IsCtl maj hdp
      · rw [if_neg (not_not_intro hc)] at h
        obtain ⟨r,hr,h⟩ := Option.bind_eq_some_iff.mp h
        cases n with
        | zero =>
          -- the lock is not held any more
          simp only [if_neg (by omega : ¬again < 100)] at h
          have hfollow (v : Walk) (hv : v.locked = false) : (v.follow hdp).ok = false := by
            simp only [Walk.follow,hv,Bool.and_false,Bool.false_and]
          by_cases hm' : r.2.str.stdatas.contains hdp
          · rw [if_pos hm'] at h
            exact stays_wrong (by exact hfollow _ rfl) h
          · rw [if_neg hm'] at h
            obtain rfl := Option.some.inj h
            exact hfollow _ rfl
        | succ n =>
          rw [FewLeft,find_ctl hs hpre hc] at hfew
          have hfew' : ¬FewLeft d calls maj n r.2 := fun hc => hfew ⟨r,hr,hc⟩
          simp only [if_pos (by omega : again < 100)] at h
          by_cases hnil : r.2.str.stdatas = []
          · refine absurd (fewLeft_none (fun h hh => ?_) n) hfew'
            rw [hnil] at hh
            exact absurd hh List.not_mem_nil
          · rw [if_neg hnil] at h
            exact ih _ (List.nil_append _).symm (fun h hh => absurd hh List.not_mem_nil) (by omega : again + 1 + n = 100)
              hfew' h
      · rw [if_pos hc,follow_ok hm] at h
        have hs' : s.str.stdatas = (pre ++ [hdp]) ++ rest := by rw [hs,List.append_assoc]; rfl
        refine ih rtn hs' (fun h hh => ?_) hn hfew h
        rcases List.mem_append.mp hh with hh | hh
        · exact hpre h hh
        · exact List.mem_singleton.mp hh ▸ hc

/- No lower stream is a control stream. -/
def Flat (owner : ℕ → Option ℕ) : Prop := ∀ x h, owner x = some h → owner h = none

/- Without multiplexors above multiplexors each control stream has to be taken apart by itself. -/
theorem le_of_fewLeft (hi : Inv s opens held extra owner) (hflat : Flat owner)
    (hcalls : links s owner + 1 < calls) (hfew : FewLeft d calls maj n s) : ctls s maj ≤ n := by
  induction n generalizing s opens held extra owner with
  | zero =>
    rw [Nat.le_zero,ctls,List.countP_eq_zero]
    exact fun h hh => by simpa using hfew h hh
  | succ n ih =>
    rw [FewLeft] at hfew
    cases hfind : s.str.stdatas.find? fun h => decide (s.IsCtl maj h) with
    | none =>
      rw [ctls,List.countP_eq_zero.mpr (List.find?_eq_none.mp hfind)]
      exact Nat.zero_le _
    | some hdp =>
      rw [hfind] at hfew
      obtain ⟨r,hr,hfew'⟩ := hfew
      have hm := List.mem_of_find?_eq_some hfind
      obtain ⟨r0,t,opens',held',extra',owner',ht,hit,ha,-⟩ := hi.takeApart d hm hcalls
      obtain rfl := Option.some.inj (hr.symm.trans ht)
      have hlinks : links t owner' ≤ links s owner := links_le ha.stdatas ha.owner_le
      have hflat' : Flat owner' := by
        intro x h ho
        cases hh : owner' h with
        | none => rfl
        | some k => exact absurd (ha.owner_le h k hh) (by rw [hflat x h (ha.owner_le x h ho)]; simp)
      have hn := ih hit hflat' (by omega) hfew'
      -- the other control streams are still there
      have hle : (s.str.stdatas.filter fun k => decide (s.IsCtl maj k) && k != hdp).length ≤ ctls t maj := by
        rw [ctls,List.countP_eq_length_filter]
        refine (List.subperm_of_subset (hi.nodup.filter _) fun k hk => ?_).length_le
        obtain ⟨hk1,hk2⟩ := List.mem_filter.mp hk
        obtain ⟨hk2,hk3⟩ := Bool.and_eq_true_iff.mp hk2
        obtain ⟨hkm,hkl⟩ := hi.isCtl_iff.mp (of_decide_eq_true hk2)
        obtain ⟨y,hy⟩ := List.exists_mem_of_ne_nil _ hkl
        have hnb : ¬Below owner k hdp := by
          intro hb
          rcases hb.cases with he | ⟨h,ho,-⟩
          · exact bne_iff_ne.mp hk3 he
          · rw [hflat y k ((hi.owned y k).mp hy)] at ho
            cases ho
        have hkt : t.lowers k = s.lowers k := ha.away k hnb
        refine List.mem_filter.mpr ⟨hit.live k ?_,decide_eq_true (hit.isCtl_iff.mpr ⟨ha.major ▸ hkm,hkt ▸ hkl⟩)⟩
        have := List.length_pos_of_mem hy
        rw [hkt]
        omega
      have hsplit : ctls s maj ≤ (s.str.stdatas.filter fun k => decide (s.IsCtl maj k) && k != hdp).length + 1 := by
        rw [← List.countP_eq_length_filter,ctls,(List.perm_cons_erase hm).countP_eq,
          (List.perm_cons_erase hm).countP_eq,List.countP_cons,List.countP_cons]
        have hsame : (s.str.stdatas.erase hdp).countP (fun k => decide (s.IsCtl maj k)) =
            (s.str.stdatas.erase hdp).countP fun k => decide (s.IsCtl maj k) && k != hdp := by
          refine List.countP_congr fun k hk => ?_
          have hne : k ≠ hdp := fun he => hi.nodup.not_mem_erase (he ▸ hk)
          simp [hne]
        rw [hsame]
        split_ifs <;> omega
      omega

/-! ### When `lis_unlink_all` is right -/

theorem ctls_le_length (s : Muxes) (maj : ℕ) : ctls s maj ≤ s.str.stdatas.length := List.countP_le_length

theorem links_le_length (s : Muxes) (owner : ℕ → Option ℕ) : links s owner ≤ s.str.stdatas.length :=
  List.countP_le_length

/- A walk that is right needs no more than 100 control streams taken apart. -/
theorem Right.few (hr : Right s d fuel hd) : FewLeft d fuel (s.major hd) 100 s := by
  obtain ⟨w,hw,hok,-⟩ := hr
  by_contra hfew
  rw [lisUnlinkAll] at hw
  by_cases hnil : s.str.stdatas = []
  · refine hfew (fewLeft_none (fun h hh => ?_) 100)
    rw [hnil] at hh
    exact absurd hh List.not_mem_nil
  · rw [if_neg hnil] at hw
    have hwrong := wrong_of_not_fewLeft 0 (List.nil_append _).symm (fun h hh => absurd hh List.not_mem_nil) rfl hfew hw
    exact Bool.false_ne_true (hwrong.symm.trans hok)

theorem walked (hi : Inv s opens held extra owner) (hf : (s.str.stdatas.length + 2) ^ 2 ≤ fuel)
    (hfew : FewLeft d fuel (s.major hd) 100 s) :
    ∃ w, lisUnlinkAll d fuel hd s = some w ∧ Walked s opens held extra d (s.major hd) w := by
  rw [lisUnlinkAll]
  by_cases hnil : s.str.stdatas = []
  · refine ⟨_,if_pos hnil,⟨rfl,rfl,rfl⟩,rfl,rfl,⟨_,_,_,_,hi⟩,fun h hh => ?_,fun _ => ⟨rfl,_,hi⟩⟩
    rw [hnil] at hh
    exact absurd hh List.not_mem_nil
  · rw [if_neg hnil]
    have h1 := links_le_length s owner
    have h2 : ctls s (s.major hd) * (s.str.stdatas.length + 1) ≤ s.str.stdatas.length * (s.str.stdatas.length + 1) :=
      Nat.mul_le_mul_right _ (ctls_le_length s _)
    have h3 : (s.str.stdatas.length + 2) ^ 2 =
        s.str.stdatas.length * (s.str.stdatas.length + 1) + 3 * s.str.stdatas.length + 4 := by ring
    exact walked_of_fewLeft 0 hi (List.nil_append _).symm (fun h hh => absurd hh List.not_mem_nil)
      (by omega) (Nat.zero_add _) (by omega) hfew

theorem Right.of_few (hs : Formed s) (hf : (s.str.stdatas.length + 2) ^ 2 ≤ fuel)
    (hfew : FewLeft d fuel (s.major hd) 100 s) : Right s d fuel hd := by
  obtain ⟨opens,held,extra,owner,hi⟩ := hs
  obtain ⟨w,hw,hwd⟩ := walked hi hf hfew
  refine ⟨w,hw,hwd.ok,hwd.unlocked,fun hag => ⟨(hwd.agreed hag).1,fun h hh hmaj => ?_⟩⟩
  obtain ⟨_,_,_,_,hiw⟩ := hwd.formed
  by_contra hne
  exact hwd.none h hh (hiw.isCtl_iff.mpr ⟨hmaj,hne⟩)

/-- All is right exactly if taking apart 100 control streams of the major is enough. -/
theorem unlinkAll_right_iff (hs : Formed s) (hf : (s.str.stdatas.length + 2) ^ 2 ≤ fuel) :
    Right s d fuel hd ↔ FewLeft d fuel (s.major hd) 100 s := ⟨Right.few,Right.of_few hs hf⟩

/- `n` control streams with a file each, and one lower stream under each. -/
def wide (n : ℕ) : Muxes where
  str := {
    heads := fun x => {
      qinfo := strmhdInit
      qnoenb := true
      stplex := decide (n ≤ x ∧ x < n + n)
      sdOpencnt := if x < n + n then 1 else 0
      sdLinkcnt := if n ≤ x ∧ x < n + n then 1 else 0
      sdRefcnt := if x < n then 2 else if x < n + n then 1 else 0
      mxHd := if x < n then some (n + x) else none
      mxNext := none
      mxIndex := x
      mxCmd := .link
      sdStrtab := ⟨(0,0),(0,0)⟩ }
    stdatas := List.range (n + n)
    muxid := n + n }
  major := fun _ => 0
  lowers := fun x => if x < n then [n + x] else []
  lost := []
  files := fun x => if x < n then 1 else 0
  ret := 0

def wideOwner (n x : ℕ) : Option ℕ := if n ≤ x ∧ x < n + n then some (x - n) else none

theorem inv_wide (n : ℕ) : Inv (wide n) (wide n).files (fun _ => 0) (fun _ => 0) (wideOwner n) := by
  have hpl (x) : (wide n).plinks x = 0 := List.countP_eq_zero.mpr fun y _ => by simp [Muxes.head,wide]
  have hup (x) : up (wideOwner n) x = if n ≤ x ∧ x < n + n then 1 else 0 := by
    rw [up,wideOwner]
    split_ifs <;> rfl
  constructor
  case lists =>
    intro h
    simp only [wide,Muxes.head]
    split_ifs
    · exact ⟨rfl,rfl⟩
    · rfl
  case owned =>
    intro x h
    simp only [wide,wideOwner]
    split_ifs <;> simp <;> omega
  case forest =>
    refine ⟨fun x => if n ≤ x then 0 else 1,fun x h ho => ?_⟩
    rw [wideOwner] at ho
    split_ifs at ho with hx
    obtain rfl := Option.some.inj ho
    have h1 : ¬n ≤ x - n := by omega
    simp only [if_pos hx.1,if_neg h1]
    exact Nat.one_pos
  case plex =>
    intro x hx
    rw [wideOwner] at hx
    split_ifs at hx with hn
    · exact decide_eq_true hn
    · exact absurd rfl hx
  case distinct => exact fun x _ y _ he _ => he
  case positive =>
    intro x hx h0
    obtain rfl : x = 0 := h0
    rw [wideOwner,if_neg (by omega)] at hx
    exact hx rfl
  case linkcnt =>
    intro x
    rw [hup,hpl]
    simp only [wide,Muxes.head]
    split_ifs <;> rfl
  case opencnt =>
    intro x
    rw [hup,hpl]
    simp only [wide,Muxes.head]
    split_ifs <;> first | rfl | omega
  case refcnt =>
    intro x
    rw [hup,hpl]
    simp only [wide,Muxes.head]
    split_ifs <;> first | rfl | omega
  case live =>
    intro x hx
    rw [hup] at hx
    simp only [wide] at hx ⊢
    refine List.mem_range.mpr ?_
    by_cases hn : x < n
    · omega
    · rw [if_neg hn,if_neg hn,List.length_nil] at hx
      split_ifs at hx <;> omega
  case used =>
    intro x hx
    have hlt := List.mem_range.mp hx
    simp only [wide,Muxes.head]
    rw [if_pos hlt]
    split_ifs <;> decide
  case nodup => exact List.nodup_range

theorem le_ctls_wide (n : ℕ) : n ≤ ctls (wide n) 0 := by
  have hs : (wide n).str.stdatas = List.range n ++ (List.range n).map (n + ·) := List.range_add ..
  have hall : (List.range n).countP (fun h => decide ((wide n).IsCtl 0 h)) = (List.range n).length := by
    refine List.countP_eq_length.mpr fun h hh => decide_eq_true ⟨rfl,?_⟩
    simp only [wide,Muxes.head]
    rw [if_pos (List.mem_range.mp hh)]
    exact Option.some_ne_none _
  rw [ctls,hs,List.countP_append,hall,List.length_range]
  omega

theorem flat_wide (n : ℕ) : Flat (wideOwner n) := by
  intro x h ho
  rw [wideOwner] at ho
  split_ifs at ho
  obtain rfl := Option.some.inj ho
  exact if_neg (by omega)

def obliging : Driver := ⟨fun _ _ => 0,fun _ _ => 0⟩

theorem unlinkAll_right_iff_one : Right (wide 1) obliging 16 0 ↔ FewLeft obliging 16 0 100 (wide 1) :=
  unlinkAll_right_iff ⟨_,_,_,_,inv_wide 1⟩ (by decide)

/- With 101 control streams the list is followed without the lock. -/
theorem unlinkAll_wrong : ¬ ∀ s d fuel hd, Formed s → (s.str.stdatas.length + 2) ^ 2 ≤ fuel → Right s d fuel hd := by
  intro h
  have hr : Right (wide 101) obliging 50000 0 := h _ _ _ _ ⟨_,_,_,_,inv_wide 101⟩ (by simp [wide])
  have hcalls : links (wide 101) (wideOwner 101) + 1 < 50000 := by
    have hle := links_le_length (wide 101) (wideOwner 101)
    have hlen : (wide 101).str.stdatas.length = 202 := List.length_range
    omega
  have hle := (le_ctls_wide 101).trans (le_of_fewLeft (inv_wide 101) (flat_wide 101) hcalls hr.few)
  omega

end CSLiS.Mux
