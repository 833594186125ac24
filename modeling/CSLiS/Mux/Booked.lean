import CSLiS.Lib.Forest
import CSLiS.Lib.Threaded
import CSLiS.Mux.Unlink

/-!
# The lists and the counters of the multiplexors

Every lower stream is on the list of its control stream and no stream is below itself, and the counters tell how many
links and files a stream has. The calls that only count keep that.
-/

namespace CSLiS.Mux

open Lib Lib.Forest

/- The number of lists that a stream is on. -/
def Muxes.uppers (s : Muxes) (x : ℕ) : ℕ := s.str.stdatas.countP fun h => (s.lowers h).contains x

def Muxes.plinks (s : Muxes) (h : ℕ) : ℕ := (s.lowers h).countP fun x => (s.head x).mxCmd == .plink

def up (owner : ℕ → Option ℕ) (x : ℕ) : ℕ := (owner x).isSome.toNat

def bump (f : ℕ → ℕ) (h x : ℕ) : ℕ := f x + if x = h then 1 else 0

variable {s t u : Muxes} {opens held extra opens' held' extra' : ℕ → ℕ} {owner owner' : ℕ → Option ℕ} {h hd hp x y : ℕ}

/- `owner` is the control stream of a lower one. A stream has been opened `opens` times, as a link is turned into an
open while it is undone, `held` more references are there, and `extra` links are counted that are on no list. -/
structure Inv (s : Muxes) (opens held extra : ℕ → ℕ) (owner : ℕ → Option ℕ) : Prop where
  lists : ∀ h, Threaded s.next (s.head h).mxHd (s.lowers h)
  owned : ∀ x h, x ∈ s.lowers h ↔ owner x = some h
  forest : Graded owner
  plex : ∀ x, owner x ≠ none → (s.head x).stplex = true
  distinct : ∀ x ∈ s.str.stdatas, ∀ y ∈ s.str.stdatas, (s.head x).mxIndex = (s.head y).mxIndex →
    (s.head x).mxIndex ≠ 0 → x = y
  positive : ∀ x, owner x ≠ none → (s.head x).mxIndex ≠ 0
  linkcnt : ∀ x, (s.head x).sdLinkcnt = extra x + up owner x + s.plinks x
  opencnt : ∀ x, (s.head x).sdOpencnt = opens x + up owner x + s.plinks x
  refcnt : ∀ x, (s.head x).sdRefcnt = opens x + held x + up owner x + (s.lowers x).length + s.plinks x
  live : ∀ x, 0 < opens x + held x + up owner x + (s.lowers x).length → x ∈ s.str.stdatas
  used : ∀ x ∈ s.str.stdatas, (s.head x).sdRefcnt ≠ 0
  nodup : s.str.stdatas.Nodup

theorem bump_self (f : ℕ → ℕ) (h : ℕ) : bump f h h = f h + 1 := by rw [bump,if_pos rfl]

theorem up_some (ho : owner x = some h) : up owner x = 1 := by rw [up,ho]; rfl

theorem up_none (ho : owner x = none) : up owner x = 0 := by rw [up,ho]; rfl

theorem up_zero (hu : up owner x = 0) : owner x = none := by
  cases ho : owner x with
  | none => rfl
  | some h => exact absurd ((up_some ho).symm.trans hu) Nat.one_ne_zero

theorem Inv.lower_live (hi : Inv s opens held extra owner) (ho : owner x = some h) : h ∈ s.str.stdatas := by
  refine hi.live h ?_
  have := List.length_pos_of_mem ((hi.owned x h).mpr ho)
  omega

/- A stream is on the list of its owner only. -/
theorem Inv.uppers_eq (hi : Inv s opens held extra owner) (x : ℕ) : s.uppers x = up owner x := by
  have hcongr : s.uppers x = s.str.stdatas.countP fun h => decide (owner x = some h) := by
    refine List.countP_congr fun h _ => ?_
    rw [List.contains_iff_mem,hi.owned x h,decide_eq_true_eq]
  rw [hcongr]
  cases ho : owner x with
  | none =>
    rw [up_none ho]
    exact List.countP_eq_zero.mpr fun h _ => by simp
  | some h =>
    rw [up_some ho,← List.count_eq_one_of_mem hi.nodup (hi.lower_live ho),List.count]
    refine List.countP_congr fun k _ => ?_
    rw [decide_eq_true_eq,Option.some.injEq,beq_iff_eq]
    exact eq_comm

/-! ### Counters only -/

namespace Muxes

variable {f : Stdata → Stdata}

theorem upd_head (s : Muxes) (h : ℕ) (f : Stdata → Stdata) (x : ℕ) :
    (s.upd h f).head x = if x = h then f (s.head x) else s.head x := Streams.upd_heads ..

/- What links and counters have no part in. -/
structure Kin (s t : Muxes) : Prop where
  muxid : t.str.muxid = s.str.muxid
  major : t.major = s.major
  files : t.files = s.files

theorem Kin.trans (h : Kin s t) (h' : Kin t u) : Kin s u :=
  ⟨h'.muxid.trans h.muxid,h'.major.trans h.major,h'.files.trans h.files⟩

/- What only counts leaves as it is. -/
structure Like (s t : Muxes) : Prop extends Kin s t where
  next : ∀ x, t.next x = s.next x
  mxHd : ∀ x, (t.head x).mxHd = (s.head x).mxHd
  mxIndex : ∀ x, (t.head x).mxIndex = (s.head x).mxIndex
  mxCmd : ∀ x, (t.head x).mxCmd = (s.head x).mxCmd
  stplex : ∀ x, (t.head x).stplex = (s.head x).stplex
  lowers : t.lowers = s.lowers
  lost : t.lost = s.lost

theorem Like.refl (s : Muxes) : Like s s :=
  ⟨⟨rfl,rfl,rfl⟩,fun _ => rfl,fun _ => rfl,fun _ => rfl,fun _ => rfl,fun _ => rfl,rfl,rfl⟩

theorem like_upd (s : Muxes) (h : ℕ) (hf : ∀ m, (f m).mxNext = m.mxNext ∧ (f m).mxHd = m.mxHd ∧
    (f m).mxIndex = m.mxIndex ∧ (f m).mxCmd = m.mxCmd ∧ (f m).stplex = m.stplex) : Like s (s.upd h f) := by
  have hx (x) := hf (s.head x)
  constructor
  case toKin => exact ⟨rfl,rfl,rfl⟩
  case lowers | lost => rfl
  all_goals
    intro x
    simp only [Muxes.next,upd_head]
    split_ifs
    · simp only [hx]
    · rfl

theorem plinks_congr (hlow : t.lowers x = s.lowers x) (hc : ∀ y ∈ s.lowers x, (t.head y).mxCmd = (s.head y).mxCmd) :
    t.plinks x = s.plinks x := by
  rw [Muxes.plinks,Muxes.plinks,hlow]
  exact List.countP_congr fun y hy => by rw [hc y hy]

theorem Like.plinks (hl : Like s t) (x : ℕ) : t.plinks x = s.plinks x :=
  plinks_congr (congrFun hl.lowers x) fun y _ => hl.mxCmd y

theorem like_headPut (s : Muxes) (h : ℕ) : Like s (s.headPut h) := by
  have hu : Like s (s.upd h fun hd => { hd with sdRefcnt := hd.sdRefcnt - 1 }) :=
    like_upd s h fun _ => ⟨rfl,rfl,rfl,rfl,rfl⟩
  rw [headPut]
  split_ifs
  · exact ⟨⟨hu.muxid,hu.major,hu.files⟩,hu.next,hu.mxHd,hu.mxIndex,hu.mxCmd,hu.stplex,hu.lowers,hu.lost⟩
  · exact hu

theorem like_opened (s : Muxes) (h : ℕ) : Like s (s.opened h) := by
  have h1 := like_upd s h (f := fun hd => { hd with sdOpencnt := hd.sdOpencnt + 1 }) fun _ => ⟨rfl,rfl,rfl,rfl,rfl⟩
  have h2 := like_upd (s.upd h fun hd => { hd with sdOpencnt := hd.sdOpencnt + 1 }) h
    (f := fun hd => { hd with sdRefcnt := hd.sdRefcnt + 1 }) fun _ => ⟨rfl,rfl,rfl,rfl,rfl⟩
  exact ⟨h1.toKin.trans h2.toKin,fun x => (h2.next x).trans (h1.next x),fun x => (h2.mxHd x).trans (h1.mxHd x),
    fun x => (h2.mxIndex x).trans (h1.mxIndex x),fun x => (h2.mxCmd x).trans (h1.mxCmd x),
    fun x => (h2.stplex x).trans (h1.stplex x),rfl,rfl⟩

theorem like_decOpencnt (s : Muxes) (h : ℕ) : Like s (s.decOpencnt h) := like_upd s h fun _ => ⟨rfl,rfl,rfl,rfl,rfl⟩

theorem headPut_sublist (s : Muxes) (h : ℕ) : (s.headPut h).str.stdatas.Sublist s.str.stdatas := by
  rw [headPut]
  split_ifs
  · exact List.erase_sublist ..
  · exact List.Sublist.refl _

theorem headPut_head (s : Muxes) (h x : ℕ) : (s.headPut h).head x =
    if x = h then { s.head x with sdRefcnt := (s.head x).sdRefcnt - 1 } else s.head x := by
  rw [← upd_head s h fun hd => { hd with sdRefcnt := hd.sdRefcnt - 1 },headPut]
  split_ifs <;> rfl

/- Only a head without references is freed. -/
theorem headPut_stays (hx : x ∈ s.str.stdatas) (hr : ((s.headPut h).head x).sdRefcnt ≠ 0) :
    x ∈ (s.headPut h).str.stdatas := by
  rw [headPut_head] at hr
  rw [headPut]
  split_ifs with h1
  · have hne : x ≠ h := by
      rintro rfl
      rw [if_pos rfl,h1] at hr
      exact hr rfl
    exact (List.mem_erase_of_ne hne).mpr hx
  · exact hx

theorem headPut_used (hu : ∀ x ∈ s.str.stdatas, (s.head x).sdRefcnt ≠ 0) (hnd : s.str.stdatas.Nodup) :
    ∀ x ∈ (s.headPut h).str.stdatas, ((s.headPut h).head x).sdRefcnt ≠ 0 := by
  intro x hx
  have hm := (headPut_sublist s h).subset hx
  rw [headPut_head]
  split_ifs with hxh
  · subst hxh
    rw [headPut] at hx
    split_ifs at hx with h1
    · exact absurd hx hnd.not_mem_erase
    · exact fun hc => h1 (by have h0 : (s.head x).sdRefcnt - 1 = 0 := hc; omega)
  · exact hu x hm

end Muxes

open Muxes

theorem Inv.recount (hi : Inv s opens held extra owner) (hl : Like s t) (hsub : t.str.stdatas.Sublist s.str.stdatas)
    (hstay : ∀ x ∈ s.str.stdatas, (t.head x).sdRefcnt ≠ 0 → x ∈ t.str.stdatas)
    (hlink : ∀ x, (t.head x).sdLinkcnt = (s.head x).sdLinkcnt)
    (hopen : ∀ x, (t.head x).sdOpencnt + opens x = (s.head x).sdOpencnt + opens' x)
    (href : ∀ x, (t.head x).sdRefcnt + opens x + held x = (s.head x).sdRefcnt + opens' x + held' x)
    (hin : ∀ x, 0 < opens' x + held' x → x ∈ s.str.stdatas)
    (hused : ∀ x ∈ t.str.stdatas, (t.head x).sdRefcnt ≠ 0) : Inv t opens' held' extra owner := by
  have hnext : t.next = s.next := funext hl.next
  constructor
  case lists =>
    intro h
    rw [hnext,hl.mxHd,hl.lowers]
    exact hi.lists h
  case owned =>
    intro x h
    rw [hl.lowers]
    exact hi.owned x h
  case forest => exact hi.forest
  case plex =>
    intro x hx
    rw [hl.stplex]
    exact hi.plex x hx
  case distinct =>
    intro x hx y hy he hz
    rw [hl.mxIndex] at he hz
    rw [hl.mxIndex] at he
    exact hi.distinct x (hsub.subset hx) y (hsub.subset hy) he hz
  case positive =>
    intro x hx
    rw [hl.mxIndex]
    exact hi.positive x hx
  case linkcnt =>
    intro x
    rw [hlink,hl.plinks]
    exact hi.linkcnt x
  case opencnt =>
    intro x
    have h1 := hopen x
    have h2 := hi.opencnt x
    rw [hl.plinks]
    omega
  case refcnt =>
    intro x
    have h1 := href x
    have h2 := hi.refcnt x
    rw [hl.plinks,hl.lowers]
    omega
  case live =>
    intro x hx
    have hxs : x ∈ s.str.stdatas := by
      rw [hl.lowers] at hx
      by_cases hz : 0 < opens' x + held' x
      · exact hin x hz
      · exact hi.live x (by omega)
    refine hstay x hxs fun hz => ?_
    have h1 := href x
    have h2 := hi.refcnt x
    rw [hl.lowers] at hx
    omega
  case used => exact hused
  case nodup => exact hi.nodup.sublist hsub

theorem Inv.opened_live (hi : Inv s opens held extra owner) (hp : 0 < opens x + held x) : x ∈ s.str.stdatas :=
  hi.live x (by omega)

/- An open is given back, its reference is still there. -/
theorem Inv.decOpencnt (hi : Inv s (bump opens h) held extra owner) :
    Inv (s.decOpencnt h) opens (bump held h) extra owner := by
  have hused : ∀ x ∈ (s.decOpencnt h).str.stdatas, ((s.decOpencnt h).head x).sdRefcnt ≠ 0 := by
    intro x hx
    rw [Muxes.decOpencnt,upd_head]
    split_ifs <;> exact hi.used x hx
  refine hi.recount (like_decOpencnt s h) (List.Sublist.refl _) (fun x hx _ => hx)
    (fun x => ?_) (fun x => ?_) (fun x => ?_) (fun x hx => hi.opened_live ?_) hused
  all_goals simp only [Muxes.decOpencnt,upd_head,bump,apply_ite Stdata.sdLinkcnt,apply_ite Stdata.sdOpencnt,
    apply_ite Stdata.sdRefcnt] at *
  · split_ifs <;> rfl
  · split_ifs <;> omega
  · split_ifs <;> omega
  · split_ifs at * <;> omega

theorem Inv.headPut (hi : Inv s opens (bump held h) extra owner) : Inv (s.headPut h) opens held extra owner := by
  refine hi.recount (like_headPut s h) (headPut_sublist s h) (fun x hx hr => headPut_stays hx hr)
    (fun x => ?_) (fun x => ?_) (fun x => ?_) (fun x hx => hi.opened_live ?_) (headPut_used hi.used hi.nodup)
  all_goals simp only [headPut_head,bump,apply_ite Stdata.sdLinkcnt,apply_ite Stdata.sdOpencnt,
    apply_ite Stdata.sdRefcnt] at *
  · split_ifs <;> rfl
  · split_ifs <;> omega
  · split_ifs <;> omega
  · split_ifs at * <;> omega

theorem Inv.headGet (hi : Inv s opens held extra owner) (hh : h ∈ s.str.stdatas) :
    Inv (s.headGet h) opens (bump held h) extra owner := by
  have hused : ∀ x ∈ (s.headGet h).str.stdatas, ((s.headGet h).head x).sdRefcnt ≠ 0 := by
    intro x hx
    have h0 := hi.used x hx
    have h1 := hi.refcnt x
    simp only [Muxes.headGet,upd_head,apply_ite Stdata.sdRefcnt]
    split_ifs <;> omega
  refine hi.recount (like_upd s h fun _ => ⟨rfl,rfl,rfl,rfl,rfl⟩) (List.Sublist.refl _) (fun x hx _ => hx)
    (fun x => ?_) (fun x => ?_) (fun x => ?_) (fun x hx => ?_) hused
  all_goals simp only [Muxes.headGet,upd_head,bump,apply_ite Stdata.sdLinkcnt,apply_ite Stdata.sdOpencnt,
    apply_ite Stdata.sdRefcnt] at *
  · split_ifs <;> rfl
  · split_ifs <;> omega
  · split_ifs <;> omega
  · by_cases hxh : x = h
    · exact hxh ▸ hh
    · rw [if_neg hxh] at hx
      exact hi.opened_live (by omega)

theorem Inv.opened (hi : Inv s opens held extra owner) (hh : h ∈ s.str.stdatas) :
    Inv (s.opened h) (bump opens h) held extra owner := by
  have hused : ∀ x ∈ (s.opened h).str.stdatas, ((s.opened h).head x).sdRefcnt ≠ 0 := by
    intro x hx
    have h0 := hi.used x hx
    have h1 := hi.refcnt x
    simp only [Muxes.opened,Muxes.headGet,upd_head,apply_ite Stdata.sdRefcnt]
    split_ifs <;> omega
  refine hi.recount (like_opened s h) (List.Sublist.refl _) (fun x hx _ => hx) (fun x => ?_) (fun x => ?_) (fun x => ?_)
    (fun x hx => ?_) hused
  all_goals simp only [Muxes.opened,Muxes.headGet,upd_head,bump,apply_ite Stdata.sdLinkcnt,apply_ite Stdata.sdOpencnt,
    apply_ite Stdata.sdRefcnt] at *
  · split_ifs <;> rfl
  · split_ifs <;> omega
  · split_ifs <;> omega
  · by_cases hxh : x = h
    · exact hxh ▸ hh
    · rw [if_neg hxh] at hx
      exact hi.opened_live (by omega)

end CSLiS.Mux
