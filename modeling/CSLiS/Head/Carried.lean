import Mathlib
import CSLiS.Queue.Refill

/-!
# Messages that are counted but not linked (head/queue.c)

`sd_rq` counts the messages of `sd_rput` on top of its own. Without them it
would be an ordinary queue: the relation `Over` compares the two, band structure
by band structure, and `Carries` says that such an ordinary queue exists. A band
structure can stand for messages of `sd_rput` only while it is in use, that is
while a message of the band is linked into `sd_rq`.
-/

namespace CSLiS.Head
open Queue Lib.Split

/-- The bytes of the messages of band `b`. -/
def bandBytes (b : Uchar) (l : List Msg) : Ulong := sizes Msg.info (bandMsgs Msg.info b l)
def qBytes (l : List Msg) : Ulong := sizes Msg.info (qMsgs Msg.info l)

/-- The same band structure, with the bytes of its band in `r` counted on top. -/
structure Over (r : List Msg) (qp qp0 : Qband Msg) : Prop where
  first : qp.qbFirst = qp0.qbFirst
  last : qp.qbLast = qp0.qbLast
  count : ∀ x, qp.qbFirst = some x → x.info.bBand ≠ 0 →
    qp.qbCount = qp0.qbCount + bandBytes x.info.bBand r

structure CoreOver (r : List Msg) (c c0 : Core Msg) : Prop where
  count : c.qCount = c0.qCount + qBytes r
  bands : List.Forall₂ (Over r) c.qBandp c0.qBandp

/-- The queue with the messages `l` counts those of `r` on top, and every band
with bytes in `r` has a message in `l`. -/
structure Carries (c : Core Msg) (l r : List Msg) : Prop where
  own : ∃ c0, Tidy Msg.info c0 l ∧ CoreOver r c c0
  linked : ∀ x ∈ r, x.info.inQCount = false → x.info.size ≠ 0 →
    bandMsgs Msg.info x.info.bBand l ≠ []

variable {c c' c0 : Core Msg} {l m r r' : List Msg} {mp : Msg} {alloc : Bool} {b : Uchar}
  {qp qp0 : Qband Msg} {z : BandAt Msg}

theorem Over.isBand (h : Over r qp qp0) : qp.isBand Msg.info b = qp0.isBand Msg.info b := by
  simp only [Qband.isBand,h.first]

/- Another list with the same bytes in the bands of this structure. -/
theorem Over.mono (h : Over r qp qp0) (hr : ∀ x, qp.qbFirst = some x → x.info.bBand ≠ 0 →
    bandBytes x.info.bBand r' = bandBytes x.info.bBand r) : Over r' qp qp0 :=
  ⟨h.first,h.last,fun x hx hb => by rw [hr x hx hb,h.count x hx hb]⟩

theorem findQband_none_over (h : CoreOver r c c0) (hn : findQband Msg.info alloc c b = none) :
    findQband Msg.info alloc c0 b = none := by
  have h1 := splitFirst_forall₂ h.bands (fun qp => qp.isBand Msg.info b)
    (fun qp => qp.isBand Msg.info b) fun _ _ ho => ho.isBand
  have h2 := splitFirst_forall₂ h.bands (fun qp => qp.qbFirst.isNone)
    (fun qp => qp.qbFirst.isNone) fun _ _ ho => by rw [ho.first]
  unfold findQband at hn ⊢
  split at hn
  · cases hn
  · next hi =>
    rw [h1.1 hi]
    split at hn
    · cases hn
    · next hf =>
      rw [h2.1 hf]
      split_ifs at hn ⊢
      rfl

/-- `find_qband` takes the same structure of both chains. One that is not of the
band counts nothing in either. -/
theorem findQband_over (h : CoreOver r c c0) (hz : findQband Msg.info alloc c b = some z) :
    ∃ z0, findQband Msg.info alloc c0 b = some z0 ∧ List.Forall₂ (Over r) z.pre z0.pre ∧
      Over r z.qp z0.qp ∧ List.Forall₂ (Over r) z.post z0.post ∧
      (z.qp.isBand Msg.info b = true ∨
        z.qp.qbFirst = none ∧ z.qp.qbCount = 0 ∧ z0.qp.qbCount = 0) := by
  have h1 := splitFirst_forall₂ h.bands (fun qp => qp.isBand Msg.info b)
    (fun qp => qp.isBand Msg.info b) fun _ _ ho => ho.isBand
  have h2 := splitFirst_forall₂ h.bands (fun qp => qp.qbFirst.isNone)
    (fun qp => qp.qbFirst.isNone) fun _ _ ho => by rw [ho.first]
  unfold findQband at hz ⊢
  split at hz
  · next y hy =>
    obtain ⟨pre,qp,post,hs,hpre,hqp,hpost⟩ := h1.2 _ _ _ hy
    obtain rfl := Option.some.inj hz
    rw [hs]
    exact ⟨_,rfl,hpre,hqp,hpost,.inl (splitFirst_some hy).2.1⟩
  · next hn =>
    rw [h1.1 hn]
    split at hz
    · next y hy =>
      obtain ⟨pre,qp,post,hs,hpre,hqp,hpost⟩ := h2.2 _ _ _ hy
      have hfree : y.2.1.qbFirst = none := by simpa using (splitFirst_some hy).2.1
      obtain rfl := Option.some.inj hz
      rw [hs]
      refine ⟨_,rfl,hpre,⟨hqp.first,hqp.last,fun x hx => ?_⟩,hpost,.inr ⟨hfree,rfl,rfl⟩⟩
      rw [show (c.resetBand y.2.1).qbFirst = none from hfree] at hx
      cases hx
    · next hf =>
      rw [h2.1 hf]
      split_ifs at hz ⊢ with ha
      obtain rfl := Option.some.inj hz
      exact ⟨_,rfl,.nil,⟨rfl,rfl,fun x hx => by cases hx⟩,h.bands,.inr ⟨rfl,rfl,rfl⟩⟩

theorem bandBytes_zero (h : ∀ x ∈ r, x.info.inBand b = true → x.info.size = 0) : bandBytes b r = 0 :=
  List.sum_eq_zero fun n hn => by
    obtain ⟨x,hx,rfl⟩ := List.mem_map.mp hn
    obtain ⟨hx,hi⟩ := List.mem_filter.mp hx
    exact h x hx hi

theorem qBytes_zero (h : ∀ x ∈ r, x.info.size = 0) : qBytes r = 0 :=
  List.sum_eq_zero fun n hn => by
    obtain ⟨x,hx,rfl⟩ := List.mem_map.mp hn
    exact h x (List.mem_filter.mp hx).1

/- No bytes in r for a band that is not linked. -/
theorem Carries.unlinked (h : Carries c l r) (hb : b ≠ 0) (hn : bandMsgs Msg.info b l = []) :
    ∀ x ∈ r, x.info.inBand b = true → x.info.size = 0 := by
  intro x hx hi
  simp only [Info.inBand,Bool.and_eq_true,Bool.not_eq_true',beq_iff_eq] at hi
  by_contra hs
  exact h.linked x hx (by simp [Info.inQCount,hi,hb]) hs (hi.2 ▸ hn)

/- The structures of the other bands do not see a change of this band in r. -/
theorem over_others {pre pre0 : List (Qband Msg)} (h : List.Forall₂ (Over r) pre pre0)
    (hb : ∀ qp0 ∈ pre0, qp0.Free ∨ ∃ b', b' ≠ b ∧ qp0.Owns Msg.info l b')
    (hr : ∀ b', b' ≠ 0 → b' ≠ b → bandBytes b' r' = bandBytes b' r) :
    List.Forall₂ (Over r') pre pre0 := by
  induction h with
  | nil => exact .nil
  | cons ho hl ih =>
    obtain ⟨hone,hrest⟩ := List.forall_mem_cons.mp hb
    refine .cons (ho.mono fun x hx hx0 => ?_) (ih hrest)
    rw [ho.first] at hx
    cases hone with
    | inl hf =>
      rw [hf.1] at hx
      cases hx
    | inr hown =>
      obtain ⟨b',hne,hown⟩ := hown
      have he := hown.bBand
      rw [hx] at he
      obtain rfl := Option.some.inj he
      exact hr _ hx0 hne

/-- The structure that is found gets another count: if it is in use, then by what
the band gains in `r`. -/
theorem Carries.touch (h : Carries c l r) (hb : b ≠ 0) (hz : findQband Msg.info alloc c b = some z)
    (qp : Qband Msg) {d : Ulong} (hf : qp.qbFirst = z.qp.qbFirst) (hl : qp.qbLast = z.qp.qbLast)
    (hd : qp.qbCount = z.qp.qbCount + d) (hr : bandBytes b r' = bandBytes b r + d)
    (hother : ∀ b', b' ≠ 0 → b' ≠ b → bandBytes b' r' = bandBytes b' r)
    (hq : qBytes r' = qBytes r)
    (hlink : ∀ x ∈ r', x.info.inQCount = false → x.info.size ≠ 0 →
      bandMsgs Msg.info x.info.bBand l ≠ [])
    (hc : c'.qCount = c.qCount) (hbands : c'.qBandp = z.pre ++ qp :: z.post) : Carries c' l r' := by
  obtain ⟨c0,ht,hover⟩ := h.own
  obtain ⟨z0,hz0,hpre,hqp,hpost,hcase⟩ := findQband_over hover hz
  obtain ⟨hrest,hhold⟩ := findQband_spec ht.banded hb hz0
  have hothers : ∀ qp0 ∈ z0.pre ++ z0.post, qp0.Free ∨ ∃ b', b' ≠ b ∧ qp0.Owns Msg.info l b' := hrest.each
  refine ⟨⟨{ c0 with qBandp := z0.chain },⟨ht.nodup,ht.ordered,ht.count,hrest.fill (hhold.cases hb)⟩,
    ⟨?_,?_⟩⟩,hlink⟩
  · rw [hc,hq,hover.count]
  · rw [hbands]
    refine List.rel_append (over_others hpre (fun x hx => hothers x (List.mem_append_left _ hx)) hother)
      (.cons ⟨hf.trans hqp.first,hl.trans hqp.last,fun x hx hx0 => ?_⟩
        (over_others hpost (fun x hx => hothers x (List.mem_append_right _ hx)) hother))
    rw [hf] at hx
    rcases hcase with hi | ⟨hnone,-⟩
    · have hxb : x.info.bBand = b := by simpa [Qband.isBand,hx] using hi
      rw [hd,hqp.count x hx hx0,hxb,hr]
      ring
    · rw [hnone] at hx
      cases hx

/- Changes that the counters do not see. -/
theorem Carries.of_eq (h : Carries c l r) (hc : c'.qCount = c.qCount) (hb : c'.qBandp = c.qBandp) :
    Carries c' l r := by
  obtain ⟨⟨c0,ht,hover⟩,hlink⟩ := h
  exact ⟨⟨c0,ht,hc.trans hover.count,hb ▸ hover.bands⟩,hlink⟩

theorem bandLinkIn_first {prev next : Option Msg} {x : Msg}
    (h : (bandLinkIn mp prev next qp).qbFirst = some x) : x = mp ∨ qp.qbFirst = some x := by
  simp only [bandLinkIn] at h
  cases hf : qp.qbFirst with
  | none => simp_all
  | some y =>
    simp only [hf] at h
    split_ifs at h
    · exact .inl (Option.some.inj h).symm
    · exact .inr h

theorem bandLinkOut_first {prev next : Option Msg} {x : Msg}
    (h : (bandLinkOut Msg.info mp prev next qp).qbFirst = some x) :
    x.info.bBand = mp.info.bBand ∨ qp.qbFirst = some x := by
  cases next with
  | none =>
    simp only [bandLinkOut] at h
    split_ifs at h <;> exact .inr h
  | some y =>
    simp only [bandLinkOut] at h
    split_ifs at h with h1 h2 <;> first
      | exact .inr h
      | exact .inl (Option.some.inj h ▸ by simpa using h2)

/-- Linking a message in: both queues link it into the same structure. -/
theorem Carries.linkIn {fromInsq : Bool} (h : Carries c (l ++ m) r) (hmp : mp ∉ l ++ m)
    (hl : ∀ x ∈ l, mp.info.rank ≤ x.info.rank) (hm : ∀ x ∈ m, x.info.rank ≤ mp.info.rank)
    (ha : mp.info.inQCount = false → (findQband Msg.info alloc c mp.info.bBand).isSome = true) :
    Carries (updatequeue Msg.info alloc fromInsq true c mp l.getLast? m.head?) (l ++ mp :: m) r := by
  have hlink : ∀ x ∈ r, x.info.inQCount = false → x.info.size ≠ 0 →
      bandMsgs Msg.info x.info.bBand (l ++ mp :: m) ≠ [] := by
    intro x hx hq hs hnil
    refine h.linked x hx hq hs ?_
    simp only [bandMsgs_append,List.append_eq_nil_iff] at hnil ⊢
    exact ⟨hnil.1,(List.filter_eq_nil_iff.mpr fun y hy =>
      List.filter_eq_nil_iff.mp hnil.2 y (List.mem_cons_of_mem _ hy))⟩
  obtain ⟨c0,ht,hover⟩ := h.own
  cases hq : mp.info.inQCount with
  | true =>
    refine ⟨⟨_,updatequeue_tidy alloc fromInsq ht hmp hl hm (by simp [hq]),
      ⟨?_,?_⟩⟩,hlink⟩
    · rw [updatequeue,updatequeue,schedule_fields.1,schedule_fields.1,countIn_queue true hq,
        countIn_queue true hq,hover.count]
      ring
    · rw [updatequeue,updatequeue,schedule_fields.2,schedule_fields.2,countIn_queue true hq,
        countIn_queue true hq]
      exact hover.bands
  | false =>
    obtain ⟨z,hz⟩ := Option.isSome_iff_exists.mp (ha hq)
    obtain ⟨z0,hz0,hpre,hqp,hpost,hcase⟩ := findQband_over hover hz
    obtain ⟨-,hb0,-⟩ := Info.inQCount_false hq
    refine ⟨⟨_,updatequeue_tidy alloc fromInsq ht hmp hl hm
      fun _ => by rw [hz0]; rfl,⟨?_,?_⟩⟩,hlink⟩
    · rw [updatequeue,updatequeue,schedule_fields.1,schedule_fields.1,countIn_band true hq hz,
        countIn_band true hq hz0]
      exact hover.count
    · rw [updatequeue,updatequeue,schedule_fields.2,schedule_fields.2,countIn_band true hq hz,
        countIn_band true hq hz0,if_pos rfl,if_pos rfl]
      refine List.rel_append hpre (.cons ⟨?_,?_,fun x hx hx0 => ?_⟩ hpost)
      · simp only [bandLinkIn,Qband.countIn,hqp.first]
      · simp only [bandLinkIn,Qband.countIn,hqp.last]
      · show z.qp.qbCount + mp.info.size = z0.qp.qbCount + mp.info.size + bandBytes x.info.bBand r
        have hband := bandLinkIn_first hx
        change x = mp ∨ z.qp.qbFirst = some x at hband
        rcases hcase with hi | ⟨hnone,hc1,hc2⟩
        · -- the structure is of the band already, so its first message tells what it stands for
          cases hf : z.qp.qbFirst with
          | none => simp [Qband.isBand,hf] at hi
          | some y =>
            have hy : y.info.bBand = mp.info.bBand := by simpa [Qband.isBand,hf] using hi
            have hxb : x.info.bBand = y.info.bBand := by
              cases hband with
              | inl he => rw [he,hy]
              | inr he => rw [Option.some.inj (hf.symm.trans he)]
            rw [hqp.count y hf (hxb ▸ hx0),hxb]
            ring
        · have hxm : x = mp := hband.resolve_right fun he => by simp [hnone] at he
          -- it was not in use: the band is not linked, and has no bytes in r
          have hnil : bandMsgs Msg.info mp.info.bBand (l ++ m) = [] := by
            obtain ⟨-,hhold⟩ := findQband_spec ht.banded hb0 hz0
            have hf := hhold.first
            rw [← hqp.first,hnone] at hf
            exact List.head?_eq_none_iff.mp hf.symm
          rw [hc1,hc2,hxm,bandBytes_zero (h.unlinked hb0 hnil)]
          ring

/-- Taking a message out, unless it is the last one of a band with bytes in `r`. -/
theorem Carries.linkOut (h : Carries c (l ++ mp :: m) r)
    (hg : mp.info.inQCount = false → bandMsgs Msg.info mp.info.bBand (l ++ m) ≠ [] ∨
      ∀ x ∈ r, x.info.inBand mp.info.bBand = true → x.info.size = 0) :
    Carries (adjustQCount Msg.info alloc true c mp l.getLast? m.head?) (l ++ m) r := by
  obtain ⟨c0,ht,hover⟩ := h.own
  have htidy := adjustQCount_tidy alloc ht
  have hlink : ∀ x ∈ r, x.info.inQCount = false → x.info.size ≠ 0 →
      bandMsgs Msg.info x.info.bBand (l ++ m) ≠ [] := by
    intro x hx hq hs
    obtain ⟨-,hb0,hr⟩ := Info.inQCount_false hq
    have hin := h.linked x hx hq hs
    cases hi : mp.info.inBand x.info.bBand with
    | false => rwa [bandMsgs_middle_out (v := Msg.info) hi] at hin
    | true =>
      have hi' := hi
      simp only [Info.inBand,Bool.and_eq_true,Bool.not_eq_true',beq_iff_eq] at hi'
      have := hg (by simp [Info.inQCount,hi',hb0])
      rw [hi'.2] at this
      exact this.resolve_right fun hz => hs (hz x hx (Info.inBand_iff.mpr hr))
  cases hq : mp.info.inQCount with
  | true =>
    refine ⟨⟨_,htidy,⟨?_,?_⟩⟩,hlink⟩ <;> rw [adjustQCount_queue true hq,adjustQCount_queue true hq]
    · show c.qCount - mp.info.size = c0.qCount - mp.info.size + qBytes r
      rw [hover.count]
      ring
    · exact hover.bands
  | false =>
    obtain ⟨-,hb0,hr⟩ := Info.inQCount_false hq
    have hne : bandMsgs Msg.info mp.info.bBand (l ++ mp :: m) ≠ [] := by
      simp [bandMsgs_append,bandMsgs_cons_in (v := Msg.info) (Info.inBand_iff.mpr hr)]
    obtain ⟨w,hw,hown,-⟩ := findQband_owned alloc ht.banded hb0 hne
    cases hz : findQband Msg.info alloc c mp.info.bBand with
    | none => simp [findQband_none_over hover hz] at hw
    | some z =>
      obtain ⟨z0,hz0,hpre,hqp,hpost,hcase⟩ := findQband_over hover hz
      obtain rfl := Option.some.inj (hw.symm.trans hz0)
      refine ⟨⟨_,htidy,⟨?_,?_⟩⟩,hlink⟩ <;> rw [adjustQCount_band true _ _ hq hz,adjustQCount_band true _ _ hq hz0]
      · exact hover.count
      · refine List.rel_append hpre (.cons ⟨?_,?_,fun x hx hx0 => ?_⟩ hpost)
        · simp only [if_true,chkBand_first,bandLinkOut,hqp.first,hqp.last]
          split_ifs <;> rfl
        · simp only [if_true,chkBand_last,bandLinkOut,hqp.first,hqp.last]
          split_ifs <;> rfl
        · simp only [if_true,chkBand_first,chkBand_count] at hx ⊢
          obtain ⟨f,t,he⟩ := bandLinkOut_eq Msg.info mp l.getLast? m.head?
            { z.qp with qbCount := z.qp.qbCount - mp.info.size }
          obtain ⟨f0,t0,he0⟩ := bandLinkOut_eq Msg.info mp l.getLast? m.head?
            { w.qp with qbCount := w.qp.qbCount - mp.info.size }
          have hxb : x.info.bBand = mp.info.bBand := by
            cases bandLinkOut_first hx with
            | inl hb => exact hb
            | inr hf =>
              have hi := hown.isBand.mpr rfl
              rw [← hqp.isBand] at hi
              have hf : z.qp.qbFirst = some x := hf
              simpa [Qband.isBand,hf] using hi
          obtain ⟨y,-,hf,hi⟩ := hown.head_mem
          simp only [Info.inBand,Bool.and_eq_true,beq_iff_eq] at hi
          rw [he,he0]
          show z.qp.qbCount - mp.info.size = w.qp.qbCount - mp.info.size + bandBytes x.info.bBand r
          rw [hqp.count y (hqp.first.trans hf) (hi.2 ▸ hb0),hxb,hi.2]
          ring

theorem Carries.of_tidy (h : Tidy Msg.info c l) (hr : ∀ x ∈ r, x.info.size = 0) : Carries c l r := by
  refine ⟨⟨c,h,?_,List.forall₂_same.mpr fun qp _ => ⟨rfl,rfl,fun x _ _ => ?_⟩⟩,
    fun x hx _ hs => absurd (hr x hx) hs⟩
  · rw [qBytes_zero hr]
    simp
  · rw [bandBytes_zero fun x hx _ => hr x hx]
    simp

theorem bandBytes_append : bandBytes b (r ++ r') = bandBytes b r + bandBytes b r' := by
  rw [bandBytes,bandMsgs_append,sizes_append]
  rfl

theorem qBytes_append : qBytes (r ++ r') = qBytes r + qBytes r' := by
  rw [qBytes,qMsgs_append,sizes_append]
  rfl

@[simp] theorem bandBytes_single :
    bandBytes b [mp] = if mp.info.inBand b then mp.info.size else 0 := by
  cases h : mp.info.inBand b <;> simp [bandBytes,bandMsgs,sizes,h]

@[simp] theorem qBytes_single : qBytes [mp] = if mp.info.inQCount then mp.info.size else 0 := by
  cases h : mp.info.inQCount <;> simp [qBytes,qMsgs,sizes,h]

/- Counting by the queue itself; the bands do not take part. -/
theorem Carries.requeue (h : Carries c l r) {d : Ulong} (hc : c'.qCount = c.qCount + d)
    (hb : c'.qBandp = c.qBandp) (hq : qBytes r' = qBytes r + d)
    (hband : ∀ b, b ≠ 0 → bandBytes b r' = bandBytes b r)
    (hlink : ∀ x ∈ r', x.info.inQCount = false → x.info.size ≠ 0 →
      bandMsgs Msg.info x.info.bBand l ≠ []) : Carries c' l r' := by
  obtain ⟨c0,ht,hover⟩ := h.own
  refine ⟨⟨c0,ht,?_,hb ▸ hover.bands.imp fun qp qp0 ho => ho.mono fun x _ hx0 => hband _ hx0⟩,hlink⟩
  rw [hc,hq,hover.count]
  ring

/- A linked band has a structure. -/
theorem Carries.found (alloc : Bool) (h : Carries c l r) (hb : b ≠ 0) (hl : bandMsgs Msg.info b l ≠ []) :
    (findQband Msg.info alloc c b).isSome = true := by
  obtain ⟨c0,ht,hover⟩ := h.own
  obtain ⟨z0,hz0,-⟩ := findQband_owned alloc ht.banded hb hl
  cases hz : findQband Msg.info alloc c b with
  | none => simp [findQband_none_over hover hz] at hz0
  | some z => rfl

/-- Counting a message that is not linked. -/
theorem Carries.hold (alloc fromInsq : Bool) (h : Carries c l r)
    (hg : mp.info.inQCount = true ∨ mp.info.size = 0 ∨ bandMsgs Msg.info mp.info.bBand l ≠ []) :
    Carries (updatequeue Msg.info alloc fromInsq false c mp none none) l (r ++ [mp]) := by
  have hlink : ∀ x ∈ r ++ [mp], x.info.inQCount = false → x.info.size ≠ 0 →
      bandMsgs Msg.info x.info.bBand l ≠ [] := by
    intro x hx hq hs
    cases List.mem_append.mp hx with
    | inl hx => exact h.linked x hx hq hs
    | inr hx =>
      obtain rfl := List.mem_singleton.mp hx
      exact (hg.resolve_left (by simp [hq])).resolve_left hs
  rw [updatequeue]
  cases hq : mp.info.inQCount with
  | true =>
    refine h.requeue (d := mp.info.size) ?_ ?_ ?_ (fun b hb => ?_) hlink
    · rw [schedule_fields.1,countIn_queue false hq]
    · rw [schedule_fields.2,countIn_queue false hq]
    · simp [qBytes_append,hq]
    · simp [bandBytes_append,Info.inQCount_true (v := Msg.info) hq hb]
  | false =>
    obtain ⟨-,hb0,hr⟩ := Info.inQCount_false hq
    have hin : mp.info.inBand mp.info.bBand = true := Info.inBand_iff.mpr hr
    have hother : ∀ b, b ≠ 0 → b ≠ mp.info.bBand → bandBytes b (r ++ [mp]) = bandBytes b r := by
      intro b _ hb
      simp [bandBytes_append,Info.inBand_other hin hb]
    cases hz : findQband Msg.info alloc c mp.info.bBand with
    | none =>
      have hs : mp.info.size = 0 := by
        simp only [hq,Bool.false_eq_true,false_or] at hg
        refine hg.resolve_right fun hl => ?_
        have hfound := h.found alloc hb0 hl
        rw [hz] at hfound
        cases hfound
      refine h.requeue (d := 0) ?_ ?_ ?_ (fun b hb => ?_) hlink
      · rw [schedule_fields.1]
        simp [countIn,hq,hz]
      · rw [schedule_fields.2]
        simp [countIn,hq,hz]
      · simp [qBytes_append,hq]
      · simp [bandBytes_append,hs]
    | some z =>
      refine h.touch hb0 hz (z.qp.countIn mp.info.size) (d := mp.info.size) rfl rfl rfl ?_ hother
        ?_ hlink ?_ ?_
      · simp [bandBytes_append,hin]
      · simp [qBytes_append,hq]
      · rw [schedule_fields.1,countIn_band false hq hz]
      · rw [schedule_fields.2,countIn_band false hq hz,if_neg Bool.false_ne_true]

/-- Taking a message that is not linked off the counters. -/
theorem Carries.release (alloc : Bool) (h : Carries c l (mp :: r)) :
    Carries (adjustQCount Msg.info alloc false c mp none none) l r := by
  have hlink : ∀ x ∈ r, x.info.inQCount = false → x.info.size ≠ 0 →
      bandMsgs Msg.info x.info.bBand l ≠ [] := fun x hx => h.linked x (List.mem_cons_of_mem _ hx)
  have hqb : qBytes (mp :: r) = qBytes [mp] + qBytes r := qBytes_append (r := [mp])
  have hbb : ∀ b, bandBytes b (mp :: r) = bandBytes b [mp] + bandBytes b r :=
    fun b => bandBytes_append (r := [mp])
  cases hq : mp.info.inQCount with
  | true =>
    refine h.requeue (d := -mp.info.size) ?_ ?_ ?_ (fun b hb => ?_) hlink
    · rw [adjustQCount_queue false hq]
      exact sub_eq_add_neg ..
    · rw [adjustQCount_queue false hq]
    · rw [hqb]
      simp [hq]
    · rw [hbb]
      simp [Info.inQCount_true (v := Msg.info) hq hb]
  | false =>
    obtain ⟨-,hb0,hr⟩ := Info.inQCount_false hq
    have hin : mp.info.inBand mp.info.bBand = true := Info.inBand_iff.mpr hr
    cases hz : findQband Msg.info alloc c mp.info.bBand with
    | none =>
      have hs : mp.info.size = 0 := by
        by_contra hs
        have hfound := h.found alloc hb0 (h.linked mp (List.mem_cons_self ..) hq hs)
        rw [hz] at hfound
        cases hfound
      have hz' : findQband Msg.info alloc { c with qFlag := { c.qFlag with qwantr := false } }
          mp.info.bBand = none := hz
      refine h.requeue (d := 0) ?_ ?_ ?_ (fun b hb => ?_) hlink
      · simp [adjustQCount,hq,hz']
      · simp [adjustQCount,hq,hz']
      · rw [hqb]
        simp [hq]
      · rw [hbb]
        simp [hs]
    | some z =>
      rw [adjustQCount_band false _ _ hq hz,if_neg Bool.false_ne_true]
      refine h.touch hb0 hz (chkBand { c.qFlag with qwantr := false }
        { z.qp with qbCount := z.qp.qbCount - mp.info.size }).2 (d := -mp.info.size) (chkBand_first _) (chkBand_last _)
        ?_ ?_ (fun b _ hb => ?_) ?_ hlink rfl rfl
      · rw [chkBand_count]
        exact sub_eq_add_neg ..
      · rw [hbb]
        simp [hin]
      · rw [hbb]
        simp [Info.inBand_other hin hb]
      · rw [hqb]
        simp [hq]

/-- What the counters show: `q_count`, and the count of the structure that is
found for a band. -/
theorem Carries.shows (h : Carries c l r) : c.qCount = qBytes (l ++ r) ∧
    ∀ b, b ≠ 0 → ∀ alloc z, findQband Msg.info alloc c b = some z →
      z.qp.qbCount = bandBytes b (l ++ r) := by
  obtain ⟨c0,ht,hover⟩ := h.own
  refine ⟨by rw [hover.count,ht.count,qBytes_append]; rfl,fun b hb a z hz => ?_⟩
  obtain ⟨z0,hz0,-,hqp,-,hcase⟩ := findQband_over hover hz
  obtain ⟨-,hhold⟩ := findQband_spec ht.banded hb hz0
  rw [bandBytes_append]
  rcases hhold.cases hb with hown | ⟨hfree,hnil⟩
  · obtain ⟨x,-,hf,hi⟩ := hown.head_mem
    simp only [Info.inBand,Bool.and_eq_true,beq_iff_eq] at hi
    rw [hqp.count x (hqp.first.trans hf) (hi.2 ▸ hb),hi.2,hhold.count]
    rfl
  · rcases hcase with hi | ⟨-,hc,-⟩
    · rw [hqp.isBand,hfree.isBand] at hi
      cases hi
    · rw [hc,bandBytes_zero (h.unlinked hb hnil),bandBytes,hnil]
      rfl

end CSLiS.Head
