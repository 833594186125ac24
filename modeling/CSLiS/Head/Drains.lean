import CSLiS.Head.Closing

/-!
# When a closing stream drains

A step keeps what `close_action` needs to know: the counts are those of the messages, `sd_closing` is raised on an empty
stream only, and on an empty stream the service procedure of `sd_wq` is about to see it.
-/

namespace CSLiS.Head.Drain
open Queue Lib.Exec

variable {s t : Drain} {q r : ListQueue} {l m : List ListQueue} {f g : Qflag}

/- What calls on a queue do not change in its flags; it may be enabled. -/
structure Flagged (f g : Qflag) : Prop where
  closewt : g.qclosewt = f.qclosewt
  running : g.qrunning = f.qrunning
  procsoff : g.qprocsoff = f.qprocsoff
  settled : settled g = settled f
  enab : f.qenab = true → g.qenab = true
  wantenab : f.qwantenab = true → g.qwantenab = true

def Counted (q : ListQueue) : Prop := q.core.qCount = sizes Msg.info (qMsgs Msg.info q.msgs)

structure Kept (q r : ListQueue) : Prop where
  flags : Flagged q.core.qFlag r.core.qFlag
  counted : Counted q → Counted r
  srvp : r.core.qiSrvp = q.core.qiSrvp

theorem Flagged.rfl : Flagged f f := ⟨.refl _,.refl _,.refl _,.refl _,id,id⟩

theorem Flagged.trans {k : Qflag} (h : Flagged f g) (h1 : Flagged g k) : Flagged f k :=
  ⟨h1.closewt.trans h.closewt,h1.running.trans h.running,h1.procsoff.trans h.procsoff,h1.settled.trans h.settled,
    h1.enab ∘ h.enab,h1.wantenab ∘ h.wantenab⟩

theorem Kept.rfl : Kept q q := ⟨.rfl,id,.refl _⟩

theorem Kept.trans {k : ListQueue} (h : Kept q r) (h1 : Kept r k) : Kept q k :=
  ⟨h.flags.trans h1.flags,h1.counted ∘ h.counted,h1.srvp.trans h.srvp⟩

theorem qenableFlags_flagged (srvp : Bool) (f : Qflag) : Flagged f (qenableFlags srvp f) := by
  unfold qenableFlags
  split_ifs
  · exact .rfl
  · exact ⟨rfl,rfl,rfl,rfl,id,fun _ => rfl⟩
  · exact .rfl
  · exact ⟨rfl,rfl,rfl,rfl,fun _ => rfl,id⟩

theorem updatequeue_flagged (alloc fromInsq bandPtrs : Bool) (c : Core Msg) (mp : Msg) (k n : Option Msg) :
    Flagged c.qFlag (updatequeue Msg.info alloc fromInsq bandPtrs c mp k n).qFlag := by
  have hcount : Flagged c.qFlag (countIn Msg.info alloc bandPtrs c mp k n).qFlag := by
    unfold countIn
    by_cases hin : mp.info.inQCount = true
    · rw [if_pos hin]
      dsimp only
      split_ifs
      · exact ⟨rfl,rfl,rfl,rfl,id,id⟩
      · exact .rfl
    · rw [if_neg hin]
      split <;> exact .rfl
  unfold updatequeue schedule
  split_ifs
  · exact hcount
  · exact hcount.trans (qenableFlags_flagged _ _)
  · exact hcount

theorem lisPutq_kept (alloc : Msg → Bool) (mp : Msg) : Kept q (q.lisPutq alloc mp) := by
  cases hs : q.core.qFlag.shut with
  | true =>
    rw [show q.lisPutq alloc mp = q from if_pos hs]
    exact .rfl
  | false =>
    obtain ⟨k,m,hkm,hmsgs,-,hcore,-⟩ := ListQueue.lisPutq_open alloc mp hs
    obtain ⟨a,x,w,he,-⟩ := updatequeue_eq true Msg.info (alloc (q.entry mp)) false q.core (q.entry mp) k.getLast? m.head?
    refine ⟨hcore ▸ updatequeue_flagged ..,fun h => ?_,by rw [hcore,he]⟩
    unfold Counted at h ⊢
    rw [← hkm] at h
    rw [hcore,he,hmsgs]
    cases hq : (q.entry mp).info.inQCount with
    | true => rw [if_pos rfl,qMsgs_middle_in hq,h]
    | false => rw [if_neg (by decide),qMsgs_middle_out hq,h]

theorem lisPutbq_kept (alloc : Msg → Bool) (mp : Msg) : Kept q (q.lisPutbq alloc mp) := by
  cases hs : q.core.qFlag.shut with
  | true =>
    rw [show q.lisPutbq alloc mp = q from if_pos hs]
    exact .rfl
  | false =>
    have hput : q.lisPutbq alloc mp = _ := if_neg (by rw [hs]; decide)
    rw [hput]
    obtain ⟨a,x,w,he,-⟩ := updatequeue_eq true Msg.info (alloc (q.entry mp)) false q.core (q.entry mp)
      (headSplit Msg.info q.msgs mp.info).1.getLast? (headSplit Msg.info q.msgs mp.info).2.head?
    refine ⟨updatequeue_flagged ..,fun h => ?_,by dsimp only; rw [he]⟩
    unfold Counted at h ⊢
    rw [← headSplit_append (v := Msg.info) (l := q.msgs) (i := mp.info)] at h
    dsimp only
    rw [he]
    cases hq : (q.entry mp).info.inQCount with
    | true => rw [if_pos rfl,qMsgs_middle_in hq,h]
    | false => rw [if_neg (by decide),qMsgs_middle_out hq,h]

theorem lisBcanput_kept (alloc : Bool) (band : Uchar) : Kept q (q.lisBcanput alloc band).1 := by
  unfold ListQueue.lisBcanput
  split_ifs
  · split
    · exact .rfl
    · exact ⟨.rfl,id,rfl⟩
  · exact ⟨⟨rfl,rfl,rfl,rfl,id,id⟩,id,rfl⟩
  · exact .rfl

theorem rmvFirst_kept (alloc : Bool) : Kept q (q.rmvFirst fun _ => alloc) := by
  have hflags : Flagged q.core.qFlag (q.rmvFirst fun _ => alloc).core.qFlag ∧
      (q.rmvFirst fun _ => alloc).core.qiSrvp = q.core.qiSrvp := by
    unfold ListQueue.rmvFirst
    split
    · exact ⟨⟨rfl,rfl,rfl,rfl,id,id⟩,rfl⟩
    · next mp m hl =>
      obtain ⟨full,wasfull,wantw,qback,he⟩ := adjustQCount_eq true Msg.info alloc q.core mp [].getLast? m.head?
      unfold ListQueue.rmvMsg
      dsimp only
      rw [he]
      exact ⟨⟨rfl,rfl,rfl,rfl,id,id⟩,rfl⟩
  exact ⟨hflags.1,Gap.rmvFirst_counted,hflags.2⟩

theorem lisGetq_kept (alloc : Bool) (back : List BackQ) : Kept q (q.lisGetq (fun _ => alloc) back).1 := by
  unfold ListQueue.lisGetq ListQueue.lisBackenable Queue.lisBackenable
  split_ifs
  · exact .rfl
  · exact (rmvFirst_kept alloc).trans ⟨⟨rfl,rfl,rfl,rfl,id,id⟩,id,rfl⟩
  · exact rmvFirst_kept alloc

/- The queues above with their flags after a search. -/
def withFlags (up : List ListQueue) (back : List BackQ) : List ListQueue :=
  List.zipWith (fun u b => withFlag u b.qFlag) up back

theorem withFlags_same (up : List ListQueue) : withFlags up (up.map backQ) = up := by
  induction up with
  | nil => rfl
  | cons u up ih => exact congrArg (u :: ·) ih

/- A queue of which only the flags changed. -/
structure Above (q r : ListQueue) : Prop extends Kept q r where
  msgs : r.msgs = q.msgs

theorem above_rfl (l : List ListQueue) : List.Forall₂ Above l l := List.forall₂_same.mpr fun _ _ => ⟨.rfl,rfl⟩

theorem backSearch_above (up : List ListQueue) :
    List.Forall₂ Above up (withFlags up (backSearch (up.map backQ)).1) := by
  induction up with
  | nil => exact .nil
  | cons u up ih =>
    have hsame : List.Forall₂ Above up (withFlags up (up.map backQ)) := by
      rw [withFlags_same]
      exact above_rfl up
    rw [List.map_cons]
    unfold backSearch
    dsimp only
    split_ifs
    · exact .cons ⟨⟨.rfl,id,rfl⟩,rfl⟩ hsame
    · exact .cons ⟨⟨qenableFlags_flagged _ _,id,rfl⟩,rfl⟩ hsame
    · exact .cons ⟨⟨qenableFlags_flagged _ _,id,rfl⟩,rfl⟩ ih
    · exact .cons ⟨⟨.rfl,id,rfl⟩,rfl⟩ ih

theorem qenableFlags_closewt (srvp : Bool) (f : Qflag) : (qenableFlags srvp f).qclosewt = f.qclosewt :=
  (qenableFlags_flagged srvp f).closewt

/- A queue behind at which the search does not end. -/
theorem backSearch_on {b : BackQ} {l : List BackQ} (hs : b.qFlag.shut = false)
    (h : (b.qiSrvp && !b.qFlag.qnoenb) = true → b.qFlag.qclosewt = true ∧ b.qCount = 0) :
    ∃ c, (backSearch (b :: l)).1 = c :: (backSearch l).1 := by
  rw [backSearch,if_neg (by rw [hs]; decide)]
  by_cases hsrv : (b.qiSrvp && !b.qFlag.qnoenb) = true
  · obtain ⟨hc,hz⟩ := h hsrv
    rw [if_pos hsrv,if_neg (by simp [qenableFlags_closewt,hc,hz])]
    exact ⟨_,rfl⟩
  · rw [if_neg hsrv]
    exact ⟨_,rfl⟩

/- When the search climbs, `sd_wq` at its end is enabled. -/
theorem backSearch_climbs {up : List ListQueue} (h : Climbs up) (hz : ∀ u ∈ up, u.core.qCount = 0)
    (hsrv : (up.getLast?.any (·.core.qiSrvp)) = true) :
    ∃ q, up.getLast? = some q ∧ settled q.core.qFlag = true ∧
      (withFlags up (backSearch (up.map backQ)).1).getLast? = some (withFlag q (qenableFlags true q.core.qFlag)) := by
  induction up with
  | nil => exact absurd h id
  | cons u up ih =>
    cases up with
    | nil =>
      obtain ⟨hset,hen⟩ := h
      have hsrv : u.core.qiSrvp = true := hsrv
      have hshut : u.core.qFlag.shut = false := by
        unfold settled at hset
        simp only [Bool.and_eq_true,Bool.not_eq_true'] at hset
        exact hset.1.1
      refine ⟨u,rfl,hset,?_⟩
      simp only [List.map_cons,List.map_nil,backSearch,backQ,hshut,hsrv,hen,Bool.false_eq_true,if_false,Bool.not_false,
        Bool.and_true,if_true]
      split_ifs <;> rfl
    | cons v up =>
      obtain ⟨hshut,hwt,hcl⟩ := h
      rw [List.getLast?_cons_cons] at hsrv
      obtain ⟨q,hlast,hset,hres⟩ := ih hcl (fun x hx => hz x (List.mem_cons_of_mem _ hx)) hsrv
      have hcount : u.core.qCount = 0 := hz u (List.mem_cons_self ..)
      have hne : ∃ z l, withFlags (v :: up) (backSearch ((v :: up).map backQ)).1 = z :: l := by
        cases hw : withFlags (v :: up) (backSearch ((v :: up).map backQ)).1 with
        | nil =>
          rw [hw] at hres
          cases hres
        | cons z l => exact ⟨z,l,rfl⟩
      refine ⟨q,by rw [List.getLast?_cons_cons]; exact hlast,hset,?_⟩
      obtain ⟨b,hb⟩ := backSearch_on (l := (v :: up).map backQ) (b := backQ u) hshut fun hs => ⟨hwt hs,hcount⟩
      have he : withFlags (u :: v :: up) (backSearch ((u :: v :: up).map backQ)).1 =
          withFlag u b.qFlag :: withFlags (v :: up) (backSearch ((v :: up).map backQ)).1 := by
        rw [List.map_cons,hb]
        rfl
      obtain ⟨z,l,hzl⟩ := hne
      rw [he,hzl,List.getLast?_cons_cons,← hzl]
      exact hres

theorem lisGetq_back (alloc : Bool) (q : ListQueue) (back : List BackQ) :
    (q.lisGetq (fun _ => alloc) back).2.1 = if !q.core.qFlag.shut && (q.rmvFirst fun _ => alloc).core.wantsBack
      then (backSearch back).1 else back := by
  unfold ListQueue.lisGetq ListQueue.lisBackenable Queue.lisBackenable
  cases q.core.qFlag.shut <;> cases (q.rmvFirst fun _ => alloc).core.wantsBack <;> rfl

theorem lisGetq_msgs (alloc : Bool) (q : ListQueue) (back : List BackQ) :
    (q.lisGetq (fun _ => alloc) back).1.msgs = if q.core.qFlag.shut then q.msgs else q.msgs.tail := by
  unfold ListQueue.lisGetq ListQueue.lisBackenable Queue.lisBackenable ListQueue.rmvFirst
  cases q.core.qFlag.shut
  · cases hl : q.msgs with
    | nil =>
      simp only [Bool.false_eq_true,if_false]
      exact hl
    | cons mp m =>
      simp only [Bool.false_eq_true,if_false]
      rfl
  · rfl

/- The queue at the place, and those above it. -/
theorem getqAt_spec (alloc : Bool) {i : ℕ} (hd : l.drop i = q :: m) :
    ∃ k, getqAt alloc l i = k ++ (q.lisGetq (fun _ => alloc) ((l.take i).reverse.map backQ)).1 :: m ∧
      List.Forall₂ Above (l.take i) k ∧
      k = (withFlags (l.take i).reverse (q.lisGetq (fun _ => alloc) ((l.take i).reverse.map backQ)).2.1).reverse := by
  refine ⟨_,?_,?_,rfl⟩
  · unfold getqAt
    rw [hd]
    rfl
  · rw [lisGetq_back]
    have hup : List.Forall₂ Above (l.take i).reverse (withFlags (l.take i).reverse
        (if !q.core.qFlag.shut && (q.rmvFirst fun _ => alloc).core.wantsBack
          then (backSearch ((l.take i).reverse.map backQ)).1 else (l.take i).reverse.map backQ)) := by
      split_ifs
      · exact backSearch_above _
      · rw [withFlags_same]
        exact above_rfl _
    have hrev := List.forall₂_reverse_iff.mpr hup
    rwa [List.reverse_reverse] at hrev

theorem above_kept {k : List ListQueue} (h : List.Forall₂ Above l k) : List.Forall₂ Kept l k :=
  h.imp fun _ _ h => h.toKept

theorem kept_rfl (l : List ListQueue) : List.Forall₂ Kept l l := above_kept (above_rfl l)

theorem above_left {k : List ListQueue} (h : List.Forall₂ Above l k) :
    k.flatMap (fun q => q.msgs) = l.flatMap fun q => q.msgs := by
  induction h with
  | nil => rfl
  | cons h _ ih => rw [List.flatMap_cons,List.flatMap_cons,ih,h.msgs]

theorem getqAt_kept (alloc : Bool) (l : List ListQueue) (i : ℕ) : List.Forall₂ Kept l (getqAt alloc l i) := by
  cases hd : l.drop i with
  | nil =>
    rw [show getqAt alloc l i = l by unfold getqAt; rw [hd]]
    exact kept_rfl l
  | cons q m =>
    obtain ⟨k,he,hk,-⟩ := getqAt_spec alloc hd
    rw [he]
    conv => lhs; rw [← List.take_append_drop i l,hd]
    exact List.rel_append (above_kept hk) (.cons (lisGetq_kept alloc _) (kept_rfl m))

/- What is left after a message was taken, if one was. -/
theorem getqAt_left (alloc : Bool) {i : ℕ} (hd : l.drop i = q :: m) :
    (getqAt alloc l i).flatMap (fun q => q.msgs) = (l.take i).flatMap (fun q => q.msgs) ++
      ((if q.core.qFlag.shut then q.msgs else q.msgs.tail) ++ m.flatMap fun q => q.msgs) := by
  obtain ⟨k,he,hk,-⟩ := getqAt_spec alloc hd
  rw [he,List.flatMap_append,List.flatMap_cons,above_left hk,lisGetq_msgs]

theorem modify_kept {g : ListQueue → ListQueue} (hg : ∀ q, Kept q (g q)) (l : List ListQueue) (i : ℕ) :
    List.Forall₂ Kept l (l.modify i g) := by
  induction l generalizing i with
  | nil =>
    rw [List.modify_nil]
    exact .nil
  | cons q l ih =>
    cases i with
    | zero => exact .cons (hg q) (kept_rfl l)
    | succ i => exact .cons .rfl (ih i)

theorem headFlag_flagged (h : List.Forall₂ Kept s.wqs l) : Flagged s.headFlag { s with wqs := l }.headFlag := by
  unfold headFlag
  generalize s.wqs = k at h
  cases h with
  | nil => exact .rfl
  | cons h _ => exact h.flags

theorem Attended.mono (ha : Attended s) (h : List.Forall₂ Kept s.wqs l) : Attended { s with wqs := l } := by
  have hf := headFlag_flagged h
  rcases ha with ha | ha | ha | ha | ⟨hd,hw,hs⟩
  · exact .inl ha
  · exact .inr (.inl ha)
  · exact .inr (.inr (.inl ha))
  · exact .inr (.inr (.inr (.inl (hf.enab ha))))
  · exact .inr (.inr (.inr (.inr ⟨hd,hf.wantenab hw,hf.settled.trans hs⟩)))

structure Inv (s : Drain) : Prop where
  counted : ∀ q ∈ s.wqs, Counted q
  running : s.headFlag.qrunning = true ↔ s.srv ≠ .idle
  served : (s.wqs.head?.any (·.core.qiSrvp)) = true
  timed : s.sdClosetime ≠ 0
  marked : s.closer ≠ .start → s.strclose = true
  raised : 0 < s.sdClosing → On s ∨ s.left = [] ∨ s.expired = true
  closewt : Waits s → ∀ q, s.wqs[1]? = some q → q.core.qFlag.qclosewt = true
  attended : Waits s → s.left = [] → Attended s
  went : ∀ l o, s.closer = .on l o → l = [] ∨ o = true

theorem counted_kept {k : List ListQueue} (h : List.Forall₂ Kept l k) (hc : ∀ q ∈ l, Counted q) : ∀ q ∈ k, Counted q := by
  induction h with
  | nil => exact hc
  | cons h _ ih =>
    intro q hq
    rcases List.mem_cons.mp hq with hq | hq
    · exact hq ▸ h.counted (hc _ (List.mem_cons_self ..))
    · exact ih (fun x hx => hc x (List.mem_cons_of_mem _ hx)) q hq

theorem closewt_kept {k : List ListQueue} (h : List.Forall₂ Kept l k)
    (hc : ∀ q, l[1]? = some q → q.core.qFlag.qclosewt = true) : ∀ q, k[1]? = some q → q.core.qFlag.qclosewt = true := by
  intro r hr
  cases h with
  | nil => cases hr
  | cons _ h =>
    cases h with
    | nil => cases hr
    | cons h _ =>
      obtain rfl : _ = r := Option.some.inj hr
      rw [h.flags.closewt]
      exact hc _ rfl

theorem served_kept {k : List ListQueue} (h : List.Forall₂ Kept l k) (hs : (l.head?.any (·.core.qiSrvp)) = true) :
    (k.head?.any (·.core.qiSrvp)) = true := by
  cases h with
  | nil => exact hs
  | cons h _ => exact h.srvp.trans hs

/- The write side changes in a way that keeps its queues. -/
theorem Inv.change (h : Inv s) (hk : List.Forall₂ Kept s.wqs l)
    (hr : 0 < s.sdClosing → On s ∨ { s with wqs := l }.left = [] ∨ s.expired = true)
    (ha : Waits s → { s with wqs := l }.left = [] → Attended { s with wqs := l }) : Inv { s with wqs := l } :=
  ⟨counted_kept hk h.counted,by rw [(headFlag_flagged hk).running]; exact h.running,served_kept hk h.served,h.timed,
    h.marked,hr,
    fun hw => closewt_kept hk (h.closewt hw),ha,h.went⟩

/- Counts of empty queues are zero. -/
theorem qCount_nil (h : Counted q) (hm : q.msgs = []) : q.core.qCount = 0 := by
  unfold Counted at h
  rw [h,hm]
  rfl

theorem left_nil : s.left = [] ↔ ∀ q ∈ s.wqs, q.msgs = [] := List.flatMap_eq_nil_iff

theorem lisQcountstrm_nil (h : Inv s) (hl : s.left = []) : s.lisQcountstrm = 0 := by
  have hz : ∀ q ∈ s.wqs, q.core.qCount = 0 := fun q hq => qCount_nil (h.counted q hq) (left_nil.mp hl q hq)
  unfold lisQcountstrm
  generalize s.wqs = k at hz
  induction k with
  | nil => rfl
  | cons q k ih =>
    rw [List.foldl_cons,hz q (List.mem_cons_self ..)]
    exact ih fun x hx => hz x (List.mem_cons_of_mem _ hx)

theorem sizes_byteSum (k : List Msg) : sizes Msg.info k = BitVec.ofNat 64 (byteSum Msg.info k) := by
  induction k with
  | nil => rfl
  | cons mp k ih =>
    have hsum : byteSum Msg.info (mp :: k) = mp.info.size.toNat + byteSum Msg.info k := by simp [byteSum]
    rw [sizes_cons,ih,hsum,BitVec.ofNat_add,BitVec.ofNat_toNat,BitVec.setWidth_eq]

theorem byteSum_append (k n : List Msg) : byteSum Msg.info (k ++ n) = byteSum Msg.info k + byteSum Msg.info n := by
  simp [byteSum]

/- The count of the stream is that of its messages in an `int`. -/
theorem lisQcountstrm_bytes (h : ∀ q ∈ s.wqs, Counted q) :
    s.lisQcountstrm = BitVec.ofNat 32 (byteSum Msg.info (qMsgs Msg.info s.left)) := by
  have hfold : ∀ (k : List ListQueue) (n : BitVec 32), (∀ q ∈ k, Counted q) →
      k.foldl (fun nbytes q => nbytes + q.core.qCount.setWidth 32) n =
        n + BitVec.ofNat 32 (byteSum Msg.info (qMsgs Msg.info (k.flatMap fun q => q.msgs))) := by
    intro k
    induction k with
    | nil =>
      intro n _
      simp [byteSum,qMsgs]
    | cons q k ih =>
      intro n hc
      have hq : q.core.qCount.setWidth 32 = BitVec.ofNat 32 (byteSum Msg.info (qMsgs Msg.info q.msgs)) := by
        have hcq : q.core.qCount = sizes Msg.info (qMsgs Msg.info q.msgs) := hc q (List.mem_cons_self ..)
        rw [hcq,sizes_byteSum]
        exact BitVec.setWidth_ofNat_of_le (by decide) _
      rw [List.foldl_cons,ih _ fun x hx => hc x (List.mem_cons_of_mem _ hx),hq,List.flatMap_cons,qMsgs_append,
        byteSum_append,BitVec.ofNat_add,BitVec.add_assoc]
  unfold lisQcountstrm
  rw [hfold s.wqs 0 h]
  exact BitVec.zero_add _

/- What a count of zero means. -/
theorem left_of_zero (h : Inv s) (hv : Visible s) (hz : s.lisQcountstrm = 0) : s.left = [] := by
  by_contra hne
  rw [lisQcountstrm_bytes h.counted] at hz
  have hn := congrArg BitVec.toNat hz
  rw [BitVec.toNat_ofNat] at hn
  exact hv hne hn

/- `sd_wq` was enabled. -/
theorem attended_enabled (h : Inv s) (hset : settled s.headFlag = true)
    (hf : t.headFlag = qenableFlags true s.headFlag) (hsrv : t.srv = s.srv) : Attended t := by
  simp only [settled,Qflag.shut,Bool.and_eq_true,Bool.not_eq_true',Bool.or_eq_false_iff] at hset
  obtain ⟨⟨⟨hcl,hoff⟩,hop⟩,hfr⟩ := hset
  unfold Attended
  rw [hf,hsrv]
  by_cases he : s.headFlag.qenab = true
  · exact .inr (.inr (.inr (.inl ((qenableFlags_flagged true _).enab he))))
  have he0 : s.headFlag.qenab = false := by simpa using he
  by_cases hr : s.headFlag.qrunning = true
  · have hin : s.headFlag.inhEnable = true := by simp [Qflag.inhEnable,hr]
    have hdef : s.headFlag.deferEnable = true := by simp [Qflag.deferEnable,hr]
    have hq : qenableFlags true s.headFlag = { s.headFlag with qwantenab := true } := by simp [qenableFlags,hin,hdef]
    rw [hq]
    have hne := h.running.mp hr
    cases hs : s.srv with
    | idle => exact absurd hs hne
    | loop => exact .inr (.inl rfl)
    | test => exact .inr (.inr (.inl rfl))
    | done => exact .inr (.inr (.inr (.inr ⟨rfl,rfl,by simp [settled,Qflag.shut,hcl,hoff,hop,hfr]⟩)))
  · have hr0 : s.headFlag.qrunning = false := by simpa using hr
    have hin : s.headFlag.inhEnable = false := by simp [Qflag.inhEnable,he0,hr0,hcl,hoff,hop,hfr]
    have hq : qenableFlags true s.headFlag = { s.headFlag with qenab := true } := by simp [qenableFlags,hin]
    rw [hq]
    exact .inr (.inr (.inr (.inl rfl)))

/- The last message was taken, and the search of `lis_backenable` came to `sd_wq`. -/
theorem Inv.reached (h : Inv s) (hw : Waits s) (alloc : Bool) {i : ℕ} (hi : i ≠ 0) (hd : s.wqs.drop i = q :: m)
    (hnil : { s with wqs := getqAt alloc s.wqs i }.left = []) (hq : q.msgs ≠ []) (hr : Reaches s i alloc) :
    Attended { s with wqs := getqAt alloc s.wqs i } := by
  obtain ⟨k,he,-,hk⟩ := getqAt_spec alloc hd
  have hleft := (getqAt_left alloc hd).symm.trans hnil
  rw [List.append_eq_nil_iff,List.append_eq_nil_iff] at hleft
  obtain ⟨habove,htail,-⟩ := hleft
  have hopen : q.core.qFlag.shut = false := by
    by_contra hs
    rw [if_pos (by simpa using hs)] at htail
    exact hq htail
  rw [if_neg (by rw [hopen]; decide)] at htail
  have hmem : ∀ u ∈ s.wqs.take i, u ∈ s.wqs := fun u hu => List.mem_of_mem_take hu
  have hqmem : q ∈ s.wqs := List.mem_of_mem_drop (hd ▸ List.mem_cons_self ..)
  have hget : s.wqs[i]? = some q := by
    rw [← List.head?_drop,hd]
    rfl
  have hwants : (q.rmvFirst fun _ => alloc).core.wantsBack = true := by
    rcases hr.1 with h1 | h1
    · have hmsgs : (q.rmvFirst fun _ => alloc).msgs = [] := by
        unfold ListQueue.rmvFirst
        cases hl : q.msgs with
        | nil => exact absurd hl hq
        | cons mp n =>
          rw [hl] at htail
          exact htail
      have hzero := qCount_nil ((rmvFirst_kept alloc).counted (h.counted q hqmem)) hmsgs
      have hwt : (q.rmvFirst fun _ => alloc).core.qFlag.qclosewt = true := by
        rw [(rmvFirst_kept alloc).flags.closewt]
        exact h.closewt hw q (h1 ▸ hget)
      simp [Core.wantsBack,hwt,hzero,BitVec.le_def]
    · rwa [hget] at h1
  have hback : (q.lisGetq (fun _ => alloc) ((s.wqs.take i).reverse.map backQ)).2.1 =
      (backSearch ((s.wqs.take i).reverse.map backQ)).1 := by
    rw [lisGetq_back,hopen,hwants]
    rfl
  have htop : (s.wqs.take i).reverse.getLast? = s.wqs.head? := by
    rw [List.getLast?_reverse]
    cases hwq : s.wqs with
    | nil => rw [List.take_nil]
    | cons x l =>
      obtain ⟨j,rfl⟩ := Nat.exists_eq_succ_of_ne_zero hi
      rfl
  have hzero : ∀ u ∈ (s.wqs.take i).reverse, u.core.qCount = 0 := fun u hu => by
    have hu := List.mem_reverse.mp hu
    exact qCount_nil (h.counted u (hmem u hu)) (List.flatMap_eq_nil_iff.mp habove u hu)
  obtain ⟨z,hz,hset,hres⟩ := backSearch_climbs hr.2 hzero (htop ▸ h.served)
  have hhead : s.wqs.head? = some z := htop.symm.trans hz
  have hflag : s.headFlag = z.core.qFlag := by
    unfold headFlag
    rw [hhead]
    rfl
  refine attended_enabled h (hflag ▸ hset) ?_ rfl
  unfold headFlag
  dsimp only
  rw [he,hk,hback,List.head?_append,List.head?_reverse,hres,hhead]
  rfl

theorem modify_left {k : ListQueue → ListQueue} (hk : ∀ q, (k q).msgs = q.msgs) (l : List ListQueue) (i : ℕ) :
    (l.modify i k).flatMap (fun q => q.msgs) = l.flatMap fun q => q.msgs := by
  induction l generalizing i with
  | nil => rw [List.modify_nil]
  | cons q l ih =>
    cases i with
    | zero => exact congrArg (· ++ _) (hk q)
    | succ i => exact congrArg (_ ++ ·) (ih i)

/- A put does not empty the write side. -/
theorem put_left {k : ListQueue → ListQueue} (hk : ∀ q, (k q).msgs = [] → q.msgs = []) (i : ℕ)
    (h : (l.modify i k).flatMap (fun q => q.msgs) = []) : l.flatMap (fun q => q.msgs) = [] := by
  induction l generalizing i with
  | nil => rfl
  | cons q l ih =>
    cases i with
    | zero =>
      rw [List.modify_zero_cons,List.flatMap_cons,List.append_eq_nil_iff] at h
      rw [List.flatMap_cons,hk q h.1,h.2]
      rfl
    | succ i =>
      rw [List.modify_succ_cons,List.flatMap_cons,List.append_eq_nil_iff] at h
      rw [List.flatMap_cons,h.1,ih i h.2]
      rfl

theorem lisPutq_some (alloc : Msg → Bool) (mp : Msg) (h : (q.lisPutq alloc mp).msgs = []) : q.msgs = [] := by
  cases hs : q.core.qFlag.shut with
  | true =>
    rw [show q.lisPutq alloc mp = q from if_pos hs] at h
    exact h
  | false =>
    obtain ⟨k,m,-,hmsgs,-⟩ := ListQueue.lisPutq_open alloc mp hs
    rw [hmsgs] at h
    simp at h

theorem lisPutbq_some (alloc : Msg → Bool) (mp : Msg) (h : (q.lisPutbq alloc mp).msgs = []) : q.msgs = [] := by
  unfold ListQueue.lisPutbq at h
  split_ifs at h
  · exact h
  · simp at h

theorem lisBcanput_msgs (alloc : Bool) (band : Uchar) : (q.lisBcanput alloc band).1.msgs = q.msgs := by
  unfold ListQueue.lisBcanput
  split_ifs
  · split <;> rfl
  · rfl
  · rfl

theorem getqAt_nil (alloc : Bool) (i : ℕ) (h : l.flatMap (fun q => q.msgs) = []) :
    (getqAt alloc l i).flatMap (fun q => q.msgs) = [] := by
  cases hd : l.drop i with
  | nil =>
    rw [show getqAt alloc l i = l by unfold getqAt; rw [hd]]
    exact h
  | cons q m =>
    rw [getqAt_left alloc hd]
    rw [← List.take_append_drop i l,hd,List.flatMap_append,List.flatMap_cons,List.append_eq_nil_iff,
      List.append_eq_nil_iff] at h
    obtain ⟨h1,h2,h3⟩ := h
    rw [h1,h2,h3]
    split_ifs <;> rfl

theorem Inv.getq (h : Inv s) (alloc : Bool) (i : ℕ)
    (ha : Waits s → s.left ≠ [] → { s with wqs := getqAt alloc s.wqs i }.left = [] →
      Attended { s with wqs := getqAt alloc s.wqs i }) : Inv { s with wqs := getqAt alloc s.wqs i } := by
  have hk := getqAt_kept alloc s.wqs i
  refine h.change hk (fun hp => ?_) fun hw hnil => ?_
  · rcases h.raised hp with hr | hr | hr
    · exact .inl hr
    · exact .inr (.inl (getqAt_nil alloc i hr))
    · exact .inr (.inr hr)
  · by_cases hl : s.left = []
    · exact (h.attended hw hl).mono hk
    · exact ha hw hl hnil

/- The message taken was the last one. -/
theorem getq_last (alloc : Bool) {i : ℕ} (hl : s.left ≠ []) (hnil : { s with wqs := getqAt alloc s.wqs i }.left = []) :
    s.left.length = 1 ∧ ∃ q m, s.wqs.drop i = q :: m ∧ q.msgs ≠ [] := by
  cases hd : s.wqs.drop i with
  | nil =>
    have he : getqAt alloc s.wqs i = s.wqs := by unfold getqAt; rw [hd]
    exact absurd (by rw [he] at hnil; exact hnil) hl
  | cons q m =>
    have hleft := (getqAt_left alloc hd).symm.trans hnil
    rw [List.append_eq_nil_iff,List.append_eq_nil_iff] at hleft
    obtain ⟨h1,h2,h3⟩ := hleft
    have hall : s.left = q.msgs := by
      unfold left
      rw [← List.take_append_drop i s.wqs,hd,List.flatMap_append,List.flatMap_cons,h1,h3,List.append_nil]
      rfl
    have hq : q.msgs ≠ [] := hall ▸ hl
    refine ⟨?_,q,m,rfl,hq⟩
    rw [hall]
    split_ifs at h2
    · exact absurd h2 hq
    · cases hm : q.msgs with
      | nil => exact absurd hm hq
      | cons mp n =>
        rw [hm] at h2
        have hn : n = [] := h2
        rw [hn]
        rfl

theorem Inv.put (h : Inv s) (k : ListQueue → ListQueue) (i : ℕ) (hk : ∀ q, Kept q (k q))
    (hs : ∀ q, (k q).msgs = [] → q.msgs = []) (ha : s.sdClosing = 0 ∨ s.expired = true ∨ On s) :
    Inv { s with wqs := s.wqs.modify i k } := by
  have hkept := modify_kept hk s.wqs i
  refine h.change hkept (fun hp => ?_) fun hw hnil => (h.attended hw (put_left hs i hnil)).mono hkept
  rcases ha with ha | ha | ha
  · omega
  · exact .inr (.inr ha)
  · exact .inl ha

theorem Inv.canput (h : Inv s) (i : ℕ) (alloc : Bool) (band : Uchar) :
    Inv { s with wqs := s.wqs.modify i fun q => (q.lisBcanput alloc band).1 } := by
  have hkept := modify_kept (fun q => lisBcanput_kept (q := q) alloc band) s.wqs i
  have hleft : { s with wqs := s.wqs.modify i fun q => (q.lisBcanput alloc band).1 }.left = s.left :=
    modify_left (fun q => lisBcanput_msgs (q := q) alloc band) s.wqs i
  refine h.change hkept (fun hp => ?_) fun hw hnil => (h.attended hw (hleft ▸ hnil)).mono hkept
  rw [hleft]
  exact h.raised hp

section ModifyHead

variable {k : Bool → Qflag → Qflag}

theorem modifyHead_left : (s.modifyHead k).left = s.left :=
  modify_left (fun q => (rfl : (withFlag q (k q.core.qiSrvp q.core.qFlag)).msgs = q.msgs)) s.wqs 0

theorem modify_counted {f : ListQueue → Qflag} (hc : ∀ q ∈ l, Counted q) (i : ℕ) :
    ∀ q ∈ l.modify i fun q => withFlag q (f q), Counted q := by
  induction l generalizing i with
  | nil =>
    rw [List.modify_nil]
    exact hc
  | cons z l ih =>
    have hz := hc z (List.mem_cons_self ..)
    have hl := fun q hq => hc q (List.mem_cons_of_mem _ hq)
    cases i with
    | zero => exact List.forall_mem_cons.mpr ⟨hz,hl⟩
    | succ i => exact List.forall_mem_cons.mpr ⟨hz,ih hl i⟩

theorem modifyHead_counted (hc : ∀ q ∈ s.wqs, Counted q) : ∀ q ∈ (s.modifyHead k).wqs, Counted q :=
  modify_counted hc 0

theorem modifyHead_served (h : (s.wqs.head?.any (·.core.qiSrvp)) = true) :
    ((s.modifyHead k).wqs.head?.any (·.core.qiSrvp)) = true := by
  obtain ⟨q,hq,hs⟩ := (Option.any_eq_true _ _).mp h
  obtain ⟨l,hl⟩ := List.head?_eq_some_iff.mp hq
  unfold modifyHead
  rw [hl]
  exact hs

theorem modifyHead_next : (s.modifyHead k).wqs[1]? = s.wqs[1]? := List.getElem?_modify_ne _ _ (by decide)

theorem modifyHead_flag (hq : s.wqs.head? = some q) : (s.modifyHead k).headFlag = k q.core.qiSrvp q.core.qFlag := by
  obtain ⟨l,hl⟩ := List.head?_eq_some_iff.mp hq
  simp [modifyHead,headFlag,hl,withFlag]

end ModifyHead

/- The service procedure of `sd_wq` starts, with the queue marked as running. -/
theorem Inv.dispatch (h : Inv s) : Inv { s.modifyHead dispatched with srv := .loop } := by
  obtain ⟨q,hq,hs⟩ := (Option.any_eq_true _ _).mp h.served
  have hflag := modifyHead_flag (k := dispatched) hq
  refine ⟨modifyHead_counted (k := dispatched) h.counted,?_,
    modifyHead_served (k := dispatched) h.served,h.timed,h.marked,
    fun hp => ?_,fun hw q hq => ?_,fun _ _ => .inr (.inl rfl),h.went⟩
  · show (s.modifyHead dispatched).headFlag.qrunning = true ↔ _
    rw [hflag]
    simp [dispatched]
  · have hr := h.raised hp
    rw [← modifyHead_left (k := dispatched)] at hr
    exact hr
  · exact h.closewt hw q (modifyHead_next.symm.trans hq)

theorem finished_running (srvp : Bool) (f : Qflag) : (finished srvp f).qrunning = false := by
  unfold finished
  dsimp only
  split_ifs
  · exact (qenableFlags_flagged _ _).running
  · rfl

theorem finished_enab (h : f.qenab = true ∨ (f.qwantenab = true ∧ settled f = true)) :
    (finished true f).qenab = true := by
  unfold finished
  dsimp only
  by_cases he : f.qenab = true
  · rw [if_neg (by simp [Qflag.inhEnable,he])]
    exact he
  · have he0 : f.qenab = false := by simpa using he
    obtain ⟨hw,hset⟩ := h.resolve_left he
    simp only [settled,Qflag.shut,Bool.and_eq_true,Bool.not_eq_true',Bool.or_eq_false_iff] at hset
    obtain ⟨⟨⟨hcl,hoff⟩,hop⟩,hfr⟩ := hset
    simp [qenableFlags,Qflag.inhEnable,hw,he0,hcl,hoff,hop,hfr]

/- It ends, and is scheduled again if that was put off. -/
theorem Inv.finish (h : Inv s) (hd : s.srv = .done) : Inv { s.modifyHead finished with srv := .idle } := by
  obtain ⟨q,hq,hs⟩ := (Option.any_eq_true _ _).mp h.served
  have hold : s.headFlag = q.core.qFlag := by
    unfold headFlag
    rw [hq]
    rfl
  have hflag := modifyHead_flag (k := finished) hq
  refine ⟨modifyHead_counted h.counted,?_,modifyHead_served h.served,h.timed,h.marked,fun hp => ?_,fun hw q hq => ?_,
    fun hw hnil => ?_,h.went⟩
  · show (s.modifyHead finished).headFlag.qrunning = true ↔ _
    rw [hflag,finished_running]
    simp
  · have hr := h.raised hp
    rw [← modifyHead_left] at hr
    exact hr
  · exact h.closewt hw q (modifyHead_next.symm.trans hq)
  · have hen : s.headFlag.qenab = true ∨ (s.headFlag.qwantenab = true ∧ settled s.headFlag = true) →
        (s.modifyHead finished).headFlag.qenab = true := by
      intro hx
      rw [hflag,hs]
      exact finished_enab (hold ▸ hx)
    rcases h.attended hw (modifyHead_left.symm.trans hnil) with ha | ha | ha | ha | ⟨-,ha⟩
    · exact .inl ha
    · rw [hd] at ha
      cases ha
    · rw [hd] at ha
      cases ha
    · exact .inr (.inr (.inr (.inl (hen (.inl ha)))))
    · exact .inr (.inr (.inr (.inl (hen (.inr ha)))))

/- `close_action` sets `QCLOSEWT`. -/
theorem Inv.flag (h : Inv s) (hc : s.closer = .flag) (ha : s.left = [] → Attended s) :
    Inv { s with
      wqs := s.wqs.modify 1 fun q => withFlag q { q.core.qFlag with qclosewt := true }, closer := .timer } := by
  have hleft : (s.wqs.modify 1 fun q => withFlag q { q.core.qFlag with qclosewt := true }).flatMap (fun q => q.msgs) =
      s.left := modify_left (fun q => (rfl : (withFlag q { q.core.qFlag with qclosewt := true }).msgs = q.msgs)) s.wqs 1
  have hhead : (s.wqs.modify 1 fun q => withFlag q { q.core.qFlag with qclosewt := true }).head? = s.wqs.head? := by
    cases s.wqs <;> rfl
  have hflag : { s with
      wqs := s.wqs.modify 1 fun q => withFlag q { q.core.qFlag with qclosewt := true }
      closer := Closer.timer }.headFlag = s.headFlag := by
    unfold headFlag
    rw [hhead]
  refine ⟨modify_counted h.counted 1,?_,by rw [hhead]; exact h.served,h.timed,
    fun _ => h.marked (by rw [hc]; decide),fun hp => ?_,fun _ q hq => ?_,
    fun _ hnil => ?_,fun l o hon => (by cases hon)⟩
  · rw [hflag]
    exact h.running
  · rcases h.raised hp with hon | hr | hr
    · rw [On,hc] at hon
      cases hon
    · exact .inr (.inl (hleft.trans hr))
    · exact .inr (.inr hr)
  · rw [List.getElem?_modify_eq] at hq
    cases hz : s.wqs[1]? with
    | none => simp [hz] at hq
    | some z =>
      rw [hz] at hq
      obtain rfl := Option.some.inj hq
      rfl
  · have hatt := ha (hleft.symm.trans hnil)
    unfold Attended at hatt ⊢
    rw [hflag]
    exact hatt

/- While `close_action` is not through, `sd_closing` is raised on an empty stream or when the time is over. -/
theorem Inv.raised_off (h : Inv s) (hc : s.closer.isOn = false) (hp : 0 < s.sdClosing) :
    s.left = [] ∨ s.expired = true := by
  rcases h.raised hp with hon | hr
  · exact absurd (hc.symm.trans hon) (by decide)
  · exact hr

/- `close_action` gets to a place where it does not wait. -/
theorem Inv.goes {c : Closer} {n : ℕ} (h : Inv s) (tm : Bool) (hw : c ≠ .timer ∧ c ≠ .down)
    (hr : 0 < n → c.isOn = true ∨ s.left = [] ∨ s.expired = true)
    (hg : ∀ l o, c = .on l o → l = [] ∨ o = true) :
    Inv { s with strclose := true, sdCloseTimer := tm, sdClosing := n, closer := c } := by
  have hwaits : ¬Waits { s with strclose := true, sdCloseTimer := tm, sdClosing := n, closer := c } :=
    not_or.mpr hw
  exact ⟨h.counted,h.running,h.served,h.timed,fun _ => rfl,hr,fun hc => absurd hc hwaits,fun hc => absurd hc hwaits,hg⟩

/- What `close_action` finds when it goes on after its test, or after its sleep. -/
theorem Inv.goes_on {n : ℕ} (h : Inv s) (tm : Bool) (hs : s.strclose = true) (hl : s.left = [] ∨ s.expired = true) :
    Inv { s with sdCloseTimer := tm, sdClosing := n, closer := .on s.left s.expired } := by
  have hg := h.goes (c := .on s.left s.expired) (n := n) tm ⟨by simp,by simp⟩ (fun _ => .inl rfl) fun l o hon => by
    cases hon
    exact hl
  rwa [← hs] at hg

theorem inv_step (a : Act) (h : Inv s) (ha : Allowed s a) (hs : step s a = some t) : Inv t := by
  cases a with
  | mark =>
    simp only [step] at hs
    split_ifs at hs with hc
    obtain rfl := Option.some.inj hs
    exact h.goes _ ⟨by decide,by decide⟩ (fun hp => .inr (h.raised_off (by rw [hc]; rfl) hp)) fun l o hon => by cases hon
  | test =>
    simp only [step] at hs
    split_ifs at hs with hc hz
    all_goals
      obtain rfl := Option.some.inj hs
      have hm : s.strclose = true := h.marked (by rw [hc]; decide)
    · have hg := h.goes (c := .flag) s.sdCloseTimer ⟨by decide,by decide⟩
        (fun hp => .inr (h.raised_off (by rw [hc]; rfl) hp)) fun l o hon => by cases hon
      rwa [← hm] at hg
    · have hzero : s.lisQcountstrm = 0 := by
        by_contra hn
        exact hz ⟨h.timed,hn⟩
      exact h.goes_on _ hm (.inl (left_of_zero h ha hzero))
  | flag =>
    simp only [step] at hs
    split_ifs at hs with hc
    exact Option.some.inj hs ▸ h.flag hc ha
  | timer =>
    simp only [step] at hs
    split_ifs at hs with hc
    obtain rfl := Option.some.inj hs
    have hm : s.strclose = true := h.marked (by rw [hc]; decide)
    exact ⟨h.counted,h.running,h.served,h.timed,fun _ => hm,fun hp => .inr (h.raised_off (by rw [hc]; rfl) hp),
      fun _ => h.closewt (.inl hc),fun _ => h.attended (.inl hc),fun l o hon => by cases hon⟩
  | down =>
    simp only [step] at hs
    split_ifs at hs with hc
    obtain rfl := Option.some.inj hs
    have hm : s.strclose = true := h.marked (by rw [hc.1]; decide)
    exact h.goes_on false hm (h.raised_off (by rw [hc.1]; rfl) hc.2)
  | interrupt =>
    simp only [step] at hs
    split_ifs at hs with hc
    obtain rfl := Option.some.inj hs
    have hm : s.strclose = true := h.marked (by rw [hc]; decide)
    exact h.goes_on false hm ha
  | expire =>
    simp only [step] at hs
    split_ifs at hs
    exact Option.some.inj hs ▸ ⟨h.counted,h.running,h.served,h.timed,h.marked,fun _ => .inr (.inr rfl),h.closewt,
      fun _ _ => .inl (Nat.succ_pos _),h.went⟩
  | dispatch lockq =>
    simp only [step] at hs
    split_ifs at hs with hc hl hx
    · exact Option.some.inj hs ▸ h.dispatch
    · exact absurd (by rw [ha.2,h.served]; rfl) hx
    · exact absurd ha.1 hl
  | strw couldput alloc =>
    simp only [step] at hs
    split_ifs at hs with hc hp hx
    · obtain rfl := Option.some.inj hs
      obtain ⟨gc,gr,gs,gt,gm,gd,gw,-,gg⟩ := h.getq alloc 0 fun _ _ _ => .inr (.inl hc)
      exact ⟨gc,gr.trans (by simp [hc]),gs,gt,gm,gd,gw,fun _ _ => .inr (.inl rfl),gg⟩
    · obtain rfl := Option.some.inj hs
      obtain ⟨gc,gr,gs,gt,gm,gd,gw,-,gg⟩ := h.getq alloc 0 fun _ _ _ => .inr (.inl hc)
      exact ⟨gc,gr.trans (by simp [hc]),gs,gt,gm,gd,gw,fun _ _ => .inr (.inr (.inl rfl)),gg⟩
    · obtain rfl := Option.some.inj hs
      exact ⟨h.counted,h.running.trans (by simp [hc]),h.served,h.timed,h.marked,h.raised,h.closewt,
        fun _ _ => .inr (.inr (.inl rfl)),h.went⟩
  | srvTest =>
    simp only [step] at hs
    split_ifs at hs with hc hz
    · obtain rfl := Option.some.inj hs
      simp only [Bool.and_eq_true,decide_eq_true_eq] at hz
      refine ⟨h.counted,h.running.trans ?_,h.served,h.timed,h.marked,fun _ => .inr (.inl ?_),h.closewt,
        fun _ _ => .inl (Nat.succ_pos _),h.went⟩
      · rw [hc]
        simp
      · have hl : s.left = [] := left_of_zero h (ha hz.1) hz.2
        exact hl
    · obtain rfl := Option.some.inj hs
      refine ⟨h.counted,h.running.trans ?_,h.served,h.timed,h.marked,h.raised,h.closewt,fun hw hnil => ?_,h.went⟩
      · rw [hc]
        simp
      · have hm : s.strclose = true := h.marked (by rcases hw with hw | hw <;> rw [show s.closer = _ from hw] <;> decide)
        exact absurd (by rw [hm,lisQcountstrm_nil h hnil]; rfl) hz
  | finish =>
    simp only [step] at hs
    split_ifs at hs with hd
    exact Option.some.inj hs ▸ h.finish hd
  | getq i alloc =>
    simp only [step] at hs
    split_ifs at hs with hi
    refine Option.some.inj hs ▸ h.getq alloc i fun hw hl hnil => ?_
    obtain ⟨hone,q,m,hd,hq⟩ := getq_last alloc hl hnil
    have hget : s.wqs[i]? = some q := by
      rw [← List.head?_drop,hd]
      rfl
    exact h.reached hw alloc hi hd hnil hq (ha hw hone (by rw [hget]; simpa using hq))
  | put i back alloc mp =>
    simp only [step] at hs
    split_ifs at hs with hi
    · exact Option.some.inj hs ▸
        h.put _ i (fun q => lisPutbq_kept alloc mp) (fun q hq => lisPutbq_some alloc mp hq) ha
    · exact Option.some.inj hs ▸
        h.put _ i (fun q => lisPutq_kept alloc mp) (fun q hq => lisPutq_some alloc mp hq) ha
  | canput i alloc band => exact Option.some.inj hs ▸ h.canput i alloc band

/- `close_action` goes on when nothing is left or the close time is over, and while it sleeps on an empty stream it is
about to be woken. -/
theorem closer_drains (b : Begun) (as : List Act) (hm : Meets step Allowed (start b) as)
    (h : exec step (start b) as = some t) :
    (∀ l o, t.closer = .on l o → l = [] ∨ o = true) ∧ (Waits t → t.left = [] → Attended t) := by
  have hstart : Inv (start b) := by
    refine ⟨fun q hq => ?_,b.running,b.served,b.timed,fun hc => absurd rfl hc,fun hp => absurd hp (Nat.lt_irrefl 0),
      fun hw => ?_,fun hw => ?_,fun l o hon => (by cases hon)⟩
    · rcases List.mem_cons.mp hq with hq | hq
      · rw [hq]
        exact b.wq.counted
      · obtain ⟨c,-,rfl⟩ := List.mem_map.mp hq
        exact c.counted
    · rcases hw with hw | hw <;> cases hw
    · rcases hw with hw | hw <;> cases hw
  have hinv := exec_preserves (fun _ a _ hI hc hs => inv_step a hI hc hs) hstart hm h
  exact ⟨hinv.went,hinv.attended⟩

def bare : CountedQueue := { ListQueue.empty {} 8 4 true with counted := rfl }

/- A queue with one message of 12 bytes. -/
def laden : CountedQueue where
  toListQueue := (ListQueue.empty {} 8 4 true).lisPutq (fun _ => true) ⟨⟨0,false,⟨M_DATA,12,[]⟩,[]⟩,0⟩
  counted := by decide +kernel

def begun (below : List CountedQueue) : Begun := ⟨bare,below,15000,.idle,by decide,rfl,by decide⟩

/- The message is on the first queue below the head. -/
theorem closer_drains_first : ∃ t, exec step (start (begun [laden,bare]))
    [.mark,.test,.flag,.timer,.getq 1 true,.dispatch true,.strw true true,.srvTest,.finish,.down] = some t ∧
    t.closer = .on [] false ∧
    (∀ l o, t.closer = .on l o → l = [] ∨ o = true) ∧ (Waits t → t.left = [] → Attended t) := by
  obtain ⟨t,ht,hc⟩ := (Option.any_eq_true _ _).mp (show (exec step (start (begun [laden,bare]))
    [.mark,.test,.flag,.timer,.getq 1 true,.dispatch true,.strw true true,.srvTest,.finish,.down]).any
      (fun t => t.closer == .on [] false) = true by decide +kernel)
  exact ⟨t,ht,beq_iff_eq.mp hc,closer_drains (begun [laden,bare]) _ (by decide +kernel) ht⟩

/- It is on the queue below that one. -/
theorem drained_unseen : ¬ ∀ (b : Begun) (as : List Act) (t : Drain), exec step (start b) as = some t →
    (∀ l o, t.closer = .on l o → l = [] ∨ o = true) ∧ (Waits t → t.left = [] → Attended t) := by
  intro h
  obtain ⟨t,ht,hc⟩ := (Option.any_eq_true _ _).mp (show (exec step (start (begun [bare,laden]))
    [.mark,.test,.flag,.timer,.getq 2 true]).any
      (fun t => t.closer == .down && t.left.isEmpty && !decide (Attended t)) = true by decide +kernel)
  simp only [Bool.and_eq_true,beq_iff_eq,List.isEmpty_iff,Bool.not_eq_true',decide_eq_false_iff_not] at hc
  exact hc.2 ((h (begun [bare,laden]) _ t ht).2 (.inr hc.1.1) hc.1.2)

end CSLiS.Head.Drain
