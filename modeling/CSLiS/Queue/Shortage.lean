import CSLiS.Lib.Exec
import CSLiS.Queue.ListQueue
import CSLiS.Queue.Marks

/-!
# Counters when band structures cannot be allocated (head/queue.c)

A message whose band gets no structure is queued uncounted. Its removal asks `find_qband` again, which may now find an
unused structure or allocate one, and subtracts what was never added.
-/

namespace CSLiS.Queue
open Lib.Exec Lib.Split

variable {P : Type} {v : P → Info} {l m : List P} {b b' : Uchar} {c : Core P} {qp : Qband P} {z : BandAt P}
  {qps pre post : List (Qband P)} {mp : P} {alloc : Bool}

/- An unused structure, with nothing left in it. -/
def Qband.Idle (qp : Qband P) : Prop := qp.Free ∧ qp.qbCount = 0 ∧ qp.qbFull = false

/- Every structure is unused or serves a band, no two serve the same. A band with messages may be without one. -/
structure Serving (v : P → Info) (qps : List (Qband P)) (l : List P) : Prop where
  each : ∀ qp ∈ qps, qp.Idle ∨ ∃ b, qp.Owns v l b
  distinct : qps.Pairwise fun p q => ∀ b, p.isBand v b = true → q.isBand v b = false

structure Upheld (v : P → Info) (c : Core P) (l : List P) : Prop where
  nodup : l.Nodup
  ordered : Ordered v l
  count : c.qCount = sizes v (qMsgs v l)
  serving : Serving v c.qBandp l

/- `find_qband` gives no structure to a band that has messages and no structure. -/
def Steady (v : P → Info) (alloc : Bool) (c : Core P) (l : List P) (i : Info) : Prop :=
  i.inQCount = false → bandMsgs v i.bBand l ≠ [] → (∀ qp ∈ c.qBandp, qp.isBand v i.bBand = false) →
    findQband v alloc c i.bBand = none

/- The message, when on the queue, is in one of the counters. -/
def Core.counts (v : P → Info) (c : Core P) (i : Info) : Bool :=
  i.inQCount || c.qBandp.any fun qp => qp.isBand v i.bBand

theorem Serving.isBand_iff (h : Serving v qps l) (hq : qp ∈ qps) : qp.isBand v b = true ↔ qp.Owns v l b := by
  rcases h.each qp hq with hf | ⟨b',ho⟩
  · rw [hf.1.isBand]
    refine ⟨fun hc => (by cases hc),fun ho => ?_⟩
    have := ho.first_ne
    simp [hf.1.1] at this
  · rw [ho.isBand]
    exact ⟨fun he => he ▸ ho,fun h' => ho.unique h'⟩

theorem Upheld.of_eq {c' : Core P} (h : Upheld v c l) (hc : c'.qCount = c.qCount) (hb : c'.qBandp = c.qBandp) :
    Upheld v c' l := ⟨h.nodup,h.ordered,hc.trans h.count,hb ▸ h.serving⟩

theorem Serving.perm (h : Serving v qps l) {qps' : List (Qband P)} (hp : qps.Perm qps') : Serving v qps' l := by
  refine ⟨fun qp hq => h.each qp (hp.mem_iff.mpr hq),(hp.pairwise_iff fun hd b hq => ?_).mp h.distinct⟩
  by_contra hc
  have := hd b (by simpa using hc)
  rw [hq] at this
  cases this

/- The structures other than that of band b serve the other bands as before. -/
theorem Serving.fill (h : Serving v (pre ++ post) l) (hn : ∀ x ∈ pre ++ post, x.isBand v b = false)
    (hm : ∀ b', b' ≠ b → b' ≠ 0 → bandMsgs v b' m = bandMsgs v b' l) (hq : qp.Owns v m b ∨ qp.Idle) :
    Serving v (pre ++ qp :: post) m := by
  refine Serving.perm ⟨fun x hx => ?_,List.pairwise_cons.mpr ⟨fun x hx b' hb => ?_,h.distinct⟩⟩ List.perm_middle.symm
  · rcases List.mem_cons.mp hx with rfl | hx
    · exact hq.symm.imp_right fun ho => ⟨b,ho⟩
    · refine (h.each x hx).imp_right fun ⟨b',ho⟩ => ⟨b',ho.congr (hm b' ?_ ho.1) rfl⟩
      rintro rfl
      have := hn x hx
      rw [ho.isBand.mpr rfl] at this
      cases this
  · rcases hq with ho | hi
    · exact ho.isBand.mp hb ▸ hn x hx
    · rw [hi.1.isBand] at hb
      cases hb

/- No structure changes while a message of a band without one comes or goes. -/
theorem Serving.other (h : Serving v qps l) (hn : ∀ x ∈ qps, x.isBand v b = false)
    (hm : ∀ b', b' ≠ b → b' ≠ 0 → bandMsgs v b' m = bandMsgs v b' l) : Serving v qps m := by
  refine ⟨fun x hx => (h.each x hx).imp_right fun ⟨b',ho⟩ => ⟨b',ho.congr (hm b' ?_ ho.1) rfl⟩,h.distinct⟩
  rintro rfl
  have := hn x hx
  rw [ho.isBand.mpr rfl] at this
  cases this

/- What `find_qband` gives describes the band, and no other structure serves it. -/
theorem findQband_serving (h : Serving v c.qBandp l) (hz : findQband v alloc c b = some z)
    (hs : bandMsgs v b l ≠ [] → (∀ qp ∈ c.qBandp, qp.isBand v b = false) → findQband v alloc c b = none) :
    z.qp.Holds v l b ∧ Serving v (z.pre ++ z.post) l ∧ (∀ x ∈ z.pre ++ z.post, x.isBand v b = false) ∧
      ∀ b', b' ≠ b → c.qBandp.any (·.isBand v b') = (z.pre ++ z.post).any (·.isBand v b') := by
  have hmid : ∀ {x : Qband P}, c.qBandp = z.pre ++ x :: z.post → Serving v (z.pre ++ z.post) l ∧
      (∀ y ∈ z.pre ++ z.post, ∀ b, x.isBand v b = true → y.isBand v b = false) := by
    intro x he
    obtain ⟨hea,hd⟩ := h.perm (he ▸ List.perm_middle)
    obtain ⟨hx,hd⟩ := List.pairwise_cons.mp hd
    exact ⟨⟨fun y hy => hea y (List.mem_cons_of_mem _ hy),hd⟩,hx⟩
  have hnil : (∀ qp ∈ c.qBandp, qp.isBand v b = false) → bandMsgs v b l = [] := by
    intro hn
    by_contra hne
    rw [hs hne hn] at hz
    cases hz
  rcases findQband_cases hz with ⟨hi,he⟩ | ⟨hn,⟨qp,hf,he,hr,-⟩ | ⟨he,-,-⟩⟩
  · have hq : z.qp ∈ c.qBandp := by rw [he]; simp [BandAt.chain]
    have ho := (h.isBand_iff hq).mp hi
    obtain ⟨hserv,hx⟩ := hmid he
    refine ⟨ho.2.2,hserv,fun y hy => hx y hy b hi,fun b' hb' => ?_⟩
    have hne : z.qp.isBand v b' = false := by
      by_contra hc
      exact hb' (ho.isBand.mp (by simpa using hc)).symm
    rw [he]
    simp [BandAt.chain,hne]
  · obtain ⟨hserv,-⟩ := hmid he
    have hfree : ∀ b', qp.isBand v b' = false := fun b' => by simp [Qband.isBand,hf]
    have hidle : qp.Free := by
      rcases h.each qp (by rw [he]; simp) with hi | ⟨b',ho⟩
      · exact hi.1
      · have := ho.first_ne
        simp [hf] at this
    refine ⟨.of_empty (hnil hn) (by rw [hr]; exact hidle) (by rw [hr]; rfl),hserv,fun y hy => hn y ?_,fun b' _ => ?_⟩
    · rw [he]
      rcases List.mem_append.mp hy with hy | hy <;> simp [hy]
    · rw [he]
      simp [hfree]
  · subst he
    exact ⟨.of_empty (hnil hn) ⟨rfl,rfl⟩ rfl,h,hn,fun _ _ => rfl⟩

theorem findQband_none (hz : findQband v alloc c b = none) : ∀ qp ∈ c.qBandp, qp.isBand v b = false := by
  intro qp hq
  by_contra hc
  have := findQband_isSome_iff.mpr (.inr ⟨qp,hq,.inr (by simpa using hc)⟩ : alloc = true ∨ _)
  rw [hz] at this
  cases this

theorem counts_other {c' : Core P} {i : Info} (hi : i.bBand ≠ b) (hc : c'.qBandp = pre ++ qp :: post)
    (hq : qp.Owns v l b ∨ qp.Idle)
    (hany : ∀ b', b' ≠ b → c.qBandp.any (·.isBand v b') = (pre ++ post).any (·.isBand v b')) :
    c'.counts v i = c.counts v i := by
  have hne : qp.isBand v i.bBand = false := by
    rcases hq with ho | hf
    · by_contra hb
      exact hi (ho.isBand.mp (by simpa using hb)).symm
    · exact hf.1.isBand
  unfold Core.counts
  rw [hany _ hi,hc]
  simp [hne]

section Counting
variable [DecidableEq P]

/- A message comes in, counted or not. -/
theorem countIn_upheld (h : Upheld v c (l ++ m)) (hmp : mp ∉ l ++ m) (hl : ∀ x ∈ l, (v mp).rank ≤ (v x).rank)
    (hm : ∀ x ∈ m, (v x).rank ≤ (v mp).rank) (hs : Steady v alloc c (l ++ m) (v mp)) :
    Upheld v (countIn v alloc true c mp l.getLast? m.head?) (l ++ mp :: m) ∧
      (∀ x ∈ l ++ m, (countIn v alloc true c mp l.getLast? m.head?).counts v (v x) = c.counts v (v x)) ∧
      (countIn v alloc true c mp l.getLast? m.head?).counts v (v mp) =
        ((v mp).inQCount || (findQband v alloc c (v mp).bBand).isSome) := by
  have hnd := List.nodup_middle.mpr (List.nodup_cons.mpr ⟨hmp,h.nodup⟩)
  have hord := h.ordered.insert hl hm
  cases hq : (v mp).inQCount with
  | true =>
    rw [countIn_queue true hq]
    refine ⟨⟨hnd,hord,?_,?_⟩,fun x _ => rfl,by simp [Core.counts,hq]⟩
    · rw [qMsgs_middle_in hq,← h.count]
    · have hout : ∀ b, b ≠ 0 → bandMsgs v b (l ++ mp :: m) = bandMsgs v b (l ++ m) := fun b hb =>
        bandMsgs_middle_out (Info.inQCount_true hq hb)
      refine ⟨fun x hx => ?_,h.serving.distinct⟩
      exact (h.serving.each x hx).imp_right fun ⟨b,ho⟩ => ⟨b,ho.congr (hout b ho.1) rfl⟩
  | false =>
    obtain ⟨hhi,hb0,hr⟩ := Info.inQCount_false hq
    have hin : (v mp).inBand (v mp).bBand = true := Info.inBand_iff.mpr hr
    have hother : ∀ b', b' ≠ (v mp).bBand → b' ≠ 0 → bandMsgs v b' (l ++ mp :: m) = bandMsgs v b' (l ++ m) :=
      fun b' hb _ => bandMsgs_middle_out (Info.inBand_other hin hb)
    rw [hr] at hl hm
    cases hz : findQband v alloc c (v mp).bBand with
    | none =>
      have hnone := findQband_none hz
      have hsame : countIn v alloc true c mp l.getLast? m.head? = c := by simp [countIn,hq,hz]
      rw [hsame]
      refine ⟨⟨hnd,hord,?_,h.serving.other hnone hother⟩,fun x _ => rfl,?_⟩
      · rw [qMsgs_middle_out hq,h.count]
      · simpa [Core.counts,hq] using hnone
    | some z =>
      obtain ⟨hhold,hserv,hn,hany⟩ := findQband_serving h.serving hz fun hne hno => hs hq hne hno
      have hnew : (bandLinkIn mp l.getLast? m.head? (z.qp.countIn (v mp).size)).Holds v (l ++ mp :: m)
          (v mp).bBand := (bandLinkIn_holds h.nodup h.ordered hl hm hin hhold).of_eq rfl rfl rfl
      have howns : (bandLinkIn mp l.getLast? m.head? (z.qp.countIn (v mp).size)).Owns v (l ++ mp :: m) (v mp).bBand :=
        ⟨hb0,by simp [bandMsgs_append,bandMsgs_cons_in hin],hnew⟩
      have hset : countIn v alloc true c mp l.getLast? m.head? =
          { c with qBandp := z.pre ++ bandLinkIn mp l.getLast? m.head? (z.qp.countIn (v mp).size) :: z.post } :=
        countIn_band true hq hz
      rw [hset]
      refine ⟨⟨hnd,hord,?_,hserv.fill hn hother (.inl howns)⟩,fun x hx => ?_,?_⟩
      · rw [qMsgs_middle_out hq,h.count]
      · cases hx' : (v x).inQCount with
        | true => simp [Core.counts,hx']
        | false =>
          by_cases hb : (v x).bBand = (v mp).bBand
          · have hne : bandMsgs v (v mp).bBand (l ++ m) ≠ [] := List.ne_nil_of_mem (List.mem_filter.mpr
              ⟨hx,Info.inBand_iff.mpr (hb ▸ (Info.inQCount_false hx').2.2)⟩)
            have hold : c.counts v (v x) = true := by
              by_contra hc
              have hno : ∀ qp ∈ c.qBandp, qp.isBand v (v mp).bBand = false := by
                simpa [Core.counts,hx',hb] using hc
              rw [hs hq hne hno] at hz
              cases hz
            rw [hold]
            simp [Core.counts,hb,howns.isBand]
          · exact counts_other hb rfl (.inl howns) hany
      · simp [Core.counts,hq,howns.isBand]

/- A message goes, and its size is subtracted exactly if it was added. -/
theorem adjustQCount_upheld (h : Upheld v c (l ++ mp :: m)) (hs : Steady v alloc c (l ++ mp :: m) (v mp)) :
    Upheld v (adjustQCount v alloc true c mp l.getLast? m.head?) (l ++ m) ∧
      ∀ x ∈ l ++ m, (adjustQCount v alloc true c mp l.getLast? m.head?).counts v (v x) = c.counts v (v x) := by
  have hnd := (List.nodup_cons.mp (List.nodup_middle.mp h.nodup)).2
  have hord := h.ordered.remove
  cases hq : (v mp).inQCount with
  | true =>
    rw [adjustQCount_queue true hq]
    refine ⟨⟨hnd,hord,?_,?_⟩,fun x _ => rfl⟩
    · show c.qCount - (v mp).size = _
      rw [h.count,qMsgs_middle_in hq]
      exact BitVec.add_sub_cancel ..
    · refine ⟨fun x hx => ?_,h.serving.distinct⟩
      refine (h.serving.each x hx).imp_right fun ⟨b,ho⟩ => ⟨b,ho.congr ?_ rfl⟩
      exact (bandMsgs_middle_out (Info.inQCount_true hq ho.1)).symm
  | false =>
    obtain ⟨hhi,hb0,hr⟩ := Info.inQCount_false hq
    have hin : (v mp).inBand (v mp).bBand = true := Info.inBand_iff.mpr hr
    have hother : ∀ b', b' ≠ (v mp).bBand → b' ≠ 0 → bandMsgs v b' (l ++ m) = bandMsgs v b' (l ++ mp :: m) :=
      fun b' hb _ => (bandMsgs_middle_out (Info.inBand_other hin hb)).symm
    have hcnt : c.qCount = sizes v (qMsgs v (l ++ m)) := by rw [← qMsgs_middle_out hq,h.count]
    have hne : bandMsgs v (v mp).bBand (l ++ mp :: m) ≠ [] := by simp [bandMsgs_append,bandMsgs_cons_in hin]
    cases hz : findQband v alloc c (v mp).bBand with
    | none =>
      have hsame : adjustQCount v alloc true c mp l.getLast? m.head? =
          { c with qFlag := { c.qFlag with qwantr := false } } := by
        have hz' : findQband v alloc { c with qFlag := { c.qFlag with qwantr := false } } (v mp).bBand = none := hz
        simp [adjustQCount,hq,hz']
      rw [hsame]
      exact ⟨⟨hnd,hord,hcnt,h.serving.other (findQband_none hz) hother⟩,fun x _ => rfl⟩
    | some z =>
      obtain ⟨hhold,hserv,hn,hany⟩ := findQband_serving h.serving hz fun hne hno => hs hq hne hno
      have hold : c.qBandp.any (·.isBand v (v mp).bBand) = true := by
        by_contra hc
        rw [hs hq hne (by simpa using hc)] at hz
        cases hz
      have hout := bandLinkOut_holds h.nodup h.ordered hin hhold
      obtain ⟨r,hr',hset⟩ : ∃ r, r = chkBand { c.qFlag with qwantr := false }
          (bandLinkOut v mp l.getLast? m.head? { z.qp with qbCount := z.qp.qbCount - (v mp).size }) ∧
          adjustQCount v alloc true c mp l.getLast? m.head? =
            { c with qFlag := r.1, qBandp := z.pre ++ r.2 :: z.post } :=
        ⟨_,rfl,adjustQCount_band true l.getLast? m.head? hq hz⟩
      have hnew : r.2.Holds v (l ++ m) (v mp).bBand := hr' ▸ chkBand_holds _ hout
      have hown := hnew.cases hb0
      have hidle : bandMsgs v (v mp).bBand (l ++ m) = [] → r.2.Idle := by
        intro hnil
        have hzero : r.2.qbCount = 0 := by rw [hnew.count,hnil]; rfl
        refine ⟨⟨by rw [hnew.first,hnil]; rfl,by rw [hnew.last,hnil]; rfl⟩,hzero,?_⟩
        rw [hr',chkBand_count] at hzero
        rw [hr',chkBand_eq]
        simp [hzero,BitVec.le_def]
      rw [hset]
      have hdone := hown.imp_right fun hf => hidle hf.2
      refine ⟨⟨hnd,hord,hcnt,hserv.fill hn hother hdone⟩,fun x hx => ?_⟩
      cases hx' : (v x).inQCount with
      | true => simp [Core.counts,hx']
      | false =>
        by_cases hb : (v x).bBand = (v mp).bBand
        · have hxm : bandMsgs v (v mp).bBand (l ++ m) ≠ [] := List.ne_nil_of_mem (List.mem_filter.mpr
            ⟨hx,Info.inBand_iff.mpr (hb ▸ (Info.inQCount_false hx').2.2)⟩)
          have howns := hown.resolve_right fun hf => hxm hf.2
          unfold Core.counts
          rw [hb,hold]
          simp [howns.isBand]
        · exact counts_other hb rfl hdone hany

end Counting

/-- `lis_putbq` (`queue.c:1002-1024`) -/
def ListQueue.lisPutbq (alloc : Msg → Bool) (q : ListQueue) (mp : Msg) : ListQueue :=
  if q.core.qFlag.shut then q
  else
    let s := headSplit Msg.info q.msgs mp.info
    let mp := q.entry mp
    { q with
      core := updatequeue Msg.info (alloc mp) false true q.core mp s.1.getLast? s.2.head?
      msgs := s.1 ++ mp :: s.2 }

/- A queue, and the messages whose sizes were added to a counter and not taken off yet. -/
structure Ledger where
  q : ListQueue
  added : List Msg

namespace Ledger

/- A call with the outcome of `LIS_QBAND_ALLOC`, should it be made. -/
inductive Op where
  | putq (mp : Msg) (alloc : Bool)
  | putbq (mp : Msg) (alloc : Bool)
  | getq (alloc : Bool) (back : List BackQ)
  | rmvq (addr : ℕ) (alloc : Bool) (back : List BackQ)

/- Whether `updatequeue` adds the size of the message to a counter. -/
def adds (q : ListQueue) (alloc : Bool) (mp : Msg) : Bool :=
  mp.info.inQCount || (findQband Msg.info alloc q.core mp.info.bBand).isSome

def enter (s : Ledger) (alloc : Bool) (mp : Msg) : List Msg :=
  if adds s.q alloc mp then s.q.entry mp :: s.added else s.added

def leave (s : Ledger) : Option Msg → List Msg
  | none => s.added
  | some mp => s.added.erase mp

/- A message that is put is not on the queue. -/
def step (s : Ledger) : Op → Option Ledger
  | .putq mp alloc =>
      if s.q.msgs.any (·.addr == mp.addr) then none
      else if s.q.core.qFlag.shut then some s
      else some ⟨s.q.lisPutq (fun _ => alloc) mp,s.enter alloc mp⟩
  | .putbq mp alloc =>
      if s.q.msgs.any (·.addr == mp.addr) then none
      else if s.q.core.qFlag.shut then some s
      else some ⟨s.q.lisPutbq (fun _ => alloc) mp,s.enter alloc mp⟩
  | .getq alloc back =>
      if s.q.core.qFlag.shut then some s
      else some ⟨(s.q.lisGetq (fun _ => alloc) back).1,s.leave s.q.msgs.head?⟩
  | .rmvq addr alloc back =>
      if s.q.core.qFlag.shut then some s
      else some ⟨(s.q.lisRmvq (fun _ => alloc) addr back).1,s.leave (s.q.msgs.find? (·.addr == addr))⟩

/- The counter of the message does not wrap. -/
def Fits (q : ListQueue) (i : Info) : Prop :=
  if i.inQCount then byteSum Msg.info (qMsgs Msg.info q.msgs) + i.size.toNat < 2 ^ 64
  else byteSum Msg.info (bandMsgs Msg.info i.bBand q.msgs) + i.size.toNat < 2 ^ 64

/- No call gives a structure to a band with messages that were not counted. -/
def Allowed (s : Ledger) : Op → Prop
  | .putq mp alloc | .putbq mp alloc =>
      Fits s.q mp.info ∧ Steady Msg.info alloc s.q.core s.q.msgs mp.info
  | .getq alloc _ => ∀ mp ∈ s.q.msgs.head?, Steady Msg.info alloc s.q.core s.q.msgs mp.info
  | .rmvq addr alloc _ =>
      ∀ mp ∈ s.q.msgs.find? (·.addr == addr), Steady Msg.info alloc s.q.core s.q.msgs mp.info

def start (qFlag : Qflag) (qHiwat qLowat : Ulong) (qiSrvp : Bool) : Ledger :=
  ⟨ListQueue.empty qFlag qHiwat qLowat qiSrvp,[]⟩

/- Every counter is the number of bytes added to it and not taken off, and no structure is left full without a
message. -/
structure Accounted (s : Ledger) : Prop where
  queue : s.q.core.qCount.toNat = byteSum Msg.info (qMsgs Msg.info s.added)
  band : ∀ qp ∈ s.q.core.qBandp, ∀ mp, qp.qbFirst = some mp → mp ∈ s.added ∧
    qp.qbCount.toNat = byteSum Msg.info (bandMsgs Msg.info mp.info.bBand s.added)
  unused : ∀ qp ∈ s.q.core.qBandp, qp.qbFirst = none → qp.qbCount = 0 ∧ qp.qbFull = false
  served : ∀ mp ∈ s.added, mp.info.inQCount = false →
    ∃ qp ∈ s.q.core.qBandp, qp.isBand Msg.info mp.info.bBand = true
  distinct : s.q.core.qBandp.Pairwise fun p q =>
    ∀ b, p.isBand Msg.info b = true → q.isBand Msg.info b = false

/- What every call keeps. -/
structure Sound (s : Ledger) : Prop where
  upheld : Upheld Msg.info s.q.core s.q.msgs
  added : s.added.Perm (s.q.msgs.filter fun mp => s.q.core.counts Msg.info mp.info)
  room : byteSum Msg.info (qMsgs Msg.info s.q.msgs) < 2 ^ 64
  bands : ∀ b, b ≠ 0 → byteSum Msg.info (bandMsgs Msg.info b s.q.msgs) < 2 ^ 64

variable {s t : Ledger} {q : ListQueue} {mp : Msg} {k m : List Msg} {alloc : Bool}

theorem byteSum_perm {l l' : List Msg} (h : l.Perm l') : byteSum Msg.info l = byteSum Msg.info l' :=
  (h.map _).sum_eq

theorem byteSum_middle : byteSum Msg.info (k ++ mp :: m) = byteSum Msg.info (k ++ m) + mp.info.size.toNat := by
  simp only [byteSum,List.map_append,List.map_cons,List.sum_append,List.sum_cons]
  omega

theorem qMsgs_cons_in (h : mp.info.inQCount = true) : qMsgs Msg.info (mp :: m) = mp :: qMsgs Msg.info m := by
  simp [qMsgs,h]

theorem Sound.accounted (h : Sound s) : Accounted s := by
  have hq : (qMsgs Msg.info s.added).Perm (qMsgs Msg.info s.q.msgs) := by
    refine (h.added.filter _).trans (List.Perm.of_eq ?_)
    unfold qMsgs
    rw [List.filter_filter]
    refine List.filter_congr fun x _ => ?_
    cases hx : x.info.inQCount <;> simp [Core.counts,hx]
  refine ⟨?_,fun qp hqp mp hf => ?_,fun qp hqp hf => ?_,fun mp hmp hin => ?_,h.upheld.serving.distinct⟩
  · rw [byteSum_perm hq]
    exact ((Exact.of_sizes h.upheld.count).2 h.room).1
  · rcases h.upheld.serving.each qp hqp with hi | ⟨b,ho⟩
    · rw [hi.1.1] at hf
      cases hf
    · obtain ⟨x,hx,hxf,hxb⟩ := ho.head_mem
      obtain rfl := Option.some.inj (hf.symm.trans hxf)
      have hbb : mp.info.bBand = b := by
        simp only [Info.inBand,Bool.and_eq_true,beq_iff_eq] at hxb
        exact hxb.2
      have hserved : (s.q.core.qBandp.any fun qp => qp.isBand Msg.info b) = true :=
        List.any_eq_true.mpr ⟨qp,hqp,ho.isBand.mpr rfl⟩
      have hall : (bandMsgs Msg.info b s.added).Perm (bandMsgs Msg.info b s.q.msgs) := by
        refine (h.added.filter _).trans (List.Perm.of_eq ?_)
        unfold bandMsgs
        rw [List.filter_filter]
        refine List.filter_congr fun y _ => ?_
        cases hy : Info.inBand b y.info with
        | false => rfl
        | true =>
          simp only [Info.inBand,Bool.and_eq_true,beq_iff_eq] at hy
          simp [Core.counts,hy.2,hserved]
      refine ⟨h.added.mem_iff.mpr (List.mem_filter.mpr ⟨hx,by simp [Core.counts,hbb,hserved]⟩),?_⟩
      rw [hbb,byteSum_perm hall]
      exact ((Exact.of_sizes ho.2.2.count).2 (h.bands b ho.1)).1
  · rcases h.upheld.serving.each qp hqp with hi | ⟨b,ho⟩
    · exact hi.2
    · have := ho.first_ne
      simp [hf] at this
  · have hc := (List.mem_filter.mp (h.added.mem_iff.mp hmp)).2
    simpa [Core.counts,hin] using hc

theorem schedule_counts {c : Core Msg} {i : Info} :
    (schedule Msg.info false c mp).counts Msg.info i = c.counts Msg.info i := by
  unfold Core.counts
  rw [schedule_fields.2]

/- A message put between higher and lower ones, whichever call looked for the place. -/
theorem Sound.put (h : Sound s) (hkm : k ++ m = s.q.msgs)
    (hnew : ∀ x ∈ s.q.msgs, x.addr ≠ mp.addr) (hk : ∀ x ∈ k, mp.info.rank ≤ x.info.rank)
    (hm : ∀ x ∈ m, x.info.rank ≤ mp.info.rank) (hfit : Fits s.q mp.info)
    (hst : Steady Msg.info alloc s.q.core s.q.msgs mp.info) (hmsgs : q.msgs = k ++ s.q.entry mp :: m)
    (hcore : q.core = updatequeue Msg.info alloc false true s.q.core (s.q.entry mp) k.getLast? m.head?) :
    Sound ⟨q,s.enter alloc mp⟩ := by
  have halike := s.q.entry_alike mp
  have hmem : s.q.entry mp ∉ k ++ m := fun hc => hnew _ (hkm ▸ hc) ListQueue.entry_addr
  have hst' : Steady Msg.info alloc s.q.core (k ++ m) (s.q.entry mp).info := by
    rw [hkm]
    intro hq
    rw [halike.inQCount] at hq
    rw [ListQueue.entry_ordinary hq]
    exact hst hq
  rw [← halike.rank] at hk hm
  obtain ⟨hup,hsame,hown⟩ := countIn_upheld (hkm ▸ h.upheld) hmem hk hm hst'
  have hadds : ((s.q.entry mp).info.inQCount ||
      (findQband Msg.info alloc s.q.core (s.q.entry mp).info.bBand).isSome) = adds s.q alloc mp := by
    unfold adds
    cases hq : mp.info.inQCount with
    | true => rw [halike.inQCount.trans hq]; rfl
    | false => rw [ListQueue.entry_ordinary hq,hq]
  have hcounts : ∀ i, q.core.counts Msg.info i =
      (countIn Msg.info alloc true s.q.core (s.q.entry mp) k.getLast? m.head?).counts Msg.info i := by
    intro i
    rw [hcore]
    exact schedule_counts
  have hold : ((k ++ m).filter fun x => q.core.counts Msg.info x.info) =
      s.q.msgs.filter fun x => s.q.core.counts Msg.info x.info := by
    rw [hkm]
    exact List.filter_congr fun x hx => (hcounts x.info).trans (hsame x (hkm ▸ hx))
  refine ⟨?_,?_,?_,fun b hb => ?_⟩
  · rw [hmsgs,hcore]
    exact hup.of_eq schedule_fields.1 schedule_fields.2
  · show (s.enter alloc mp).Perm (q.msgs.filter _)
    rw [hmsgs]
    refine List.Perm.trans ?_ (List.perm_middle.filter _).symm
    rw [List.filter_cons,hcounts,hown,hadds,hold]
    unfold enter
    split_ifs
    · exact h.added.cons _
    · exact h.added
  · show byteSum Msg.info (qMsgs Msg.info q.msgs) < _
    rw [hmsgs]
    cases hq : mp.info.inQCount with
    | true =>
      rw [Fits,if_pos hq] at hfit
      rw [qMsgs_append,qMsgs_cons_in (halike.inQCount.trans hq),byteSum_middle,← qMsgs_append,hkm,halike.2.1]
      exact hfit
    | false =>
      rw [qMsgs_middle_out (halike.inQCount.trans hq),hkm]
      exact h.room
  · show byteSum Msg.info (bandMsgs Msg.info b q.msgs) < _
    rw [hmsgs]
    cases hin : Info.inBand b (s.q.entry mp).info with
    | true =>
      have hq : mp.info.inQCount = false := by
        by_contra hc
        rw [Info.inQCount_true (v := Msg.info) (halike.inQCount.trans (by simpa using hc)) hb] at hin
        cases hin
      rw [Fits,if_neg (by simp [hq])] at hfit
      have hbb : mp.info.bBand = b := by
        rw [halike.inBand] at hin
        simp only [Info.inBand,Bool.and_eq_true,beq_iff_eq] at hin
        exact hin.2
      rw [bandMsgs_append,bandMsgs_cons_in hin,byteSum_middle,← bandMsgs_append,hkm,halike.2.1]
      exact hbb ▸ hfit
    | false =>
      rw [bandMsgs_middle_out hin,hkm]
      exact h.bands b hb

theorem byteSum_le {l l' : List Msg} (h : l.Sublist l') : byteSum Msg.info l ≤ byteSum Msg.info l' :=
  (h.map _).sum_le_sum fun _ _ => Nat.zero_le _

/- A message taken from between two parts, whichever call chose it. -/
theorem Sound.take (h : Sound s) (hkm : s.q.msgs = k ++ mp :: m)
    (hst : Steady Msg.info alloc s.q.core s.q.msgs mp.info) (hmsgs : q.msgs = k ++ m)
    (hcount : q.core.qCount = (adjustQCount Msg.info alloc true s.q.core mp k.getLast? m.head?).qCount)
    (hbands : q.core.qBandp = (adjustQCount Msg.info alloc true s.q.core mp k.getLast? m.head?).qBandp) :
    Sound ⟨q,s.leave (some mp)⟩ := by
  obtain ⟨hup,hsame⟩ := adjustQCount_upheld (hkm ▸ h.upheld) (hkm ▸ hst)
  have hsub : (k ++ m).Sublist s.q.msgs := hkm ▸ (List.sublist_cons_self ..).append_left k
  have hnot : mp ∉ k ++ m := (List.nodup_cons.mp (List.nodup_middle.mp (hkm ▸ h.upheld.nodup))).1
  have hrest : ((k ++ m).filter fun x => q.core.counts Msg.info x.info) =
      (k ++ m).filter fun x => s.q.core.counts Msg.info x.info := by
    refine List.filter_congr fun x hx => ?_
    rw [← hsame x hx]
    unfold Core.counts
    rw [hbands]
  refine ⟨?_,?_,?_,fun b hb => ?_⟩
  · rw [hmsgs]
    exact hup.of_eq hcount hbands
  · show (s.added.erase mp).Perm (q.msgs.filter _)
    rw [hmsgs,hrest]
    have hall : s.added.Perm ((mp :: (k ++ m)).filter fun x => s.q.core.counts Msg.info x.info) :=
      h.added.trans (hkm ▸ List.perm_middle.filter _)
    refine (hall.erase mp).trans (List.Perm.of_eq ?_)
    rw [List.filter_cons]
    split_ifs
    · exact List.erase_cons_head ..
    · exact List.erase_of_not_mem fun hc => hnot (List.mem_filter.mp hc).1
  · show byteSum Msg.info (qMsgs Msg.info q.msgs) < _
    rw [hmsgs]
    exact lt_of_le_of_lt (byteSum_le (hsub.filter _)) h.room
  · show byteSum Msg.info (bandMsgs Msg.info b q.msgs) < _
    rw [hmsgs]
    exact lt_of_le_of_lt (byteSum_le (hsub.filter _)) (h.bands b hb)

theorem Sound.of_eq (h : Sound s) (hc : q.core.qCount = s.q.core.qCount) (hb : q.core.qBandp = s.q.core.qBandp)
    (hm : q.msgs = s.q.msgs) : Sound ⟨q,s.added⟩ := by
  have hcounts : ∀ i, q.core.counts Msg.info i = s.q.core.counts Msg.info i := fun i => by
    unfold Core.counts
    rw [hb]
  refine ⟨hm ▸ h.upheld.of_eq hc hb,?_,by rw [hm]; exact h.room,by rw [hm]; exact h.bands⟩
  simp only [hm,hcounts]
  exact h.added

theorem lisBackenable_counters (q : ListQueue) (back : List BackQ) :
    (q.lisBackenable back).1.core.qCount = q.core.qCount ∧
    (q.lisBackenable back).1.core.qBandp = q.core.qBandp ∧ (q.lisBackenable back).1.msgs = q.msgs := by
  unfold ListQueue.lisBackenable Queue.lisBackenable
  dsimp only
  split_ifs <;> exact ⟨rfl,rfl,rfl⟩

theorem find_splitFirst {p : Msg → Bool} {l : List Msg} : l.find? p = (splitFirst p l).map fun z => z.2.1 := by
  induction l with
  | nil => rfl
  | cons a l ih =>
    unfold splitFirst
    cases hp : p a with
    | true => simp [hp]
    | false =>
      simp only [List.find?_cons,hp,ih]
      cases splitFirst p l <;> simp

theorem sound_step (op : Op) (h : Sound s) (ha : Allowed s op) (hs : step s op = some t) : Sound t := by
  have hfresh : ∀ {mp : Msg}, ¬(s.q.msgs.any (·.addr == mp.addr)) = true → ∀ x ∈ s.q.msgs, x.addr ≠ mp.addr := by
    intro mp hn x hx he
    exact hn (List.any_eq_true.mpr ⟨x,hx,by simpa using he⟩)
  cases op with
  | putq mp alloc =>
    simp only [step] at hs
    split_ifs at hs with h1 h2
    · exact Option.some.inj hs ▸ h
    · obtain rfl := Option.some.inj hs
      have hopen : s.q.core.qFlag.shut = false := by simpa using h2
      obtain ⟨k,m,hkm,hmsgs,-,hcore,hrank⟩ := ListQueue.lisPutq_open (fun _ => alloc) mp hopen
      obtain ⟨hk,hm⟩ := hrank h.upheld.ordered
      exact h.put hkm (hfresh h1) hk hm ha.1 ha.2 hmsgs hcore
  | putbq mp alloc =>
    simp only [step] at hs
    split_ifs at hs with h1 h2
    · exact Option.some.inj hs ▸ h
    · obtain rfl := Option.some.inj hs
      have hopen : s.q.core.qFlag.shut = false := by simpa using h2
      obtain ⟨hk,hm⟩ := headSplit_spec (i := mp.info) h.upheld.ordered
      refine h.put headSplit_append (hfresh h1) hk hm ha.1 ha.2 ?_ ?_
      · simp [ListQueue.lisPutbq,hopen]
      · simp [ListQueue.lisPutbq,hopen]
  | getq alloc back =>
    simp only [step] at hs
    split_ifs at hs with h1
    · exact Option.some.inj hs ▸ h
    · obtain rfl := Option.some.inj hs
      obtain ⟨hc,hb,hm⟩ := lisBackenable_counters (s.q.rmvFirst fun _ => alloc) back
      rw [ListQueue.lisGetq,if_neg h1]
      cases hl : s.q.msgs with
      | nil =>
        have hf : s.q.rmvFirst (fun _ => alloc) = s.q.rmvNone := by simp [ListQueue.rmvFirst,hl]
        rw [hf] at hc hb hm ⊢
        exact h.of_eq hc hb hm
      | cons mp m =>
        have hf : s.q.rmvFirst (fun _ => alloc) = s.q.rmvMsg (fun _ => alloc) [] mp m := by
          simp [ListQueue.rmvFirst,hl]
        rw [hf] at hc hb hm ⊢
        exact h.take (k := []) hl (ha mp (by rw [hl]; rfl)) hm hc hb
  | rmvq addr alloc back =>
    simp only [step] at hs
    split_ifs at hs with h1
    · exact Option.some.inj hs ▸ h
    · obtain rfl := Option.some.inj hs
      rw [ListQueue.lisRmvq,if_neg h1,find_splitFirst]
      simp only [Allowed,find_splitFirst] at ha
      cases hz : splitFirst (fun mp => mp.addr == addr) s.q.msgs with
      | none => exact h
      | some z =>
        rw [hz] at ha
        obtain ⟨hc,hb,hm⟩ := lisBackenable_counters (s.q.rmvMsg (fun _ => alloc) z.1 z.2.1 z.2.2) back
        exact h.take (splitFirst_some hz).1 (ha _ rfl) hm hc hb

theorem start_sound {qFlag : Qflag} {qHiwat qLowat : Ulong} {qiSrvp : Bool} :
    Sound (start qFlag qHiwat qLowat qiSrvp) := by
  refine ⟨⟨.nil,.nil,rfl,fun qp hq => (by cases hq),.nil⟩,.refl _,?_,fun b _ => ?_⟩
  · exact (by decide : (0 : ℕ) < 2 ^ 64)
  · exact (by decide : (0 : ℕ) < 2 ^ 64)

/- In every run in which `find_qband` gives no structure to a band that has uncounted messages, and no counter wraps,
each counter is what was added and not taken off. -/
theorem counters_accounted (qFlag : Qflag) (qHiwat qLowat : Ulong) (qiSrvp : Bool) (ops : List Op)
    (hm : Meets step Allowed (start qFlag qHiwat qLowat qiSrvp) ops)
    (h : exec step (start qFlag qHiwat qLowat qiSrvp) ops = some s) : Accounted s :=
  (exec_preserves (I := Sound) (fun _ op _ hI hc hs => sound_step op hI hc hs) start_sound hm h).accounted

/- A message of band 1 and 16 bytes. -/
def band1 (addr : ℕ) : Msg := ⟨⟨1,false,⟨M_DATA,16,[]⟩,[]⟩,addr⟩

instance (q : ListQueue) (i : Info) : Decidable (Fits q i) :=
  inferInstanceAs (Decidable (if i.inQCount then _ else _))

instance (alloc : Bool) (c : Core Msg) (l : List Msg) (i : Info) : Decidable (Steady Msg.info alloc c l i) :=
  inferInstanceAs (Decidable (_ → _ → _ → _))

instance (s : Ledger) : ∀ op, Decidable (Allowed s op)
  | .putq _ _ => inferInstanceAs (Decidable (_ ∧ _))
  | .putbq _ _ => inferInstanceAs (Decidable (_ ∧ _))
  | .getq alloc _ =>
      inferInstanceAs (Decidable (∀ mp ∈ s.q.msgs.head?, Steady Msg.info alloc s.q.core s.q.msgs mp.info))
  | .rmvq addr alloc _ => inferInstanceAs (Decidable (∀ mp ∈ s.q.msgs.find? (·.addr == addr),
      Steady Msg.info alloc s.q.core s.q.msgs mp.info))

/- The first two messages find no memory and are gone before there is some. -/
def shortage : List Op :=
  [.putq (band1 0) false,.putbq (band1 1) false,.getq false [],.rmvq 0 false [],.putq (band1 2) true,
    .putq (band1 3) false,.getq false []]

theorem counters_accounted_shortage : ∃ s, exec step (start {} 24 8 true) shortage = some s ∧ Accounted s := by
  obtain ⟨s,hs⟩ := Option.isSome_iff_exists.mp
    (show (exec step (start {} 24 8 true) shortage).isSome = true by decide +kernel)
  exact ⟨s,hs,counters_accounted {} 24 8 true shortage (by decide +kernel) hs⟩

/- An uncounted message is taken off a structure that its removal allocates: the count goes below zero. -/
theorem count_below_zero : ¬ ∀ (qFlag : Qflag) (qHiwat qLowat : Ulong) (qiSrvp : Bool) (ops : List Op) (s : Ledger),
    exec step (start qFlag qHiwat qLowat qiSrvp) ops = some s → Accounted s := by
  intro h
  obtain ⟨s,hs,hp⟩ := (Option.any_eq_true _ _).mp (show (exec step (start {} 24 8 true)
    [.putq (band1 0) false,.getq true []]).any (fun s => s.q.core.qBandp ==
      [⟨-16,none,none,24,8,false,false,false⟩]) = true by decide +kernel)
  have hb := beq_iff_eq.mp hp
  have hz := ((h _ _ _ _ _ s hs).unused ⟨-16,none,none,24,8,false,false,false⟩ (by rw [hb]; simp) rfl).1
  exact absurd hz (by decide)

end Ledger

end CSLiS.Queue
