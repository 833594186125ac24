import CSLiS.Queue.Upkeep

/-!
# Water marks and flags (head/queue.c)

What each routine does to `QFULL`, `QWASFULL`, `QWANTW`, `QBACK` and to the
flags of a band, in one equation each.
-/

namespace CSLiS.Queue
open Lib.Split

variable {P : Type} {v : P → Info} {alloc : Bool} {c : Core P} {mp : P} {qp : Qband P}
  {prev next : Option P}

theorem ulong_zero_le (n : Ulong) : 0#64 ≤ n := by simp [BitVec.le_def]

theorem ulong_lt_of_le_of_lt {a b c : Ulong} (h : a ≤ b) (h' : b < c) : a < c := by
  rw [BitVec.le_def] at h
  rw [BitVec.lt_def] at h' ⊢
  omega

/-- The band was full and has fallen to its low-water mark. -/
def Qband.drained (qp : Qband P) : Bool := qp.qbWasfull && qp.qbCount ≤ qp.qbLowat

theorem chkBand_eq (f : Qflag) : chkBand f qp =
    ({ f with qwantw := f.qwantw || (qp.drained && qp.qbWantw), qback := f.qback || qp.drained },
      { qp with
        qbFull := qp.qbFull && !decide (qp.qbCount ≤ qp.qbHiwat)
        qbWasfull := qp.qbWasfull && !qp.drained
        qbWantw := qp.qbWantw && !qp.drained }) := by
  cases qp with
  | mk n a b h l full wantw wasfull =>
    cases f
    by_cases h1 : n ≤ h <;> by_cases h2 : n ≤ l <;> cases wantw <;> cases wasfull <;>
      simp [chkBand,Qband.drained,h1,h2]

theorem chkBands_flag (f : Qflag) (qps : List (Qband P)) : (chkBands f qps).1 =
    { f with
      qwantw := f.qwantw || qps.any fun qp => qp.drained && qp.qbWantw
      qback := f.qback || qps.any fun qp => qp.drained } := by
  induction qps generalizing f with
  | nil => simp [chkBands]
  | cons qp qps ih =>
    show (chkBands (chkBand f qp).1 qps).1 = _
    rw [ih,chkBand_eq]
    simp [Bool.or_assoc]

/-- A call of `lis_qenable` touches two flags at most. -/
theorem qenableFlags_eq (srvp : Bool) (f : Qflag) :
    ∃ a b, qenableFlags srvp f = { f with qenab := a, qwantenab := b } := by
  unfold qenableFlags
  split_ifs
  · exact ⟨f.qenab,f.qwantenab,rfl⟩
  · exact ⟨f.qenab,true,rfl⟩
  · exact ⟨f.qenab,f.qwantenab,rfl⟩
  · exact ⟨true,f.qwantenab,rfl⟩

theorem schedule_eq (c : Core P) (mp : P) (fromInsq : Bool) :
    ∃ a b, schedule v fromInsq c mp = { c with qFlag := { c.qFlag with qenab := a, qwantenab := b } } := by
  unfold schedule
  split_ifs
  · exact ⟨c.qFlag.qenab,c.qFlag.qwantenab,rfl⟩
  · obtain ⟨a,b,h⟩ := qenableFlags_eq c.qiSrvp c.qFlag
    exact ⟨a,b,by rw [Core.lisQenable,h]⟩
  · exact ⟨c.qFlag.qenab,c.qFlag.qwantenab,rfl⟩

section Counting
variable [DecidableEq P] (bandPtrs : Bool)

theorem countIn_queue (hq : (v mp).inQCount = true) :
    countIn v alloc bandPtrs c mp prev next = { c with
      qCount := c.qCount + (v mp).size
      qFlag := { c.qFlag with
        qfull := c.qFlag.qfull || decide (c.qHiwat < c.qCount + (v mp).size)
        qwasfull := c.qFlag.qwasfull || decide (c.qHiwat < c.qCount + (v mp).size) } } := by
  simp only [countIn,hq,if_true]
  split_ifs with h <;> simp [h]

theorem countIn_other (hq : (v mp).inQCount = false) :
    countIn v alloc bandPtrs c mp prev next =
      { c with qBandp := (countIn v alloc bandPtrs c mp prev next).qBandp } := by
  simp only [countIn,hq,Bool.false_eq_true,if_false]
  split <;> rfl

/-- What `updatequeue` does to the queue, the bands aside. -/
theorem updatequeue_eq (v : P → Info) (alloc fromInsq : Bool) (c : Core P) (mp : P)
    (prev next : Option P) : ∃ a x w,
    updatequeue v alloc fromInsq bandPtrs c mp prev next = { c with
      qCount := if (v mp).inQCount then c.qCount + (v mp).size else c.qCount
      qBandp := (countIn v alloc bandPtrs c mp prev next).qBandp
      qFlag := { c.qFlag with
        qfull := c.qFlag.qfull || a, qwasfull := c.qFlag.qwasfull || a, qenab := x
        qwantenab := w } } ∧ (a = true → (v mp).inQCount = true) := by
  obtain ⟨x,w,he⟩ := schedule_eq (v := v) (countIn v alloc bandPtrs c mp prev next) mp fromInsq
  unfold updatequeue
  rw [he]
  cases hq : (v mp).inQCount with
  | true =>
    rw [countIn_queue bandPtrs hq]
    exact ⟨_,x,w,rfl,fun _ => rfl⟩
  | false =>
    rw [countIn_other bandPtrs hq]
    exact ⟨false,x,w,by simp,by simp⟩

/-- A band after the size of a message was added. -/
def Qband.countIn (qp : Qband P) (size : Ulong) : Qband P :=
  { qp with
    qbCount := qp.qbCount + size
    qbFull := qp.qbFull || decide (qp.qbHiwat < qp.qbCount + size)
    qbWasfull := qp.qbWasfull || decide (qp.qbHiwat < qp.qbCount + size) }

theorem countIn_band {z : BandAt P} (hq : (v mp).inQCount = false)
    (hz : findQband v alloc c (v mp).bBand = some z) :
    countIn v alloc bandPtrs c mp prev next = { c with
      qBandp := z.pre ++ (if bandPtrs then bandLinkIn mp prev next (z.qp.countIn (v mp).size)
        else z.qp.countIn (v mp).size) :: z.post } := by
  simp only [countIn,hq,hz,Bool.false_eq_true,if_false,BandAt.chain]
  by_cases h : z.qp.qbHiwat < z.qp.qbCount + (v mp).size <;> simp [Qband.countIn,h]

theorem adjustQCount_queue (hq : (v mp).inQCount = true) :
    adjustQCount v alloc bandPtrs c mp prev next = { c with
      qCount := c.qCount - (v mp).size
      qFlag := { c.qFlag with
        qwantr := false
        qfull := c.qFlag.qfull && !decide (c.qCount - (v mp).size < c.qHiwat)
        qback := c.qFlag.qback || (c.qFlag.qwasfull && decide (c.qCount - (v mp).size ≤ c.qLowat))
        qwasfull := c.qFlag.qwasfull && !decide (c.qCount - (v mp).size ≤ c.qLowat) } } := by
  simp only [adjustQCount,hq,Bool.not_true,Bool.false_eq_true,if_false]
  cases hw : c.qFlag.qwasfull <;> by_cases h1 : c.qCount - (v mp).size < c.qHiwat <;>
    by_cases h2 : c.qCount - (v mp).size ≤ c.qLowat <;> simp [h1,h2]

theorem adjustQCount_band (prev next : Option P) {z : BandAt P} (hq : (v mp).inQCount = false)
    (hz : findQband v alloc c (v mp).bBand = some z) :
    let qp := { z.qp with qbCount := z.qp.qbCount - (v mp).size }
    let r := chkBand { c.qFlag with qwantr := false }
      (if bandPtrs then bandLinkOut v mp prev next qp else qp)
    adjustQCount v alloc bandPtrs c mp prev next =
      { c with qFlag := r.1, qBandp := z.pre ++ r.2 :: z.post } := by
  have hz' : findQband v alloc { c with qFlag := { c.qFlag with qwantr := false } } (v mp).bBand =
      some z := hz
  simp only [adjustQCount,hq,hz',Bool.not_false,if_true,BandAt.chain]

/-- What `adjust_q_count` does to the queue, the bands aside. -/
theorem adjustQCount_eq (v : P → Info) (alloc : Bool) (c : Core P) (mp : P) (prev next : Option P) :
    ∃ full wasfull wantw back,
    adjustQCount v alloc bandPtrs c mp prev next = { c with
      qCount := if (v mp).inQCount then c.qCount - (v mp).size else c.qCount
      qBandp := (adjustQCount v alloc bandPtrs c mp prev next).qBandp
      qFlag := { c.qFlag with
        qwantr := false, qfull := full, qwasfull := wasfull, qwantw := wantw, qback := back } } := by
  cases hq : (v mp).inQCount with
  | true =>
    rw [adjustQCount_queue bandPtrs hq]
    exact ⟨_,_,c.qFlag.qwantw,_,rfl⟩
  | false =>
    cases hz : findQband v alloc c (v mp).bBand with
    | none =>
      have hz' : findQband v alloc { c with qFlag := { c.qFlag with qwantr := false } } (v mp).bBand =
          none := hz
      refine ⟨c.qFlag.qfull,c.qFlag.qwasfull,c.qFlag.qwantw,c.qFlag.qback,?_⟩
      simp [adjustQCount,hq,hz']
    | some z =>
      rw [adjustQCount_band bandPtrs prev next hq hz]
      simp only [chkBand_eq]
      exact ⟨c.qFlag.qfull,c.qFlag.qwasfull,_,_,rfl⟩

theorem bandLinkOut_eq (v : P → Info) (mp : P) (prev next : Option P) (qp : Qband P) :
    ∃ f l, bandLinkOut v mp prev next qp = { qp with qbFirst := f, qbLast := l } := by
  simp only [bandLinkOut]
  split_ifs <;> exact ⟨_,_,rfl⟩

end Counting

end CSLiS.Queue
