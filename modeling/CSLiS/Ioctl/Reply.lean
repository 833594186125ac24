import CSLiS.Ioctl.CopyExact

/-!
# What I_STR makes of the reply (head/head.c)

The last message of an ioctl is an M_IOCACK or M_IOCNAK, with the first block of it and those with data. The
structure of the caller has been copied in; `lis_strioctl` copies it back when `lis_strdoioctl` has returned 0.
-/

namespace CSLiS.Ioctl.Str
open Queue

def EINVAL : BitVec 32 := 22
def INT_MIN : BitVec 32 := 0x80000000

/-- `iocblk_t` with the block that it is in and the blocks behind. -/
structure Reply where
  nak : Bool
  addr : ℕ
  iocError : BitVec 32
  iocRval : BitVec 32
  iocCount : Uint
  dat : List DatBlk

def Reply.blocks (r : Reply) : List ℕ := r.addr :: r.dat.map DatBlk.addr
def Reply.bytes (r : Reply) : List Uchar := r.dat.flatMap DatBlk.data

/- The check of `ic_dp`, the copies to it and the one of the structure. -/
structure Sys where
  access : Bool
  copy : ℕ → Bool
  back : Bool

/- `icLen` is that of the kernel's copy of the structure, and then that of the caller's. -/
structure Ended where
  errv : BitVec 32
  icLen : BitVec 32
  stored : List Uchar
  freed : List ℕ
  deriving DecidableEq, Repr

/-- `lis_strdoioctl` with M_IOCACK or M_IOCNAK and `do_copyin` (`head.c:4031-4094`), up to the end of it. -/
def strdoioctl (r : Reply) (icLen : BitVec 32) (o : Sys) : Ended :=
  let dat := r.dat.map DatBlk.addr
  if r.nak then ⟨if -r.iocError ≠ 0 then -r.iocError else -EINVAL,0,[],r.addr :: dat⟩
  else if r.iocError ≠ 0 then ⟨-r.iocError,0,[],r.addr :: dat⟩
  else if 0 < r.iocCount.toInt then
    if lisCheckUmem o.access < 0 then ⟨BitVec.ofInt 32 (lisCheckUmem o.access),icLen,[],dat ++ [r.addr]⟩
    else
      let c := copyoutBlks o.copy r.iocCount.toInt r.dat
      ⟨r.iocRval,r.iocCount,c.copied,c.freed ++ [r.addr]⟩
  else ⟨r.iocRval,if r.dat ≠ [] then 0 else icLen,[],dat ++ [r.addr]⟩

/-- I_STR in `lis_strioctl` (`head.c:6822-6833`) -/
def iStr (r : Reply) (icLen : BitVec 32) (o : Sys) : Ended :=
  let e := strdoioctl r icLen o
  if e.errv = 0 then
    { e with errv := BitVec.ofInt 32 (lisCopyout o.back []).1, icLen := if o.back then e.icLen else icLen }
  else { e with icLen := icLen }

/- What a process may rely on: with a result that is no error it has the driver's, the bytes and their number. -/
structure Delivered (r : Reply) (e : Ended) : Prop where
  ack : 0 ≤ e.errv.toInt → r.nak = false ∧ r.iocError = 0 ∧ e.errv = r.iocRval
  bytes : 0 ≤ e.errv.toInt → e.stored = r.bytes.take r.iocCount.toNat ∧ e.icLen.toInt = e.stored.length
  freed : e.freed.Perm r.blocks

/-! ### The chain -/

/- The block `k` has bytes below `n` before it only. -/
def Reached (n : ℕ) (mp : List DatBlk) (k : ℕ) : Prop := chainSize (mp.take k) < n

/- Each block that is reached is copied, as long as there are bytes. -/
def EachCopied (copy : ℕ → Bool) (n : ℕ) (mp : List DatBlk) : Prop :=
  ∀ k < mp.length, Reached n mp k → Reached (chainSize mp) mp k → copy k = true

/- Each block is reached, or the count stood still before it at a copy that failed. -/
def EachFreed (copy : ℕ → Bool) (n : ℕ) (mp : List DatBlk) : Prop :=
  ∀ k < mp.length, Reached n mp k ∨ ∃ j < k, copy j = false ∧ Reached n mp (j + 1)

section Chain
variable {copy : ℕ → Bool} {i n k : ℕ} {b : DatBlk} {mp : List DatBlk}

theorem chainSize_cons (b : DatBlk) (mp : List DatBlk) : chainSize (b :: mp) = b.data.length + chainSize mp := by
  simp [chainSize]

theorem reached_zero : Reached n mp 0 ↔ 0 < n := by simp [Reached,chainSize]

theorem reached_succ : Reached n (b :: mp) (k + 1) ↔ Reached (n - b.data.length) mp k := by
  rw [Reached,Reached,List.take_succ_cons,chainSize_cons]
  omega

theorem length_bytes (mp : List DatBlk) : (mp.flatMap DatBlk.data).length = chainSize mp := by
  simp [chainSize,List.length_flatMap]

theorem copyoutLoop_zero (copy : ℕ → Bool) (i : ℕ) (err : ℤ) (mp : List DatBlk) :
    copyoutLoop copy i err 0 mp = ⟨err,0,[],[]⟩ := by
  cases mp <;> simp [copyoutLoop]

/- One round of the loop, with a copy that fails and one that does not. -/
theorem copyoutLoop_fail (hn : 0 < n) (hc : copy i = false) :
    (copyoutLoop copy i 0 n (b :: mp)).copied = [] ∧
      (copyoutLoop copy i 0 n (b :: mp)).freed =
        b.addr :: (copyoutLoop copy (i + 1) (-EFAULT) ((n - b.data.length : ℕ) : ℤ) mp).freed := by
  have hpos : ¬ (n : ℤ) ≤ 0 := by omega
  have hcount : (n : ℤ) - min (n : ℤ) b.data.length = ((n - b.data.length : ℕ) : ℤ) := by omega
  simp only [copyoutLoop,hpos,if_false,if_true,lisCopyout,hc,Bool.false_eq_true,hcount,List.nil_append,and_true]
  exact (copyoutLoop_err (by decide)).2

theorem copyoutLoop_copy (hn : 0 < n) (hc : copy i = true) :
    (copyoutLoop copy i 0 n (b :: mp)).copied =
        b.data.take n ++ (copyoutLoop copy (i + 1) 0 ((n - b.data.length : ℕ) : ℤ) mp).copied ∧
      (copyoutLoop copy i 0 n (b :: mp)).freed =
        b.addr :: (copyoutLoop copy (i + 1) 0 ((n - b.data.length : ℕ) : ℤ) mp).freed := by
  have hpos : ¬ (n : ℤ) ≤ 0 := by omega
  have hcount : (n : ℤ) - min (n : ℤ) b.data.length = ((n - b.data.length : ℕ) : ℤ) := by omega
  have htake : b.data.take (min (n : ℤ) b.data.length).toNat = b.data.take n := by
    rw [List.take_eq_take_iff]
    omega
  simp only [copyoutLoop,hpos,if_false,if_true,lisCopyout,hc,hcount,htake,and_self]

theorem copyoutLoop_freed_err {err : ℤ} (he : err ≠ 0) (hn : 0 < n) :
    (copyoutLoop copy i err n mp).freed = mp.map DatBlk.addr := by
  induction mp with
  | nil => rfl
  | cons b mp ih =>
    have hpos : ¬ (n : ℤ) ≤ 0 := by omega
    simp only [copyoutLoop,hpos,he,if_false,List.map_cons,ih]

theorem copied_iff (copy : ℕ → Bool) (i n : ℕ) (mp : List DatBlk) :
    (copyoutLoop copy i 0 n mp).copied = (mp.flatMap DatBlk.data).take n ↔ EachCopied (fun k => copy (i + k)) n mp := by
  induction mp generalizing i n with
  | nil => simp [copyoutLoop,EachCopied]
  | cons b mp ih =>
    rcases Nat.eq_zero_or_pos n with rfl | hn
    · rw [Int.ofNat_zero,copyoutLoop_zero]
      simp [EachCopied,Reached]
    cases hc : copy i with
    | false =>
      rw [(copyoutLoop_fail hn hc).1,eq_comm,List.take_eq_nil_iff,← List.length_eq_zero_iff,length_bytes]
      constructor
      · intro h k _ _ hr
        rw [Reached,h.resolve_left (Nat.ne_of_gt hn)] at hr
        exact absurd hr (Nat.not_lt_zero _)
      · intro h
        by_contra hne
        have hpos : 0 < chainSize (b :: mp) := by omega
        have := h 0 (Nat.zero_lt_succ _) (reached_zero.mpr hn) (reached_zero.mpr hpos)
        exact Bool.noConfusion (hc.symm.trans this)
    | true =>
      rw [(copyoutLoop_copy hn hc).1,List.flatMap_cons,List.take_append,List.append_cancel_left_eq,ih]
      have hsize : chainSize (b :: mp) - b.data.length = chainSize mp := by
        rw [chainSize_cons]
        omega
      have hshift : ∀ k, i + (k + 1) = i + 1 + k := fun k => by omega
      constructor
      · intro h k hk hr hr'
        cases k with
        | zero => exact hc
        | succ k =>
          rw [reached_succ] at hr hr'
          rw [hsize] at hr'
          exact (congrArg copy (hshift k)).trans (h k (Nat.lt_of_succ_lt_succ hk) hr hr')
      · intro h k hk hr hr'
        exact (congrArg copy (hshift k).symm).trans
          (h (k + 1) (Nat.succ_lt_succ hk) (reached_succ.mpr hr) (reached_succ.mpr (hsize.symm ▸ hr')))

theorem freed_iff (copy : ℕ → Bool) (i n : ℕ) (mp : List DatBlk) :
    (copyoutLoop copy i 0 n mp).freed = mp.map DatBlk.addr ↔ EachFreed (fun k => copy (i + k)) n mp := by
  induction mp generalizing i n with
  | nil => simp [copyoutLoop,EachFreed]
  | cons b mp ih =>
    rcases Nat.eq_zero_or_pos n with rfl | hn
    · rw [Int.ofNat_zero,copyoutLoop_zero]
      refine iff_of_false (by simp) fun h => ?_
      rcases h 0 (Nat.zero_lt_succ _) with hr | ⟨j,hj,-⟩
      · exact absurd (reached_zero.mp hr) (lt_irrefl _)
      · exact absurd hj (Nat.not_lt_zero _)
    have hshift : ∀ k, i + (k + 1) = i + 1 + k := fun k => by omega
    cases hc : copy i with
    | false =>
      -- the count stands still from here on
      rw [(copyoutLoop_fail hn hc).2,List.map_cons,List.cons.injEq,eq_self,true_and]
      rcases Nat.eq_zero_or_pos (n - b.data.length) with hz | hp
      · rw [hz,Int.ofNat_zero,copyoutLoop_zero]
        have hend : ∀ k, ¬ Reached n (b :: mp) (k + 1) := fun k hk => by
          rw [reached_succ,hz] at hk
          exact Nat.not_lt_zero _ hk
        constructor
        · intro h k hk
          cases mp with
          | nil =>
            obtain rfl : k = 0 := by simpa using hk
            exact Or.inl (reached_zero.mpr hn)
          | cons x mp => simp at h
        · intro h
          cases mp with
          | nil => rfl
          | cons x mp =>
            rcases h 1 (by simp) with hr | ⟨j,-,-,hr⟩
            · exact absurd hr (hend 0)
            · exact absurd hr (hend j)
      · refine iff_of_true (copyoutLoop_freed_err (by decide) hp) fun k hk => ?_
        cases k with
        | zero => exact Or.inl (reached_zero.mpr hn)
        | succ k => exact Or.inr ⟨0,Nat.succ_pos _,hc,reached_succ.mpr (reached_zero.mpr hp)⟩
    | true =>
      rw [(copyoutLoop_copy hn hc).2,List.map_cons,List.cons.injEq,eq_self,true_and,ih]
      constructor
      · intro h k hk
        cases k with
        | zero => exact Or.inl (reached_zero.mpr hn)
        | succ k =>
          rcases h k (Nat.lt_of_succ_lt_succ hk) with hr | ⟨j,hj,hcj,hr⟩
          · exact Or.inl (reached_succ.mpr hr)
          · exact Or.inr ⟨j + 1,Nat.succ_lt_succ hj,(congrArg copy (hshift j)).trans hcj,reached_succ.mpr hr⟩
      · intro h k hk
        rcases h (k + 1) (Nat.succ_lt_succ hk) with hr | ⟨j,hj,hcj,hr⟩
        · exact Or.inl (reached_succ.mp hr)
        · cases j with
          | zero => exact Bool.noConfusion (hc.symm.trans hcj)
          | succ j =>
            exact Or.inr ⟨j,Nat.lt_of_succ_lt_succ hj,(congrArg copy (hshift j).symm).trans hcj,reached_succ.mp hr⟩

end Chain

/-! ### The whole reply -/

def Refused (r : Reply) : Prop := r.nak = true ∨ r.iocError ≠ 0

/- The driver has no error, and none of the checks that are heeded fails. -/
def Returns (r : Reply) (o : Sys) : Prop :=
  ¬ Refused r ∧ 0 ≤ r.iocRval.toInt ∧ (r.iocRval = 0 → o.back = true) ∧ (0 < r.iocCount.toInt → o.access = true)

/- The copies succeed and the number of bytes is the count, or for a result that is not 0 the `ic_len` of the caller. -/
def FillsBuffer (r : Reply) (icLen : BitVec 32) (o : Sys) : Prop :=
  EachCopied o.copy r.iocCount.toNat r.dat ∧
    if r.iocRval = 0 then r.iocCount.toNat ≤ chainSize r.dat
    else icLen.toInt = min r.iocCount.toNat (chainSize r.dat)

/- There are no bytes, and `ic_len` says so already or is set. -/
def LeavesBuffer (r : Reply) (icLen : BitVec 32) : Prop :=
  (r.iocCount = 0 ∨ chainSize r.dat = 0) ∧ (icLen = 0 ∨ (r.iocRval = 0 ∧ r.dat ≠ []))

structure Plain (r : Reply) (icLen : BitVec 32) (o : Sys) : Prop where
  sign : Refused r → 0 ≤ r.iocError.toInt ∨ r.iocError = INT_MIN
  chain : ¬ Refused r → 0 < r.iocCount.toInt → o.access = true → EachFreed o.copy r.iocCount.toNat r.dat
  buffer : Returns r o → if 0 < r.iocCount.toInt then FillsBuffer r icLen o else LeavesBuffer r icLen

section Reply
variable {r : Reply} {icLen : BitVec 32} {o : Sys}

theorem neg_sign (x : BitVec 32) : 0 ≤ (-x).toInt ↔ x = 0 ∨ (x.toInt < 0 ∧ x ≠ INT_MIN) := by
  have hx := x.isLt
  have h0 : (0 : BitVec 32).toNat = 0 := rfl
  have hmin : INT_MIN.toNat = 2147483648 := rfl
  rw [← BitVec.toNat_inj,Ne,← BitVec.toNat_inj]
  simp only [BitVec.toInt_eq_toNat_cond,BitVec.toNat_neg]
  omega

theorem chain_perm {l : List ℕ} (hl : l <+: r.dat.map DatBlk.addr) :
    (l ++ [r.addr]).Perm r.blocks ↔ l = r.dat.map DatBlk.addr := by
  constructor
  · intro h
    have hlen := h.length_eq
    rw [Reply.blocks,List.length_append] at hlen
    exact hl.eq_of_length (Nat.succ.inj hlen)
  · rintro rfl
    exact List.perm_append_comm

theorem refused_value (hr : Refused r) : ∃ v, v ≠ 0 ∧ iStr r icLen o = ⟨v,icLen,[],r.blocks⟩ ∧
    (0 ≤ v.toInt ↔ r.iocError.toInt < 0 ∧ r.iocError ≠ INT_MIN) := by
  have hz : (0 : BitVec 32).toInt = 0 := rfl
  cases hn : r.nak with
  | true =>
    refine ⟨if -r.iocError ≠ 0 then -r.iocError else -EINVAL,?_,?_,?_⟩
    · split_ifs with h
      · exact h
      · decide
    · have hne : (if -r.iocError ≠ 0 then -r.iocError else -EINVAL) ≠ 0 := by
        split_ifs with h
        · exact h
        · decide
      simp only [iStr,strdoioctl,hn,if_true,if_neg hne]
      rfl
    · split_ifs with h
      · have hne : r.iocError ≠ 0 := fun hc => h (by rw [hc]; rfl)
        rw [neg_sign,or_iff_right hne]
      · have h0 : r.iocError = 0 := by simpa using h
        rw [h0]
        decide
  | false =>
    have he : r.iocError ≠ 0 := hr.resolve_left (by simp [hn])
    have hne : -r.iocError ≠ 0 := fun hc => he (by simpa using hc)
    refine ⟨-r.iocError,hne,?_,by rw [neg_sign,or_iff_right he]⟩
    simp only [iStr,strdoioctl,hn,Bool.false_eq_true,if_false,if_pos he,if_neg hne]
    rfl

/- An error of the driver. -/
theorem refused_iff (hr : Refused r) : Delivered r (iStr r icLen o) ↔ Plain r icLen o := by
  obtain ⟨v,-,he,hv⟩ := @refused_value r icLen o hr
  rw [he]
  constructor
  · intro h
    refine ⟨fun _ => ?_,fun hn => absurd hr hn,fun hn => absurd hr hn.1⟩
    have hneg : ¬ 0 ≤ v.toInt := fun h0 => hr.elim (fun hc => Bool.noConfusion (hc.symm.trans (h.ack h0).1))
      fun hc => hc (h.ack h0).2.1
    rw [hv] at hneg
    by_contra hc
    exact hneg ⟨by omega,fun hm => hc (Or.inr hm)⟩
  · intro h
    have hneg : ¬ 0 ≤ v.toInt := by
      rw [hv]
      rintro ⟨h0,hm⟩
      rcases h.sign hr with hs | hs
      · exact absurd h0 (Int.not_lt.mpr hs)
      · exact hm hs
    exact ⟨fun hc => absurd hc hneg,fun hc => absurd hc hneg,List.Perm.refl _⟩

/- Without an error the result of `lis_strdoioctl` decides on the copy of the structure. -/
theorem returns_value (hr : ¬ Refused r) (ha : 0 < r.iocCount.toInt → o.access = true) {e : Ended}
    (he : strdoioctl r icLen o = e) (hv : e.errv = r.iocRval) :
    (iStr r icLen o).stored = e.stored ∧ (iStr r icLen o).freed = e.freed ∧
      (0 ≤ (iStr r icLen o).errv.toInt ↔ Returns r o) ∧
      (Returns r o → (iStr r icLen o).errv = r.iocRval ∧
        (iStr r icLen o).icLen = if r.iocRval = 0 then e.icLen else icLen) := by
  have hback : ∀ b, 0 ≤ (BitVec.ofInt 32 (lisCopyout b []).1).toInt ↔ b = true := by decide
  have hret : Returns r o ↔ 0 ≤ r.iocRval.toInt ∧ (r.iocRval = 0 → o.back = true) :=
    ⟨fun h => ⟨h.2.1,h.2.2.1⟩,fun h => ⟨hr,h.1,h.2,ha⟩⟩
  by_cases h0 : r.iocRval = 0
  · simp only [iStr,he,hv,h0,if_true]
    refine ⟨trivial,trivial,(hback _).trans ⟨fun h => hret.mpr ⟨?_,fun _ => h⟩,fun h => h.2.2.1 h0⟩,fun h => ?_⟩
    · rw [h0]
      decide
    rw [h.2.2.1 h0]
    exact ⟨rfl,rfl⟩
  · simp only [iStr,he,hv,if_neg h0]
    exact ⟨trivial,trivial,⟨fun h => hret.mpr ⟨h,fun hc => absurd hc h0⟩,fun h => h.2.1⟩,fun _ => ⟨trivial,trivial⟩⟩

theorem not_refused (hr : ¬ Refused r) : r.nak = false ∧ r.iocError = 0 :=
  ⟨Bool.eq_false_iff.mpr fun h => hr (Or.inl h),by_contra fun h => hr (Or.inr h)⟩

/- A reply with bytes for a buffer that may be written. -/
theorem count_iff (hr : ¬ Refused r) (hc : 0 < r.iocCount.toInt) (ha : o.access = true) :
    Delivered r (iStr r icLen o) ↔ Plain r icLen o := by
  obtain ⟨hn,he⟩ := not_refused hr
  have hcount : r.iocCount.toInt = r.iocCount.toNat := by
    have := r.iocCount.isLt
    rw [BitVec.toInt_eq_toNat_cond] at hc ⊢
    split_ifs at hc ⊢
    · rfl
    · omega
  have hend : strdoioctl r icLen o = ⟨r.iocRval,r.iocCount,(copyoutLoop o.copy 0 0 r.iocCount.toNat r.dat).copied,
      (copyoutLoop o.copy 0 0 r.iocCount.toNat r.dat).freed ++ [r.addr]⟩ := by
    have hpos : 0 < (r.iocCount.toNat : ℤ) := hcount ▸ hc
    simp only [strdoioctl,hn,Bool.false_eq_true,if_false,he,ne_eq,not_true_eq_false,ha,lisCheckUmem,if_true,
      lt_irrefl,hcount,if_pos hpos]
    rfl
  obtain ⟨hstored,hfreed,hval,hret⟩ := returns_value hr (fun _ => ha) hend rfl
  have hcopied := copied_iff o.copy 0 r.iocCount.toNat r.dat
  have hchain := freed_iff o.copy 0 r.iocCount.toNat r.dat
  simp only [Nat.zero_add] at hcopied hchain
  have hlen : (r.bytes.take r.iocCount.toNat).length = min r.iocCount.toNat (chainSize r.dat) := by
    rw [List.length_take,Reply.bytes,length_bytes]
  have hnum : r.iocCount.toInt = ((min r.iocCount.toNat (chainSize r.dat) : ℕ) : ℤ) ↔
      r.iocCount.toNat ≤ chainSize r.dat := by omega
  -- the number of bytes that the caller is told
  have htold : Returns r o → ((iStr r icLen o).icLen.toInt = ((min r.iocCount.toNat (chainSize r.dat) : ℕ) : ℤ) ↔
      if r.iocRval = 0 then r.iocCount.toNat ≤ chainSize r.dat
      else icLen.toInt = min r.iocCount.toNat (chainSize r.dat)) := by
    intro h
    rw [(hret h).2]
    split_ifs
    · exact hnum
    · simp
  constructor
  · intro h
    refine ⟨fun hx => absurd hx hr,fun _ _ _ => ?_,fun hx => ?_⟩
    · have hperm := h.freed
      rw [hfreed] at hperm
      exact hchain.mp ((chain_perm copyoutLoop_freed).mp hperm)
    · rw [if_pos hc]
      obtain ⟨hb,hl⟩ := h.bytes (hval.mpr hx)
      have hb' := hb
      rw [hstored] at hb'
      rw [hb,hlen] at hl
      exact ⟨hcopied.mp hb',(htold hx).mp hl⟩
  · intro h
    refine ⟨fun h0 => ⟨hn,he,(hret (hval.mp h0)).1⟩,fun h0 => ?_,?_⟩
    · have hx := hval.mp h0
      have hb := h.buffer hx
      rw [if_pos hc] at hb
      have hst : (iStr r icLen o).stored = r.bytes.take r.iocCount.toNat := hstored.trans (hcopied.mpr hb.1)
      exact ⟨hst,by rw [hst,hlen]; exact (htold hx).mpr hb.2⟩
    · rw [hfreed]
      exact (chain_perm copyoutLoop_freed).mpr (hchain.mpr (h.chain hr hc ha))

/- A buffer that may not be written. -/
theorem blocked_iff (hr : ¬ Refused r) (hc : 0 < r.iocCount.toInt) (ha : o.access = false) :
    Delivered r (iStr r icLen o) ↔ Plain r icLen o := by
  obtain ⟨hn,he⟩ := not_refused hr
  have hend : iStr r icLen o = ⟨-14,icLen,[],r.dat.map DatBlk.addr ++ [r.addr]⟩ := by
    simp only [iStr,strdoioctl,hn,Bool.false_eq_true,if_false,he,ne_eq,not_true_eq_false,if_pos hc,ha,lisCheckUmem]
    rfl
  have hneg : ¬ (0 : ℤ) ≤ (-14 : BitVec 32).toInt := by decide
  rw [hend]
  refine iff_of_true ⟨fun h => absurd h hneg,fun h => absurd h hneg,(chain_perm List.prefix_rfl).mpr rfl⟩
    ⟨fun hx => absurd hx hr,fun _ _ hx => ?_,fun hx => ?_⟩
  · exact Bool.noConfusion (ha.symm.trans hx)
  · exact Bool.noConfusion (ha.symm.trans (hx.2.2.2 hc))

/- A reply without bytes. -/
theorem empty_iff (hr : ¬ Refused r) (hc : ¬ 0 < r.iocCount.toInt) :
    Delivered r (iStr r icLen o) ↔ Plain r icLen o := by
  obtain ⟨hn,he⟩ := not_refused hr
  have hend : strdoioctl r icLen o =
      ⟨r.iocRval,if r.dat ≠ [] then 0 else icLen,[],r.dat.map DatBlk.addr ++ [r.addr]⟩ := by
    simp only [strdoioctl,hn,Bool.false_eq_true,if_false,he,ne_eq,not_true_eq_false,if_neg hc]
  obtain ⟨hstored,hfreed,hval,hret⟩ := returns_value hr (fun h => absurd h hc) hend rfl
  have hbytes : [] = r.bytes.take r.iocCount.toNat ↔ r.iocCount = 0 ∨ chainSize r.dat = 0 := by
    rw [eq_comm,List.take_eq_nil_iff,← List.length_eq_zero_iff,Reply.bytes,length_bytes,← BitVec.toNat_inj]
    rfl
  have hz : ∀ x : BitVec 32, x.toInt = ((([] : List Uchar).length : ℕ) : ℤ) ↔ x = 0 := fun x => by
    rw [← BitVec.toInt_inj]
    rfl
  have htold : Returns r o → ((iStr r icLen o).icLen = 0 ↔ icLen = 0 ∨ (r.iocRval = 0 ∧ r.dat ≠ [])) := by
    intro h
    rw [(hret h).2]
    split_ifs with h0 hd
    · exact iff_of_true rfl (Or.inr ⟨h0,hd⟩)
    · exact ⟨Or.inl,fun hx => hx.resolve_right fun hx => hd hx.2⟩
    · exact ⟨Or.inl,fun hx => hx.resolve_right fun hx => h0 hx.1⟩
  constructor
  · intro h
    refine ⟨fun hx => absurd hx hr,fun _ hx => absurd hx hc,fun hx => ?_⟩
    rw [if_neg hc]
    obtain ⟨hb,hl⟩ := h.bytes (hval.mpr hx)
    rw [hstored] at hb hl
    exact ⟨hbytes.mp hb,(htold hx).mp ((hz _).mp hl)⟩
  · intro h
    refine ⟨fun h0 => ⟨hn,he,(hret (hval.mp h0)).1⟩,fun h0 => ?_,?_⟩
    · have hx := hval.mp h0
      have hb := h.buffer hx
      rw [if_neg hc] at hb
      rw [hstored]
      exact ⟨hbytes.mpr hb.1,(hz _).mpr ((htold hx).mpr hb.2)⟩
    · rw [hfreed]
      exact (chain_perm List.prefix_rfl).mpr rfl

/- What a process may rely on holds of these replies, and of no others. -/
theorem iStr_delivers_iff (r : Reply) (icLen : BitVec 32) (o : Sys) :
    Delivered r (iStr r icLen o) ↔ Plain r icLen o := by
  by_cases hr : Refused r
  · exact refused_iff hr
  by_cases hc : 0 < r.iocCount.toInt
  · cases ha : o.access with
    | false => exact blocked_iff hr hc ha
    | true => exact count_iff hr hc ha
  · exact empty_iff hr hc

/- The driver returns 1 and four bytes to a caller that had eight. -/
theorem length_not_returned : ¬ ∀ (r : Reply) (icLen : BitVec 32) (o : Sys), Delivered r (iStr r icLen o) := by
  intro h
  have hb := ((h ⟨false,0,0,1,4,[⟨1,[1,2,3,4]⟩]⟩ 8 ⟨true,fun _ => true,true⟩).bytes (by decide)).2
  revert hb
  decide

end Reply

end CSLiS.Ioctl.Str
