import CSLiS.Ioctl.Copy

/-!
# When every copy request is answered (head/head.c)

A request is answered, and answered rightly, exactly when the user's memory is
accessible, the copies succeed, and the chain of an M_COPYOUT ends where the
requested bytes end. A failed allocation is answered with ENOMEM.
-/

namespace CSLiS.Ioctl
open Queue

variable {copy : ℕ → Bool} {x86 : Bool} {r : CopyReq} {o : Outcome} {v : Served} {i : ℕ}
  {err count : ℤ} {mp : List DatBlk}

def CopyReq.source (r : CopyReq) (o : Outcome) : List Uchar :=
  if r.dbType = M_COPYIN then r.ubuf o else r.bCont.flatMap DatBlk.data

/- The requested bytes were copied, all of them. -/
def AllCopied (r : CopyReq) (o : Outcome) (v : Served) : Prop :=
  v.copied.length = r.cqSize.toNat ∧ v.copied = (r.source o).take r.cqSize.toNat

structure Answered (r : CopyReq) (o : Outcome) (v : Served) : Prop where
  rval : v.answer.cpRval = 0 ↔ AllCopied r o v
  data : r.dbType = M_COPYIN → v.answer.cpRval = 0 → v.answer.data = r.ubuf o

/-- What an ioctl with these requests should do: answer each with one message, and free
each attached block once. -/
structure Protocol (reqs : List (CopyReq × Outcome)) (c : Copies) : Prop where
  answered : List.Forall₂ (fun p v => Answered p.1 p.2 v) reqs c.sent
  freed : c.freed.Perm (reqs.flatMap fun p => p.1.chain)

def chainSize (mp : List DatBlk) : ℕ := (mp.map fun b => b.data.length).sum

/- The chain holds `count` bytes, and no shorter chain does. -/
def ChainFits (count : ℕ) (mp : List DatBlk) : Prop :=
  count ≤ chainSize mp ∧ ∀ k < mp.length, chainSize (mp.take k) < count

structure Fits (r : CopyReq) (o : Outcome) : Prop where
  access : o.access = true
  copyin : r.dbType = M_COPYIN →
    if o.alloc then o.copy 0 = true ∧ r.cqSize.toNat < 2 ^ 31 else r.cqSize ≠ 0
  copyout : r.dbType = M_COPYOUT →
    ChainFits r.cqSize.toNat r.bCont ∧ ∀ k < r.bCont.length, o.copy k = true

theorem ubuf_length : (r.ubuf o).length = r.cqSize.toNat := by simp [CopyReq.ubuf]

theorem blkRoom_le (len : Uint) : len.toNat ≤ blkRoom len ↔ len.toNat < 2 ^ 31 := by
  have hlt := len.isLt
  unfold blkRoom
  by_cases h : len.toNat < 2 ^ 31
  · have hi : len.toInt = len.toNat := by rw [BitVec.toInt_eq_toNat_cond,if_pos (by omega)]
    rw [hi]
    split_ifs with hs
    · exact iff_of_true le_rfl h
    · exact iff_of_true (by omega) h
  · have hi : len.toInt < 0 := by
      rw [BitVec.toInt_eq_toNat_cond,if_neg (by omega)]
      omega
    rw [if_neg (by unfold Buffer.FASTBUF; omega)]
    simp only [h,iff_false,Buffer.FASTBUF]
    omega

theorem fits_copyin (ht : r.dbType = M_COPYIN) : Fits r o ↔ o.access = true ∧
    if o.alloc then o.copy 0 = true ∧ r.cqSize.toNat < 2 ^ 31 else r.cqSize ≠ 0 := by
  constructor
  · exact fun h => ⟨h.access,h.copyin ht⟩
  · rintro ⟨h1,h2⟩
    exact ⟨h1,fun _ => h2,fun h => absurd (ht.symm.trans h) (by decide)⟩

theorem fits_copyout (ht : r.dbType = M_COPYOUT) : Fits r o ↔ o.access = true ∧
    ChainFits r.cqSize.toNat r.bCont ∧ ∀ k < r.bCont.length, o.copy k = true := by
  constructor
  · exact fun h => ⟨h.access,h.copyout ht⟩
  · rintro ⟨h1,h2⟩
    exact ⟨h1,fun h => absurd (ht.symm.trans h) (by decide),fun _ => h2⟩

theorem copyin_exact (x86 : Bool) (ht : r.dbType = M_COPYIN) :
    ¬(copyin x86 r o).err < 0 ∧ Answered r o (copyin x86 r o) ↔ Fits r o := by
  rw [fits_copyin ht]
  cases ha : o.access with
  | false => simp [copyin,lisCheckUmem,ha,EFAULT]
  | true =>
    cases hl : o.alloc with
    | false =>
      have hv : copyin x86 r o = ⟨0,⟨ENOMEM,[]⟩,[],r.chain,[]⟩ := by simp [copyin,lisCheckUmem,ha,hl]
      have hnot : AllCopied r o ⟨0,⟨ENOMEM,[]⟩,[],r.chain,[]⟩ ↔ r.cqSize = 0 := by
        rw [AllCopied,← BitVec.toNat_inj]
        constructor
        · exact fun h => h.1.symm
        · exact fun h => ⟨h.symm,by simp [h]⟩
      have hne : ENOMEM ≠ 0 := by decide
      rw [hv]
      constructor
      · exact fun h => ⟨rfl,fun h0 => hne (h.2.rval.mpr (hnot.mpr h0))⟩
      · exact fun h => ⟨lt_irrefl _,⟨iff_of_false hne fun hc => h.2 (hnot.mp hc),
          fun _ h0 => absurd h0 hne⟩⟩
    | true =>
      cases hc : o.copy 0 with
      | false => simp [copyin,lisCheckUmem,lisCopyin,ha,hl,hc,EFAULT]
      | true =>
        have hv : copyin x86 r o =
            ⟨0,⟨0,(r.ubuf o).take (blkRoom r.cqSize)⟩,(r.ubuf o).take (blkRoom r.cqSize),r.chain,[]⟩ := by
          simp [copyin,lisCheckUmem,lisCopyin,ha,hl,hc]
        have hlen := ubuf_length (r := r) (o := o)
        rw [hv]
        simp only [true_and,if_true,← blkRoom_le]
        constructor
        · rintro ⟨-,h⟩
          have hall := (h.rval.mp rfl).1
          rw [List.length_take,hlen] at hall
          omega
        · intro h
          have htake : (r.ubuf o).take (blkRoom r.cqSize) = r.ubuf o :=
            List.take_of_length_le (by rw [hlen]; exact h)
          have hsrc : (r.source o).take r.cqSize.toNat = r.ubuf o := by
            rw [CopyReq.source,if_pos ht]
            exact List.take_of_length_le hlen.le
          rw [htake]
          exact ⟨lt_irrefl _,⟨iff_of_true rfl ⟨hlen,hsrc.symm⟩,fun _ _ => rfl⟩⟩

/- After an error the rest of the chain is only freed. -/
theorem copyoutLoop_err (he : err ≠ 0) :
    (copyoutLoop copy i err count mp).err = err ∧ (copyoutLoop copy i err count mp).copied = [] := by
  induction mp with
  | nil => exact ⟨rfl,rfl⟩
  | cons b mp ih =>
    simp only [copyoutLoop,he,if_false]
    split_ifs
    · exact ⟨rfl,rfl⟩
    · exact ih

theorem copyoutLoop_freed : (copyoutLoop copy i err count mp).freed <+: mp.map DatBlk.addr := by
  induction mp generalizing i err count with
  | nil => exact List.prefix_rfl
  | cons b mp ih =>
    simp only [copyoutLoop]
    split_ifs
    · exact List.nil_prefix
    · exact List.prefix_cons_inj _ |>.mpr ih
    · exact List.prefix_cons_inj _ |>.mpr ih

theorem copyoutLoop_copied (copy : ℕ → Bool) (i : ℕ) (err : ℤ) (n : ℕ) (mp : List DatBlk) :
    (copyoutLoop copy i err n mp).copied <+: mp.flatMap DatBlk.data := by
  induction mp generalizing i err n with
  | nil => exact List.prefix_rfl
  | cons b mp ih =>
    simp only [copyoutLoop]
    split_ifs with h1 h2
    · exact List.nil_prefix
    · cases hc : copy i with
      | false =>
        simp only [lisCopyout,Bool.false_eq_true,if_false,List.nil_append]
        rw [(copyoutLoop_err (by decide)).2]
        exact List.nil_prefix
      | true =>
        have hlen : (min (n : ℤ) b.data.length).toNat = min n b.data.length := by omega
        have hcount : (n : ℤ) - min (n : ℤ) b.data.length = ((n - min n b.data.length : ℕ) : ℤ) := by omega
        simp only [lisCopyout,if_true,hlen,hcount,List.flatMap_cons]
        by_cases hn : n < b.data.length
        · have h0 : n - min n b.data.length = 0 := by omega
          have hnil : (copyoutLoop copy (i + 1) 0 ((0 : ℕ) : ℤ) mp).copied = [] := by
            cases mp <;> simp [copyoutLoop]
          rw [h0,hnil,List.append_nil]
          exact (List.take_prefix _ _).trans (List.prefix_append _ _)
        · rw [List.take_of_length_le (by omega)]
          exact (List.prefix_append_right_inj _).mpr (ih _ _ _)
    · exact (copyoutLoop_err h2).2 ▸ List.nil_prefix

theorem chainFits_cons {n : ℕ} {b : DatBlk} (hn : 0 < n) :
    ChainFits n (b :: mp) ↔ ChainFits (n - min n b.data.length) mp := by
  have hsize : ∀ l : List DatBlk, chainSize (b :: l) = b.data.length + chainSize l := fun l => by
    simp [chainSize]
  unfold ChainFits
  rw [hsize]
  constructor
  · rintro ⟨h1,h2⟩
    refine ⟨by omega,fun k hk => ?_⟩
    have := h2 (k + 1) (Nat.succ_lt_succ hk)
    rw [List.take_succ_cons,hsize] at this
    omega
  · rintro ⟨h1,h2⟩
    refine ⟨by omega,fun k hk => ?_⟩
    cases k with
    | zero => simpa [chainSize] using hn
    | succ k =>
      have := h2 k (Nat.lt_of_succ_lt_succ hk)
      rw [List.take_succ_cons,hsize]
      omega

/-- The loop copies `n` bytes and frees the whole chain exactly when the chain ends
where the bytes end and no copy fails. -/
theorem copyoutLoop_exact (copy : ℕ → Bool) (i n : ℕ) (mp : List DatBlk) :
    (¬(copyoutLoop copy i 0 n mp).err < 0 ∧ (copyoutLoop copy i 0 n mp).copied.length = n ∧
        (copyoutLoop copy i 0 n mp).freed.length = mp.length) ↔
      ChainFits n mp ∧ ∀ k < mp.length, copy (i + k) = true := by
  induction mp generalizing i n with
  | nil =>
    simp only [copyoutLoop,ChainFits,chainSize,List.map_nil,List.sum_nil,List.length_nil]
    constructor
    · exact fun h => ⟨⟨h.2.1.ge,nofun⟩,nofun⟩
    · exact fun h => ⟨lt_irrefl _,(Nat.le_zero.mp h.1.1).symm,trivial⟩
  | cons b mp ih =>
    by_cases hn : n = 0
    · subst hn
      constructor
      · rintro ⟨-,-,h⟩
        simp [copyoutLoop] at h
      · rintro ⟨h,-⟩
        exact absurd (h.2 0 (by simp)) (Nat.not_lt_zero _)
    · have hpos : ¬(n : ℤ) ≤ 0 := by omega
      simp only [copyoutLoop,hpos,if_false,if_true]
      rw [chainFits_cons (by omega)]
      cases hc : copy i with
      | false =>
        simp only [lisCopyout,Bool.false_eq_true,if_false]
        rw [(copyoutLoop_err (by decide)).1]
        constructor
        · rintro ⟨h,-⟩
          exact absurd (by decide) h
        · rintro ⟨-,h⟩
          have := h 0 (by simp)
          rw [add_zero,hc] at this
          cases this
      | true =>
        have hlen : (min (n : ℤ) b.data.length).toNat = min n b.data.length := by omega
        have hcount : (n : ℤ) - min (n : ℤ) b.data.length = ((n - min n b.data.length : ℕ) : ℤ) := by omega
        have hcopy : (∀ k < mp.length + 1, copy (i + k) = true) ↔
            ∀ k < mp.length, copy (i + 1 + k) = true := by
          constructor
          · intro h k hk
            have := h (k + 1) (Nat.succ_lt_succ hk)
            rwa [show i + (k + 1) = i + 1 + k by omega] at this
          · intro h k hk
            cases k with
            | zero => exact hc
            | succ k =>
              rw [show i + (k + 1) = i + 1 + k by omega]
              exact h k (Nat.lt_of_succ_lt_succ hk)
        simp only [lisCopyout,if_true,hlen,hcount,List.length_append,List.length_take,List.length_cons]
        rw [hcopy,← ih]
        constructor
        · rintro ⟨h1,h2,h3⟩
          exact ⟨h1,by omega,by omega⟩
        · rintro ⟨h1,h2,h3⟩
          exact ⟨h1,by omega,by omega⟩

theorem copyout_exact (ht : r.dbType = M_COPYOUT) :
    ¬(copyout x86 r o).err < 0 ∧ Answered r o (copyout x86 r o) ∧
      (copyout x86 r o).freed.length = r.chain.length ↔ Fits r o := by
  rw [fits_copyout ht]
  cases ha : o.access with
  | false => simp [copyout,lisCheckUmem,ha,EFAULT]
  | true =>
    have hc : 0 ≤ lisCheckUmem o.access := by simp [lisCheckUmem,ha]
    have hlen : r.chain.length = r.bCont.length := by simp [CopyReq.chain]
    have hloop := copyoutLoop_exact o.copy 0 r.cqSize.toNat r.bCont
    simp only [zero_add] at hloop
    simp only [copyout,hc,if_true,copyoutBlks,true_and,hlen]
    rw [← hloop]
    have hpre := copyoutLoop_copied o.copy 0 0 r.cqSize.toNat r.bCont
    by_cases he : (copyoutLoop o.copy 0 0 r.cqSize.toNat r.bCont).err < 0
    · simp [he]
    · simp only [he,if_false,lt_self_iff_false,not_false_eq_true,true_and]
      constructor
      · rintro ⟨h1,h2⟩
        exact ⟨(h1.rval.mp rfl).1,h2⟩
      · rintro ⟨h1,h2⟩
        have hnot : r.dbType ≠ M_COPYIN := fun h => absurd (ht.symm.trans h) (by decide)
        refine ⟨⟨iff_of_true rfl ⟨h1,?_⟩,fun h => absurd h hnot⟩,h2⟩
        have htake := List.prefix_iff_eq_take.mp hpre
        rw [h1] at htake
        rw [CopyReq.source,if_neg hnot]
        exact htake

/- One request, served as it should be. -/
theorem serve_exact (x86 : Bool) (r : CopyReq) (o : Outcome) : ¬(serve x86 r o).err < 0 ∧ Answered r o (serve x86 r o) ∧
    (serve x86 r o).freed.length = r.chain.length ↔ Fits r o := by
  rcases r.copies with ht | ht
  · have hfree : (copyin x86 r o).freed = r.chain := by
      simp only [copyin]
      split_ifs <;> rfl
    rw [serve,if_pos ht,hfree,← copyin_exact x86 ht]
    simp
  · rw [serve,if_neg fun h => absurd (ht.symm.trans h) (by decide)]
    exact copyout_exact ht

theorem serve_freed (x86 : Bool) (r : CopyReq) (o : Outcome) : (serve x86 r o).freed <+: r.chain ∧
    ((serve x86 r o).err < 0 → (serve x86 r o).attached = [] ∨ (serve x86 r o).freed = []) ∧
    (serve x86 r o).attached <+: r.chain := by
  unfold serve
  split_ifs
  · simp only [copyin]
    split_ifs <;> exact ⟨List.prefix_rfl,fun _ => .inl rfl,List.nil_prefix⟩
  · by_cases ha : 0 ≤ lisCheckUmem o.access
    · simp only [copyout,ha,if_true]
      exact ⟨copyoutLoop_freed,fun _ => .inl trivial,List.nil_prefix⟩
    · simp only [copyout,ha,if_false]
      exact ⟨List.nil_prefix,fun _ => .inr trivial,List.prefix_rfl⟩

theorem copyRequests_freed (x86 : Bool) (reqs : List (CopyReq × Outcome)) :
    (copyRequests x86 reqs).freed.length ≤ (reqs.flatMap fun p => p.1.chain).length := by
  induction reqs with
  | nil => exact Nat.zero_le _
  | cons p rest ih =>
    obtain ⟨hf,hor,ha⟩ := serve_freed x86 p.1 p.2
    have hf := hf.length_le
    have ha := ha.length_le
    simp only [copyRequests,List.flatMap_cons,List.length_append]
    split_ifs with he
    · rcases hor he with h | h <;> simp only [h,List.length_append,List.length_nil] <;> omega
    · simp only [List.length_append]
      omega

/-- An ioctl answers every copy request, rightly, and frees every attached block once,
exactly when all the requests fit. -/
theorem copy_requests_answered (x86 : Bool) (reqs : List (CopyReq × Outcome)) :
    Protocol reqs (copyRequests x86 reqs) ↔ ∀ p ∈ reqs, Fits p.1 p.2 := by
  induction reqs with
  | nil => exact iff_of_true ⟨.nil,.refl _⟩ nofun
  | cons p rest ih =>
    have hserve := serve_exact x86 p.1 p.2
    rw [List.forall_mem_cons,← hserve,← ih]
    obtain ⟨hpre,-,-⟩ := serve_freed x86 p.1 p.2
    by_cases he : (serve x86 p.1 p.2).err < 0
    · have hc : copyRequests x86 (p :: rest) = ⟨some (serve x86 p.1 p.2).err,[],
          (serve x86 p.1 p.2).freed ++ (serve x86 p.1 p.2).attached⟩ := if_pos he
      rw [hc]
      exact iff_of_false (fun h => nomatch h.answered) fun h => h.1.1 he
    · have hc : copyRequests x86 (p :: rest) = ⟨(copyRequests x86 rest).ret,
          serve x86 p.1 p.2 :: (copyRequests x86 rest).sent,
          (serve x86 p.1 p.2).freed ++ (copyRequests x86 rest).freed⟩ := if_neg he
      rw [hc]
      constructor
      · rintro ⟨ha,hf⟩
        cases ha with
        | cons h1 h2 =>
          have hlen := hf.length_eq
          have h3 := hpre.length_le
          have h4 := copyRequests_freed x86 rest
          simp only [List.flatMap_cons,List.length_append] at hlen
          have hone : (serve x86 p.1 p.2).freed = p.1.chain := hpre.eq_of_length (by omega)
          rw [hone,List.flatMap_cons] at hf
          exact ⟨⟨he,h1,congrArg _ hone⟩,⟨h2,(List.perm_append_left_iff _).mp hf⟩⟩
      · rintro ⟨⟨-,h1,h2⟩,h3⟩
        refine ⟨.cons h1 h3.answered,?_⟩
        rw [hpre.eq_of_length h2,List.flatMap_cons]
        exact h3.freed.append_left _

/-- The user's memory cannot be read: the request of the driver stays without an answer. -/
theorem copyin_unanswered : ¬Protocol [(⟨M_COPYIN,0,4,[],.inl rfl⟩,⟨false,true,fun _ => true,fun _ => 0⟩)]
    (copyRequests true [(⟨M_COPYIN,0,4,[],.inl rfl⟩,⟨false,true,fun _ => true,fun _ => 0⟩)]) :=
  fun h => nomatch h.answered

end CSLiS.Ioctl
