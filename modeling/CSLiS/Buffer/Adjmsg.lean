import CSLiS.Queue.Message

/-!
# Trimming a message (head/msgutl.c)

`lis_adjmsg` takes bytes off the front of the leading blocks of one type, or off the end of the trailing ones. It
counts them first, in an `int`, and then walks over the blocks. A message is the list of its blocks on `b_cont`.
-/

namespace CSLiS.Adjmsg
open Queue

/- A message block and its part of a buffer. The size of a buffer is an `int` where it is allocated. -/
structure Mblk where
  dbType : Uchar
  buf : List Uchar
  bRptr : ℕ
  bWptr : ℕ
  le : bRptr ≤ bWptr
  lim : bWptr ≤ buf.length
  size : buf.length < 2 ^ 31

namespace Mblk

variable (b : Mblk)

def nbytes : ℕ := b.bWptr - b.bRptr
def bytes : List Uchar := (b.buf.take b.bWptr).drop b.bRptr

/- `b_rptr += n` -/
def advance (n : ℕ) (h : n ≤ b.nbytes) : Mblk :=
  { b with bRptr := b.bRptr + n, le := by have := b.le; unfold nbytes at h; omega }

/- `b_wptr = b_rptr + n` -/
def shorten (n : ℕ) (h : n ≤ b.nbytes) : Mblk :=
  { b with
    bWptr := b.bRptr + n
    le := Nat.le_add_right ..
    lim := by have := b.le; have := b.lim; unfold nbytes at h; omega }

end Mblk

/- What an `int` holds after an addition. -/
def int (z : ℤ) : ℤ := z.bmod (2 ^ 32)

def addSize (rtn : ℤ) (b : Mblk) : ℤ := if 0 < b.nbytes then int (rtn + b.nbytes) else rtn

/-- The loop of `lis_xmsgsize` (`msgutl.c:170-175`) -/
def xmsgLoop (type : Uchar) : ℤ → List Mblk → ℤ
  | rtn, [] => rtn
  | rtn, mp :: l => if mp.dbType = type then xmsgLoop type (addSize rtn mp) l else rtn

/-- `lis_xmsgsize` (`msgutl.c:163-177`) -/
def lisXmsgsize : List Mblk → ℤ
  | [] => 0
  | mp :: l => xmsgLoop mp.dbType 0 (mp :: l)

/-- The loop of `tmsgsize` (`msgutl.c:106-120`): the blocks ahead of `*first`, those from there on, their count. -/
def tmsgLoop (pre run : List Mblk) (type : Uchar) (rtn : ℤ) : List Mblk → List Mblk × List Mblk × ℤ
  | [] => (pre,run,rtn)
  | mp :: l =>
      if mp.dbType = type then tmsgLoop pre (run ++ [mp]) type (addSize rtn mp) l
      else tmsgLoop (pre ++ run) [mp] mp.dbType mp.nbytes l

/-- `tmsgsize` (`msgutl.c:98-122`) -/
def tmsgsize : List Mblk → List Mblk × List Mblk × ℤ
  | [] => ([],[],0)
  | mp :: l => tmsgLoop [] [] mp.dbType 0 (mp :: l)

/-- The loop over the front blocks (`msgutl.c:198-213`); it has no test for the end of the chain. -/
def frontLoop : ℕ → List Mblk → Option (List Mblk)
  | _, [] => none
  | length, bp :: l =>
      if h : length < bp.nbytes then some (bp.advance length h.le :: l)
      else if length - bp.nbytes = 0 then some (bp.advance bp.nbytes le_rfl :: l)
      else (frontLoop (length - bp.nbytes) l).map (bp.advance bp.nbytes le_rfl :: ·)

/-- The loop over the trailing blocks (`msgutl.c:224-236`); `length` bytes stay. -/
def tailLoop : ℤ → List Mblk → List Mblk
  | _, [] => []
  | length, mp2 :: l =>
      if length ≤ 0 then mp2.advance mp2.nbytes le_rfl :: tailLoop length l
      else if 0 < mp2.nbytes then
        if h : length.toNat < mp2.nbytes then mp2.shorten length.toNat h.le :: tailLoop (length - mp2.nbytes) l
        else mp2 :: tailLoop (length - mp2.nbytes) l
      else mp2 :: tailLoop length l

/-- `lis_adjmsg` (`msgutl.c:189-241`): what it returns and the blocks; `none` if it runs past the end of the chain. -/
def lisAdjmsg (mp : List Mblk) (length : ℤ) : Option (ℕ × List Mblk) :=
  if mp = [] then some (0,mp)
  else if 0 ≤ length then
    if lisXmsgsize mp < length then some (0,mp) else (frontLoop length.toNat mp).map fun r => (1,r)
  else
    let t := tmsgsize mp
    if int (length + t.2.2) < 0 then some (0,mp) else some (1,t.1 ++ tailLoop (int (length + t.2.2)) t.2.1)

def bytes (mp : List Mblk) : List Uchar := mp.flatMap Mblk.bytes

/- The leading blocks of the type of the first one, and the trailing ones of the type of the last one. -/
def leading : List Mblk → List Mblk
  | [] => []
  | mp :: l => (mp :: l).takeWhile fun b => b.dbType = mp.dbType
def trailing (mp : List Mblk) : List Mblk := (leading mp.reverse).reverse

/- How many bytes the message has at the end that the sign of `length` means. -/
def avail (mp : List Mblk) (length : ℤ) : ℕ := (bytes (if 0 ≤ length then leading mp else trailing mp)).length

def SameBuf (b c : Mblk) : Prop := c.dbType = b.dbType ∧ c.buf = b.buf

/- The message afterwards. The blocks and their buffers are those of before, and a block without any of the bytes
to be removed has the same pointers. -/
structure Trimmed (mp : List Mblk) (length : ℤ) (rtn : ℕ) (r : List Mblk) : Prop where
  answer : rtn = 1 ↔ length.natAbs ≤ avail mp length
  front : rtn = 1 → 0 ≤ length → bytes r = (bytes mp).drop length.toNat
  tail : rtn = 1 → length < 0 → bytes r = (bytes mp).take ((bytes mp).length - length.natAbs)
  blocks : List.Forall₂ SameBuf mp r
  others : ∀ pre b post, mp = pre ++ b :: post →
    length.natAbs ≤ (bytes (if 0 ≤ length then pre else post)).length → r[pre.length]? = some b
  refused : rtn ≠ 1 → r = mp

/- The count of the bytes fits an `int`, or is not below what is asked for in spite of that. -/
def Counts (mp : List Mblk) (length : ℤ) : Prop :=
  if 0 ≤ length then avail mp length < 2 ^ 31 ∨ length ≤ int (avail mp length)
  else length + avail mp length < 2 ^ 31

variable {b : Mblk} {l mp pre run : List Mblk} {n : ℕ} {k rtn length : ℤ} {type : Uchar}

namespace Mblk

theorem bytes_length : b.bytes.length = b.nbytes := by
  have := b.lim
  simp only [bytes,nbytes,List.length_drop,List.length_take]
  omega

theorem nbytes_lt : b.nbytes < 2 ^ 31 := by
  have := b.lim
  have := b.size
  unfold nbytes
  omega

theorem advance_bytes (h : n ≤ b.nbytes) : (b.advance n h).bytes = b.bytes.drop n := by
  simp only [bytes,advance,List.drop_drop]

theorem drop_all : b.bytes.drop b.nbytes = [] := by rw [← bytes_length,List.drop_length]

theorem shorten_bytes (h : n ≤ b.nbytes) : (b.shorten n h).bytes = b.bytes.take n := by
  have hle := b.le
  unfold nbytes at h
  simp only [bytes,shorten,List.take_drop]
  rw [List.take_take,Nat.min_eq_left (by omega)]

theorem advance_zero (h : n ≤ b.nbytes) (hn : n = 0) : b.advance n h = b := by
  subst hn
  rfl

end Mblk

@[simp] theorem bytes_nil : bytes [] = [] := rfl
@[simp] theorem bytes_cons : bytes (b :: l) = b.bytes ++ bytes l := List.flatMap_cons
@[simp] theorem bytes_append : bytes (l ++ mp) = bytes l ++ bytes mp := List.flatMap_append

theorem int_add_left : int (int k + length) = int (k + length) := Int.bmod_add_bmod
theorem int_add_right : int (k + int length) = int (k + length) := Int.add_bmod_bmod
theorem int_of_lt (h : -2 ^ 31 ≤ k) (h' : k < 2 ^ 31) : int k = k := Int.bmod_eq_of_le (by omega) (by omega)
theorem int_range : -2 ^ 31 ≤ int k ∧ int k < 2 ^ 31 :=
  ⟨Int.le_bmod (by decide),Int.bmod_lt (by decide)⟩
theorem int_le (h : 0 ≤ k) : int k ≤ k := by
  unfold int
  rw [Int.bmod_def]
  split_ifs <;> omega
theorem int_zero : int 0 = 0 := rfl
theorem int_nbytes : int b.nbytes = b.nbytes := by
  have := b.nbytes_lt
  exact int_of_lt (by omega) (by omega)

theorem addSize_eq (h : int rtn = rtn) : addSize rtn b = int (rtn + b.bytes.length) := by
  unfold addSize
  rw [Mblk.bytes_length]
  split_ifs with hn
  · rfl
  · rw [Nat.eq_zero_of_not_pos hn,Nat.cast_zero,add_zero,h]

theorem int_int : int (int k) = int k := Int.bmod_bmod

/- The counts of both scans, and the run of blocks that they are of. -/
theorem xmsgLoop_eq (type : Uchar) (h : int rtn = rtn) :
    xmsgLoop type rtn l = int (rtn + (bytes (l.takeWhile fun b => b.dbType = type)).length) := by
  induction l generalizing rtn with
  | nil => simp [xmsgLoop,h]
  | cons b l ih =>
    unfold xmsgLoop
    split_ifs with hb
    · rw [addSize_eq h,ih int_int,int_add_left,List.takeWhile_cons_of_pos (by simpa using hb)]
      simp [add_assoc]
    · rw [List.takeWhile_cons_of_neg (by simpa using hb)]
      simp [h]

theorem lisXmsgsize_eq (l : List Mblk) : lisXmsgsize l = int (bytes (leading l)).length := by
  cases l with
  | nil => rfl
  | cons b l =>
    have h := xmsgLoop_eq (l := b :: l) b.dbType int_zero
    rwa [zero_add] at h

/- The blocks seen so far: the last of `pre` is of another type than all of `run`. -/
structure Scanned (pre run : List Mblk) (type : Uchar) (rtn : ℤ) : Prop where
  ne : run ≠ []
  same : ∀ b ∈ run, b.dbType = type
  border : ∀ b, pre.getLast? = some b → b.dbType ≠ type
  count : rtn = int (bytes run).length

theorem tmsgLoop_scanned (h : Scanned pre run type rtn) :
    ∃ t, Scanned (tmsgLoop pre run type rtn l).1 (tmsgLoop pre run type rtn l).2.1 t (tmsgLoop pre run type rtn l).2.2 ∧
      (tmsgLoop pre run type rtn l).1 ++ (tmsgLoop pre run type rtn l).2.1 = pre ++ run ++ l := by
  induction l generalizing pre run type rtn with
  | nil => exact ⟨type,h,(List.append_nil _).symm⟩
  | cons b l ih =>
    unfold tmsgLoop
    split_ifs with hb
    · have hn : Scanned pre (run ++ [b]) type (addSize rtn b) := by
        refine ⟨by simp,fun c hc => ?_,h.border,?_⟩
        · rcases List.mem_append.mp hc with hc | hc
          · exact h.same c hc
          · rw [List.mem_singleton.mp hc,hb]
        · have hr : int rtn = rtn := by rw [h.count,int_int]
          rw [addSize_eq hr,h.count,int_add_left]
          simp
      obtain ⟨t,ht,he⟩ := ih hn
      exact ⟨t,ht,by rw [he]; simp⟩
    · have hn : Scanned (pre ++ run) [b] b.dbType b.nbytes := by
        refine ⟨by simp,fun c hc => ?_,fun c hc => ?_,?_⟩
        · rw [List.mem_singleton.mp hc]
        · rw [List.getLast?_append_of_ne_nil _ h.ne] at hc
          rw [h.same c (List.mem_of_getLast? hc)]
          exact Ne.symm hb
        · simp [Mblk.bytes_length,int_nbytes]
      obtain ⟨t,ht,he⟩ := ih hn
      exact ⟨t,ht,by rw [he]; simp⟩

theorem Scanned.trailing (h : Scanned pre run type rtn) : trailing (pre ++ run) = run := by
  obtain ⟨b,hb⟩ := Option.isSome_iff_exists.mp (List.getLast?_isSome.mpr h.ne)
  have hrev : run.reverse.head? = some b := by rw [List.head?_reverse,hb]
  obtain ⟨r,hr⟩ := List.head?_eq_some_iff.mp hrev
  have hlead : leading (run.reverse ++ pre.reverse) = run.reverse := by
    rw [hr,List.cons_append,leading,← List.cons_append,← hr,h.same b (List.mem_of_getLast? hb)]
    rw [List.takeWhile_append_of_pos fun c hc => by simpa using h.same c (List.mem_reverse.mp hc)]
    have hpre : pre.reverse.takeWhile (fun c => decide (c.dbType = type)) = [] := by
      cases hp : pre.reverse with
      | nil => rfl
      | cons c t =>
        have hc : pre.getLast? = some c := by rw [← List.head?_reverse,hp]; rfl
        exact List.takeWhile_cons_of_neg (by simpa using h.border c hc)
    rw [hpre,List.append_nil]
  unfold Adjmsg.trailing
  rw [List.reverse_append,hlead,List.reverse_reverse]

theorem tmsgsize_eq (hl : l ≠ []) : (tmsgsize l).2.1 = trailing l ∧ (tmsgsize l).1 ++ trailing l = l ∧
    (tmsgsize l).2.2 = int (bytes (trailing l)).length := by
  cases l with
  | nil => exact absurd rfl hl
  | cons b l =>
    have hn : Scanned [] [b] b.dbType (addSize 0 b) := by
      refine ⟨by simp,fun c hc => ?_,nofun,?_⟩
      · rw [List.mem_singleton.mp hc]
      · rw [addSize_eq int_zero]
        simp
    obtain ⟨t,ht,he⟩ := tmsgLoop_scanned (l := l) hn
    have hloop : tmsgsize (b :: l) = tmsgLoop [] [b] b.dbType (addSize 0 b) l := by
      simp [tmsgsize,tmsgLoop]
    have hrun := ht.trailing
    rw [he] at hrun
    rw [hloop]
    exact ⟨hrun.symm,hrun ▸ he,hrun ▸ ht.count⟩

theorem sameBuf_refl (l : List Mblk) : List.Forall₂ SameBuf l l := List.forall₂_same.mpr fun _ _ => ⟨rfl,rfl⟩

/- What both loops do to the blocks; a block of which nothing is removed stays as it is. -/
theorem frontLoop_spec (hn : n ≤ (bytes l).length) (hl : l ≠ []) :
    ∃ r, frontLoop n l = some r ∧ bytes r = (bytes l).drop n ∧ List.Forall₂ SameBuf l r ∧
      ∀ pre b post, l = pre ++ b :: post → n ≤ (bytes pre).length → r[pre.length]? = some b := by
  induction l generalizing n with
  | nil => exact absurd rfl hl
  | cons b l ih =>
    rw [bytes_cons,List.length_append,Mblk.bytes_length] at hn
    have hrest : ∀ (c : Mblk) (r : List Mblk) (m : ℕ), (m = 0 → c = b) →
        (∀ pre b' post, l = pre ++ b' :: post → m - b.nbytes ≤ (bytes pre).length → r[pre.length]? = some b') →
        ∀ pre b' post, b :: l = pre ++ b' :: post → m ≤ (bytes pre).length → (c :: r)[pre.length]? = some b' := by
      intro c r m hc hr pre b' post he hm
      cases pre with
      | nil =>
        obtain ⟨rfl,-⟩ := List.cons.inj he
        exact congrArg some (hc (Nat.eq_zero_of_le_zero hm))
      | cons x pre =>
        obtain ⟨hx,hl⟩ := List.cons.inj he
        subst hx
        rw [bytes_cons,List.length_append,Mblk.bytes_length] at hm
        exact hr pre b' post hl (by omega)
    have hkeep : ∀ pre b' post, l = pre ++ b' :: post → n - b.nbytes ≤ (bytes pre).length → l[pre.length]? = some b' := by
      rintro pre b' post rfl -
      simp
    unfold frontLoop
    split_ifs with hlt hz
    · refine ⟨_,rfl,?_,.cons ⟨rfl,rfl⟩ (sameBuf_refl l),?_⟩
      · rw [bytes_cons,bytes_cons,Mblk.advance_bytes]
        exact (List.drop_append_of_le_length (by rw [Mblk.bytes_length]; exact hlt.le)).symm
      · exact hrest _ _ _ (fun h => Mblk.advance_zero _ h) hkeep
    · refine ⟨_,rfl,?_,.cons ⟨rfl,rfl⟩ (sameBuf_refl l),?_⟩
      · have he : n = b.bytes.length := by rw [Mblk.bytes_length]; omega
        rw [bytes_cons,bytes_cons,Mblk.advance_bytes,Mblk.drop_all,he,List.drop_left]
        rfl
      · exact hrest _ _ _ (fun h => Mblk.advance_zero _ (by omega)) hkeep
    · obtain ⟨r,hr,hb,hs,ho⟩ := ih (n := n - b.nbytes) (by omega) (by rintro rfl; simp at hn; omega)
      rw [hr]
      refine ⟨_,rfl,?_,.cons ⟨rfl,rfl⟩ hs,?_⟩
      · have hdrop : b.bytes.drop n = [] := List.drop_eq_nil_of_le (by rw [Mblk.bytes_length]; omega)
        rw [bytes_cons,bytes_cons,Mblk.advance_bytes,Mblk.drop_all,hb,List.drop_append,hdrop,Mblk.bytes_length]
      · exact hrest _ _ _ (fun h => by omega) ho

theorem tailLoop_spec (k : ℤ) (l : List Mblk) : bytes (tailLoop k l) = (bytes l).take k.toNat ∧
    List.Forall₂ SameBuf l (tailLoop k l) ∧ ∀ pre b post, l = pre ++ b :: post →
      ((bytes (pre ++ [b])).length : ℤ) ≤ k → (tailLoop k l)[pre.length]? = some b := by
  induction l generalizing k with
  | nil => exact ⟨by simp [tailLoop],.nil,fun pre b post h => by simp at h⟩
  | cons b l ih =>
    have hrest : ∀ (c : Mblk) (j : ℤ), ((b.nbytes : ℤ) ≤ k → c = b) → (b.nbytes : ℤ) + j ≥ k →
        ∀ pre b' post, b :: l = pre ++ b' :: post → ((bytes (pre ++ [b'])).length : ℤ) ≤ k →
          (c :: tailLoop j l)[pre.length]? = some b' := by
      intro c j hc hj pre b' post he hk
      cases pre with
      | nil =>
        obtain ⟨rfl,-⟩ := List.cons.inj he
        refine congrArg some (hc ?_)
        simpa [Mblk.bytes_length] using hk
      | cons x pre =>
        obtain ⟨hx,hl⟩ := List.cons.inj he
        subst hx
        rw [List.cons_append,bytes_cons,List.length_append,Mblk.bytes_length] at hk
        exact (ih j).2.2 pre b' post hl (by omega)
    unfold tailLoop
    split_ifs with hk hn hlt
    · obtain ⟨hb,hs,-⟩ := ih k
      refine ⟨?_,.cons ⟨rfl,rfl⟩ hs,hrest _ _ (fun h => Mblk.advance_zero _ (by omega)) (by omega)⟩
      rw [bytes_cons,Mblk.advance_bytes,Mblk.drop_all,hb,Int.toNat_of_nonpos hk]
      rfl
    · obtain ⟨hb,hs,-⟩ := ih (k - b.nbytes)
      refine ⟨?_,.cons ⟨rfl,rfl⟩ hs,hrest _ _ (fun h => by omega) (by omega)⟩
      have hz : (k - b.nbytes).toNat = 0 := by omega
      rw [bytes_cons,bytes_cons,Mblk.shorten_bytes,hb,hz,List.take_zero,List.append_nil]
      exact (List.take_append_of_le_length (by rw [Mblk.bytes_length]; exact hlt.le)).symm
    · obtain ⟨hb,hs,-⟩ := ih (k - b.nbytes)
      refine ⟨?_,.cons ⟨rfl,rfl⟩ hs,hrest _ _ (fun _ => rfl) (by omega)⟩
      have hz : (k - b.nbytes).toNat = k.toNat - b.bytes.length := by rw [Mblk.bytes_length]; omega
      have htake : b.bytes.take k.toNat = b.bytes := List.take_of_length_le (by rw [Mblk.bytes_length]; omega)
      rw [bytes_cons,bytes_cons,hb,hz,List.take_append,htake]
    · obtain ⟨hb,hs,-⟩ := ih k
      refine ⟨?_,.cons ⟨rfl,rfl⟩ hs,hrest _ _ (fun _ => rfl) (by omega)⟩
      have hnil : b.bytes = [] := List.eq_nil_of_length_eq_zero (by rw [Mblk.bytes_length]; omega)
      rw [bytes_cons,bytes_cons,hb,hnil]
      rfl

theorem trimmed_refused : Trimmed l length 0 l ↔ avail l length < length.natAbs := by
  constructor
  · intro h
    exact lt_of_not_ge fun hle => absurd (h.answer.mpr hle) (by decide)
  · intro h
    have hno : ¬ (0 : ℕ) = 1 := by decide
    refine ⟨⟨fun h0 => absurd h0 hno,fun hle => absurd hle (not_le.mpr h)⟩,fun h0 => absurd h0 hno,
      fun h0 => absurd h0 hno,sameBuf_refl l,?_,fun _ => rfl⟩
    rintro pre b post rfl -
    simp

theorem leading_le (l : List Mblk) : (bytes (leading l)).length ≤ (bytes l).length := by
  cases l with
  | nil => exact le_rfl
  | cons b l =>
    have h := congrArg (fun x => (bytes x).length) (List.takeWhile_append_dropWhile
      (p := fun c : Mblk => decide (c.dbType = b.dbType)) (l := b :: l))
    simp only [bytes_append,List.length_append] at h
    exact (Nat.le_add_right ..).trans h.le

theorem front_iff (hl : l ≠ []) (h0 : 0 ≤ length) (hmax : length < 2 ^ 31) :
    (∃ rtn r, lisAdjmsg l length = some (rtn,r) ∧ Trimmed l length rtn r) ↔ Counts l length := by
  have hcount : lisXmsgsize l = int (avail l length) := by rw [lisXmsgsize_eq,avail,if_pos h0]
  have hle : avail l length ≤ (bytes l).length := by
    rw [avail,if_pos h0]
    exact leading_le l
  unfold lisAdjmsg Counts
  rw [if_neg hl,if_pos h0,if_pos h0,hcount]
  split_ifs with hlt
  · -- refused: the count is right, or is too small
    have hsmall : (avail l length : ℤ) < 2 ^ 31 → int (avail l length) = avail l length :=
      fun h => int_of_lt (by omega) h
    constructor
    · rintro ⟨rtn,r,he,ht⟩
      obtain ⟨rfl,rfl⟩ := Prod.mk.inj (Option.some.inj he)
      have := trimmed_refused.mp ht
      exact Or.inl (by omega)
    · rintro (h | h)
      · refine ⟨0,l,rfl,trimmed_refused.mpr ?_⟩
        have := hsmall (by omega)
        omega
      · omega
  · have hall := int_le (k := avail l length) (by omega)
    obtain ⟨r,hr,hb,hs,ho⟩ := frontLoop_spec (n := length.toNat) (l := l) (by omega) hl
    rw [hr]
    refine ⟨fun _ => Or.inr (not_lt.mp hlt),fun _ => ⟨1,r,rfl,?_⟩⟩
    refine ⟨⟨fun _ => by omega,fun _ => rfl⟩,fun _ _ => hb,fun _ hn => by omega,hs,?_,fun hn => absurd rfl hn⟩
    intro pre b post he hn
    rw [if_pos h0] at hn
    exact ho pre b post he (by omega)

theorem tail_iff (hl : l ≠ []) (h0 : length < 0) (hmin : -2 ^ 31 ≤ length) :
    (∃ rtn r, lisAdjmsg l length = some (rtn,r) ∧ Trimmed l length rtn r) ↔ Counts l length := by
  have hneg : ¬ 0 ≤ length := not_le.mpr h0
  obtain ⟨hrun,hsplit,hcount⟩ := tmsgsize_eq hl
  have havail : avail l length = (bytes (trailing l)).length := by rw [avail,if_neg hneg]
  have hrange := int_range (k := length + avail l length)
  have hsmall : length + avail l length < 2 ^ 31 → int (length + avail l length) = length + avail l length :=
    fun h => int_of_lt (by omega) h
  unfold lisAdjmsg Counts
  simp only [if_neg hl,if_neg hneg,hrun,hcount,int_add_right,← havail]
  split_ifs with hlt
  · constructor
    · rintro ⟨rtn,r,he,ht⟩
      obtain ⟨rfl,rfl⟩ := Prod.mk.inj (Option.some.inj he)
      have := trimmed_refused.mp ht
      omega
    · intro h
      refine ⟨0,l,rfl,trimmed_refused.mpr ?_⟩
      have := hsmall h
      omega
  · obtain ⟨hb,hs,ho⟩ := tailLoop_spec (int (length + avail l length)) (trailing l)
    have hlen : (bytes l).length = (bytes (tmsgsize l).1).length + avail l length := by
      rw [havail,← List.length_append,← bytes_append,hsplit]
    constructor
    · rintro ⟨rtn,r,he,ht⟩
      obtain ⟨rfl,rfl⟩ := Prod.mk.inj (Option.some.inj he)
      have hans := ht.answer.mp rfl
      have htail := congrArg List.length (ht.tail rfl h0)
      rw [bytes_append,hb,List.length_append,List.length_take,List.length_take,← havail] at htail
      omega
    · intro h
      have hk := hsmall h
      rw [hk] at hb hs ho hlt ⊢
      refine ⟨1,_,rfl,⟨⟨fun _ => by omega,fun _ => rfl⟩,fun _ h => absurd h hneg,fun _ _ => ?_,?_,?_,
        fun hn => absurd rfl hn⟩⟩
      · have hcut : (bytes l).length - length.natAbs =
            (bytes (tmsgsize l).1).length + (length + avail l length).toNat := by omega
        have hbytes : bytes l = bytes (tmsgsize l).1 ++ bytes (trailing l) := by rw [← bytes_append,hsplit]
        rw [hcut,hbytes,List.take_length_add_append,bytes_append,hb]
      · have happ := List.rel_append (R := SameBuf) (sameBuf_refl (tmsgsize l).1) hs
        exact (congrArg (List.Forall₂ SameBuf · _) hsplit).mp happ
      · intro pre b post he hn
        rw [if_neg hneg] at hn
        have hlast : ∀ pre', trailing l = pre' ++ b :: post → pre = (tmsgsize l).1 ++ pre' →
            ((tmsgsize l).1 ++ tailLoop (length + avail l length) (trailing l))[pre.length]? = some b := by
          intro pre' hr hp
          have hav : avail l length = (bytes (pre' ++ [b])).length + (bytes post).length := by
            rw [havail,hr]
            simp [add_assoc]
          rw [hp,List.length_append,List.getElem?_append_right (by omega),Nat.add_sub_cancel_left]
          exact ho pre' b post hr (by omega)
        rcases List.append_eq_append_iff.mp (hsplit.trans he) with ⟨a,hp,hr⟩ | ⟨c,hp,hr⟩
        · exact hlast a hr hp
        · cases c with
          | nil => exact hlast [] hr.symm (by simpa using hp.symm)
          | cons x c =>
            obtain ⟨rfl,-⟩ := List.cons.inj hr
            rw [List.getElem?_append_left (by rw [hp]; simp),hp]
            simp

/-- For every chain of blocks and every `int`: the bytes asked for are trimmed, or nothing happens where there are
not enough, exactly when the count of the bytes fits an `int` or suffices in spite of that. -/
theorem adjmsg_trims (mp : Mblk) (rest : List Mblk) (length : Int32) :
    (∃ rtn r, lisAdjmsg (mp :: rest) length.toInt = some (rtn,r) ∧ Trimmed (mp :: rest) length.toInt rtn r) ↔
      Counts (mp :: rest) length.toInt := by
  by_cases h0 : 0 ≤ length.toInt
  · exact front_iff (List.cons_ne_nil mp rest) h0 length.toInt_lt
  · exact tail_iff (List.cons_ne_nil mp rest) (not_le.mp h0) length.le_toInt

/- A block of 64 kilobytes; 2 ^ 15 of them are more than an `int` counts. -/
def large : Mblk :=
  ⟨M_DATA,List.replicate (2 ^ 16) 0,0,2 ^ 16,Nat.zero_le _,List.length_replicate.ge,by rw [List.length_replicate]; decide⟩

theorem large_avail (n : ℕ) : avail (large :: List.replicate n large) 1 = (n + 1) * 2 ^ 16 := by
  have hlead : leading (large :: List.replicate n large) = List.replicate (n + 1) large := by
    rw [leading,← List.replicate_succ,List.takeWhile_replicate]
    simp
  have hbytes : ∀ m, (bytes (List.replicate m large)).length = m * 2 ^ 16 := by
    intro m
    induction m with
    | zero => rfl
    | succ m ih =>
      have hl : large.nbytes = 2 ^ 16 := rfl
      rw [List.replicate_succ,bytes_cons,List.length_append,Mblk.bytes_length,ih,hl]
      omega
  rw [avail,if_pos (by decide),hlead,hbytes]

/- One byte is to be trimmed from 2 GB of data. -/
theorem count_lost : ¬ ∀ (mp : Mblk) (rest : List Mblk) (length : Int32),
    ∃ rtn r, lisAdjmsg (mp :: rest) length.toInt = some (rtn,r) ∧ Trimmed (mp :: rest) length.toInt rtn r := by
  intro h
  have hone : (1 : Int32).toInt = 1 := by decide
  have hc := (front_iff (List.cons_ne_nil large (List.replicate 32767 large)) (by decide) (by decide)).mp
    (hone ▸ h large (List.replicate 32767 large) 1)
  rw [Counts,if_pos (by decide),large_avail] at hc
  revert hc
  decide

end CSLiS.Adjmsg
