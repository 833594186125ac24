import CSLiS.Head.Getpmsg
import CSLiS.Head.ReadOrder

/-!
# A message is got in parts, and whole (head/head.c)

Every call takes bytes from the front of the two parts by moving read pointers. What is left is put
back in front of the queue, as its type and band are those of the message.
-/

namespace CSLiS.Head
open Queue

variable {isCtl : Bool} {fault : Ucopy → Bool} {n : ℕ} {rtnlen maxlen : ℤ} {mlen : Option ℕ} {m : ℕ} {t : Uchar}
  {k bs rest ctl dat ctl' dat' : List Mblk} {b b' : Mblk} {mp mp' : Mesg} {l l' : List Mesg} {hd hd' : Rdq}
  {c : Call} {cs : List Call} {as : List Answer} {a : Answer}

/-! ### Blocks with their read pointers moved -/

/- Only the read pointer has moved, and not beyond the write pointer. -/
structure Trim (b b' : Mblk) : Prop where
  bBand : b'.bBand = b.bBand
  dbType : b'.dbType = b.dbType
  buf : b'.buf = b.buf
  bWptr : b'.bWptr = b.bWptr
  moved : b.bRptr ≤ b'.bRptr
  upright : b'.bRptr ≤ b'.bWptr

theorem Trim.self (h : b.bRptr ≤ b.bWptr) : Trim b b := ⟨rfl,rfl,rfl,rfl,le_rfl,h⟩

theorem Trim.trans {b1 b2 b3 : Mblk} (h : Trim b1 b2) (h' : Trim b2 b3) : Trim b1 b3 :=
  ⟨h'.bBand.trans h.bBand,h'.dbType.trans h.dbType,h'.buf.trans h.buf,h'.bWptr.trans h.bWptr,h.moved.trans h'.moved,h'.upright⟩

theorem Trim.skip (h : (n : ℤ) ≤ b.lisMblksize) : Trim b (b.skip n) := by
  refine ⟨rfl,rfl,rfl,rfl,Nat.le_add_right _ _,?_⟩
  simp only [Mblk.lisMblksize,Mblk.skip] at h ⊢
  omega

theorem trim_self (h : ∀ b ∈ bs, b.bRptr ≤ b.bWptr) : List.Forall₂ Trim bs bs :=
  List.forall₂_same.mpr fun b hb => Trim.self (h b hb)

theorem trim_trans {l1 l2 l3 : List Mblk} (h : List.Forall₂ Trim l1 l2) (h' : List.Forall₂ Trim l2 l3) :
    List.Forall₂ Trim l1 l3 := by
  induction h generalizing l3 with
  | nil => exact h'
  | cons hb _ ih =>
    cases h' with
    | cons hb' h' => exact .cons (hb.trans hb') (ih h')

theorem trim_dbType (h : List.Forall₂ Trim bs rest) (ht : ∀ b ∈ bs, b.dbType = t) : ∀ b ∈ rest, b.dbType = t := by
  induction h with
  | nil => exact fun b hb => absurd hb List.not_mem_nil
  | cons hb _ ih =>
    intro b hm
    rcases List.mem_cons.mp hm with rfl | hm
    · exact hb.dbType.trans (ht _ (List.mem_cons_self ..))
    · exact ih (fun c hc => ht c (List.mem_cons_of_mem _ hc)) b hm

theorem trim_upright (h : List.Forall₂ Trim bs rest) : ∀ b ∈ rest, b.bRptr ≤ b.bWptr := by
  induction h with
  | nil => exact fun b hb => absurd hb List.not_mem_nil
  | cons hb _ ih =>
    intro b hm
    rcases List.mem_cons.mp hm with rfl | hm
    · exact hb.upright
    · exact ih b hm

/-! ### Sizes -/

theorem size_nonneg (h : b.bRptr ≤ b.bWptr) : 0 ≤ b.lisMblksize := by
  rw [Mblk.lisMblksize]
  omega

/- The blocks of one type at the front. -/
theorem lisXmsgsize_run (hb : ∀ x ∈ b :: bs, x.dbType = b.dbType) (hr : ∀ x ∈ rest, x.dbType ≠ b.dbType) :
    lisXmsgsize (b :: bs ++ rest) = (blockBytes (b :: bs)).length := by
  have hrun : ((b :: bs ++ rest).takeWhile fun x => decide (x.dbType = b.dbType)) = b :: bs := by
    have hrest : (rest.takeWhile fun x => decide (x.dbType = b.dbType)) = [] := by
      cases rest with
      | nil => rfl
      | cons x rest => simp [hr x (List.mem_cons_self ..)]
    rw [List.takeWhile_append_of_pos fun x hx => decide_eq_true (hb x hx),hrest,List.append_nil]
  rw [List.cons_append] at hrun ⊢
  rw [lisXmsgsize,hrun,blockBytes,List.length_flatMap]
  exact congrArg List.sum (List.map_congr_left fun x _ => x.data_length.symm)

/- A chunk of the first block moves only its read pointer. -/
theorem lisAdjmsg_block (h0 : 0 ≤ (n : ℤ)) (h : (n : ℤ) ≤ b.lisMblksize) :
    lisAdjmsg (b :: bs) n = b.skip n :: bs := by
  have hsize : n ≤ lisXmsgsize (b :: bs) := by
    simp only [lisXmsgsize,List.takeWhile_cons,decide_true,if_true,List.map_cons,List.sum_cons]
    omega
  rw [lisAdjmsg,if_pos h0,if_neg (by omega),Int.toNat_natCast,adjFront]
  split_ifs with h1 h2
  · rfl
  · simp [show b.lisMblksize.toNat = n by omega]
  · omega

/-! ### A part -/

/- What the loop does to the blocks `bs` of its part, in front of `rest`. -/
structure Walked (bs rest : List Mblk) (rtnlen : ℤ) (m : ℕ) (r : Part) : Prop where
  err : r.err = false
  mlen : r.mlen = some m
  rtnlen : r.rtnlen = rtnlen + r.bytes.length
  left : ∃ bs', r.left = bs' ++ rest ∧ List.Forall₂ Trim bs bs' ∧ r.bytes ++ blockBytes bs' = blockBytes bs

/- The end of the part: the loop stops, or there are no more blocks. -/
theorem copyoutLoop_end (hrest : ∀ b ∈ rest, ofPart isCtl b = false) (hend : isCtl = false → rest = []) :
    copyoutLoop isCtl fault n rtnlen maxlen (some m) rest = ⟨[],rest,rtnlen,some m,false⟩ := by
  cases n with
  | zero => rfl
  | succ n =>
    cases rest with
    | nil => rfl
    | cons b rest =>
      have hctl : isCtl = true := by
        by_contra h
        exact absurd (hend (by simpa using h)) (List.cons_ne_nil _ _)
      have hb := hrest b (List.mem_cons_self ..)
      rw [hctl] at hb ⊢
      simp [copyoutLoop,hb]

theorem copyoutLoop_run (hf : ∀ u, fault u = false) (hbs : ∀ b ∈ bs, ofPart isCtl b = true ∧ b.bRptr ≤ b.bWptr)
    (hrest : ∀ b ∈ rest, ofPart isCtl b = false) (hend : isCtl = false → rest = []) (hn : bs.length ≤ n) :
    Walked bs rest rtnlen m (copyoutLoop isCtl fault n rtnlen maxlen (some m) (bs ++ rest)) := by
  induction bs generalizing n rtnlen maxlen with
  | nil =>
    rw [List.nil_append,copyoutLoop_end hrest hend]
    exact ⟨rfl,rfl,by simp,⟨[],rfl,.nil,rfl⟩⟩
  | cons b bs ih =>
    obtain ⟨n,rfl⟩ : ∃ n', n = n' + 1 := ⟨n - 1,by rw [List.length_cons] at hn; omega⟩
    obtain ⟨hb,hup⟩ := hbs b (List.mem_cons_self ..)
    have hmore : ∀ c ∈ bs, ofPart isCtl c = true ∧ c.bRptr ≤ c.bWptr := fun c hc => hbs c (List.mem_cons_of_mem _ hc)
    have htrim := trim_self fun c hc => (hmore c hc).2
    have hsize := size_nonneg hup
    have hlen := b.data_length
    rw [List.cons_append]
    simp only [copyoutLoop,hb,if_true,Option.getD_some,hf,Bool.false_eq_true,and_false,if_false]
    split_ifs with h1 h2
    · -- no buffer
      exact ⟨rfl,rfl,by simp,⟨b :: bs,rfl,.cons (.self hup) htrim,rfl⟩⟩
    all_goals
      obtain ⟨chunk,hchunk⟩ : ∃ chunk : ℕ, min maxlen b.lisMblksize = chunk := Int.eq_ofNat_of_zero_le (by omega)
      rw [hchunk] at h2 ⊢
      have hadj : lisAdjmsg (b :: (bs ++ rest)) chunk = b.skip chunk :: (bs ++ rest) :=
        lisAdjmsg_block (by omega) (by omega)
      have htake : (b.data.take chunk).length = chunk := by
        rw [List.length_take]
        omega
      simp only [hadj,Int.toNat_natCast]
    · -- the buffer is full
      refine ⟨rfl,rfl,by rw [htake],⟨b.skip chunk :: bs,rfl,.cons (Trim.skip (by omega)) htrim,?_⟩⟩
      simp only [blockBytes,List.flatMap_cons]
      rw [← List.append_assoc,b.take_skip]
    · have hi : Walked bs rest (rtnlen + chunk) m (copyoutLoop isCtl fault n (rtnlen + chunk) (maxlen - chunk) (some m)
          (bs ++ rest)) := ih hmore (Nat.le_of_succ_le_succ hn)
      obtain ⟨bs',hl,ht,hbytes⟩ := hi.left
      have hall : b.data.take chunk = b.data := List.take_of_length_le (by omega)
      simp only [List.tail_cons,List.take_succ_cons,List.take_zero,hall]
      refine ⟨hi.err,hi.mlen,?_,⟨b.skip chunk :: bs',?_,.cons (Trim.skip (by omega)) ht,?_⟩⟩
      · simp only [hi.rtnlen,List.length_append]
        push_cast
        omega
      · rw [hl]
        rfl
      · simp only [blockBytes,List.flatMap_cons,b.data_skip] at hbytes ⊢
        rw [List.drop_of_length_le (by omega),List.nil_append,List.append_assoc,hbytes]

/- The blocks before the part are passed. -/
theorem copyoutLoop_skip (hk : ∀ b ∈ k, ofPart isCtl b = false) :
    copyoutLoop isCtl fault (k.length + n) rtnlen maxlen none (k ++ bs) =
      { copyoutLoop isCtl fault n rtnlen maxlen none bs with
        left := k ++ (copyoutLoop isCtl fault n rtnlen maxlen none bs).left } := by
  induction k with
  | nil => simp
  | cons b k ih =>
    have hb := hk b (List.mem_cons_self ..)
    have hih := ih fun c hc => hk c (List.mem_cons_of_mem _ hc)
    rw [List.length_cons,Nat.add_right_comm,List.cons_append]
    simp only [copyoutLoop,hb,Bool.false_eq_true,if_false,Option.isSome_none,and_false,hih,List.cons_append]

/- The size of the part is set at its first block. -/
theorem copyoutLoop_first (hb : ofPart isCtl b = true) : copyoutLoop isCtl fault (n + 1) rtnlen maxlen none (b :: bs) =
    copyoutLoop isCtl fault (n + 1) rtnlen maxlen (some (lisXmsgsize (b :: bs))) (b :: bs) := by
  simp only [copyoutLoop,hb,if_true,Option.getD_none,Option.getD_some]

/- What `copyout_msgpart` does. -/
structure CopiedPart (k bs rest : List Mblk) (r : Part) : Prop where
  err : r.err = false
  more : r.more = true ↔ r.bytes.length < (blockBytes bs).length
  left : ∃ bs', r.left = k ++ (bs' ++ rest) ∧ List.Forall₂ Trim bs bs' ∧ r.bytes ++ blockBytes bs' = blockBytes bs

theorem copyoutMsgpart_ok {sb : Option ℤ} (hf : ∀ u, fault u = false) (hk : ∀ b ∈ k, ofPart isCtl b = false)
    (hbs : ∀ b ∈ bs, ofPart isCtl b = true ∧ b.bRptr ≤ b.bWptr) (htype : ∀ b ∈ bs, b.dbType = t)
    (hrest : ∀ b ∈ rest, ofPart isCtl b = false ∧ b.dbType ≠ t) (hend : isCtl = false → rest = []) :
    CopiedPart k bs rest (copyoutMsgpart isCtl fault sb (k ++ (bs ++ rest))) := by
  have hloop : CopiedPart k bs rest (copyoutLoop isCtl fault (k ++ (bs ++ rest)).length 0 (sb.getD (-1)) none
      (k ++ (bs ++ rest))) := by
    rw [List.length_append,copyoutLoop_skip hk]
    cases bs with
    | nil =>
      -- there is no such part
      have hpass := @copyoutLoop_skip isCtl fault 0 0 (sb.getD (-1)) rest []
        fun b hb => (hrest b hb).1
      rw [List.append_nil,Nat.add_zero] at hpass
      rw [List.nil_append,hpass]
      exact ⟨rfl,by simp [Part.more,copyoutLoop,blockBytes],⟨[],by simp [copyoutLoop],.nil,rfl⟩⟩
    | cons b bs =>
      have hb := htype b (List.mem_cons_self ..)
      have hsize : lisXmsgsize (b :: (bs ++ rest)) = (blockBytes (b :: bs)).length :=
        lisXmsgsize_run (fun x hx => (htype x hx).trans hb.symm) fun x hx => hb ▸ (hrest x hx).2
      have hrun := @copyoutLoop_run isCtl fault ((b :: bs) ++ rest).length 0 (sb.getD (-1)) (blockBytes (b :: bs)).length
        (b :: bs) rest hf hbs (fun b hb => (hrest b hb).1) hend
        (by rw [List.length_append]; exact Nat.le_add_right _ _)
      rw [← hsize] at hrun
      rw [List.cons_append,List.length_cons] at hrun ⊢
      rw [copyoutLoop_first (hbs b (List.mem_cons_self ..)).1]
      obtain ⟨bs',hl,ht,hbytes⟩ := hrun.left
      refine ⟨hrun.err,?_,⟨bs',by rw [hl],ht,hbytes⟩⟩
      simp only [Part.more,hrun.rtnlen,hrun.mlen,Option.getD_some,Option.isSome_some,Bool.and_true,decide_eq_true_iff]
      rw [zero_add,Nat.cast_lt,hsize]
  unfold copyoutMsgpart
  simp only [hf,Bool.false_eq_true,and_false,if_false,hloop.err,Bool.and_false]
  exact ⟨rfl,hloop.more,hloop.left⟩

/-! ### One call -/

/- A control part of one type, then a data part, and no pointers that have crossed. -/
structure Shape (mp : Mesg) (t : Uchar) (ctl dat : List Mblk) : Prop where
  blocks : mp.blocks = ctl ++ dat
  ctl : ∀ b ∈ ctl, b.dbType = t
  dat : ∀ b ∈ dat, b.dbType = M_DATA
  upright : ∀ b ∈ mp.blocks, b.bRptr ≤ b.bWptr

/- The types that `lis_strgetpmsg` takes for a control part. -/
def CtlType (t : Uchar) : Prop := t = M_PROTO ∨ t = M_PCPROTO

/- A message of which bytes have been taken: the same blocks with their read pointers moved, and the
band of a M_PCPROTO may have been cleared. -/
structure Mesg.Left (mp mp' : Mesg) : Prop where
  blk : Trim mp.blk { mp'.blk with bBand := mp.blk.bBand }
  bCont : List.Forall₂ Trim mp.bCont mp'.bCont
  band : lisHipri mp.dbType = false → mp'.blk.bBand = mp.blk.bBand

theorem Mesg.Left.dbType (h : mp.Left mp') : mp'.dbType = mp.dbType := h.blk.dbType

theorem Mesg.Left.trans {mp1 mp2 mp3 : Mesg} (h : mp1.Left mp2) (h' : mp2.Left mp3) : mp1.Left mp3 :=
  ⟨⟨rfl,h'.blk.dbType.trans h.blk.dbType,h'.blk.buf.trans h.blk.buf,h'.blk.bWptr.trans h.blk.bWptr,
    h.blk.moved.trans h'.blk.moved,h'.blk.upright⟩,trim_trans h.bCont h'.bCont,
    fun hh => (h'.band (by rw [h.dbType,hh])).trans (h.band hh)⟩

theorem Mesg.Left.of_trim (h : List.Forall₂ Trim mp.blocks mp'.blocks) : mp.Left mp' := by
  cases h with
  | cons hb hc => exact ⟨⟨rfl,hb.dbType,hb.buf,hb.bWptr,hb.moved,hb.upright⟩,hc,fun _ => hb.bBand⟩

theorem Shape.dbType (h : Shape mp t ctl dat) : mp.dbType = t ∨ mp.dbType = M_DATA := by
  have hmem : mp.blk ∈ ctl ++ dat := h.blocks ▸ List.mem_cons_self ..
  exact (List.mem_append.mp hmem).imp (h.ctl _) (h.dat _)

theorem CtlType.ne_data (ht : CtlType t) : t ≠ M_DATA := by
  rcases ht with rfl | rfl <;> decide

theorem Shape.readable (h : Shape mp t ctl dat) (ht : CtlType t) :
    mp.dbType = M_DATA ∨ mp.dbType = M_PROTO ∨ mp.dbType = M_PCPROTO := by
  rcases h.dbType with hd | hd
  · exact .inr (hd ▸ ht)
  · exact .inl hd

theorem selects_left (h : mp.Left mp') : c.selects mp' = c.selects mp := by
  unfold Call.selects
  rw [h.dbType]
  cases hh : lisHipri mp.dbType with
  | true => rfl
  | false => rw [h.band hh]

theorem checkMSig_suffix : hd.lisCheckMSig.msgs <:+ hd.msgs := by
  rcases hd.checkMSig_cases with he | ⟨x,l,hl,-,he⟩
  · rw [he]
  · rw [he,hl]
    exact List.suffix_cons ..

theorem checkMSig_top (hl : hd.msgs = mp :: l) (h : mp.dbType ≠ M_SIG) : hd.lisCheckMSig = hd := by
  unfold Rdq.lisCheckMSig
  simp only [hl]
  rw [if_neg h]

theorem rank_left (h : mp.Left mp') : mp'.info.rank = mp.info.rank := by
  have ht : mp'.info.hipri = mp.info.hipri := congrArg lisHipri h.dbType
  cases hh : mp.info.hipri with
  | true => rw [rank_hipri hh,rank_hipri (ht.trans hh)]
  | false => rw [rank_ordinary hh,rank_ordinary (ht.trans hh)]; exact congrArg Fin.val (h.band hh)

/- What is left is put back in front. A M_PCPROTO that is behind it is deleted. -/
theorem requeue_left (h : mp.Left mp') (ho : Ordered Mesg.info (mp :: l)) (hl : hd.msgs = l) :
    ∃ x l', (hd.lisRequeue mp').msgs = x :: l' ∧ (x = mp' ∨ x = mp'.cleared) ∧ l' <:+ l := by
  have hrank : ∀ y ∈ l, y.info.rank ≤ mp'.info.rank := fun y hy =>
    (rank_left h).symm ▸ (List.pairwise_cons.mp ho).1 y hy
  have hput : ∀ k, k <:+ l → ∃ x, Rdq.lisPutbq k mp' = x :: k ∧ (x = mp' ∨ x = mp'.cleared) := by
    intro k hk
    refine ⟨_,Rdq.lisPutbq_top fun y hy => hrank y (hk.subset hy),?_⟩
    split_ifs
    · exact .inl rfl
    · exact .inr rfl
  have hdown : ∃ k, k <:+ l ∧ (hd.lisRequeue mp').msgs = Rdq.lisPutbq k mp' := by
    unfold Rdq.lisRequeue
    split_ifs
    · cases l with
      | nil => exact ⟨[],List.suffix_rfl,by simp only [hl]⟩
      | cons y k =>
        simp only [hl]
        split_ifs
        · exact ⟨k,List.suffix_cons ..,rfl⟩
        · exact ⟨y :: k,List.suffix_rfl,rfl⟩
    · exact ⟨l,List.suffix_rfl,by rw [hl]⟩
  obtain ⟨k,hk,he⟩ := hdown
  obtain ⟨x,hx,hor⟩ := hput k hk
  exact ⟨x,k,he.trans hx,hor,hk⟩

/- Clearing the band of a M_PCPROTO does not matter. -/
theorem Shape.cleared (h : Shape mp t ctl dat) : ∃ ctl', Shape mp.cleared t ctl' dat ∧
    blockBytes ctl' = blockBytes ctl ∧ mp.Left mp.cleared := by
  have hself : mp.Left mp := .of_trim (trim_self h.upright)
  unfold Mesg.cleared
  split_ifs with hh
  · have hblocks := h.blocks
    cases ctl with
    | nil =>
      have hd : mp.dbType = M_DATA := h.dat _ (by rw [← List.nil_append dat,← hblocks]; exact List.mem_cons_self ..)
      rw [hd] at hh
      exact absurd hh (by decide)
    | cons b ctl =>
      obtain ⟨rfl,hcont⟩ := List.cons.inj hblocks
      have hup := h.upright
      refine ⟨{ mp.blk with bBand := 0 } :: ctl,⟨?_,?_,h.dat,?_⟩,rfl,⟨hself.blk,hself.bCont,fun hn => ?_⟩⟩
      · simp only [Mesg.blocks,hcont]
        rfl
      · intro b hb
        rcases List.mem_cons.mp hb with rfl | hb
        · exact h.ctl mp.blk (List.mem_cons_self ..)
        · exact h.ctl b (List.mem_cons_of_mem _ hb)
      · intro b hb
        rcases List.mem_cons.mp hb with rfl | hb
        · exact hup mp.blk (List.mem_cons_self ..)
        · exact hup b (List.mem_cons_of_mem _ hb)
      · rw [hh] at hn
        exact Bool.noConfusion hn
  · exact ⟨ctl,h,rfl,hself⟩

/- What a call returns and leaves of a message. -/
structure Taken (mp : Mesg) (l : List Mesg) (t : Uchar) (ctl dat : List Mblk) (hd : Rdq) (a : Answer) : Prop where
  err : a.err = none
  moreCtl : a.moreCtl = true ↔ a.ctl.length < (blockBytes ctl).length
  moreDat : a.moreDat = true ↔ a.dat.length < (blockBytes dat).length
  parts : ∃ ctl' dat', a.ctl ++ blockBytes ctl' = blockBytes ctl ∧ a.dat ++ blockBytes dat' = blockBytes dat ∧
    (a.moreCtl = true ∨ a.moreDat = true → ∃ mp' l', hd.msgs = mp' :: l' ∧ Shape mp' t ctl' dat' ∧ mp.Left mp' ∧
      l' <:+ l)
  leaves : a.moreCtl = false → a.moreDat = false → hd.msgs <:+ l

/- A message of which blocks have been trimmed is put back with what is left of its parts. -/
theorem requeueLeft_shape (hd : Rdq) (h : Shape mp t ctl dat) (ho : Ordered Mesg.info (mp :: l)) (hl : hd.msgs = l)
    (hc : List.Forall₂ Trim ctl ctl') (hd' : List.Forall₂ Trim dat dat') :
    ∃ x l' ctl'', (hd.requeueLeft (ctl' ++ dat')).msgs = x :: l' ∧ Shape x t ctl'' dat' ∧
      blockBytes ctl'' = blockBytes ctl' ∧ mp.Left x ∧ l' <:+ l := by
  have htrim : List.Forall₂ Trim mp.blocks (ctl' ++ dat') := by
    rw [h.blocks]
    exact List.rel_append hc hd'
  cases hbs : ctl' ++ dat' with
  | nil =>
    rw [hbs] at htrim
    cases htrim
  | cons b bs =>
    have hup := trim_upright htrim
    rw [hbs] at htrim hup
    have hleft : mp.Left ⟨b,bs⟩ := .of_trim htrim
    have hshape : Shape ⟨b,bs⟩ t ctl' dat' := ⟨hbs.symm,trim_dbType hc h.ctl,trim_dbType hd' h.dat,hup⟩
    obtain ⟨x,l',hx,hor,hsub⟩ := requeue_left hleft ho hl
    rcases hor with rfl | rfl
    · exact ⟨_,l',ctl',hx,hshape,rfl,hleft,hsub⟩
    · obtain ⟨ctl'',hs,hbytes,hl'⟩ := hshape.cleared
      exact ⟨_,l',ctl'',hx,hs,hbytes,hleft.trans hl',hsub⟩

theorem getpmsg_taken (h : Shape mp t ctl dat) (ht : CtlType t) (ho : Ordered Mesg.info (mp :: l))
    (hf : ∀ u, c.fault u = false) (hl : hd.msgs = mp :: l) :
    (∃ e, c.selects mp = .error e ∧ lisStrgetpmsg hd c = some (hd,.error e)) ∨
      ∃ flags hd' a, c.selects mp = .ok flags ∧ lisStrgetpmsg hd c = some (hd',a) ∧ Taken mp l t ctl dat hd' a := by
  have htype := h.readable ht
  have hsig : mp.dbType ≠ M_SIG := by rcases htype with h | h | h <;> rw [h] <;> decide
  have hfp : mp.dbType ≠ M_PASSFP := by rcases htype with h | h | h <;> rw [h] <;> decide
  have hin : mp.dbType ∈ [M_DATA,M_PROTO,M_PCPROTO,M_SIG] := by rcases htype with h | h | h <;> rw [h] <;> decide
  unfold lisStrgetpmsg
  simp only [hf,Bool.false_eq_true,if_false,hl,hfp,hin,not_true_eq_false,hsig]
  cases hs : c.selects mp with
  | error e =>
    have hlo : lisHipri mp.dbType = false := by
      cases hh : lisHipri mp.dbType with
      | true => simp [Call.selects,hh] at hs
      | false => rfl
    rw [hlo]
    exact .inl ⟨e,rfl,by simp [checkMSig_top hl hsig]⟩
  | ok flags =>
    -- the parts one after the other
    have hofc : ∀ x : Mblk, x.dbType = t → ofPart true x = true ∧ ofPart false x = false := by
      intro x hx
      simp [ofPart,hx,ht.ne_data]
    have hofd : ∀ x : Mblk, x.dbType = M_DATA → ofPart true x = false ∧ ofPart false x = true := by
      intro x hx
      simp [ofPart,hx]
    have hup := h.upright
    rw [h.blocks] at hup ⊢
    have hctl : CopiedPart [] ctl dat (copyoutMsgpart true c.fault c.ctl ([] ++ (ctl ++ dat))) := by
      refine copyoutMsgpart_ok hf (fun b hb => absurd hb List.not_mem_nil) (fun b hb => ?_) h.ctl (fun b hb => ?_)
        fun hb => Bool.noConfusion hb
      · exact ⟨(hofc b (h.ctl b hb)).1,hup b (List.mem_append_left _ hb)⟩
      · exact ⟨(hofd b (h.dat b hb)).1,fun he => ht.ne_data (he.symm.trans (h.dat b hb))⟩
    rw [List.nil_append] at hctl
    generalize copyoutMsgpart true c.fault c.ctl (ctl ++ dat) = kctl at hctl ⊢
    obtain ⟨ctl',hleft,htrim,hbytes⟩ := hctl.left
    have hdat : CopiedPart ctl' dat [] (copyoutMsgpart false c.fault c.dat (ctl' ++ (dat ++ []))) := by
      refine copyoutMsgpart_ok hf (fun b hb => ?_) (fun b hb => ?_) h.dat (fun b hb => absurd hb List.not_mem_nil)
        fun _ => rfl
      · exact (hofc b (trim_dbType htrim h.ctl b hb)).2
      · exact ⟨(hofd b (h.dat b hb)).2,hup b (List.mem_append_right _ hb)⟩
    rw [List.append_nil] at hdat
    rw [hleft,List.nil_append]
    generalize copyoutMsgpart false c.fault c.dat (ctl' ++ dat) = kdat at hdat ⊢
    obtain ⟨dat',hleft',htrim',hbytes'⟩ := hdat.left
    rw [List.append_nil] at hleft'
    simp only [hctl.err,hdat.err,Bool.false_eq_true,if_false,and_false,or_false,hleft']
    refine .inr ⟨flags,_,_,rfl,rfl,rfl,hctl.more,hdat.more,?_,fun h1 h2 => ?_⟩
    · obtain ⟨x,l',ctl'',hx,hshape,hb,hmp,hsub⟩ := requeueLeft_shape { hd with
          msgs := l, strpri := (if lisHipri mp.dbType then { msgs := mp :: l, strpri := false } else hd).strpri } h ho rfl htrim htrim'
      have hxs : x.dbType ≠ M_SIG := by rw [hmp.dbType]; exact hsig
      refine ⟨ctl'',dat',?_,hbytes',fun hmore => ⟨x,l',?_,hshape,hmp,hsub⟩⟩
      · rw [hb]
        exact hbytes
      · have hor : (kctl.more || kdat.more) = true := by
          rw [Bool.or_eq_true]
          exact hmore
        rw [hor,if_pos rfl,checkMSig_top hx hxs]
        exact hx
    · have hor : (kctl.more || kdat.more) = false := by
        rw [Bool.or_eq_false_iff]
        exact ⟨h1,h2⟩
      rw [hor,if_neg Bool.false_ne_true]
      exact checkMSig_suffix

/-! ### Call after call -/

def ctlOf (as : List Answer) : List Uchar := as.flatMap Answer.ctl
def datOf (as : List Answer) : List Uchar := as.flatMap Answer.dat

/- What is said of a call that answers `a` and leaves `hd`, after others that have answered `as`. -/
structure Reassembled (mp : Mesg) (l : List Mesg) (ctl dat : List Mblk) (as : List Answer) (hd : Rdq) (a : Answer) :
    Prop where
  ctlBytes : ctlOf (as ++ [a]) <+: blockBytes ctl
  datBytes : datOf (as ++ [a]) <+: blockBytes dat
  moreCtl : a.moreCtl = true ↔ (ctlOf (as ++ [a])).length < (blockBytes ctl).length
  moreDat : a.moreDat = true ↔ (datOf (as ++ [a])).length < (blockBytes dat).length
  stays : a.moreCtl = true ∨ a.moreDat = true → ∃ mp' l', hd.msgs = mp' :: l' ∧ mp.Left mp' ∧ l' <:+ l
  leaves : a.moreCtl = false → a.moreDat = false → hd.msgs <:+ l

/- What another call has taken before comes in front. -/
theorem Reassembled.cons {a' : Answer} {ctl0 dat0 : List Mblk} (hc : a'.ctl ++ blockBytes ctl = blockBytes ctl0)
    (hd' : a'.dat ++ blockBytes dat = blockBytes dat0) (hmp : mp.Left mp') (hl : l' <:+ l)
    (h : Reassembled mp' l' ctl dat as hd a) : Reassembled mp l ctl0 dat0 (a' :: as) hd a := by
  have hctl : ctlOf (a' :: as ++ [a]) = a'.ctl ++ ctlOf (as ++ [a]) := rfl
  have hdat : datOf (a' :: as ++ [a]) = a'.dat ++ datOf (as ++ [a]) := rfl
  refine ⟨?_,?_,?_,?_,fun hmore => ?_,fun h1 h2 => (h.leaves h1 h2).trans hl⟩
  · rw [hctl,← hc]
    exact (List.prefix_append_right_inj _).mpr h.ctlBytes
  · rw [hdat,← hd']
    exact (List.prefix_append_right_inj _).mpr h.datBytes
  · rw [h.moreCtl,hctl,← hc,List.length_append,List.length_append]
    omega
  · rw [h.moreDat,hdat,← hd',List.length_append,List.length_append]
    omega
  · obtain ⟨x,k,hx,hxl,hk⟩ := h.stays hmore
    exact ⟨x,k,hx,hmp.trans hxl,hk.trans hl⟩

theorem Taken.reassembled (h : Taken mp l t ctl dat hd a) : Reassembled mp l ctl dat [] hd a := by
  obtain ⟨ctl',dat',hc,hd',hstay⟩ := h.parts
  have hctl : ctlOf ([] ++ [a]) = a.ctl := List.append_nil _
  have hdat : datOf ([] ++ [a]) = a.dat := List.append_nil _
  refine ⟨?_,?_,?_,?_,fun hmore => ?_,h.leaves⟩
  · rw [hctl,← hc]
    exact List.prefix_append ..
  · rw [hdat,← hd']
    exact List.prefix_append ..
  · rw [hctl,h.moreCtl]
  · rw [hdat,h.moreDat]
  · obtain ⟨mp',l',hm,-,hl,hk⟩ := hstay hmore
    exact ⟨mp',l',hm,hl,hk⟩

theorem ordered_left (h : mp.Left mp') (hl : l' <:+ l) (ho : Ordered Mesg.info (mp :: l)) :
    Ordered Mesg.info (mp' :: l') := by
  obtain ⟨h1,h2⟩ := List.pairwise_cons.mp ho
  refine List.pairwise_cons.mpr ⟨fun x hx => ?_,h2.sublist hl.sublist⟩
  rw [rank_left h]
  exact h1 x (hl.subset hx)

/-- A call that comes after others which have left the message there is refused, and leaves all as it
is, or takes bytes and tells what is left. -/
theorem getpmsg_reassembles (h : Shape mp t ctl dat) (ht : CtlType t) (ho : Ordered Mesg.info (mp :: l))
    (hl : hd.msgs = mp :: l) (hf : ∀ c' ∈ c :: cs, ∀ u, c'.fault u = false) (hr : answers hd cs = some (hd',as))
    (hstay : ∀ a ∈ as, a.err ≠ none ∨ a.moreCtl = true ∨ a.moreDat = true) :
    (∃ e, c.selects mp = .error e ∧ lisStrgetpmsg hd' c = some (hd',.error e)) ∨
      ∃ flags last a, c.selects mp = .ok flags ∧ lisStrgetpmsg hd' c = some (last,a) ∧ a.err = none ∧
        Reassembled mp l ctl dat as last a := by
  induction cs generalizing hd mp l ctl dat as with
  | nil =>
    obtain ⟨rfl,rfl⟩ := Prod.mk.inj (Option.some.inj hr)
    refine (getpmsg_taken h ht ho (hf c (List.mem_cons_self ..)) hl).imp_right ?_
    rintro ⟨flags,last,a,hs,hg,htaken⟩
    exact ⟨flags,last,a,hs,hg,htaken.err,htaken.reassembled⟩
  | cons c0 cs ih =>
    have hf' : ∀ c' ∈ c :: cs, ∀ u, c'.fault u = false := fun c' hc' =>
      hf c' ((List.mem_cons.mp hc').elim (fun he => he ▸ List.mem_cons_self ..)
        fun hm => List.mem_cons_of_mem _ (List.mem_cons_of_mem _ hm))
    have hf0 : ∀ u, c0.fault u = false := hf c0 (List.mem_cons_of_mem _ (List.mem_cons_self ..))
    obtain ⟨r,hr1,hr2⟩ := Option.bind_eq_some_iff.mp hr
    obtain ⟨s,hs1,hs2⟩ := Option.map_eq_some_iff.mp hr2
    obtain ⟨rfl,rfl⟩ := Prod.mk.inj hs2
    have hstay' : ∀ a ∈ s.2, a.err ≠ none ∨ a.moreCtl = true ∨ a.moreDat = true := fun a ha =>
      hstay a (List.mem_cons_of_mem _ ha)
    rcases getpmsg_taken h ht ho hf0 hl with ⟨e,-,hg⟩ | ⟨flags,hd1,a0,-,hg,htaken⟩
    · -- refused
      obtain rfl := Option.some.inj (hr1.symm.trans hg)
      refine (ih h ho hl hf' hs1 hstay').imp_right ?_
      rintro ⟨flags,last,a,hsel,hcall,herr,hre⟩
      exact ⟨flags,last,a,hsel,hcall,herr,hre.cons rfl rfl (.of_trim (trim_self h.upright)) List.suffix_rfl⟩
    · obtain rfl := Option.some.inj (hr1.symm.trans hg)
      obtain ⟨ctl',dat',hc,hd,hmore⟩ := htaken.parts
      obtain ⟨mp',l',hm,hshape,hleft,hsub⟩ := hmore
        ((hstay a0 (List.mem_cons_self ..)).resolve_left fun hn => hn htaken.err)
      have hih := ih hshape (ordered_left hleft hsub ho) hm hf' hs1 hstay'
      rw [selects_left hleft] at hih
      refine hih.imp_right ?_
      rintro ⟨flags,last,a,hsel,hcall,herr,hre⟩
      exact ⟨flags,last,a,hsel,hcall,herr,hre.cons hc hd hleft hsub⟩

/- A block of M_PROTO, and calls that have no faults. -/
def protoBlk (bytes : List Uchar) : Mblk := { dataBlk 0 bytes with dbType := M_PROTO }
def getCall (ctl dat : ℤ) (flags : ℤ) : Call := ⟨some ctl,some dat,flags,none,fun _ => false⟩

def someMesg : Mesg := ⟨protoBlk [1,2],[dataBlk 0 [3,4,5]]⟩
def someLeft : Rdq := ⟨[⟨(protoBlk [1,2]).skip 1,[(dataBlk 0 [3,4,5]).skip 2]⟩],false⟩
def someAnswer : Answer := ⟨[1],[3,4],1,2,true,true,0,0,none⟩

theorem getpmsg_reassembles_two : answers ⟨[someMesg],false⟩ [getCall 1 2 0] = some (someLeft,[someAnswer]) ∧
    ((∃ e, (getCall 9 9 0).selects someMesg = .error e ∧
      lisStrgetpmsg someLeft (getCall 9 9 0) = some (someLeft,.error e)) ∨
    ∃ flags last a, (getCall 9 9 0).selects someMesg = .ok flags ∧
      lisStrgetpmsg someLeft (getCall 9 9 0) = some (last,a) ∧ a.err = none ∧
      Reassembled someMesg [] [protoBlk [1,2]] [dataBlk 0 [3,4,5]] [someAnswer] last a) := by
  have hr : answers ⟨[someMesg],false⟩ [getCall 1 2 0] = some (someLeft,[someAnswer]) := by decide
  refine ⟨hr,getpmsg_reassembles (t := M_PROTO) ⟨rfl,by decide,by decide,by decide⟩ (.inl rfl)
    (List.pairwise_singleton _ _) rfl (fun c hc u => ?_) hr (by decide)⟩
  rcases List.mem_cons.mp hc with rfl | hc
  · rfl
  · obtain rfl := List.mem_singleton.mp hc
    rfl

/- A call that asks for a message of high priority is refused if there is an ordinary one, and a
message of a type other than M_PROTO and M_PCPROTO is not given to the user. Neither call says that
bytes are left. -/
theorem refused_reports_neither :
    (¬ ∀ (mp : Mesg) (ctl dat : List Mblk) (c : Call), Shape mp M_PROTO ctl dat → (∀ u, c.fault u = false) →
      ∃ hd a, lisStrgetpmsg ⟨[mp],false⟩ c = some (hd,a) ∧ Reassembled mp [] ctl dat [] hd a) ∧
    ¬ ∀ (mp : Mesg) (t : Uchar) (ctl dat : List Mblk), Shape mp t ctl dat → t ≠ M_DATA →
      ∃ hd a, lisStrgetpmsg ⟨[mp],false⟩ (getCall 9 9 0) = some (hd,a) ∧ Reassembled mp [] ctl dat [] hd a := by
  refine ⟨fun h => ?_,fun h => ?_⟩
  · obtain ⟨hd,a,hg,hr⟩ := h ⟨dataBlk 0 [1],[]⟩ [] [dataBlk 0 [1]] (getCall 9 9 MSG_HIPRI)
      ⟨rfl,by decide,by decide,by decide⟩ fun _ => rfl
    obtain ⟨rfl,rfl⟩ := Prod.mk.inj (Option.some.inj hg)
    exact absurd (hr.moreDat.mpr (by decide)) (by decide)
  · obtain ⟨hd,a,hg,hr⟩ := h ⟨{ dataBlk 0 [1] with dbType := M_SIG },[]⟩ M_SIG [{ dataBlk 0 [1] with dbType := M_SIG }] []
      ⟨rfl,by decide,by decide,by decide⟩ (by decide)
    obtain ⟨rfl,rfl⟩ := Prod.mk.inj (Option.some.inj hg)
    exact absurd (hr.moreCtl.mpr (by decide)) (by decide)

end CSLiS.Head
