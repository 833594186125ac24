import CSLiS.Head.Strread
import CSLiS.Queue.Bands

/-!
# Reading keeps the order of the bytes (head/head.c)

What is left of a message is put back by the band of its first block that is left, so it stays in
front of the queue if no message behind has a higher band. A block after the first has a band of its
own, which `lis_unlinkb` leaves as it is.
-/

namespace CSLiS.Head
open Queue

variable {opt : Rdopt} {hd : Rdq} {mp : Mesg} {l ms : List Mesg} {bs : List Mblk} {off room u ulen n : ℕ}
  {bytes : List Uchar} {msgsRead : Bool}

/- The bytes of blocks, and of messages. -/
def blockBytes (bs : List Mblk) : List Uchar := bs.flatMap Mblk.data
def content (l : List Mesg) : List Uchar := l.flatMap fun mp => blockBytes mp.blocks

/- All blocks are M_DATA. -/
def Mesg.Data (mp : Mesg) : Prop := ∀ b ∈ mp.blocks, b.dbType = M_DATA

instance decMesgData (mp : Mesg) : Decidable mp.Data :=
  inferInstanceAs (Decidable (∀ b ∈ mp.blocks, b.dbType = M_DATA))

/- A queue after messages have arrived (`lis_putq`). -/
def lisPutq (l : List Mesg) (mp : Mesg) : List Mesg :=
  let s := tailSplit Mesg.info l mp.info
  s.1 ++ (if l.isEmpty then mp else mp.cleared) :: s.2

def arrive (ms : List Mesg) : List Mesg := ms.foldl lisPutq []

/- What the user gets of a read. -/
def Got.returned (g : Got) : List Uchar :=
  match g.ret with
  | .count => g.bytes
  | _ => []

/- Reads one after the other. All copies succeed. -/
def reads (opt : Rdopt) : Rdq → List ℕ → Option (Rdq × List Uchar)
  | hd, [] => some (hd,[])
  | hd, u :: us =>
      (lisStrread opt (fun _ => false) hd u).bind fun g =>
        (reads opt g.hd us).map fun r => (r.1,g.returned ++ r.2)

/- The bytes read and those left are the bytes there were, and only the first message has changed. -/
def InPlace (opt : Rdopt) (hd : Rdq) (us : List ℕ) : Prop :=
  ∃ r, reads opt hd us = some r ∧ r.2 ++ content r.1.msgs = content hd.msgs ∧ r.1.msgs.tail <:+ hd.msgs

/- No message is behind one that has a block of a lower band after its first. -/
def Level (l : List Mesg) : Prop := l.Pairwise fun mp mp' => ∀ b ∈ mp.bCont, mp'.blk.bBand ≤ b.bBand

/-! ### Data messages -/

theorem Mesg.Data.dbType (h : mp.Data) : mp.dbType = M_DATA := h mp.blk (List.mem_cons_self ..)

theorem Mesg.Data.hipri (h : mp.Data) : mp.info.hipri = false := by
  rw [show mp.info.hipri = lisHipri mp.dbType from rfl,h.dbType]
  rfl

theorem Mesg.Data.rank (h : mp.Data) : mp.info.rank = mp.blk.bBand := rank_ordinary h.hipri

theorem Mesg.Data.cleared (h : mp.Data) : mp.cleared = mp := by
  rw [Mesg.cleared,h.dbType]
  rfl

theorem checkMSig_data (h : ∀ mp ∈ hd.msgs, mp.Data) : hd.lisCheckMSig = hd := by
  unfold Rdq.lisCheckMSig
  cases hl : hd.msgs with
  | nil => rfl
  | cons x l =>
    have hx : x.dbType = M_DATA := (h x (hl ▸ List.mem_cons_self ..)).dbType
    simp only
    rw [hx,if_neg (by decide)]

theorem requeue_data (h : mp.Data) : hd.lisRequeue mp = { hd with msgs := Rdq.lisPutbq hd.msgs mp } := by
  rw [Rdq.lisRequeue,h.dbType,if_neg (by decide)]

/- Put back in front of messages of at most its band. -/
theorem lisPutbq_front (h : mp.Data) (hl : ∀ x ∈ l, x.Data) (hle : ∀ x ∈ l, x.blk.bBand ≤ mp.blk.bBand) :
    Rdq.lisPutbq l mp = mp :: l := by
  rw [Rdq.lisPutbq_top fun x hx => ?_,h.cleared,ite_self]
  rw [h.rank,(hl x hx).rank,Fin.val_fin_le]
  exact hle x hx

theorem lisPutbq_behind {x : Mesg} (h : mp.Data) (hl : ∀ y ∈ x :: l, y.Data) (hlt : mp.blk.bBand < x.blk.bBand) :
    ∃ k m, k ≠ [] ∧ k ++ m = x :: l ∧ (∀ y ∈ k, mp.blk.bBand < y.blk.bBand) ∧
      Rdq.lisPutbq (x :: l) mp = k ++ mp :: m := by
  have hx : x.Data := hl x (List.mem_cons_self ..)
  have hband : ¬ x.info.bBand ≤ mp.info.bBand := not_le.mpr hlt
  have hs : headSplit Mesg.info (x :: l) mp.info = skipBands Mesg.info (fun b => mp.info.bBand < b) (x :: l) := by
    simp [headSplit,h.hipri,hx.hipri,hband]
  have hk : (skipBands Mesg.info (fun b => mp.info.bBand < b) (x :: l)).1 =
      (x :: l).takeWhile fun y => decide (mp.info.bBand < y.info.bBand) := by
    have h1 : ((x :: l).takeWhile fun y => y.info.hipri) = [] := by
      simp [hx.hipri]
    have h2 : ((x :: l).dropWhile fun y => y.info.hipri) = x :: l := by
      simp [hx.hipri]
    rw [skipBands,h1,h2,List.nil_append]
  refine ⟨_,_,?_,skipBands_append (v := Mesg.info) (t := fun b => mp.info.bBand < b) (l := x :: l),?_,?_⟩
  · rw [hk]
    have : mp.info.bBand < x.info.bBand := hlt
    simp [this]
  · intro y hy
    rw [hk] at hy
    exact of_decide_eq_true (List.mem_takeWhile_imp (p := fun y : Mesg => decide (mp.info.bBand < y.info.bBand)) hy)
  · simp only [Rdq.lisPutbq,hs,h.cleared,ite_self]

/-! ### The blocks of a message -/

structure Copies (room : ℕ) (bs : List Mblk) (r : Copied) : Prop where
  bytes : r.bytes ++ blockBytes r.left = blockBytes bs
  err : r.err = false
  length : r.bytes.length ≤ room
  full : r.left ≠ [] → r.bytes.length = room
  left : ∀ b ∈ r.left, b.dbType = M_DATA ∧ ∃ b' ∈ bs, b.bBand = b'.bBand

theorem readBlocks_copies (h : ∀ b ∈ bs, b.dbType = M_DATA) :
    Copies room bs (readBlocks (fun _ => false) off room bs) := by
  induction bs generalizing off room with
  | nil => exact ⟨rfl,rfl,Nat.zero_le _,fun h => absurd rfl h,fun b hb => absurd hb List.not_mem_nil⟩
  | cons b bs ih =>
    have hb : b.dbType = M_DATA := h b (List.mem_cons_self ..)
    have hbs : ∀ c ∈ bs, c.dbType = M_DATA := fun c hc => h c (List.mem_cons_of_mem _ hc)
    have hlen := b.data_length
    have hsub : ∀ c ∈ bs, c.dbType = M_DATA ∧ ∃ b' ∈ b :: bs, c.bBand = b'.bBand :=
      fun c hc => ⟨hbs c hc,c,List.mem_cons_of_mem _ hc,rfl⟩
    have hmore : ∀ {r : Copied}, (∀ c ∈ r.left, c.dbType = M_DATA ∧ ∃ b' ∈ bs, c.bBand = b'.bBand) →
        ∀ c ∈ r.left, c.dbType = M_DATA ∧ ∃ b' ∈ b :: bs, c.bBand = b'.bBand := fun hr c hc =>
      (hr c hc).imp_right fun ⟨b',hb',he⟩ => ⟨b',List.mem_cons_of_mem _ hb',he⟩
    simp only [readBlocks,hb,if_true,Bool.false_eq_true,if_false]
    split_ifs with h1 h2 h3 h4
    · -- the block is copied in part
      refine ⟨?_,rfl,?_,fun _ => ?_,?_⟩
      · simp only [blockBytes,List.flatMap_cons]
        rw [← List.append_assoc,Mblk.take_skip]
      · simp only [List.length_take]
        omega
      · simp only [List.length_take]
        omega
      · intro c hc
        rcases List.mem_cons.mp hc with rfl | hc
        · exact ⟨hb,b,List.mem_cons_self ..,rfl⟩
        · exact hsub c hc
    · have hi : Copies (room - min room b.lisMblksize.toNat) bs (readBlocks (fun _ => false)
          (off + min room b.lisMblksize.toNat) (room - min room b.lisMblksize.toNat) bs) := ih hbs
      have htake : b.data.take (min room b.lisMblksize.toNat) = b.data := List.take_of_length_le (by omega)
      refine ⟨?_,hi.err,?_,fun hl => ?_,hmore hi.left⟩
      · simp only [htake,blockBytes,List.flatMap_cons,List.append_assoc]
        exact congrArg _ hi.bytes
      · have := hi.length
        simp only [htake,List.length_append]
        omega
      · have := hi.full hl
        simp only [htake,List.length_append]
        omega
    · have htake : b.data.take (min room b.lisMblksize.toNat) = b.data := List.take_of_length_le (by omega)
      refine ⟨by simp [htake,blockBytes],rfl,?_,fun _ => ?_,hsub⟩
      all_goals
        simp only [htake]
        omega
    · have hi : Copies room bs (readBlocks (fun _ => false) off room bs) := ih hbs
      refine ⟨?_,hi.err,hi.length,hi.full,hmore hi.left⟩
      rw [hi.bytes]
      simp only [blockBytes,List.flatMap_cons,b.data_nil (by omega),List.nil_append]
    · refine ⟨?_,rfl,Nat.zero_le _,fun _ => ?_,hsub⟩
      · simp only [blockBytes,List.flatMap_cons,List.nil_append]
        rw [b.data_nil (by omega)]
        rfl
      · simp only [List.length_nil]
        omega

/-! ### One read -/

/- No message is behind one that has a block of a lower band. -/
def LevelAll (l : List Mesg) : Prop := l.Pairwise fun mp mp' => ∀ b ∈ mp.blocks, mp'.blk.bBand ≤ b.bBand

theorem content_cons (mp : Mesg) (l : List Mesg) : content (mp :: l) = blockBytes mp.blocks ++ content l := rfl

/- What is left of the first message is put back in front. -/
theorem requeue_front {bs : List Mblk} {b : Mblk} (mp : Mesg) (hd : Rdq) (hdata : ∀ x ∈ hd.msgs, x.Data)
    (hlevel : ∀ x ∈ hd.msgs, ∀ c ∈ mp.blocks, x.blk.bBand ≤ c.bBand)
    (hleft : ∀ c ∈ b :: bs, c.dbType = M_DATA ∧ ∃ c' ∈ mp.blocks, c.bBand = c'.bBand) :
    hd.lisRequeue ⟨b,bs⟩ = { hd with msgs := ⟨b,bs⟩ :: hd.msgs } := by
  have hd' : Mesg.Data ⟨b,bs⟩ := fun c hc => (hleft c hc).1
  rw [requeue_data hd',lisPutbq_front hd' hdata fun x hx => ?_]
  obtain ⟨-,c,hc,he⟩ := hleft b (List.mem_cons_self ..)
  exact he ▸ hlevel x hx c hc

structure Fine (l : List Mesg) : Prop where
  data : ∀ mp ∈ l, mp.Data
  level : LevelAll l

structure ReadOk (hd : Rdq) (bytes : List Uchar) (g : Got) : Prop where
  ret : g.ret = .count ∨ g.bytes = []
  bytes : ∃ new, g.bytes = bytes ++ new ∧ new ++ content g.hd.msgs = content hd.msgs
  fine : Fine g.hd.msgs
  tail : g.hd.msgs.tail <:+ hd.msgs.tail

theorem strreadLoop_ok (hmode : opt.mode ≠ .rmsgd) (hf : Fine hd.msgs) (hn : hd.msgs.length < n)
    (hb : bytes.length ≤ ulen) (hr : msgsRead = true ∨ bytes = []) :
    ∃ g, strreadLoop opt (fun _ => false) ulen n hd bytes msgsRead = some g ∧ ReadOk hd bytes g := by
  induction n generalizing hd bytes msgsRead with
  | zero => cases hn
  | succ n ih =>
    unfold strreadLoop
    cases hl : hd.msgs with
    | nil =>
      refine ⟨_,rfl,?_,⟨[],(List.append_nil _).symm,by simp⟩,hf,List.suffix_rfl⟩
      rcases hr with hr | hr
      · exact .inl (by simp [hr])
      · exact .inr hr
    | cons mp l =>
      have hmp : mp.Data := hf.data mp (hl ▸ List.mem_cons_self ..)
      have hdata : ∀ x ∈ l, x.Data := fun x hx => hf.data x (hl ▸ List.mem_cons_of_mem _ hx)
      have hlevel := hf.level
      rw [hl,LevelAll,List.pairwise_cons] at hlevel
      have hc : Copies (ulen - bytes.length) mp.blocks (readBlocks (fun _ => false) bytes.length (ulen - bytes.length)
          mp.blocks) := readBlocks_copies hmp
      have hsig : ({ hd with msgs := l } : Rdq).lisCheckMSig = { hd with msgs := l } := checkMSig_data hdata
      simp only [hmp.dbType,if_true,hsig]
      generalize readBlocks (fun _ => false) bytes.length (ulen - bytes.length) mp.blocks = r at hc
      have hclen := hc.length
      cases hleft : r.left with
      | nil =>
        have hall : r.bytes = blockBytes mp.blocks := by
          rw [← hc.bytes,hleft]
          exact (List.append_nil _).symm
        simp only [Rdq.requeueLeft,hc.err,hmode,and_false,Bool.false_eq_true,if_false]
        split_ifs
        · refine ⟨_,rfl,.inl rfl,⟨r.bytes,rfl,?_⟩,⟨hdata,hlevel.2⟩,?_⟩
          · rw [hl,content_cons,hall]
          · rw [hl]
            exact List.tail_suffix l
        · obtain ⟨g,hg,ho⟩ : ∃ g, strreadLoop opt (fun _ => false) ulen n { hd with msgs := l } (bytes ++ r.bytes) true = some g ∧
            ReadOk { hd with msgs := l } (bytes ++ r.bytes) g := ih ⟨hdata,hlevel.2⟩ (by rw [hl] at hn; exact Nat.lt_of_succ_lt_succ hn)
            (by rw [List.length_append]; omega) (.inl rfl)
          obtain ⟨new,h1,h2⟩ := ho.bytes
          refine ⟨g,hg,ho.ret,⟨r.bytes ++ new,?_,?_⟩,ho.fine,?_⟩
          · rw [h1,List.append_assoc]
          · rw [hl,content_cons,List.append_assoc,h2,hall]
          · rw [hl]
            exact ho.tail.trans (List.tail_suffix l)
      | cons b bs =>
        have hfull : (bytes ++ r.bytes).length = ulen := by
          have := hc.full (by rw [hleft]; exact List.cons_ne_nil _ _)
          rw [List.length_append]
          omega
        have hrest := hleft ▸ hc.left
        simp only [Rdq.requeueLeft,hmode,and_false,if_false,hfull,true_or,if_true]
        rw [requeue_front mp { hd with msgs := l } hdata hlevel.1 hrest]
        refine ⟨_,rfl,.inl rfl,⟨r.bytes,rfl,?_⟩,⟨fun x hx => ?_,List.pairwise_cons.mpr ⟨fun x hx c hcm => ?_,hlevel.2⟩⟩,
          ?_⟩
        · have hbytes := hc.bytes
          rw [hleft] at hbytes
          rw [hl,content_cons,content_cons,← hbytes,← List.append_assoc]
          rfl
        · rcases List.mem_cons.mp hx with rfl | hx
          · exact fun c hc => (hrest c hc).1
          · exact hdata x hx
        · obtain ⟨-,c',hc',he⟩ := hrest c hcm
          exact he ▸ hlevel.1 x hx c' hc'
        · rw [hl]
          exact List.suffix_rfl

theorem lisStrread_ok (hmode : opt.mode ≠ .rmsgd) (hf : Fine hd.msgs) (u : ℕ) :
    ∃ g, lisStrread opt (fun _ => false) hd u = some g ∧ ReadOk hd [] g := by
  refine strreadLoop_ok hmode hf ?_ (Nat.zero_le _) (.inr rfl)
  have hlen : hd.msgs.length ≤ (hd.msgs.map fun mp => 2 * mp.blocks.length).sum := by
    induction hd.msgs with
    | nil => exact Nat.zero_le _
    | cons mp l ih =>
      have hpos : 0 < mp.blocks.length := Nat.succ_pos _
      simp only [List.map_cons,List.sum_cons,List.length_cons]
      omega
  exact Nat.lt_succ_of_le hlen

/-! ### All reads -/

theorem reads_ok (hmode : opt.mode ≠ .rmsgd) (hf : Fine hd.msgs) (us : List ℕ) :
    ∃ r, reads opt hd us = some r ∧ r.2 ++ content r.1.msgs = content hd.msgs ∧ r.1.msgs.tail <:+ hd.msgs.tail := by
  induction us generalizing hd with
  | nil => exact ⟨(hd,[]),rfl,rfl,List.suffix_rfl⟩
  | cons u us ih =>
    obtain ⟨g,hg,ho⟩ := lisStrread_ok hmode hf u
    obtain ⟨r,hr,hbytes,htail⟩ := ih ho.fine
    obtain ⟨new,hnew,hcontent⟩ := ho.bytes
    have hret : g.returned = g.bytes := by
      unfold Got.returned
      rcases ho.ret with h | h
      · rw [h]
      · cases g.ret <;> simp [h]
    refine ⟨(r.1,g.returned ++ r.2),?_,?_,htail.trans ho.tail⟩
    · simp only [reads,hg,Option.bind_some,hr,Option.map_some]
    · rw [hret,hnew,List.nil_append,List.append_assoc,hbytes,hcontent]

/- A read of the size of the first block takes that block. -/
theorem lisStrread_block {b : Mblk} (hl : hd.msgs = ⟨b,bs⟩ :: l) (hdata : ∀ x ∈ hd.msgs, x.Data)
    (hmode : opt.mode ≠ .rmsgd) : lisStrread opt (fun _ => false) hd b.data.length =
      some ⟨{ hd with msgs := l }.requeueLeft bs,b.data,.count⟩ := by
  have hmp : Mesg.Data ⟨b,bs⟩ := hdata _ (hl ▸ List.mem_cons_self ..)
  have hb : b.dbType = M_DATA := hmp b (List.mem_cons_self ..)
  have hrest : ∀ x ∈ l, x.Data := fun x hx => hdata x (hl ▸ List.mem_cons_of_mem _ hx)
  have hlen := b.data_length
  have hread : readBlocks (fun _ => false) 0 b.data.length (Mesg.blocks ⟨b,bs⟩) =
      ⟨b.data,bs,decide (0 < b.lisMblksize.toNat),false⟩ := by
    simp only [readBlocks,Mesg.blocks,hb,if_true,Bool.false_eq_true,if_false,hlen,min_self,lt_irrefl]
    split_ifs with h
    · simp [List.take_of_length_le hlen.le,h]
    · simp [b.data_nil (by omega),h]
  have hsig : ({ hd with msgs := l } : Rdq).lisCheckMSig = { hd with msgs := l } := checkMSig_data hrest
  rw [lisStrread,rounds]
  simp only [strreadLoop,hl,show Mesg.dbType ⟨b,bs⟩ = M_DATA from hb,if_true,
    hsig,List.length_nil,Nat.sub_zero,hread,List.nil_append,true_or,
    hmode,and_false,if_false]

/- The other way round: if every sequence of reads leaves all but the first message in place, what
is left after the first block is not put behind a message of a higher band. -/
theorem block_level {b c : Mblk} {base : List Mesg} (hl : hd.msgs = ⟨b,c :: bs⟩ :: l) (hdata : ∀ x ∈ hd.msgs, x.Data)
    (hmode : opt.mode ≠ .rmsgd) (hbase : l <:+ base)
    (h : ∃ r, reads opt hd [b.data.length] = some r ∧ r.1.msgs.tail <:+ base) :
    ∀ x ∈ l.head?, x.blk.bBand ≤ c.bBand := by
  intro x hx
  by_contra hlt
  rw [not_le] at hlt
  obtain ⟨k',rfl⟩ := List.head?_eq_some_iff.mp hx
  have hrest : ∀ y ∈ x :: k', y.Data := fun y hy => hdata y (hl ▸ List.mem_cons_of_mem _ hy)
  have hrem : Mesg.Data ⟨c,bs⟩ := fun d hd => hdata _ (hl ▸ List.mem_cons_self ..) d (List.mem_cons_of_mem _ hd)
  obtain ⟨k,m,hk,hkm,hband,hput⟩ := lisPutbq_behind hrem hrest hlt
  obtain ⟨r,hr,htail⟩ := h
  simp only [reads,lisStrread_block hl hdata hmode,Option.bind_some,Option.map_some,Option.some.injEq] at hr
  subst hr
  simp only [Rdq.requeueLeft,requeue_data hrem,hput] at htail
  -- both are what is left of `base`, and as long
  obtain ⟨y,k,rfl⟩ := List.exists_cons_of_ne_nil hk
  have hlen : (k ++ ⟨c,bs⟩ :: m).length = (x :: k').length := by
    rw [← hkm]
    simp only [List.length_append,List.length_cons,List.cons_append]
    omega
  have heq : k ++ ⟨c,bs⟩ :: m = (y :: k) ++ m :=
    ((List.suffix_of_suffix_length_le htail hbase hlen.le).eq_of_length hlen).trans hkm.symm
  have hat := congrArg (fun z => z[k.length]?) heq
  simp only [List.getElem?_append_right le_rfl,Nat.sub_self,List.getElem?_cons_zero,
    List.getElem?_append_left (show k.length < (y :: k).length from Nat.lt_succ_self _)] at hat
  exact lt_irrefl _ (hband _ (List.mem_of_getElem? hat.symm))

/- The queue before the reads has `base` behind its first message. -/
theorem level_of_reads {base : List Mesg} (hmode : opt.mode ≠ .rmsgd) (hdata : ∀ x ∈ hd.msgs, x.Data)
    (hord : Ordered Mesg.info hd.msgs.tail) (hbase : hd.msgs.tail <:+ base)
    (h : ∀ us, ∃ r, reads opt hd us = some r ∧ r.1.msgs.tail <:+ base) : Level hd.msgs := by
  -- on the number of blocks, of which the first is read
  induction hn : (hd.msgs.map fun mp => mp.blocks.length).sum using Nat.strong_induction_on generalizing hd with
  | _ n ih =>
    subst hn
    cases hl : hd.msgs with
    | nil => exact List.Pairwise.nil
    | cons mp l =>
      obtain ⟨b,bs⟩ := mp
      have hread := lisStrread_block hl hdata hmode
      have hrest : ∀ x ∈ l, x.Data := fun x hx => hdata x (hl ▸ List.mem_cons_of_mem _ hx)
      rw [hl,List.tail_cons] at hord hbase
      have hnext : ∀ {hd' : Rdq}, { hd with msgs := l }.requeueLeft bs = hd' →
          ∀ us, ∃ r, reads opt hd' us = some r ∧ r.1.msgs.tail <:+ base := by
        intro hd' he us
        obtain ⟨r,hr,htail⟩ := h (b.data.length :: us)
        simp only [reads,hread,Option.bind_some,he] at hr
        obtain ⟨r',hr',rfl⟩ := Option.map_eq_some_iff.mp hr
        exact ⟨r',hr',htail⟩
      cases bs with
      | nil =>
        have hlevel := @ih _ (by simp [hl,Mesg.blocks]) { hd with msgs := l } hrest
          (hord.sublist (List.tail_sublist l)) ((List.tail_suffix l).trans hbase) (hnext rfl) rfl
        exact List.pairwise_cons.mpr ⟨fun x _ c hc => absurd hc List.not_mem_nil,hlevel⟩
      | cons c bs =>
        have hhead := block_level hl hdata hmode hbase (h [b.data.length])
        have hrem : Mesg.Data ⟨c,bs⟩ := fun d hd' => hdata _ (hl ▸ List.mem_cons_self ..) d (List.mem_cons_of_mem _ hd')
        have hall : ∀ x ∈ l, x.blk.bBand ≤ c.bBand := by
          cases l with
          | nil => exact fun x hx => absurd hx List.not_mem_nil
          | cons y l =>
            intro x hx
            refine le_trans ?_ (hhead y rfl)
            rcases List.mem_cons.mp hx with rfl | hx
            · exact le_rfl
            · have := (List.pairwise_cons.mp hord).1 x hx
              rwa [(hrest x (List.mem_cons_of_mem _ hx)).rank,(hrest y (List.mem_cons_self ..)).rank,Fin.val_fin_le] at this
        have hput : { hd with msgs := l }.requeueLeft (c :: bs) = { hd with msgs := ⟨c,bs⟩ :: l } := by
          rw [Rdq.requeueLeft,requeue_data hrem,lisPutbq_front hrem hrest hall]
        have hlevel := @ih _ (by simp [hl,Mesg.blocks]) { hd with msgs := ⟨c,bs⟩ :: l }
          (fun x hx => (List.mem_cons.mp hx).elim (fun he => he ▸ hrem) (hrest x)) hord hbase (hnext hput) rfl
        obtain ⟨h1,h2⟩ := List.pairwise_cons.mp hlevel
        refine List.pairwise_cons.mpr ⟨fun x hx d hd' => ?_,h2⟩
        rcases List.mem_cons.mp hd' with rfl | hd'
        · exact hall x hx
        · exact h1 x hx d hd'

/-! ### Arrivals -/

theorem arrive_spec (h : ∀ mp ∈ ms, mp.Data) : (∀ mp ∈ arrive ms, mp.Data) ∧ Ordered Mesg.info (arrive ms) := by
  induction ms using List.reverseRecOn with
  | nil => exact ⟨fun mp hm => absurd hm List.not_mem_nil,List.Pairwise.nil⟩
  | append_singleton ms mp ih =>
    obtain ⟨h1,h2⟩ := ih fun x hx => h x (List.mem_append_left _ hx)
    have hmp : mp.Data := h mp (List.mem_append_right _ (List.mem_singleton_self _))
    have happ := tailSplit_append (v := Mesg.info) (l := arrive ms) (i := mp.info)
    obtain ⟨hk,hm⟩ := tailSplit_spec (v := Mesg.info) (i := mp.info) h2
    have heq : arrive (ms ++ [mp]) = (tailSplit Mesg.info (arrive ms) mp.info).1 ++ mp ::
        (tailSplit Mesg.info (arrive ms) mp.info).2 := by
      simp only [arrive,List.foldl_append,List.foldl_cons,List.foldl_nil,lisPutq,hmp.cleared,ite_self]
    rw [heq]
    refine ⟨fun x hx => ?_,Ordered.insert (happ.symm ▸ h2) hk hm⟩
    rcases List.mem_append.mp hx with hx | hx
    · exact h1 x (happ ▸ List.mem_append_left _ hx)
    · rcases List.mem_cons.mp hx with rfl | hx
      · exact hmp
      · exact h1 x (happ ▸ List.mem_append_right _ hx)

/-- Every sequence of reads leaves the bytes in place if and only if no message is queued behind one
that has a block of a lower band after its first. -/
theorem reads_in_place_iff {strpri : Bool} (hmode : opt.mode ≠ .rmsgd) (h : ∀ mp ∈ ms, mp.Data) :
    (∀ us, InPlace opt ⟨arrive ms,strpri⟩ us) ↔ Level (arrive ms) := by
  obtain ⟨hdata,hord⟩ := arrive_spec h
  refine ⟨fun hin => ?_,fun hlevel us => ?_⟩
  · show Level (⟨arrive ms,strpri⟩ : Rdq).msgs
    refine level_of_reads hmode hdata (hord.sublist (List.tail_sublist _))
      (List.tail_suffix _) fun us => ?_
    obtain ⟨r,hr,-,htail⟩ := hin us
    exact ⟨r,hr,htail⟩
  · have hfine : LevelAll (arrive ms) := by
      refine (hord.and hlevel).imp_of_mem fun {x y} hx hy hxy b hb => ?_
      rcases List.mem_cons.mp hb with rfl | hb
      · have hrank := hxy.1
        rwa [(hdata x hx).rank,(hdata y hy).rank,Fin.val_fin_le] at hrank
      · exact hxy.2 b hb
    obtain ⟨r,hr,hbytes,htail⟩ := reads_ok hmode (show Fine (⟨arrive ms,strpri⟩ : Rdq).msgs from ⟨hdata,hfine⟩) us
    exact ⟨r,hr,hbytes,htail.trans (List.tail_suffix _)⟩

def optRmsgn : Rdopt := ⟨.rmsgn,false,false,false⟩

/- A block of M_DATA with these bytes, all of them to be read. -/
def dataBlk (band : Uchar) (bytes : List Uchar) : Mblk := ⟨band,false,M_DATA,bytes,0,bytes.length,le_rfl⟩

theorem reads_in_place_two : (∀ us, InPlace optRmsgn ⟨arrive [⟨dataBlk 0 [5],[]⟩,⟨dataBlk 1 [1,2],[dataBlk 1 [3]]⟩],false⟩ us) ↔
    Level (arrive [⟨dataBlk 0 [5],[]⟩,⟨dataBlk 1 [1,2],[dataBlk 1 [3]]⟩]) :=
  reads_in_place_iff (by decide) (by decide)

/- The second block of a message of band 1 is of band 0, and a message of band 1 is behind it. The
first read takes the first block, the second one gets bytes of the other message. -/
theorem remainder_overtaken : ¬ ∀ (opt : Rdopt) (ms : List Mesg) (us : List ℕ), opt.mode ≠ .rmsgd →
    (∀ mp ∈ ms, mp.Data) → InPlace opt ⟨arrive ms,false⟩ us := by
  intro h
  obtain ⟨r,hr,hbytes,-⟩ := h optRmsgn [⟨dataBlk 1 [1],[dataBlk 0 [2]]⟩,⟨dataBlk 1 [3],[]⟩] [1,1] (by decide) (by decide)
  obtain rfl := Option.some.inj hr
  exact absurd hbytes (by decide)

end CSLiS.Head
