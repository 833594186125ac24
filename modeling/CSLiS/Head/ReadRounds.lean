import CSLiS.Head.Reassembly

/-!
# Any messages, read round by round (head/head.c)

A round of `lis_strread` takes the first message of the queue, whatever it is, and puts the rest of it back. Every read
ends, and no byte comes twice. The bytes of a call are those that it has copied to the user; its copies may fail.
-/

namespace CSLiS.Head
open Queue

structure ReadCall where
  fault : ℕ → Bool
  ulen : ℕ

/- Reads one after the other, with the bytes they copy. -/
def readCalls (opt : Rdopt) : Rdq → List ReadCall → Option (Rdq × List Uchar)
  | hd, [] => some (hd,[])
  | hd, c :: cs =>
      (lisStrread opt c.fault hd c.ulen).bind fun g =>
        (readCalls opt g.hd cs).map fun r => (r.1,g.bytes ++ r.2)

/- The bytes of the M_DATA blocks. -/
def dataBytes (bs : List Mblk) : List Uchar := blockBytes (bs.filter fun b => b.dbType = M_DATA)

/- What a mode delivers. -/
def wanted (opt : Rdopt) (bs : List Mblk) : List Uchar := if opt.rprotdat then blockBytes bs else dataBytes bs

def Mesg.want (opt : Rdopt) (mp : Mesg) : List Uchar := wanted opt mp.blocks

def wantedAll (opt : Rdopt) (l : List Mesg) : List Uchar := l.flatMap fun mp => mp.want opt

/-! ### The blocks of a message -/

variable {opt : Rdopt} {fault : ℕ → Bool} {off room ulen n : ℕ} {bs : List Mblk}

theorem dataBytes_cons (b : Mblk) (bs : List Mblk) :
    dataBytes (b :: bs) = (if b.dbType = M_DATA then b.data else []) ++ dataBytes bs := by
  rw [dataBytes,dataBytes,List.filter_cons]
  split_ifs with h h' h'
  · rfl
  · exact absurd (of_decide_eq_true h) h'
  · exact absurd (decide_eq_true h') h
  · rfl

theorem blockBytes_cons (b : Mblk) (bs : List Mblk) : blockBytes (b :: bs) = b.data ++ blockBytes bs := rfl

/- What the loop over the blocks does with any blocks. -/
structure Walks (room : ℕ) (bs : List Mblk) (r : Copied) : Prop where
  bytes : r.bytes ++ dataBytes r.left = dataBytes bs
  sub : (r.bytes ++ blockBytes r.left).Sublist (blockBytes bs)
  length : r.bytes.length ≤ room
  full : r.err = false → r.left ≠ [] → r.bytes.length = room
  left : r.left = [] ∨ ∃ b rest k, b :: rest <:+ bs ∧ r.left = b.skip k :: rest ∧ (k = 0 ∨ b.dbType = M_DATA)

theorem skip_zero (b : Mblk) : b.skip 0 = b := rfl

theorem left_of_suffix {bs l : List Mblk} (h : l <:+ bs) :
    l = [] ∨ ∃ b rest k, b :: rest <:+ bs ∧ l = b.skip k :: rest ∧ (k = 0 ∨ b.dbType = M_DATA) := by
  cases l with
  | nil => exact .inl rfl
  | cons b rest => exact .inr ⟨b,rest,0,h,rfl,.inl rfl⟩

theorem readBlocks_walks (fault : ℕ → Bool) (off room : ℕ) (bs : List Mblk) :
    Walks room bs (readBlocks fault off room bs) := by
  induction bs generalizing off room with
  | nil => exact ⟨rfl,List.Sublist.refl _,Nat.zero_le _,fun _ h => absurd rfl h,.inl rfl⟩
  | cons b bs ih =>
    have hlen := b.data_length
    have hmore {r : Copied} (h : r.left = [] ∨ ∃ c rest k, c :: rest <:+ bs ∧ r.left = c.skip k :: rest ∧
        (k = 0 ∨ c.dbType = M_DATA)) : r.left = [] ∨ ∃ c rest k, c :: rest <:+ b :: bs ∧ r.left = c.skip k :: rest ∧
        (k = 0 ∨ c.dbType = M_DATA) :=
      h.imp_right fun ⟨c,rest,k,hs,he⟩ => ⟨c,rest,k,hs.trans (List.suffix_cons ..),he⟩
    have hdb : b.dbType = M_DATA → dataBytes (b :: bs) = b.data ++ dataBytes bs := fun ht => by
      rw [dataBytes_cons,if_pos ht]
    by_cases ht : b.dbType = M_DATA
    · simp only [readBlocks,ht,if_true]
      split_ifs with h1 h2 h3 h4 h5
      · -- the copy fails
        exact ⟨rfl,List.Sublist.refl _,Nat.zero_le _,fun h => Bool.noConfusion h,left_of_suffix List.suffix_rfl⟩
      · -- the block is copied in part
        have htake : (b.data.take (min room b.lisMblksize.toNat)).length = room := by
          rw [List.length_take]
          omega
        refine ⟨?_,?_,htake.le,fun _ _ => htake,.inr ⟨b,bs,_,List.suffix_rfl,rfl,.inr ht⟩⟩
        · rw [dataBytes_cons,if_pos (show (b.skip _).dbType = M_DATA from ht),← List.append_assoc,Mblk.take_skip,hdb ht]
        · rw [blockBytes_cons,← List.append_assoc,Mblk.take_skip,blockBytes_cons]
      · -- the block is copied, and there is room
        have hall : b.data.take (min room b.lisMblksize.toNat) = b.data := List.take_of_length_le (by omega)
        have hr := ih (off + min room b.lisMblksize.toNat) (room - min room b.lisMblksize.toNat)
        refine ⟨?_,?_,?_,fun he hl => ?_,hmore hr.left⟩
        · rw [hall,hdb ht,List.append_assoc,hr.bytes]
        · rw [hall,blockBytes_cons,List.append_assoc]
          exact hr.sub.append_left _
        · have h := hr.length
          rw [hall,List.length_append]
          omega
        · have h := hr.full he hl
          rw [hall,List.length_append]
          omega
      · have hall : b.data.take (min room b.lisMblksize.toNat) = b.data := List.take_of_length_le (by omega)
        have hroom : b.data.length = room := by omega
        rw [hall]
        exact ⟨(hdb ht).symm,List.Sublist.refl _,hroom.le,fun _ _ => hroom,left_of_suffix (List.suffix_cons ..)⟩
      · have hr := ih off room
        have hnil : b.data = [] := List.eq_nil_of_length_eq_zero (by omega)
        refine ⟨?_,?_,hr.length,hr.full,hmore hr.left⟩
        · rw [hdb ht,hnil,hr.bytes,List.nil_append]
        · rw [blockBytes_cons,hnil,List.nil_append]
          exact hr.sub
      · have hnil : b.data = [] := List.eq_nil_of_length_eq_zero (by omega)
        refine ⟨?_,?_,Nat.zero_le _,fun _ _ => ?_,left_of_suffix (List.suffix_cons ..)⟩
        · rw [hdb ht,hnil]
        · rw [blockBytes_cons,hnil]
        · exact (Nat.eq_zero_of_not_pos h5).symm
    · -- a block of another type goes
      have hdb : dataBytes (b :: bs) = dataBytes bs := by
        rw [dataBytes_cons,if_neg ht,List.nil_append]
      simp only [readBlocks,ht,if_false,lt_irrefl]
      split_ifs with h1
      · have hr := ih off room
        refine ⟨hr.bytes.trans hdb.symm,?_,hr.length,hr.full,hmore hr.left⟩
        rw [blockBytes_cons]
        exact hr.sub.trans (List.sublist_append_right ..)
      · refine ⟨hdb.symm,?_,Nat.zero_le _,fun _ _ => (Nat.eq_zero_of_not_pos h1).symm,
          left_of_suffix (List.suffix_cons ..)⟩
        rw [blockBytes_cons]
        exact List.sublist_append_right ..

/-! ### A round of the loop -/

/- A message whose first block has become M_DATA. -/
def Mesg.asData (mp : Mesg) : Mesg := { mp with blk := { mp.blk with dbType := M_DATA } }

/- What a round does with the first message: the read side and the bytes after it, and whether there is another one. -/
inductive Round (opt : Rdopt) (fault : ℕ → Bool) (ulen : ℕ) (hd : Rdq) (bytes : List Uchar) :
    Rdq → List Uchar → Bool → Prop
  | empty (hl : hd.msgs = []) : Round opt fault ulen hd bytes hd bytes false
  | data {mp : Mesg} {l : List Mesg} {hd' : Rdq} {r : Copied} {again : Bool} (hl : hd.msgs = mp :: l)
      (ht : mp.dbType = M_DATA) (hr : r = readBlocks fault bytes.length (ulen - bytes.length) mp.blocks)
      (hput : hd' = if r.err = false ∧ opt.mode = .rmsgd then (⟨l,hd.strpri⟩ : Rdq).lisCheckMSig
        else (⟨l,hd.strpri⟩ : Rdq).lisCheckMSig.requeueLeft r.left)
      (hagain : again = true → r.left = [] ∧ ulen ≠ (bytes ++ r.bytes).length) :
      Round opt fault ulen hd bytes hd' (bytes ++ r.bytes) again
  | conv {mp : Mesg} {l : List Mesg} (strpri : Bool) (hl : hd.msgs = mp :: l)
      (ht : mp.dbType = M_PCPROTO ∨ mp.dbType = M_PROTO) (hn : opt.rprotnorm = false) (hdat : opt.rprotdat = true) :
      Round opt fault ulen hd bytes
        ({ (⟨l,hd.strpri⟩ : Rdq).lisCheckMSig with strpri := strpri }.lisRequeue mp.asData) bytes true
  | drop {mp : Mesg} {l : List Mesg} (strpri : Bool) (hl : hd.msgs = mp :: l)
      (ht : mp.dbType = M_PCPROTO ∨ mp.dbType = M_PROTO) (hn : opt.rprotnorm = false) (hdat : opt.rprotdat = false) :
      Round opt fault ulen hd bytes
        ({ (⟨l,hd.strpri⟩ : Rdq).lisCheckMSig with strpri := strpri }.requeueLeft mp.bCont) bytes true
  | refuse {mp : Mesg} {l : List Mesg} {hd' : Rdq} (strpri : Bool) (hl : hd.msgs = mp :: l)
      (ht : mp.dbType = M_PCPROTO ∨ mp.dbType = M_PROTO)
      (hn : opt.rprotnorm = true ∨ opt.rprotdat = false ∧ opt.rprotdis = false)
      (hput : hd' = { (⟨l,hd.strpri⟩ : Rdq).lisCheckMSig with strpri := strpri } ∨
        hd' = { (⟨l,hd.strpri⟩ : Rdq).lisCheckMSig with strpri := strpri }.lisRequeue mp) :
      Round opt fault ulen hd bytes hd' bytes false
  | other {mp : Mesg} {l : List Mesg} {hd' : Rdq} {again : Bool} (hl : hd.msgs = mp :: l) (ht : mp.dbType ≠ M_DATA)
      (ht' : ¬(mp.dbType = M_PCPROTO ∨ mp.dbType = M_PROTO))
      (hput : hd' = (⟨l,hd.strpri⟩ : Rdq).lisCheckMSig ∨
        again = false ∧ hd' = ((⟨l,hd.strpri⟩ : Rdq).lisCheckMSig.lisRequeue mp).lisCheckMSig) :
      Round opt fault ulen hd bytes hd' bytes again

/- The loop goes round by round, and only what it returns depends on the earlier ones. -/
theorem strreadLoop_round (opt : Rdopt) (fault : ℕ → Bool) (hd : Rdq) {bytes : List Uchar} (hb : bytes.length ≤ ulen) :
    ∃ hd' bytes' again, Round opt fault ulen hd bytes hd' bytes' again ∧ ∀ n msgsRead,
      (again = false ∧ ∃ ret, strreadLoop opt fault ulen (n + 1) hd bytes msgsRead = some ⟨hd',bytes',ret⟩) ∨
      (again = true ∧ ∃ b, strreadLoop opt fault ulen (n + 1) hd bytes msgsRead =
        strreadLoop opt fault ulen n hd' bytes' b) := by
  cases hl : hd.msgs with
  | nil =>
    refine ⟨hd,bytes,false,.empty hl,fun n b => .inl ⟨rfl,if b then .count else .empty,?_⟩⟩
    rw [strreadLoop,hl]
  | cons mp l =>
    by_cases ht : mp.dbType = M_DATA
    · generalize hr : readBlocks fault bytes.length (ulen - bytes.length) mp.blocks = r
      have hw : Walks (ulen - bytes.length) mp.blocks r := hr ▸ readBlocks_walks fault bytes.length _ mp.blocks
      by_cases hs : ulen = (bytes ++ r.bytes).length ∨ opt.mode ≠ .rnorm ∨ r.lgth = false ∨ mp.blk.msgmark = true
      · refine ⟨_,_,false,.data hl ht hr.symm rfl fun h => Bool.noConfusion h,fun n b => .inl ⟨rfl,.count,?_⟩⟩
        simp only [strreadLoop,hl,ht,hr,if_true,if_pos hs]
      by_cases he : r.err = true
      · refine ⟨_,_,false,.data hl ht hr.symm rfl fun h => Bool.noConfusion h,fun n b => .inl ⟨rfl,.err .efault,?_⟩⟩
        simp only [strreadLoop,hl,ht,hr,if_true,if_neg hs,he]
      · have hleft : r.left = [] := by
          by_contra hne
          have hfull := hw.full (eq_false_of_ne_true he) hne
          refine hs (.inl ?_)
          rw [List.length_append]
          omega
        refine ⟨_,_,true,.data hl ht hr.symm rfl fun _ => ⟨hleft,fun h => hs (.inl h)⟩,fun n b => .inr ⟨rfl,true,?_⟩⟩
        simp only [strreadLoop,hl,ht,hr,if_true,if_neg hs,eq_false_of_ne_true he]
        rfl
    by_cases hc : mp.dbType = M_PCPROTO ∨ mp.dbType = M_PROTO
    · have hpri : ∃ strpri, (if mp.dbType = M_PCPROTO then { (⟨l,hd.strpri⟩ : Rdq).lisCheckMSig with strpri := false }
          else (⟨l,hd.strpri⟩ : Rdq).lisCheckMSig) = { (⟨l,hd.strpri⟩ : Rdq).lisCheckMSig with strpri := strpri } := by
        split_ifs
        · exact ⟨false,rfl⟩
        · exact ⟨_,rfl⟩
      obtain ⟨sp,hsp⟩ := hpri
      have hloop (n : ℕ) (b : Bool) : strreadLoop opt fault ulen (n + 1) hd bytes b =
          let hd := { (⟨l,hd.strpri⟩ : Rdq).lisCheckMSig with strpri := sp }
          if opt.rprotnorm then some ⟨if opt.rprotdis then hd else hd.lisRequeue mp,bytes,.err .ebadmsg⟩
          else if opt.rprotdat then
            strreadLoop opt fault ulen n (hd.lisRequeue mp.asData) bytes true
          else if opt.rprotdis then strreadLoop opt fault ulen n (hd.requeueLeft mp.bCont) bytes true
          else some ⟨hd,bytes,.err .ebadmsg⟩ := by
        rw [← hsp,strreadLoop]
        simp only [hl,ht,hc,if_false,if_true,Mesg.asData]
      by_cases hn : opt.rprotnorm = true
      · refine ⟨_,_,false,.refuse sp hl hc (.inl hn) (ite_eq_or_eq (opt.rprotdis = true) _ _),
          fun n b => .inl ⟨rfl,.err .ebadmsg,?_⟩⟩
        rw [hloop]
        exact if_pos hn
      by_cases hdat : opt.rprotdat = true
      · refine ⟨_,_,true,.conv sp hl hc (eq_false_of_ne_true hn) hdat,fun n b => .inr ⟨rfl,true,?_⟩⟩
        rw [hloop]
        exact (if_neg hn).trans (if_pos hdat)
      by_cases hdis : opt.rprotdis = true
      · refine ⟨_,_,true,.drop sp hl hc (eq_false_of_ne_true hn) (eq_false_of_ne_true hdat),
          fun n b => .inr ⟨rfl,true,?_⟩⟩
        rw [hloop]
        exact (if_neg hn).trans ((if_neg hdat).trans (if_pos hdis))
      · refine ⟨_,_,false,.refuse sp hl hc (.inr ⟨eq_false_of_ne_true hdat,eq_false_of_ne_true hdis⟩)
          (.inl rfl),fun n b => .inl ⟨rfl,.err .ebadmsg,?_⟩⟩
        rw [hloop]
        exact (if_neg hn).trans ((if_neg hdat).trans (if_neg hdis))
    · by_cases hread : mp.dbType = M_READ
      · refine ⟨_,_,true,.other hl ht hc (.inl rfl),fun n b => .inr ⟨rfl,b,?_⟩⟩
        simp only [strreadLoop,hl,ht,hc,if_false,if_pos hread]
      by_cases hsig : mp.dbType = M_SIG
      · refine ⟨_,_,false,.other hl ht hc (.inr ⟨rfl,rfl⟩),fun n b => .inl ⟨rfl,.err .eagain,?_⟩⟩
        simp only [strreadLoop,hl,ht,hc,if_false,if_neg hread,if_pos hsig]
      · refine ⟨_,_,false,.other hl ht hc (.inl rfl),fun n b => .inl ⟨rfl,.err .ebadmsg,?_⟩⟩
        simp only [strreadLoop,hl,ht,hc,if_false,if_neg hread,if_neg hsig]

/-! ### Every read ends -/

section Total
variable {f : Mesg → ℕ} {mp : Mesg} {l : List Mesg} {hd hd' : Rdq} {bytes bytes' : List Uchar} {again : Bool}

/- A quantity that messages have. -/
def total (f : Mesg → ℕ) (l : List Mesg) : ℕ := (l.map f).sum

theorem total_putbq (hf : f mp.cleared = f mp) (l : List Mesg) :
    total f (Rdq.lisPutbq l mp) = f mp + total f l := by
  have hput : f (if l.isEmpty then mp else mp.cleared) = f mp := by
    split_ifs
    · rfl
    · exact hf
  have hsplit := congrArg (total f) (headSplit_append (v := Mesg.info) (l := l) (i := mp.info))
  simp only [total,List.map_append,List.sum_append] at hsplit
  simp only [total,Rdq.lisPutbq,List.map_append,List.sum_append,List.map_cons,List.sum_cons,hput]
  omega

theorem total_requeue (hf : f mp.cleared = f mp) (hd : Rdq) :
    total f (hd.lisRequeue mp).msgs ≤ f mp + total f hd.msgs := by
  rw [Rdq.lisRequeue]
  split_ifs with h1
  · cases hl : hd.msgs with
    | nil => exact (total_putbq hf []).le
    | cons x l =>
      simp only
      rw [total_putbq hf]
      split_ifs
      · simp only [total,List.map_cons,List.sum_cons]
        omega
      · exact le_rfl
  · exact (total_putbq hf _).le

theorem total_check (f : Mesg → ℕ) (hd : Rdq) : total f hd.lisCheckMSig.msgs ≤ total f hd.msgs := by
  rcases hd.checkMSig_cases with h | ⟨x,l,hl,-,h⟩
  · rw [h]
  · rw [h,hl]
    exact Nat.le_add_left _ _

/- What is put back of blocks has a quantity that blocks have. -/
theorem total_requeueLeft {g : List Mblk → ℕ} (hf : ∀ mp : Mesg, f mp = g mp.blocks) (hc : ∀ mp, f mp.cleared = f mp)
    (hd : Rdq) (bs : List Mblk) : total f (hd.requeueLeft bs).msgs ≤ g bs + total f hd.msgs := by
  cases bs with
  | nil => exact Nat.le_add_left _ _
  | cons b bs => exact hf ⟨b,bs⟩ ▸ total_requeue (hc _) hd

/- The rounds that a message can still take. -/
def weight (bs : List Mblk) : ℕ := match bs with
  | [] => 0
  | b :: bs => 2 * bs.length + (if b.dbType = M_DATA then 1 else 2)

theorem weight_cleared (mp : Mesg) : weight mp.cleared.blocks = weight mp.blocks := by
  rw [Mesg.cleared]
  split_ifs <;> rfl

theorem weight_le (bs : List Mblk) : weight bs ≤ 2 * bs.length := by
  cases bs with
  | nil => exact le_rfl
  | cons b bs =>
    rw [weight,List.length_cons]
    split_ifs <;> omega

theorem Round.weight_lt (h : Round opt fault ulen hd bytes hd' bytes' true) :
    total (weight ·.blocks) hd'.msgs < total (weight ·.blocks) hd.msgs := by
  have hcheck (l : List Mesg) : total (weight ·.blocks) (⟨l,hd.strpri⟩ : Rdq).lisCheckMSig.msgs ≤
      total (weight ·.blocks) l := total_check _ _
  have hcons (mp : Mesg) (l : List Mesg) : total (weight ·.blocks) (mp :: l) =
      weight mp.blocks + total (weight ·.blocks) l := rfl
  have hpos (mp : Mesg) : 0 < weight mp.blocks := by
    rw [Mesg.blocks,weight]
    split_ifs <;> omega
  cases h with
  | @data mp l _ r _ hl ht hr hput hagain =>
    have hleft : hd' = (⟨l,hd.strpri⟩ : Rdq).lisCheckMSig := by
      rw [hput,(hagain rfl).1]
      exact ite_self _
    rw [hl,hcons,hleft]
    have := hcheck l
    have := hpos mp
    omega
  | @conv mp l sp hl ht hn hdat =>
    have hne : mp.blk.dbType ≠ M_DATA := by
      rcases ht with h | h
      · exact fun hd => absurd (h.symm.trans hd) (by decide)
      · exact fun hd => absurd (h.symm.trans hd) (by decide)
    rw [hl,hcons]
    refine (total_requeue (weight_cleared _) _).trans_lt ?_
    have := hcheck l
    simp only [Mesg.asData,Mesg.blocks,weight,if_true,if_neg hne]
    exact Nat.add_lt_add_of_lt_of_le (by omega) this
  | @drop mp l sp hl ht hn hdat =>
    have hne : mp.blk.dbType ≠ M_DATA := by
      rcases ht with h | h
      · exact fun hd => absurd (h.symm.trans hd) (by decide)
      · exact fun hd => absurd (h.symm.trans hd) (by decide)
    rw [hl,hcons]
    refine (total_requeueLeft (fun _ => rfl) weight_cleared _ _).trans_lt ?_
    have hrest : weight mp.bCont < 2 * mp.bCont.length + 2 := Nat.lt_succ_of_le ((weight_le _).trans (Nat.le_succ _))
    simp only [Mesg.blocks,weight,if_neg hne]
    exact Nat.add_lt_add_of_lt_of_le hrest (hcheck l)
  | @other mp l _ _ hl ht ht' hput =>
    have hleft : hd' = (⟨l,hd.strpri⟩ : Rdq).lisCheckMSig := hput.resolve_right fun h => Bool.noConfusion h.1
    rw [hl,hcons,hleft]
    have := hcheck l
    have := hpos mp
    omega

theorem Round.length_le (h : Round opt fault ulen hd bytes hd' bytes' again) (hb : bytes.length ≤ ulen) :
    bytes'.length ≤ ulen := by
  cases h with
  | @data mp l _ r _ hl ht hr hput hagain =>
    have hw := (readBlocks_walks fault bytes.length (ulen - bytes.length) mp.blocks).length
    rw [← hr] at hw
    rw [List.length_append]
    omega
  | _ => exact hb

theorem strreadLoop_total (fault : ℕ → Bool) (hb : bytes.length ≤ ulen) (hn : total (weight ·.blocks) hd.msgs < n)
    (b : Bool) : ∃ g, strreadLoop opt fault ulen n hd bytes b = some g := by
  induction n generalizing hd bytes b with
  | zero => cases hn
  | succ n ih =>
    obtain ⟨hd',bytes',again,hr,h⟩ := strreadLoop_round opt fault hd hb
    rcases h n b with ⟨-,ret,h⟩ | ⟨rfl,b',h⟩
    · exact ⟨_,h⟩
    · rw [h]
      exact ih (hr.length_le hb) (by have := hr.weight_lt; omega) b'

theorem lisStrread_total (opt : Rdopt) (fault : ℕ → Bool) (hd : Rdq) (u : ℕ) :
    ∃ g, lisStrread opt fault hd u = some g := by
  refine strreadLoop_total fault (Nat.zero_le _) (Nat.lt_succ_of_le ?_) false
  exact List.sum_le_sum fun mp _ => weight_le mp.blocks

/-! ### No byte comes twice -/

theorem ctl_ne_data {t : Uchar} (h : t = M_PCPROTO ∨ t = M_PROTO) : t ≠ M_DATA := by
  rcases h with rfl | rfl <;> decide

theorem wanted_ctl (hdat : opt.rprotdat = false) {b : Mblk} (ht : b.dbType ≠ M_DATA) (bs : List Mblk) :
    wanted opt (b :: bs) = wanted opt bs := by
  rw [wanted,wanted,hdat,dataBytes_cons,if_neg ht]
  rfl

theorem want_asData (hdat : opt.rprotdat = true) (mp : Mesg) : mp.asData.want opt = mp.want opt := by
  rw [Mesg.want,Mesg.want,wanted,wanted,hdat]
  rfl

theorem Walks.wanted_sublist {r : Copied} (h : Walks room bs r) (opt : Rdopt) :
    (r.bytes ++ wanted opt r.left).Sublist (wanted opt bs) := by
  rw [wanted,wanted]
  split_ifs
  · exact h.sub
  · exact h.bytes ▸ List.Sublist.refl _

theorem want_cleared (opt : Rdopt) (mp : Mesg) : mp.cleared.want opt = mp.want opt := by
  rw [Mesg.cleared]
  split_ifs
  · rw [Mesg.want,Mesg.want,wanted,wanted,Mesg.blocks,Mesg.blocks,dataBytes_cons,dataBytes_cons]
    rfl
  · rfl

theorem count_wantedAll (opt : Rdopt) (x : Uchar) (l : List Mesg) :
    (wantedAll opt l).count x = total (fun mp => (mp.want opt).count x) l := by
  rw [wantedAll,List.count_flatMap]
  rfl

/- What comes in a round and what is left are bytes that were there. -/
theorem Round.conserves (h : Round opt fault ulen hd bytes hd' bytes' again) :
    ∃ new, bytes' = bytes ++ new ∧ (new ++ wantedAll opt hd'.msgs).Subperm (wantedAll opt hd.msgs) := by
  suffices hcount : ∃ new, bytes' = bytes ++ new ∧ ∀ x, new.count x + total (fun mp => (mp.want opt).count x) hd'.msgs ≤
      total (fun mp => (mp.want opt).count x) hd.msgs by
    obtain ⟨new,hnew,hc⟩ := hcount
    refine ⟨new,hnew,List.subperm_iff_count.mpr fun x => ?_⟩
    rw [List.count_append,count_wantedAll,count_wantedAll]
    exact hc x
  have hcleared (x : Uchar) (mp : Mesg) : (mp.cleared.want opt).count x = (mp.want opt).count x := by rw [want_cleared]
  have hback (x : Uchar) (mp : Mesg) (hd : Rdq) : total (fun mp => (mp.want opt).count x) (hd.lisRequeue mp).msgs ≤
      (mp.want opt).count x + total (fun mp => (mp.want opt).count x) hd.msgs := total_requeue (hcleared x mp) hd
  have hcheck (x : Uchar) (l : List Mesg) : total (fun mp => (mp.want opt).count x)
      (⟨l,hd.strpri⟩ : Rdq).lisCheckMSig.msgs ≤ total (fun mp => (mp.want opt).count x) l := total_check _ _
  have hcons (x : Uchar) (mp : Mesg) (l : List Mesg) : total (fun mp => (mp.want opt).count x) (mp :: l) =
      (mp.want opt).count x + total (fun mp => (mp.want opt).count x) l := rfl
  cases h with
  | empty hl => exact ⟨[],(List.append_nil _).symm,fun x => (Nat.zero_add _).le⟩
  | @data mp l _ r _ hl ht hr hput hagain =>
    refine ⟨r.bytes,rfl,fun x => ?_⟩
    have hw : Walks (ulen - bytes.length) mp.blocks r := hr ▸ readBlocks_walks fault bytes.length _ mp.blocks
    have hsub := (hw.wanted_sublist opt).count_le x
    have hx := hcheck x l
    have hleft : total (fun mp => (mp.want opt).count x) hd'.msgs ≤
        (wanted opt r.left).count x + total (fun mp => (mp.want opt).count x) l := by
      rw [hput]
      split_ifs
      · exact hx.trans (Nat.le_add_left _ _)
      · exact (total_requeueLeft (g := fun bs => (wanted opt bs).count x) (fun _ => rfl) (hcleared x) _ _).trans
          (Nat.add_le_add_left hx _)
    rw [List.count_append] at hsub
    rw [hl,hcons,Mesg.want]
    omega
  | @conv mp l sp hl ht hn hdat =>
    refine ⟨[],(List.append_nil _).symm,fun x => ?_⟩
    have hput := hback x mp.asData { (⟨l,hd.strpri⟩ : Rdq).lisCheckMSig with strpri := sp }
    rw [want_asData hdat] at hput
    rw [hl,hcons,List.count_nil,Nat.zero_add]
    exact hput.trans (Nat.add_le_add_left (hcheck x l) _)
  | @drop mp l sp hl ht hn hdat =>
    refine ⟨[],(List.append_nil _).symm,fun x => ?_⟩
    have hput := total_requeueLeft (f := fun mp => (mp.want opt).count x) (g := fun bs => (wanted opt bs).count x)
      (fun _ => rfl) (hcleared x) { (⟨l,hd.strpri⟩ : Rdq).lisCheckMSig with strpri := sp } mp.bCont
    have hsame : mp.want opt = wanted opt mp.bCont := wanted_ctl hdat (ctl_ne_data ht) _
    rw [hl,hcons,hsame,List.count_nil,Nat.zero_add]
    exact hput.trans (Nat.add_le_add_left (hcheck x l) _)
  | @refuse mp l _ sp hl ht hn hput =>
    refine ⟨[],(List.append_nil _).symm,fun x => ?_⟩
    rw [hl,hcons,List.count_nil,Nat.zero_add]
    rcases hput with h | h
    · rw [h]
      exact (hcheck x l).trans (Nat.le_add_left _ _)
    · rw [h]
      exact (hback x mp _).trans (Nat.add_le_add_left (hcheck x l) _)
  | @other mp l _ _ hl ht ht' hput =>
    refine ⟨[],(List.append_nil _).symm,fun x => ?_⟩
    rw [hl,hcons,List.count_nil,Nat.zero_add]
    rcases hput with h | ⟨-,h⟩
    · rw [h]
      exact (hcheck x l).trans (Nat.le_add_left _ _)
    · rw [h]
      refine (total_check _ _).trans ?_
      exact (hback x mp _).trans (Nat.add_le_add_left (hcheck x l) _)

theorem subperm_step {a b c d e : List Uchar} (h : (a ++ c).Subperm d) (h' : (b ++ e).Subperm c) :
    ((a ++ b) ++ e).Subperm d := by
  rw [List.append_assoc]
  exact ((List.subperm_append_left a).mpr h').trans h

theorem strreadLoop_conserves (hb : bytes.length ≤ ulen) {b : Bool} {g : Got}
    (h : strreadLoop opt fault ulen n hd bytes b = some g) :
    ∃ new, g.bytes = bytes ++ new ∧ (new ++ wantedAll opt g.hd.msgs).Subperm (wantedAll opt hd.msgs) := by
  induction n generalizing hd bytes b with
  | zero => cases h
  | succ n ih =>
    obtain ⟨hd',bytes',again,hr,hloop⟩ := strreadLoop_round opt fault hd hb
    obtain ⟨new,hnew,hsub⟩ := hr.conserves
    rcases hloop n b with ⟨-,ret,hg⟩ | ⟨rfl,b',hg⟩
    · obtain rfl := Option.some.inj (hg.symm.trans h)
      exact ⟨new,hnew,hsub⟩
    · obtain ⟨more,hmore,hsub'⟩ := ih (hr.length_le hb) (hg.symm.trans h)
      refine ⟨new ++ more,?_,subperm_step hsub hsub'⟩
      rw [hmore,hnew,List.append_assoc]

theorem readCalls_cons {hd : Rdq} {c : ReadCall} {cs : List ReadCall} {g : Got} {r : Rdq × List Uchar}
    (hg : lisStrread opt c.fault hd c.ulen = some g) (hr : readCalls opt g.hd cs = some r) :
    readCalls opt hd (c :: cs) = some (r.1,g.bytes ++ r.2) := by
  rw [readCalls,hg,Option.bind_some,hr]
  rfl

theorem readCalls_conserves (opt : Rdopt) (hd : Rdq) (cs : List ReadCall) : ∃ r, readCalls opt hd cs = some r ∧
    (r.2 ++ wantedAll opt r.1.msgs).Subperm (wantedAll opt hd.msgs) := by
  induction cs generalizing hd with
  | nil => exact ⟨_,rfl,List.Subperm.refl _⟩
  | cons c cs ih =>
    obtain ⟨g,hg⟩ := lisStrread_total opt c.fault hd c.ulen
    obtain ⟨new,hnew,hsub⟩ := strreadLoop_conserves (Nat.zero_le _) hg
    obtain ⟨r,hr,hsub'⟩ := ih g.hd
    refine ⟨_,readCalls_cons hg hr,?_⟩
    rw [hnew,List.nil_append]
    exact subperm_step hsub hsub'

end Total

end CSLiS.Head
