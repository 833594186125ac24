import CSLiS.Buffer.InUse

/-!
# The bytes of a message that is pulled up (head/msgutl.c)

`lis_pullupmsg` copies the first bytes of a message into a new buffer and frees the blocks that are empty then. Here
the buffers have contents, and a message is what one reads through its blocks.
-/

namespace CSLiS.Buffer
open Queue Lib.Refs Lib.Exec

/-- Memory with what is in its buffers, by position. -/
structure Store where
  mem : Mem
  byte : ℕ → ℤ → Uchar

namespace Store

/-- `MEMCPY(newbp->b_wptr, tmpbp->b_rptr, n)` -/
def memcpy (s : Store) (newbp bp : ℕ) (n : ℤ) : Store :=
  match (s.mem.mdb newbp).bBuf,(s.mem.mdb bp).bBuf with
  | some d, some b =>
      let w := (s.mem.mdb newbp).bWptr
      let r := (s.mem.mdb bp).bRptr
      { s with byte := Function.update s.byte d fun k => if w ≤ k ∧ k < w + n then s.byte b (r + (k - w)) else s.byte d k }
  | _, _ => s

/-- What the loop of `lis_pullupmsg` copies from a block (`msgutl.c:427-435`). -/
def copyBlk (s : Store) (newbp bp : ℕ) (length : ℤ) : Store × ℤ :=
  let c := s.mem.copyBlk newbp bp length
  (⟨c.1,if 0 < s.mem.nbytes bp then (s.memcpy newbp bp (min (s.mem.nbytes bp) length)).byte else s.byte⟩,c.2)

/-- The copying loop of `lis_pullupmsg` (`msgutl.c:422-449`) at a block. -/
def pullLoop (newbp : ℕ) : Bool → Store → ℤ → List ℕ → Store × List ℕ
  | _, s, _, [] => (s,[])
  | isFirst, s, length, bp :: rest =>
      if length ≤ 0 || s.mem.dbType bp != s.mem.dbType newbp then (s,bp :: rest)
      else
        let c := s.copyBlk newbp bp length
        if !isFirst && c.1.mem.nbytes bp == 0 then
          pullLoop newbp false { c.1 with mem := c.1.mem.lisFreeb bp } c.2 rest
        else
          let r := pullLoop newbp false c.1 c.2 rest
          (r.1,bp :: r.2)

/-- `lis_pullupmsg` (`msgutl.c:378-484`) of a message that starts with `mp`. -/
def lisPullupmsg (s : Store) (mp : ℕ) (rest : List ℕ) (length : ℤ) (aligned hdr buf : Bool) :
    Store × Bool × List ℕ :=
  match s.mem.pullLength mp rest length aligned with
  | .error rtn => (s,rtn,mp :: rest)
  | .ok length =>
      match s.mem.lisAllocb (Mem.pullSize length) hdr buf with
      | (m,none) => ({ s with mem := m },false,mp :: rest)
      | (m,some newbp) =>
          let r := pullLoop newbp true { s with mem := m.setType newbp (m.dbType mp) } length (mp :: rest)
          ({ r.1 with mem := r.1.mem.swap mp newbp },true,r.2)

/- What is read through a block, each byte with its type. -/
def read (s : Store) (bp : ℕ) : List (Uchar × Uchar) :=
  match (s.mem.mdb bp).bBuf with
  | none => []
  | some d => (List.range (s.mem.nbytes bp).toNat).map fun i : ℕ => (s.mem.dbType bp,s.byte d ((s.mem.mdb bp).bRptr + i))

def readMsg (s : Store) (mp : List ℕ) : List (Uchar × Uchar) := mp.flatMap s.read

variable {s t : Store} {b n x : ℕ} {mp : ℕ} {rest blks : List ℕ} {length : ℤ} {isFirst aligned hdr buf : Bool}

/- The bytes aside, this is the routine of the model without contents. -/
theorem pullLoop_mem : (pullLoop n isFirst s length blks).1.mem = (Mem.pullLoop n isFirst s.mem length blks).1 ∧
    (pullLoop n isFirst s length blks).2 = (Mem.pullLoop n isFirst s.mem length blks).2 := by
  induction blks generalizing isFirst s length with
  | nil => exact ⟨rfl,rfl⟩
  | cons b blks ih =>
    simp only [pullLoop,Mem.pullLoop]
    split_ifs with h1 h2 h3 h3
    · exact ⟨rfl,rfl⟩
    · exact ih
    · exact absurd h2 h3
    · exact absurd h3 h2
    · exact ⟨ih.1,congrArg _ ih.2⟩

theorem lisPullupmsg_mem : (s.lisPullupmsg mp rest length aligned hdr buf).1.mem =
    (s.mem.lisPullupmsg mp rest length aligned hdr buf).1 := by
  simp only [lisPullupmsg,Mem.lisPullupmsg]
  cases s.mem.pullLength mp rest length aligned with
  | error r => rfl
  | ok len =>
    dsimp only
    rcases s.mem.lisAllocb (Mem.pullSize len) hdr buf with ⟨m,_ | d⟩
    · rfl
    · dsimp only
      rw [pullLoop_mem.1]

end Store

section View

variable {s : Mem} {b x d : ℕ}

/- What of a header is read with its block, or through the blocks that point to its data block. -/
def Mem.look (s : Mem) (x : ℕ) : Option ℕ × ℤ × ℤ × Uchar :=
  ((s.mdb x).bBuf,(s.mdb x).bRptr,(s.mdb x).bWptr,(s.mdb x).dbType)

theorem look_upd {f : Mdb → Mdb} (h : ∀ m, (f m).bBuf = m.bBuf ∧ (f m).bRptr = m.bRptr ∧ (f m).bWptr = m.bWptr ∧
    (f m).dbType = m.dbType) : (s.upd d f).look = s.look := by
  funext x
  obtain ⟨h1,h2,h3,h4⟩ := h (s.mdb d)
  simp only [Mem.look,Mem.upd_mdb]
  split_ifs with hx
  · rw [h1,h2,h3,h4,hx]
  · rfl

theorem incRef_look : (s.incRef d).look = s.look := look_upd fun _ => ⟨rfl,rfl,rfl,rfl⟩
theorem decRef_look : (s.decRef d).look = s.look := look_upd fun _ => ⟨rfl,rfl,rfl,rfl⟩
theorem setDatap_look (e : Option ℕ) : (s.setDatap d e).look = s.look := look_upd fun _ => ⟨rfl,rfl,rfl,rfl⟩
theorem freehdr_look : (s.freehdr d).look = s.look := rfl
theorem releaseBuf_look : (s.releaseBuf d).look = s.look := by
  obtain ⟨size,base,rel,he,-⟩ := Mem.releaseBuf_eq (s := s) (x := d)
  rw [he]
  exact look_upd (f := fun m => { m with dbSize := size, dbBase := base }) fun _ => ⟨rfl,rfl,rfl,rfl⟩

/- Giving a data block up changes nothing that is read. -/
theorem lisFreedb_look (freeHdr : Bool) : (s.lisFreedb b freeHdr).look = s.look := by
  unfold Mem.lisFreedb
  split
  · split_ifs <;> simp only [freehdr_look,decRef_look]
  · dsimp only
    split_ifs <;> simp only [freehdr_look,decRef_look,incRef_look,setDatap_look,releaseBuf_look]

theorem lisFreedb_live (freeHdr : Bool) : (s.lisFreedb b freeHdr).live = s.live := by
  have hrel : ∀ (s : Mem) d, (s.releaseBuf d).live = s.live := by
    intro s d
    obtain ⟨size,base,rel,he,-⟩ := Mem.releaseBuf_eq (s := s) (x := d)
    rw [he]
    rfl
  have hupd : ∀ (s : Mem) d, (s.incRef d).live = s.live ∧ (s.decRef d).live = s.live ∧ (s.freehdr d).live = s.live ∧
      (s.setDatap b d).live = s.live := fun _ _ => ⟨rfl,rfl,rfl,rfl⟩
  unfold Mem.lisFreedb
  split
  · split_ifs <;> simp only [hupd]
  · dsimp only
    split_ifs <;> simp only [hupd,hrel]

theorem lisFreedb_datap (freeHdr : Bool) (hx : x ≠ b) : (s.lisFreedb b freeHdr).datap x = s.datap x := by
  have hupd : ∀ (s : Mem) (d : ℕ) (f : Mdb → Mdb), (∀ m, (f m).bDatap = m.bDatap) → (s.upd d f).datap x = s.datap x := by
    intro s d f hf
    simp only [Mem.datap,Mem.upd_mdb]
    split_ifs with h
    · rw [hf,h]
    · rfl
  have hrel : ∀ (s : Mem) d, (s.releaseBuf d).datap x = s.datap x := by
    intro s d
    obtain ⟨size,base,rel,he,-⟩ := Mem.releaseBuf_eq (s := s) (x := d)
    rw [he]
    exact hupd s d (fun m => { m with dbSize := size, dbBase := base }) fun _ => rfl
  have hinc : ∀ (s : Mem) d, (s.incRef d).datap x = s.datap x := fun s d => hupd s d _ fun _ => rfl
  have hdec : ∀ (s : Mem) d, (s.decRef d).datap x = s.datap x := fun s d => hupd s d _ fun _ => rfl
  have hset : ∀ (s : Mem) d, (s.setDatap b d).datap x = s.datap x := by
    intro s d
    simp only [Mem.setDatap,Mem.datap,Mem.upd_mdb,if_neg hx]
  have hfree : ∀ (s : Mem) d, (s.freehdr d).datap x = s.datap x := fun _ _ => rfl
  unfold Mem.lisFreedb
  split
  · split_ifs <;> simp only [hfree,hdec]
  · dsimp only
    split_ifs <;> simp only [hfree,hdec,hinc,hset,hrel]

end View

namespace Store

variable {s t : Store} {b n x d : ℕ} {mp : ℕ} {rest blks : List ℕ} {length k : ℤ} {isFirst aligned hdr buf : Bool}

/- A block through which the same is read as before, by the same pointers. -/
structure Same (s t : Store) (x : ℕ) : Prop where
  datap : t.mem.datap x = s.mem.datap x
  buf : (t.mem.mdb x).bBuf = (s.mem.mdb x).bBuf
  rptr : (t.mem.mdb x).bRptr = (s.mem.mdb x).bRptr
  wptr : (t.mem.mdb x).bWptr = (s.mem.mdb x).bWptr
  type : t.mem.dbType x = s.mem.dbType x
  byte : ∀ d, (s.mem.mdb x).bBuf = some d → t.byte d = s.byte d

theorem Same.nbytes (h : Same s t x) : t.mem.nbytes x = s.mem.nbytes x := by
  unfold Mem.nbytes
  rw [h.rptr,h.wptr]

theorem Same.read (h : Same s t x) : t.read x = s.read x := by
  unfold Store.read
  rw [h.buf,h.nbytes,h.rptr,h.type]
  cases hb : (s.mem.mdb x).bBuf with
  | none => rfl
  | some d =>
    dsimp only
    rw [h.byte d hb]

theorem Same.trans {u : Store} (h : Same s t x) (h' : Same t u x) : Same s u x :=
  ⟨h'.datap.trans h.datap,h'.buf.trans h.buf,h'.rptr.trans h.rptr,h'.wptr.trans h.wptr,h'.type.trans h.type,
    fun d hd => (h'.byte d (h.buf.trans hd)).trans (h.byte d hd)⟩

theorem readMsg_congr (h : ∀ x ∈ blks, Same s t x) : t.readMsg blks = s.readMsg blks :=
  List.flatMap_congr fun x hx => (h x hx).read

/- The type of a block is that of its data block. -/
theorem dbType_congr {s t : Mem} (hd : t.datap x = s.datap x) (hl : t.look = s.look) : t.dbType x = s.dbType x := by
  have hty : ∀ d, (t.mdb d).dbType = (s.mdb d).dbType := fun d => congrArg (·.2.2.2) (congrFun hl d)
  unfold Mem.dbType
  have hd' : (t.mdb x).bDatap = (s.mdb x).bDatap := hd
  rw [hd']
  cases (s.mdb x).bDatap with
  | none => rfl
  | some d => exact hty d

theorem same_of_look {m : Mem} (hd : m.datap x = s.mem.datap x) (hl : m.look = s.mem.look) :
    Same s { s with mem := m } x := by
  have hx := congrFun hl x
  simp only [Mem.look,Prod.mk.injEq] at hx
  exact ⟨hd,hx.1,hx.2.1,hx.2.2.1,dbType_congr hd hl,fun _ _ => rfl⟩

theorem freeb_same (hx : x ≠ b) : Same s { s with mem := s.mem.lisFreeb b } x :=
  same_of_look (lisFreedb_datap true hx) (lisFreedb_look (s := s.mem) (b := b) true)

/- The block whose buffer is filled: the only one that points into it. -/
structure Target (s : Store) (n : ℕ) : Prop where
  live : n ∈ s.mem.live
  nodup : s.mem.live.Nodup
  buf : (s.mem.mdb n).bBuf = some n
  datap : s.mem.datap n = some n
  alone : ∀ x ∈ s.mem.live, x ≠ n → (s.mem.mdb x).bBuf ≠ some n
  filled : 0 ≤ s.mem.nbytes n

/- What the copy does to the two blocks, and to the others. -/
theorem copyBlk_pos (n : ℕ) (length : ℤ) (h0 : 0 < s.mem.nbytes b) :
    (s.copyBlk n b length).1.mem = (s.mem.setPtrs b ((s.mem.mdb b).bRptr + min (s.mem.nbytes b) length)
        (s.mem.mdb b).bWptr).setPtrs n (s.mem.mdb n).bRptr ((s.mem.mdb n).bWptr + min (s.mem.nbytes b) length) ∧
      (s.copyBlk n b length).2 = length - min (s.mem.nbytes b) length := by
  unfold copyBlk Mem.copyBlk
  rw [if_pos h0]
  exact ⟨rfl,rfl⟩

theorem copyBlk_zero (h0 : ¬ 0 < s.mem.nbytes b) : s.copyBlk n b length = (s,length) := by
  unfold copyBlk Mem.copyBlk
  rw [if_neg h0,if_neg h0]

theorem setPtrs_mdb (s : Mem) (b x : ℕ) (r w : ℤ) : ((s.setPtrs b r w).mdb x).bBuf = (s.mdb x).bBuf ∧
    (s.setPtrs b r w).datap x = s.datap x ∧ (s.setPtrs b r w).dbType x = s.dbType x ∧
    ((s.setPtrs b r w).mdb x).bRptr = (if x = b then r else (s.mdb x).bRptr) ∧
    ((s.setPtrs b r w).mdb x).bWptr = (if x = b then w else (s.mdb x).bWptr) := by
  have hty : ∀ d, ((s.setPtrs b r w).mdb d).dbType = (s.mdb d).dbType := by
    intro d
    simp only [Mem.setPtrs,Mem.upd_mdb]
    split_ifs with h
    · rw [h]
    · rfl
  have hd : ((s.setPtrs b r w).mdb x).bDatap = (s.mdb x).bDatap := by
    simp only [Mem.setPtrs,Mem.upd_mdb]
    split_ifs with h
    · rw [h]
    · rfl
  refine ⟨?_,hd,?_,?_,?_⟩
  · simp only [Mem.setPtrs,Mem.upd_mdb]
    split_ifs with h
    · rw [h]
    · rfl
  · unfold Mem.dbType
    rw [hd]
    cases (s.mdb x).bDatap with
    | none => rfl
    | some d => exact hty d
  · simp only [Mem.setPtrs,Mem.upd_mdb]
    split_ifs <;> rfl
  · simp only [Mem.setPtrs,Mem.upd_mdb]
    split_ifs <;> rfl

/- A copy of `k` bytes from the front of `b`. -/
structure Copied (s t : Store) (n b : ℕ) (k : ℤ) : Prop where
  live : t.mem.live = s.mem.live
  buf : ∀ x, (t.mem.mdb x).bBuf = (s.mem.mdb x).bBuf
  datap : ∀ x, t.mem.datap x = s.mem.datap x
  type : ∀ x, t.mem.dbType x = s.mem.dbType x
  rptr : ∀ x, (t.mem.mdb x).bRptr = (s.mem.mdb x).bRptr + if x = b then k else 0
  wptr : ∀ x, (t.mem.mdb x).bWptr = (s.mem.mdb x).bWptr + if x = n then k else 0
  byte : ∀ d ≠ n, t.byte d = s.byte d
  filled : ∀ d, (s.mem.mdb b).bBuf = some d → ∀ i, t.byte n i =
    if (s.mem.mdb n).bWptr ≤ i ∧ i < (s.mem.mdb n).bWptr + k then
      s.byte d ((s.mem.mdb b).bRptr + (i - (s.mem.mdb n).bWptr)) else s.byte n i

theorem copyBlk_copied (hn : (s.mem.mdb n).bBuf = some n) (hb : ∃ d, (s.mem.mdb b).bBuf = some d) (hbn : b ≠ n)
    (hnb : 0 ≤ s.mem.nbytes b) (hlen : 0 ≤ length) :
    Copied s (s.copyBlk n b length).1 n b (min (s.mem.nbytes b) length) ∧
      (s.copyBlk n b length).2 = length - min (s.mem.nbytes b) length := by
  obtain ⟨d,hd⟩ := hb
  by_cases h0 : 0 < s.mem.nbytes b
  · obtain ⟨hmem,hlen⟩ := copyBlk_pos n length h0
    have hbyte : (s.copyBlk n b length).1.byte = (s.memcpy n b (min (s.mem.nbytes b) length)).byte := if_pos h0
    have hcpy : (s.memcpy n b (min (s.mem.nbytes b) length)).byte = Function.update s.byte n fun k =>
        if (s.mem.mdb n).bWptr ≤ k ∧ k < (s.mem.mdb n).bWptr + min (s.mem.nbytes b) length then
          s.byte d ((s.mem.mdb b).bRptr + (k - (s.mem.mdb n).bWptr)) else s.byte n k := by
      simp only [memcpy,hn,hd]
    have hfst := fun x => setPtrs_mdb s.mem b x ((s.mem.mdb b).bRptr + min (s.mem.nbytes b) length) (s.mem.mdb b).bWptr
    have hsnd := fun x => setPtrs_mdb (s.mem.setPtrs b ((s.mem.mdb b).bRptr + min (s.mem.nbytes b) length)
      (s.mem.mdb b).bWptr) n x (s.mem.mdb n).bRptr ((s.mem.mdb n).bWptr + min (s.mem.nbytes b) length)
    rw [← hmem] at hsnd
    refine ⟨⟨by rw [hmem]; rfl,fun x => ?_,fun x => ?_,fun x => ?_,fun x => ?_,fun x => ?_,fun e he => ?_,?_⟩,hlen⟩
    · rw [(hsnd x).1,(hfst x).1]
    · rw [(hsnd x).2.1,(hfst x).2.1]
    · rw [(hsnd x).2.2.1,(hfst x).2.2.1]
    · rw [(hsnd x).2.2.2.1,(hfst x).2.2.2.1]
      by_cases hx : x = n
      · subst hx
        rw [if_pos rfl,if_neg hbn.symm,add_zero]
      · rw [if_neg hx]
        split_ifs with h
        · rw [h]
        · rw [add_zero]
    · rw [(hsnd x).2.2.2.2,(hfst x).2.2.2.2]
      split_ifs with h h'
      · rw [h]
      · rw [h',add_zero]
      · rw [add_zero]
    · rw [hbyte,hcpy,Function.update_of_ne he]
    · intro e he i
      obtain rfl : d = e := Option.some.inj (hd.symm.trans he)
      rw [hbyte,hcpy,Function.update_self]
  · have hz : min (s.mem.nbytes b) length = 0 := by omega
    rw [copyBlk_zero h0,hz]
    refine ⟨⟨rfl,fun _ => rfl,fun _ => rfl,fun _ => rfl,fun x => by simp,fun x => by simp,fun _ _ => rfl,?_⟩,by simp⟩
    intro e _ i
    rw [if_neg (by omega)]

theorem Copied.nbytes {k : ℤ} (h : Copied s t n b k) (hbn : b ≠ n) :
    t.mem.nbytes n = s.mem.nbytes n + k ∧ t.mem.nbytes b = s.mem.nbytes b - k := by
  unfold Mem.nbytes
  rw [h.rptr,h.rptr,h.wptr,h.wptr,if_neg hbn.symm,if_pos rfl,if_pos rfl,if_neg hbn]
  exact ⟨by omega,by omega⟩

theorem Copied.same {k : ℤ} (h : Copied s t n b k) (hxn : x ≠ n) (hxb : x ≠ b) (hbuf : (s.mem.mdb x).bBuf ≠ some n) :
    Same s t x := by
  refine ⟨h.datap x,h.buf x,?_,?_,h.type x,fun d hd => h.byte d ?_⟩
  · rw [h.rptr,if_neg hxb,add_zero]
  · rw [h.wptr,if_neg hxn,add_zero]
  · rintro rfl
    exact hbuf hd

theorem range_add_map {α : Type*} (f : ℕ → α) (a k : ℕ) : (List.range (a + k)).map f =
    (List.range a).map f ++ (List.range k).map fun i => f (a + i) := by
  rw [List.range_add,List.map_append,List.map_map]
  rfl

/-- What is copied stands at the end of the one block instead of at the front of the other. -/
theorem Copied.read {k : ℤ} (h : Copied s t n b k) (hn : (s.mem.mdb n).bBuf = some n) (hb : (s.mem.mdb b).bBuf = some d)
    (hdn : d ≠ n) (hbn : b ≠ n) (hk : 0 ≤ k) (hkb : k ≤ s.mem.nbytes b) (hnn : 0 ≤ s.mem.nbytes n)
    (htype : s.mem.dbType b = s.mem.dbType n) : t.read n ++ t.read b = s.read n ++ s.read b := by
  obtain ⟨hcn,hcb⟩ := h.nbytes hbn
  obtain ⟨j,rfl⟩ := Int.eq_ofNat_of_zero_le hk
  have hnew : (s.mem.nbytes n + j).toNat = (s.mem.nbytes n).toNat + j := by omega
  have hold : (s.mem.nbytes b).toNat = j + (s.mem.nbytes b - j).toNat := by omega
  unfold Store.read
  simp only [h.buf,hn,hb,hcn,hcb,hnew,h.type,h.rptr,h.byte d hdn,if_neg hbn.symm,if_true,add_zero]
  rw [hold,range_add_map,range_add_map,List.append_assoc]
  have hfill := h.filled d hb
  unfold Mem.nbytes at hnn hnew ⊢
  congr 1
  · refine List.map_congr_left fun i hi => ?_
    have hi := List.mem_range.mp hi
    rw [hfill,if_neg (by omega)]
  · congr 1
    · refine List.map_congr_left fun i hi => ?_
      have hi := List.mem_range.mp hi
      rw [hfill,if_pos (by omega),htype]
      congr 2
      omega
    · refine List.map_congr_left fun i _ => ?_
      congr 2
      push_cast
      omega

theorem Target.copied {k : ℤ} (h : Target s n) (hc : Copied s t n b k) (hbn : b ≠ n) (hk : 0 ≤ k) : Target t n := by
  refine ⟨hc.live.symm ▸ h.live,hc.live.symm ▸ h.nodup,(hc.buf n).trans h.buf,(hc.datap n).trans h.datap,
    fun x hx hne => ?_,?_⟩
  · rw [hc.buf]
    exact h.alone x (hc.live ▸ hx) hne
  · have := h.filled
    rw [(hc.nbytes hbn).1]
    omega

theorem Target.freed (h : Target s n) (hbn : b ≠ n) : Target { s with mem := s.mem.lisFreeb b } n := by
  have hsame := freeb_same (s := s) hbn.symm
  refine ⟨(List.mem_erase_of_ne hbn.symm).mpr h.live,h.nodup.erase b,hsame.buf.trans h.buf,hsame.datap.trans h.datap,
    fun x hx hne => ?_,?_⟩
  · have hlook := congrArg (·.1) (congrFun (lisFreedb_look (s := s.mem) (b := b) true) x)
    have hbuf : ((s.mem.lisFreeb b).mdb x).bBuf = (s.mem.mdb x).bBuf := hlook
    show ((s.mem.lisFreeb b).mdb x).bBuf ≠ some n
    rw [hbuf]
    exact h.alone x (List.mem_of_mem_erase hx) hne
  · rw [hsame.nbytes]
    exact h.filled

/- The bytes of the leading blocks of a type. -/
def lead (s : Mem) (t : Uchar) (mp : List ℕ) : ℤ := ((mp.takeWhile fun b => s.dbType b == t).map s.nbytes).sum

/- Blocks of a message other than the one that is filled. -/
def Source (s : Store) (n : ℕ) (b : ℕ) : Prop :=
  b ∈ s.mem.live ∧ b ≠ n ∧ 0 ≤ s.mem.nbytes b ∧ ∃ d, (s.mem.mdb b).bBuf = some d

theorem lead_nonneg (m : Mem) (ty : Uchar) (h : ∀ b ∈ blks, 0 ≤ m.nbytes b) : 0 ≤ lead m ty blks := by
  refine List.sum_nonneg fun z hz => ?_
  obtain ⟨b,hb,rfl⟩ := List.mem_map.mp hz
  exact h b ((List.takeWhile_sublist _).subset hb)

theorem lead_cons {m : Mem} {ty : Uchar} : lead m ty (b :: blks) =
    if m.dbType b = ty then m.nbytes b + lead m ty blks else 0 := by
  unfold lead
  rw [List.takeWhile_cons]
  by_cases h : m.dbType b = ty
  · simp [h]
  · simp [h]

theorem lead_congr {ty : Uchar} (h : ∀ b ∈ blks, Same s t b) : lead t.mem ty blks = lead s.mem ty blks := by
  induction blks with
  | nil => rfl
  | cons b blks ih =>
    have hb := h b (List.mem_cons_self ..)
    rw [lead_cons,lead_cons,hb.type,hb.nbytes,ih fun x hx => h x (List.mem_cons_of_mem _ hx)]

/- What the loop does behind the first block: as many of the bytes as there are, up to `length`, are in the new block,
and what one reads through it and the rest together is the same. -/
structure Moved (s : Store) (n : ℕ) (length : ℤ) (blks : List ℕ) (r : Store × List ℕ) : Prop where
  target : Target r.1 n
  read : r.1.read n ++ r.1.readMsg r.2 = s.read n ++ s.readMsg blks
  nbytes : r.1.mem.nbytes n = s.mem.nbytes n + min length (lead s.mem (s.mem.dbType n) blks)
  type : r.1.mem.dbType n = s.mem.dbType n
  others : ∀ x ∈ s.mem.live, x ≠ n → x ∉ blks → x ∈ r.1.mem.live ∧ Same s r.1 x
  live : ∀ x ∈ r.2, x ∈ blks ∧ x ∈ r.1.mem.live

theorem Source.same (h : Source s n b) (hs : Same s t b) (hl : b ∈ t.mem.live) : Source t n b := by
  obtain ⟨-,hne,hnb,d,hd⟩ := h
  exact ⟨hl,hne,hs.nbytes ▸ hnb,d,hs.buf.trans hd⟩

theorem same_refl : Same s s x := ⟨rfl,rfl,rfl,rfl,rfl,fun _ _ => rfl⟩

theorem pullLoop_done (h : length ≤ 0) : pullLoop n isFirst s length blks = (s,blks) := by
  cases blks with
  | nil => rfl
  | cons b blks =>
    unfold pullLoop
    rw [if_pos (by simp [h])]

theorem read_empty (h : s.mem.nbytes b = 0) : s.read b = [] := by
  unfold read
  rw [h]
  cases (s.mem.mdb b).bBuf <;> rfl

theorem readMsg_cons : s.readMsg (b :: blks) = s.read b ++ s.readMsg blks := List.flatMap_cons

theorem moved_done (ht : Target s n) (hm : ∀ b ∈ blks, Source s n b)
    (h : length = 0 ∨ 0 ≤ length ∧ lead s.mem (s.mem.dbType n) blks = 0) : Moved s n length blks (s,blks) := by
  have hlead := lead_nonneg s.mem (s.mem.dbType n) fun x hx => (hm x hx).2.2.1
  refine ⟨ht,rfl,?_,rfl,fun x hx _ _ => ⟨hx,same_refl⟩,fun x hx => ⟨hx,(hm x hx).1⟩⟩
  dsimp only
  omega

theorem pullLoop_moved (ht : Target s n) (hnd : blks.Nodup) (hm : ∀ b ∈ blks, Source s n b) (hlen : 0 ≤ length) :
    Moved s n length blks (pullLoop n false s length blks) := by
  induction blks generalizing s length with
  | nil => exact moved_done ht hm (Or.inr ⟨hlen,rfl⟩)
  | cons b blks ih =>
    obtain ⟨hb,hnd⟩ := List.nodup_cons.mp hnd
    obtain ⟨hbl,hbn,hnb,d,hd⟩ := hm b (List.mem_cons_self ..)
    have hrest := fun x hx => hm x (List.mem_cons_of_mem b hx)
    have hlead := lead_nonneg s.mem (s.mem.dbType n) fun x hx => (hrest x hx).2.2.1
    have hdn : d ≠ n := fun h => ht.alone b hbl hbn (hd.trans (congrArg some h))
    unfold pullLoop
    by_cases h1 : (decide (length ≤ 0) || s.mem.dbType b != s.mem.dbType n) = true
    · rw [if_pos h1]
      refine moved_done ht hm ?_
      simp only [Bool.or_eq_true,decide_eq_true_eq,bne_iff_ne] at h1
      rcases h1 with h1 | h1
      · exact Or.inl (by omega)
      · exact Or.inr ⟨hlen,by rw [lead_cons,if_neg h1]⟩
    · rw [if_neg h1]
      simp only [Bool.or_eq_true,decide_eq_true_eq,bne_iff_ne,not_or,not_le,not_not] at h1
      obtain ⟨hpos,hty⟩ := h1
      obtain ⟨hc,hleft⟩ := copyBlk_copied ht.buf ⟨d,hd⟩ hbn hnb hlen
      generalize s.copyBlk n b length = c at hc hleft ⊢
      obtain ⟨hcn,hcb⟩ := hc.nbytes hbn
      have htc := ht.copied hc hbn (by omega)
      have hread := hc.read ht.buf hd hdn hbn (by omega) (by omega) ht.filled hty
      have hother : ∀ x ∈ s.mem.live, x ≠ n → x ≠ b → Same s c.1 x := fun x hx hxn hxb =>
        hc.same hxn hxb (ht.alone x hx hxn)
      have hblks : ∀ x ∈ blks, Same s c.1 x := fun x hx =>
        hother x (hrest x hx).1 (hrest x hx).2.1 fun h => hb (h ▸ hx)
      have hmsg := readMsg_congr hblks
      dsimp only
      by_cases h2 : (!false && c.1.mem.nbytes b == 0) = true
      · -- all of the block is copied: it leaves the message
        rw [if_pos h2]
        have hzero : c.1.mem.nbytes b = 0 := by simpa using h2
        have htf := htc.freed hbn
        have hfree : ∀ x ≠ b, Same c.1 { c.1 with mem := c.1.mem.lisFreeb b } x := fun x hx => freeb_same hx
        have hlive : ∀ x ∈ s.mem.live, x ≠ b →
            x ∈ ({ c.1 with mem := c.1.mem.lisFreeb b } : Store).mem.live := fun x hx hxb =>
          (List.mem_erase_of_ne hxb).mpr (hc.live.symm ▸ hx)
        generalize { c.1 with mem := c.1.mem.lisFreeb b : Store } = u at htf hfree hlive ⊢
        have hall : ∀ x ∈ blks, Same s u x := fun x hx => (hblks x hx).trans (hfree x fun h => hb (h ▸ hx))
        have hsrc : ∀ x ∈ blks, Source u n x := fun x hx =>
          (hrest x hx).same (hall x hx) (hlive x (hrest x hx).1 fun h => hb (h ▸ hx))
        have hn := hfree n hbn.symm
        obtain ⟨hr1,hr2,hr3,hr4,hr5,hr6⟩ := ih htf hnd hsrc (by omega : 0 ≤ c.2)
        rw [hn.type,hc.type,lead_congr hall,hn.nbytes,hcn] at hr3
        refine ⟨hr1,?_,?_,?_,fun x hx hxn hxb => ?_,fun x hx => ?_⟩
        · rw [hr2,hn.read,readMsg_congr hall,readMsg_cons,← List.append_assoc,← hread,read_empty hzero,List.append_nil]
        · rw [hr3,lead_cons,if_pos hty]
          omega
        · rw [hr4,hn.type,hc.type]
        · obtain ⟨hne,hnot⟩ := not_or.mp (mt List.mem_cons.mpr hxb)
          obtain ⟨hl,hs⟩ := hr5 x (hlive x hx hne) hxn hnot
          exact ⟨hl,((hother x hx hxn hne).trans (hfree x hne)).trans hs⟩
        · exact ⟨List.mem_cons_of_mem _ (hr6 x hx).1,(hr6 x hx).2⟩
      · -- some of it stays: nothing is left to be copied
        rw [if_neg h2]
        have hsome : c.1.mem.nbytes b ≠ 0 := by simpa using h2
        have hdone : c.2 = 0 := by omega
        rw [pullLoop_done hdone.le]
        refine ⟨htc,?_,?_,hc.type n,fun x hx hxn hxb => ?_,fun x hx => ?_⟩
        · dsimp only
          rw [readMsg_cons,readMsg_cons,hmsg,← List.append_assoc,hread,List.append_assoc]
        · dsimp only
          rw [hcn,lead_cons,if_pos hty]
          omega
        · exact ⟨hc.live.symm ▸ hx,hother x hx hxn fun h => hxb (h ▸ List.mem_cons_self ..)⟩
        · exact ⟨hx,hc.live.symm ▸ (hm x hx).1⟩

section Fresh

/- Memory with the new block `n`, of the type of the first block of the message. -/
structure Fresh (s u : Store) (n mp : ℕ) : Prop where
  target : Target u n
  live : u.mem.live = n :: s.mem.live
  empty : u.mem.nbytes n = 0
  type : u.mem.dbType n = s.mem.dbType mp
  same : ∀ x ∈ s.mem.live, x ≠ n ∧ Same s u x

theorem pullSize_gt (length : ℤ) : FASTBUF < Mem.pullSize length := by
  unfold Mem.pullSize
  split_ifs <;> omega

theorem lisAllocb_outside {m : Mem} (length : ℤ) : m.lisAllocb (Mem.pullSize length) hdr buf =
    if hdr = false then (m,none) else if buf = false then ({ m with next := m.next + 1 }.freehdr m.next,none)
    else (m.initb true (Mem.pullSize length) false,some m.next) := by
  unfold Mem.lisAllocb
  have hgt := pullSize_gt length
  cases hdr <;> cases buf <;> simp [hgt]

theorem fresh (hh : s.mem.Headers) (hm : mp ∈ s.mem.live) (size : ℕ) :
    Fresh s ⟨(s.mem.initb true size false).setType s.mem.next ((s.mem.initb true size false).dbType mp),s.byte⟩
      s.mem.next mp := by
  generalize hi : s.mem.initb true size false = m
  have hmdb : ∀ x, m.mdb x = if x = s.mem.next then
      ⟨some s.mem.next,some s.mem.next,0,0,false,some s.mem.next,1,M_DATA,size⟩ else s.mem.mdb x := by
    intro x
    rw [← hi,Mem.initb_mdb,if_pos rfl]
  have hset : ∀ ty, m.setType s.mem.next ty = m.upd s.mem.next fun b => { b with dbType := ty } := by
    intro ty
    unfold Mem.setType
    rw [hmdb,if_pos rfl]
    rfl
  have hold : ∀ x ∈ s.mem.live, x ≠ s.mem.next := fun x hx => (hh.lt x hx).ne
  have hdt : ∀ ty, ∀ x ∈ s.mem.live, (m.upd s.mem.next fun b => { b with dbType := ty }).dbType x = s.mem.dbType x ∧
      m.dbType x = s.mem.dbType x := by
    intro ty x hx
    obtain ⟨d,hlt,hd,-⟩ := hh.datap x hx
    have hd' : (s.mem.mdb x).bDatap = some d := hd
    simp only [Mem.dbType,Mem.upd_mdb,hmdb,if_neg (hold x hx),hd',Option.elim_some,if_neg hlt.ne]
    exact ⟨trivial,trivial⟩
  rw [hset,(hdt 0 mp hm).2]
  have hlive : m.live = s.mem.next :: s.mem.live := by rw [← hi]; rfl
  refine ⟨⟨?_,?_,?_,?_,?_,?_⟩,hlive,?_,?_,fun x hx => ⟨hold x hx,?_,?_,?_,?_,(hdt _ x hx).1,fun _ _ => rfl⟩⟩
  · exact hlive.symm ▸ List.mem_cons_self ..
  · exact hlive.symm ▸ List.nodup_cons.mpr ⟨fun h => hold _ h rfl,hh.nodup⟩
  · simp [hmdb]
  · simp [Mem.datap,hmdb]
  · intro x hx hne
    have hx : x ∈ s.mem.live := (List.mem_cons.mp (hlive ▸ hx)).resolve_left hne
    obtain ⟨d,hlt,-,hb⟩ := hh.datap x hx
    simp only [Mem.upd_mdb,hmdb,if_neg hne,hb]
    exact fun h => hlt.ne (Option.some.inj h)
  · simp [Mem.nbytes,hmdb]
  · simp [Mem.nbytes,hmdb]
  · simp [Mem.dbType,hmdb]
  · simp [Mem.datap,Mem.upd_mdb,hmdb,hold x hx]
  · simp [Mem.upd_mdb,hmdb,hold x hx]
  · simp [Mem.upd_mdb,hmdb,hold x hx]
  · simp [Mem.upd_mdb,hmdb,hold x hx]

/- The end: the first block takes the new buffer over. -/
theorem swap_taken (hn : s.mem.datap n = some n) (hne : n ≠ mp) :
    ({ s with mem := s.mem.swap mp n } : Store).read mp = s.read n ∧ (s.mem.swap mp n).nbytes mp = s.mem.nbytes n ∧
      ∀ x, x ≠ mp → x ≠ n → Same s { s with mem := s.mem.swap mp n } x := by
  have hlook := lisFreedb_look (s := s.mem) (b := mp) false
  have hdat : ∀ x ≠ mp, (s.mem.lisFreedb mp false).datap x = s.mem.datap x := fun x hx => lisFreedb_datap false hx
  have hmdb : ∀ x, (s.mem.swap mp n).mdb x = if x = n then { (s.mem.lisFreedb mp false).mdb n with bDatap := none, bBuf := none }
      else if x = mp then { (s.mem.lisFreedb mp false).mdb mp with
        bDatap := ((s.mem.lisFreedb mp false).mdb n).bDatap, bBuf := ((s.mem.lisFreedb mp false).mdb n).bBuf,
        bRptr := ((s.mem.lisFreedb mp false).mdb n).bRptr, bWptr := ((s.mem.lisFreedb mp false).mdb n).bWptr }
      else (s.mem.lisFreedb mp false).mdb x := by
    intro x
    simp only [Mem.swap,Mem.upd_mdb,if_neg hne]
  generalize s.mem.lisFreedb mp false = m at hlook hdat hmdb
  have hl : ∀ x, (m.mdb x).bBuf = (s.mem.mdb x).bBuf ∧ (m.mdb x).bRptr = (s.mem.mdb x).bRptr ∧
      (m.mdb x).bWptr = (s.mem.mdb x).bWptr ∧ (m.mdb x).dbType = (s.mem.mdb x).dbType := by
    intro x
    have hx := congrFun hlook x
    simp only [Mem.look,Prod.mk.injEq] at hx
    exact hx
  have hty : ∀ d, ((s.mem.swap mp n).mdb d).dbType = (s.mem.mdb d).dbType := by
    intro d
    rw [hmdb]
    split_ifs with h h'
    · rw [h]
      exact (hl n).2.2.2
    · rw [h']
      exact (hl mp).2.2.2
    · exact (hl d).2.2.2
  have hmp : (s.mem.swap mp n).mdb mp = { m.mdb mp with
      bDatap := (m.mdb n).bDatap, bBuf := (m.mdb n).bBuf, bRptr := (m.mdb n).bRptr, bWptr := (m.mdb n).bWptr } := by
    rw [hmdb,if_neg hne.symm,if_pos rfl]
  have hnd : (m.mdb n).bDatap = some n := (hdat n hne).trans hn
  have hnd' : (s.mem.mdb n).bDatap = some n := hn
  have hnb : (s.mem.swap mp n).nbytes mp = s.mem.nbytes n := by
    unfold Mem.nbytes
    rw [hmp,(hl n).2.1,(hl n).2.2.1]
  have htype : (s.mem.swap mp n).dbType mp = s.mem.dbType n := by
    unfold Mem.dbType
    rw [hmp,hnd']
    dsimp only
    rw [hnd]
    exact hty n
  refine ⟨?_,hnb,fun x hx hxn => ?_⟩
  · unfold read
    dsimp only
    rw [hnb,htype,hmp]
    dsimp only
    rw [(hl n).1,(hl n).2.1]
  · have hxm : (s.mem.swap mp n).mdb x = m.mdb x := by rw [hmdb,if_neg hxn,if_neg hx]
    refine ⟨?_,?_,?_,?_,?_,fun _ _ => rfl⟩
    · show ((s.mem.swap mp n).mdb x).bDatap = _
      rw [hxm]
      exact hdat x hx
    · dsimp only
      rw [hxm,(hl x).1]
    · dsimp only
      rw [hxm,(hl x).2.1]
    · dsimp only
      rw [hxm,(hl x).2.2.1]
    · have hdx : (m.mdb x).bDatap = (s.mem.mdb x).bDatap := hdat x hx
      unfold Mem.dbType
      dsimp only
      rw [hxm,hdx]
      cases (s.mem.mdb x).bDatap with
      | none => rfl
      | some d => exact hty d

end Fresh

theorem Fresh.source {u : Store} (h : Fresh s u n mp) (hh : s.mem.Headers) (hx : x ∈ s.mem.live)
    (hnb : 0 ≤ s.mem.nbytes x) : Source u n x := by
  obtain ⟨hne,hs⟩ := h.same x hx
  obtain ⟨d,-,-,hd⟩ := hh.datap x hx
  exact ⟨h.live.symm ▸ List.mem_cons_of_mem _ hx,hne,hs.nbytes ▸ hnb,d,hs.buf.trans hd⟩

/- With a new block at hand the bytes move into it, and the first block takes its buffer over. -/
theorem pulled (hh : s.mem.Headers) (hm : s.mem.IsMsg (mp :: rest)) (hp : ∀ b ∈ mp :: rest, 0 ≤ s.mem.nbytes b)
    (hl : s.mem.pullLength mp rest length aligned = .ok k) (hk : 0 < k) (hmk : s.mem.nbytes mp ≤ k) :
    ∃ t l, s.lisPullupmsg mp rest length aligned true true = (t,true,mp :: l) ∧
      t.readMsg (mp :: l) = s.readMsg (mp :: rest) ∧
      t.mem.nbytes mp = min k (lead s.mem (s.mem.dbType mp) (mp :: rest)) ∧
      (∀ x ∈ s.mem.live, x ∉ mp :: rest → x ∈ t.mem.live ∧ Same s t x) ∧ ∀ x ∈ mp :: l, x ∈ t.mem.live := by
  obtain ⟨hnd,hlive⟩ := hm
  obtain ⟨hnot,hnd⟩ := List.nodup_cons.mp hnd
  have hmp := hlive mp (List.mem_cons_self ..)
  have hf := fresh hh hmp (Mem.pullSize k)
  unfold lisPullupmsg
  rw [hl]
  dsimp only
  rw [lisAllocb_outside,if_neg (by decide),if_neg (by decide)]
  dsimp only
  generalize (⟨_,s.byte⟩ : Store) = u at hf
  generalize s.mem.next = n at hf
  have hsrc : ∀ x ∈ mp :: rest, Source u n x := fun x hx => hf.source hh (hlive x hx) (hp x hx)
  obtain ⟨hml,hmn,hmb,d,hd⟩ := hsrc mp (List.mem_cons_self ..)
  have hnm := (hf.same mp hmp).2.nbytes
  have htm := (hf.same mp hmp).2.type
  have hdn : d ≠ n := fun h => hf.target.alone mp hml hmn (hd.trans (congrArg some h))
  -- the first block: all of it is copied
  obtain ⟨hc,hleft⟩ := copyBlk_copied hf.target.buf ⟨d,hd⟩ hmn hmb hk.le
  have hmin : min (u.mem.nbytes mp) k = u.mem.nbytes mp := by omega
  have hloop : pullLoop n true u k (mp :: rest) = ((pullLoop n false (u.copyBlk n mp k).1 (u.copyBlk n mp k).2 rest).1,
      mp :: (pullLoop n false (u.copyBlk n mp k).1 (u.copyBlk n mp k).2 rest).2) := by
    rw [pullLoop,if_neg (by simp [htm,hf.type,hk])]
    rfl
  rw [hloop]
  generalize u.copyBlk n mp k = c at hc hleft
  rw [hmin] at hc hleft
  obtain ⟨hcn,hcb⟩ := hc.nbytes hmn
  have hread := hc.read hf.target.buf hd hdn hmn hmb le_rfl hf.target.filled (htm.trans hf.type.symm)
  rw [read_empty (show c.1.mem.nbytes mp = 0 by omega),List.append_nil,read_empty hf.empty,List.nil_append] at hread
  have hother : ∀ x ∈ s.mem.live, x ≠ mp → Same s c.1 x := by
    intro x hx hxm
    obtain ⟨hxn,hs⟩ := hf.same x hx
    exact hs.trans (hc.same hxn hxm (hf.target.alone x (hf.live.symm ▸ List.mem_cons_of_mem _ hx) hxn))
  have hne : ∀ x ∈ rest, x ≠ mp := fun x hx h => hnot (h ▸ hx)
  have hrest : ∀ x ∈ rest, x ∈ s.mem.live := fun x hx => hlive x (List.mem_cons_of_mem _ hx)
  have hsame : ∀ x ∈ rest, Same s c.1 x := fun x hx => hother x (hrest x hx) (hne x hx)
  -- the other blocks
  obtain ⟨hr1,hr2,hr3,hr4,hr5,hr6⟩ := pullLoop_moved (hf.target.copied hc hmn hmb) hnd (fun x hx =>
    (hsrc x (List.mem_cons_of_mem _ hx)).same (hc.same (hf.same x (hrest x hx)).1 (hne x hx)
      (hf.target.alone x (hsrc x (List.mem_cons_of_mem _ hx)).1 (hf.same x (hrest x hx)).1))
      (hc.live.symm ▸ (hsrc x (List.mem_cons_of_mem _ hx)).1)) (by omega : 0 ≤ c.2)
  generalize pullLoop n false c.1 c.2 rest = r at hr1 hr2 hr3 hr4 hr5 hr6
  obtain ⟨hsr,hsn,hss⟩ := swap_taken (s := r.1) hr1.datap hmn.symm
  have hkeep : ∀ x ∈ r.1.mem.live, x ≠ n → x ∈ (r.1.mem.swap mp n).live := fun x hx hxn =>
    (List.mem_erase_of_ne hxn).mpr (lisFreedb_live (s := r.1.mem) (b := mp) false ▸ hx)
  refine ⟨_,r.2,rfl,?_,?_,fun x hx hxm => ?_,fun x hx => ?_⟩
  · have hmsg : Store.readMsg ⟨r.1.mem.swap mp n,r.1.byte⟩ r.2 = r.1.readMsg r.2 := by
      refine readMsg_congr fun x hx => hss x (hne x (hr6 x hx).1) ?_
      exact (hf.same x (hrest x (hr6 x hx).1)).1
    rw [readMsg_cons,readMsg_cons,hsr,hmsg,hr2,hread,readMsg_congr hsame,(hf.same mp hmp).2.read]
  · show (r.1.mem.swap mp n).nbytes mp = _
    rw [hsn,hr3,hc.type n,hf.type,lead_congr hsame,lead_cons,if_pos rfl,hcn,hf.empty]
    omega
  · obtain ⟨hxp,hxr⟩ := not_or.mp (mt List.mem_cons.mpr hxm)
    have hxn := (hf.same x hx).1
    have hxc : x ∈ c.1.mem.live := by
      rw [hc.live,hf.live]
      exact List.mem_cons_of_mem _ hx
    obtain ⟨hxl,hxs⟩ := hr5 x hxc hxn hxr
    exact ⟨hkeep x hxl hxn,((hother x hx hxp).trans hxs).trans (hss x hxp hxn)⟩
  · rcases List.mem_cons.mp hx with rfl | hx
    · exact hkeep x (hr5 x (hc.live.symm ▸ hml) hmn hnot).1 hmn
    · exact hkeep x (hr6 x hx).2 (hf.same x (hrest x (hr6 x hx).1)).1

end Store

end CSLiS.Buffer
