import CSLiS.Buffer.Built
import CSLiS.Buffer.PullupExact

/-!
# When the two ways to pull a message up agree (head/msgutl.c)

`lis_msgpullup` counts bytes as it goes and `lis_pullupmsg` adds them up first, in an `int`.
-/

namespace CSLiS.Buffer.Store
open Queue Lib.Exec

variable {s t u : Store} {b d n x mp newMp : ℕ} {l blks rest rtn : List ℕ} {size : ℕ} {hdr buf : Bool} {ty : Uchar}
  {off k pos r w a len : ℤ}

/-! ## Bytes -/

/- `n` bytes of a buffer, with a type. -/
def slice (s : Store) (ty : Uchar) (d : ℕ) (pos n : ℤ) : List (Uchar × Uchar) :=
  (List.range n.toNat).map fun i : ℕ => (ty,s.byte d (pos + i))

theorem slice_append (ty : Uchar) (d : ℕ) (pos : ℤ) (ha : 0 ≤ a) (hk : 0 ≤ k) :
    s.slice ty d pos (a + k) = s.slice ty d pos a ++ s.slice ty d (pos + a) k := by
  obtain ⟨i,rfl⟩ := Int.eq_ofNat_of_zero_le ha
  obtain ⟨j,rfl⟩ := Int.eq_ofNat_of_zero_le hk
  have hij : ((i : ℤ) + j).toNat = i + j := by omega
  unfold slice
  rw [hij,range_add_map]
  congr 1
  refine List.map_congr_left fun m _ => ?_
  congr 2
  push_cast
  ring

theorem slice_congr (h : t.byte d = s.byte d) : t.slice ty d pos k = s.slice ty d pos k := by
  unfold slice
  rw [h]

theorem read_slice (hb : (s.mem.mdb b).bBuf = some d) :
    s.read b = s.slice (s.mem.dbType b) d (s.mem.mdb b).bRptr (s.mem.nbytes b) := by
  unfold read
  rw [hb]
  rfl

/- What is read of a block and how many bytes it has, both by its own header. -/
theorem own_dbType (h : Own t.mem b) : t.mem.dbType b = (t.mem.mdb b).dbType := by
  obtain ⟨r,w,ty,size,he,-⟩ := h
  unfold Mem.dbType
  rw [he]
  dsimp only [Option.elim_some]
  rw [he]

theorem own_read (h : Own t.mem b) :
    t.read b = t.slice (t.mem.mdb b).dbType b (t.mem.mdb b).bRptr (t.mem.nbytes b) := by
  have hb : (t.mem.mdb b).bBuf = some b := by
    obtain ⟨r,w,ty,size,he,-⟩ := h
    rw [he]
  rw [read_slice hb,own_dbType h]

/- A block of its own that is left as it is. -/
theorem own_same (h : Own t.mem x) (hm : u.mem.mdb x = t.mem.mdb x) (hb : u.byte x = t.byte x) :
    u.read x = t.read x ∧ u.mem.nbytes x = t.mem.nbytes x ∧ u.mem.dbType x = t.mem.dbType x := by
  obtain ⟨r,w,ty,size,he,hs⟩ := h
  have hn : u.mem.nbytes x = t.mem.nbytes x := by
    unfold Mem.nbytes
    rw [hm]
  have ht : u.mem.dbType x = t.mem.dbType x := by
    have hux := hm.trans he
    unfold Mem.dbType
    rw [hux,he]
    dsimp only [Option.elim_some]
    rw [hux,he]
  refine ⟨?_,hn,ht⟩
  have h1 : (t.mem.mdb x).bBuf = some x := by rw [he]
  have h2 : (u.mem.mdb x).bBuf = some x := by rw [hm,h1]
  rw [read_slice h1,read_slice h2,ht,hn,hm]
  exact slice_congr hb

/- A block of the caller. -/
theorem Built.caller (h : Built s t l) (hs : s.mem.Sane) (hx : x ∈ s.mem.live) : t.read x = s.read x ∧
    t.mem.nbytes x = s.mem.nbytes x ∧ t.mem.dbType x = s.mem.dbType x ∧ ∃ d, (t.mem.mdb x).bBuf = some d ∧
      d < s.mem.next ∧ (∀ b ∈ l, d ≠ b ∧ x ≠ b) := by
  obtain ⟨d,hd,hdat,hbuf⟩ := hs.datap x hx
  have hm := h.mdb x (hs.lt x hx)
  have hn : t.mem.nbytes x = s.mem.nbytes x := by
    unfold Mem.nbytes
    rw [hm]
  have ht : t.mem.dbType x = s.mem.dbType x := by
    have hdat' : (s.mem.mdb x).bDatap = some d := hdat
    unfold Mem.dbType
    rw [hm,hdat']
    dsimp only [Option.elim_some]
    rw [h.mdb d hd]
  refine ⟨?_,hn,ht,d,by rw [hm,hbuf],hd,fun b hb => ?_⟩
  · rw [read_slice hbuf,read_slice (hm ▸ hbuf : (t.mem.mdb x).bBuf = some d),ht,hn,hm]
    exact slice_congr (h.byte d hd)
  · have h1 := (h.new b hb).1
    have h2 := hs.lt x hx
    exact ⟨by omega,by omega⟩

/- Bytes are appended to a block that is being built. -/
theorem Built.append (h : Built s t l) (hb : b ∈ l) (hd : (t.mem.mdb mp).bBuf = some d) (off : ℤ)
    (hk : 0 ≤ k) (hn : 0 ≤ t.mem.nbytes b) : Built s (t.append b mp off k) l ∧
      (t.append b mp off k).mem.nbytes b = t.mem.nbytes b + k ∧
      ((t.append b mp off k).mem.mdb b).dbType = (t.mem.mdb b).dbType ∧
      (t.append b mp off k).read b =
        t.read b ++ t.slice (t.mem.dbType b) d ((t.mem.mdb mp).bRptr + off) k ∧
      (∀ x, x ≠ b → (t.append b mp off k).mem.mdb x = t.mem.mdb x ∧ (t.append b mp off k).byte x = t.byte x) ∧
      (t.append b mp off k).mem = { t.mem with mdb := (t.append b mp off k).mem.mdb } := by
  have hown := h.own b hb
  obtain ⟨r,w,ty,size,he,hs⟩ := h.own b hb
  have hbuf : (t.mem.mdb b).bBuf = some b := by rw [he]
  set u := t.append b mp off k with hu
  have hmem : u.mem = t.mem.setPtrs b r (w + k) := by
    rw [hu,Store.append,hbuf,hd]
    dsimp only
    rw [he]
  have hbyte : u.byte = Function.update t.byte b fun i =>
      if w ≤ i ∧ i < w + k then t.byte d ((t.mem.mdb mp).bRptr + off + (i - w)) else t.byte b i := by
    rw [hu,Store.append,hbuf,hd]
    dsimp only
    rw [he]
  have hself : u.mem.mdb b = ⟨some b,some b,r,w + k,false,some b,1,ty,size⟩ := by
    rw [hmem,Mem.setPtrs,Mem.upd]
    dsimp only
    rw [Function.update_self,he]
  have hother : ∀ x, x ≠ b → u.mem.mdb x = t.mem.mdb x := by
    intro x hx
    rw [hmem]
    exact Function.update_of_ne hx ..
  have hbyte' : ∀ x, x ≠ b → u.byte x = t.byte x := by
    intro x hx
    rw [hbyte]
    exact Function.update_of_ne hx ..
  have hrec : u.mem = { t.mem with mdb := u.mem.mdb } := by
    rw [hmem]
    rfl
  have hnb : t.mem.nbytes b = w - r := by
    unfold Mem.nbytes
    rw [he]
  have hnu : u.mem.nbytes b = t.mem.nbytes b + k := by
    rw [hnb]
    unfold Mem.nbytes
    rw [hself]
    dsimp only
    ring
  have hb' : Built s u l := by
    apply h.change hb hrec hother ⟨r,w + k,ty,?_⟩ hbyte'
    rw [hself,he]
  refine ⟨hb',hnu,?_,?_,fun x hx => ⟨hother x hx,hbyte' x hx⟩,hrec⟩
  · rw [hself,he]
  · have hty : t.mem.dbType b = ty := by rw [own_dbType hown,he]
    rw [hnb] at hn hnu
    rw [own_read hown,own_read (hb'.own b hb),hself,he,hnu,hty,hnb]
    dsimp only
    rw [slice_append ty b r hn hk]
    congr 1
    · refine List.map_congr_left fun i hi => ?_
      have hi := List.mem_range.mp hi
      rw [hbyte,Function.update_self,if_neg (by omega)]
    · refine List.map_congr_left fun i hi => ?_
      have hi := List.mem_range.mp hi
      rw [hbyte,Function.update_self,if_pos (by omega)]
      congr 2
      ring

/-! ## Blocks -/

/- Blocks that are left as they are. -/
def Kept (t u : Store) (l : List ℕ) : Prop := ∀ x ∈ l, u.mem.mdb x = t.mem.mdb x ∧ u.byte x = t.byte x

theorem Kept.trans {v : Store} (h : Kept t u l) (h' : Kept u v l) : Kept t v l :=
  fun x hx => ⟨(h' x hx).1.trans (h x hx).1,(h' x hx).2.trans (h x hx).2⟩

/- What a message shows of itself: what is read through it, and the bytes and the type of each block. -/
def view (s : Store) (l : List ℕ) : List (Uchar × Uchar) × List (ℤ × Uchar) :=
  (s.readMsg l,l.map fun b => (s.mem.nbytes b,s.mem.dbType b))

theorem Kept.view (h : Kept t u l) (ho : ∀ b ∈ l, Own t.mem b) : u.view l = t.view l := by
  have hs := fun x hx => own_same (ho x hx) (h x hx).1 (h x hx).2
  unfold Store.view readMsg
  rw [Prod.mk.injEq]
  refine ⟨List.flatMap_congr fun x hx => (hs x hx).1,List.map_congr_left fun x hx => ?_⟩
  rw [(hs x hx).2.1,(hs x hx).2.2]

theorem Built.allocb (h : Built s t l) (size : ℕ) (hdr buf : Bool) :
    (∃ m, t.mem.lisAllocb size hdr buf = (m,none) ∧ Built s { t with mem := m } l ∧ m.mdb = t.mem.mdb ∧
        ¬ (hdr = true ∧ buf = true)) ∨
      ∃ m size', t.mem.lisAllocb size hdr buf = (m,some t.mem.next) ∧
        Built s { t with mem := m } (l ++ [t.mem.next]) ∧ (∀ x, x ≠ t.mem.next → m.mdb x = t.mem.mdb x) ∧
        m.mdb t.mem.next = ⟨some t.mem.next,some t.mem.next,0,0,false,some t.mem.next,1,M_DATA,size'⟩ := by
  unfold Mem.lisAllocb
  cases hdr with
  | false => exact .inl ⟨t.mem,rfl,h,rfl,by simp⟩
  | true =>
    by_cases hbuf : (decide (FASTBUF < size) && !buf) = true
    · left
      refine ⟨_,?_,h.spare,rfl,?_⟩
      · rw [if_neg (by decide),if_pos hbuf]
      · simp only [Bool.and_eq_true,Bool.not_eq_true'] at hbuf
        simp [hbuf.2]
    · right
      refine ⟨_,if FASTBUF < size then size else FASTBUF,?_,h.alloc size,fun x hx => ?_,?_⟩
      · rw [if_neg (by decide),if_neg hbuf]
      · rw [Mem.initb_mdb,if_neg hx]
      · rw [Mem.initb_mdb,if_pos rfl]
        simp only [decide_eq_true_eq]

theorem Built.setType (h : Built s t l) (hb : b ∈ l) (ty : Uchar) :
    Built s { t with mem := t.mem.setType b ty } l ∧
      (t.mem.setType b ty).mdb b = { t.mem.mdb b with dbType := ty } ∧
      ∀ x, x ≠ b → (t.mem.setType b ty).mdb x = t.mem.mdb x := by
  obtain ⟨r,w,ty',size,he,-⟩ := h.own b hb
  have hset : t.mem.setType b ty = t.mem.upd b fun m => { m with dbType := ty } := by
    unfold Mem.setType
    rw [he]
    rfl
  have hself : (t.mem.setType b ty).mdb b = { t.mem.mdb b with dbType := ty } := by
    rw [hset]
    exact Function.update_self ..
  have hother : ∀ x, x ≠ b → (t.mem.setType b ty).mdb x = t.mem.mdb x := by
    intro x hx
    rw [hset]
    exact Function.update_of_ne hx ..
  refine ⟨?_,hself,hother⟩
  apply h.change hb (by simp only [hset]; rfl) hother ⟨(t.mem.mdb b).bRptr,(t.mem.mdb b).bWptr,ty,hself⟩
  exact fun _ _ => rfl

theorem Built.setPtrs (h : Built s t l) (hb : b ∈ l) (r w : ℤ) :
    Built s { t with mem := t.mem.setPtrs b r w } l ∧
      (t.mem.setPtrs b r w).mdb b = { t.mem.mdb b with bRptr := r, bWptr := w } ∧
      ∀ x, x ≠ b → (t.mem.setPtrs b r w).mdb x = t.mem.mdb x := by
  have hself : (t.mem.setPtrs b r w).mdb b = { t.mem.mdb b with bRptr := r, bWptr := w } := Function.update_self ..
  have hother : ∀ x, x ≠ b → (t.mem.setPtrs b r w).mdb x = t.mem.mdb x := fun x hx => Function.update_of_ne hx ..
  refine ⟨?_,hself,hother⟩
  apply h.change (u := { t with mem := t.mem.setPtrs b r w }) hb rfl hother ⟨r,w,(t.mem.mdb b).dbType,hself⟩
  exact fun _ _ => rfl

theorem slice_type (ty ty' : Uchar) : s.slice ty d pos k = (s.slice ty' d pos k).map fun c => (ty,c.2) := by
  unfold slice
  rw [List.map_map]
  rfl

/- A copy of a block of the caller. -/
theorem Built.copyb (h : Built s t l) (hs : s.mem.Sane) (hx : mp ∈ s.mem.live) (hn : 0 ≤ s.mem.nbytes mp)
    (hdr buf : Bool) :
    (∃ v, t.lisCopyb mp hdr buf = (v,none) ∧ Built s v l ∧ Kept t v l ∧ ¬ (hdr = true ∧ buf = true)) ∨
      ∃ v b, t.lisCopyb mp hdr buf = (v,some b) ∧ Built s v (l ++ [b]) ∧ Kept t v l ∧ v.view [b] = s.view [mp] := by
  obtain ⟨-,hnt,-,-⟩ := h.caller hs hx
  unfold lisCopyb
  rw [if_neg (by omega)]
  rcases h.allocb (t.msgsize mp) hdr buf with ⟨m,hm,hb,hmdb,hno⟩ | ⟨m,size,hm,hb,hother,hself⟩
  · left
    rw [hm]
    exact ⟨_,rfl,hb,fun x _ => ⟨congrFun hmdb x,rfl⟩,hno⟩
  · right
    rw [hm]
    dsimp only
    generalize hbn : t.mem.next = b at hb hother hself ⊢
    have hbl : b ∈ l ++ [b] := List.mem_append_right _ (List.mem_singleton_self _)
    have hlb : ∀ x ∈ l, x ≠ b := fun x hx => hbn ▸ (h.new x hx).2.ne
    obtain ⟨-,hn1,-,-⟩ := hb.caller hs hx
    -- the pointers are set
    obtain ⟨hb2,hself2,hother2⟩ := hb.setPtrs hbl (m.mdb mp).bRptr (m.mdb mp).bRptr
    set t2 : Store := { t with mem := m.setPtrs b (m.mdb mp).bRptr (m.mdb mp).bRptr } with ht2
    obtain ⟨hread2,hn2,hty2,d,hd2,-,hdl⟩ := hb2.caller hs hx
    have hzero : t2.mem.nbytes b = 0 := by
      unfold Mem.nbytes
      rw [hself2]
      exact sub_self _
    have hk : 0 ≤ m.nbytes mp := by
      have hn1' : m.nbytes mp = s.mem.nbytes mp := hn1
      omega
    -- the bytes are copied
    obtain ⟨hb3,hn3,-,hread3,hkeep3,-⟩ := hb2.append hbl hd2 0 hk hzero.ge
    set t3 := t2.append b mp 0 (m.nbytes mp) with ht3
    obtain ⟨-,-,hty3,-⟩ := hb3.caller hs hx
    -- and the type is set
    obtain ⟨hb4,hself4,hother4⟩ := hb3.setType hbl (t3.mem.dbType mp)
    refine ⟨_,b,rfl,hb4,fun x hx => ⟨?_,?_⟩,?_⟩
    · have hxb := hlb x hx
      exact ((hother4 x hxb).trans (hkeep3 x hxb).1).trans ((hother2 x hxb).trans (hother x hxb))
    · exact (hkeep3 x (hlb x hx)).2
    · set v : Store := { t3 with mem := t3.mem.setType b (t3.mem.dbType mp) } with hv
      have hself4' : v.mem.mdb b = { t3.mem.mdb b with dbType := t3.mem.dbType mp } := hself4
      have hown4 := hb4.own b hbl
      have htype : v.mem.dbType b = s.mem.dbType mp := by
        rw [own_dbType hown4,hself4']
        exact hty3
      have hnv : v.mem.nbytes b = s.mem.nbytes mp := by
        have h1 : v.mem.nbytes b = t3.mem.nbytes b := by
          unfold Mem.nbytes
          rw [hself4']
        have hn1' : m.nbytes mp = s.mem.nbytes mp := hn1
        rw [h1,hn3,hzero,zero_add,hn1']
      have hread : v.read b = s.read mp := by
        have hempty : t2.read b = [] := read_empty hzero
        rw [hempty,List.nil_append,add_zero] at hread3
        have h3 := own_read (hb3.own b hbl)
        rw [hread3] at h3
        have hnn : t3.mem.nbytes b = v.mem.nbytes b := by
          unfold Mem.nbytes
          rw [hself4']
        rw [own_read hown4,hself4']
        dsimp only
        rw [show v.slice (t3.mem.dbType mp) b (t3.mem.mdb b).bRptr (v.mem.nbytes b) =
          t3.slice (t3.mem.dbType mp) b (t3.mem.mdb b).bRptr (t3.mem.nbytes b) from by rw [hnn]; rfl,
          slice_type (t3.mem.dbType mp) (t3.mem.mdb b).dbType,← h3,← slice_type,← hread2,read_slice hd2,hty3,hty2]
        congr 1
        rw [hn2]
        exact hn1
      unfold Store.view readMsg
      simp only [List.flatMap_singleton,List.map_cons,List.map_nil,hread,hnv,htype]

/-! ## Messages -/

theorem view_append (l m : List ℕ) : s.view (l ++ m) = ((s.view l).1 ++ (s.view m).1,(s.view l).2 ++ (s.view m).2) := by
  unfold view readMsg
  rw [List.flatMap_append,List.map_append]

theorem view_cons (b : ℕ) (l : List ℕ) :
    s.view (b :: l) = ((s.view [b]).1 ++ (s.view l).1,(s.view [b]).2 ++ (s.view l).2) := view_append [b] l

/- A copy of a message of the caller: it shows the same as the message, or it could not be made. -/
theorem Built.copymsg (hdr buf : ℕ → Bool) (h : Built s t (l ++ rtn)) (hs : s.mem.Sane)
    (hm : ∀ b ∈ blks, b ∈ s.mem.live ∧ 0 ≤ s.mem.nbytes b) :
    (∃ v, copymsgLoop hdr buf t rtn blks = (v,none) ∧ Built s v l ∧ ∃ b, ¬ (hdr b = true ∧ buf b = true)) ∨
      ∃ v c, copymsgLoop hdr buf t rtn blks = (v,some (rtn ++ c)) ∧ Built s v (l ++ (rtn ++ c)) ∧
        Kept t v (l ++ rtn) ∧ v.view c = s.view blks := by
  induction blks generalizing t rtn with
  | nil =>
    refine .inr ⟨t,[],?_,?_,fun x _ => ⟨rfl,rfl⟩,rfl⟩
    · rw [copymsgLoop,List.append_nil]
    · rw [List.append_nil]
      exact h
  | cons mp blks ih =>
    obtain ⟨hlive,hn⟩ := hm mp List.mem_cons_self
    have hm' := fun b hb => hm b (List.mem_cons_of_mem mp hb)
    rcases h.copyb hs hlive hn (hdr mp) (buf mp) with ⟨v,hv,hb,-,hno⟩ | ⟨v,b,hv,hb,hkept,hview⟩
    · refine .inl ⟨_,?_,hb.freemsg,mp,hno⟩
      rw [copymsgLoop,hv]
    · have hloop : copymsgLoop hdr buf t rtn (mp :: blks) = copymsgLoop hdr buf v (rtn ++ [b]) blks := by
        rw [copymsgLoop,hv]
      rw [List.append_assoc] at hb
      rw [hloop]
      rcases ih hb hm' with ⟨w,hw,hbw,hno⟩ | ⟨w,c,hw,hbw,hkw,hvw⟩
      · exact .inl ⟨w,hw,hbw,hno⟩
      · right
        rw [List.append_assoc] at hw hbw
        have hall : Kept t w (l ++ rtn) := by
          refine hkept.trans fun x hx => hkw x ?_
          rw [← List.append_assoc]
          exact List.mem_append_left _ hx
        have hself : Kept v w [b] := fun x hx => hkw x
          (List.mem_append_right _ (List.mem_append_right _ hx))
        have hown : ∀ x ∈ [b], Own v.mem x := fun x hx => hb.own x (List.mem_append_right _ (List.mem_append_right _ hx))
        refine ⟨w,b :: c,hw,hbw,hall,?_⟩
        rw [view_cons,hself.view hown,hview,hvw,← view_cons]

/- A count of 0 or less is all that is left. -/
theorem msgpullupLoop_done (h : len ≤ 0) (l : List ℕ) :
    msgpullupLoop newMp ty hdr buf s len l blks = (s,some (len,l,blks)) := by
  cases blks with
  | nil => rfl
  | cons b blks =>
    unfold msgpullupLoop
    rw [if_pos (by simp [h])]

/- What the loop has done with the blocks: the bytes that there are, up to `len`, are in the new block. -/
structure Taken (s t v : Store) (newMp : ℕ) (ty : Uchar) (len len' : ℤ) (blks l post : List ℕ) : Prop where
  built : Built s v (newMp :: l)
  suffix : ∀ b ∈ post, b ∈ blks
  read : v.readMsg (newMp :: l) ++ s.readMsg post = t.read newMp ++ s.readMsg blks
  nbytes : v.mem.nbytes newMp = t.mem.nbytes newMp + max 0 (min len (lead s.mem ty blks))
  left : 0 < len' ↔ lead s.mem ty blks < len

theorem Taken.done (h : Built s t [newMp]) (hm : ∀ b ∈ blks, 0 ≤ s.mem.nbytes b)
    (hd : len ≤ 0 ∨ lead s.mem ty blks = 0) : Taken s t t newMp ty len len blks [] blks := by
  have hlead := lead_nonneg s.mem ty hm
  refine ⟨h,fun _ hb => hb,?_,?_,?_⟩
  · rw [readMsg_cons]
    simp [readMsg]
  · omega
  · omega

theorem Built.pullup (h : Built s t [newMp]) (hs : s.mem.Sane)
    (hm : ∀ b ∈ blks, b ∈ s.mem.live ∧ 0 ≤ s.mem.nbytes b) (hty : t.mem.dbType newMp = ty)
    (hn : 0 ≤ t.mem.nbytes newMp) (len : ℤ) (hdr buf : Bool) :
    (∃ v, msgpullupLoop newMp ty hdr buf t len [newMp] blks = (v,none) ∧ Built s v [] ∧ ¬ (hdr = true ∧ buf = true)) ∨
      ∃ v len' l post, msgpullupLoop newMp ty hdr buf t len [newMp] blks = (v,some (len',newMp :: l,post)) ∧
        Taken s t v newMp ty len len' blks l post := by
  induction blks generalizing t len with
  | nil => exact .inr ⟨t,len,[],[],rfl,Taken.done h (fun b hb => absurd hb List.not_mem_nil) (.inr rfl)⟩
  | cons mp blks ih =>
    have hnew : newMp ∈ [newMp] := List.mem_singleton_self _
    obtain ⟨hlive,hnb⟩ := hm mp List.mem_cons_self
    have hm' := fun b hb => hm b (List.mem_cons_of_mem mp hb)
    obtain ⟨hread,hnt,htt,d,hd,hds,hdl⟩ := h.caller hs hlive
    have hlead := lead_nonneg s.mem ty fun b hb => (hm' b hb).2
    unfold msgpullupLoop
    by_cases hstop : (decide (len ≤ 0) || t.mem.dbType mp != ty) = true
    · rw [if_pos hstop]
      refine .inr ⟨t,len,[],mp :: blks,rfl,Taken.done h (fun b hb => (hm b hb).2) ?_⟩
      simp only [Bool.or_eq_true,decide_eq_true_eq,bne_iff_ne,htt] at hstop
      rcases hstop with hstop | hstop
      · exact .inl hstop
      · right
        rw [lead_cons,if_neg hstop]
    · rw [if_neg hstop]
      simp only [Bool.or_eq_true,decide_eq_true_eq,bne_iff_ne,htt,not_or,not_le,not_not] at hstop
      obtain ⟨hpos,htype⟩ := hstop
      have hcons : lead s.mem ty (mp :: blks) = s.mem.nbytes mp + lead s.mem ty blks := by rw [lead_cons,if_pos htype]
      dsimp only
      rw [hnt]
      by_cases hempty : s.mem.nbytes mp ≤ 0
      · -- an empty block
        rw [if_pos hempty]
        have hzero : s.mem.nbytes mp = 0 := le_antisymm hempty hnb
        rcases ih h hm' hty hn len with ⟨v,hv,hb,hno⟩ | ⟨v,len',l,post,hv,hk⟩
        · exact .inl ⟨v,hv,hb,hno⟩
        · refine .inr ⟨v,len',l,post,hv,hk.built,fun b hb => List.mem_cons_of_mem _ (hk.suffix b hb),?_,?_,?_⟩
          · rw [hk.read,readMsg_cons,read_empty hzero,List.nil_append]
          · rw [hk.nbytes,hcons,hzero,zero_add]
          · rw [hk.left,hcons,hzero,zero_add]
      · rw [if_neg hempty]
        have hcp : 0 ≤ min (s.mem.nbytes mp) len := by omega
        obtain ⟨hb1,hn1,hty1,hread1,hkeep1,-⟩ := h.append hnew hd 0 hcp hn
        set t1 := t.append newMp mp 0 (min (s.mem.nbytes mp) len) with ht1
        have hty1' : t1.mem.dbType newMp = ty := by
          rw [own_dbType (hb1.own newMp hnew),hty1,← own_dbType (h.own newMp hnew),hty]
        have hall : s.read mp = t.slice ty d (t.mem.mdb mp).bRptr (s.mem.nbytes mp) := by
          rw [← hread,read_slice hd,hnt,htt,htype]
        rw [hty,add_zero] at hread1
        by_cases hsplit : (decide (min (s.mem.nbytes mp) len = len) &&
            decide (min (s.mem.nbytes mp) len < s.mem.nbytes mp)) = true
        · -- the block is split
          rw [if_pos hsplit]
          simp only [Bool.and_eq_true,decide_eq_true_eq] at hsplit
          have hmin : min (s.mem.nbytes mp) len = len := hsplit.1
          have hlt : len < s.mem.nbytes mp := by omega
          rw [hmin] at hread1 hn1 ⊢
          rcases hb1.allocb (s.mem.nbytes mp - len).toNat hdr buf with
            ⟨m,hmm,hb2,-,hno⟩ | ⟨m,size,hmm,hb2,hother2,hself2⟩
          · rw [hmm]
            dsimp only
            have hfree := (show Built s { t1 with mem := m } ([] ++ [newMp]) from hb2).freemsg
            exact .inl ⟨_,rfl,hfree,hno⟩
          · right
            rw [hmm]
            dsimp only
            rw [msgpullupLoop_done (by omega)]
            generalize hbn : t1.mem.next = b at hb2 hother2 hself2 ⊢
            have hne : newMp ≠ b := hbn ▸ ((hb1.new newMp hnew).2).ne
            have hbl : b ∈ [newMp] ++ [b] := List.mem_append_right _ (List.mem_singleton_self _)
            have hnl : newMp ∈ [newMp] ++ [b] := List.mem_append_left _ hnew
            obtain ⟨hb3,hself3,hother3⟩ := hb2.setType hbl ty
            set t3 : Store := { t1 with mem := m.setType b ty } with ht3
            obtain ⟨-,-,-,d3,hd3,-,-⟩ := hb3.caller hs hlive
            have hmp3 : t3.mem.mdb mp = t.mem.mdb mp := by
              rw [hb3.mdb mp (hs.lt mp hlive),h.mdb mp (hs.lt mp hlive)]
            obtain rfl : d3 = d := Option.some.inj (hd3.symm.trans (hmp3 ▸ hd))
            have hzero : t3.mem.nbytes b = 0 := by
              have hsb : t3.mem.mdb b = { m.mdb b with dbType := ty } := hself3
              unfold Mem.nbytes
              rw [hsb,hself2]
              rfl
            have htb : t3.mem.dbType b = ty := by
              have hsb : t3.mem.mdb b = { m.mdb b with dbType := ty } := hself3
              rw [own_dbType (hb3.own b hbl),hsb]
            obtain ⟨hb4,-,-,hread4,hkeep4,-⟩ := hb3.append hbl hd3 len (by omega : 0 ≤ s.mem.nbytes mp - len) hzero.ge
            set t4 := t3.append b mp len (s.mem.nbytes mp - len) with ht4
            have hkeep : t4.mem.mdb newMp = t1.mem.mdb newMp ∧ t4.byte newMp = t1.byte newMp := by
              obtain ⟨h1,h2⟩ := hkeep4 newMp hne
              exact ⟨h1.trans ((hother3 newMp hne).trans (hother2 newMp hne)),h2⟩
            obtain ⟨hr4,hn4,-⟩ := own_same (hb1.own newMp hnew) hkeep.1 hkeep.2
            refine ⟨t4,len - s.mem.nbytes mp,[b],blks,rfl,hb4,fun x hx => List.mem_cons_of_mem _ hx,?_,?_,?_⟩
            · have hbyte : t3.byte d3 = t.byte d3 := by
                rw [hb3.byte d3 hds,h.byte d3 hds]
              rw [readMsg_cons,readMsg_cons,hr4,hread1,hread4,read_empty hzero,htb,readMsg_cons (s := s),hall,hmp3,
                slice_congr hbyte]
              have hsum : s.mem.nbytes mp = len + (s.mem.nbytes mp - len) := by ring
              rw [show t.slice ty d3 (t.mem.mdb mp).bRptr (s.mem.nbytes mp) =
                t.slice ty d3 (t.mem.mdb mp).bRptr (len + (s.mem.nbytes mp - len)) from by rw [← hsum],
                slice_append ty d3 _ hpos.le (by omega)]
              simp [readMsg]
            · rw [hn4,hn1,hcons]
              omega
            · rw [hcons]
              omega
        · -- all of it is copied
          rw [if_neg hsplit]
          simp only [Bool.and_eq_true,decide_eq_true_eq,not_and,not_lt] at hsplit
          have hmin : min (s.mem.nbytes mp) len = s.mem.nbytes mp := by omega
          rw [hmin] at hread1 hn1
          rcases ih hb1 hm' hty1' (by omega) (len - s.mem.nbytes mp) with ⟨v,hv,hb,hno⟩ | ⟨v,len',l,post,hv,hk⟩
          · exact .inl ⟨v,hv,hb,hno⟩
          · refine .inr ⟨v,len',l,post,hv,hk.built,fun b hb => List.mem_cons_of_mem _ (hk.suffix b hb),?_,?_,?_⟩
            · rw [hk.read,hread1,readMsg_cons,hall,List.append_assoc]
            · rw [hk.nbytes,hn1,hcons]
              omega
            · rw [hk.left,hcons]
              omega

/-! ## The two routines -/

/- What the length and the type of each block say is all that the tests of `lis_pullupmsg` look at. -/
theorem pullLength_view {cp : ℕ} {crest : List ℕ} (h : t.view (cp :: crest) = s.view (mp :: rest)) (len : ℤ)
    (aligned : Bool) : t.mem.pullLength cp crest len aligned = s.mem.pullLength mp rest len aligned := by
  have hmap : (cp :: crest).map (fun b => (t.mem.nbytes b,t.mem.dbType b)) =
      (mp :: rest).map fun b => (s.mem.nbytes b,s.mem.dbType b) := congrArg Prod.snd h
  have hsize : ∀ (s : Store) (ty : Uchar) (l : List ℕ), s.mem.lisXmsgsize ty l =
      ((((l.map fun b => (s.mem.nbytes b,s.mem.dbType b)).takeWhile fun c : ℤ × Uchar => c.2 == ty).map fun c : ℤ × Uchar =>
        max 0 c.1).sum).bmod (2 ^ 32) := by
    intro s ty l
    unfold Mem.lisXmsgsize
    rw [List.takeWhile_map,List.map_map]
    rfl
  have hhead := (List.cons.inj hmap).1
  obtain ⟨hn,ht⟩ := Prod.mk.inj hhead
  unfold Mem.pullLength
  rw [hsize,hsize,hmap,hn,ht]

/- With memory at hand the routine gives up only where its tests say so. -/
theorem pullupmsg_answer (len : ℤ) (aligned : Bool) :
    (s.lisPullupmsg mp rest len aligned true true).2.1 = true ↔ s.mem.pullLength mp rest len aligned ≠ .error false := by
  unfold lisPullupmsg
  cases hl : s.mem.pullLength mp rest len aligned with
  | error b => cases b <;> simp
  | ok k =>
    dsimp only
    rw [lisAllocb_outside,if_neg (by decide),if_neg (by decide)]
    simp

/-- The result of `lis_msgpullup`, next to that of `lis_pullupmsg` of a copy of the message. -/
structure PulledCopy (s : Store) (mp : ℕ) (rest : List ℕ) (len : ℤ) (hdr buf : Place → Bool)
    (r : Store × Option (List ℕ)) : Prop where
  agree : (∀ p, hdr p = true ∧ buf p = true) → ∃ c cp crest,
    s.lisCopymsg (mp :: rest) (fun _ => true) (fun _ => true) = (c,some (cp :: crest)) ∧
      ∀ aligned, r.2.isSome ↔ (c.lisPullupmsg cp crest len aligned true true).2.1 = true
  bytes : ∀ l, r.2 = some l → r.1.readMsg l = s.readMsg (mp :: rest)
  first : ∀ l, r.2 = some l → ∃ b m, l = b :: m ∧ want s.mem mp rest len ≤ r.1.mem.nbytes b
  unchanged : ∀ b ∈ s.mem.live, b ∈ r.1.mem.live ∧ r.1.mem.mdb b = s.mem.mdb b ∧ r.1.read b = s.read b
  freed : r.2 = none → r.1.mem.live.Perm s.mem.live ∧ ∀ x, s.mem.next ≤ x → x < r.1.mem.next → Gone r.1.mem x

/- What comes of the routine: nothing, and it had no memory or too few bytes, or a new message. -/
structure Outcome (s : Store) (mp : ℕ) (rest : List ℕ) (k : ℤ) (hdr buf : Place → Bool)
    (r : Store × Option (List ℕ)) : Prop where
  none : r.2 = none → Built s r.1 [] ∧
    ((∀ p, hdr p = true ∧ buf p = true) → lead s.mem (s.mem.dbType mp) (mp :: rest) < k)
  some : ∀ l, r.2 = some l → Built s r.1 l ∧ r.1.readMsg l = s.readMsg (mp :: rest) ∧
    k ≤ lead s.mem (s.mem.dbType mp) (mp :: rest) ∧ ∃ b m, l = b :: m ∧ r.1.mem.nbytes b = max 0 k

theorem msgpullup_outcome (hs : s.mem.Sane) (hm : s.mem.IsMsg (mp :: rest)) (hp : ∀ b ∈ mp :: rest, 0 ≤ s.mem.nbytes b)
    (hlen : -1 ≤ len) (hdr buf : Place → Bool) :
    Outcome s mp rest (asked s.mem mp rest len) hdr buf (s.lisMsgpullup mp rest len hdr buf) := by
  have hblk : ∀ b ∈ mp :: rest, b ∈ s.mem.live ∧ 0 ≤ s.mem.nbytes b := fun b hb => ⟨hm.2 b hb,hp b hb⟩
  have hasked : (if len < 0 then s.mem.lisXmsgsize (s.mem.dbType mp) (mp :: rest) else len) = asked s.mem mp rest len := by
    unfold asked
    rw [lisXmsgsize_lead hp]
    split_ifs <;> omega
  have hlead := lead_nonneg s.mem (s.mem.dbType mp) hp
  unfold lisMsgpullup
  dsimp only
  rw [hasked]
  generalize asked s.mem mp rest len = k at *
  rcases (Built.refl hs).allocb k.toNat (hdr .first) (buf .first) with ⟨m,hmm,hb,-,hno⟩ | ⟨m,size,hmm,hb,-,hself⟩
  · rw [hmm]
    refine ⟨fun _ => ⟨hb,fun hall => absurd (hall .first) hno⟩,fun l hl => ?_⟩
    cases hl
  · rw [hmm]
    dsimp only
    generalize s.mem.next = new at hb hself ⊢
    have hnew : new ∈ [] ++ [new] := List.mem_singleton_self _
    obtain ⟨hb1,hself1,-⟩ := hb.setType hnew (s.mem.dbType mp)
    set t : Store := { s with mem := m.setType new (s.mem.dbType mp) } with ht
    have hself1' : t.mem.mdb new = { m.mdb new with dbType := s.mem.dbType mp } := hself1
    have hty : t.mem.dbType new = s.mem.dbType mp := by rw [own_dbType (hb1.own new hnew),hself1']
    have hzero : t.mem.nbytes new = 0 := by
      unfold Mem.nbytes
      rw [hself1',hself]
      rfl
    have hb1' : Built s t [new] := hb1
    rcases hb1'.pullup hs hblk hty hzero.ge k (hdr .left) (buf .left) with ⟨v,hv,hbv,hno⟩ | ⟨v,k',l,post,hv,hk⟩
    · rw [hv]
      refine ⟨fun _ => ⟨hbv,fun hall => absurd (hall .left) hno⟩,fun l hl => ?_⟩
      cases hl
    · rw [hv]
      dsimp only
      have hread := hk.read
      rw [read_empty hzero,List.nil_append] at hread
      have hnv : v.mem.nbytes new = max 0 (min k (lead s.mem (s.mem.dbType mp) (mp :: rest))) := by
        rw [hk.nbytes,hzero,zero_add]
      by_cases hshort : 0 < k'
      · -- too few bytes
        rw [if_pos hshort]
        refine ⟨fun _ => ⟨?_,fun _ => hk.left.mp hshort⟩,fun l hl => ?_⟩
        · exact (show Built s v ([] ++ new :: l) from hk.built).freemsg
        · cases hl
      · rw [if_neg hshort]
        have hle : k ≤ lead s.mem (s.mem.dbType mp) (mp :: rest) := not_lt.mp fun h => hshort (hk.left.mpr h)
        have hmin : max 0 (min k (lead s.mem (s.mem.dbType mp) (mp :: rest))) = max 0 k := by rw [min_eq_left hle]
        rw [hmin] at hnv
        cases post with
        | nil =>
          refine ⟨fun hc => ?_,fun l' hl => ?_⟩
          · cases hc
          · obtain rfl := Option.some.inj hl
            refine ⟨hk.built,?_,hle,new,l,rfl,hnv⟩
            simpa [readMsg] using hread
        | cons a post =>
          dsimp only
          have hpost : ∀ b ∈ a :: post, b ∈ s.mem.live ∧ 0 ≤ s.mem.nbytes b := fun b hb => hblk b (hk.suffix b hb)
          have hbv : Built s v ((new :: l) ++ []) := by simpa using hk.built
          unfold lisCopymsg
          rcases hbv.copymsg (fun b => hdr (.copy b)) (fun b => buf (.copy b)) hs hpost with
            ⟨w,hw,hbw,b,hno⟩ | ⟨w,c,hw,hbw,hkept,hview⟩
          · rw [hw]
            refine ⟨fun _ => ⟨?_,fun hall => absurd (hall (.copy b)) hno⟩,fun l hl => ?_⟩
            · exact (show Built s w ([] ++ new :: l) from hbw).freemsg
            · cases hl
          · rw [hw]
            dsimp only
            rw [List.nil_append] at hbw ⊢
            rw [List.append_nil] at hkept
            have hown : ∀ b ∈ new :: l, Own v.mem b := hk.built.own
            have hv1 := hkept.view hown
            refine ⟨fun hc => ?_,fun l' hl => ?_⟩
            · cases hc
            · obtain rfl := Option.some.inj hl
              refine ⟨hbw,?_,hle,new,l ++ c,rfl,?_⟩
              · have h1 : w.readMsg (new :: l) = v.readMsg (new :: l) := congrArg Prod.fst hv1
                have h2 : w.readMsg c = s.readMsg (a :: post) := congrArg Prod.fst hview
                have h3 : w.readMsg (new :: l ++ c) = w.readMsg (new :: l) ++ w.readMsg c := List.flatMap_append
                rw [h3,h1,h2,hread]
              · obtain ⟨h1,h2⟩ := hkept new List.mem_cons_self
                rw [(own_same (hown new List.mem_cons_self) h1 h2).2.1]
                exact hnv

/- The copy of a message that is pulled up. -/
theorem copy_pullup (hs : s.mem.Sane) (hm : s.mem.IsMsg (mp :: rest)) (hp : ∀ b ∈ mp :: rest, 0 ≤ s.mem.nbytes b)
    (len : ℤ) : ∃ c cp crest, s.lisCopymsg (mp :: rest) (fun _ => true) (fun _ => true) = (c,some (cp :: crest)) ∧
      ∀ aligned, ((c.lisPullupmsg cp crest len aligned true true).2.1 = true ↔
        s.mem.pullLength mp rest len aligned ≠ .error false) := by
  have hblk : ∀ b ∈ mp :: rest, b ∈ s.mem.live ∧ 0 ≤ s.mem.nbytes b := fun b hb => ⟨hm.2 b hb,hp b hb⟩
  have h0 : Built s s ([] ++ []) := Built.refl hs
  rcases h0.copymsg (fun _ => true) (fun _ => true) hs hblk with ⟨v,-,-,b,hno⟩ | ⟨v,c,hv,-,-,hview⟩
  · exact absurd ⟨rfl,rfl⟩ hno
  · cases c with
    | nil =>
      have hlen := congrArg List.length (congrArg Prod.snd hview)
      simp [view] at hlen
    | cons cp crest =>
      refine ⟨v,cp,crest,hv,fun aligned => ?_⟩
      rw [pullupmsg_answer,pullLength_view hview]

/-- With blocks that are in memory and shorter than 2^31 bytes, the two routines agree, and the copy is right, exactly
when the bytes fit. -/
theorem msgpullup_agrees (hs : s.mem.Sane) (hm : s.mem.IsMsg (mp :: rest))
    (hp : ∀ b ∈ mp :: rest, 0 ≤ s.mem.nbytes b ∧ s.mem.nbytes b < 2 ^ 31) (n : Int32) (hn : -1 ≤ n.toInt) :
    (∀ hdr buf, PulledCopy s mp rest n.toInt hdr buf (s.lisMsgpullup mp rest n.toInt hdr buf)) ↔
      Fits s.mem mp rest n.toInt := by
  have hp0 : ∀ b ∈ mp :: rest, 0 ≤ s.mem.nbytes b := fun b hb => (hp b hb).1
  have hmax := n.toInt_lt
  generalize n.toInt = len at hn hmax ⊢
  have hS := lead_nonneg s.mem (s.mem.dbType mp) hp0
  have hout := fun hdr buf => msgpullup_outcome hs hm hp0 hn hdr buf
  obtain ⟨c,cp,crest,hc,hpull⟩ := copy_pullup hs hm hp0 len
  have hpl := fun aligned => pullLength_eq aligned hp0 hn
  -- what `lis_pullupmsg` of the copy answers
  have hans : ∀ aligned, (c.lisPullupmsg cp crest len aligned true true).2.1 = true ↔
      asked s.mem mp rest len = 0 ∨ 0 ≤ asked s.mem mp rest len ∧
        asked s.mem mp rest len ≤ (lead s.mem (s.mem.dbType mp) (mp :: rest)).bmod (2 ^ 32) := by
    intro aligned
    rw [hpull,hpl]
    split_ifs with h1 h2 h3 h4
    · simp [h1]
    · simp only [ne_eq,not_true_eq_false,false_iff,not_or,not_and,not_le]
      omega
    all_goals
      simp only [ne_eq,reduceCtorEq,not_false_eq_true,true_iff,Except.error.injEq,Bool.true_eq_false]
      omega
  have hwle : (lead s.mem (s.mem.dbType mp) (mp :: rest)).bmod (2 ^ 32) ≤ lead s.mem (s.mem.dbType mp) (mp :: rest) := by
    rw [Int.bmod_def]
    split_ifs <;> omega
  have hwmax : (lead s.mem (s.mem.dbType mp) (mp :: rest)).bmod (2 ^ 32) < 2 ^ 31 := Int.bmod_lt (by decide)
  have hweq : lead s.mem (s.mem.dbType mp) (mp :: rest) < 2 ^ 31 →
      (lead s.mem (s.mem.dbType mp) (mp :: rest)).bmod (2 ^ 32) = lead s.mem (s.mem.dbType mp) (mp :: rest) :=
    fun h => Int.bmod_eq_of_le (by omega) (by omega)
  have hW : len = -1 ∧ asked s.mem mp rest len = (lead s.mem (s.mem.dbType mp) (mp :: rest)).bmod (2 ^ 32) ∧
        want s.mem mp rest len = lead s.mem (s.mem.dbType mp) (mp :: rest) ∨
      0 ≤ len ∧ asked s.mem mp rest len = len ∧ want s.mem mp rest len = len := by
    unfold asked want
    split_ifs with h
    · exact .inl ⟨h,rfl,rfl⟩
    · exact .inr ⟨by omega,rfl,rfl⟩
  unfold Fits
  generalize hSd : lead s.mem (s.mem.dbType mp) (mp :: rest) = S at *
  generalize S.bmod (2 ^ 32) = w at *
  constructor
  · intro h
    have hone := h (fun _ => true) fun _ => true
    obtain ⟨c',cp',crest',hc',hagree⟩ := hone.agree fun _ => ⟨rfl,rfl⟩
    obtain ⟨rfl,hl⟩ := Prod.mk.inj (hc'.symm.trans hc)
    obtain ⟨rfl,rfl⟩ := List.cons.inj (Option.some.inj hl)
    have hag := (hagree true).trans (hans true)
    cases hr : (s.lisMsgpullup mp rest len (fun _ => true) fun _ => true).2 with
    | none =>
      obtain ⟨-,hlt⟩ := (hout (fun _ => true) fun _ => true).none hr
      have hlt := hlt fun _ => ⟨rfl,rfl⟩
      omega
    | some l =>
      rw [hr,Option.isSome_some] at hag
      have hok := hag.mp rfl
      obtain ⟨-,-,hle,b,m,rfl,hnb⟩ := (hout (fun _ => true) fun _ => true).some l hr
      obtain ⟨b',m',hl,hfirst⟩ := hone.first _ hr
      obtain ⟨rfl,rfl⟩ := List.cons.inj hl
      omega
  · intro hfits hdr buf
    have ho := hout hdr buf
    generalize s.lisMsgpullup mp rest len hdr buf = r at ho ⊢
    have hbuilt : ∃ l, Built s r.1 l := by
      cases hr : r.2 with
      | none => exact ⟨_,(ho.none hr).1⟩
      | some l => exact ⟨l,(ho.some l hr).1⟩
    refine ⟨fun hall => ⟨c,cp,crest,hc,fun aligned => ?_⟩,fun l hl => (ho.some l hl).2.1,fun l hl => ?_,fun b hb => ?_,
      fun hr => ?_⟩
    · rw [hans]
      cases hr : r.2 with
      | none =>
        have hlt := (ho.none hr).2 hall
        simp only [Option.isSome_none,Bool.false_eq_true,false_iff]
        omega
      | some l =>
        obtain ⟨-,-,hle,-⟩ := ho.some l hr
        simp only [Option.isSome_some,true_iff]
        omega
    · obtain ⟨-,-,hle,b,m,rfl,hnb⟩ := ho.some l hl
      refine ⟨b,m,rfl,?_⟩
      omega
    · obtain ⟨l,hb'⟩ := hbuilt
      refine ⟨?_,hb'.mdb b (hs.lt b hb),(hb'.caller hs hb).1⟩
      exact hb'.live.mem_iff.mpr (List.mem_append_right _ hb)
    · have hb' := (ho.none hr).1
      exact ⟨hb'.live,fun x h1 h2 => hb'.gone x h1 h2 List.not_mem_nil⟩

/- Two blocks of a user's buffer with four bytes each, of which five are pulled up. -/
def eight : List Mem.MsgAct :=
  [.esballoc 16 true,.setPtrs 0 0 4,.dupmsg [0] fun _ => true,.setPtrs 1 4 8]

theorem msgpullup_agrees_eight : ∃ s : Store, exec Mem.call Mem.init eight = some s.mem ∧
    ∀ hdr buf, PulledCopy s 0 [1] 5 hdr buf (s.lisMsgpullup 0 [1] 5 hdr buf) := by
  obtain ⟨m,hm⟩ := Option.isSome_iff_exists.mp (show (exec Mem.call Mem.init eight).isSome from rfl)
  obtain ⟨hh,hi⟩ := Mem.run_inUse (show Meets Mem.call Mem.Light Mem.init eight by decide) hm
  have hfacts : (exec Mem.call Mem.init eight).map (fun m =>
      (decide (m.IsMsg [0,1]),m.nbytes 0,m.nbytes 1,m.dbType 0,m.dbType 1)) = some (true,4,4,0,0) := rfl
  rw [hm,Option.map_some,Option.some.injEq] at hfacts
  simp only [Prod.mk.injEq,decide_eq_true_eq] at hfacts
  obtain ⟨h1,h2,h3,h4,h5⟩ := hfacts
  refine ⟨⟨m,fun _ _ => 0⟩,hm,?_⟩
  refine (msgpullup_agrees (s := ⟨m,fun _ _ => 0⟩) (hh.sane hi) h1 ?_ 5 (by decide)).mpr (.inr (.inl ?_))
  · intro b hb
    rcases List.mem_cons.mp hb with rfl | hb
    · show 0 ≤ m.nbytes 0 ∧ m.nbytes 0 < 2 ^ 31
      rw [h2]
      decide
    · obtain rfl := List.mem_singleton.mp hb
      show 0 ≤ m.nbytes 1 ∧ m.nbytes 1 < 2 ^ 31
      rw [h3]
      decide
  · show lead m (m.dbType 0) [0,1] < 2 ^ 31
    rw [lead_cons,lead_cons,h4,h5,h2,h3]
    exact (by decide : (4 + (4 + 0) : ℤ) < 2 ^ 31)

/- Of two blocks with a gigabyte each the copying routine pulls one byte up, the other one none. -/
theorem msgpullup_alone : ¬ ∀ (as : List Mem.MsgAct) (s : Store) (mp : ℕ) (rest : List ℕ) (n : Int32)
    (hdr buf : Place → Bool), exec Mem.call Mem.init as = some s.mem → s.mem.IsMsg (mp :: rest) →
    (∀ b ∈ mp :: rest, 0 ≤ s.mem.nbytes b ∧ s.mem.nbytes b < 2 ^ 31) → -1 ≤ n.toInt →
      PulledCopy s mp rest n.toInt hdr buf (s.lisMsgpullup mp rest n.toInt hdr buf) := by
  intro h
  have hp := h huge ⟨_,fun _ _ => 0⟩ 0 [1] 1 (fun _ => true) (fun _ => true) rfl (by decide) (by decide) (by decide)
  obtain ⟨c,cp,crest,hc,hagree⟩ := hp.agree fun _ => ⟨rfl,rfl⟩
  obtain ⟨hh,hi⟩ := Mem.run_inUse (show Meets Mem.call Mem.Light Mem.init huge by decide) rfl
  obtain ⟨c',cp',crest',hc',hpull⟩ := copy_pullup (s := ⟨_,fun _ _ => 0⟩) (hh.sane hi)
    (show Mem.IsMsg _ [0,1] by decide) (by decide) 1
  obtain ⟨rfl,hl⟩ := Prod.mk.inj (hc.symm.trans hc')
  obtain ⟨rfl,rfl⟩ := List.cons.inj (Option.some.inj hl)
  exact (hpull true).mp ((hagree true).mp rfl) rfl

end CSLiS.Buffer.Store
