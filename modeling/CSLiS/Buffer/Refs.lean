import CSLiS.Buffer.Mdbblock
import CSLiS.Lib.Refs

/-!
# What the routines do to the reference counts (head/msg.c, head/msgutl.c)

A block that is freed, or gets another data block, gives up its reference to the
old one. `Drop` and `Swap` say what follows from that for the counts, the headers
and the buffers, all branches of `lis_freedb` taken together.
-/

namespace CSLiS.Buffer
open Queue Lib.Refs

namespace Mem

variable {s t : Mem} {x y b d n : ℕ}

def datap (s : Mem) (b : ℕ) : Option ℕ := (s.mdb b).bDatap
def ref (s : Mem) (x : ℕ) : Uchar := (s.mdb x).dbRef

/-- The data block has a buffer outside a header that was not given back. -/
def Holding (s : Mem) (x : ℕ) : Prop :=
  (s.mdb x).frtnp = true ∨ FASTBUF < (s.mdb x).dbSize ∧ (s.mdb x).dbBase = some x

/-- All bytes of the data block are in its header. -/
def Plain (s : Mem) (x : ℕ) : Prop := (s.mdb x).frtnp = false ∧ (s.mdb x).dbSize ≤ FASTBUF

/- Two headers whose data blocks stand for the same buffer. -/
def SameBuf (m m' : Mdb) : Prop := m'.frtnp = m.frtnp ∧ m'.dbSize = m.dbSize ∧ m'.dbBase = m.dbBase

@[simp] theorem upd_live (f : Mdb → Mdb) : (s.upd x f).live = s.live := rfl
@[simp] theorem upd_next (f : Mdb → Mdb) : (s.upd x f).next = s.next := rfl
@[simp] theorem upd_external (f : Mdb → Mdb) : (s.upd x f).external = s.external := rfl
@[simp] theorem upd_freed (f : Mdb → Mdb) : (s.upd x f).freed = s.freed := rfl
@[simp] theorem upd_released (f : Mdb → Mdb) : (s.upd x f).released = s.released := rfl
@[simp] theorem upd_self (f : Mdb → Mdb) : (s.upd x f).mdb x = f (s.mdb x) := Function.update_self ..
theorem upd_mdb (f : Mdb → Mdb) : (s.upd x f).mdb y = if y = x then f (s.mdb x) else s.mdb y := by
  by_cases h : y = x
  · subst h
    simp
  · simp [upd,h]
@[simp] theorem freehdr_mdb : (s.freehdr x).mdb = s.mdb := rfl

/- Giving the buffer back, if there is one. -/
theorem releaseBuf_eq : ∃ size base rel, s.releaseBuf x =
      { s.upd x fun m => { m with dbSize := size, dbBase := base } with released := s.released ++ rel } ∧
    ((x ∈ s.external → s.Holding x) → (x ∉ s.external → s.Plain x) →
      rel = if x ∈ s.external then [x] else []) := by
  unfold releaseBuf
  cases hf : (s.mdb x).frtnp with
  | true =>
    refine ⟨0,(s.mdb x).dbBase,[x],by simp [hf,upd],fun _ hn => ?_⟩
    by_cases hx : x ∈ s.external
    · rw [if_pos hx]
    · simp [(hn hx).1] at hf
  | false =>
    by_cases hsize : FASTBUF < (s.mdb x).dbSize
    · refine ⟨(s.mdb x).dbSize,none,(s.mdb x).dbBase.toList,by simp [hf,hsize,upd],fun he hn => ?_⟩
      by_cases hx : x ∈ s.external
      · simp [((he hx).resolve_left (by simp [hf])).2,hx]
      · exact absurd hsize (not_lt.mpr (hn hx).2)
    · refine ⟨(s.mdb x).dbSize,(s.mdb x).dbBase,[],by simp [hf,hsize,upd],fun he hn => ?_⟩
      by_cases hx : x ∈ s.external
      · exact absurd ((he hx).resolve_left (by simp [hf])).1 hsize
      · rw [if_neg hx]

theorem uchar_sub_one {n : Uchar} : n - 1 = 0 ↔ n = 1 := sub_eq_zero

theorem uchar_pos {n : Uchar} : 0 < n ↔ n ≠ 0 := Fin.pos_iff_ne_zero

theorem releaseBuf_ref : (s.releaseBuf x).ref y = s.ref y := by
  obtain ⟨size,base,rel,he,-⟩ := releaseBuf_eq (s := s) (x := x)
  simp only [he,ref,upd_mdb]
  split_ifs with h
  · rw [h]
  · rfl

/- A block that refers to its own data block. The header is in use as long as the
count is not 0, or stays in use without the data block. -/
theorem lisFreedb_own {freeHdr : Bool} (hd : s.datap b = some b) (hr : s.ref b ≠ 0) :
    s.lisFreedb b freeHdr =
      if s.ref b = 1 then
        if freeHdr then ((s.decRef b).releaseBuf b).freehdr b
        else ((s.decRef b).releaseBuf b).incRef b
      else if freeHdr then s.decRef b else (s.decRef b).incRef b := by
  have h0 : ((s.decRef b).mdb b).dbRef = s.ref b - 1 := by simp [decRef,ref]
  have h1 : (((s.decRef b).releaseBuf b).mdb b).dbRef = s.ref b - 1 := releaseBuf_ref.trans h0
  have hr' : (s.mdb b).dbRef ≠ 0 := hr
  have hd' : (s.mdb b).bDatap = some b := hd
  cases freeHdr <;> by_cases h : s.ref b = 1 <;> simp [lisFreedb,hd',hr',h0,h1,h,uchar_sub_one]

/- A block that refers to the data block of another header. -/
theorem lisFreedb_other {freeHdr : Bool} (hd : s.datap b = some d) (hne : d ≠ b) (hr : s.ref d ≠ 0)
    (hb : s.ref b ≠ 0) :
    s.lisFreedb b freeHdr =
      let t := if s.ref d = 1 then (((s.decRef d).releaseBuf d).freehdr d).setDatap b (some b)
        else s.decRef d
      if freeHdr then if s.ref b = 1 then (t.decRef b).freehdr b else t.decRef b else t := by
  have h0 : ((s.decRef d).mdb d).dbRef = s.ref d - 1 := by simp [decRef,ref]
  have hb0 : ((s.decRef d).mdb b).dbRef = s.ref b := by simp [decRef,ref,upd_mdb,hne.symm]
  have hb1 : (((((s.decRef d).releaseBuf d).freehdr d).setDatap b (some b)).mdb b).dbRef = s.ref b := by
    simp only [setDatap,upd_self]
    exact releaseBuf_ref.trans hb0
  have hdec : ∀ t : Mem, ((t.decRef b).mdb b).dbRef = (t.mdb b).dbRef - 1 := fun t => by simp [decRef]
  have hr' : (s.mdb d).dbRef ≠ 0 := hr
  have hd' : (s.mdb b).bDatap = some d := hd
  have hpos : 0 < s.ref b := uchar_pos.mpr hb
  cases freeHdr <;> by_cases h : s.ref d = 1 <;> by_cases h' : s.ref b = 1 <;>
    simp [lisFreedb,hd',hr',h0,hb0,hb1,h,h',hne,hpos,hdec,uchar_sub_one]

/-- The block `b` gave up its reference to the data block of `d` and its header. -/
structure Drop (s t : Mem) (b d : ℕ) : Prop where
  live : t.live = s.live.erase b
  next : t.next = s.next
  external : t.external = s.external
  datap : ∀ x ≠ b, t.datap x = s.datap x
  buf : ∀ x, (t.mdb x).bBuf = (s.mdb x).bBuf
  ref : ∀ x, t.ref x = s.ref x - (if x = d then 1 else 0) - if x = b ∧ d ≠ b then 1 else 0
  freed : t.freed = s.freed ++ (if d ≠ b ∧ s.ref d = 1 then [d] else []) ++
    if s.ref b = 1 then [b] else []
  released : t.released = s.released ++ if s.ref d = 1 ∧ d ∈ s.external then [d] else []
  same : ∀ x, x = d ∧ s.ref d = 1 ∨ SameBuf (s.mdb x) (t.mdb x)

theorem lisFreeb_drop (hd : s.datap b = some d) (hr : s.ref d ≠ 0) (hb : s.ref b ≠ 0)
    (he : s.ref d = 1 → d ∈ s.external → s.Holding d)
    (hn : s.ref d = 1 → d ∉ s.external → s.Plain d) : Drop s (s.lisFreeb b) b d := by
  obtain ⟨size,base,rel,hrel,hrel'⟩ := releaseBuf_eq (s := s.decRef d) (x := d)
  have hout : s.ref d = 1 → rel = if d ∈ s.external then [d] else [] := by
    intro h1
    refine hrel' (fun hx => ?_) fun hx => ?_
    · simpa [Holding,decRef] using he h1 hx
    · simpa [Plain,decRef] using hn h1 hx
  unfold lisFreeb
  by_cases hdb : d = b
  · subst hdb
    rw [lisFreedb_own hd hr]
    by_cases h1 : s.ref d = 1
    · rw [if_pos h1,if_pos rfl,hrel]
      refine ⟨rfl,rfl,rfl,fun x hx => ?_,fun x => ?_,fun x => ?_,?_,?_,fun x => ?_⟩
      · simp [Mem.datap,decRef,upd_mdb,hx]
      · simp only [freehdr_mdb,decRef,upd_mdb]
        split_ifs <;> simp_all
      · simp only [ref,freehdr_mdb,decRef,upd_mdb]
        split_ifs <;> simp_all
      · simp [freehdr,decRef,h1]
      · simp [freehdr,decRef,h1,hout h1]
      · by_cases hx : x = d
        · exact .inl ⟨hx,h1⟩
        · exact .inr (by simp [SameBuf,decRef,upd_mdb,hx])
    · rw [if_neg h1,if_pos rfl]
      refine ⟨rfl,rfl,rfl,fun x hx => ?_,fun x => ?_,fun x => ?_,?_,?_,fun x => .inr ?_⟩
      · simp [Mem.datap,decRef,upd_mdb,hx]
      · simp only [decRef,upd_mdb]
        split_ifs <;> simp_all
      · simp only [ref,decRef,upd_mdb]
        split_ifs <;> simp_all
      · simp [decRef,h1]
      · simp [decRef,h1]
      · by_cases hx : x = d <;> simp [SameBuf,decRef,upd_mdb,hx]
  · have hbd : b ≠ d := Ne.symm hdb
    have hfree : ∀ t : Mem, (if s.ref b = 1 then (t.decRef b).freehdr b else t.decRef b) =
        { t.decRef b with freed := t.freed ++ if s.ref b = 1 then [b] else [] } := by
      intro t
      split_ifs <;> simp [freehdr,decRef,upd]
    rw [lisFreedb_other hd hdb hr hb]
    simp only [if_true]
    rw [hfree]
    by_cases h1 : s.ref d = 1
    · rw [if_pos h1,hrel]
      refine ⟨rfl,rfl,rfl,fun x hx => ?_,fun x => ?_,fun x => ?_,?_,?_,fun x => ?_⟩
      · simp only [Mem.datap,decRef,setDatap,upd_mdb,freehdr_mdb]
        split_ifs <;> simp_all
      · simp only [decRef,setDatap,upd_mdb,freehdr_mdb]
        split_ifs <;> simp_all
      · simp only [ref,decRef,setDatap,upd_mdb,freehdr_mdb]
        split_ifs <;> simp_all
      · simp [freehdr,decRef,setDatap,h1,hdb]
      · simp [freehdr,decRef,setDatap,h1,hout h1]
      · by_cases hx : x = d
        · exact .inl ⟨hx,h1⟩
        · refine .inr ?_
          by_cases hxb : x = b <;> simp [SameBuf,decRef,setDatap,upd_mdb,hx,hxb,hbd]
    · rw [if_neg h1]
      refine ⟨rfl,rfl,rfl,fun x hx => ?_,fun x => ?_,fun x => ?_,?_,?_,fun x => .inr ?_⟩
      · simp only [Mem.datap,decRef,upd_mdb]
        split_ifs <;> simp_all
      · simp only [decRef,upd_mdb]
        split_ifs <;> simp_all
      · simp only [ref,decRef,upd_mdb]
        split_ifs <;> simp_all
      · simp [decRef,h1]
      · simp [decRef,h1]
      · by_cases hx : x = d <;> by_cases hxb : x = b <;> simp_all [SameBuf,decRef,upd_mdb]

/-- The block `b` gave up its reference to the data block of `d` and took over that
of `n`, which was a block of its own. -/
structure Swap (s t : Mem) (b d n : ℕ) : Prop where
  live : t.live = s.live.erase n
  next : t.next = s.next
  external : t.external = s.external
  datapSelf : t.datap b = some n ∧ (t.mdb b).bBuf = (s.mdb n).bBuf
  datap : ∀ x, x ≠ b → x ≠ n → t.datap x = s.datap x ∧ (t.mdb x).bBuf = (s.mdb x).bBuf
  ref : ∀ x, t.ref x = s.ref x - if x = d ∧ d ≠ b then 1 else 0
  freed : t.freed = s.freed ++ if d ≠ b ∧ s.ref d = 1 then [d] else []
  released : t.released = s.released ++ if s.ref d = 1 ∧ d ∈ s.external then [d] else []
  same : ∀ x, x = d ∧ s.ref d = 1 ∨ SameBuf (s.mdb x) (t.mdb x)

theorem swap_swap (hd : s.datap b = some d) (hn : s.datap n = some n) (hnb : n ≠ b)
    (hr : s.ref d ≠ 0) (hb : s.ref b ≠ 0) (he : s.ref d = 1 → d ∈ s.external → s.Holding d)
    (hp : s.ref d = 1 → d ∉ s.external → s.Plain d) : Swap s (s.swap b n) b d n := by
  obtain ⟨size,base,rel,hrel,hrel'⟩ := releaseBuf_eq (s := s.decRef d) (x := d)
  have hout : s.ref d = 1 → rel = if d ∈ s.external then [d] else [] := by
    intro h1
    refine hrel' (fun hx => ?_) fun hx => ?_
    · simpa [Holding,decRef] using he h1 hx
    · simpa [Plain,decRef] using hp h1 hx
  have hn' : (s.mdb n).bDatap = some n := hn
  have hbn : b ≠ n := Ne.symm hnb
  unfold swap
  by_cases hdb : d = b
  · subst hdb
    rw [lisFreedb_own hd hr]
    by_cases h1 : s.ref d = 1
    · rw [if_pos h1,if_neg Bool.false_ne_true,hrel]
      refine ⟨rfl,rfl,rfl,⟨?_,?_⟩,fun x hx hxn => ⟨?_,?_⟩,fun x => ?_,?_,?_,fun x => ?_⟩
      · simp [Mem.datap,decRef,incRef,upd_mdb,hbn,hnb,hn']
      · simp [decRef,incRef,upd_mdb,hbn,hnb]
      · simp [Mem.datap,decRef,incRef,upd_mdb,hx,hxn]
      · simp [decRef,incRef,upd_mdb,hx,hxn]
      · simp only [ref,decRef,incRef,upd_mdb]
        split_ifs <;> simp_all
      · simp [decRef,incRef]
      · simp [decRef,incRef,h1,hout h1]
      · by_cases hx : x = d
        · exact .inl ⟨hx,h1⟩
        · refine .inr ?_
          by_cases hxn : x = n <;> simp [SameBuf,decRef,incRef,upd_mdb,hx,hxn,hnb]
    · rw [if_neg h1,if_neg Bool.false_ne_true]
      refine ⟨rfl,rfl,rfl,⟨?_,?_⟩,fun x hx hxn => ⟨?_,?_⟩,fun x => ?_,?_,?_,fun x => .inr ?_⟩
      · simp [Mem.datap,decRef,incRef,upd_mdb,hbn,hnb,hn']
      · simp [decRef,incRef,upd_mdb,hbn,hnb]
      · simp [Mem.datap,decRef,incRef,upd_mdb,hx,hxn]
      · simp [decRef,incRef,upd_mdb,hx,hxn]
      · simp only [ref,decRef,incRef,upd_mdb]
        split_ifs <;> simp_all
      · simp [decRef,incRef]
      · simp [decRef,incRef,h1]
      · by_cases hx : x = d <;> by_cases hxn : x = n <;> simp_all [SameBuf,decRef,incRef,upd_mdb]
  · have hbd : b ≠ d := Ne.symm hdb
    rw [lisFreedb_other hd hdb hr hb]
    simp only [Bool.false_eq_true,if_false]
    by_cases h1 : s.ref d = 1
    · rw [if_pos h1,hrel]
      refine ⟨rfl,rfl,rfl,⟨?_,?_⟩,fun x hx hxn => ⟨?_,?_⟩,fun x => ?_,?_,?_,fun x => ?_⟩
      · simp only [Mem.datap,decRef,setDatap,upd_mdb,freehdr_mdb]
        split_ifs <;> simp_all
      · simp only [decRef,setDatap,upd_mdb,freehdr_mdb]
        split_ifs <;> simp_all
      · simp only [Mem.datap,decRef,setDatap,upd_mdb,freehdr_mdb]
        split_ifs <;> simp_all
      · simp only [decRef,setDatap,upd_mdb,freehdr_mdb]
        split_ifs <;> simp_all
      · simp only [ref,decRef,setDatap,upd_mdb,freehdr_mdb]
        split_ifs <;> simp_all
      · simp [freehdr,decRef,setDatap,h1,hdb]
      · simp [freehdr,decRef,setDatap,h1,hout h1]
      · by_cases hx : x = d
        · exact .inl ⟨hx,h1⟩
        · refine .inr ?_
          simp only [SameBuf,decRef,setDatap,upd_mdb,freehdr_mdb]
          split_ifs <;> simp_all
    · rw [if_neg h1]
      refine ⟨rfl,rfl,rfl,⟨?_,?_⟩,fun x hx hxn => ⟨?_,?_⟩,fun x => ?_,?_,?_,fun x => .inr ?_⟩
      · simp only [Mem.datap,decRef,upd_mdb]
        split_ifs <;> simp_all
      · simp only [decRef,upd_mdb]
        split_ifs <;> simp_all
      · simp [Mem.datap,decRef,upd_mdb,hx,hxn]
        split_ifs <;> simp_all
      · simp [decRef,upd_mdb,hx,hxn]
        split_ifs <;> simp_all
      · simp only [ref,decRef,upd_mdb]
        split_ifs <;> simp_all
      · simp [decRef,h1]
      · simp [decRef,h1]
      · simp only [SameBuf,decRef,upd_mdb]
        split_ifs <;> simp_all

/-- A new block, which refers to the data block of `d`: its own one, or one of old. -/
structure Grow (s t : Mem) (d : ℕ) (separate : Bool) : Prop where
  live : t.live = s.next :: s.live
  next : t.next = s.next + 1
  external : t.external = if separate then s.next :: s.external else s.external
  freed : t.freed = s.freed
  released : t.released = s.released
  datapSelf : t.datap s.next = some d ∧ (t.mdb s.next).bBuf = some d
  datap : ∀ x ≠ s.next, t.datap x = s.datap x ∧ (t.mdb x).bBuf = (s.mdb x).bBuf
  refSelf : t.ref s.next = 1
  ref : ∀ x ≠ s.next, t.ref x = s.ref x + if x = d then 1 else 0
  bufSelf : if separate then t.Holding s.next else t.Plain s.next
  same : ∀ x ≠ s.next, SameBuf (s.mdb x) (t.mdb x)

theorem initb_mdb (separate : Bool) (size : ℕ) (frtn : Bool) : (s.initb separate size frtn).mdb x =
    if x = s.next then ⟨some s.next,some s.next,0,0,frtn,some s.next,1,M_DATA,
      if separate then size else FASTBUF⟩ else s.mdb x := by
  by_cases h : x = s.next
  · subst h
    simp [initb]
  · simp [initb,h]

theorem initb_grow (separate : Bool) (size : ℕ) (frtn : Bool)
    (hs : separate = true → frtn = true ∨ FASTBUF < size) (hf : frtn = true → separate = true) :
    Grow s (s.initb separate size frtn) s.next separate := by
  refine ⟨rfl,rfl,rfl,rfl,rfl,?_,fun x hx => ?_,?_,fun x hx => ?_,?_,fun x hx => ?_⟩
  · simp [Mem.datap,initb_mdb]
  · simp [Mem.datap,initb_mdb,hx]
  · simp [Mem.ref,initb_mdb]
  · simp [Mem.ref,initb_mdb,hx]
  · cases separate with
    | true => simpa [Holding,initb_mdb] using hs rfl
    | false => cases frtn <;> simp_all [Plain,initb_mdb]
  · simp [SameBuf,initb_mdb,hx]

theorem lisDupb_grow (hd : s.datap b = some d) (hbuf : (s.mdb b).bBuf = some d) (hb : b ≠ s.next)
    (hne : d ≠ s.next) :
    Grow s (s.lisDupb b true).1 d false ∧ (s.lisDupb b true).2 = some s.next := by
  have hd' : (s.mdb b).bDatap = some d := hd
  have hz : ¬FASTBUF < 0 := Nat.not_lt_zero _
  simp only [lisDupb,lisAllocb,hz,decide_false,Bool.false_and,Bool.not_true,initb_mdb,if_neg hb,hd',
    Option.elim_some,Bool.false_eq_true,if_false,and_true]
  refine ⟨rfl,rfl,rfl,rfl,rfl,?_,fun x hx => ?_,?_,fun x hx => ?_,?_,fun x hx => ?_⟩
  · simp [Mem.datap,incRef,upd_mdb,hne.symm,hbuf]
  · simp only [Mem.datap,incRef,upd_mdb,initb_mdb]
    split_ifs <;> simp_all
  · simp [Mem.ref,incRef,upd_mdb,initb_mdb,hne.symm]
  · simp only [Mem.ref,incRef,upd_mdb,initb_mdb]
    split_ifs <;> simp_all
  · simp [Plain,incRef,upd_mdb,initb_mdb,hne.symm]
  · simp only [SameBuf,incRef,upd_mdb,initb_mdb]
    split_ifs <;> simp_all

end Mem

end CSLiS.Buffer
