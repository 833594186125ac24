import CSLiS.Head.Pcproto
import CSLiS.Head.Reassembly

/-!
# How many M_PCPROTO a stream head holds (head/head.c)

STRPRI stands for the one M_PCPROTO on `sd_rput` or `sd_rq`. While a reader puts one back, it stands for
that one.
-/

namespace CSLiS.Head
open Queue Lib.Exec

variable {so : Mesg → StroptionsT} {s t : PriHead} {a : PriAct} {as : List PriAct} {hd : Shead} {rd : Rdq} {mp x : Mesg}
  {l m k ms : List Mesg} {bs : List Mblk} {c : Call} {err : Errors} {opts : Sopts} {band : ℤ} {n : ℕ}

/-! ### Counting on a queue -/

def pris (l : List Mesg) : ℕ := l.countP Mesg.isPcproto

theorem pris_cons (mp : Mesg) (l : List Mesg) : pris (mp :: l) = pris l + mp.isPcproto.toNat := by
  rw [pris,List.countP_cons]
  cases mp.isPcproto <;> rfl

theorem pris_append (l m : List Mesg) : pris (l ++ m) = pris l + pris m := List.countP_append ..

theorem isPcproto_iff : mp.isPcproto = true ↔ mp.dbType = M_PCPROTO := beq_iff_eq

theorem isPcproto_of_ne (h : mp.dbType ≠ M_PCPROTO) : mp.isPcproto = false :=
  eq_false_of_ne_true fun hc => h (isPcproto_iff.mp hc)

theorem isPcproto_hipri (h : mp.isPcproto = true) : mp.info.hipri = true := by
  rw [show mp.info.hipri = lisHipri mp.dbType from rfl,isPcproto_iff.mp h]
  rfl

theorem isPcproto_congr (h : x.types = mp.types) : x.isPcproto = mp.isPcproto := by
  rw [Mesg.isPcproto,dbType_of_types h]
  rfl

theorem pris_place (hx : mp.Put x) (hl : k ++ m = l) : pris (k ++ x :: m) = pris l + mp.isPcproto.toNat := by
  rw [pris_append,pris_cons,isPcproto_congr hx.types,← hl,pris_append]
  omega

/- No block is of high priority unless it is a M_PCPROTO. -/
def Proper (ts : List Uchar) : Prop := ∀ t ∈ ts, lisHipri t = true → t = M_PCPROTO

instance decProper (ts : List Uchar) : Decidable (Proper ts) :=
  inferInstanceAs (Decidable (∀ t ∈ ts, lisHipri t = true → t = M_PCPROTO))

theorem Proper.first (h : Proper mp.types) (hh : mp.info.hipri = true) : mp.isPcproto = true :=
  isPcproto_iff.mpr (h _ (List.mem_cons_self ..) hh)

/- The read queue is in order, and nothing but a M_PCPROTO is of high priority there. -/
structure Queued (l : List Mesg) : Prop where
  ordered : Ordered Mesg.info l
  proper : ∀ mp ∈ l, Proper mp.types

theorem Queued.nil : Queued [] := ⟨List.Pairwise.nil,fun _ h => absurd h List.not_mem_nil⟩

theorem Queued.sub (h : Queued l) (hs : m.Sublist l) : Queued m :=
  ⟨h.ordered.sublist hs,fun mp hm => h.proper mp (hs.subset hm)⟩

theorem Queued.place (h : Queued l) (hmp : Proper mp.types) (hx : mp.Put x) (hl : k ++ m = l)
    (ho : Ordered Mesg.info (k ++ x :: m)) : Queued (k ++ x :: m) := by
  refine ⟨ho,fun y hy => ?_⟩
  rw [List.mem_append,List.mem_cons] at hy
  rcases hy with hy | rfl | hy
  · exact h.proper y (hl ▸ List.mem_append_left _ hy)
  · exact hx.types ▸ hmp
  · exact h.proper y (hl ▸ List.mem_append_right _ hy)

theorem Queued.lisPutq (h : Queued l) (hmp : Proper mp.types) : Queued (lisPutq l mp) ∧
    pris (Head.lisPutq l mp) = pris l + mp.isPcproto.toNat := by
  obtain ⟨k,m,x,hl,heq,hx,ho⟩ := lisPutq_spec l mp
  have hord := ho h.ordered
  rw [heq] at hord ⊢
  exact ⟨h.place hmp hx hl hord,pris_place hx hl⟩

theorem Queued.lisPutbq (h : Queued l) (hmp : Proper mp.types) : Queued (Rdq.lisPutbq l mp) ∧
    pris (Rdq.lisPutbq l mp) = pris l + mp.isPcproto.toNat := by
  obtain ⟨k,m,x,hl,heq,hx,ho⟩ := lisPutbq_spec l mp
  have hord := ho h.ordered
  rw [heq] at hord ⊢
  exact ⟨h.place hmp hx hl hord,pris_place hx hl⟩

theorem Queued.arrive (h : ∀ mp ∈ ms, Proper mp.types) : Queued (arrive ms) ∧
    pris (Head.arrive ms) = pris ms := by
  induction ms using List.reverseRecOn with
  | nil => exact ⟨Queued.nil,rfl⟩
  | append_singleton ms mp ih =>
    obtain ⟨hq,hn⟩ := ih fun x hx => h x (List.mem_append_left _ hx)
    have hmp := h mp (List.mem_append_right _ (List.mem_singleton_self _))
    have hstep : Head.arrive (ms ++ [mp]) = Head.lisPutq (Head.arrive ms) mp := by
      simp only [Head.arrive,List.foldl_append,List.foldl_cons,List.foldl_nil]
    obtain ⟨h1,h2⟩ := hq.lisPutq hmp
    rw [hstep]
    exact ⟨h1,by rw [h2,hn,pris_append,pris_cons]; simp [pris]⟩

/- A M_PCPROTO is in front. -/
theorem Queued.front (h : Queued l) : (l.head?.any fun x => x.info.hipri) = true ↔ 0 < pris l := by
  refine ⟨fun hh => ?_,fun hp => ?_⟩
  · obtain ⟨y,hy,hyh⟩ := (Option.any_eq_true _ _).mp hh
    have hm := List.mem_of_head? hy
    exact List.countP_pos_iff.mpr ⟨y,hm,(h.proper y hm).first hyh⟩
  · obtain ⟨y,hy,hyp⟩ := List.countP_pos_iff.mp hp
    cases l with
    | nil => cases hy
    | cons z l =>
      have hz : y.info.rank ≤ z.info.rank := by
        rcases List.mem_cons.mp hy with rfl | hy
        · exact le_rfl
        · exact (List.pairwise_cons.mp h.ordered).1 y hy
      rw [rank_hipri (isPcproto_hipri hyp)] at hz
      by_contra hn
      have hlo : z.info.hipri = false := by simpa using hn
      rw [rank_ordinary hlo] at hz
      exact absurd z.info.bBand.isLt (by omega)

/-! ### STRPRI and the read queue -/

/- STRPRI is set if and only if there is a M_PCPROTO, with `n` of them on `sd_rput`. -/
structure Flagged (n : ℕ) (rd : Rdq) : Prop where
  queued : Queued rd.msgs
  one : n + pris rd.msgs ≤ 1
  flag : rd.strpri = true ↔ n + pris rd.msgs = 1

theorem Flagged.drop (h : Flagged n rd) (hl : rd.msgs = mp :: l) (hmp : mp.isPcproto = false) :
    Flagged n { rd with msgs := l } := by
  have hn : pris rd.msgs = pris l := by
    rw [hl,pris_cons,hmp]
    rfl
  exact ⟨h.queued.sub (hl ▸ List.sublist_cons_self ..),hn ▸ h.one,hn ▸ h.flag⟩

theorem Flagged.check (h : Flagged n rd) : Flagged n rd.lisCheckMSig := by
  rcases rd.checkMSig_cases with he | ⟨mp,l,hl,hs,he⟩
  · rwa [he]
  · rw [he]
    refine h.drop hl ?_
    rw [Mesg.isPcproto,hs]
    rfl

/- The M_PCPROTO is taken, and STRPRI is cleared. -/
theorem Flagged.take (h : Flagged n rd) (hl : rd.msgs = mp :: l) (hmp : mp.isPcproto = true) :
    n = 0 ∧ Flagged 0 ⟨l,false⟩ := by
  have hn := h.one
  rw [hl,pris_cons,hmp,Bool.toNat_true] at hn
  refine ⟨by omega,h.queued.sub (hl ▸ List.sublist_cons_self ..),by simp only; omega,?_⟩
  simp only [Bool.false_eq_true,false_iff]
  omega

theorem Queued.delete (h : Queued (mp :: l)) (hn : pris (mp :: l) ≤ 1) :
    Queued (if mp.dbType = M_PCPROTO then l else mp :: l) ∧ pris (if mp.dbType = M_PCPROTO then l else mp :: l) = 0 := by
  split_ifs with hp
  · rw [pris_cons,isPcproto_iff.mpr hp,Bool.toNat_true] at hn
    exact ⟨h.sub (List.sublist_cons_self ..),by omega⟩
  · refine ⟨h,?_⟩
    by_contra hpos
    have hfront := h.front.mpr (Nat.pos_of_ne_zero hpos)
    exact hp (isPcproto_iff.mp ((h.proper mp (List.mem_cons_self ..)).first hfront))

theorem Flagged.requeue (h : Flagged n rd) (hmp : Proper mp.types) (hn : mp.isPcproto = true → n = 0) :
    Flagged n (rd.lisRequeue mp) := by
  unfold Rdq.lisRequeue
  split_ifs with hp
  · have h0 : n = 0 := hn (isPcproto_iff.mpr hp)
    subst h0
    have hput : ∀ k, Queued k → pris k = 0 → Flagged 0 ⟨Rdq.lisPutbq k mp,true⟩ := by
      intro k hk hk0
      obtain ⟨h1,h2⟩ := hk.lisPutbq hmp
      rw [hk0,isPcproto_iff.mpr hp,Bool.toNat_true] at h2
      refine ⟨h1,by simp only; omega,?_⟩
      simp only [true_iff]
      omega
    cases hl : rd.msgs with
    | nil => exact hput [] Queued.nil rfl
    | cons y l =>
      have hone := h.one
      rw [hl,Nat.zero_add] at hone
      obtain ⟨h1,h2⟩ := (hl ▸ h.queued).delete hone
      exact hput _ h1 h2
  · obtain ⟨h1,h2⟩ := h.queued.lisPutbq hmp
    rw [isPcproto_of_ne hp,Bool.toNat_false,Nat.add_zero] at h2
    exact ⟨h1,h2.symm ▸ h.one,h2.symm ▸ h.flag⟩

/-! ### lis_strgetpmsg -/

theorem adjFront_types (n : ℕ) (bs : List Mblk) : (adjFront n bs).map Mblk.dbType = bs.map Mblk.dbType := by
  induction bs generalizing n with
  | nil => rfl
  | cons b bs ih =>
    unfold adjFront
    split_ifs
    · rfl
    · simp only [List.map_cons]
      split_ifs
      · rfl
      · rw [ih]
        rfl
    · rw [List.map_cons,List.map_cons,ih]

theorem adjBack_types (n : ℤ) (bs : List Mblk) : (adjBack n bs).map Mblk.dbType = bs.map Mblk.dbType := by
  induction bs generalizing n with
  | nil => rfl
  | cons b bs ih =>
    have hkeep : ∀ n, (b.keep n).dbType = b.dbType := fun _ => rfl
    unfold adjBack
    simp only
    split_ifs
    all_goals
      simp only [List.map_cons,ih,hkeep]

theorem lisAdjmsg_types (bs : List Mblk) (n : ℤ) : (lisAdjmsg bs n).map Mblk.dbType = bs.map Mblk.dbType := by
  unfold lisAdjmsg
  simp only
  split_ifs
  · rfl
  · exact adjFront_types ..
  · rfl
  · rw [List.map_append,adjBack_types,← List.map_append,List.take_append_drop]

theorem copyoutLoop_types {isCtl : Bool} {fault : Ucopy → Bool} {rtnlen maxlen : ℤ} {mlen : Option ℕ} :
    (copyoutLoop isCtl fault n rtnlen maxlen mlen bs).left.map Mblk.dbType = bs.map Mblk.dbType := by
  induction n generalizing rtnlen maxlen mlen bs with
  | zero => rfl
  | succ n ih =>
    cases bs with
    | nil => rfl
    | cons b bs =>
      unfold copyoutLoop
      simp only
      split_ifs
      · rfl
      · rfl
      · exact lisAdjmsg_types ..
      · simp only [List.map_append,ih]
        rw [← List.map_append,← List.drop_one,List.take_append_drop]
        exact lisAdjmsg_types ..
      · rfl
      · simp only [List.map_cons,ih]

theorem copyoutMsgpart_types {isCtl : Bool} {fault : Ucopy → Bool} {sb : Option ℤ} :
    (copyoutMsgpart isCtl fault sb bs).left.map Mblk.dbType = bs.map Mblk.dbType := by
  unfold copyoutMsgpart
  simp only
  split_ifs
  · rfl
  · exact copyoutLoop_types
  · exact copyoutLoop_types

/- The first block keeps its type. -/
theorem Flagged.requeueLeft (h : Flagged n rd) (hmp : Proper mp.types) (hn : mp.isPcproto = true → n = 0)
    (ht : bs.map Mblk.dbType = mp.types) : Flagged n (rd.requeueLeft bs) := by
  cases bs with
  | nil => exact h
  | cons b bs =>
    have htypes : Mesg.types ⟨b,bs⟩ = mp.types := ht
    exact h.requeue (htypes ▸ hmp) fun hp => hn (isPcproto_congr htypes ▸ hp)

/- The message has been taken, and STRPRI has been cleared if it is of high priority. -/
theorem Flagged.without (h : Flagged n rd) (hl : rd.msgs = mp :: l) :
    Flagged n ⟨l,(if lisHipri mp.dbType then { msgs := mp :: l, strpri := false } else rd : Rdq).strpri⟩ ∧
      (mp.isPcproto = true → n = 0) := by
  have hmp := (h.queued.proper mp (hl ▸ List.mem_cons_self ..)).first
  cases hp : mp.isPcproto with
  | true =>
    obtain ⟨h0,ht⟩ := h.take hl hp
    have hh : lisHipri mp.dbType = true := isPcproto_hipri hp
    rw [if_pos hh]
    exact ⟨h0 ▸ ht,fun _ => h0⟩
  | false =>
    have hh : ¬ lisHipri mp.dbType = true := fun hh => Bool.false_ne_true (hp.symm.trans (hmp hh))
    rw [if_neg hh]
    exact ⟨h.drop hl hp,fun hf => Bool.noConfusion hf⟩

theorem Flagged.getpmsg {r : Rdq × Answer} (h : Flagged n rd) (hg : lisStrgetpmsg rd c = some r) : Flagged n r.1 := by
  unfold lisStrgetpmsg at hg
  by_cases hargs : c.fault .args = true
  · rw [if_pos hargs] at hg
    exact Option.some.inj hg ▸ h
  rw [if_neg hargs] at hg
  cases hl : rd.msgs with
  | nil =>
    rw [hl] at hg
    cases hg
  | cons mp l =>
    simp only [hl] at hg
    by_cases hfp : mp.dbType = M_PASSFP
    · have hdrop := h.drop hl (by rw [Mesg.isPcproto,hfp]; rfl)
      rw [if_pos hfp] at hg
      exact Option.some.inj hg ▸ hdrop.check.check
    rw [if_neg hfp] at hg
    by_cases hin : mp.dbType ∉ [M_DATA,M_PROTO,M_PCPROTO,M_SIG]
    · rw [if_pos hin] at hg
      exact Option.some.inj hg ▸ h.check
    rw [if_neg hin] at hg
    have hmp := h.queued.proper mp (hl ▸ List.mem_cons_self ..)
    cases hs : c.selects mp with
    | error e =>
      have hlo : ¬ lisHipri mp.dbType = true := fun hh => by simp [Call.selects,hh] at hs
      simp only [hs,if_neg hlo] at hg
      exact Option.some.inj hg ▸ h.check
    | ok flags =>
      obtain ⟨hfl,hn⟩ := h.without hl
      simp only [hs] at hg
      generalize (if lisHipri mp.dbType then { msgs := mp :: l, strpri := false } else rd : Rdq).strpri = pri at hfl hg
      by_cases hsig : mp.dbType = M_SIG
      · rw [if_pos hsig] at hg
        exact Option.some.inj hg ▸ (hfl.requeue hmp hn).check.check
      rw [if_neg hsig] at hg
      have htypes : (copyoutMsgpart false c.fault c.dat (copyoutMsgpart true c.fault c.ctl mp.blocks).left).left.map
          Mblk.dbType = mp.types := copyoutMsgpart_types.trans copyoutMsgpart_types
      generalize copyoutMsgpart true c.fault c.ctl mp.blocks = kctl at hg htypes
      generalize copyoutMsgpart false c.fault c.dat kctl.left = kdat at hg htypes
      have hleft : Flagged n (if kctl.more || kdat.more then Rdq.requeueLeft ⟨l,pri⟩ kdat.left else ⟨l,pri⟩) := by
        split_ifs
        · exact hfl.requeueLeft hmp hn htypes
        · exact hfl
      generalize (if kctl.more || kdat.more then Rdq.requeueLeft ⟨l,pri⟩ kdat.left else ⟨l,pri⟩ : Rdq) = rd' at hg hleft
      split_ifs at hg
      · exact Option.some.inj hg ▸ hfl.check
      · exact Option.some.inj hg ▸ hfl.check
      · exact Option.some.inj hg ▸ hleft.check
      · exact Option.some.inj hg ▸ hleft.check
      · exact Option.some.inj hg ▸ hleft.check

theorem Flagged.peek (h : Flagged n rd) : Flagged n (peek rd) := by
  unfold Head.peek
  cases hl : rd.msgs with
  | nil => exact h
  | cons mp l =>
    simp only
    split_ifs with hfp
    · exact (h.drop hl (by rw [Mesg.isPcproto,hfp]; rfl)).check.check
    · exact h.check.check
    · exact h.check

/-! ### lis_strread -/

theorem readBlocks_types {fault : ℕ → Bool} {off room : ℕ} :
    (readBlocks fault off room bs).left.map Mblk.dbType <:+ bs.map Mblk.dbType := by
  induction bs generalizing off room with
  | nil => exact List.suffix_rfl
  | cons b bs ih =>
    have hskip : ∀ k, (b.skip k).dbType = b.dbType := fun _ => rfl
    unfold readBlocks
    simp only
    generalize (if b.dbType = M_DATA then b.lisMblksize.toNat else 0) = nbytes
    split_ifs
    all_goals
      simp only [List.map_cons,hskip]
    · exact List.suffix_rfl
    · exact List.suffix_rfl
    · exact ih.trans (List.suffix_cons ..)
    · exact List.suffix_cons ..
    · exact ih.trans (List.suffix_cons ..)
    · exact List.suffix_cons ..

theorem ofBlocks_types (h : ofBlocks bs = some x) : x.types = bs.map Mblk.dbType := by
  cases bs with
  | nil => cases h
  | cons b bs =>
    obtain rfl := Option.some.inj h
    rfl

theorem putsBack_proper {opt : Rdopt} {fault : ℕ → Bool} {off room : ℕ} (hmp : Proper mp.types)
    (h : putsBack opt fault off room mp = some x) : Proper x.types := by
  have hcont : ∀ t ∈ mp.bCont.map Mblk.dbType, t ∈ mp.types := fun t ht => List.mem_cons_of_mem _ ht
  unfold putsBack at h
  simp only at h
  split_ifs at h
  · rw [ofBlocks_types h]
    exact fun t ht => hmp t (readBlocks_types.subset ht)
  · exact Option.some.inj h ▸ hmp
  · obtain rfl := Option.some.inj h
    intro t ht hh
    rcases List.mem_cons.mp ht with rfl | ht
    · exact absurd (show lisHipri M_DATA = true from hh) (by decide)
    · exact hmp t (hcont t ht) hh
  · rw [ofBlocks_types h]
    exact fun t ht => hmp t (hcont t ht)
  · exact Option.some.inj h ▸ hmp

/-! ### Every step -/

/- What STRPRI says, with `n` messages of M_PCPROTO held, while `lis_strread` is at a place. -/
def Rphase.Flag : Rphase → Bool → ℕ → Prop
  | .taken mp, strpri, n => if mp.isPcproto then n = 1 → strpri = true else strpri = true ↔ n = 1
  | .pri _, strpri, _ => strpri = true
  | .reading _, strpri, _ => strpri = true
  | .checked _, strpri, n => strpri = true ∧ n = 0
  | .putting mp, strpri, n => if mp.isPcproto then strpri = true ∧ n = 0 else strpri = true ↔ n = 1
  | _, strpri, n => strpri = true ↔ n = 1

/- `lis_requeue` has set STRPRI, and QREADING does not keep flushes away. -/
def Rphase.exposed : Rphase → Bool
  | .pri _ => true
  | .putting mp => mp.isPcproto
  | _ => false

def Rphase.qreading : Rphase → Bool
  | .reading _ => true
  | .checked _ => true
  | _ => false

def Rphase.mesg : Rphase → Option Mesg
  | .taken mp => some mp
  | .holds mp => some mp
  | .requeue mp => some mp
  | .pri mp => some mp
  | .reading mp => some mp
  | .checked mp => some mp
  | .putting mp => some mp
  | _ => none

/- The phases of a M_PCPROTO. -/
def Rphase.isPri : Rphase → Bool
  | .pri _ => true
  | .reading _ => true
  | .checked _ => true
  | _ => false

/- The blocks of a message behind the first. -/
def Mesg.restTypes (mp : Mesg) : List Uchar := mp.bCont.map Mblk.dbType

/- A M_FLUSH is carried out and leaves no M_PCPROTO at the head of `sd_rq`. -/
def Shead.losesPri (hd : Shead) (mp : Mesg) : Bool :=
  mp.dbType == M_FLUSH && !hd.qreading && flushr (flushByte mp.toMsg) &&
    !hd.rd.msgs.head?.any fun x => x.isPcproto && !flushes mp.flushBand false x.info

namespace PriHead

structure Inv (s : PriHead) : Prop where
  rest : ∀ mp ∈ s.hd.rput, Proper mp.restTypes
  queued : Queued s.hd.rd.msgs
  one : s.held ≤ 1
  flag : s.reader.Flag s.hd.rd.strpri s.held
  hand : ∀ mp, s.reader.mesg = some mp → Proper mp.types ∧ (s.reader.isPri = true → mp.isPcproto = true)
  qreading : s.hd.qreading = s.reader.qreading

def RsrvGuard (s : PriHead) : List Mesg → Prop
  | [] => True
  | mp :: l => s.hd.losesPri mp = true → s.reader.exposed = false ∧ pris l = 0

def RunGuard (s : PriHead) : Rphase → Prop
  | .taken mp => mp.isPcproto = true → s.held = 0
  | .reading _ => pris s.hd.rput = 0
  | _ => True

/- The steps that go wrong are not taken. -/
def Guard (s : PriHead) : PriAct → Prop
  | .rput mp => Proper mp.restTypes ∧ (s.hd.losesPri mp = true → s.reader.exposed = false)
  | .rsrv => s.RsrvGuard s.hd.rput
  | .run => s.RunGuard s.reader
  | _ => True

instance decRsrvGuard (s : PriHead) : ∀ l, Decidable (s.RsrvGuard l)
  | [] => .isTrue trivial
  | mp :: l => inferInstanceAs (Decidable (s.hd.losesPri mp = true → s.reader.exposed = false ∧ pris l = 0))

instance decRunGuard (s : PriHead) : ∀ r, Decidable (s.RunGuard r)
  | .taken mp => inferInstanceAs (Decidable (mp.isPcproto = true → s.held = 0))
  | .reading _ => inferInstanceAs (Decidable (pris s.hd.rput = 0))
  | .idle | .between | .holds _ | .requeue _ | .pri _ | .checked _ | .putting _ => .isTrue trivial

instance decGuard (s : PriHead) : ∀ a, Decidable (s.Guard a)
  | .rput mp => inferInstanceAs (Decidable (Proper mp.restTypes ∧ (s.hd.losesPri mp = true → s.reader.exposed = false)))
  | .rsrv => inferInstanceAs (Decidable (s.RsrvGuard s.hd.rput))
  | .run => inferInstanceAs (Decidable (s.RunGuard s.reader))
  | .getpmsg _ | .peek | .read | .use _ _ _ _ => .isTrue trivial

variable {hd' : Shead} {r : Rphase}

theorem flag_taken {b : Bool} : (Rphase.taken mp).Flag b n ↔
    if mp.isPcproto then n = 1 → b = true else b = true ↔ n = 1 := Iff.rfl

theorem flag_putting {b : Bool} : (Rphase.putting mp).Flag b n ↔
    if mp.isPcproto then b = true ∧ n = 0 else b = true ↔ n = 1 := Iff.rfl

/- What keeps the reader where it is does to STRPRI and to the number of M_PCPROTO messages. -/
theorem flag_arrive {b : Bool} (h : r.Flag b n) (hb : b = false) (hn : n ≤ 1) : n + 1 ≤ 1 ∧ r.Flag true (n + 1) := by
  subst hb
  have key : n = 0 ∧ r.Flag true (n + 1) := by
    unfold Rphase.Flag at h ⊢
    cases r with
    | taken mp => cases hp : mp.isPcproto <;> simp [hp] at h ⊢ <;> omega
    | putting mp => cases hp : mp.isPcproto <;> simp [hp] at h ⊢; omega
    | pri mp => simp at h
    | reading mp => simp at h
    | checked mp => simp at h
    | _ => simp at h ⊢; omega
  exact ⟨by omega,key.2⟩

/- `k` of the messages left are on `sd_rq`. -/
theorem flag_flush {b : Bool} {n' k : ℕ} (h : r.Flag b n) (hn : n ≤ 1) (hle : n' ≤ n) (hk : k ≤ n')
    (hq : r.qreading = false) (hlost : k = 0 → r.exposed = false ∧ n' = 0) : r.Flag (b && decide (0 < k)) n' := by
  have hexact : ∀ {b : Bool}, (b = true ↔ n = 1) → ((b && decide (0 < k)) = true ↔ n' = 1) := by
    intro b h
    rw [Bool.and_eq_true,decide_eq_true_iff,h]
    by_cases hk0 : k = 0
    · have := (hlost hk0).2
      omega
    · omega
  unfold Rphase.Flag at h ⊢
  cases r with
  | taken mp =>
    cases hp : mp.isPcproto with
    | false =>
      simp only [hp,Bool.false_eq_true,if_false] at h ⊢
      exact hexact h
    | true =>
      simp only [hp,if_true] at h ⊢
      intro h1
      have hk0 : 0 < k := Nat.pos_of_ne_zero fun hk0 => absurd (hlost hk0).2 (by omega)
      simp [h (by omega),hk0]
  | putting mp =>
    cases hp : mp.isPcproto with
    | false =>
      simp only [hp,Bool.false_eq_true,if_false] at h ⊢
      exact hexact h
    | true =>
      simp only [hp,if_true] at h
      have hout := (hlost (by omega)).1
      rw [Rphase.exposed,hp] at hout
      exact Bool.noConfusion hout
  | pri mp =>
    have hk0 : 0 < k := Nat.pos_of_ne_zero fun hk0 => Bool.noConfusion (hlost hk0).1
    simp [h,hk0]
  | reading mp => exact Bool.noConfusion hq
  | checked mp => exact Bool.noConfusion hq
  | idle => exact hexact h
  | between => exact hexact h
  | holds mp => exact hexact h
  | requeue mp => exact hexact h

/- What arrives or is served leaves the reader where it is. -/
theorem Inv.same (hi : s.Inv) (hrest : ∀ mp ∈ hd'.rput, Proper mp.restTypes) (hq : Queued hd'.rd.msgs)
    (hone : pris hd'.rput + pris hd'.rd.msgs ≤ 1) (hflag : s.reader.Flag hd'.rd.strpri (pris hd'.rput + pris hd'.rd.msgs))
    (hr : hd'.qreading = s.hd.qreading) : Inv { s with hd := hd' } :=
  ⟨hrest,hq,hone,hflag,hi.hand,hr.trans hi.qreading⟩

theorem held_eq (s : PriHead) : s.held = pris s.hd.rput + pris s.hd.rd.msgs := rfl

/- A message that is not a M_PCPROTO is put on `sd_rput`. -/
theorem Inv.putRput (hi : s.Inv) (hmp : Proper mp.restTypes) (hp : mp.isPcproto = false) :
    Inv { s with hd := s.hd.putRput mp } := by
  have hn : pris (s.hd.rput ++ [mp]) = pris s.hd.rput := by
    rw [pris_append,pris_cons,hp]
    rfl
  have hone := hi.one
  have hflag := hi.flag
  rw [held_eq,← hn] at hone hflag
  refine hi.same (fun x hx => ?_) hi.queued hone hflag rfl
  rcases List.mem_append.mp hx with hx | hx
  · exact hi.rest x hx
  · exact List.mem_singleton.mp hx ▸ hmp

/- What a flush leaves on `sd_rq`, and of STRPRI. -/
def flushed (rd : Rdq) (band : ℤ) : Rdq :=
  let l := arrive (rd.msgs.filter fun x => !flushes band false x.info)
  ⟨l,rd.strpri && l.head?.any fun x => x.info.hipri⟩

/- A M_FLUSH, with `l` left on `sd_rput`. -/
theorem Inv.flush (hi : s.Inv) (hq : s.hd.qreading = false) (hl : l.Sublist s.hd.rput)
    (hlost : s.hd.losesPri mp = true → s.reader.exposed = false ∧ pris l = 0) (hm : mp.dbType = M_FLUSH)
    (hr : flushr (flushByte mp.toMsg) = true) (o : Sopts) :
    Inv { s with hd := { s.hd with rput := l, rd := flushed s.hd.rd mp.flushBand, opts := o } } := by
  unfold flushed
  generalize hf : (s.hd.rd.msgs.filter fun x => !flushes mp.flushBand false x.info) = f
  have hsub : f.Sublist s.hd.rd.msgs := hf ▸ List.filter_sublist
  obtain ⟨hqa,hna⟩ := Queued.arrive fun x hx => hi.queued.proper x (hsub.subset hx)
  have hfront : ((arrive f).head?.any fun x => x.info.hipri) = decide (0 < pris f) := by
    rw [Bool.eq_iff_iff,hqa.front,hna,decide_eq_true_iff]
  have hle : pris l + pris f ≤ s.held := by
    rw [held_eq]
    exact Nat.add_le_add hl.countP_le hsub.countP_le
  have hnone : pris f = 0 → s.reader.exposed = false ∧ pris l + pris f = 0 := by
    intro h0
    have hloses : s.hd.losesPri mp = true := by
      have hhead : (s.hd.rd.msgs.head?.any fun x => x.isPcproto && !flushes mp.flushBand false x.info) = false := by
        by_contra hc
        obtain ⟨y,hy,hyp⟩ := (Option.any_eq_true _ _).mp (by simpa using hc)
        rw [Bool.and_eq_true] at hyp
        have hmem : y ∈ f := hf ▸ List.mem_filter.mpr ⟨List.mem_of_head? hy,hyp.2⟩
        exact absurd (List.countP_pos_iff.mpr ⟨y,hmem,hyp.1⟩) (by rw [show List.countP _ f = pris f from rfl]; omega)
      simp [Shead.losesPri,hm,hq,hr,hhead]
    have := hlost hloses
    exact ⟨this.1,by omega⟩
  have hone := hi.one
  simp only [hfront]
  refine hi.same (fun x hx => hi.rest x (hl.subset hx)) hqa ?_ ?_ rfl
  · simp only [hna]
    omega
  · simp only [hna]
    exact flag_flush hi.flag hone hle (Nat.le_add_left _ _) (hi.qreading ▸ hq) hnone

theorem lisHeadFlush_eq (hd : Shead) (mp : Mesg) (all : Bool) (hq : hd.qreading = false) :
    ∃ o, hd.lisHeadFlush mp all = some (if flushr (flushByte mp.toMsg) then
      { hd with rput := if all then [] else hd.rput, rd := flushed hd.rd mp.flushBand, opts := o } else hd) := by
  have hn : ¬ hd.qreading = true := by
    rw [hq]
    exact Bool.false_ne_true
  have key : ∀ hd : Shead, ∃ o, { hd.flushRd mp.flushBand with rd := { (hd.flushRd mp.flushBand).rd with
      strpri := (hd.flushRd mp.flushBand).rd.strpri && (hd.flushRd mp.flushBand).rd.msgs.head?.any
        fun x : Mesg => x.info.hipri } } = { hd with rd := flushed hd.rd mp.flushBand, opts := o } := by
    intro hd
    obtain ⟨o,ho⟩ := flushRd_eq hd mp.flushBand
    exact ⟨o,by rw [ho]; rfl⟩
  obtain ⟨o,ho⟩ := key (if all then { hd with rput := [] } else hd)
  refine ⟨o,?_⟩
  rw [Shead.lisHeadFlush,if_neg hn]
  by_cases hr : flushr (flushByte mp.toMsg) = true
  · rw [if_pos hr,if_pos hr]
    refine (congrArg some ho).trans ?_
    cases all <;> rfl
  · rw [if_neg hr,if_neg hr]

theorem Inv.rput (hi : s.Inv) (hg : s.Guard (.rput mp)) : Inv { s with hd := s.hd.lisStrrput mp } := by
  obtain ⟨hrest,hlost⟩ := hg
  unfold Shead.lisStrrput
  by_cases hp : mp.dbType = M_PCPROTO
  · rw [if_pos hp]
    cases hb : s.hd.rd.strpri with
    | true => exact hi
    | false =>
      obtain ⟨hone,hflag⟩ := flag_arrive hi.flag hb hi.one
      have hn : pris (s.hd.rput ++ [mp]) + pris s.hd.rd.msgs = s.held + 1 := by
        rw [pris_append,pris_cons,isPcproto_iff.mpr hp,held_eq]
        simp [pris]
        omega
      refine hi.same (fun x hx => ?_) hi.queued (hn ▸ hone) (hn ▸ hflag) rfl
      rcases List.mem_append.mp hx with hx | hx
      · exact hi.rest x hx
      · exact List.mem_singleton.mp hx ▸ hrest
  · have hnp := isPcproto_of_ne hp
    rw [if_neg hp]
    by_cases hm : mp.dbType = M_FLUSH
    · rw [if_pos hm]
      cases hq : s.hd.qreading with
      | true =>
        rw [Shead.lisHeadFlush,if_pos hq]
        exact hi.putRput hrest hnp
      | false =>
        obtain ⟨o,ho⟩ := lisHeadFlush_eq s.hd mp true hq
        rw [ho,Option.getD_some]
        cases hr : flushr (flushByte mp.toMsg) with
        | true => exact hi.flush hq (List.nil_sublist _) (fun h => ⟨hlost h,rfl⟩) hm hr o
        | false => exact hi
    · rw [if_neg hm]
      split_ifs
      · exact hi
      · exact hi.putRput hrest hnp

/- A message is taken off `sd_rput` that is not a M_PCPROTO, and the read queue stays. -/
theorem Inv.served (hi : s.Inv) (hl : s.hd.rput = mp :: l) (hp : mp.isPcproto = false) (hput : hd'.rput = l)
    (hrd : hd'.rd = s.hd.rd) (hr : hd'.qreading = s.hd.qreading) : Inv { s with hd := hd' } := by
  have hn : pris l = pris s.hd.rput := by
    rw [hl,pris_cons,hp]
    rfl
  have hone := hi.one
  have hflag := hi.flag
  rw [held_eq,← hn,← hput,← hrd] at hone hflag
  refine hi.same (fun x hx => hi.rest x ?_) (hrd ▸ hi.queued) hone (hrd ▸ hflag) hr
  rw [hput] at hx
  exact hl ▸ List.mem_cons_of_mem _ hx

/- A message moves from `sd_rput` to the read queue. -/
theorem Inv.queue (hi : s.Inv) (hl : s.hd.rput = mp :: l) (hmp : lisHipri mp.dbType = true → mp.dbType = M_PCPROTO)
    (hput : hd'.rput = l) (hmsgs : hd'.rd.msgs = lisPutq s.hd.rd.msgs mp) (hpri : hd'.rd.strpri = s.hd.rd.strpri)
    (hr : hd'.qreading = s.hd.qreading) : Inv { s with hd := hd' } := by
  have hproper : Proper mp.types := by
    intro t ht hh
    rcases List.mem_cons.mp ht with rfl | ht
    · exact hmp hh
    · exact hi.rest mp (hl ▸ List.mem_cons_self ..) t ht hh
  obtain ⟨h1,h2⟩ := hi.queued.lisPutq hproper
  have hn : pris hd'.rput + pris hd'.rd.msgs = s.held := by
    rw [hput,hmsgs,h2,held_eq,hl,pris_cons]
    omega
  refine hi.same (fun x hx => hi.rest x ?_) (hmsgs ▸ h1) (hn ▸ hi.one) (hn ▸ hpri ▸ hi.flag) hr
  rw [hput] at hx
  exact hl ▸ List.mem_cons_of_mem _ hx

theorem Inv.check (hi : s.Inv) : Inv (s.setRd s.hd.rd.lisCheckMSig) := by
  rcases s.hd.rd.checkMSig_cases with he | ⟨mp,l,hl,hs,he⟩
  · rw [he]
    exact hi
  · have hn : pris l = pris s.hd.rd.msgs := by
      rw [hl,pris_cons,Mesg.isPcproto,hs]
      rfl
    have hone := hi.one
    have hflag := hi.flag
    rw [held_eq,← hn] at hone hflag
    rw [he]
    exact hi.same hi.rest (hi.queued.sub (hl ▸ List.sublist_cons_self ..)) hone hflag rfl

theorem Inv.process (hi : s.Inv) (hl : s.hd.rput = mp :: l)
    (hlost : s.hd.losesPri mp = true → s.reader.exposed = false ∧ pris l = 0) :
    Inv { s with hd := Shead.lisProcessRput so { s.hd with rput := l } mp } := by
  unfold Shead.lisProcessRput
  by_cases hq : mp.dbType = M_DATA ∨ mp.dbType = M_PCPROTO ∨ mp.dbType = M_PROTO ∨ mp.dbType = M_PASSFP
  · rw [if_pos hq]
    refine hi.queue hl (fun hh => ?_) rfl rfl rfl rfl
    rcases hq with h | h | h | h
    · rw [h] at hh
      exact absurd hh (by decide)
    · exact h
    · rw [h] at hh
      exact absurd hh (by decide)
    · rw [h] at hh
      exact absurd hh (by decide)
  have hp : mp.isPcproto = false := isPcproto_of_ne fun h => hq (.inr (.inl h))
  rw [if_neg hq]
  split_ifs with h1 h2 h3 h4
  · have hput : Inv { s with hd := { s.hd with rput := l }.putq mp } :=
      hi.queue hl (fun hh => absurd hh (by rw [h1]; decide)) rfl rfl rfl rfl
    exact hput.check
  · exact hi.served hl hp rfl rfl rfl
  · exact hi.served hl hp rfl rfl rfl
  · cases hr : s.hd.qreading with
    | true =>
      rw [Shead.lisHeadFlush,if_pos hr]
      exact hi.served hl hp rfl rfl rfl
    | false =>
      obtain ⟨o,ho⟩ := lisHeadFlush_eq { s.hd with rput := l } mp false hr
      rw [ho,Option.getD_some]
      cases hf : flushr (flushByte mp.toMsg) with
      | true => exact hi.flush hr (hl ▸ List.sublist_cons_self ..) hlost h4 hf o
      | false => exact hi.served hl hp rfl rfl rfl
  · exact hi.served hl hp rfl rfl rfl
  · exact hi.served hl hp rfl rfl rfl

theorem Inv.rsrv (hi : s.Inv) (hg : s.Guard .rsrv) : Inv { s with hd := s.hd.rsrvRound so } := by
  have hg' : s.RsrvGuard s.hd.rput := hg
  unfold Shead.rsrvRound
  cases hl : s.hd.rput with
  | nil => exact hi
  | cons mp l =>
    rw [hl] at hg'
    exact hi.process hl hg'

/- `lis_strread` goes on, with STRPRI and the number of M_PCPROTO messages as they are. -/
theorem Inv.goto (hi : s.Inv) (hq : r.qreading = s.reader.qreading) (hflag : r.Flag s.hd.rd.strpri s.held)
    (hand : ∀ mp, r.mesg = some mp → Proper mp.types ∧ (r.isPri = true → mp.isPcproto = true)) :
    Inv { s with reader := r } :=
  ⟨hi.rest,hi.queued,hi.one,hflag,hand,hi.qreading.trans hq.symm⟩

theorem Inv.flagged (hi : s.Inv) (h : s.reader = .idle ∨ s.reader = .between) :
    Flagged (pris s.hd.rput) s.hd.rd ∧ s.reader.mesg = none ∧ s.reader.qreading = false := by
  have hflag := hi.flag
  rcases h with h | h <;> rw [h] at hflag ⊢ <;> exact ⟨⟨hi.queued,hi.one,hflag⟩,rfl,rfl⟩

theorem Inv.withRd {rd : Rdq} (hi : s.Inv) (hr : s.reader = .idle) (h : Flagged (pris s.hd.rput) rd) : Inv (s.setRd rd) := by
  refine hi.same hi.rest h.queued h.one ?_ rfl
  rw [hr]
  exact h.flag

theorem Inv.read (hi : s.Inv) (hr : s.reader = .idle ∨ s.reader = .between) (hl : s.hd.rd.msgs = mp :: l) :
    Inv { s.setRd { s.hd.rd with msgs := l }.lisCheckMSig with reader := .taken mp } := by
  obtain ⟨hf,-,hq⟩ := hi.flagged hr
  have hmp : Proper mp.types := hi.queued.proper mp (hl ▸ List.mem_cons_self ..)
  have hsub : Queued l := hi.queued.sub (hl ▸ List.sublist_cons_self ..)
  have hone := hf.one
  have hflag := hf.flag
  rw [hl,pris_cons] at hone hflag
  have htaken : Inv { s.setRd { s.hd.rd with msgs := l } with reader := .taken mp } := by
    refine ⟨hi.rest,hsub,?_,?_,fun x hx => ?_,hi.qreading.trans hq⟩
    · show pris s.hd.rput + pris l ≤ 1
      omega
    · show Rphase.Flag (.taken mp) s.hd.rd.strpri (pris s.hd.rput + pris l)
      rw [flag_taken]
      cases hp : mp.isPcproto with
      | true =>
        rw [hp,Bool.toNat_true] at hone
        intro h1
        omega
      | false =>
        rw [hp,Bool.toNat_false,Nat.add_zero] at hflag
        exact hflag
    · obtain rfl := Option.some.inj hx
      exact ⟨hmp,fun hf => Bool.noConfusion hf⟩
  exact htaken.check

theorem Inv.putting (hi : s.Inv) (hr : s.reader = .putting mp) :
    Inv { s.setRd { s.hd.rd with msgs := Rdq.lisPutbq s.hd.rd.msgs mp } with reader := .between } := by
  obtain ⟨hmp,-⟩ := hi.hand mp (by rw [hr]; rfl)
  obtain ⟨h1,h2⟩ := hi.queued.lisPutbq hmp
  have hone := hi.one
  have hflag := hi.flag
  have hq := hi.qreading
  rw [hr,held_eq] at hflag
  rw [held_eq] at hone
  rw [hr] at hq
  rw [flag_putting] at hflag
  have hnew : pris s.hd.rput + pris (Rdq.lisPutbq s.hd.rd.msgs mp) ≤ 1 ∧
      (s.hd.rd.strpri = true ↔ pris s.hd.rput + pris (Rdq.lisPutbq s.hd.rd.msgs mp) = 1) := by
    rw [h2]
    cases hp : mp.isPcproto with
    | true =>
      simp only [hp,if_true] at hflag
      rw [Bool.toNat_true,hflag.1]
      have := hflag.2
      exact ⟨by omega,iff_of_true rfl (by omega)⟩
    | false =>
      simp only [hp,Bool.false_eq_true,if_false] at hflag
      exact ⟨hone,hflag⟩
  exact ⟨hi.rest,h1,hnew.1,hnew.2,fun x hx => absurd hx (Option.some_ne_none _).symm,hq⟩

/- STRPRI is cleared for a M_PCPROTO that has been taken. -/
theorem Inv.clear (hi : s.Inv) (hr : s.reader = .taken mp) (hg : mp.isPcproto = true → s.held = 0) :
    Inv { (if mp.dbType = M_PCPROTO then s.setRd { s.hd.rd with strpri := false } else s) with reader := .holds mp } := by
  obtain ⟨hmp,-⟩ := hi.hand mp (by rw [hr]; rfl)
  have hflag := hi.flag
  have hq := hi.qreading
  rw [hr] at hflag hq
  rw [flag_taken] at hflag
  have hand : ∀ x, (Rphase.holds mp).mesg = some x → Proper x.types ∧ ((Rphase.holds mp).isPri = true → x.isPcproto = true) := by
    intro x hx
    obtain rfl := Option.some.inj hx
    exact ⟨hmp,fun hf => Bool.noConfusion hf⟩
  split_ifs with hp
  · have h0 := hg (isPcproto_iff.mpr hp)
    refine ⟨hi.rest,hi.queued,hi.one,?_,hand,hq⟩
    show false = true ↔ s.held = 1
    rw [h0]
    decide
  · simp only [isPcproto_of_ne hp,Bool.false_eq_true,if_false] at hflag
    exact ⟨hi.rest,hi.queued,hi.one,hflag,hand,hq⟩

/- STRPRI is set for a M_PCPROTO that is put back. -/
theorem Inv.set (hi : s.Inv) (hr : s.reader = .requeue mp) (hp : mp.dbType = M_PCPROTO) :
    Inv { s.setRd { s.hd.rd with strpri := true } with reader := .pri mp } := by
  obtain ⟨hmp,-⟩ := hi.hand mp (by rw [hr]; rfl)
  have hq := hi.qreading
  rw [hr] at hq
  refine ⟨hi.rest,hi.queued,hi.one,rfl,fun x hx => ?_,hq⟩
  obtain rfl := Option.some.inj hx
  exact ⟨hmp,fun _ => isPcproto_iff.mpr hp⟩

/- A M_PCPROTO at the head of the queue is deleted, and there is none on `sd_rput`. -/
theorem Inv.delete {k : List Mesg} (hi : s.Inv) (hr : s.reader = .reading mp) (hg : pris s.hd.rput = 0) (hk : Queued k)
    (h0 : pris k = 0) : Inv { s.setRd { s.hd.rd with msgs := k } with reader := .checked mp } := by
  have hflag := hi.flag
  have hq := hi.qreading
  have hand := hi.hand mp (by rw [hr]; rfl)
  rw [hr] at hflag hq hand
  have hnone : pris s.hd.rput + pris k = 0 := by omega
  refine ⟨hi.rest,hk,?_,⟨hflag,hnone⟩,fun x hx => ?_,hq⟩
  · show pris s.hd.rput + pris k ≤ 1
    omega
  · obtain rfl := Option.some.inj hx
    exact hand

theorem Inv.run (hi : s.Inv) (hg : s.RunGuard s.reader) (h : s.run = some t) : t.Inv := by
  unfold PriHead.run at h
  have hflag := hi.flag
  have hand := hi.hand
  have hq := hi.qreading
  cases hr : s.reader with
  | idle =>
    rw [hr] at h
    cases h
  | between =>
    rw [hr] at h hflag hq
    obtain rfl := Option.some.inj h
    exact hi.goto (hr ▸ rfl) hflag fun x hx => absurd hx (Option.some_ne_none _).symm
  | taken mp =>
    rw [hr] at h hg
    obtain rfl := Option.some.inj h
    exact hi.clear hr hg
  | holds mp =>
    rw [hr] at h
    cases h
  | requeue mp =>
    rw [hr] at h hflag hand
    simp only at h
    by_cases hp : mp.dbType = M_PCPROTO
    · rw [if_pos hp] at h
      obtain rfl := Option.some.inj h
      exact hi.set hr hp
    · rw [if_neg hp] at h
      obtain rfl := Option.some.inj h
      refine hi.goto (hr ▸ rfl) ?_ fun x hx => ⟨(hand x hx).1,fun hf => Bool.noConfusion hf⟩
      rw [flag_putting,isPcproto_of_ne hp]
      exact hflag
  | pri mp =>
    rw [hr] at h hflag hand
    obtain rfl := Option.some.inj h
    exact ⟨hi.rest,hi.queued,hi.one,hflag,hand,rfl⟩
  | reading mp =>
    rw [hr] at h hg
    simp only at h
    cases hl : s.hd.rd.msgs with
    | nil =>
      rw [hl] at h
      obtain rfl := Option.some.inj h
      have hd := hi.delete hr hg Queued.nil rfl
      rw [← hl] at hd
      exact hd
    | cons y l =>
      rw [hl] at h
      obtain rfl := Option.some.inj h
      have hone := hi.one
      rw [held_eq,hl] at hone
      obtain ⟨h1,h2⟩ := (hl ▸ hi.queued).delete (by omega)
      exact hi.delete hr hg h1 h2
  | checked mp =>
    rw [hr] at h hflag hand
    obtain rfl := Option.some.inj h
    refine ⟨hi.rest,hi.queued,hi.one,?_,fun x hx => ⟨(hand x hx).1,fun hf => Bool.noConfusion hf⟩,rfl⟩
    show Rphase.Flag (.putting mp) s.hd.rd.strpri s.held
    rw [flag_putting,(hand mp rfl).2 rfl]
    exact hflag
  | putting mp =>
    rw [hr] at h
    obtain rfl := Option.some.inj h
    have hput := hi.putting hr
    by_cases hs : mp.dbType = M_SIG
    · rw [if_pos hs]
      exact hput.check
    · rw [if_neg hs]
      exact hput

theorem step_inv (hi : s.Inv) (hg : s.Guard a) (h : step so s a = some t) : t.Inv := by
  cases a with
  | rput mp => exact Option.some.inj h ▸ hi.rput hg
  | rsrv => exact Option.some.inj h ▸ hi.rsrv hg
  | getpmsg c =>
    simp only [step] at h
    split_ifs at h with hr
    obtain ⟨r,hc,rfl⟩ := Option.map_eq_some_iff.mp h
    exact hi.withRd hr ((hi.flagged (.inl hr)).1.getpmsg hc)
  | peek =>
    simp only [step] at h
    split_ifs at h with hr
    exact Option.some.inj h ▸ hi.withRd hr (hi.flagged (.inl hr)).1.peek
  | read =>
    simp only [step] at h
    split_ifs at h with hr
    cases hl : s.hd.rd.msgs with
    | nil =>
      rw [hl] at h
      cases h
    | cons mp l =>
      rw [hl] at h
      exact Option.some.inj h ▸ hi.read hr hl
  | run => exact hi.run hg h
  | use opt fault off room =>
    simp only [step] at h
    cases hr : s.reader with
    | holds mp =>
      rw [hr] at h
      obtain rfl := Option.some.inj h
      have hflag := hi.flag
      have hmp := (hi.hand mp (by rw [hr]; rfl)).1
      rw [hr] at hflag
      cases hb : putsBack opt fault off room mp with
      | none => exact hi.goto (hr ▸ rfl) hflag fun x hx => absurd hx (Option.some_ne_none _).symm
      | some m =>
        refine hi.goto (hr ▸ rfl) hflag fun x hx => ?_
        obtain rfl := Option.some.inj hx
        exact ⟨putsBack_proper hmp hb,fun hf => Bool.noConfusion hf⟩
    | _ =>
      rw [hr] at h
      cases h

theorem init_inv : (init err opts).Inv :=
  ⟨fun _ h => absurd h List.not_mem_nil,Queued.nil,Nat.zero_le _,show false = true ↔ (0 : ℕ) = 1 by decide,
    fun _ h => absurd h (Option.some_ne_none _).symm,rfl⟩

/-- Of runs in which no guarded step is taken: a stream head holds at most one M_PCPROTO, and STRPRI is
set if and only if it holds one, unless `lis_strread` has a message in hand. -/
theorem run_one_pcproto (hm : Meets (step so) Guard (init err opts) as) (h : exec (step so) (init err opts) as = some s) :
    s.held ≤ 1 ∧ (s.reader = .idle → (s.hd.rd.strpri = true ↔ s.held = 1)) := by
  have hi : s.Inv := exec_preserves (fun _ _ _ => step_inv) init_inv hm h
  refine ⟨hi.one,fun hr => ?_⟩
  have hflag := hi.flag
  rw [hr] at hflag
  exact hflag

def noOpts : Mesg → StroptionsT := fun _ => ⟨0,0,0,0,0,0,0⟩
def noErrors : Errors := ⟨0,0,false,false⟩
def someOpts : Sopts := ⟨false,false,false,false,false,false,RPROTNORM,0,0,0,1024,128,fun _ => (1024,128)⟩
def pcproto (bytes : List Uchar) : Mesg := ⟨{ dataBlk 0 bytes with dbType := M_PCPROTO },[]⟩

/- One byte of a M_PCPROTO is got, and another M_PCPROTO that arrives is not kept. `lis_strread` puts back
the rest. -/
theorem run_one_pcproto_parts : ∃ s, exec (step noOpts) (init noErrors someOpts) [.rput (pcproto [1,2]),.rsrv,
    .getpmsg (getCall 1 0 0),.rput (pcproto [3]),.read,.run,.use ⟨.rnorm,true,false,false⟩ (fun _ => false) 0 9,.run,
    .run,.run,.run,.run,.run] = some s ∧
    s.held ≤ 1 ∧ (s.reader = .idle → (s.hd.rd.strpri = true ↔ s.held = 1)) := by
  refine Exists.imp (fun s hs => ⟨hs,run_one_pcproto ?_ hs⟩) (Option.isSome_iff_exists.mp rfl)
  decide +kernel

/- `lis_strread` has cleared STRPRI and has not put its message back when another M_PCPROTO arrives. -/
theorem two_held : ¬ ∀ (as : List PriAct) (s : PriHead), exec (step noOpts) (init noErrors someOpts) as = some s →
    s.held ≤ 1 ∧ (s.reader = .idle → (s.hd.rd.strpri = true ↔ s.held = 1)) := by
  intro h
  obtain ⟨s,hs⟩ := Option.isSome_iff_exists.mp (show (exec (step noOpts) (init noErrors someOpts) [.rput (pcproto [1]),
    .rsrv,.read,.run,.rput (pcproto [2]),.use ⟨.rnorm,true,false,false⟩ (fun _ => false) 0 9,.run,.run,.run,.run,.run,
    .run]).isSome = true from rfl)
  have htwo : s.held = 2 := by
    obtain rfl := Option.some.inj hs
    decide
  exact absurd (h _ s hs).1 (by omega)

end PriHead

end CSLiS.Head
