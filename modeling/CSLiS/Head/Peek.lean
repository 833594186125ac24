import CSLiS.Head.Reassembly

/-!
# Looking at a message (head/head.c)

`lis_strgetpmsg` for both values of `doit`, for a head that may have an error, be hung up or linked, and for
an empty queue. Its counters are of any type and change with every message that is taken off or put back. With
`doit` clear the arguments are in kernel memory, and a pointer to a `strbuf` is not null: `none` is a `maxlen`
of -1. The locks are obtained.
-/

namespace CSLiS.Head
open Queue

def Peekable.ENOMEM : ℤ := 12
def Peekable.EFAULT : ℤ := 14
def Peekable.EINVAL : ℤ := 22

def Errno.val : Errno → ℤ
  | .efault => Peekable.EFAULT
  | .ebadmsg => 77
  | .eagain => 11
  | .einval => Peekable.EINVAL

/- `sdRerror` with STRDERR, STRHUP or STRCLOSE, and STPLEX. -/
structure Peekable (γ : Type*) where
  rdq : Rdq
  counters : γ
  sdRerror : Option ℤ
  strhup : Bool
  stplex : Bool

/- What `lis_getq` and `lis_putbqf` do to the counters, with those of the messages at stream heads. -/
structure Counting (γ : Type*) where
  getq : γ → Mesg → γ
  putbqf : γ → Mesg → γ

/-! ### Copying out -/

/-- The loop of `copyout_msgpart` (`head.c:1882-1921`). Without `doit` the message is not touched. -/
def copyoutPart (doit isCtl : Bool) (fault : Ucopy → Bool) : ℕ → ℤ → ℤ → Option ℕ → List Mblk → Part
  | 0, rtnlen, _, mlen, m => ⟨[],m,rtnlen,mlen,false⟩
  | _ + 1, rtnlen, _, mlen, [] => ⟨[],[],rtnlen,mlen,false⟩
  | n + 1, rtnlen, maxlen, mlen, m :: bCont =>
      if ofPart isCtl m then
        let mlen := mlen.getD (lisXmsgsize (m :: bCont))
        if maxlen < 0 then ⟨[],m :: bCont,rtnlen,some mlen,false⟩
        else
          let chunk := min maxlen m.lisMblksize
          if 0 < chunk ∧ fault (.block isCtl rtnlen) then ⟨[],m :: bCont,rtnlen,some mlen,true⟩
          else
            let bytes := m.data.take chunk.toNat
            let adj := if doit then lisAdjmsg (m :: bCont) chunk else m :: bCont
            if maxlen - chunk ≤ 0 then ⟨bytes,adj,rtnlen + chunk,some mlen,false⟩
            else
              let r := copyoutPart doit isCtl fault n (rtnlen + chunk) (maxlen - chunk) (some mlen) adj.tail
              { r with bytes := bytes ++ r.bytes, left := adj.take 1 ++ r.left }
      else if isCtl ∧ mlen.isSome then ⟨[],m :: bCont,rtnlen,mlen,false⟩
      else
        let r := copyoutPart doit isCtl fault n rtnlen maxlen mlen bCont
        { r with left := m :: r.left }

/-- `copyout_msgpart` (`head.c:1855-1946`). The `strbuf` of the kernel is neither checked nor copied. -/
def copyoutMsg (doit isCtl : Bool) (fault : Ucopy → Bool) (sb : Option ℤ) (m : List Mblk) : Part :=
  if (if doit then sb.isSome else 0 ≤ sb.getD (-1)) ∧ fault (.check isCtl) then ⟨[],m,0,none,true⟩
  else
    let r := copyoutPart doit isCtl fault m.length 0 (sb.getD (-1)) none m
    if r.err then r
    else { r with err := doit && sb.isSome && fault (.strbuf isCtl) }

/-! ### The call -/

namespace Peekable

variable {γ : Type*} (cnt : Counting γ) (s : Peekable γ)

/- The first message is taken off. -/
def lisGetq (mp : Mesg) (l : List Mesg) : Peekable γ :=
  { s with rdq := { s.rdq with msgs := l }, counters := cnt.getq s.counters mp }

/-- `lis_check_m_sig` (`head.c:5522-5538`) -/
def lisCheckMSig : Peekable γ :=
  match s.rdq.msgs with
  | [] => s
  | mp :: l => if mp.dbType = M_SIG then s.lisGetq cnt mp l else s

/-- `lis_requeue` (`head.c:5551-5588`) -/
def lisRequeue (mp : Mesg) : Peekable γ :=
  let counters := match s.rdq.msgs with
    | [] => s.counters
    | hdmp :: _ => if mp.dbType = M_PCPROTO ∧ hdmp.dbType = M_PCPROTO then cnt.getq s.counters hdmp else s.counters
  { s with rdq := s.rdq.lisRequeue mp, counters := cnt.putbqf counters mp }

def requeueLeft : List Mblk → Peekable γ
  | [] => s
  | b :: bs => s.lisRequeue cnt ⟨b,bs⟩

/- The band as the caller gave it, for a return without a message that has one. -/
def bandIn (c : Call) : Uchar := Fin.ofNat 256 ((c.band.getD 0) % 256).toNat

/- `return_point` with an error in `err` or `rtn`. -/
def fails (err : ℤ) : Option (Peekable γ × Except ℤ Answer) := some (s.lisCheckMSig cnt,.error (-err))

/- `return_point` for an answer, with the flags that are given back. -/
def gives (doit : Bool) (c : Call) (a : Answer) : Option (Peekable γ × Except ℤ Answer) :=
  let a := { a with flags := if doit then c.flagsBack a.flags else if a.flags = MSG_HIPRI then MSG_HIPRI else 0 }
  if doit ∧ (c.fault .flags ∨ (c.band.isSome ∧ c.fault .band)) then s.fails cnt EFAULT
  else some (s.lisCheckMSig cnt,.ok a)

/- An empty queue, with a `doit` that does not wait. -/
def nothing (doit : Bool) (c : Call) : Option (Peekable γ × Except ℤ Answer) :=
  let len := if s.strhup then 0 else -1
  if (copyoutMsg doit true c.fault c.ctl []).err || (copyoutMsg doit false c.fault c.dat []).err then s.fails cnt EFAULT
  else s.gives cnt doit c ⟨[],[],len,len,false,false,c.flags,bandIn c,none⟩

/- A message that is copied out, from the read queue or a copy of it (`head.c:6539-6562`). -/
def copied (doit : Bool) (c : Call) (mp : Mesg) (flags : ℤ) : Option (Peekable γ × Except ℤ Answer) :=
  let kctl := copyoutMsg doit true c.fault c.ctl mp.blocks
  if kctl.err then s.fails cnt EFAULT
  else
    let kdat := copyoutMsg doit false c.fault c.dat kctl.left
    if kdat.err then s.fails cnt EFAULT
    else
      let s := if doit && (kctl.more || kdat.more) then s.requeueLeft cnt kdat.left else s
      s.gives cnt doit c ⟨kctl.bytes,kdat.bytes,kctl.len,kdat.len,kctl.more,kdat.more,flags,
        if doit then (if lisHipri mp.dbType then 0 else mp.blk.bBand) else bandIn c,none⟩

/- Getting the message (`head.c:6416-6503`). -/
def get (c : Call) (mp : Mesg) (l : List Mesg) : Option (Peekable γ × Except ℤ Answer) :=
  let s := if lisHipri mp.dbType then { s with rdq := { s.rdq with strpri := false } } else s
  match c.selects mp with
  | .error e => s.fails cnt e.val
  | .ok flags =>
      let s := s.lisGetq cnt mp l
      if mp.dbType = M_SIG then ((s.lisRequeue cnt mp).lisCheckMSig cnt).fails cnt Errno.eagain.val
      else s.copied cnt true c mp flags

/- Looking at the message (`head.c:6504-6538`). `mem` is the memory for `lis_dupmsg`. -/
def peek (mem : Bool) (c : Call) (mp : Mesg) : Option (Peekable γ × Except ℤ Answer) :=
  if mp.dbType = M_SIG then (s.lisCheckMSig cnt).fails cnt Errno.eagain.val
  else if !lisHipri mp.dbType && c.flags = MSG_HIPRI then s.fails cnt Errno.ebadmsg.val
  else if !mem then s.fails cnt ENOMEM
  else s.copied cnt false c mp (if lisHipri mp.dbType then MSG_HIPRI else MSG_BAND)

/-- `lis_strgetpmsg` (`head.c:6194-6640`). There is no result for a call that waits for a message, or finds
none and is not to wait. -/
def strgetpmsg (doit mem : Bool) (c : Call) : Option (Peekable γ × Except ℤ Answer) :=
  match s.sdRerror with
  | some e => some (s,.error (-e))
  | none =>
      if doit ∧ c.fault .args then some (s,.error (-EFAULT))
      else if s.stplex then some (s,.error (-EINVAL))
      else
        match s.rdq.msgs with
        | [] =>
            if doit ∧ (0 ≤ c.ctl.getD (-1) ∨ 0 ≤ c.dat.getD (-1)) ∧ s.strhup = false then none else s.nothing cnt doit c
        | mp :: l =>
            if mp.dbType = M_PASSFP then ((s.lisGetq cnt mp l).lisCheckMSig cnt).fails cnt Errno.ebadmsg.val
            else if mp.dbType ≠ M_DATA ∧ mp.dbType ≠ M_PROTO ∧ mp.dbType ≠ M_PCPROTO ∧ mp.dbType ≠ M_SIG then
              s.fails cnt Errno.ebadmsg.val
            else if doit then s.get cnt c mp l
            else s.peek cnt mem c mp

variable {cnt} {s} {t : Peekable γ} {c : Call} {mp : Mesg} {l : List Mesg} {isCtl : Bool} {fault : Ucopy → Bool}
  {n : ℕ} {rtnlen maxlen : ℤ} {mlen : Option ℕ} {m : List Mblk}

/-! ### The system call is the one of the reassembly -/

theorem copyoutPart_doit (isCtl : Bool) (fault : Ucopy → Bool) : ∀ (n : ℕ) (rtnlen maxlen : ℤ) (mlen : Option ℕ)
    (m : List Mblk), copyoutPart true isCtl fault n rtnlen maxlen mlen m =
      copyoutLoop isCtl fault n rtnlen maxlen mlen m
  | 0, _, _, _, _ => rfl
  | _ + 1, _, _, _, [] => rfl
  | n + 1, rtnlen, maxlen, mlen, m :: bCont => by
      simp only [copyoutPart,copyoutLoop,copyoutPart_doit isCtl fault n,if_true]

theorem copyoutMsg_doit (isCtl : Bool) (fault : Ucopy → Bool) (sb : Option ℤ) (m : List Mblk) :
    copyoutMsg true isCtl fault sb m = copyoutMsgpart isCtl fault sb m := by
  simp only [copyoutMsg,copyoutMsgpart,copyoutPart_doit,if_true,Bool.true_and]

theorem checkMSig_rdq (s : Peekable γ) : (s.lisCheckMSig cnt).rdq = s.rdq.lisCheckMSig := by
  rw [lisCheckMSig,Rdq.lisCheckMSig]
  cases s.rdq.msgs with
  | nil => rfl
  | cons mp l =>
    dsimp only
    split_ifs <;> rfl

theorem requeueLeft_rdq (s : Peekable γ) (m : List Mblk) : (s.requeueLeft cnt m).rdq = s.rdq.requeueLeft m := by
  cases m <;> rfl

/- What a result is for the queue and the user. -/
def seen (r : Peekable γ × Except ℤ Answer) : Rdq × Except ℤ Answer := (r.1.rdq,r.2)

def reply (r : Rdq × Answer) : Rdq × Except ℤ Answer :=
  (r.1,match r.2.err with
    | none => .ok r.2
    | some e => .error (-e.val))

theorem fails_seen (s : Peekable γ) (err : ℤ) :
    (s.fails cnt err).map seen = some (s.rdq.lisCheckMSig,.error (-err)) := by
  rw [fails,Option.map_some,seen,checkMSig_rdq]

/- The part of `lis_strgetpmsg` that has the message off the queue. -/
theorem copied_doit (s : Peekable γ) (flags : ℤ) : (s.copied cnt true c mp flags).map seen =
    (let kctl := copyoutMsgpart true c.fault c.ctl mp.blocks
    if kctl.err then some (s.rdq.lisCheckMSig,.error .efault)
    else
      let kdat := copyoutMsgpart false c.fault c.dat kctl.left
      if kdat.err then some (s.rdq.lisCheckMSig,.error .efault)
      else
        let hd := if kctl.more || kdat.more then s.rdq.requeueLeft kdat.left else s.rdq
        if c.fault .flags ∨ (c.band.isSome ∧ c.fault .band) then some (hd.lisCheckMSig,.error .efault)
        else some (hd.lisCheckMSig,⟨kctl.bytes,kdat.bytes,kctl.len,kdat.len,kctl.more,kdat.more,
          c.flagsBack flags,if lisHipri mp.dbType then 0 else mp.blk.bBand,none⟩)).map reply := by
  simp only [copied,copyoutMsg_doit,gives,Bool.true_and,true_and,if_true]
  generalize copyoutMsgpart true c.fault c.ctl mp.blocks = kctl
  by_cases h1 : kctl.err = true
  · rw [if_pos h1,if_pos h1,fails_seen]
    rfl
  rw [if_neg h1,if_neg h1]
  generalize copyoutMsgpart false c.fault c.dat kctl.left = kdat
  by_cases h2 : kdat.err = true
  · rw [if_pos h2,if_pos h2,fails_seen]
    rfl
  rw [if_neg h2,if_neg h2]
  have hleft : (if (kctl.more || kdat.more) = true then s.requeueLeft cnt kdat.left else s).rdq =
      if (kctl.more || kdat.more) = true then s.rdq.requeueLeft kdat.left else s.rdq := by
    rw [apply_ite Peekable.rdq,requeueLeft_rdq]
  by_cases h3 : c.fault .flags = true ∨ (c.band.isSome = true ∧ c.fault .band = true)
  · rw [if_pos h3,if_pos h3,fails_seen,hleft]
    rfl
  · rw [if_neg h3,if_neg h3,Option.map_some,seen,checkMSig_rdq,hleft]
    rfl

theorem other_iff {t : Uchar} : t ∉ [M_DATA,M_PROTO,M_PCPROTO,M_SIG] ↔
    t ≠ M_DATA ∧ t ≠ M_PROTO ∧ t ≠ M_PCPROTO ∧ t ≠ M_SIG := by
  simp only [List.mem_cons,List.not_mem_nil,or_false,not_or,ne_eq]

/-- With `doit`, and a message at a head that has no error and is not linked, this is the `lis_strgetpmsg` that
gets messages in parts. -/
theorem strgetpmsg_doit (he : s.sdRerror = none) (hp : s.stplex = false) (hl : s.rdq.msgs = mp :: l) (mem : Bool) :
    (s.strgetpmsg cnt true mem c).map seen = (lisStrgetpmsg s.rdq c).map reply := by
  obtain ⟨⟨msgs,strpri⟩,counters,err,hup,plex⟩ := s
  obtain rfl : msgs = mp :: l := hl
  obtain rfl : err = none := he
  obtain rfl : plex = false := hp
  simp only [strgetpmsg,lisStrgetpmsg,true_and,Bool.false_eq_true,if_false,if_true]
  by_cases hargs : c.fault .args = true
  · rw [if_pos hargs,if_pos hargs]
    rfl
  rw [if_neg hargs,if_neg hargs]
  by_cases hpass : mp.dbType = M_PASSFP
  · rw [if_pos hpass,if_pos hpass,fails_seen,checkMSig_rdq]
    rfl
  rw [if_neg hpass,if_neg hpass]
  by_cases hbad : mp.dbType ∉ [M_DATA,M_PROTO,M_PCPROTO,M_SIG]
  · rw [if_pos hbad,if_pos (other_iff.mp hbad),fails_seen]
    rfl
  rw [if_neg hbad,if_neg fun hc => hbad (other_iff.mpr hc),get]
  cases hh : lisHipri mp.dbType <;> cases hsel : c.selects mp with
  | error e => exact fails_seen _ _
  | ok flags =>
    by_cases hsig : mp.dbType = M_SIG
    · simp only [if_pos hsig]
      rw [fails_seen,checkMSig_rdq]
      rfl
    · simp only [if_neg hsig]
      rw [copied_doit,hh]
      rfl

/-! ### Looking and getting -/

/- The same bytes and sizes. -/
structure Alike (p q : Part) : Prop where
  bytes : p.bytes = q.bytes
  rtnlen : p.rtnlen = q.rtnlen
  mlen : p.mlen = q.mlen
  err : p.err = q.err

theorem Alike.len {p q : Part} (h : Alike p q) : p.len = q.len := by rw [Part.len,Part.len,h.mlen,h.rtnlen]

/- Blocks after a part has been got: those of the other part are as they were. -/
structure Kept (isCtl : Bool) (b b' : Mblk) : Prop where
  dbType : b'.dbType = b.dbType
  same : ofPart isCtl b = false → b' = b
  size : 0 ≤ b'.lisMblksize

theorem kept_self (h : ∀ b ∈ m, 0 ≤ b.lisMblksize) : List.Forall₂ (Kept isCtl) m m :=
  List.forall₂_same.mpr fun b hb => ⟨rfl,fun _ => rfl,h b hb⟩

theorem Kept.skip {b : Mblk} (hb : ofPart isCtl b = true) (h : (n : ℤ) ≤ b.lisMblksize) : Kept isCtl b (b.skip n) := by
  refine ⟨rfl,fun hc => Bool.noConfusion (hb.symm.trans hc),?_⟩
  simp only [Mblk.lisMblksize,Mblk.skip] at h ⊢
  omega

theorem kept_size {m' : List Mblk} (h : List.Forall₂ (Kept isCtl) m m') : ∀ b ∈ m', 0 ≤ b.lisMblksize := by
  induction h with
  | nil => exact fun b hb => absurd hb List.not_mem_nil
  | cons hb _ ih =>
    intro x hx
    rcases List.mem_cons.mp hx with rfl | hx
    · exact hb.size
    · exact ih x hx

/- The loop of a call that looks leaves the blocks alone. -/
theorem copyoutPart_left (isCtl : Bool) (fault : Ucopy → Bool) : ∀ (n : ℕ) (rtnlen maxlen : ℤ) (mlen : Option ℕ)
    (m : List Mblk), (copyoutPart false isCtl fault n rtnlen maxlen mlen m).left = m
  | 0, _, _, _, _ => rfl
  | _ + 1, _, _, _, [] => rfl
  | n + 1, rtnlen, maxlen, mlen, m :: bCont => by
      have ih := copyoutPart_left isCtl fault n
      simp only [copyoutPart,Bool.false_eq_true,if_false]
      split_ifs <;> simp [ih]

/- With no pointers crossed a call that gets copies what one that looks does. -/
theorem copyoutPart_alike (isCtl : Bool) (fault : Ucopy → Bool) (n : ℕ) (rtnlen maxlen : ℤ) (mlen : Option ℕ)
    (h : ∀ b ∈ m, 0 ≤ b.lisMblksize) :
    Alike (copyoutPart false isCtl fault n rtnlen maxlen mlen m) (copyoutPart true isCtl fault n rtnlen maxlen mlen m) ∧
      List.Forall₂ (Kept isCtl) m (copyoutPart true isCtl fault n rtnlen maxlen mlen m).left := by
  induction n generalizing m rtnlen maxlen mlen with
  | zero => exact ⟨⟨rfl,rfl,rfl,rfl⟩,kept_self h⟩
  | succ n ih =>
    cases m with
    | nil => exact ⟨⟨rfl,rfl,rfl,rfl⟩,.nil⟩
    | cons b bCont =>
      have hb := h b List.mem_cons_self
      have hrest : ∀ x ∈ bCont, 0 ≤ x.lisMblksize := fun x hx => h x (List.mem_cons_of_mem _ hx)
      simp only [copyoutPart,Bool.false_eq_true,if_false,if_true]
      by_cases hof : ofPart isCtl b = true
      · rw [if_pos hof,if_pos hof]
        by_cases hneg : maxlen < 0
        · rw [if_pos hneg,if_pos hneg]
          exact ⟨⟨rfl,rfl,rfl,rfl⟩,kept_self h⟩
        rw [if_neg hneg,if_neg hneg]
        obtain ⟨k,hk⟩ : ∃ k : ℕ, min maxlen b.lisMblksize = k := ⟨(min maxlen b.lisMblksize).toNat,by omega⟩
        have hkb : (k : ℤ) ≤ b.lisMblksize := hk ▸ min_le_right _ _
        have hskip := Kept.skip hof hkb
        rw [hk,lisAdjmsg_block (Int.natCast_nonneg k) hkb,Int.toNat_natCast]
        split_ifs with hf hend
        · exact ⟨⟨rfl,rfl,rfl,rfl⟩,kept_self h⟩
        · exact ⟨⟨rfl,rfl,rfl,rfl⟩,.cons hskip (kept_self hrest)⟩
        · obtain ⟨ha,hk⟩ := ih (rtnlen + k) (maxlen - k) (some (mlen.getD (lisXmsgsize (b :: bCont)))) hrest
          exact ⟨⟨congrArg (b.data.take k ++ ·) ha.bytes,ha.rtnlen,ha.mlen,ha.err⟩,.cons hskip hk⟩
      · rw [if_neg hof,if_neg hof]
        split_ifs with hend
        · exact ⟨⟨rfl,rfl,rfl,rfl⟩,kept_self h⟩
        · obtain ⟨ha,hk⟩ := ih rtnlen maxlen mlen hrest
          exact ⟨⟨ha.bytes,ha.rtnlen,ha.mlen,ha.err⟩,.cons ⟨rfl,fun _ => rfl,hb⟩ hk⟩

/- A run of data is where it was, after the control part. -/
theorem xmsgsize_kept {b : Mblk} {m' : List Mblk} (h : List.Forall₂ (Kept true) m m') (hb : b.dbType = M_DATA) :
    lisXmsgsize (b :: m) = lisXmsgsize (b :: m') := by
  have hrun : (m.takeWhile fun x => decide (x.dbType = b.dbType)) =
      m'.takeWhile fun x => decide (x.dbType = b.dbType) := by
    induction h with
    | nil => rfl
    | @cons x x' _ _ hx _ ih =>
      rw [List.takeWhile_cons,List.takeWhile_cons,hx.dbType,ih]
      by_cases ht : x.dbType = b.dbType
      · rw [hx.same (by rw [ofPart,if_pos rfl,ht,hb]; rfl)]
      · simp only [ht,decide_false,Bool.false_eq_true,if_false]
  simp only [lisXmsgsize,List.takeWhile_cons,decide_true,if_true,hrun]

theorem copyoutPart_kept {m' : List Mblk} (fault : Ucopy → Bool) (n : ℕ) (rtnlen maxlen : ℤ) (mlen : Option ℕ)
    (h : List.Forall₂ (Kept true) m m') :
    Alike (copyoutPart false false fault n rtnlen maxlen mlen m)
      (copyoutPart false false fault n rtnlen maxlen mlen m') := by
  induction n generalizing m m' rtnlen maxlen mlen with
  | zero => exact ⟨rfl,rfl,rfl,rfl⟩
  | succ n ih =>
    cases h with
    | nil => exact ⟨rfl,rfl,rfl,rfl⟩
    | @cons b b' bCont bCont' hb hk =>
      simp only [copyoutPart,Bool.false_eq_true,if_false,false_and]
      have hof : ofPart false b' = ofPart false b := by rw [ofPart,ofPart,hb.dbType]
      rw [hof]
      by_cases hdat : ofPart false b = true
      · have hdata : b.dbType = M_DATA := of_decide_eq_true hdat
        obtain rfl : b' = b := hb.same (by rw [ofPart,if_pos rfl,hdata]; rfl)
        rw [if_pos hdat,if_pos hdat,xmsgsize_kept hk hdata]
        split_ifs with hneg hf hend
        · exact ⟨rfl,rfl,rfl,rfl⟩
        · exact ⟨rfl,rfl,rfl,rfl⟩
        · exact ⟨rfl,rfl,rfl,rfl⟩
        · have ha := ih (rtnlen + min maxlen b'.lisMblksize) (maxlen - min maxlen b'.lisMblksize)
            (some (mlen.getD (lisXmsgsize (b' :: bCont')))) hk
          exact ⟨congrArg (b'.data.take (min maxlen b'.lisMblksize).toNat ++ ·) ha.bytes,ha.rtnlen,ha.mlen,ha.err⟩
      · rw [if_neg hdat,if_neg hdat]
        have ha := ih rtnlen maxlen mlen hk
        exact ⟨ha.bytes,ha.rtnlen,ha.mlen,ha.err⟩

theorem copyoutMsg_left (sb : Option ℤ) : (copyoutMsg false isCtl fault sb m).left = m := by
  simp only [copyoutMsg,Bool.false_and]
  split_ifs <;> first | rfl | exact copyoutPart_left ..

/- Where the call that gets has no fault, the one that looks has none. -/
theorem copyoutMsg_alike {sb : Option ℤ} (h : ∀ b ∈ m, 0 ≤ b.lisMblksize)
    (hok : (copyoutMsg true isCtl fault sb m).err = false) :
    Alike (copyoutMsg false isCtl fault sb m) (copyoutMsg true isCtl fault sb m) ∧
      List.Forall₂ (Kept isCtl) m (copyoutMsg true isCtl fault sb m).left := by
  obtain ⟨ha,hk⟩ := copyoutPart_alike isCtl fault m.length 0 (sb.getD (-1)) none h
  simp only [copyoutMsg,if_true,Bool.true_and,Bool.false_eq_true,if_false,Bool.false_and] at hok ⊢
  by_cases hchk : sb.isSome = true ∧ fault (.check isCtl) = true
  · rw [if_pos hchk] at hok
    cases hok
  have hchk' : ¬ (decide (0 ≤ sb.getD (-1)) = true ∧ fault (.check isCtl) = true) := by
    rintro ⟨hlen,hf⟩
    cases sb with
    | none => exact absurd hlen Bool.false_ne_true
    | some len => exact hchk ⟨rfl,hf⟩
  rw [if_neg hchk] at hok ⊢
  rw [if_neg hchk',ha.err]
  split_ifs at hok ⊢ with he
  · rw [he] at hok
    cases hok
  · exact ⟨⟨ha.bytes,ha.rtnlen,ha.mlen,hok.symm⟩,hk⟩

theorem copyoutMsg_kept {m' : List Mblk} (fault : Ucopy → Bool) (sb : Option ℤ) (h : List.Forall₂ (Kept true) m m') :
    Alike (copyoutMsg false false fault sb m) (copyoutMsg false false fault sb m') := by
  have ha := copyoutPart_kept fault m.length 0 (sb.getD (-1)) none h
  simp only [copyoutMsg,Bool.false_and,Bool.false_eq_true,if_false,← h.length_eq,ha.err]
  split_ifs
  · exact ⟨rfl,rfl,rfl,rfl⟩
  · exact ha
  · exact ⟨ha.bytes,ha.rtnlen,ha.mlen,rfl⟩

/-! ### What I_PEEK shows -/

variable (cnt s) in
/- The head after an I_PEEK: an M_SIG at the front is taken off, and one more behind it. -/
def signalled : Peekable γ :=
  if s.sdRerror = none ∧ s.stplex = false then (s.lisCheckMSig cnt).lisCheckMSig cnt else s

variable (s) in
def AtSig : Prop := ∃ mp ∈ s.rdq.msgs.head?, mp.dbType = M_SIG

/- What a look and a getmsg have in common. -/
structure View (p a : Answer) : Prop where
  ctl : p.ctl = a.ctl
  dat : p.dat = a.dat
  ctlLen : p.ctlLen = a.ctlLen
  datLen : p.datLen = a.datLen
  flags : p.flags = a.flags

theorem checkMSig_self (h : ¬ s.AtSig) : s.lisCheckMSig cnt = s := by
  rw [lisCheckMSig]
  cases hl : s.rdq.msgs with
  | nil => rfl
  | cons mp l => exact if_neg fun hsig => h ⟨mp,by rw [hl]; rfl,hsig⟩

theorem signalled_self (h : ¬ s.AtSig) : s.signalled cnt = s := by
  rw [signalled,checkMSig_self h,checkMSig_self h,ite_self]

theorem fails_self (h : ¬ s.AtSig) (err : ℤ) : s.fails cnt err = some (s,.error (-err)) := by
  rw [fails,checkMSig_self h]

theorem fails_ok {err : ℤ} {a : Answer} : s.fails cnt err ≠ some (t,.ok a) := by
  intro h
  cases h

theorem gives_ok {a b : Answer} (h : s.gives cnt true c a = some (t,.ok b)) :
    b = { a with flags := c.flagsBack a.flags } := by
  simp only [gives,if_true] at h
  by_cases hf : True ∧ (c.fault .flags = true ∨ c.band.isSome = true ∧ c.fault .band = true)
  · rw [if_pos hf] at h
    exact absurd h fails_ok
  · rw [if_neg hf] at h
    cases h
    rfl

theorem gives_peek (h : ¬ s.AtSig) (a : Answer) : s.gives cnt false c a =
    some (s,.ok { a with flags := if a.flags = MSG_HIPRI then MSG_HIPRI else 0 }) := by
  rw [gives,checkMSig_self h]
  rfl

theorem copied_peek (h : ¬ s.AtSig) (flags : ℤ) : ∃ r, s.copied cnt false c mp flags = some (s,r) := by
  simp only [copied,Bool.false_and,Bool.false_eq_true,if_false,fails_self h,gives_peek h]
  split_ifs <;> exact ⟨_,rfl⟩

theorem copied_get {u : Peekable γ} {a : Answer} {flags : ℤ} (h : u.copied cnt true c mp flags = some (t,.ok a)) :
    let kctl := copyoutMsg true true c.fault c.ctl mp.blocks
    let kdat := copyoutMsg true false c.fault c.dat kctl.left
    kctl.err = false ∧ kdat.err = false ∧ a.ctl = kctl.bytes ∧ a.dat = kdat.bytes ∧ a.ctlLen = kctl.len ∧
      a.datLen = kdat.len ∧ a.flags = c.flagsBack flags := by
  simp only [copied] at h ⊢
  generalize copyoutMsg true true c.fault c.ctl mp.blocks = kctl at h
  cases hctl : kctl.err with
  | true =>
    rw [if_pos hctl] at h
    exact absurd h fails_ok
  | false =>
    rw [if_neg (by rw [hctl]; exact Bool.false_ne_true)] at h
    generalize copyoutMsg true false c.fault c.dat kctl.left = kdat at h
    cases hdat : kdat.err with
    | true =>
      rw [if_pos hdat] at h
      exact absurd h fails_ok
    | false =>
      rw [if_neg (by rw [hdat]; exact Bool.false_ne_true)] at h
      rw [gives_ok h]
      exact ⟨rfl,rfl,rfl,rfl,rfl,rfl,rfl⟩

/- A message that has been got: a look at it shows the same. -/
theorem copied_view {u : Peekable γ} {a : Answer} {f f' : ℤ} (h : ¬ s.AtSig) (hb : c.band = none)
    (hup : ∀ b ∈ mp.blocks, b.bRptr ≤ b.bWptr) (hf : f = MSG_HIPRI ↔ f' = MSG_HIPRI)
    (hget : u.copied cnt true c mp f' = some (t,.ok a)) :
    ∃ p, s.copied cnt false c mp f = some (s,.ok p) ∧ View p a := by
  obtain ⟨hctl,hdat,h1,h2,h3,h4,h5⟩ := copied_get hget
  obtain ⟨hac,hk⟩ := copyoutMsg_alike (fun b hm => size_nonneg (hup b hm)) hctl
  obtain ⟨had,-⟩ := copyoutMsg_alike (kept_size hk) hdat
  have hkd := copyoutMsg_kept c.fault c.dat hk
  simp only [copied,copyoutMsg_left,hac.err,hctl,hkd.err,had.err,hdat,Bool.false_and,Bool.false_eq_true,if_false,
    gives_peek h]
  refine ⟨_,rfl,?_⟩
  refine ⟨hac.bytes.trans h1.symm,(hkd.bytes.trans had.bytes).trans h2.symm,hac.len.trans h3.symm,
    (hkd.len.trans had.len).trans h4.symm,?_⟩
  rw [h5,Call.flagsBack,hb,Option.isNone_none,if_pos rfl]
  exact if_congr hf rfl rfl

end Peekable

/- The arguments of getmsg and I_PEEK: there is no band of the user. -/
def Call.getmsg (c : Call) : Call := { c with band := none }

namespace Peekable

variable {γ : Type*} {cnt : Counting γ} {s t : Peekable γ} {c : Call} {mp : Mesg} {l : List Mesg}

theorem nothing_peek (h : ¬ s.AtSig) : ∃ r, s.nothing cnt false c = some (s,r) := by
  simp only [nothing,fails_self h,gives_peek h]
  split_ifs <;> exact ⟨_,rfl⟩

theorem nothing_view {a : Answer} (h : ¬ s.AtSig) (hget : s.nothing cnt true c.getmsg = some (t,.ok a)) :
    ∃ p, s.nothing cnt false c.getmsg = some (s,.ok p) ∧ View p a := by
  simp only [nothing,Bool.or_eq_true] at hget ⊢
  generalize (if s.strhup then (0 : ℤ) else -1) = len at hget ⊢
  by_cases herr : (copyoutMsg true true c.getmsg.fault c.getmsg.ctl []).err = true ∨
      (copyoutMsg true false c.getmsg.fault c.getmsg.dat []).err = true
  · rw [if_pos herr] at hget
    exact absurd hget fails_ok
  rw [if_neg herr] at hget
  rw [not_or,Bool.not_eq_true,Bool.not_eq_true] at herr
  have hnil : ∀ b ∈ ([] : List Mblk), 0 ≤ b.lisMblksize := fun b hb => absurd hb List.not_mem_nil
  have hac := (copyoutMsg_alike hnil herr.1).1.err.trans herr.1
  have had := (copyoutMsg_alike hnil herr.2).1.err.trans herr.2
  simp only [hac,had,Bool.false_eq_true,or_self,if_false,gives_peek h]
  refine ⟨_,rfl,?_⟩
  rw [gives_ok hget]
  exact ⟨rfl,rfl,rfl,rfl,rfl⟩

/- A look at the first message, and a getmsg of it. -/
theorem peek_view {a : Answer} (h : ¬ s.AtSig) (hsig : mp.dbType ≠ M_SIG)
    (hup : ∀ b ∈ mp.blocks, b.bRptr ≤ b.bWptr) (hget : s.get cnt c.getmsg mp l = some (t,.ok a)) :
    ∃ p, s.peek cnt true c.getmsg mp = some (s,.ok p) ∧ View p a := by
  simp only [get] at hget
  simp only [peek,if_neg hsig,Bool.not_true,Bool.false_eq_true,if_false]
  cases hh : lisHipri mp.dbType with
  | true =>
    simp only [Call.selects,hh,if_true,if_neg hsig] at hget
    simp only [Bool.not_true,Bool.false_and,Bool.false_eq_true,if_false,if_true]
    exact copied_view h rfl hup Iff.rfl hget
  | false =>
    cases hsel : c.getmsg.selects mp with
    | error e =>
      rw [hsel] at hget
      exact absurd hget fails_ok
    | ok f' =>
      simp only [hsel,if_neg hsig] at hget
      simp only [Call.selects,hh,Bool.false_eq_true,if_false,show c.getmsg.band = none from rfl,Option.isNone_none,
        if_true] at hsel
      split_ifs at hsel with h1 h2 h3 h4
      cases hsel
      simp only [Bool.not_false,Bool.true_and,decide_eq_true_eq,h1,if_false,Bool.false_eq_true]
      exact copied_view h rfl hup (iff_of_false (by decide) (by decide)) hget

theorem peek_self (h : ¬ s.AtSig) (hsig : mp.dbType ≠ M_SIG) (mem : Bool) : ∃ r, s.peek cnt mem c mp = some (s,r) := by
  simp only [peek,if_neg hsig,fails_self h]
  split_ifs
  · exact ⟨_,rfl⟩
  · exact ⟨_,rfl⟩
  · exact copied_peek h _
  · exact copied_peek h _

theorem peek_mem {a : Answer} (h : ¬ s.AtSig) (hsig : mp.dbType ≠ M_SIG)
    (hget : s.peek cnt true c mp = some (t,.ok a)) : s.peek cnt false c mp = some (s,.error (-ENOMEM)) := by
  simp only [peek,if_neg hsig] at hget ⊢
  by_cases hpri : (!lisHipri mp.dbType && decide (c.flags = MSG_HIPRI)) = true
  · rw [if_pos hpri] at hget
    exact absurd hget fails_ok
  · rw [if_neg hpri]
    exact fails_self h ENOMEM

/- A getmsg that succeeds. -/
theorem strgetpmsg_get {a : Answer} {mem : Bool} (h : s.strgetpmsg cnt true mem c = some (t,.ok a)) :
    s.sdRerror = none ∧ s.stplex = false ∧ ((s.rdq.msgs = [] ∧ s.nothing cnt true c = some (t,.ok a)) ∨
      ∃ mp l, s.rdq.msgs = mp :: l ∧ mp.dbType ∈ [M_DATA,M_PROTO,M_PCPROTO,M_SIG] ∧
        s.get cnt c mp l = some (t,.ok a)) := by
  rw [strgetpmsg] at h
  cases he : s.sdRerror with
  | some e =>
    rw [he] at h
    cases h
  | none =>
    simp only [he,true_and,if_true] at h
    by_cases hargs : c.fault .args = true
    · rw [if_pos hargs] at h
      cases h
    rw [if_neg hargs] at h
    by_cases hp : s.stplex = true
    · rw [if_pos hp] at h
      cases h
    rw [if_neg hp] at h
    refine ⟨rfl,Bool.eq_false_of_not_eq_true hp,?_⟩
    cases hl : s.rdq.msgs with
    | nil =>
      simp only [hl] at h
      by_cases hwait : (0 ≤ c.ctl.getD (-1) ∨ 0 ≤ c.dat.getD (-1)) ∧ s.strhup = false
      · rw [if_pos hwait] at h
        cases h
      · exact .inl ⟨rfl,(if_neg hwait).symm.trans h⟩
    | cons mp l =>
      simp only [hl] at h
      by_cases hpass : mp.dbType = M_PASSFP
      · rw [if_pos hpass] at h
        cases h
      rw [if_neg hpass] at h
      by_cases htype : mp.dbType ∈ [M_DATA,M_PROTO,M_PCPROTO,M_SIG]
      · exact .inr ⟨mp,l,rfl,htype,(if_neg fun hc => other_iff.mpr hc htype).symm.trans h⟩
      · rw [if_pos (other_iff.mp htype)] at h
        exact absurd h fails_ok

theorem strgetpmsg_peek (cnt : Counting γ) (c : Call) (h : ¬ s.AtSig)
    (hpass : ∀ mp ∈ s.rdq.msgs.head?, mp.dbType ≠ M_PASSFP) (mem : Bool) : ∃ r, s.strgetpmsg cnt false mem c = some (s,r) := by
  rw [strgetpmsg]
  cases s.sdRerror with
  | some e => exact ⟨_,rfl⟩
  | none =>
    simp only [Bool.false_eq_true,false_and,if_false]
    by_cases hp : s.stplex = true
    · rw [if_pos hp]
      exact ⟨_,rfl⟩
    rw [if_neg hp]
    cases hl : s.rdq.msgs with
    | nil => exact nothing_peek h
    | cons mp l =>
      have hmem : mp ∈ s.rdq.msgs.head? := by rw [hl]; rfl
      dsimp only
      rw [if_neg (hpass mp hmem)]
      by_cases hbad : mp.dbType ∉ [M_DATA,M_PROTO,M_PCPROTO,M_SIG]
      · rw [if_pos (other_iff.mp hbad),fails_self h]
        exact ⟨_,rfl⟩
      · rw [if_neg fun hc => hbad (other_iff.mpr hc)]
        exact peek_self h (fun hsig => h ⟨mp,hmem,hsig⟩) mem

/- A look at an M_SIG. -/
theorem strgetpmsg_sig (cnt : Counting γ) (c : Call) (h : s.AtSig) (mem : Bool) :
    ∃ e, s.strgetpmsg cnt false mem c = some (s.signalled cnt,.error e) := by
  obtain ⟨mp,hm,hsig⟩ := h
  obtain ⟨l,hl⟩ : ∃ l, s.rdq.msgs = mp :: l := ⟨_,List.eq_cons_of_mem_head? hm⟩
  rw [strgetpmsg,signalled]
  cases s.sdRerror with
  | some e => exact ⟨_,rfl⟩
  | none =>
    simp only [Bool.false_eq_true,false_and,if_false,true_and]
    cases s.stplex with
    | true => exact ⟨_,rfl⟩
    | false =>
      simp only [hl,hsig,Bool.false_eq_true,if_false,if_true,peek]
      exact ⟨_,rfl⟩

theorem strgetpmsg_view {a : Answer} {mem' : Bool} (h : ¬ s.AtSig)
    (hpass : ∀ mp ∈ s.rdq.msgs.head?, mp.dbType ≠ M_PASSFP)
    (hup : ∀ mp ∈ s.rdq.msgs.head?, ∀ b ∈ mp.blocks, b.bRptr ≤ b.bWptr)
    (hget : s.strgetpmsg cnt true mem' c.getmsg = some (t,.ok a)) (mem : Bool) :
    (mem = false ∧ s.strgetpmsg cnt false mem c.getmsg = some (s,.error (-ENOMEM))) ∨
      ∃ p, s.strgetpmsg cnt false mem c.getmsg = some (s,.ok p) ∧ View p a := by
  obtain ⟨he,hp,⟨hl,hget⟩ | ⟨mp,l,hl,htype,hget⟩⟩ := strgetpmsg_get hget
  · refine .inr ?_
    simp only [strgetpmsg,he,hp,hl,Bool.false_eq_true,false_and,if_false]
    exact nothing_view h hget
  · have hmem : mp ∈ s.rdq.msgs.head? := by rw [hl]; rfl
    have hsig : mp.dbType ≠ M_SIG := fun hsig => h ⟨mp,hmem,hsig⟩
    have hview := peek_view h hsig (hup mp hmem) hget
    simp only [strgetpmsg,he,hp,hl,Bool.false_eq_true,false_and,if_false,if_neg (hpass mp hmem),
      if_neg fun hc => other_iff.mpr hc htype]
    cases mem with
    | false =>
      obtain ⟨p,hpeek,-⟩ := hview
      exact .inl ⟨rfl,peek_mem h hsig hpeek⟩
    | true => exact .inr hview

/-- `lis_strgetpmsg` with `doit` clear. Of a message that is not an M_SIG it takes nothing, and it shows what
getmsg would get, unless there is no memory for the copy. The first message is not an M_PASSFP. -/
theorem peek_views (cnt : Counting γ) (s : Peekable γ) (c : Call) (mem : Bool)
    (hpass : ∀ mp ∈ s.rdq.msgs.head?, mp.dbType ≠ M_PASSFP)
    (hup : ∀ mp ∈ s.rdq.msgs.head?, ∀ b ∈ mp.blocks, b.bRptr ≤ b.bWptr) :
    ∃ r, s.strgetpmsg cnt false mem c.getmsg = some (s.signalled cnt,r) ∧ (s.AtSig → ∃ e, r = .error e) ∧
      (¬ s.AtSig → s.signalled cnt = s ∧ ∀ mem' t a, s.strgetpmsg cnt true mem' c.getmsg = some (t,.ok a) →
        (mem = false ∧ r = .error (-ENOMEM)) ∨ ∃ p, r = .ok p ∧ View p a) := by
  by_cases h : s.AtSig
  · obtain ⟨e,he⟩ := strgetpmsg_sig cnt c.getmsg h mem
    exact ⟨_,he,fun _ => ⟨e,rfl⟩,fun hc => absurd h hc⟩
  · obtain ⟨r,hr⟩ := strgetpmsg_peek cnt c.getmsg h hpass mem
    have hself : s.signalled cnt = s := signalled_self h
    refine ⟨r,hself.symm ▸ hr,fun hc => absurd hc h,fun _ => ⟨hself,fun mem' t a hget => ?_⟩⟩
    rcases strgetpmsg_view h hpass hup hget mem with ⟨hm,he⟩ | ⟨p,hp,hv⟩
    · exact .inl ⟨hm,(Prod.mk.inj (Option.some.inj (hr.symm.trans he))).2⟩
    · exact .inr ⟨p,(Prod.mk.inj (Option.some.inj (hr.symm.trans hp))).2,hv⟩

/- Messages are counted. -/
def countMesgs : Counting ℕ := ⟨fun n _ => n - 1,fun n _ => n + 1⟩

def oneMesg (mp : Mesg) : Peekable ℕ := ⟨⟨[mp],false⟩,1,none,false,false⟩

theorem peek_views_one : ∃ p, (oneMesg someMesg).strgetpmsg countMesgs false true (getCall 1 2 0).getmsg =
    some (oneMesg someMesg,.ok p) ∧ View p someAnswer := by
  obtain ⟨r,hr,-,hv⟩ := peek_views countMesgs (oneMesg someMesg) (getCall 1 2 0) true (by decide) (by decide)
  obtain ⟨hs,hv⟩ := hv (by rintro ⟨mp,hm,hsig⟩; cases hm; exact absurd hsig (by decide))
  rcases hv true _ someAnswer rfl with ⟨hm,-⟩ | ⟨p,rfl,hp⟩
  · cases hm
  · exact ⟨p,hs ▸ hr,hp⟩

/- An M_SIG is taken off. A block with its pointers crossed makes getmsg cut bytes off the end, and I_PEEK
shows them. -/
theorem peek_takes :
    (¬ ∀ (s : Peekable ℕ) (c : Call) (r : Peekable ℕ × Except ℤ Answer),
      s.strgetpmsg countMesgs false true c.getmsg = some r → r.1.rdq.msgs = s.rdq.msgs) ∧
    ¬ ∀ (s t u : Peekable ℕ) (c : Call) (p a : Answer), s.strgetpmsg countMesgs false true c.getmsg = some (u,.ok p) →
      u.strgetpmsg countMesgs true true c.getmsg = some (t,.ok a) → p.dat = a.dat := by
  refine ⟨fun h => ?_,fun h => ?_⟩
  · exact absurd (h (oneMesg ⟨{ dataBlk 0 [1] with dbType := M_SIG },[]⟩) (getCall 9 9 0) _ rfl) (by decide)
  · exact absurd (h (oneMesg ⟨{ protoBlk [1,2] with bRptr := 2, bWptr := 0, lim := Nat.zero_le _ },
      [dataBlk 0 [1,2,3,4,5]]⟩) _ _ (getCall 9 9 0) _ _ rfl rfl) (by decide)

end Peekable

end CSLiS.Head
