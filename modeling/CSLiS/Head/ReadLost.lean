import CSLiS.Head.ReadModes

/-!
# Protocol messages that lose bytes or their place (head/head.c)

A control block that is behind one that was made M_DATA is dropped, and the rest of a message is put back by the band
of its first block, behind the messages of a higher one.
-/

namespace CSLiS.Head
open Queue

/-! ### Reads that lose bytes or their order -/

section Lost
variable {opt : Rdopt} {fault : ℕ → Bool} {room ulen n : ℕ} {bs : List Mblk} {top : Uchar} {m : Mesg} {l : List Mesg} {hd hd' : Rdq} {bytes bytes' : List Uchar} {again : Bool}

/- One round of a loop that has ended. -/
theorem strreadLoop_inv (hb : bytes.length ≤ ulen) {b : Bool} {g : Got}
    (h : strreadLoop opt fault ulen n hd bytes b = some g) : ∃ hd' bytes' again,
      Round opt fault ulen hd bytes hd' bytes' again ∧ ((again = false ∧ g.hd = hd' ∧ g.bytes = bytes') ∨
        (again = true ∧ ∃ k b', strreadLoop opt fault ulen k hd' bytes' b' = some g)) := by
  cases n with
  | zero => cases h
  | succ n =>
    obtain ⟨hd',bytes',again,hr,hloop⟩ := strreadLoop_round opt fault hd hb
    refine ⟨hd',bytes',again,hr,?_⟩
    rcases hloop n b with ⟨hx,ret,hg⟩ | ⟨hx,b',hg⟩
    · obtain rfl := Option.some.inj (hg.symm.trans h)
      exact .inl ⟨hx,rfl,rfl⟩
    · exact .inr ⟨hx,n,b',hg.symm.trans h⟩

/- More rounds than it takes do not matter, nor whether a message was read before. -/
theorem strreadLoop_mono (hb : bytes.length ≤ ulen) {b : Bool} {g : Got} {k : ℕ}
    (h : strreadLoop opt fault ulen n hd bytes b = some g) (hk : n ≤ k) (b' : Bool) :
    ∃ ret, strreadLoop opt fault ulen k hd bytes b' = some ⟨g.hd,g.bytes,ret⟩ := by
  induction n generalizing hd bytes b b' k with
  | zero => cases h
  | succ n ih =>
    obtain ⟨k,rfl⟩ : ∃ j, k = j + 1 := ⟨k - 1,by omega⟩
    obtain ⟨hd',bytes',again,hr,hloop⟩ := strreadLoop_round opt fault hd hb
    rcases hloop n b with ⟨hx,ret,hg⟩ | ⟨hx,c,hg⟩
    · obtain rfl := Option.some.inj (hg.symm.trans h)
      rcases hloop k b' with ⟨-,ret',hg'⟩ | ⟨hy,-⟩
      · exact ⟨ret',hg'⟩
      · exact Bool.noConfusion (hx.symm.trans hy)
    · rcases hloop k b' with ⟨hy,-⟩ | ⟨-,c',hg'⟩
      · exact Bool.noConfusion (hx.symm.trans hy)
      · rw [hg']
        exact ih (hr.length_le hb) (hg.symm.trans h) (Nat.le_of_succ_le_succ hk) c'

theorem readBlocks_nofault (off room : ℕ) (bs : List Mblk) : (readBlocks (fun _ => false) off room bs).err = false := by
  induction bs generalizing off room with
  | nil => rfl
  | cons b bs ih =>
    simp only [readBlocks,Bool.false_eq_true,if_false]
    split_ifs <;> first | rfl | exact ih _ _

/- A read of the size of the first block. -/
theorem readBlocks_first {b : Mblk} (ht : b.dbType = M_DATA) (off : ℕ) (bs : List Mblk) :
    (readBlocks (fun _ => false) off b.data.length (b :: bs)).bytes = b.data ∧
      (readBlocks (fun _ => false) off b.data.length (b :: bs)).left = bs := by
  have hlen := b.data_length
  simp only [readBlocks,ht,if_true,Bool.false_eq_true,if_false]
  split_ifs with h1 h2 h3 h4
  · omega
  · omega
  · exact ⟨List.take_of_length_le (by omega),rfl⟩
  · omega
  · exact ⟨(List.eq_nil_of_length_eq_zero (by omega)).symm,rfl⟩

/- A read with room for everything. -/
theorem readBlocks_all (hroom : (blockBytes bs).length < room) (off : ℕ) :
    (readBlocks (fun _ => false) off room bs).bytes = dataBytes bs ∧
      (readBlocks (fun _ => false) off room bs).left = [] := by
  have hw := readBlocks_walks (fun _ => false) off room bs
  have hleft : (readBlocks (fun _ => false) off room bs).left = [] := by
    by_contra hne
    have hfull := hw.full (readBlocks_nofault off room bs) hne
    have hsub := hw.sub.length_le
    rw [List.length_append] at hsub
    omega
  refine ⟨?_,hleft⟩
  rw [← hw.bytes,hleft]
  exact (List.append_nil _).symm

theorem lisRequeue_alone (hl : hd.msgs = []) : (hd.lisRequeue m).msgs = [m] := by
  rw [Rdq.lisRequeue]
  split_ifs
  · rw [hl]
    rfl
  · rw [hl]
    rfl

theorem check_alone (sp : Bool) : (⟨[],sp⟩ : Rdq).lisCheckMSig = ⟨[],sp⟩ := rfl

/- With RMSGD a read of no bytes takes the message away. -/
theorem rmsgd_takes (hmode : opt.mode = .rmsgd) (hn : opt.rprotnorm = false)
    (ho : opt.rprotdat = true ∨ opt.rprotdis = true)
    (hl : hd.msgs = [] ∨ ∃ m, hd.msgs = [m] ∧
      ∀ b ∈ m.blocks, b.dbType = M_DATA ∨ b.dbType = M_PROTO ∨ b.dbType = M_PCPROTO) {b : Bool} {g : Got}
    (h : strreadLoop opt (fun _ => false) 0 n hd [] b = some g) : g.hd.msgs = [] ∧ g.bytes = [] := by
  induction n generalizing hd b with
  | zero => cases h
  | succ n ih =>
    have h0 : ([] : List Uchar).length ≤ 0 := le_rfl
    obtain ⟨hd',bytes',again,hr,hloop⟩ := strreadLoop_round opt (fun _ => false) hd h0
    have hend (hb : bytes' = []) (hm : hd'.msgs = [] ∨ ∃ m, hd'.msgs = [m] ∧
        ∀ b ∈ m.blocks, b.dbType = M_DATA ∨ b.dbType = M_PROTO ∨ b.dbType = M_PCPROTO)
        (hf : again = false → hd'.msgs = []) : g.hd.msgs = [] ∧ g.bytes = [] := by
      subst hb
      rcases hloop n b with ⟨hx,ret,hg⟩ | ⟨hx,b',hg⟩
      · obtain rfl := Option.some.inj (hg.symm.trans h)
        exact ⟨hf hx,rfl⟩
      · exact ih hm (hg.symm.trans h)
    have htop {mp : Mesg} {k : List Mesg} (hk : hd.msgs = mp :: k) : k = [] ∧
        ∀ b ∈ mp.blocks, b.dbType = M_DATA ∨ b.dbType = M_PROTO ∨ b.dbType = M_PCPROTO := by
      rcases hl with hl | ⟨m,hl,ht⟩
      · exact absurd (hl.symm.trans hk) (List.cons_ne_nil _ _).symm
      · obtain ⟨rfl,rfl⟩ := List.cons.inj (hl.symm.trans hk)
        exact ⟨rfl,ht⟩
    cases hr with
    | empty hl' => exact hend rfl (.inl hl') fun _ => hl'
    | @data mp k _ r _ hl' ht hr hput hagain =>
      obtain ⟨rfl,-⟩ := htop hl'
      have hw := readBlocks_walks (fun _ => false) 0 0 mp.blocks
      have hr : r = readBlocks (fun _ => false) 0 0 mp.blocks := hr
      have herr : r.err = false := hr ▸ readBlocks_nofault 0 0 mp.blocks
      have hnil : r.bytes = [] := List.eq_nil_of_length_eq_zero (Nat.le_zero.mp (hr ▸ hw.length))
      rw [if_pos ⟨herr,hmode⟩,check_alone] at hput
      exact hend hnil (.inl (hput ▸ rfl)) fun _ => hput ▸ rfl
    | @conv mp k sp hl' ht _ hdat =>
      obtain ⟨rfl,htypes⟩ := htop hl'
      refine hend rfl (.inr ⟨mp.asData,lisRequeue_alone rfl,fun b hb => ?_⟩) fun hx => Bool.noConfusion hx
      rcases List.mem_cons.mp hb with rfl | hb
      · exact .inl rfl
      · exact htypes b (List.mem_cons_of_mem _ hb)
    | @drop mp k sp hl' ht _ hdat =>
      obtain ⟨rfl,htypes⟩ := htop hl'
      refine hend rfl ?_ fun hx => Bool.noConfusion hx
      cases hc : mp.bCont with
      | nil => exact .inl rfl
      | cons c rest =>
        refine .inr ⟨⟨c,rest⟩,lisRequeue_alone rfl,fun b hb => htypes b (List.mem_cons_of_mem _ ?_)⟩
        rw [hc]
        exact hb
    | @refuse mp k _ sp hl' ht hn' hput =>
      rcases hn' with hx | hx
      · exact Bool.noConfusion (hn.symm.trans hx)
      · exact ho.elim (fun h => Bool.noConfusion (hx.1.symm.trans h)) fun h => Bool.noConfusion (hx.2.symm.trans h)
    | @other mp k _ _ hl' ht ht' hput =>
      rcases (htop hl').2 mp.blk (List.mem_cons_self ..) with hx | hx | hx
      · exact absurd hx ht
      · exact absurd (.inr hx) ht'
      · exact absurd (.inl hx) ht'

/-! ### What the property asks for -/

/- What is served, as far as the bytes of the message go. -/
def Holds (opt : Rdopt) (m : Mesg) (x : Mesg) (sp : Bool) : Prop :=
  ∀ cs r, readCalls opt ⟨[m,x],sp⟩ cs = some r → m.want opt <+: r.2 ∨ ∃ m' s l', r.1.msgs = m' :: l' ∧ [x] = s ++ l' ∧
    (∀ y ∈ s, y.dbType = M_SIG) ∧ m'.dbType ≠ M_SIG ∧ r.2 ++ m'.want opt = m.want opt

variable {x : Mesg} {sp : Bool}

/- A message of one M_DATA block. -/
structure Simple (x : Mesg) : Prop where
  alone : x.bCont = []
  data : x.dbType = M_DATA
  some : x.blk.data ≠ []

theorem Simple.info (h : Simple x) : x.info.hipri = false := by
  rw [show x.info.hipri = lisHipri x.dbType from rfl,h.data]
  rfl

/- A message of a lower band is put back behind. -/
theorem lisRequeue_behind (hx : Simple x) (ht : m.dbType = M_DATA ∨ m.dbType = M_PROTO)
    (hlt : m.blk.bBand < x.blk.bBand) (sp : Bool) : ((⟨[x],sp⟩ : Rdq).lisRequeue m).msgs = [x,m] := by
  have hne : m.dbType ≠ M_PCPROTO := by rcases ht with ht | ht <;> rw [ht] <;> decide
  have hlo : m.info.hipri = false := by
    rw [show m.info.hipri = lisHipri m.dbType from rfl]
    rcases ht with ht | ht <;> rw [ht] <;> rfl
  have hcleared : m.cleared = m := by
    rw [Mesg.cleared,if_neg]
    exact Bool.eq_false_iff.mp hlo
  have hband : ¬ x.info.bBand ≤ m.info.bBand := not_le.mpr hlt
  have hskip : m.info.bBand < x.info.bBand := hlt
  rw [Rdq.lisRequeue,if_neg hne]
  simp [Rdq.lisPutbq,headSplit,skipBands,hlo,hx.info,hband,hskip,hcleared]

/- A read of no bytes that finds another message in front. -/
theorem behind_stays (hmode : opt.mode ≠ .rmsgd) (hx : Simple x) (ht : m.dbType = M_DATA ∨ m.dbType = M_PROTO)
    (hlt : m.blk.bBand < x.blk.bBand) (hl : hd.msgs = [x,m]) {b : Bool} {g : Got}
    (h : strreadLoop opt (fun _ => false) 0 n hd [] b = some g) : g.hd.msgs = [x,m] ∧ g.bytes = [] := by
  have h0 : ([] : List Uchar).length ≤ 0 := le_rfl
  obtain ⟨hd',bytes',again,hr,hor⟩ := strreadLoop_inv h0 h
  have hsig : m.dbType ≠ M_SIG := by rcases ht with ht | ht <;> rw [ht] <;> decide
  have hne : ¬(x.dbType = M_PCPROTO ∨ x.dbType = M_PROTO) := by rw [hx.data]; decide
  cases hr with
  | empty hl' => exact absurd (hl.symm.trans hl') (List.cons_ne_nil _ _)
  | @data mp k _ r _ hl' ht' hr hput hagain =>
    obtain ⟨rfl,rfl⟩ := List.cons.inj (hl.symm.trans hl')
    have hpos : 0 < x.blk.lisMblksize.toNat := by
      rw [← Mblk.data_length]
      exact List.length_pos_iff.mpr hx.some
    have hread : readBlocks (fun _ => false) 0 0 x.blocks = ⟨[],[x.blk],true,false⟩ := by
      have hdata : x.blk.dbType = M_DATA := hx.data
      simp only [Mesg.blocks,hx.alone,readBlocks,hdata,if_true,hpos,Bool.false_eq_true,if_false,Nat.zero_min,
        List.take_zero,skip_zero]
    have hr : r = ⟨[],[x.blk],true,false⟩ := hr.trans hread
    subst hr
    have hcheck : (⟨[m],hd.strpri⟩ : Rdq).lisCheckMSig = ⟨[m],hd.strpri⟩ := checkMSig_top rfl hsig
    have hself : (⟨x.blk,[]⟩ : Mesg) = x := by rw [← hx.alone]
    rw [if_neg fun hy => hmode hy.2,hcheck] at hput
    have hfront := lisRequeue_front (m := x) ⟨[m],hd.strpri⟩ (.inl hx.data) fun y hy => by
      rw [List.mem_singleton.mp hy]
      have hlo : m.info.hipri = false := by
        rw [show m.info.hipri = lisHipri m.dbType from rfl]
        rcases ht with ht | ht <;> rw [ht] <;> rfl
      rw [rank_ordinary hlo]
      exact (Fin.lt_def.mp hlt).le
    rcases hor with ⟨-,hg,hbytes⟩ | ⟨hy,-⟩
    · refine ⟨?_,hbytes⟩
      rw [hg,hput,Rdq.requeueLeft,hself,hfront]
    · exact absurd (hagain hy).1 (List.cons_ne_nil _ _)
  | @conv mp k sp hl' ht' => exact absurd ((List.cons.inj (hl.symm.trans hl')).1 ▸ ht') hne
  | @drop mp k sp hl' ht' => exact absurd ((List.cons.inj (hl.symm.trans hl')).1 ▸ ht') hne
  | @refuse mp k _ sp hl' ht' => exact absurd ((List.cons.inj (hl.symm.trans hl')).1 ▸ ht') hne
  | @other mp k _ _ hl' ht' => exact absurd ((List.cons.inj (hl.symm.trans hl')).1 ▸ hx.data) ht'

/- A message that is behind another one before all its bytes have come is not served. -/
theorem Holds.not_behind (h : Holds opt m x sp) {cs : List ReadCall} {r : Rdq × List Uchar} {k : Mesg} {w : List Uchar}
    (hr : readCalls opt ⟨[m,x],sp⟩ cs = some r) (hmsgs : r.1.msgs = [x,k]) (hband : k.blk.bBand ≠ x.blk.bBand)
    (hw : m.want opt = r.2 ++ w) (hne : w ≠ []) : False := by
  rcases h cs r hr with ⟨rest,hrest⟩ | ⟨y,s,l',hy,hs,-⟩
  · have hlen := congrArg List.length hrest
    have hpos := List.length_pos_iff.mpr hne
    rw [hw,List.length_append,List.length_append] at hlen
    omega
  · obtain ⟨rfl,rfl⟩ := List.cons.inj (hmsgs.symm.trans hy)
    obtain ⟨-,he⟩ := List.append_inj' (show [] ++ [x] = s ++ [k] from hs) rfl
    exact hband (congrArg (·.blk.bBand) (List.singleton_inj.mp he).symm)

theorem readCalls_one {hd : Rdq} (c : ReadCall) {g : Got} (hg : lisStrread opt c.fault hd c.ulen = some g) :
    readCalls opt hd [c] = some (g.hd,g.bytes) :=
  (readCalls_cons hg rfl).trans (by rw [List.append_nil])

/- One step on, with the rest of the message in front or behind. -/
theorem Holds.step {c : Mblk} {rest : List Mblk} {g : Got} {sp' : Bool} (h : Holds opt m x sp) (call : ReadCall)
    (hx : Simple x) (hg : lisStrread opt call.fault ⟨[m,x],sp⟩ call.ulen = some g)
    (hhd : g.hd = (⟨[x],sp'⟩ : Rdq).requeueLeft (c :: rest)) (hw : m.want opt = g.bytes ++ wanted opt (c :: rest))
    (hne : wanted opt (c :: rest) ≠ []) (ht : c.dbType = M_DATA ∨ c.dbType = M_PROTO) :
    x.blk.bBand ≤ c.bBand ∧ Holds opt ⟨c,rest⟩ x sp' := by
  have hband : x.blk.bBand ≤ c.bBand := by
    by_contra hlt
    refine h.not_behind (k := ⟨c,rest⟩) (readCalls_one call hg) ?_ (ne_of_lt (not_le.mp hlt)) hw hne
    rw [hhd]
    exact lisRequeue_behind (m := ⟨c,rest⟩) hx ht (not_le.mp hlt) sp'
  refine ⟨hband,fun cs r hr => ?_⟩
  have hfront := lisRequeue_front (m := ⟨c,rest⟩) ⟨[x],sp'⟩ ht fun y hy => by
    rw [List.mem_singleton.mp hy,rank_ordinary hx.info]
    exact Fin.le_def.mp hband
  have hhd : g.hd = ⟨[⟨c,rest⟩,x],sp'⟩ := hhd.trans hfront
  have hcons := readCalls_cons hg (hhd.symm ▸ hr)
  have hsplit : m.want opt = g.bytes ++ Mesg.want opt ⟨c,rest⟩ := hw
  rcases h _ _ hcons with hpre | ⟨m',s,l',hy,hs,hsig,hns,hb⟩
  · exact .inl ((List.prefix_append_right_inj g.bytes).mp (hsplit ▸ hpre))
  · refine .inr ⟨m',s,l',hy,hs,hsig,hns,?_⟩
    rw [hsplit,List.append_assoc] at hb
    exact List.append_cancel_left hb

/- A read of the size of a first block that is M_DATA. -/
theorem first_read (hmode : opt.mode ≠ .rmsgd) (hx : Simple x) (hm : m.dbType = M_DATA) {b : Bool} {g : Got}
    (h : strreadLoop opt (fun _ => false) m.blk.data.length n ⟨[m,x],sp⟩ [] b = some g) :
    g.hd = (⟨[x],sp⟩ : Rdq).requeueLeft m.bCont ∧ g.bytes = m.blk.data := by
  have h0 : ([] : List Uchar).length ≤ m.blk.data.length := Nat.zero_le _
  have hsig : x.dbType ≠ M_SIG := by rw [hx.data]; decide
  have hne : ¬(m.dbType = M_PCPROTO ∨ m.dbType = M_PROTO) := by rw [hm]; decide
  obtain ⟨hd',bytes',again,hr,hor⟩ := strreadLoop_inv h0 h
  cases hr with
  | empty hl' => exact absurd hl' (List.cons_ne_nil _ _)
  | @data mp k _ r _ hl' ht' hr hput hagain =>
    obtain ⟨rfl,rfl⟩ := List.cons.inj hl'
    obtain ⟨hbytes,hleft⟩ := readBlocks_first (b := m.blk) hm 0 m.bCont
    have hr : r = readBlocks (fun _ => false) 0 m.blk.data.length (m.blk :: m.bCont) := hr
    rw [← hr] at hbytes hleft
    have hcheck : (⟨[x],sp⟩ : Rdq).lisCheckMSig = ⟨[x],sp⟩ := checkMSig_top rfl hsig
    rw [if_neg fun hy => hmode hy.2,hcheck,hleft] at hput
    rcases hor with ⟨-,hg,hb⟩ | ⟨hy,-⟩
    · exact ⟨hg.trans hput,hb.trans hbytes⟩
    · refine absurd ?_ (hagain hy).2
      rw [hbytes]
      rfl
  | @conv mp k sp hl' ht' => exact absurd ((List.cons.inj hl').1 ▸ ht') hne
  | @drop mp k sp hl' ht' => exact absurd ((List.cons.inj hl').1 ▸ ht') hne
  | @refuse mp k _ sp hl' ht' => exact absurd ((List.cons.inj hl').1 ▸ ht') hne
  | @other mp k _ _ hl' ht' => exact absurd ((List.cons.inj hl').1 ▸ hm) ht'

/- The first round with a control block in front. -/
theorem control_round (hn : opt.rprotnorm = false) (ho : opt.rprotdat = true ∨ opt.rprotdis = true) (hx : Simple x)
    (hm : m.dbType = M_PCPROTO ∨ m.dbType = M_PROTO) (b : Bool) :
    strreadLoop opt fault ulen (n + 1) ⟨[m,x],sp⟩ bytes b = strreadLoop opt fault ulen n
      (if opt.rprotdat then (⟨[x],if m.dbType = M_PCPROTO then false else sp⟩ : Rdq).lisRequeue m.asData
        else (⟨[x],if m.dbType = M_PCPROTO then false else sp⟩ : Rdq).requeueLeft m.bCont) bytes true := by
  have hsig : x.dbType ≠ M_SIG := by rw [hx.data]; decide
  have hcheck : (⟨[x],sp⟩ : Rdq).lisCheckMSig = ⟨[x],sp⟩ := checkMSig_top rfl hsig
  have hpri : (if m.dbType = M_PCPROTO then { (⟨[x],sp⟩ : Rdq) with strpri := false } else (⟨[x],sp⟩ : Rdq)) =
      ⟨[x],if m.dbType = M_PCPROTO then false else sp⟩ := by
    split_ifs <;> rfl
  rw [strreadLoop]
  simp only [hcheck,if_neg (ctl_ne_data hm),if_pos hm,hpri,hn,Bool.false_eq_true,if_false,Mesg.asData]
  cases hd : opt.rprotdat with
  | true => rfl
  | false =>
    have hdis : opt.rprotdis = true := ho.resolve_left fun h => Bool.noConfusion (hd.symm.trans h)
    simp only [hdis,Bool.false_eq_true,if_false,if_true]

theorem wanted_data {b : Mblk} (hb : opt.rprotdat = true ∨ b.dbType = M_DATA) (bs : List Mblk) :
    wanted opt (b :: bs) = b.data ++ wanted opt bs := by
  rw [wanted,wanted]
  split_ifs with hd
  · rfl
  · rw [dataBytes_cons,if_pos (hb.resolve_left hd)]

/- A M_PCPROTO that becomes M_DATA must not be overtaken. -/
theorem Holds.first_band (h : Holds opt m x sp) (hmode : opt.mode ≠ .rmsgd) (hn : opt.rprotnorm = false)
    (hdat : opt.rprotdat = true) (hx : Simple x) (hm : m.dbType = M_PCPROTO ∨ m.dbType = M_PROTO)
    (hw : m.want opt ≠ []) : x.blk.bBand ≤ m.blk.bBand := by
  by_contra hlt
  obtain ⟨g,hg⟩ := lisStrread_total opt (fun _ => false) ⟨[m,x],sp⟩ 0
  have hloop := (control_round hn (.inl hdat) hx hm false).symm.trans hg
  rw [hdat,if_pos rfl] at hloop
  obtain ⟨hmsgs,hbytes⟩ := behind_stays (m := m.asData) hmode hx (.inl rfl) (not_le.mp hlt)
    (lisRequeue_behind (m := m.asData) hx (.inl rfl) (not_le.mp hlt) _) hloop
  refine h.not_behind (w := m.want opt) (readCalls_one ⟨fun _ => false,0⟩ hg) hmsgs (ne_of_lt (not_le.mp hlt)) ?_ hw
  rw [hbytes]
  rfl

/- What holds of a message holds of what is behind its first block, which must not be overtaken either. -/
theorem Holds.next {c : Mblk} {rest : List Mblk} (h : Holds opt m x sp) (hmode : opt.mode ≠ .rmsgd)
    (hn : opt.rprotnorm = false) (ho : opt.rprotdat = true ∨ opt.rprotdis = true) (hx : Simple x)
    (htypes : ∀ b ∈ m.blocks, b.dbType = M_DATA ∨ b.dbType = M_PROTO ∨ b.dbType = M_PCPROTO)
    (hlow : ∀ b ∈ m.bCont, b.dbType ≠ M_PCPROTO) (hc : m.bCont = c :: rest) (hw : wanted opt (c :: rest) ≠ []) :
    x.blk.bBand ≤ c.bBand ∧ ∃ sp', Holds opt ⟨c,rest⟩ x sp' := by
  have hcm : c ∈ m.bCont := hc ▸ List.mem_cons_self ..
  have ht : c.dbType = M_DATA ∨ c.dbType = M_PROTO := by
    rcases htypes c (List.mem_cons_of_mem _ hcm) with ht | ht | ht
    · exact .inl ht
    · exact .inr ht
    · exact absurd ht (hlow c hcm)
  obtain ⟨g,hg⟩ := lisStrread_total opt (fun _ => false) ⟨[m,x],sp⟩ m.blk.data.length
  by_cases hm : m.dbType = M_DATA
  · obtain ⟨hhd,hbytes⟩ := first_read hmode hx hm hg
    obtain ⟨hband,hnext⟩ := h.step ⟨fun _ => false,m.blk.data.length⟩ hx hg (hhd.trans (by rw [hc]))
      (by rw [hbytes,Mesg.want,Mesg.blocks,hc,wanted_data (.inr hm)]) hw ht
    exact ⟨hband,_,hnext⟩
  have hctl : m.dbType = M_PCPROTO ∨ m.dbType = M_PROTO :=
    ((htypes m.blk (List.mem_cons_self ..)).resolve_left hm).symm
  by_cases hdat : opt.rprotdat = true
  · have hwant : m.want opt = m.blk.data ++ wanted opt (c :: rest) := by
      rw [Mesg.want,Mesg.blocks,hc,wanted_data (.inl hdat)]
    have hne : m.want opt ≠ [] := by
      rw [hwant]
      exact fun hnil => hw (List.append_eq_nil_iff.mp hnil).2
    have hfirst := h.first_band hmode hn hdat hx hctl hne
    have hloop := (control_round hn ho hx hctl false).symm.trans hg
    rw [hdat,if_pos rfl,lisRequeue_front (m := m.asData) _ (.inl rfl) fun y hy => by
      rw [List.mem_singleton.mp hy,rank_ordinary hx.info]
      exact Fin.le_def.mp hfirst] at hloop
    obtain ⟨b,hloop⟩ : ∃ b, strreadLoop opt (fun _ => false) m.asData.blk.data.length _ ⟨[m.asData,x],_⟩ [] b =
        some g := ⟨true,hloop⟩
    obtain ⟨hhd,hbytes⟩ := first_read hmode hx rfl hloop
    obtain ⟨hband,hnext⟩ := h.step ⟨fun _ => false,m.blk.data.length⟩ hx hg (hhd.trans (by rw [← hc]; rfl))
      (hwant.trans (by rw [hbytes]; rfl)) hw ht
    exact ⟨hband,_,hnext⟩
  · have hsame : m.want opt = wanted opt (c :: rest) := by
      rw [← hc]
      exact wanted_ctl (eq_false_of_ne_true hdat) hm _
    have hround {fault : ℕ → Bool} {u n : ℕ} : strreadLoop opt fault u (n + 1) ⟨[m,x],sp⟩ [] false =
        strreadLoop opt fault u n
          ((⟨[x],if m.dbType = M_PCPROTO then false else sp⟩ : Rdq).lisRequeue ⟨c,rest⟩) [] true := by
      rw [control_round hn ho hx hctl,if_neg hdat,hc]
      rfl
    have hband : x.blk.bBand ≤ c.bBand := by
      by_contra hlt
      obtain ⟨g,hg⟩ := lisStrread_total opt (fun _ => false) ⟨[m,x],sp⟩ 0
      obtain ⟨hmsgs,hbytes⟩ := behind_stays (m := ⟨c,rest⟩) hmode hx ht (not_le.mp hlt)
        (lisRequeue_behind (m := ⟨c,rest⟩) hx ht (not_le.mp hlt) _) (hround.symm.trans hg)
      refine h.not_behind (w := m.want opt) (readCalls_one ⟨fun _ => false,0⟩ hg) hmsgs (ne_of_lt (not_le.mp hlt)) ?_
        (hsame ▸ hw)
      rw [hbytes]
      rfl
    have hfront (sp' : Bool) : (⟨[x],sp'⟩ : Rdq).lisRequeue ⟨c,rest⟩ = ⟨[⟨c,rest⟩,x],sp'⟩ :=
      lisRequeue_front (m := ⟨c,rest⟩) _ ht fun y hy => by
        rw [List.mem_singleton.mp hy,rank_ordinary hx.info]
        exact Fin.le_def.mp hband
    refine ⟨hband,if m.dbType = M_PCPROTO then false else sp,fun cs r hr => ?_⟩
    cases cs with
    | nil =>
      obtain rfl := Option.some.inj hr
      refine .inr ⟨⟨c,rest⟩,[],[x],rfl,rfl,fun y hy => absurd hy List.not_mem_nil,?_,rfl⟩
      rcases ht with ht | ht
      · exact fun hs => absurd (ht.symm.trans hs) (by decide)
      · exact fun hs => absurd (ht.symm.trans hs) (by decide)
    | cons call cs =>
      -- the same call takes the control block on its way
      obtain ⟨g0,hg0⟩ := lisStrread_total opt call.fault
        ⟨[⟨c,rest⟩,x],if m.dbType = M_PCPROTO then false else sp⟩ call.ulen
      obtain ⟨r0,hr0,-⟩ := readCalls_conserves opt g0.hd cs
      obtain rfl := Option.some.inj ((readCalls_cons hg0 hr0).symm.trans hr)
      have hfuel : rounds [⟨c,rest⟩,x] ≤ 2 * m.blocks.length + 2 * x.blocks.length := by
        simp only [rounds,Mesg.blocks,hc,List.map_cons,List.map_nil,List.sum_cons,List.sum_nil,List.length_cons]
        omega
      obtain ⟨ret,hret⟩ := strreadLoop_mono (Nat.zero_le _) hg0 hfuel true
      have hread : lisStrread opt call.fault ⟨[m,x],sp⟩ call.ulen = some ⟨g0.hd,g0.bytes,ret⟩ := by
        rw [lisStrread,rounds,hround,hfront]
        simpa using hret
      have hall := h _ _ (readCalls_cons hread hr0)
      rwa [hsame] at hall

theorem wanted_append (opt : Rdopt) (k bs : List Mblk) : wanted opt (k ++ bs) = wanted opt k ++ wanted opt bs := by
  simp only [wanted,dataBytes,blockBytes,List.filter_append,List.flatMap_append]
  split_ifs <;> rfl

theorem Holds.bands (hmode : opt.mode ≠ .rmsgd) (hn : opt.rprotnorm = false)
    (ho : opt.rprotdat = true ∨ opt.rprotdis = true) (hx : Simple x) {bs : List Mblk} (hbs : m.bCont = bs)
    (h : Holds opt m x sp) (htypes : ∀ b ∈ m.blocks, b.dbType = M_DATA ∨ b.dbType = M_PROTO ∨ b.dbType = M_PCPROTO)
    (hlow : ∀ b ∈ m.bCont, b.dbType ≠ M_PCPROTO) {c : Mblk} {rest : List Mblk} (hs : c :: rest <:+ bs)
    (hw : wanted opt (c :: rest) ≠ []) : x.blk.bBand ≤ c.bBand := by
  induction bs generalizing m sp with
  | nil => exact absurd (List.suffix_nil.mp hs) (List.cons_ne_nil _ _)
  | cons c0 rest0 ih =>
    have hw0 : wanted opt (c0 :: rest0) ≠ [] := by
      obtain ⟨k,hk⟩ := hs
      rw [← hk,wanted_append]
      exact fun hnil => hw (List.append_eq_nil_iff.mp hnil).2
    obtain ⟨hband,sp',hnext⟩ := h.next hmode hn ho hx htypes hlow hbs hw0
    rcases List.suffix_cons_iff.mp hs with he | hs
    · rw [(List.cons.inj he).1]
      exact hband
    · refine ih (m := ⟨c0,rest0⟩) rfl hnext (fun b hb => htypes b (List.mem_cons_of_mem _ (hbs.symm ▸ hb)))
        (fun b hb => hlow b (hbs.symm ▸ List.mem_cons_of_mem _ hb)) hs

/- A read with room for everything drops what is not M_DATA behind the first block. -/
theorem data_taken (hl : hd.msgs = [m]) (hm : m.dbType = M_DATA) (hu : (blockBytes m.blocks).length < ulen) {b : Bool}
    {g : Got} (h : strreadLoop opt (fun _ => false) ulen n hd [] b = some g) :
    g.hd.msgs = [] ∧ g.bytes = dataBytes m.blocks := by
  have h0 : ([] : List Uchar).length ≤ ulen := Nat.zero_le _
  have hne : ¬(m.dbType = M_PCPROTO ∨ m.dbType = M_PROTO) := by rw [hm]; decide
  obtain ⟨hd',bytes',again,hr,hor⟩ := strreadLoop_inv h0 h
  have hlen := hr.length_le h0
  cases hr with
  | empty hl' => exact absurd (hl.symm.trans hl') (List.cons_ne_nil _ _)
  | @data mp k _ r _ hl' ht' hr hput hagain =>
    obtain ⟨rfl,rfl⟩ := List.cons.inj (hl.symm.trans hl')
    obtain ⟨hbytes,hleft⟩ := readBlocks_all hu 0
    have hr : r = readBlocks (fun _ => false) 0 ulen m.blocks := hr
    rw [← hr] at hbytes hleft
    rw [hleft,check_alone,Rdq.requeueLeft,ite_self] at hput
    rcases hor with ⟨-,hg,hb⟩ | ⟨-,k,b',hloop⟩
    · exact ⟨by rw [hg,hput],hb.trans hbytes⟩
    · obtain ⟨hd'',bytes'',again',hr',hor'⟩ := strreadLoop_inv hlen hloop
      have hnil : hd'.msgs = [] := by rw [hput]
      cases hr' with
      | empty _ =>
        rcases hor' with ⟨-,hg,hb⟩ | ⟨hy,-⟩
        · exact ⟨by rw [hg,hnil],hb.trans hbytes⟩
        · exact Bool.noConfusion hy
      | data hl'' => exact absurd (hnil.symm.trans hl'') (List.cons_ne_nil _ _).symm
      | conv _ hl'' => exact absurd (hnil.symm.trans hl'') (List.cons_ne_nil _ _).symm
      | drop _ hl'' => exact absurd (hnil.symm.trans hl'') (List.cons_ne_nil _ _).symm
      | refuse _ hl'' => exact absurd (hnil.symm.trans hl'') (List.cons_ne_nil _ _).symm
      | other hl'' => exact absurd (hnil.symm.trans hl'') (List.cons_ne_nil _ _).symm
  | @conv mp k sp hl' ht' => exact absurd ((List.cons.inj (hl.symm.trans hl')).1 ▸ ht') hne
  | @drop mp k sp hl' ht' => exact absurd ((List.cons.inj (hl.symm.trans hl')).1 ▸ ht') hne
  | @refuse mp k _ sp hl' ht' => exact absurd ((List.cons.inj (hl.symm.trans hl')).1 ▸ ht') hne
  | @other mp k _ _ hl' ht' => exact absurd ((List.cons.inj (hl.symm.trans hl')).1 ▸ hm) ht'

theorem control_taken (hn : opt.rprotnorm = false) (hdat : opt.rprotdat = true)
    (hm : m.dbType = M_PCPROTO ∨ m.dbType = M_PROTO) (hu : (blockBytes m.blocks).length < ulen) {g : Got}
    (h : lisStrread opt (fun _ => false) ⟨[m],sp⟩ ulen = some g) :
    g.hd.msgs = [] ∧ g.bytes = dataBytes m.asData.blocks := by
  have h0 : ([] : List Uchar).length ≤ ulen := Nat.zero_le _
  have hnd := ctl_ne_data hm
  obtain ⟨hd',bytes',again,hr,hor⟩ := strreadLoop_inv h0 h
  cases hr with
  | empty hl' => exact absurd hl' (List.cons_ne_nil _ _)
  | @data mp k _ r _ hl' ht' => exact absurd ((List.cons.inj hl').1 ▸ ht') hnd
  | @conv mp k sp' hl' ht' =>
    obtain ⟨rfl,rfl⟩ := List.cons.inj hl'
    rcases hor with ⟨hy,-⟩ | ⟨-,k,b',hloop⟩
    · exact Bool.noConfusion hy
    · exact data_taken (m := m.asData) (lisRequeue_alone rfl) rfl hu hloop
  | @drop mp k sp' hl' ht' _ hd => exact Bool.noConfusion (hdat.symm.trans hd)
  | @refuse mp k _ sp' hl' ht' hn' =>
    rcases hn' with hx | hx
    · exact Bool.noConfusion (hn.symm.trans hx)
    · exact Bool.noConfusion (hdat.symm.trans hx.1)
  | @other mp k _ _ hl' _ ht' => exact absurd ((List.cons.inj hl').1 ▸ hm) ht'

theorem dataBytes_lt {bs : List Mblk} {b : Mblk} (hb : b ∈ bs) (ht : b.dbType ≠ M_DATA) (hne : b.data ≠ []) :
    (dataBytes bs).length < (blockBytes bs).length := by
  have hle (c : Mblk) : (if c.dbType = M_DATA then c.data else []).length ≤ c.data.length := by
    split_ifs
    · exact le_rfl
    · exact Nat.zero_le _
  have hall (bs : List Mblk) : (dataBytes bs).length ≤ (blockBytes bs).length := by
    induction bs with
    | nil => exact le_rfl
    | cons c bs ih =>
      rw [dataBytes_cons,blockBytes_cons,List.length_append,List.length_append]
      exact Nat.add_le_add (hle c) ih
  induction bs with
  | nil => cases hb
  | cons c bs ih =>
    rw [dataBytes_cons,blockBytes_cons,List.length_append,List.length_append]
    rcases List.mem_cons.mp hb with rfl | hb
    · rw [if_neg ht]
      exact Nat.add_lt_add_of_lt_of_le (List.length_pos_iff.mpr hne) (hall bs)
    · exact Nat.add_lt_add_of_le_of_lt (hle c) (ih hb)

end Lost

/-! ### The two modes -/

theorem Mesg.top_le (mp : Mesg) : (mp.top : ℕ) ≤ mp.info.rank := by
  rw [Mesg.top]
  split_ifs with hh
  · rw [rank_hipri hh]
    decide
  · exact (rank_ordinary (eq_false_of_ne_true hh)).ge

/- A protocol message is served, whatever is behind it and however it is read, if and only if the mode keeps it. -/
theorem served_iff {opt : Rdopt} {mp : Mesg} (hn : opt.rprotnorm = false)
    (ho : opt.rprotdat = true ∨ opt.rprotdis = true) (h : mp.Protocol) :
    (∀ l, Behind mp l → ∀ sp cs, ∃ r, readCalls opt ⟨mp :: l,sp⟩ cs = some r ∧ Served opt mp l r) ↔ Kept opt mp := by
  refine ⟨fun hs => ?_,fun hk l hl sp cs => hk.served hn ho h hl sp cs⟩
  by_cases hw : mp.want opt = []
  · exact .inl hw
  -- with nothing behind it, the bytes must not be fewer when the message is gone
  have hgone {c : ReadCall} {g : Got} (hg : lisStrread opt c.fault ⟨[mp],false⟩ c.ulen = some g)
      (hmsgs : g.hd.msgs = []) : (mp.want opt).length ≤ g.bytes.length := by
    obtain ⟨r,hr,hserved⟩ := hs [] ⟨List.pairwise_singleton _ _,fun x hx => absurd hx List.not_mem_nil⟩ false [c]
    obtain rfl := Option.some.inj ((readCalls_one c hg).symm.trans hr)
    rcases hserved with ⟨rest,hrest,-⟩ | ⟨m',s,l',hm',-⟩
    · rw [show g.bytes = _ from hrest,List.length_append]
      exact Nat.le_add_right _ _
    · exact absurd (hmsgs.symm.trans hm') (List.cons_ne_nil _ _).symm
  have hmode : opt.mode ≠ .rmsgd := by
    intro hmode
    obtain ⟨g,hg⟩ := lisStrread_total opt (fun _ => false) ⟨[mp],false⟩ 0
    obtain ⟨hmsgs,hbytes⟩ := rmsgd_takes hmode hn ho (.inr ⟨mp,rfl,h.types.1⟩) hg
    have hlen := hgone (c := ⟨fun _ => false,0⟩) hg hmsgs
    rw [hbytes] at hlen
    exact hw (List.eq_nil_of_length_eq_zero (Nat.le_zero.mp hlen))
  refine .inr ⟨hmode,fun hdat b hb ht => ?_,?_⟩
  · by_contra hne
    have hm : mp.dbType = M_PCPROTO ∨ mp.dbType = M_PROTO := by
      rcases h.types.1 mp.blk (List.mem_cons_self ..) with hd | hd | hd
      · exact absurd (h.data_behind List.suffix_rfl hd b hb) ht
      · exact .inr hd
      · exact .inl hd
    obtain ⟨g,hg⟩ := lisStrread_total opt (fun _ => false) ⟨[mp],false⟩ ((blockBytes mp.blocks).length + 1)
    obtain ⟨hmsgs,hbytes⟩ := control_taken hn hdat hm (Nat.lt_succ_self _) hg
    have hlen := hgone (c := ⟨fun _ => false,_⟩) hg hmsgs
    have hlt := @dataBytes_lt mp.asData.blocks b (List.mem_cons_of_mem _ hb) ht hne
    rw [hbytes,← want_asData hdat,Mesg.want,wanted,if_pos hdat] at hlen
    exact absurd hlen (not_le.mpr hlt)
  · have hx : Simple ⟨dataBlk mp.top [7],[]⟩ := ⟨rfl,rfl,List.cons_ne_nil _ _⟩
    have hbehind : Behind mp [⟨dataBlk mp.top [7],[]⟩] := by
      refine ⟨List.pairwise_pair.mpr ?_,fun y hy => List.mem_singleton.mp hy ▸ hx.info⟩
      rw [rank_ordinary hx.info]
      exact mp.top_le
    have hholds : Holds opt mp ⟨dataBlk mp.top [7],[]⟩ false := by
      intro cs r hr
      obtain ⟨r',hr',hserved⟩ := hs _ hbehind false cs
      obtain rfl := Option.some.inj (hr.symm.trans hr')
      exact hserved.imp_left (Exists.imp fun _ hrest => hrest.1.symm)
    intro c rest hs' hw'
    have hcont (hs : c :: rest <:+ mp.bCont) : mp.top ≤ c.bBand :=
      hholds.bands hmode hn ho hx rfl h.types.1 h.types.2 hs hw'
    rw [Mesg.backs] at hs'
    split_ifs at hs' with hdat
    · rcases List.suffix_cons_iff.mp hs' with he | hs'
      · rw [(List.cons.inj he).1]
        by_cases hm : mp.dbType = M_PCPROTO ∨ mp.dbType = M_PROTO
        · exact hholds.first_band hmode hn hdat hx hm hw
        · have hd : mp.dbType = M_DATA :=
            (h.types.1 mp.blk (List.mem_cons_self ..)).resolve_right fun hc => hm hc.symm
          rw [Mesg.top,show mp.info.hipri = false from congrArg lisHipri hd]
          exact le_rfl
      · exact hcont hs'
    · exact hcont hs'

/- Bytes as they are, and one block after the other. -/
def optProtdat : Rdopt := ⟨.rmsgn,false,true,false⟩

def ctlBlk (band : Uchar) (bytes : List Uchar) : Mblk := { dataBlk band bytes with dbType := M_PROTO }

/- One control block and a data block of the same band. -/
def twoParts : Mesg := ⟨ctlBlk 1 [5],[dataBlk 1 [6]]⟩

theorem served_iff_twoParts :
    (∀ l, Behind twoParts l → ∀ sp cs, ∃ r, readCalls optProtdat ⟨twoParts :: l,sp⟩ cs = some r ∧
      Served optProtdat twoParts l r) ↔ Kept optProtdat twoParts :=
  served_iff rfl (.inl rfl) ⟨[ctlBlk 1 [5]],[dataBlk 1 [6]],rfl,.inl (by decide),by decide⟩

/- The bytes of the second control block are dropped. -/
theorem second_block_lost : ¬ ∀ (opt : Rdopt) (mp : Mesg) (l : List Mesg) (sp : Bool) (cs : List ReadCall),
    opt.mode ≠ .rmsgd → opt.rprotnorm = false → opt.rprotdat = true → mp.Protocol → Behind mp l →
    ∃ r, readCalls opt ⟨mp :: l,sp⟩ cs = some r ∧ Served opt mp l r := by
  intro h
  obtain ⟨r,hr,hs⟩ := h optProtdat ⟨ctlBlk 0 [5],[ctlBlk 0 [6]]⟩ [] false [⟨fun _ => false,4⟩] (by decide) rfl rfl
    ⟨[ctlBlk 0 [5],ctlBlk 0 [6]],[],rfl,.inl (by decide),by decide⟩
    ⟨List.pairwise_singleton _ _,fun x hx => absurd hx List.not_mem_nil⟩
  have hcall : readCalls optProtdat ⟨[⟨ctlBlk 0 [5],[ctlBlk 0 [6]]⟩],false⟩ [⟨fun _ => false,4⟩] =
      some (⟨[],false⟩,[5]) := by
    simp only [readCalls]
    decide
  obtain rfl := Option.some.inj (hcall.symm.trans hr)
  rcases hs with ⟨rest,hrest,-⟩ | ⟨m',s,l',hm',-⟩
  · have hlen := congrArg List.length hrest
    have hwant : (Mesg.want optProtdat ⟨ctlBlk 0 [5],[ctlBlk 0 [6]]⟩).length = 2 := by decide
    rw [List.length_append,hwant] at hlen
    have hone : 1 = 2 + rest.length := hlen
    omega
  · exact absurd hm' (List.cons_ne_nil _ _).symm

end CSLiS.Head
