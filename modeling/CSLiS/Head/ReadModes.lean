import CSLiS.Head.ReadRounds

/-!
# Reading protocol messages as data, and discarding them (head/head.c, sys/stropts.h)

With RPROTDAT `lis_strread` makes the first block of a protocol message M_DATA, with RPROTDIS it frees it, and both
times it puts the rest back and takes the first message of the queue again.
-/

namespace CSLiS.Head
open Queue

/- M_PROTO blocks or one M_PCPROTO block, and then M_DATA blocks. -/
def Mesg.Protocol (mp : Mesg) : Prop :=
  ∃ ctl dat, mp.blocks = ctl ++ dat ∧
    ((∀ b ∈ ctl, b.dbType = M_PROTO) ∨ ∃ b, ctl = [b] ∧ b.dbType = M_PCPROTO) ∧ ∀ b ∈ dat, b.dbType = M_DATA

/- Messages that can be behind it: STRPRI keeps a second one of high priority away. -/
def Behind (mp : Mesg) (l : List Mesg) : Prop := Ordered Mesg.info (mp :: l) ∧ ∀ x ∈ l, x.info.hipri = false

/- Either all its bytes have come, before all others and never to come again, or those that have come are the first and
it is still in front with the others. A M_SIG behind it is gone once it is seen. -/
def Served (opt : Rdopt) (mp : Mesg) (l : List Mesg) (r : Rdq × List Uchar) : Prop :=
  (∃ rest, r.2 = mp.want opt ++ rest ∧ (rest ++ wantedAll opt r.1.msgs).Subperm (wantedAll opt l)) ∨
    ∃ mp' s l', r.1.msgs = mp' :: l' ∧ l = s ++ l' ∧ (∀ x ∈ s, x.dbType = M_SIG) ∧ mp'.dbType ≠ M_SIG ∧
      r.2 ++ mp'.want opt = mp.want opt

/- The highest band that a message behind it can have. -/
def Mesg.top (mp : Mesg) : Uchar := if mp.info.hipri then 255 else mp.blk.bBand

/- The blocks that can come to be the first of the rest that is put back. -/
def Mesg.backs (opt : Rdopt) (mp : Mesg) : List Mblk := if opt.rprotdat then mp.blocks else mp.bCont

/- No byte is discarded by the mode, by RMSGD or with a block that is not M_DATA, and what is put back goes in front. -/
def Kept (opt : Rdopt) (mp : Mesg) : Prop :=
  mp.want opt = [] ∨
    (opt.mode ≠ .rmsgd ∧ (opt.rprotdat = true → ∀ b ∈ mp.bCont, b.dbType ≠ M_DATA → b.data = []) ∧
      ∀ c rest, c :: rest <:+ mp.backs opt → wanted opt (c :: rest) ≠ [] → mp.top ≤ c.bBand)

/-! ### A message that stays in front -/

section Front
variable {opt : Rdopt} {fault : ℕ → Bool} {ulen n : ℕ} {top : Uchar} {m : Mesg} {l : List Mesg} {hd hd' : Rdq} {bytes bytes' : List Uchar} {again : Bool}

/- What `Kept` says of a message, for every rest of it. -/
structure Good (opt : Rdopt) (top : Uchar) (m : Mesg) : Prop where
  types : ∀ b ∈ m.blocks, b.dbType = M_DATA ∨ b.dbType = M_PROTO ∨ b.dbType = M_PCPROTO
  low : ∀ b ∈ m.bCont, b.dbType ≠ M_PCPROTO
  plain : ∀ c rest, c :: rest <:+ m.blocks → opt.rprotdat = true ∨ c.dbType = M_DATA →
    ∀ b ∈ rest, b.dbType ≠ M_DATA → b.data = []
  first : opt.rprotdat = true ∨ m.dbType = M_DATA → m.want opt ≠ [] → top ≤ m.blk.bBand
  band : ∀ c rest, c :: rest <:+ m.bCont → wanted opt (c :: rest) ≠ [] → top ≤ c.bBand

theorem Good.rest {c : Mblk} {rest : List Mblk} (h : Good opt top m) (hs : c :: rest <:+ m.bCont) :
    Good opt top ⟨c,rest⟩ where
  types b hb := h.types b (List.mem_cons_of_mem _ (hs.subset hb))
  low b hb := h.low b (hs.subset (List.mem_cons_of_mem _ hb))
  plain d k hd := h.plain d k (hd.trans (hs.trans (List.suffix_cons ..)))
  first _ := h.band c rest hs
  band d k hd := h.band d k (hd.trans ((List.suffix_cons ..).trans hs))

/- A change of the first block that keeps its band, its type if that is M_DATA, and adds no bytes. -/
theorem Good.change {c : Mblk} (h : Good opt top m) (ht : c.dbType = M_DATA)
    (hm : opt.rprotdat = true ∨ m.dbType = M_DATA) (hband : c.bBand = m.blk.bBand)
    (hdata : m.blk.data = [] → c.data = []) : Good opt top ⟨c,m.bCont⟩ where
  types b hb := by
    rcases List.mem_cons.mp hb with rfl | hb
    · exact .inl ht
    · exact h.types b (List.mem_cons_of_mem _ hb)
  low := h.low
  plain d k hd hd' := by
    rcases List.suffix_cons_iff.mp hd with he | hs
    · obtain ⟨-,rfl⟩ := List.cons.inj he
      exact h.plain m.blk _ List.suffix_rfl hm
    · exact h.plain d k (hs.trans (List.suffix_cons ..)) hd'
  first _ hw := by
    rw [hband]
    refine h.first hm fun hn => hw ?_
    have hsplit (x : Mblk) (hx : opt.rprotdat = true ∨ x.dbType = M_DATA) :
        wanted opt (x :: m.bCont) = x.data ++ wanted opt m.bCont := by
      rw [wanted,wanted]
      split_ifs with hd
      · rfl
      · rw [dataBytes_cons,if_pos (hx.resolve_left hd)]
    rw [Mesg.want,Mesg.blocks,hsplit _ hm,List.append_eq_nil_iff] at hn
    rw [Mesg.want,Mesg.blocks,hsplit _ (.inr ht),hn.2,hdata hn.1]
    rfl
  band := h.band

theorem Good.asData (h : Good opt top m) (hdat : opt.rprotdat = true) : Good opt top m.asData :=
  h.change rfl (.inl hdat) rfl id

/- What the loop over the blocks leaves. -/
theorem Good.left {b : Mblk} {rest : List Mblk} {k : ℕ} (h : Good opt top m) (hs : b :: rest <:+ m.blocks)
    (hk : k = 0 ∨ b.dbType = M_DATA) : Good opt top ⟨b.skip k,rest⟩ := by
  have hb : Good opt top ⟨b,rest⟩ := by
    rcases List.suffix_cons_iff.mp hs with he | hs
    · obtain ⟨rfl,rfl⟩ := List.cons.inj he
      exact h
    · exact h.rest hs
  rcases hk with rfl | hk
  · exact hb
  · refine hb.change hk (.inr hk) rfl fun hn => ?_
    rw [Mblk.data_skip,show b.data = [] from hn,List.drop_nil]

theorem Good.readable {c : Mblk} {rest : List Mblk} (h : Good opt top m) (hs : c :: rest <:+ m.bCont) :
    c.dbType = M_DATA ∨ c.dbType = M_PROTO := by
  have hm : c ∈ m.bCont := hs.subset (List.mem_cons_self ..)
  rcases h.types c (List.mem_cons_of_mem _ hm) with ht | ht | ht
  · exact .inl ht
  · exact .inr ht
  · exact absurd ht (h.low c hm)

theorem Good.not_sig (h : Good opt top m) : m.dbType ≠ M_SIG := by
  rcases h.types m.blk (List.mem_cons_self ..) with ht | ht | ht
  · exact fun hs => absurd (ht.symm.trans hs) (by decide)
  · exact fun hs => absurd (ht.symm.trans hs) (by decide)
  · exact fun hs => absurd (ht.symm.trans hs) (by decide)

/- Blocks that are not M_DATA and have no bytes do not count. -/
theorem wanted_plain {bs : List Mblk} (opt : Rdopt) (h : ∀ b ∈ bs, b.dbType ≠ M_DATA → b.data = []) :
    wanted opt bs = dataBytes bs := by
  rw [wanted]
  split_ifs
  · induction bs with
    | nil => rfl
    | cons b bs ih =>
      have hb : (if b.dbType = M_DATA then b.data else []) = b.data := by
        split_ifs with ht
        · rfl
        · exact (h b (List.mem_cons_self ..) ht).symm
      rw [blockBytes_cons,dataBytes_cons,hb,ih fun c hc => h c (List.mem_cons_of_mem _ hc)]
  · rfl

theorem check_sigs (l : List Mesg) (sp : Bool) :
    ∃ s, l = s ++ (⟨l,sp⟩ : Rdq).lisCheckMSig.msgs ∧ ∀ x ∈ s, x.dbType = M_SIG := by
  rcases (⟨l,sp⟩ : Rdq).checkMSig_cases with h | ⟨x,k,hl,ht,h⟩
  · exact ⟨[],by rw [h]; rfl,fun x hx => absurd hx List.not_mem_nil⟩
  · refine ⟨[x],by rw [h]; exact hl,fun y hy => List.mem_singleton.mp hy ▸ ht⟩

/- Put back in front of messages of at most its band. -/
theorem lisRequeue_front (hd : Rdq) (ht : m.dbType = M_DATA ∨ m.dbType = M_PROTO)
    (h : ∀ x ∈ hd.msgs, x.info.rank ≤ m.blk.bBand) : hd.lisRequeue m = { hd with msgs := m :: hd.msgs } := by
  have hne : m.dbType ≠ M_PCPROTO := by rcases ht with ht | ht <;> rw [ht] <;> decide
  have hlo : lisHipri m.dbType = false := by rcases ht with ht | ht <;> rw [ht] <;> rfl
  have hcleared : m.cleared = m := by rw [Mesg.cleared,hlo]; rfl
  rw [Rdq.lisRequeue,if_neg hne,Rdq.lisPutbq_top fun x hx => ?_,hcleared,ite_self]
  rw [rank_ordinary (i := m.info) hlo]
  exact h x hx

/- The bytes a loop adds: all that are wanted of the message in front, or its first ones with the rest still there. -/
def Goes (opt : Rdopt) (top : Uchar) (m : Mesg) (l : List Mesg) (bytes : List Uchar) (hd : Rdq) (out : List Uchar) :
    Prop :=
  ∃ new, out = bytes ++ new ∧ (m.want opt <+: new ∨ ∃ m' s l', hd.msgs = m' :: l' ∧ l = s ++ l' ∧
    (∀ x ∈ s, x.dbType = M_SIG) ∧ Good opt top m' ∧ new ++ m'.want opt = m.want opt)

theorem strreadLoop_goes (hmode : opt.mode ≠ .rmsgd) (hn : opt.rprotnorm = false)
    (ho : opt.rprotdat = true ∨ opt.rprotdis = true) (hg : Good opt top m) (hl : hd.msgs = m :: l)
    (hrank : ∀ x ∈ l, x.info.rank ≤ top) (hb : bytes.length ≤ ulen) {b : Bool} {g : Got}
    (h : strreadLoop opt fault ulen n hd bytes b = some g) : Goes opt top m l bytes g.hd g.bytes := by
  induction n generalizing m l hd bytes b with
  | zero => cases h
  | succ n ih =>
    by_cases hw : m.want opt = []
    · obtain ⟨new,hnew,-⟩ := strreadLoop_conserves hb h
      exact ⟨new,hnew,.inl (hw ▸ List.nil_prefix)⟩
    obtain ⟨s0,hs0,hsig0⟩ := check_sigs l hd.strpri
    have hrank0 : ∀ x ∈ (⟨l,hd.strpri⟩ : Rdq).lisCheckMSig.msgs, x.info.rank ≤ top := fun x hx =>
      hrank x (hs0 ▸ List.mem_append_right _ hx)
    -- a message with the same bytes goes on in front of what is behind
    have hbehind {m' : Mesg} (he : m'.want opt = m.want opt)
        (h : Goes opt top m' (⟨l,hd.strpri⟩ : Rdq).lisCheckMSig.msgs bytes g.hd g.bytes) :
        Goes opt top m l bytes g.hd g.bytes := by
      obtain ⟨new,hnew,hor⟩ := h
      rw [he] at hor
      refine ⟨new,hnew,hor.imp_right ?_⟩
      rintro ⟨m',s,l',he,hl,hs,hm'⟩
      refine ⟨m',s0 ++ s,l',he,?_,fun x hx => (List.mem_append.mp hx).elim (hsig0 x) (hs x),hm'⟩
      rw [List.append_assoc,← hl]
      exact hs0
    obtain ⟨hd',bytes',again,hr,hloop⟩ := strreadLoop_round opt fault hd hb
    have hb' := hr.length_le hb
    cases hr with
    | empty hl' => exact absurd (hl'.symm.trans hl) (List.cons_ne_nil _ _).symm
    | @data mp k _ r _ hl' ht hr hput hagain =>
      obtain ⟨rfl,rfl⟩ := List.cons.inj (hl.symm.trans hl')
      have hwalk : Walks (ulen - bytes.length) m.blocks r := hr ▸ readBlocks_walks fault bytes.length _ m.blocks
      have hplain : ∀ b ∈ m.blocks, b.dbType ≠ M_DATA → b.data = [] := fun b hb hne => by
        rcases List.mem_cons.mp hb with rfl | hb
        · exact absurd ht hne
        · exact hg.plain m.blk m.bCont List.suffix_rfl (.inr ht) b hb hne
      have hwant : m.want opt = dataBytes m.blocks := wanted_plain opt hplain
      rw [if_neg fun hx => hmode hx.2] at hput
      -- the bytes that come are all or the others are put back
      have hmore {out : List Uchar} (hout : ∃ more, out = (bytes ++ r.bytes) ++ more) (hall : m.want opt = r.bytes)
          (hd : Rdq) : Goes opt top m l bytes hd out := by
        obtain ⟨more,rfl⟩ := hout
        exact ⟨r.bytes ++ more,List.append_assoc .. ,.inl (hall ▸ List.prefix_append ..)⟩
      rcases hloop n b with ⟨-,ret,hg'⟩ | ⟨rfl,b',hg'⟩
      · obtain rfl := Option.some.inj (hg'.symm.trans h)
        rcases hwalk.left with hleft | ⟨c,rest,j,hs,hleft,hj⟩
        · refine hmore ⟨[],(List.append_nil _).symm⟩ ?_ _
          rw [hwant,← hwalk.bytes,hleft]
          exact (List.append_nil _)
        · have hm' : Good opt top ⟨c.skip j,rest⟩ := hg.left hs hj
          have hplain' : ∀ b ∈ c.skip j :: rest, b.dbType ≠ M_DATA → b.data = [] := fun b hb hne => by
            rcases List.mem_cons.mp hb with rfl | hb
            · rw [Mblk.data_skip,hplain c (hs.subset (List.mem_cons_self ..)) hne,List.drop_nil]
            · exact hplain b (hs.subset (List.mem_cons_of_mem _ hb)) hne
          have hbytes : r.bytes ++ Mesg.want opt ⟨c.skip j,rest⟩ = m.want opt := by
            rw [hwant,← hwalk.bytes,hleft]
            exact congrArg _ (wanted_plain opt hplain')
          by_cases hw' : Mesg.want opt ⟨c.skip j,rest⟩ = []
          · refine hmore ⟨[],(List.append_nil _).symm⟩ ?_ _
            rw [← hbytes,hw',List.append_nil]
          · obtain ⟨htype,hband⟩ : (c.dbType = M_DATA ∨ c.dbType = M_PROTO) ∧ top ≤ c.bBand := by
              by_cases hc : c.dbType = M_DATA
              · exact ⟨.inl hc,hm'.first (.inr hc) hw'⟩
              · obtain rfl : j = 0 := hj.resolve_right hc
                have hs' : c :: rest <:+ m.bCont := (List.suffix_cons_iff.mp hs).resolve_left fun he =>
                  hc ((List.cons.inj he).1 ▸ ht)
                exact ⟨hg.readable hs',hg.band c rest hs' hw'⟩
            refine ⟨r.bytes,rfl,.inr ⟨⟨c.skip j,rest⟩,s0,_,?_,hs0,hsig0,hm',hbytes⟩⟩
            rw [hput,hleft,Rdq.requeueLeft,lisRequeue_front (m := ⟨c.skip j,rest⟩) _ htype
              fun x hx => (hrank0 x hx).trans hband]
      · refine hmore ?_ ?_ _
        · obtain ⟨more,hmore,-⟩ := strreadLoop_conserves hb' (hg'.symm.trans h)
          exact ⟨more,hmore⟩
        · rw [hwant,← hwalk.bytes,(hagain rfl).1]
          exact List.append_nil _
    | @conv mp k sp hl' ht _ hdat =>
      obtain ⟨rfl,rfl⟩ := List.cons.inj (hl.symm.trans hl')
      rcases hloop n b with ⟨hx,-⟩ | ⟨-,b',hg'⟩
      · exact Bool.noConfusion hx
      have hband : top ≤ m.asData.blk.bBand := hg.first (.inl hdat) hw
      have hfront := lisRequeue_front (m := m.asData) { (⟨l,hd.strpri⟩ : Rdq).lisCheckMSig with strpri := sp }
        (.inl rfl) fun x hx => (hrank0 x hx).trans hband
      exact hbehind (want_asData hdat m) (ih (hg.asData hdat) (congrArg Rdq.msgs hfront) hrank0 hb (hg'.symm.trans h))
    | @drop mp k sp hl' ht _ hdat =>
      obtain ⟨rfl,rfl⟩ := List.cons.inj (hl.symm.trans hl')
      rcases hloop n b with ⟨hx,-⟩ | ⟨-,b',hg'⟩
      · exact Bool.noConfusion hx
      have hsame : m.want opt = wanted opt m.bCont := wanted_ctl hdat (ctl_ne_data ht) _
      cases hc : m.bCont with
      | nil =>
        rw [hsame,hc,wanted,hdat] at hw
        exact absurd rfl hw
      | cons c rest =>
        have hs : c :: rest <:+ m.bCont := hc ▸ List.suffix_rfl
        have hband : top ≤ c.bBand := hg.band c rest hs (hc ▸ hsame ▸ hw)
        have hfront := lisRequeue_front (m := ⟨c,rest⟩) { (⟨l,hd.strpri⟩ : Rdq).lisCheckMSig with strpri := sp }
          (hg.readable hs) fun x hx => (hrank0 x hx).trans hband
        rw [hc,Rdq.requeueLeft] at hg'
        exact hbehind (hsame.symm ▸ hc ▸ rfl) (ih (hg.rest hs) (congrArg Rdq.msgs hfront) hrank0 hb (hg'.symm.trans h))
    | @refuse mp k _ sp hl' ht hn' hput =>
      rcases hn' with hx | hx
      · exact Bool.noConfusion (hn.symm.trans hx)
      · exact ho.elim (fun h => Bool.noConfusion (hx.1.symm.trans h)) fun h => Bool.noConfusion (hx.2.symm.trans h)
    | @other mp k _ _ hl' ht ht' hput =>
      obtain ⟨rfl,rfl⟩ := List.cons.inj (hl.symm.trans hl')
      rcases hg.types m.blk (List.mem_cons_self ..) with hx | hx | hx
      · exact absurd hx ht
      · exact absurd (.inr hx) ht'
      · exact absurd (.inl hx) ht'

theorem readCalls_goes (hmode : opt.mode ≠ .rmsgd) (hn : opt.rprotnorm = false)
    (ho : opt.rprotdat = true ∨ opt.rprotdis = true) (hg : Good opt top m) (hl : hd.msgs = m :: l)
    (hrank : ∀ x ∈ l, x.info.rank ≤ top) (cs : List ReadCall) :
    ∃ r, readCalls opt hd cs = some r ∧ (m.want opt <+: r.2 ∨ ∃ m' s l', r.1.msgs = m' :: l' ∧ l = s ++ l' ∧
      (∀ x ∈ s, x.dbType = M_SIG) ∧ m'.dbType ≠ M_SIG ∧ r.2 ++ m'.want opt = m.want opt) := by
  induction cs generalizing m l hd with
  | nil =>
    exact ⟨_,rfl,.inr ⟨m,[],l,hl,rfl,fun x hx => absurd hx List.not_mem_nil,hg.not_sig,rfl⟩⟩
  | cons c cs ih =>
    obtain ⟨g,hread⟩ := lisStrread_total opt c.fault hd c.ulen
    obtain ⟨new,hnew,hor⟩ := strreadLoop_goes hmode hn ho hg hl hrank (Nat.zero_le _) hread
    rw [List.nil_append] at hnew
    rcases hor with hpre | ⟨m',s,l',he,hs,hsig,hg',hw⟩
    · obtain ⟨r,hr,-⟩ := readCalls_conserves opt g.hd cs
      exact ⟨_,readCalls_cons hread hr,.inl (hnew ▸ hpre.trans (List.prefix_append ..))⟩
    · obtain ⟨r,hr,hor⟩ := ih hg' he fun x hx => hrank x (hs ▸ List.mem_append_right _ hx)
      refine ⟨_,readCalls_cons hread hr,?_⟩
      rw [hnew,← hw]
      rcases hor with hpre | ⟨m'',s',l'',he',hs',hsig',hne,hw'⟩
      · exact .inl ((List.prefix_append_right_inj _).mpr hpre)
      · refine .inr ⟨m'',s ++ s',l'',he',?_,fun x hx => (List.mem_append.mp hx).elim (hsig x) (hsig' x),hne,?_⟩
        · rw [hs,hs',List.append_assoc]
        · rw [List.append_assoc,hw']

/- Behind a M_DATA block of a protocol message there are only such. -/
theorem Mesg.Protocol.data_behind {mp : Mesg} (h : mp.Protocol) {c : Mblk} {rest : List Mblk}
    (hs : c :: rest <:+ mp.blocks) (hc : c.dbType = M_DATA) : ∀ b ∈ rest, b.dbType = M_DATA := by
  obtain ⟨ctl,dat,hblocks,hctl,hdat⟩ := h
  replace hctl : ∀ b ∈ ctl, b.dbType ≠ M_DATA := by
    rcases hctl with hctl | ⟨b,rfl,ht⟩
    · exact fun b hb hd => absurd ((hctl b hb).symm.trans hd) (by decide)
    · exact fun x hx hd => absurd (ht.symm.trans (List.mem_singleton.mp hx ▸ hd)) (by decide)
  rw [hblocks] at hs
  clear hblocks
  induction ctl with
  | nil => exact fun b hb => hdat b (hs.subset (List.mem_cons_of_mem _ hb))
  | cons x ctl ih =>
    rcases List.suffix_cons_iff.mp hs with he | hs
    · exact absurd ((List.cons.inj he).1 ▸ hc) (hctl x (List.mem_cons_self ..))
    · exact ih hs fun b hb => hctl b (List.mem_cons_of_mem _ hb)

theorem Mesg.Protocol.types {mp : Mesg} (h : mp.Protocol) :
    (∀ b ∈ mp.blocks, b.dbType = M_DATA ∨ b.dbType = M_PROTO ∨ b.dbType = M_PCPROTO) ∧
      ∀ b ∈ mp.bCont, b.dbType ≠ M_PCPROTO := by
  obtain ⟨ctl,dat,hblocks,hctl,hdat⟩ := h
  have hlow : ∀ b : Mblk, b.dbType = M_DATA ∨ b.dbType = M_PROTO → b.dbType ≠ M_PCPROTO := fun b hb => by
    rcases hb with h | h <;> rw [h] <;> decide
  rcases hctl with hctl | ⟨b,rfl,ht⟩
  · have hall : ∀ b ∈ mp.blocks, b.dbType = M_DATA ∨ b.dbType = M_PROTO := fun b hb =>
      (List.mem_append.mp (hblocks ▸ hb)).elim (fun h => .inr (hctl b h)) fun h => .inl (hdat b h)
    exact ⟨fun b hb => (hall b hb).imp_right .inl,fun b hb => hlow b (hall b (List.mem_cons_of_mem _ hb))⟩
  · obtain ⟨rfl,hcont⟩ := List.cons.inj hblocks
    have hcont : mp.bCont = dat := hcont
    refine ⟨fun b hb => ?_,fun b hb => hlow b (.inl (hdat b (hcont ▸ hb)))⟩
    rcases List.mem_cons.mp hb with rfl | hb
    · exact .inr (.inr ht)
    · exact .inl (hdat b (hcont ▸ hb))

theorem Behind.rank_le {mp : Mesg} (h : Behind mp l) : ∀ x ∈ l, x.info.rank ≤ mp.top := by
  intro x hx
  have hlo := h.2 x hx
  rw [Mesg.top]
  split_ifs with hh
  · rw [rank_ordinary hlo]
    exact Nat.lt_succ_iff.mp x.info.bBand.isLt
  · have hle := (List.pairwise_cons.mp h.1).1 x hx
    rwa [rank_ordinary (i := mp.info) (eq_false_of_ne_true hh)] at hle

theorem Kept.good {mp : Mesg} (h : mp.Protocol) (hw : mp.want opt ≠ []) (hk : Kept opt mp) :
    opt.mode ≠ .rmsgd ∧ Good opt mp.top mp := by
  obtain ⟨hmode,hdat,hband⟩ := hk.resolve_left hw
  have hback : ∀ l, l <:+ mp.bCont → l <:+ mp.backs opt := fun l hl => by
    rw [Mesg.backs]
    split_ifs
    · exact hl.trans (List.suffix_cons ..)
    · exact hl
  refine ⟨hmode,⟨h.types.1,h.types.2,fun c rest hs hc b hb hne => ?_,fun hc _ => ?_,
    fun c rest hs => hband c rest (hback _ hs)⟩⟩
  · by_cases hd : opt.rprotdat = true
    · refine hdat hd b ?_ hne
      rcases List.suffix_cons_iff.mp hs with he | hs
      · exact (List.cons.inj he).2 ▸ hb
      · exact hs.subset (List.mem_cons_of_mem _ hb)
    · exact absurd (h.data_behind hs (hc.resolve_left hd) b hb) hne
  · by_cases hh : mp.info.hipri = true
    · have hd : opt.rprotdat = true := hc.resolve_right fun hd => by
        have hlo : mp.info.hipri = false := by rw [show mp.info.hipri = lisHipri mp.dbType from rfl,hd]; rfl
        exact Bool.noConfusion (hh.symm.trans hlo)
      refine hband mp.blk mp.bCont ?_ hw
      rw [Mesg.backs,hd]
      exact List.suffix_rfl
    · rw [Mesg.top,if_neg hh]

theorem Kept.served {mp : Mesg} (hn : opt.rprotnorm = false) (ho : opt.rprotdat = true ∨ opt.rprotdis = true)
    (h : mp.Protocol) (hk : Kept opt mp) (hl : Behind mp l) (sp : Bool) (cs : List ReadCall) :
    ∃ r, readCalls opt ⟨mp :: l,sp⟩ cs = some r ∧ Served opt mp l r := by
  obtain ⟨r,hr,hsub⟩ := readCalls_conserves opt ⟨mp :: l,sp⟩ cs
  have hfirst (hpre : mp.want opt <+: r.2) : Served opt mp l r := by
    obtain ⟨rest,hrest⟩ := hpre
    refine .inl ⟨rest,hrest.symm,?_⟩
    rw [← hrest,List.append_assoc] at hsub
    exact (List.subperm_append_left _).mp hsub
  by_cases hw : mp.want opt = []
  · exact ⟨r,hr,hfirst (hw ▸ List.nil_prefix)⟩
  · obtain ⟨hmode,hg⟩ := hk.good h hw
    obtain ⟨r',hr',hor⟩ := @readCalls_goes _ _ _ _ ⟨mp :: l,sp⟩ hmode hn ho hg rfl hl.rank_le cs
    obtain rfl := Option.some.inj (hr.symm.trans hr')
    exact ⟨r,hr,hor.elim hfirst .inr⟩

end Front

end CSLiS.Head
