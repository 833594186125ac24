import CSLiS.Queue.Backenable

/-!
# Wishes over a flush (head/queue.c)

`flush_worker` empties the queue and puts the kept messages back. Every band of
which messages are kept takes the first unused band structure and resets it, so
the structures behind those still hold the wishes from before the flush when
all of them are checked at the end.
-/

namespace CSLiS.Queue.Flow
open Lib.Exec

variable {q : ListQueue} {wish : List Uchar} {mp : Msg} {alloc : Msg → Bool} {l m : List Msg}
  {b : Uchar} {base us rest pre post : List (Qband Msg)} {qp : Qband Msg}

theorem bandSet_mem : b ∈ bandSet l ↔ b ≠ 0 ∧ bandMsgs Msg.info b l ≠ [] := by
  simp only [bandSet,List.mem_toFinset,List.mem_map,List.mem_filter,Bool.not_eq_true']
  constructor
  · rintro ⟨x,⟨hx,hq⟩,rfl⟩
    obtain ⟨-,hb,hr⟩ := Info.inQCount_false hq
    exact ⟨hb,List.ne_nil_of_mem (List.mem_filter.mpr ⟨hx,Info.inBand_iff.mpr hr⟩)⟩
  · rintro ⟨hb,hne⟩
    obtain ⟨x,hx⟩ := List.exists_mem_of_ne_nil _ hne
    obtain ⟨hx,hi⟩ := List.mem_filter.mp hx
    simp only [Info.inBand,Bool.and_eq_true,Bool.not_eq_true',beq_iff_eq] at hi
    exact ⟨x,⟨hx,by simp [Info.inQCount,hi,hb]⟩,hi.2⟩

theorem bandSet_middle_out (h : mp.info.inQCount = true) :
    bandSet (l ++ mp :: m) = bandSet (l ++ m) := by
  ext b
  rw [bandSet_mem,bandSet_mem]
  refine and_congr_right fun hb => ?_
  rw [bandMsgs_middle_out (v := Msg.info) (Info.inQCount_true h hb)]

theorem bandSet_middle_in (h : mp.info.inQCount = false) :
    bandSet (l ++ mp :: m) = insert mp.info.bBand (bandSet (l ++ m)) := by
  obtain ⟨-,hb0,hr⟩ := Info.inQCount_false h
  have hin : mp.info.inBand mp.info.bBand = true := Info.inBand_iff.mpr hr
  ext b
  rw [Finset.mem_insert,bandSet_mem,bandSet_mem]
  by_cases hb : b = mp.info.bBand
  · subst hb
    simp [bandMsgs_append,bandMsgs_cons_in (v := Msg.info) hin,hb0]
  · rw [bandMsgs_middle_out (v := Msg.info) (Info.inBand_other hin hb)]
    simp [hb]

theorem bandSet_mono (h : l ⊆ m) : bandSet l ⊆ bandSet m := by
  intro b hb
  rw [bandSet_mem] at hb ⊢
  obtain ⟨x,hx⟩ := List.exists_mem_of_ne_nil _ hb.2
  obtain ⟨hx,hi⟩ := List.mem_filter.mp hx
  exact ⟨hb.1,List.ne_nil_of_mem (List.mem_filter.mpr ⟨h hx,hi⟩)⟩

/-- There are at least as many band structures as bands with messages. -/
theorem bandSet_card_le {c : Core Msg} (h : Tidy Msg.info c l) :
    (bandSet l).card ≤ c.qBandp.length := by
  let bands := c.qBandp.filterMap fun qp => qp.qbFirst.map fun x => x.info.bBand
  have hsub : bandSet l ⊆ bands.toFinset := by
    intro b hb
    rw [bandSet_mem] at hb
    obtain ⟨qp,hq,ho⟩ := h.banded.covered b trivial hb.1 hb.2
    obtain ⟨x,-,hf,hi⟩ := ho.head_mem
    simp only [Info.inBand,Bool.and_eq_true,beq_iff_eq] at hi
    exact List.mem_toFinset.mpr (List.mem_filterMap.mpr ⟨qp,hq,by rw [hf]; exact congrArg some hi.2⟩)
  exact (Finset.card_le_card hsub).trans
    ((List.toFinset_card_le _).trans (List.length_filterMap_le _ _))

/- The chain of structures while messages are put back: the ones taken so far,
then the old ones that are still unused. -/
def Reusing (base chain : List (Qband Msg)) (n : ℕ) : Prop :=
  ∃ us, chain = us ++ base.drop us.length ∧ us.length = n ∧
    ∀ qp ∈ us, qp.qbFirst.isSome = true ∧ qp.qbWantw = false

/- A structure in use stands in the first part, the first unused one starts the
second part. -/
theorem used_split (h : us ++ rest = pre ++ qp :: post) (hr : ∀ x ∈ rest, x.qbFirst = none)
    (hq : qp.qbFirst.isSome = true) : ∃ t, us = pre ++ qp :: t ∧ post = t ++ rest := by
  rcases List.append_eq_append_iff.mp h with ⟨t,hp,ht⟩ | ⟨t,hp,ht⟩
  · have hm : qp ∈ rest := ht ▸ by simp
    simp [hr qp hm] at hq
  · cases t with
    | nil =>
      have hm : qp ∈ rest := by
        simp only [List.nil_append] at ht
        exact ht ▸ List.mem_cons_self ..
      simp [hr qp hm] at hq
    | cons x t =>
      obtain ⟨rfl,rfl⟩ := List.cons.inj ht
      exact ⟨t,hp,rfl⟩

theorem unused_split (h : us ++ rest = pre ++ qp :: post) (hu : ∀ x ∈ us, x.qbFirst.isSome = true)
    (hr : ∀ x ∈ rest, x.qbFirst = none) (hp : ∀ x ∈ pre, x.qbFirst.isSome = true)
    (hq : qp.qbFirst = none) : us = pre ∧ rest = qp :: post := by
  rcases List.append_eq_append_iff.mp h with ⟨t,hpre,ht⟩ | ⟨t,hus,ht⟩
  · cases t with
    | nil => exact ⟨by simpa using hpre.symm,by simpa using ht⟩
    | cons x t =>
      have h1 := hp x (by simp [hpre])
      simp [hr x (by simp [ht])] at h1
  · cases t with
    | nil => exact ⟨by simpa using hus,by simpa using ht.symm⟩
    | cons x t =>
      obtain ⟨rfl,-⟩ := List.cons.inj ht
      have h1 := hu qp (by simp [hus])
      simp [hq] at h1

theorem drop_unused (hfree : ∀ x ∈ base, x.Free) (n : ℕ) : ∀ x ∈ base.drop n, x.qbFirst = none :=
  fun x hx => (hfree x (List.mem_of_mem_drop hx)).1

theorem lisPutq_reusing (h : Sound q) (hs : q.core.qFlag.shut = false)
    (hfree : ∀ x ∈ base, x.Free)
    (hr : Reusing base q.core.qBandp (bandSet q.msgs).card)
    (ha : mp.info.inQCount = false →
      (findQband Msg.info (alloc mp) q.core mp.info.bBand).isSome = true) :
    Reusing base (q.lisPutq alloc mp).core.qBandp (bandSet (q.lisPutq alloc mp).msgs).card := by
  obtain ⟨k,m,hkm,hmsgs,-,hcore,-⟩ := ListQueue.lisPutq_open alloc mp hs
  have hbands : (q.lisPutq alloc mp).core.qBandp = (countIn Msg.info (alloc (q.entry mp)) true q.core
      (q.entry mp) k.getLast? m.head?).qBandp := by
    obtain ⟨a,x,w,he,-⟩ := updatequeue_eq true Msg.info (alloc (q.entry mp)) false q.core
      (q.entry mp) k.getLast? m.head?
    rw [hcore,he]
  rw [hbands,hmsgs]
  cases hq : mp.info.inQCount with
  | true =>
    have hqe : (q.entry mp).info.inQCount = true := (ListQueue.entry_alike mp).inQCount.trans hq
    rw [countIn_queue true hqe,bandSet_middle_out hqe,hkm]
    exact hr
  | false =>
    rw [ListQueue.entry_ordinary hq,bandSet_middle_in hq,hkm]
    obtain ⟨z,hz⟩ := Option.isSome_iff_exists.mp (ha hq)
    obtain ⟨-,hb0,-⟩ := Info.inQCount_false hq
    rw [countIn_band true hq hz,if_pos rfl]
    obtain ⟨us,hch,hlen,hus⟩ := hr
    have hsome : (bandLinkIn mp k.getLast? m.head? (z.qp.countIn mp.info.size)).qbFirst.isSome = true := by
      simp only [bandLinkIn]
      split
      · rfl
      · split <;> rfl
    have hwant : (bandLinkIn mp k.getLast? m.head? (z.qp.countIn mp.info.size)).qbWantw =
        z.qp.qbWantw := rfl
    -- the number of bands grows when the structure found was not in use
    have hnew : (∀ x ∈ q.core.qBandp, x.isBand Msg.info mp.info.bBand = false) →
        (insert mp.info.bBand (bandSet q.msgs)).card = (bandSet q.msgs).card + 1 := by
      intro hn
      refine Finset.card_insert_of_notMem fun hb => ?_
      obtain ⟨-,hne⟩ := bandSet_mem.mp hb
      obtain ⟨x,hx,ho⟩ := h.tidy.banded.covered _ trivial hb0 hne
      have := ho.isBand.mpr rfl
      simp [hn x hx] at this
    rcases findQband_cases hz with ⟨hi,he⟩ | ⟨hn,⟨qp,hf,he,hqp,hpre⟩ | ⟨rfl,-,hall⟩⟩
    · have hzs : z.qp.qbFirst.isSome = true := by
        cases hzf : z.qp.qbFirst with
        | none => simp [Qband.isBand,hzf] at hi
        | some x => rfl
      obtain ⟨t,rfl,hpost⟩ := used_split (hch.symm.trans he) (drop_unused hfree _) hzs
      have hmem : mp.info.bBand ∈ bandSet q.msgs := by
        have hq' : z.qp ∈ q.core.qBandp := by rw [he]; simp [BandAt.chain]
        have ho := (h.tidy.banded.isBand_iff hq').mp hi
        exact bandSet_mem.mpr ⟨hb0,ho.2.1⟩
      rw [Finset.insert_eq_self.mpr hmem]
      refine ⟨z.pre ++ bandLinkIn mp k.getLast? m.head? (z.qp.countIn mp.info.size) :: t,?_,?_,?_⟩
      · simp only [hpost,List.length_append,List.length_cons,List.append_assoc,List.cons_append]
      · simpa using hlen
      · intro x hx
        simp only [List.mem_append,List.mem_cons] at hx hus
        rcases hx with hx | rfl | hx
        · exact hus x (.inl hx)
        · exact ⟨hsome,hwant.trans (hus z.qp (.inr (.inl rfl))).2⟩
        · exact hus x (.inr (.inr hx))
    · obtain ⟨rfl,hrest⟩ := unused_split (hch.symm.trans he) (fun x hx => (hus x hx).1)
        (drop_unused hfree _) hpre hf
      rw [hnew hn]
      refine ⟨z.pre ++ [bandLinkIn mp k.getLast? m.head? (z.qp.countIn mp.info.size)],?_,?_,?_⟩
      · rw [List.length_append,List.length_singleton,← List.drop_drop,hrest]
        simp
      · simpa using hlen
      · intro x hx
        rcases List.mem_append.mp hx with hx | hx
        · exact hus x hx
        · rw [List.mem_singleton.mp hx]
          exact ⟨hsome,hwant.trans (by rw [hqp]; rfl)⟩
    · have hnil : base.drop us.length = [] := by
        cases hd : base.drop us.length with
        | nil => rfl
        | cons x t =>
          have hx : x ∈ base.drop us.length := hd ▸ List.mem_cons_self ..
          have := hall x (hch ▸ List.mem_append_right _ hx)
          simp [drop_unused hfree _ x hx] at this
      rw [hnew hn]
      refine ⟨bandLinkIn mp k.getLast? m.head? (q.core.newBand.countIn mp.info.size) :: us,?_,?_,?_⟩
      · rw [List.length_cons,← List.drop_drop,hnil]
        simp [hch,hnil]
      · simpa using hlen
      · intro x hx
        rcases List.mem_cons.mp hx with rfl | hx
        · exact ⟨hsome,rfl⟩
        · exact hus x hx

theorem bandSet_append : bandSet (l ++ m) = bandSet l ∪ bandSet m := by
  simp [bandSet]

theorem bandSet_alike {mp' : Msg} (h : mp'.info.Alike mp.info) : bandSet [mp'] = bandSet [mp] := by
  ext b
  simp only [bandSet_mem,bandMsgs,List.filter_cons,h.inBand,List.filter_nil]
  split_ifs <;> simp

theorem lisPutq_bandSet (alloc : Msg → Bool) (mp : Msg) (hs : q.core.qFlag.shut = false) :
    bandSet (q.lisPutq alloc mp).msgs = bandSet q.msgs ∪ bandSet [mp] := by
  obtain ⟨k,m,hkm,hmsgs,-⟩ := ListQueue.lisPutq_open alloc mp hs
  rw [hmsgs,List.append_cons,bandSet_append,bandSet_append,bandSet_alike (ListQueue.entry_alike mp),← hkm,
    bandSet_append,Finset.union_right_comm]

/- The queue while the kept messages are put back. -/
structure Refilling (c : Core Msg) (q : ListQueue) : Prop where
  sound : Sound q
  reusing : Reusing c.qBandp q.core.qBandp (bandSet q.msgs).card
  shut : q.core.qFlag.shut = c.qFlag.shut
  wantw : q.core.qFlag.qwantw = false
  water : q.core.qLowat = c.qLowat
  deferred : q.defer = []

theorem lisPutq_refilling {c : Core Msg} (alloc : Msg → Bool) (hfree : ∀ x ∈ c.qBandp, x.Free) (h : Refilling c q)
    (hs : c.qFlag.shut = false) (hmp : mp.addr ∉ q.msgs.map Msg.addr)
    (hcard : (bandSet (q.msgs ++ [mp])).card ≤ c.qBandp.length) :
    Refilling c (q.lisPutq alloc mp) ∧
      (q.lisPutq alloc mp).core.qCount =
        q.core.qCount + sizes Msg.info (qMsgs Msg.info [mp]) := by
  have hs : q.core.qFlag.shut = false := h.shut.trans hs
  -- a structure is found: the band has one, or there are unused ones left
  have ha : mp.info.inQCount = false →
      (findQband Msg.info (alloc mp) q.core mp.info.bBand).isSome = true := by
    intro hq
    obtain ⟨-,hb0,hr⟩ := Info.inQCount_false hq
    by_cases hb : mp.info.bBand ∈ bandSet q.msgs
    · obtain ⟨z,hz,-⟩ := findQband_owned (alloc mp) h.sound.tidy.banded hb0 (bandSet_mem.mp hb).2
      rw [hz]
      rfl
    · obtain ⟨us,hch,hlen,-⟩ := h.reusing
      have hlt : us.length < c.qBandp.length := by
        have hnew : (bandSet (q.msgs ++ [mp])).card = (bandSet q.msgs).card + 1 := by
          rw [bandSet_middle_in hq,List.append_nil,Finset.card_insert_of_notMem hb]
        omega
      obtain ⟨x,hx⟩ := List.exists_mem_of_length_pos (l := c.qBandp.drop us.length) (by simpa using hlt)
      refine findQband_isSome_iff.mpr (.inr ⟨x,?_,.inl (drop_unused hfree _ x hx)⟩)
      rw [hch]
      exact List.mem_append_right _ hx
  have hsound := lisPutq_sound h.sound hs hmp ha
  have hreusing := lisPutq_reusing h.sound hs hfree h.reusing ha
  obtain ⟨k,m,-,-,hdef,hcore,-⟩ := ListQueue.lisPutq_open alloc mp hs
  obtain ⟨a,x,w,he,-⟩ := updatequeue_eq true Msg.info (alloc (q.entry mp)) false q.core
    (q.entry mp) k.getLast? m.head?
  rw [he] at hcore
  refine ⟨⟨hsound,hreusing,?_,?_,?_,hdef.trans h.deferred⟩,?_⟩ <;> rw [hcore]
  · exact h.shut
  · exact h.wantw
  · exact h.water
  · have hq := (ListQueue.entry_alike (q := q) mp).inQCount
    have hsz := (ListQueue.entry_alike (q := q) mp).2.1
    show (if (q.entry mp).info.inQCount = true then _ else _) = _
    rw [hq,hsz]
    cases hin : mp.info.inQCount <;> simp [qMsgs,hin,sizes]

theorem flushList_refilling {c : Core Msg} (alloc : Msg → Bool) (band : ℤ) (flushAll : Bool)
    {r : List Msg} (hfree : ∀ x ∈ c.qBandp, x.Free) (h : Refilling c q) (hs : r ≠ [] → c.qFlag.shut = false)
    (hnd : ((q.msgs ++ r).map Msg.addr).Nodup)
    (hcard : (bandSet (q.msgs ++ r)).card ≤ c.qBandp.length) :
    Refilling c (ListQueue.flushList alloc band flushAll q r) ∧
      (ListQueue.flushList alloc band flushAll q r).core.qCount =
        q.core.qCount + sizes Msg.info (qMsgs Msg.info (kept band flushAll r)) ∧
      bandSet (ListQueue.flushList alloc band flushAll q r).msgs =
        bandSet (q.msgs ++ kept band flushAll r) := by
  induction r generalizing q with
  | nil => exact ⟨h,by simp [ListQueue.flushList,kept],by simp [ListQueue.flushList,kept]⟩
  | cons mp r ih =>
    have hs := hs (by simp)
    rw [ListQueue.flushList]
    cases hf : flushes band flushAll mp.info with
    | true =>
      simp only [if_true]
      have hk : kept band flushAll (mp :: r) = kept band flushAll r := by simp [kept,hf]
      rw [hk]
      refine ih h (fun _ => hs) (hnd.sublist ?_) (le_trans (Finset.card_le_card (bandSet_mono ?_)) hcard)
      · exact ((List.sublist_cons_self ..).append_left _).map _
      · exact ((List.sublist_cons_self ..).append_left _).subset
    | false =>
      simp only [Bool.false_eq_true,if_false]
      have hk : kept band flushAll (mp :: r) = mp :: kept band flushAll r := by simp [kept,hf]
      have hmp : mp.addr ∉ q.msgs.map Msg.addr := by
        rw [List.map_append,List.map_cons] at hnd
        have := (List.nodup_cons.mp (List.nodup_middle.mp hnd)).1
        exact fun hm => this (List.mem_append_left _ hm)
      obtain ⟨hr1,hc1⟩ := lisPutq_refilling alloc hfree h hs hmp
        (le_trans (Finset.card_le_card (bandSet_mono (by simp))) hcard)
      have hsq : q.core.qFlag.shut = false := h.shut.trans hs
      have hb1 := lisPutq_bandSet alloc mp hsq
      obtain ⟨k,m,hkm,hmsgs,-⟩ := ListQueue.lisPutq_open alloc mp hsq
      have hnd1 : (((q.lisPutq alloc mp).msgs ++ r).map Msg.addr).Nodup := by
        rw [← hkm] at hnd
        simp only [hmsgs,List.map_append,List.map_cons,ListQueue.entry_addr,List.append_assoc,
          List.cons_append] at hnd ⊢
        rw [← List.append_assoc] at hnd
        refine (List.Perm.nodup_iff ?_).mp hnd
        exact List.perm_middle.trans (by simpa using List.perm_middle.symm)
      have hcard1 : (bandSet ((q.lisPutq alloc mp).msgs ++ r)).card ≤ c.qBandp.length := by
        rw [bandSet_append,hb1,← bandSet_append,← bandSet_append]
        simpa using hcard
      obtain ⟨hr2,hc2,hb2⟩ := ih hr1 (fun _ => hs) hnd1 hcard1
      refine ⟨hr2,?_,?_⟩
      · rw [hc2,hc1,hk,BitVec.add_assoc,← sizes_append,← qMsgs_append]
        rfl
      · rw [hb2,hk,bandSet_append,hb1,← bandSet_append,← bandSet_append]
        simp

theorem flushStart_refilling (h : Ready q wish) :
    Refilling q.core.flushStart ⟨q.core.flushStart,[],[]⟩ := by
  refine ⟨⟨flushStart_tidy,List.nodup_nil,h.sound.water,fun hf => hf,fun hf => ?_,fun x hx => ?_,
    fun _ => rfl⟩,⟨[],rfl,rfl,fun _ hx => absurd hx List.not_mem_nil⟩,rfl,rfl,rfl,rfl⟩
  · cases hf
  · obtain ⟨y,hy,rfl⟩ := List.mem_map.mp hx
    obtain ⟨h1,h2,h3⟩ := h.sound.sane y hy
    exact ⟨h1,fun hf => absurd hf (by simp),h3⟩

/- The unused structures are those from before the flush, emptied. -/
theorem flushStart_bands {c : Core Msg} (hx : qp ∈ c.flushStart.qBandp) :
    qp.Free ∧ qp.qbCount = 0 := by
  obtain ⟨y,-,rfl⟩ := List.mem_map.mp hx
  exact ⟨⟨rfl,rfl⟩,rfl⟩

theorem flushCheck_shut {c : Core Msg} {wasfull : Bool} :
    (c.flushCheck wasfull).qFlag.shut = c.qFlag.shut := by
  simp only [Core.flushCheck,chkBands_flag]
  split_ifs <;> rfl

/- The checks at the end: an unused structure that holds a wish hands it over. -/
theorem flushCheck_ready {c : Core Msg} (wish : List Uchar) (wasfull : Bool) (h : Refilling c q)
    (hc : ∀ x ∈ c.qBandp, x.Free ∧ x.qbCount = 0)
    (hw : ∀ b ∈ wish, (wasfull = true ∧ q.core.qCount ≤ q.core.qLowat) ∨
      ∃ x ∈ c.qBandp.drop (bandSet q.msgs).card, x.qbWantw = true ∧ x.qbWasfull = true) :
    Ready { q with core := q.core.flushCheck wasfull } wish := by
  have htidy := flushCheck_tidy wasfull h.sound.tidy
  have hbands : (q.core.flushCheck wasfull).qBandp = q.core.qBandp.map fun x => (chkBand {} x).2 :=
    chkBands_snd _
  have hdrained : ∀ x ∈ c.qBandp, x.qbWasfull = true → x.drained = true := fun x hx hf => by
    simp [Qband.drained,hf,(hc x hx).2,ulong_zero_le]
  obtain ⟨us,hch,hlen,hus⟩ := h.reusing
  have hflag : (q.core.flushCheck wasfull).qFlag = { q.core.qFlag with
      qwantr := true
      qwantw := (q.core.qBandp.any fun x => x.drained && x.qbWantw) ||
        (wasfull && decide (q.core.qCount ≤ q.core.qLowat))
      qback := q.core.qFlag.qback || (q.core.qBandp.any fun x => x.drained) ||
        (wasfull && decide (q.core.qCount ≤ q.core.qLowat)) } := by
    simp only [Core.flushCheck,chkBands_flag,h.wantw]
    cases wasfull <;> by_cases hle : q.core.qCount ≤ q.core.qLowat <;> simp [hle]
  refine ⟨⟨htidy,h.sound.addrs,h.sound.water,?_,?_,?_,?_⟩,?_,?_,fun b hb => .inl ?_,h.deferred⟩
  · rw [hflag]
    exact h.sound.full
  · rw [hflag]
    exact h.sound.wasfull
  · intro x hx
    rw [hbands] at hx
    obtain ⟨y,hy,rfl⟩ := List.mem_map.mp hx
    exact (h.sound.sane y hy).chkBand {}
  · rw [hflag]
    exact h.sound.closed
  · rw [hflag]
    intro hw
    left
    simp only [Bool.or_eq_true,List.any_eq_true,Bool.and_eq_true] at hw ⊢
    rcases hw with ⟨x,hx,hd,-⟩ | hw
    · exact .inl (.inr ⟨x,hx,hd⟩)
    · exact .inr hw
  · intro x hx hn
    rw [hbands] at hx
    obtain ⟨y,hy,rfl⟩ := List.mem_map.mp hx
    rw [chkBand_first] at hn
    rw [chkBand_eq]
    cases hw : y.qbWantw with
    | false => simp
    | true =>
      rw [hch] at hy
      rcases List.mem_append.mp hy with hy' | hy'
      · have := (hus y hy').2
        rw [hw] at this
        cases this
      · have hwas := (h.sound.sane y (hch ▸ hy)).2.2 hw
        simp [hdrained y (List.mem_of_mem_drop hy') hwas]
  · show (q.core.flushCheck wasfull).qFlag.qwantw = true
    rw [hflag]
    simp only [Bool.or_eq_true,List.any_eq_true,Bool.and_eq_true,decide_eq_true_eq]
    rcases hw b hb with hw | ⟨x,hx,h1,h2⟩
    · exact .inr hw
    · refine .inl ⟨x,?_,hdrained x (List.mem_of_mem_drop hx) h2,h1⟩
      rw [hch,hlen]
      exact List.mem_append_right _ hx

theorem lisQenable_ready (h : Ready q wish) : Ready { q with core := q.core.lisQenable } wish := by
  obtain ⟨a,b,he⟩ := qenableFlags_eq q.core.qiSrvp q.core.qFlag
  have hc : q.core.lisQenable =
      { q.core with qFlag := { q.core.qFlag with qenab := a, qwantenab := b } } := by
    rw [Core.lisQenable,he]
  rw [hc]
  exact ⟨⟨h.sound.tidy.of_eq rfl rfl,h.sound.addrs,h.sound.water,h.sound.full,h.sound.wasfull,
    h.sound.sane,h.sound.closed⟩,h.wantw,h.quiet,h.recorded,h.deferred⟩

theorem flushEnd_ready {back : List BackQ} (nonempty : Bool) (h : Ready q wish)
    (hf : feeder back = true) (hclosed : q.core.qFlag.shut = true → wish = []) :
    let r := q.core.flushEnd nonempty back
    Ready { q with core := r.1 } (if r.2.2 then [] else wish) ∧
      (q.msgs = [] → (if r.2.2 then [] else wish) = []) ∧ feeder r.2.1 = true := by
  intro r
  cases hs : q.core.qFlag.shut with
  | true =>
    have hr : r = (q.core,back,false) := if_pos hs
    rw [hr]
    exact ⟨h,fun _ => hclosed hs,hf⟩
  | false =>
    have hb := lisBackenable_ready h hf
    have hrest : r.2 = (lisBackenable q.core back).2 := by
      show (Core.flushEnd nonempty q.core back).2 = _
      simp only [Core.flushEnd,hs,Bool.false_eq_true,if_false]
      split_ifs <;> rfl
    have hcore : r.1 = (lisBackenable q.core back).1 ∨
        r.1 = (lisBackenable q.core back).1.lisQenable := by
      show (Core.flushEnd nonempty q.core back).1 = _ ∨ (Core.flushEnd nonempty q.core back).1 = _
      simp only [Core.flushEnd,hs,Bool.false_eq_true,if_false]
      split_ifs
      · exact .inr rfl
      · exact .inl rfl
    rw [hrest]
    refine ⟨?_,fun he => lisBackenable_empty h hf he,lisBackenable_feeder (q := q) hf⟩
    rcases hcore with hcore | hcore <;> rw [hcore]
    · exact hb
    · exact lisQenable_ready hb

/- The invariant of the runs. -/
structure Good (s : Flow) : Prop where
  ready : Ready s.q s.wish
  served : s.q.msgs = [] → s.wish = []
  feeds : feeder s.back = true

theorem flushWorker_good {s : Flow} {band : ℤ} {flushAll : Bool} (h : Good s)
    (hsafe : s.FlushSafe band flushAll) :
    Good (s.served (s.q.flushWorker alloc band flushAll s.back)) := by
  obtain ⟨hready,hserved,hfeeds⟩ := h
  have hfree : ∀ x ∈ s.q.core.flushStart.qBandp, x.Free := fun x hx => (flushStart_bands hx).1
  have hcard : (bandSet ([] ++ s.q.msgs)).card ≤ s.q.core.flushStart.qBandp.length := by
    simpa [Core.flushStart] using bandSet_card_le hready.sound.tidy
  have hopen : s.q.msgs ≠ [] → s.q.core.flushStart.qFlag.shut = false := by
    intro hne
    cases hs : s.q.core.qFlag.shut with
    | false => exact hs
    | true => exact absurd (hready.sound.closed hs) hne
  obtain ⟨hrefill,hcount,hbands⟩ := flushList_refilling alloc band flushAll hfree (flushStart_refilling hready)
    hopen hready.sound.addrs hcard
  have hdefer : ListQueue.flushList alloc band flushAll
      (ListQueue.flushList alloc band flushAll ⟨s.q.core.flushStart,[],[]⟩ s.q.msgs) s.q.defer =
      ListQueue.flushList alloc band flushAll ⟨s.q.core.flushStart,[],[]⟩ s.q.msgs := by
    rw [hready.deferred]
    rfl
  have hcheck := flushCheck_ready s.wish s.q.core.qFlag.qwasfull hrefill
    (fun x hx => flushStart_bands hx) fun b hb => by
      rcases hsafe with hnil | ⟨hw,hle⟩ | ⟨x,hx,h1,h2⟩
      · rw [hnil] at hb
        cases hb
      · refine .inl ⟨hw,?_⟩
        rw [hcount,hrefill.water]
        simpa [Core.flushStart] using hle
      · refine .inr ⟨{ x with qbFirst := none, qbLast := none, qbCount := 0, qbFull := false },?_,h1,h2⟩
        rw [hbands]
        simp only [Core.flushStart,← List.map_drop,List.nil_append]
        exact List.mem_map_of_mem hx
  have hclosed : (ListQueue.flushList alloc band flushAll ⟨s.q.core.flushStart,[],[]⟩ s.q.msgs).core.qFlag.shut =
      true → s.wish = [] := fun hs => hserved (hready.sound.closed (hrefill.shut.symm.trans hs))
  obtain ⟨h1,h2,h3⟩ := flushEnd_ready (!(ListQueue.flushList alloc band flushAll
    ⟨s.q.core.flushStart,[],[]⟩ s.q.msgs).msgs.isEmpty) hcheck hfeeds
    fun hs => hclosed (flushCheck_shut.symm.trans hs)
  simp only [Flow.served,ListQueue.flushWorker,hdefer]
  exact ⟨h1,h2,h3⟩

theorem removal_good {s : Flow} {k m : List Msg} (h : Good s) (hq : s.q.msgs = k ++ mp :: m) :
    Good (s.served ((s.q.rmvMsg alloc k mp m).lisBackenable s.back)) := by
  have hr := rmvMsg_ready alloc h.ready hq
  exact ⟨lisBackenable_ready hr h.feeds,fun he => lisBackenable_empty hr h.feeds he,
    lisBackenable_feeder h.feeds⟩

theorem rmvNone_ready (h : Ready q wish) : Ready q.rmvNone wish :=
  ⟨⟨h.sound.tidy.of_eq rfl rfl,h.sound.addrs,h.sound.water,h.sound.full,h.sound.wasfull,
    h.sound.sane,h.sound.closed⟩,fun _ => .inl rfl,h.quiet,h.recorded,h.deferred⟩

theorem bcanput_good {s : Flow} {a : Bool} (h : Good s) :
    Good { s with
      q := (s.q.lisBcanput a b).1
      wish := if (s.q.lisBcanput a b).2 = .full then b :: s.wish else s.wish } := by
  obtain ⟨hr,hm,hne⟩ := lisBcanput_ready (a := a) (b := b) h.ready
  refine ⟨hr,fun he => ?_,h.feeds⟩
  have he : s.q.msgs = [] := hm ▸ he
  rw [if_neg fun hf => hne hf he]
  exact h.served he

theorem putq_good {s : Flow} (h : Good s) (hmp : mp.addr ∉ s.q.msgs.map Msg.addr)
    (ha : mp.info.inQCount = false →
      (findQband Msg.info (alloc mp) s.q.core mp.info.bBand).isSome = true) :
    Good { s with q := s.q.lisPutq alloc mp } := by
  cases hsh : s.q.core.qFlag.shut with
  | true =>
    rw [show s.q.lisPutq alloc mp = s.q from if_pos hsh]
    exact h
  | false =>
    refine ⟨lisPutq_ready h.ready hsh hmp ha,fun he => ?_,h.feeds⟩
    obtain ⟨k,m,-,hmsgs,-⟩ := ListQueue.lisPutq_open alloc mp hsh
    rw [hmsgs] at he
    simp at he

theorem getq_good {s : Flow} (h : Good s) : Good (s.served (s.q.lisGetq alloc s.back)) := by
  cases hsh : s.q.core.qFlag.shut with
  | true =>
    rw [show s.q.lisGetq alloc s.back = (s.q,s.back,false) from if_pos hsh]
    exact h
  | false =>
    rw [show s.q.lisGetq alloc s.back = (s.q.rmvFirst alloc).lisBackenable s.back from
      if_neg (by simp [hsh])]
    cases hm : s.q.msgs with
    | nil =>
      rw [show s.q.rmvFirst alloc = s.q.rmvNone by simp [ListQueue.rmvFirst,hm]]
      have hn := rmvNone_ready h.ready
      exact ⟨lisBackenable_ready hn h.feeds,fun he => lisBackenable_empty hn h.feeds he,
        lisBackenable_feeder h.feeds⟩
    | cons mp m =>
      rw [show s.q.rmvFirst alloc = s.q.rmvMsg alloc [] mp m by simp [ListQueue.rmvFirst,hm]]
      exact removal_good h hm

theorem rmvq_good {s : Flow} {addr : ℕ} (h : Good s) :
    Good (s.served (s.q.lisRmvq alloc addr s.back)) := by
  unfold ListQueue.lisRmvq
  split_ifs
  · exact h
  · split
    · exact h
    · next z hz => exact removal_good h (Lib.Split.splitFirst_some hz).1

/- The step lemma. -/
theorem step_good {s t : Flow} {o : FlowOp} (h : Good s) (hg : Guard s o) (hs : s.step o = some t) :
    Good t := by
  cases o with
  | bcanput band a =>
    obtain rfl := Option.some.inj hs
    exact bcanput_good h
  | putq mp a =>
    simp only [step] at hs
    split_ifs at hs with hmp
    obtain rfl := Option.some.inj hs
    refine putq_good h hmp fun hq => findQband_isSome_iff.mpr (hg.resolve_left ?_)
    simp [hq]
  | getq a =>
    obtain rfl := Option.some.inj hs
    exact getq_good h
  | rmvq addr a =>
    obtain rfl := Option.some.inj hs
    exact rmvq_good h
  | flushq flushAll a =>
    obtain rfl := Option.some.inj hs
    exact flushWorker_good h hg
  | flushband band flushAll a =>
    obtain rfl := Option.some.inj hs
    exact flushWorker_good h hg

/-- A queue as allocated, before any message was put on it. -/
def start (qFlag : Qflag) (qHiwat qLowat : Ulong) (qiSrvp : Bool) (back : List BackQ) : Flow :=
  ⟨.empty { qFlag with qfull := false, qwasfull := false, qwantw := false } qHiwat qLowat qiSrvp,
    back,[]⟩

theorem start_good {qFlag : Qflag} {qHiwat qLowat : Ulong} {qiSrvp : Bool} {back : List BackQ}
    (hw : qLowat < qHiwat) (hf : feeder back = true) :
    Good (start qFlag qHiwat qLowat qiSrvp back) := by
  have hno : ∀ qp ∈ ([] : List (Qband Msg)), ∀ p : Prop, p := fun _ h => absurd h List.not_mem_nil
  refine ⟨⟨⟨.of_nil rfl fun qp h => hno qp h _,List.nodup_nil,hw,fun h => h,fun h => ?_,
    fun qp h => hno qp h _,fun _ => rfl⟩,fun h => ?_,fun qp h => hno qp h _,fun b hb => ?_,rfl⟩,
    fun _ => rfl,hf⟩
  · cases h
  · cases h
  · cases hb

/-- In a run whose steps all meet the condition no wish is lost, and none is
left in an empty queue. -/
theorem wishes_kept {qFlag : Qflag} {qHiwat qLowat : Ulong} {qiSrvp : Bool} {back : List BackQ}
    {ops : List FlowOp} {s : Flow} (hw : qLowat < qHiwat) (hf : feeder back = true)
    (hm : Meets step Guard (start qFlag qHiwat qLowat qiSrvp back) ops)
    (h : exec step (start qFlag qHiwat qLowat qiSrvp back) ops = some s) :
    (∀ b ∈ s.wish, Recorded s.q b) ∧ (s.q.msgs = [] → s.wish = []) := by
  have hg := exec_preserves (I := Good) (fun _ _ _ hI hc hs => step_good hI hc hs) (start_good hw hf) hm h
  exact ⟨hg.ready.recorded,hg.served⟩

/- The queue behind has a service procedure. -/
def fed (qHiwat qLowat : Ulong) : Flow := start {} qHiwat qLowat true [⟨{},true,0⟩]
def msg (addr : ℕ) (band : Uchar) (size : ℕ) : Msg := ⟨⟨band,false,⟨M_DATA,size,[]⟩,[]⟩,addr⟩

/- The wish for band 5 stands in its own structure and outlasts the flush of the band. -/
theorem wishes_kept_run : ∃ s : Flow,
    exec step (fed 10 4) [.putq (msg 0 0 16) true,.bcanput 0 true,.putq (msg 1 5 16) true,
      .bcanput 5 true,.flushband 5 false fun _ => true,.getq true] = some s ∧
    (∀ b ∈ s.wish, Recorded s.q b) ∧ (s.q.msgs = [] → s.wish = []) := by
  obtain ⟨s,hs⟩ := Option.isSome_iff_exists.mp (show (exec step (fed 10 4)
    [.putq (msg 0 0 16) true,.bcanput 0 true,.putq (msg 1 5 16) true,
      .bcanput 5 true,.flushband 5 false fun _ => true,.getq true]).isSome = true by decide +kernel)
  exact ⟨s,hs,wishes_kept (by decide) (by decide) (by decide +kernel) hs⟩

/- A flush of band 5 while band 0 is over its high-water mark: `QWANTW` is
cleared, the message of band 0 is put back, and the refused writer is forgotten. -/
theorem wish_lost_in_flush : ∃ s : Flow,
    exec step (fed 3 1) [.putq (msg 0 0 8) true,.bcanput 0 true,.flushband 5 false fun _ => true] =
      some s ∧ ¬∀ b ∈ s.wish, Recorded s.q b := by
  obtain ⟨s,hs,hp⟩ := (Option.any_eq_true _ _).mp (show (exec step (fed 3 1)
    [.putq (msg 0 0 8) true,.bcanput 0 true,.flushband 5 false fun _ => true]).any
      (fun s => s.wish == [0] && !s.q.core.qFlag.qwantw && s.q.core.qBandp == []) = true by decide +kernel)
  simp only [Bool.and_eq_true,beq_iff_eq,Bool.not_eq_true'] at hp
  refine ⟨s,hs,fun h => ?_⟩
  rcases h 0 (by simp [hp.1.1]) with hw | ⟨qp,hq,-⟩
  · simp [hp.1.2] at hw
  · simp [hp.2] at hq

end CSLiS.Queue.Flow
