import CSLiS.Lib.Exec
import CSLiS.Head.Passfp

/-!
# When passed files are accounted for

The account holds in the runs in which no M_PASSFP leaves the receiving head by a way that does not count it down and
keep its file: a send that could not lock the queue or found its procedures off, a receive without a descriptor, a
flush or a release that frees `sd_rput`.
-/

namespace CSLiS.Head.Pass
open Queue Lib.Exec

/- A send that has come to a message and a file. -/
def Starts (s : Pass) (a : Send) : Prop :=
  s.peer = true ∧ s.alive = true ∧ s.strhup = false ∧ a.allocb = true ∧ (a.fp.orElse fun _ => a.fget).isSome = true

/- It has a file for its own receiver, can lock the queue, whose procedures are not off, and the count does not wrap. -/
def SendAllowed (s : Pass) (a : Send) : Prop :=
  Starts s a → (a.own = true → a.filp.isSome = true) ∧ ((a.own = true → a.dentry = true) →
    a.lockq = 0 ∧ s.hd.sdRq.core.qFlag.qprocsoff = false ∧ s.sdRfdcnt.toNat + 1 < 2 ^ 16)

/- No M_PASSFP waits on `sd_rput` when it is freed, and none is spared in a closed queue. -/
def FlushAllowed (s : Pass) (mp : Msg) : Prop :=
  mp.dbType = M_FLUSH → s.hd.sdRq.core.qFlag.qprocsoff = false → s.hd.sdRq.core.qFlag.qreading = false →
    s.hd.sdFlag.strflushwt = false → flushr (flushByte mp) = true → passfps s.hd.sdRput = [] ∧
      (s.hd.sdRq.core.qFlag.shut = true → passfps (ListQueue.spared (flushBand mp) false s.hd.sdRq.msgs) = [])

def Allowed (s : Pass) : Act → Prop
  | .sendfd _ a => SendAllowed s a
  | .recvfd _ fd _ => s.alive = true → s.hd.sdRq.core.qFlag.shut = false →
      (s.hd.sdRq.msgs.head?.any isPassfp) = true → fd = true
  | .arrive _ mp => isPassfp mp = false ∧ FlushAllowed s mp
  | .freeStdata => s.hd.sdRq.core.qFlag.qprocsoff = true → passfps s.hd.sdRput = []
  | _ => True

variable {s t : Pass} {mp : Msg} {l m : List Msg} {q : ListQueue} {alloc : Msg → Bool} {band : ℤ} {flushAll shut : Bool}

/- As lis_sendfd makes them. -/
def Whole (mp : Msg) : Prop := mp.bBand = 0 ∧ short mp = false

@[simp] theorem passfps_nil : passfps [] = [] := rfl

theorem passfps_append : passfps (l ++ m) = passfps l ++ passfps m := List.filter_append ..

theorem passfps_cons (mp : Msg) (l : List Msg) :
    passfps (mp :: l) = if isPassfp mp then mp :: passfps l else passfps l := by
  unfold passfps
  rw [List.filter_cons]

theorem mem_passfps : mp ∈ passfps l ↔ mp ∈ l ∧ isPassfp mp = true := List.mem_filter

theorem isPassfp_entry : isPassfp (q.entry mp) = isPassfp mp := by
  unfold isPassfp
  have h : (q.entry mp).dbType = mp.dbType := (ListQueue.entry_alike (q := q) mp).1
  rw [h]

theorem isPassfp_hipri (h : isPassfp mp = true) : mp.info.hipri = false := by
  have ht : mp.info.dbType = M_PASSFP := beq_iff_eq.mp h
  show lisHipri mp.info.dbType = false
  rw [ht]
  decide

theorem entry_passfp (h : isPassfp mp = true) : q.entry mp = mp := by
  unfold ListQueue.entry Msg.cleared
  simp [isPassfp_hipri h]

/- An M_PASSFP of band 0 goes behind all messages, another message not among the M_PASSFP. -/
theorem lisPutq_passfps (alloc : Msg → Bool) (hs : q.core.qFlag.shut = false) (hb : isPassfp mp = true → mp.bBand = 0) :
    passfps (q.lisPutq alloc mp).msgs = passfps q.msgs ++ passfps [mp] := by
  by_cases hp : isPassfp mp = true
  · have hrank : mp.info.rank = 0 := by
      rw [rank_ordinary (isPassfp_hipri hp)]
      show mp.bBand.val = 0
      rw [hb hp]
      rfl
    rw [ListQueue.lisPutq_end alloc hs fun x _ => by rw [hrank]; exact Nat.zero_le _,passfps_append,entry_passfp hp]
  · obtain ⟨a,b,hab,hmsgs,-⟩ := ListQueue.lisPutq_open alloc mp hs
    have he : isPassfp (q.entry mp) = false := by
      rw [isPassfp_entry]
      simpa using hp
    rw [hmsgs,← hab,passfps_append,passfps_append,passfps_cons,passfps_cons,he]
    simp [hp]

theorem lisPutbq_passfps (alloc : Msg → Bool) (hp : isPassfp mp = false) :
    passfps (q.lisPutbq alloc mp).msgs = passfps q.msgs := by
  unfold ListQueue.lisPutbq
  split_ifs
  · rfl
  · have he : isPassfp (q.entry mp) = false := isPassfp_entry.trans hp
    conv_rhs => rw [← headSplit_append (v := Msg.info) (l := q.msgs) (i := mp.info)]
    rw [passfps_append,passfps_append,passfps_cons,he]
    rfl

/- What a queue keeps of the M_PASSFP messages that a flush gives back to it. -/
def refilled (q : ListQueue) (l : List Msg) : List Msg := if q.core.qFlag.shut then [] else passfps l

theorem flushList_passfps (alloc : Msg → Bool) (band : ℤ) (flushAll : Bool) (h : ∀ mp ∈ passfps l, mp.bBand = 0) :
    passfps (ListQueue.flushList alloc band flushAll q l).msgs =
      passfps q.msgs ++ refilled q (ListQueue.spared band flushAll l) := by
  unfold refilled
  induction l generalizing q with
  | nil => simp [ListQueue.flushList,ListQueue.spared]
  | cons mp l ih =>
    have hl : ∀ x ∈ passfps l, x.bBand = 0 := fun x hx =>
      h x (by rw [passfps_cons]; split_ifs; exacts [List.mem_cons_of_mem _ hx,hx])
    unfold ListQueue.flushList
    rw [ih hl]
    by_cases hf : flushes band flushAll mp.info = true
    · have hk : ListQueue.spared band flushAll (mp :: l) = ListQueue.spared band flushAll l := by
        simp [ListQueue.spared,hf]
      rw [if_pos hf,hk]
    · have hk : ListQueue.spared band flushAll (mp :: l) = mp :: ListQueue.spared band flushAll l := by
        simp [ListQueue.spared,hf]
      rw [if_neg hf,hk]
      by_cases hs : q.core.qFlag.shut = true
      · have hq : q.lisPutq alloc mp = q := if_pos hs
        rw [hq,if_pos hs,if_pos hs]
      · have hs0 : q.core.qFlag.shut = false := by simpa using hs
        have hb : isPassfp mp = true → mp.bBand = 0 := fun hp => h mp (by rw [passfps_cons,if_pos hp]; exact .head _)
        have hn : ¬ (q.lisPutq alloc mp).core.qFlag.shut = true := by rw [ListQueue.lisPutq_shut hs0]; decide
        rw [if_neg hn,if_neg hs,lisPutq_passfps alloc hs0 hb,List.append_assoc,← passfps_append]
        rfl

theorem flushList_defer (alloc : Msg → Bool) (band : ℤ) (flushAll : Bool) (l : List Msg) :
    (ListQueue.flushList alloc band flushAll q l).defer = q.defer := by
  induction l generalizing q with
  | nil => rfl
  | cons mp l ih =>
    unfold ListQueue.flushList
    rw [ih]
    split_ifs
    · rfl
    · unfold ListQueue.lisPutq
      split_ifs <;> rfl

theorem flushWorker_passfps (alloc : Msg → Bool) (band : ℤ) (flushAll : Bool) (back : List BackQ)
    (hd : q.defer = []) (h : ∀ mp ∈ passfps q.msgs, mp.bBand = 0) :
    passfps (q.flushWorker alloc band flushAll back).1.msgs = refilled q (ListQueue.spared band flushAll q.msgs) := by
  have hmsgs : (q.flushWorker alloc band flushAll back).1.msgs =
      (ListQueue.flushList alloc band flushAll ⟨q.core.flushStart,[],[]⟩ q.msgs).msgs := by
    simp [ListQueue.flushWorker,hd,ListQueue.flushList]
  rw [hmsgs,flushList_passfps alloc band flushAll h]
  rfl

theorem flushWorker_defer (alloc : Msg → Bool) (band : ℤ) (flushAll : Bool) (back : List BackQ) :
    (q.flushWorker alloc band flushAll back).1.defer = [] := by
  simp [ListQueue.flushWorker,flushList_defer]

theorem passfps_parts (band : ℤ) (flushAll : Bool) (l : List Msg) : (passfps l).Perm
    (passfps (ListQueue.spared band flushAll l) ++ passfps (ListQueue.selected band flushAll l)) := by
  rw [← passfps_append]
  refine (List.Perm.filter _ ?_)
  refine (List.filter_append_perm (fun mp : Msg => !flushes band flushAll mp.info) l).symm.trans ?_
  simp [ListQueue.spared,ListQueue.selected]

theorem passfps_spared (band : ℤ) (flushAll : Bool) (l : List Msg) :
    (passfps (ListQueue.spared band flushAll l)).Sublist (passfps l) :=
  List.filter_sublist.filter _

/- The messages `g` left for `free_passfp`, and the count went down for each. -/
def gone (s : Pass) (g : List Msg) : Pass :=
  { s with sdRfdcnt := s.sdRfdcnt - BitVec.ofNat 16 g.length, freePassfp := s.freePassfp ++ g }

theorem gone_nil : s.gone [] = s := by simp [gone]

theorem gone_gone (g k : List Msg) : (s.gone g).gone k = s.gone (g ++ k) := by
  simp [gone,BitVec.ofNat_add,BitVec.sub_sub]

theorem lisFreePassfp_whole (hp : isPassfp mp = true) (hw : short mp = false) : s.lisFreePassfp mp = s.gone [mp] := by
  simp [lisFreePassfp,gone,hp,hw]

theorem flushList_gone (h : ∀ mp ∈ passfps l, short mp = false)
    (hs : shut = true → passfps (ListQueue.spared band flushAll l) = []) :
    flushList band flushAll shut s l = s.gone (passfps (ListQueue.selected band flushAll l)) := by
  induction l generalizing s with
  | nil => exact gone_nil.symm
  | cons mp l ih =>
    have hl : ∀ x ∈ passfps l, short x = false := fun x hx =>
      h x (by rw [passfps_cons]; split_ifs; exacts [List.mem_cons_of_mem _ hx,hx])
    unfold flushList
    by_cases hf : flushes band flushAll mp.info = true
    · have hk : ListQueue.spared band flushAll (mp :: l) = ListQueue.spared band flushAll l := by
        simp [ListQueue.spared,hf]
      have hg : ListQueue.selected band flushAll (mp :: l) = mp :: ListQueue.selected band flushAll l := by
        simp [ListQueue.selected,hf]
      rw [if_pos hf,hg,ih hl (hk ▸ hs),passfps_cons]
      by_cases hp : isPassfp mp = true
      · have hw := h mp (by rw [passfps_cons,if_pos hp]; exact .head _)
        rw [if_pos hp,if_pos hp,lisFreePassfp_whole hp hw,gone_gone]
        rfl
      · rw [if_neg hp,if_neg hp]
    · have hk : ListQueue.spared band flushAll (mp :: l) = mp :: ListQueue.spared band flushAll l := by
        simp [ListQueue.spared,hf]
      have hg : ListQueue.selected band flushAll (mp :: l) = ListQueue.selected band flushAll l := by
        simp [ListQueue.selected,hf]
      rw [hk] at hs
      have hfree : (if shut = true then (s.freemsg mp).freemsg mp else s) = s := by
        split_ifs with h1
        · have hp : isPassfp mp = false := by
            by_contra hc
            have hnil := hs h1
            rw [passfps_cons,if_pos (by simpa using hc)] at hnil
            cases hnil
          simp [freemsg,hp]
        · rfl
      rw [if_neg hf,hg,hfree]
      refine ih hl fun h1 => ?_
      have hnil := hs h1
      rw [passfps_cons] at hnil
      split_ifs at hnil
      exact hnil

theorem freeAll_none (h : passfps l = []) : s.freeAll l = s := by
  induction l generalizing s with
  | nil => rfl
  | cons mp l ih =>
    rw [passfps_cons] at h
    split_ifs at h with hp
    have hmp : s.freemsg mp = s := if_neg hp
    show (s.freemsg mp).freeAll l = s
    rw [hmp,ih h]

variable {hd : Stdata} {so : Msg → Stroptions}

theorem getRput_shut (a : Bool) (mp : Msg) (l : List Msg) :
    (hd.getRput a mp l).sdRq.core.qFlag.shut = hd.sdRq.core.qFlag.shut := by
  obtain ⟨f,w,x,b,he⟩ := adjustQCount_eq false Msg.info a hd.sdRq.core mp none none
  unfold Stdata.getRput ListQueue.lisBackenable Queue.lisBackenable
  rw [he]
  split_ifs <;> rfl

/- What freeing the list leaves of the head. -/
structure Emptied (hd hd1 : Stdata) : Prop where
  msgs : hd1.sdRq.msgs = hd.sdRq.msgs
  defer : hd1.sdRq.defer = hd.sdRq.defer
  shut : hd1.sdRq.core.qFlag.shut = hd.sdRq.core.qFlag.shut

theorem freeRput_emptied (alloc : Msg → Bool) (l : List Msg) : Emptied hd (hd.freeRput alloc l) := by
  induction l generalizing hd with
  | nil => exact ⟨rfl,rfl,rfl⟩
  | cons mp l ih =>
    have he : Emptied (hd.getRput (alloc mp) mp l) (hd.freeRput alloc (mp :: l)) := ih
    exact ⟨he.msgs,he.defer,he.shut.trans (getRput_shut ..)⟩

theorem freeRput_rput (alloc : Msg → Bool) (l : List Msg) (h : hd.sdRput = l) : (hd.freeRput alloc l).sdRput = [] := by
  induction l generalizing hd with
  | nil => exact h
  | cons mp l ih => exact ih rfl

/- The head when a flush comes to its queue. -/
def rputFreed (alloc : Msg → Bool) (hd : Stdata) (flushRputq : Bool) : Stdata :=
  if flushRputq then hd.freeRput alloc hd.sdRput else hd

theorem flushRead_rq (alloc : Msg → Bool) (mp : Msg) (f : Bool) : (hd.flushRead alloc mp f).sdRq =
    ((rputFreed alloc hd f).sdRq.flushWorker alloc (flushBand mp) false (rputFreed alloc hd f).back).1 := by
  cases hb : flushband (flushByte mp) <;>
    simp [Stdata.flushRead,flushBand,hb,rputFreed,ListQueue.lisFlushq,ListQueue.lisFlushband]

theorem flushRead_passfps (alloc : Msg → Bool) (mp : Msg) (flushRputq : Bool) (hdef : hd.sdRq.defer = [])
    (h : ∀ x ∈ passfps hd.sdRq.msgs, x.bBand = 0) (hr : flushRputq = true → passfps hd.sdRput = []) :
    passfps (hd.flushRead alloc mp flushRputq).sdRq.msgs =
        refilled hd.sdRq (ListQueue.spared (flushBand mp) false hd.sdRq.msgs) ∧
      (hd.flushRead alloc mp flushRputq).sdRq.defer = [] ∧
      passfps (hd.flushRead alloc mp flushRputq).sdRput = passfps hd.sdRput := by
  have he : Emptied hd (rputFreed alloc hd flushRputq) := by
    unfold rputFreed
    split_ifs
    · exact freeRput_emptied alloc _
    · exact ⟨rfl,rfl,rfl⟩
  have hrput : passfps (rputFreed alloc hd flushRputq).sdRput = passfps hd.sdRput := by
    unfold rputFreed
    split_ifs with hf
    · rw [freeRput_rput alloc _ rfl,hr hf]
      rfl
    · rfl
  have hw : ∀ x ∈ passfps (rputFreed alloc hd flushRputq).sdRq.msgs, x.bBand = 0 := by
    rw [he.msgs]
    exact h
  refine ⟨?_,?_,hrput⟩
  · rw [flushRead_rq,flushWorker_passfps alloc _ false _ (he.defer.trans hdef) hw]
    unfold refilled
    rw [he.shut,he.msgs]
  · rw [flushRead_rq]
    exact flushWorker_defer ..

/- The reference in a message that `lis_sendfd` has filled. -/
def refsOf (addr : ℕ) (c : Strrecvfd) : List Ref := if c.rfp.isSome then [.copy addr c.fp] else [.sent addr c.fp]

/- The account, and what keeps it: the messages held are as sent, in the order sent. -/
structure Inv (s : Pass) : Prop where
  acc : Accounted s
  order : (s.received ++ s.held.map Msg.addr).Sublist s.sent
  whole : ∀ mp ∈ s.held, Whole mp
  type : ∀ mp ∈ s.freePassfp, isPassfp mp = true
  defer : s.hd.sdRq.defer = []

theorem held_passfp (h : mp ∈ s.held) : isPassfp mp = true := by
  rcases List.mem_append.mp h with h | h
  · exact (mem_passfps.mp h).2
  · exact (mem_passfps.mp h).2

/- Some of the messages held are left for free_passfp, the head changes otherwise at will. -/
theorem Inv.leave (h : Inv s) (hd : Stdata) (g : List Msg) (peer strhup : Bool)
    (hperm : s.held.Perm (passfps hd.sdRq.msgs ++ passfps hd.sdRput ++ g))
    (hsub : (passfps hd.sdRq.msgs ++ passfps hd.sdRput).Sublist s.held) (hdef : hd.sdRq.defer = []) :
    Inv { s.gone g with hd := hd, peer := peer, strhup := strhup } := by
  obtain ⟨⟨hcount,hrefs,hnd,hmsgs,hgone,-⟩,hord,hwhole,htype,-⟩ := h
  have hlen := hperm.length_eq
  have hall : (s.held ++ s.freePassfp).Perm (passfps hd.sdRq.msgs ++ passfps hd.sdRput ++ (s.freePassfp ++ g)) := by
    refine (hperm.append_right _).trans ?_
    rw [List.append_assoc]
    exact List.perm_append_comm.append_left _
  have hsent := (((hsub.map Msg.addr).append_left s.received).trans hord)
  refine ⟨⟨?_,?_,hnd,?_,fun ha => ?_,(List.sublist_append_left _ _).trans hsent⟩,hsent,
    fun x hx => hwhole x (hsub.subset hx),fun x hx => ?_,hdef⟩
  · show (s.sdRfdcnt - BitVec.ofNat 16 g.length).toNat = (passfps hd.sdRq.msgs ++ passfps hd.sdRput).length
    have hlt := s.sdRfdcnt.isLt
    rw [List.length_append] at hlen
    rw [BitVec.toNat_sub,BitVec.toNat_ofNat]
    omega
  · exact hrefs.trans ((hall.flatMap_right _).append_left _)
  · exact hmsgs.trans ((hall.map _).append_left _)
  · have hnil : s.held = [] := hgone ha
    rw [hnil] at hsub
    exact List.sublist_nil.mp hsub
  · rcases List.mem_append.mp hx with hx | hx
    · exact htype x hx
    · exact held_passfp (hperm.mem_iff.mpr (List.mem_append_right _ hx))

theorem Inv.keep (h : Inv s) (hd : Stdata) (peer strhup : Bool)
    (he : passfps hd.sdRq.msgs ++ passfps hd.sdRput = s.held) (hdef : hd.sdRq.defer = []) :
    Inv { s with hd := hd, peer := peer, strhup := strhup } := by
  have hl := h.leave hd [] peer strhup (by rw [he,List.append_nil]) (by rw [he]) hdef
  rwa [gone_nil] at hl

theorem refilled_spared (h : q.core.qFlag.shut = true → passfps l = []) : refilled q l = passfps l := by
  unfold refilled
  split_ifs with hs
  · exact (h hs).symm
  · rfl

/- The queue was flushed; nothing else changes what is held. -/
theorem Inv.flushQueue (h : Inv s) (hd : Stdata) (band : ℤ) (flushAll : Bool)
    (hs : s.hd.sdRq.core.qFlag.shut = true → passfps (ListQueue.spared band flushAll s.hd.sdRq.msgs) = [])
    (hq : passfps hd.sdRq.msgs = refilled s.hd.sdRq (ListQueue.spared band flushAll s.hd.sdRq.msgs))
    (hrput : passfps hd.sdRput = passfps s.hd.sdRput) (hdef : hd.sdRq.defer = []) :
    Inv { s.flushQueue band flushAll with hd := hd } := by
  have hheld : s.held = passfps s.hd.sdRq.msgs ++ passfps s.hd.sdRput := rfl
  have hwhole : ∀ x ∈ passfps s.hd.sdRq.msgs, short x = false := fun x hx => (h.whole x (List.mem_append_left _ hx)).2
  have hflush : s.flushQueue band flushAll = s.gone (passfps (ListQueue.selected band flushAll s.hd.sdRq.msgs)) := by
    unfold Pass.flushQueue
    rw [h.defer,List.append_nil,flushList_gone hwhole hs]
  rw [refilled_spared hs] at hq
  rw [hflush]
  refine h.leave hd _ s.peer s.strhup ?_ ?_ hdef
  · rw [hheld,hq,hrput]
    refine ((passfps_parts band flushAll _).append_right _).trans ?_
    rw [List.append_assoc,List.append_assoc]
    exact List.perm_append_comm.append_left _
  · rw [hheld,hq,hrput]
    exact (passfps_spared band flushAll _).append_right _

theorem Inv.lisHeadFlush (h : Inv s) (alloc : Msg → Bool) (mp : Msg) (flushRputq : Bool)
    (hc : s.hd.sdRq.core.qFlag.qreading = false → s.hd.sdFlag.strflushwt = false → flushr (flushByte mp) = true →
      (flushRputq = true → passfps s.hd.sdRput = []) ∧
      (s.hd.sdRq.core.qFlag.shut = true → passfps (ListQueue.spared (flushBand mp) false s.hd.sdRq.msgs) = [])) :
    Inv (s.lisHeadFlush alloc mp flushRputq) := by
  have hheld : s.held = passfps s.hd.sdRq.msgs ++ passfps s.hd.sdRput := rfl
  unfold Pass.lisHeadFlush Stdata.lisHeadFlush
  by_cases h1 : s.hd.sdFlag.strflushwt = true
  · simp only [h1,Bool.true_or,if_true,Option.getD_some]
    exact h.keep _ s.peer s.strhup rfl h.defer
  · have h1n : s.hd.sdFlag.strflushwt = false := by simpa using h1
    by_cases h2 : s.hd.sdRq.core.qFlag.qreading = true
    · simp only [h1n,h2,Bool.true_or,Bool.or_true,if_true,Bool.false_eq_true,if_false,Option.getD_none]
      exact h.keep _ s.peer s.strhup rfl h.defer
    · have h2n : s.hd.sdRq.core.qFlag.qreading = false := by simpa using h2
      by_cases h3 : flushr (flushByte mp) = true
      · obtain ⟨hr,hs⟩ := hc h2n h1n h3
        have hb : ∀ x ∈ passfps s.hd.sdRq.msgs, x.bBand = 0 := fun x hx => (h.whole x (List.mem_append_left _ hx)).1
        obtain ⟨hq,hdef,hrput⟩ := flushRead_passfps alloc mp flushRputq h.defer hb hr
        have hfree : (if flushRputq then s.freeAll s.hd.sdRput else s) = s := by
          split_ifs with hf
          · exact freeAll_none (hr hf)
          · rfl
        simp only [h1n,h2n,h3,Bool.or_self,Bool.not_true,if_true,Bool.false_eq_true,if_false,
          Option.getD_some,hfree]
        split_ifs
        · exact h.flushQueue _ _ false hs hq hrput hdef
        · exact h.flushQueue _ _ false hs hq hrput hdef
      · have h3n : flushr (flushByte mp) = false := by simpa using h3
        simp only [h1n,h2n,h3n,Bool.or_self,Bool.not_false,Bool.or_true,if_true,Bool.false_eq_true,if_false,
          Option.getD_some]
        split_ifs
        · exact h.keep _ s.peer s.strhup rfl h.defer
        · exact h.keep _ s.peer s.strhup rfl h.defer

theorem held_of_other (h : isPassfp mp = false) : passfps (l ++ [mp]) = passfps l := by
  rw [passfps_append,passfps_cons,h]
  exact List.append_nil _

theorem isPassfp_type {t : Uchar} (ht : mp.dbType = t) (h : t ≠ M_PASSFP) : isPassfp mp = false := by
  unfold isPassfp
  rw [ht]
  simpa using h

/- Another message arrives. -/
theorem lisStrrput_other (hd : Stdata) (alloc : Msg → Bool) (hp : isPassfp mp = false) (hf : mp.dbType = M_FLUSH →
      hd.sdRq.core.qFlag.qprocsoff = true ∨ hd.sdRq.core.qFlag.qreading = true) :
    passfps (hd.lisStrrput alloc mp).sdRq.msgs = passfps hd.sdRq.msgs ∧
      (hd.lisStrrput alloc mp).sdRq.defer = hd.sdRq.defer ∧
      passfps (hd.lisStrrput alloc mp).sdRput = passfps hd.sdRput := by
  unfold Stdata.lisStrrput
  split_ifs with h1 h2 h3 h4 h5
  · exact ⟨rfl,rfl,rfl⟩
  · exact ⟨rfl,rfl,rfl⟩
  · exact ⟨rfl,rfl,held_of_other hp⟩
  · have hread := (hf h4).resolve_left h1
    unfold Stdata.lisHeadFlush
    split_ifs with h6
    · exact ⟨rfl,rfl,rfl⟩
    · exact ⟨rfl,rfl,held_of_other hp⟩
  · exact ⟨rfl,rfl,rfl⟩
  · exact ⟨rfl,rfl,held_of_other hp⟩

theorem Inv.arrive (h : Inv s) (alloc : Msg → Bool) (hp : isPassfp mp = false) (hc : FlushAllowed s mp) :
    Inv (s.arrive alloc mp) := by
  unfold Pass.arrive
  split_ifs with h1
  · simp only [Bool.and_eq_true,Bool.not_eq_true',beq_iff_eq] at h1
    obtain ⟨⟨hoff,htype⟩,-⟩ := h1
    refine h.lisHeadFlush alloc mp true fun hr hw hb => ?_
    obtain ⟨ha,hb⟩ := hc htype hoff hr hw hb
    exact ⟨fun _ => ha,hb⟩
  · obtain ⟨hq,hdef,hrput⟩ := lisStrrput_other s.hd alloc hp fun ht => by
      by_contra hn
      simp only [not_or,Bool.not_eq_true] at hn
      simp [ht,hn] at h1
    refine h.keep _ s.peer s.strhup ?_ (hdef.trans h.defer)
    rw [hq,hrput]
    rfl

theorem lisCheckMSig_passfps (hd : Stdata) (alloc : Msg → Bool) :
    passfps (hd.lisCheckMSig alloc).sdRq.msgs = passfps hd.sdRq.msgs ∧
      (hd.lisCheckMSig alloc).sdRq.defer = hd.sdRq.defer := by
  unfold Stdata.lisCheckMSig
  split_ifs with h1
  · unfold Stdata.lisGetq ListQueue.lisGetq
    split_ifs with h2
    · exact ⟨rfl,rfl⟩
    · rw [Option.any_eq_true] at h1
      obtain ⟨mp,hhd,ht⟩ := h1
      obtain ⟨l,hl⟩ := List.head?_eq_some_iff.mp hhd
      have hp : isPassfp mp = false := isPassfp_type (beq_iff_eq.mp ht) (by decide)
      have hf : hd.sdRq.rmvFirst alloc = hd.sdRq.rmvMsg alloc [] mp l := by simp [ListQueue.rmvFirst,hl]
      rw [hf,hl,passfps_cons,hp]
      exact ⟨rfl,rfl⟩
  · exact ⟨rfl,rfl⟩

/- A message from `sd_rput` goes to the open queue, if at all; a flush apart. -/
theorem processMsg_passfps (hd : Stdata) (so : Msg → Stroptions) (alloc : Msg → Bool)
    (hs : (hd.sdFlag.strclose || hd.sdRq.core.qFlag.shut) = false) (hb : isPassfp mp = true → mp.bBand = 0)
    (hf : mp.dbType ≠ M_FLUSH) :
    passfps (hd.processMsg so alloc mp).sdRq.msgs = passfps hd.sdRq.msgs ++ passfps [mp] ∧
      (hd.processMsg so alloc mp).sdRq.defer = hd.sdRq.defer := by
  have hother : queued mp.dbType = false → passfps hd.sdRq.msgs ++ passfps [mp] = passfps hd.sdRq.msgs := by
    intro hn
    have hp : isPassfp mp = false := by
      by_contra hc
      have ht : mp.dbType = M_PASSFP := beq_iff_eq.mp (Bool.eq_true_of_not_eq_false hc)
      rw [ht] at hn
      cases hn
    rw [← passfps_append,held_of_other hp]
  unfold Stdata.processMsg
  rw [if_neg (by rw [hs]; decide)]
  split_ifs with h1 h2 h3 h4 h5
  · have hopen : hd.sdRq.core.qFlag.shut = false := (Bool.or_eq_false_iff.mp hs).2
    refine ⟨lisPutq_passfps alloc hopen hb,?_⟩
    show (hd.sdRq.lisPutq alloc mp).defer = _
    unfold ListQueue.lisPutq
    split_ifs <;> rfl
  all_goals exact ⟨(hother (by simpa using h1)).symm,rfl⟩

theorem lisProcessRput_passfps (hd : Stdata) (so : Msg → Stroptions) (alloc : Msg → Bool)
    (hs : (hd.sdFlag.strclose || hd.sdRq.core.qFlag.shut) = false) (hb : isPassfp mp = true → mp.bBand = 0)
    (hf : mp.dbType ≠ M_FLUSH) :
    passfps (hd.lisProcessRput so alloc mp).sdRq.msgs = passfps hd.sdRq.msgs ++ passfps [mp] ∧
      (hd.lisProcessRput so alloc mp).sdRq.defer = hd.sdRq.defer := by
  obtain ⟨hq,hdef⟩ := processMsg_passfps hd so alloc hs hb hf
  unfold Stdata.lisProcessRput
  split_ifs
  · obtain ⟨hq1,hdef1⟩ := lisCheckMSig_passfps (hd.processMsg so alloc mp) alloc
    exact ⟨hq1.trans hq,hdef1.trans hdef⟩
  · exact ⟨hq,hdef⟩

theorem lisProcessRput_closed (hd : Stdata) (so : Msg → Stroptions) (alloc : Msg → Bool) (mp : Msg)
    (hs : (hd.sdFlag.strclose || hd.sdRq.core.qFlag.shut) = true) :
    (hd.lisProcessRput so alloc mp).sdRq = hd.sdRq := by
  unfold Stdata.lisProcessRput Stdata.processMsg
  rw [if_neg (by rw [hs]; simp),if_pos hs]
  split_ifs <;> rfl

theorem Inv.service (h : Inv s) (so : Msg → Stroptions) (alloc : Msg → Bool) : Inv (s.service so alloc) := by
  have hheld : s.held = passfps s.hd.sdRq.msgs ++ passfps s.hd.sdRput := rfl
  unfold Pass.service
  split
  · exact h
  · next mp l hl =>
    have hshut : (s.hd.getRput (alloc mp) mp l).sdRq.core.qFlag.shut = s.hd.sdRq.core.qFlag.shut := getRput_shut ..
    rw [hl,passfps_cons] at hheld
    by_cases hcl : ((s.hd.getRput (alloc mp) mp l).sdFlag.strclose ||
        (s.hd.getRput (alloc mp) mp l).sdRq.core.qFlag.shut) = true
    · have hrq := lisProcessRput_closed _ so alloc mp hcl
      have hrput : ((s.hd.getRput (alloc mp) mp l).lisProcessRput so alloc mp).sdRput = l :=
        Stdata.lisProcessRput_rput
      simp only [hcl,if_true]
      by_cases hp : isPassfp mp = true
      · rw [if_pos hp] at hheld
        rw [if_pos hp]
        have hw := h.whole mp (by rw [hheld]; simp)
        rw [lisFreePassfp_whole hp hw.2]
        refine h.leave _ [mp] s.peer s.strhup ?_ ?_ ?_
        · rw [hrq,hrput,hheld,List.append_assoc]
          exact (List.perm_append_singleton _ _).symm.append_left _
        · rw [hrq,hrput,hheld]
          exact (List.sublist_cons_self _ _).append_left _
        · rw [hrq]
          exact h.defer
      · rw [if_neg hp] at hheld
        rw [if_neg hp]
        refine h.keep _ s.peer s.strhup ?_ ?_
        · rw [hrq,hrput,hheld]
          rfl
        · rw [hrq]
          exact h.defer
    · have hopen : ((s.hd.getRput (alloc mp) mp l).sdFlag.strclose ||
          (s.hd.getRput (alloc mp) mp l).sdRq.core.qFlag.shut) = false := by simpa using hcl
      simp only [hopen,Bool.false_eq_true,if_false]
      by_cases ht : mp.dbType = M_FLUSH
      · have hp : isPassfp mp = false := isPassfp_type ht (by decide)
        rw [hp] at hheld
        have hkeep : Inv { s with hd := s.hd.getRput (alloc mp) mp l } := h.keep _ s.peer s.strhup hheld.symm h.defer
        have hflush := hkeep.lisHeadFlush alloc mp false fun _ _ _ =>
          ⟨fun hc => (by cases hc),fun hc => absurd hc (by rw [(Bool.or_eq_false_iff.mp hopen).2]; decide)⟩
        have hproc : (s.hd.getRput (alloc mp) mp l).lisProcessRput so alloc mp =
            ((s.hd.getRput (alloc mp) mp l).lisHeadFlush alloc mp false).getD (s.hd.getRput (alloc mp) mp l) := by
          have hq : queued M_FLUSH = false := by decide
          have hsig : (M_FLUSH == M_SIG) = false := by decide
          have herr : M_FLUSH ≠ M_ERROR := by decide
          have hhup : M_FLUSH ≠ M_HANGUP := by decide
          simp only [Stdata.lisProcessRput,Stdata.processMsg,hopen,ht,hq,hsig,herr,hhup,Bool.and_false,
            Bool.false_eq_true,if_false,if_true]
        rw [if_pos ht,hproc]
        exact hflush
      · have hb : isPassfp mp = true → mp.bBand = 0 := fun hp =>
          (h.whole mp (by rw [hheld,if_pos hp]; simp)).1
        obtain ⟨hq,hdef⟩ := lisProcessRput_passfps _ so alloc hopen hb ht
        have hrput : ((s.hd.getRput (alloc mp) mp l).lisProcessRput so alloc mp).sdRput = l :=
          Stdata.lisProcessRput_rput
        rw [if_neg ht]
        refine h.keep _ s.peer s.strhup ?_ (hdef.trans h.defer)
        rw [hq,hrput,hheld,List.append_assoc,← passfps_append,List.singleton_append,passfps_cons]
        rfl

theorem flushAll_selects (l : List Msg) : ListQueue.spared (-1) true l = [] := by
  unfold ListQueue.spared
  rw [List.filter_eq_nil_iff]
  intro mp _
  simp [flushes]

theorem Inv.detach (h : Inv s) (alloc : Msg → Bool) : Inv { s.flushQueue (-1) true with
    hd := { s.hd with sdRq := (s.hd.sdRq.lisFlushq alloc true s.hd.back).1 } } := by
  have hb : ∀ x ∈ passfps s.hd.sdRq.msgs, x.bBand = 0 := fun x hx => (h.whole x (List.mem_append_left _ hx)).1
  refine h.flushQueue _ _ true (fun _ => by rw [flushAll_selects]; rfl) ?_ rfl (flushWorker_defer ..)
  exact flushWorker_passfps alloc _ true _ h.defer hb

theorem Inv.freeStdata (h : Inv s) (hm : s.hd.sdRq.msgs = []) (hr : passfps s.hd.sdRput = []) :
    Inv { s.freeAll s.hd.sdRput with hd := { s.hd with sdRput := [] }, alive := false } := by
  have hheld : s.held = [] := by
    show passfps s.hd.sdRq.msgs ++ passfps s.hd.sdRput = []
    rw [hm,hr]
    rfl
  have hnil : passfps s.hd.sdRq.msgs ++ passfps [] = [] := by
    rw [hm]
    rfl
  rw [freeAll_none hr]
  have hk := h.keep { s.hd with sdRput := [] } s.peer s.strhup (hnil.trans hheld.symm) h.defer
  exact ⟨⟨hk.acc.count,hk.acc.refs,hk.acc.once,hk.acc.msgs,fun _ => hnil,hk.acc.order⟩,hk.order,hk.whole,hk.type,
    hk.defer⟩

theorem Inv.tq (h : Inv s) : Inv s.lisTqFreePassfp := by
  unfold Pass.lisTqFreePassfp
  split
  · exact h
  · next mp l hl =>
    obtain ⟨⟨hcount,hrefs,hnd,hmsgs,hgone,hord⟩,horder,hwhole,htype,hdef⟩ := h
    rw [hl] at hrefs hmsgs htype
    have hp : isPassfp mp = true := htype mp (List.mem_cons_self ..)
    unfold freemsg
    rw [if_pos hp]
    refine ⟨⟨hcount,?_,hnd,?_,hgone,hord⟩,horder,hwhole,fun x hx => htype x (List.mem_cons_of_mem _ hx),hdef⟩
    · refine hrefs.trans ?_
      show (s.installed ++ s.released ++ (s.held ++ mp :: l).flatMap s.refs).Perm
        (s.installed ++ (s.released ++ s.refs mp) ++ (s.held ++ l).flatMap s.refs)
      rw [List.append_assoc,List.append_assoc,List.append_assoc]
      refine ((List.perm_middle.flatMap_right _).append_left _).append_left _
    · refine hmsgs.trans ?_
      show (s.freed ++ (s.held ++ mp :: l).map Msg.addr).Perm (s.freed ++ [mp.addr] ++ (s.held ++ l).map Msg.addr)
      rw [List.append_assoc]
      exact (List.perm_middle.map _).append_left _

/- The references that a send has taken are all released and its message is freed. -/
theorem Inv.failed (h : Inv s) {addr : ℕ} (ha : addr ∉ s.made) (r k : List Ref) (hr : r.Perm k) :
    Inv { s with
      made := s.made ++ [addr], freed := s.freed ++ [addr], taken := s.taken ++ r, released := s.released ++ k } := by
  obtain ⟨⟨hcount,hrefs,hnd,hmsgs,hgone,hord⟩,horder,hwhole,htype,hdef⟩ := h
  refine ⟨⟨hcount,?_,?_,?_,hgone,hord⟩,horder,hwhole,htype,hdef⟩
  · show (s.taken ++ r).Perm (s.installed ++ (s.released ++ k) ++ (s.held ++ s.freePassfp).flatMap s.refs)
    refine (hrefs.append hr).trans ?_
    rw [List.append_assoc,List.append_assoc,List.append_assoc,List.append_assoc]
    exact (List.perm_append_comm.append_left _).append_left _
  · exact List.nodup_append_comm.mp (List.nodup_cons.mpr ⟨ha,hnd⟩)
  · show (s.made ++ [addr]).Perm (s.freed ++ [addr] ++ (s.held ++ s.freePassfp).map Msg.addr)
    refine (hmsgs.append_right _).trans ?_
    rw [List.append_assoc,List.append_assoc]
    exact List.perm_append_comm.append_left _

theorem held_made (h : Inv s) (hm : mp ∈ s.held ++ s.freePassfp) : mp.addr ∈ s.made :=
  h.acc.msgs.mem_iff.mpr (List.mem_append_right _ (List.mem_map_of_mem hm))

/- The message is put, and carries a reference. -/
theorem Inv.delivered (h : Inv s) {addr : ℕ} (ha : addr ∉ s.made) (alloc : Msg → Bool) (c : Strrecvfd) (r k : List Ref)
    (hr : r.Perm (k ++ refsOf addr c)) (hoff : s.hd.sdRq.core.qFlag.qprocsoff = false)
    (hcnt : s.sdRfdcnt.toNat + 1 < 2 ^ 16) (hal : s.alive = true) :
    Inv { s with
      made := s.made ++ [addr], taken := s.taken ++ r, released := s.released ++ k
      cells := Function.update s.cells addr (some c), sdRfdcnt := s.sdRfdcnt + 1
      hd := s.hd.lisStrrput alloc (message addr), sent := s.sent ++ [addr] } := by
  have hput : s.hd.lisStrrput alloc (message addr) = s.hd.lisPutRputQ (alloc (message addr)) (message addr) := by
    unfold Stdata.lisStrrput
    rw [if_neg (by rw [hoff]; decide)]
    rfl
  have hheld : passfps (s.hd.lisPutRputQ (alloc (message addr)) (message addr)).sdRq.msgs ++
      passfps (s.hd.lisPutRputQ (alloc (message addr)) (message addr)).sdRput = s.held ++ [message addr] := by
    show passfps s.hd.sdRq.msgs ++ passfps (s.hd.sdRput ++ [message addr]) = _
    rw [passfps_append,← List.append_assoc]
    rfl
  have hother : ∀ x ∈ s.held ++ s.freePassfp, Function.update s.cells addr (some c) x.addr = s.cells x.addr := by
    intro x hx
    have hne : x.addr ≠ addr := fun he => ha (he ▸ held_made h hx)
    exact Function.update_of_ne hne _ _
  rw [hput]
  obtain ⟨⟨hcount,hrefs,hnd,hmsgs,hgone,hord⟩,horder,hwhole,htype,hdef⟩ := h
  have hsent : (s.received ++ (s.held ++ [message addr]).map Msg.addr).Sublist (s.sent ++ [addr]) := by
    rw [List.map_append,← List.append_assoc]
    exact horder.append_right _
  have hall : (s.held ++ [message addr] ++ s.freePassfp).Perm (s.held ++ s.freePassfp ++ [message addr]) := by
    rw [List.append_assoc,List.append_assoc]
    exact List.perm_append_comm.append_left _
  let t : Pass := { s with
      made := s.made ++ [addr], taken := s.taken ++ r, released := s.released ++ k
      cells := Function.update s.cells addr (some c), sdRfdcnt := s.sdRfdcnt + 1
      hd := s.hd.lisPutRputQ (alloc (message addr)) (message addr), sent := s.sent ++ [addr] }
  have ht : t.held = s.held ++ [message addr] := hheld
  have hsame : (s.held ++ s.freePassfp).flatMap t.refs = (s.held ++ s.freePassfp).flatMap s.refs := by
    refine List.flatMap_congr fun x hx => ?_
    have hcell : t.cells x.addr = s.cells x.addr := hother x hx
    unfold refs
    rw [hcell]
  have hnew : t.refs (message addr) = refsOf addr c := by
    have hcell : t.cells (message addr).addr = some c := Function.update_self ..
    unfold refs
    rw [hcell]
    rfl
  have hcarried : (s.held ++ s.freePassfp ++ [message addr]).flatMap t.refs =
      (s.held ++ s.freePassfp).flatMap s.refs ++ refsOf addr c := by
    rw [List.flatMap_append,hsame,List.flatMap_singleton,hnew]
  show Inv t
  refine ⟨⟨?_,?_,?_,?_,fun hn => ?_,?_⟩,?_,?_,htype,hdef⟩
  · show (s.sdRfdcnt + 1).toNat = t.held.length
    rw [ht,List.length_append,BitVec.toNat_add,← hcount]
    exact Nat.mod_eq_of_lt hcnt
  · rw [ht]
    refine (hrefs.append hr).trans ?_
    refine List.Perm.trans ?_ ((hall.symm.flatMap_right t.refs).append_left (t.installed ++ t.released))
    show List.Perm _ (s.installed ++ (s.released ++ k) ++ (s.held ++ s.freePassfp ++ [message addr]).flatMap t.refs)
    rw [hcarried]
    simp only [List.append_assoc]
    refine List.Perm.append_left _ (List.Perm.append_left _ ?_)
    rw [← List.append_assoc,← List.append_assoc]
    exact List.perm_append_comm.append_right _
  · exact List.nodup_append_comm.mp (List.nodup_cons.mpr ⟨ha,hnd⟩)
  · rw [ht]
    refine List.Perm.trans ?_ ((hall.symm.map Msg.addr).append_left s.freed)
    rw [List.map_append,← List.append_assoc]
    exact hmsgs.append_right _
  · exact absurd hn (by rw [hal]; decide)
  · exact (List.sublist_append_left _ _).trans hsent
  · rw [ht]
    exact hsent
  · rw [ht]
    intro x hx
    rcases List.mem_append.mp hx with hx | hx
    · exact hwhole x hx
    · rw [List.mem_singleton.mp hx]
      exact ⟨rfl,rfl⟩

theorem Inv.sendfd (h : Inv s) (alloc : Msg → Bool) (a : Send) (ha : a.addr ∉ s.made) (hc : SendAllowed s a) :
    Inv (s.lisSendfd alloc a).1 := by
  by_cases h1 : (!s.peer || !s.alive || s.strhup) = true
  · rw [lisSendfd,if_pos h1]
    exact h
  by_cases h2 : (!a.allocb) = true
  · rw [lisSendfd,if_neg h1,if_pos h2]
    exact h
  rw [lisSendfd,if_neg h1,if_neg h2]
  simp only [Bool.or_eq_true,Bool.not_eq_true',not_or,Bool.not_eq_false] at h1 h2
  obtain ⟨⟨hpeer,hal⟩,hhup⟩ := h1
  have hhup0 : s.strhup = false := by simpa using hhup
  cases hfp : a.fp.orElse fun _ => a.fget with
  | none =>
    have hf := h.failed ha [] [] .rfl
    simpa only [List.append_nil] using hf
  | some fp =>
    obtain ⟨hown,hsend⟩ := hc ⟨hpeer,hal,hhup0,h2,by rw [hfp]; rfl⟩
    cases ho : a.own with
    | false =>
      obtain ⟨hlock,hoff,hcnt⟩ := hsend fun hx => absurd hx (by rw [ho]; decide)
      have hd := h.delivered ha alloc ⟨fp,a.uid,a.gid,none⟩ [Ref.sent a.addr fp] [] .rfl hoff hcnt hal
      simp only [List.append_nil] at hd
      simpa only [Bool.false_eq_true,if_false,deliver,hlock,hoff,if_true] using hd
    | true =>
      obtain ⟨dfp,hdfp⟩ := Option.isSome_iff_exists.mp (hown ho)
      rw [hdfp]
      cases hdn : a.dentry with
      | false =>
        have hf := h.failed ha [Ref.sent a.addr fp,Ref.copy a.addr dfp] [Ref.copy a.addr dfp,Ref.sent a.addr fp]
          (.swap ..)
        simpa only [if_true,Bool.not_false,List.append_assoc,List.cons_append,List.nil_append] using hf
      | true =>
        obtain ⟨hlock,hoff,hcnt⟩ := hsend fun _ => hdn
        have hd := h.delivered ha alloc ⟨dfp,a.uid,a.gid,some fp⟩ [Ref.sent a.addr fp,Ref.copy a.addr dfp]
          [Ref.sent a.addr fp] .rfl hoff hcnt hal
        simpa only [if_true,Bool.not_true,Bool.false_eq_true,if_false,deliver,hlock,hoff,List.append_assoc,
          List.cons_append,List.nil_append] using hd

theorem lisGetq_cons (alloc : Msg → Bool) (hs : hd.sdRq.core.qFlag.shut = false) (hl : hd.sdRq.msgs = mp :: l) :
    (hd.lisGetq alloc).sdRq.msgs = l ∧ (hd.lisGetq alloc).sdRq.defer = hd.sdRq.defer := by
  have hf : hd.sdRq.rmvFirst alloc = hd.sdRq.rmvMsg alloc [] mp l := by simp [ListQueue.rmvFirst,hl]
  unfold Stdata.lisGetq ListQueue.lisGetq
  rw [if_neg (by rw [hs]; decide),hf]
  exact ⟨rfl,rfl⟩

theorem lisGetq_none (alloc : Msg → Bool) (h : hd.sdRq.core.qFlag.shut = true ∨ hd.sdRq.msgs = []) :
    (hd.lisGetq alloc).sdRq.msgs = hd.sdRq.msgs ∧ (hd.lisGetq alloc).sdRq.defer = hd.sdRq.defer := by
  unfold Stdata.lisGetq ListQueue.lisGetq
  split_ifs with hs
  · exact ⟨rfl,rfl⟩
  · have hf : hd.sdRq.rmvFirst alloc = hd.sdRq.rmvNone := by simp [ListQueue.rmvFirst,h.resolve_left hs]
    rw [hf]
    exact ⟨rfl,rfl⟩

/- The first message was received, and its reference became `i`, `r`, with `g` taken for it. -/
theorem Inv.received (h : Inv s) (hd : Stdata) (g i r : List Ref) (hm : s.hd.sdRq.msgs = mp :: l)
    (hp : isPassfp mp = true) (hq : hd.sdRq.msgs = l) (hrput : hd.sdRput = s.hd.sdRput) (hdef : hd.sdRq.defer = [])
    (hr : (g ++ s.refs mp).Perm (i ++ r)) :
    Inv { s with
      hd := hd, sdRfdcnt := s.sdRfdcnt - 1, taken := s.taken ++ g, installed := s.installed ++ i
      released := s.released ++ r, received := s.received ++ [mp.addr], freed := s.freed ++ [mp.addr] } := by
  obtain ⟨⟨hcount,hrefs,hnd,hmsgs,hgone,-⟩,horder,hwhole,htype,-⟩ := h
  have hheld : s.held = mp :: (passfps l ++ passfps s.hd.sdRput) := by
    show passfps s.hd.sdRq.msgs ++ passfps s.hd.sdRput = _
    rw [hm,passfps_cons,if_pos hp]
    rfl
  have hnew : passfps hd.sdRq.msgs ++ passfps hd.sdRput = passfps l ++ passfps s.hd.sdRput := by rw [hq,hrput]
  let t : Pass := { s with
      hd := hd, sdRfdcnt := s.sdRfdcnt - 1, taken := s.taken ++ g, installed := s.installed ++ i
      released := s.released ++ r, received := s.received ++ [mp.addr], freed := s.freed ++ [mp.addr] }
  have ht : s.held = mp :: t.held := hheld.trans (congrArg _ hnew.symm)
  rw [ht] at hcount hrefs hmsgs horder hwhole
  have hsent : (t.received ++ t.held.map Msg.addr).Sublist s.sent := by
    show ((s.received ++ [mp.addr]) ++ t.held.map Msg.addr).Sublist s.sent
    rw [List.append_assoc]
    exact horder
  show Inv t
  refine ⟨⟨?_,?_,hnd,?_,fun hn => ?_,(List.sublist_append_left _ _).trans hsent⟩,hsent,
    fun x hx => hwhole x (List.mem_cons_of_mem _ hx),htype,hdef⟩
  · show (s.sdRfdcnt - 1).toNat = t.held.length
    have hlt := s.sdRfdcnt.isLt
    have hone : (1 : BitVec 16).toNat = 1 := rfl
    rw [List.length_cons] at hcount
    rw [BitVec.toNat_sub,hone]
    omega
  · show (s.taken ++ g).Perm (s.installed ++ i ++ (s.released ++ r) ++ (t.held ++ s.freePassfp).flatMap s.refs)
    refine (hrefs.append_right g).trans ?_
    show ((s.installed ++ s.released ++ (s.refs mp ++ (t.held ++ s.freePassfp).flatMap s.refs)) ++ g).Perm _
    rw [List.perm_iff_count]
    intro x
    have hone := hr.count_eq x
    simp only [List.count_append] at hone ⊢
    omega
  · show s.made.Perm (s.freed ++ [mp.addr] ++ (t.held ++ s.freePassfp).map Msg.addr)
    rw [List.append_assoc]
    exact hmsgs
  · have hnil : s.held = [] := hgone hn
    rw [ht] at hnil
    cases hnil

theorem Inv.putbqf (h : Inv s) (hd : Stdata) (alloc : Msg → Bool) (hm : s.hd.sdRq.msgs = mp :: l)
    (hp : isPassfp mp = false) (hq : hd.sdRq.msgs = l) (hrput : hd.sdRput = s.hd.sdRput) (hdef : hd.sdRq.defer = []) :
    Inv ({ s with hd := hd }.putbqf alloc mp) := by
  have hheld : passfps l ++ passfps s.hd.sdRput = s.held := by
    show _ = passfps s.hd.sdRq.msgs ++ passfps s.hd.sdRput
    rw [hm,passfps_cons,hp]
    rfl
  unfold Pass.putbqf
  split_ifs with hs
  · have hfree : { s with hd := hd }.freemsg mp = { s with hd := hd } := if_neg (by rw [hp]; decide)
    rw [hfree]
    exact h.keep hd s.peer s.strhup (by rw [hq,hrput,hheld]) hdef
  · refine h.keep _ s.peer s.strhup ?_ ?_
    · show passfps (hd.sdRq.lisPutbq alloc mp).msgs ++ passfps hd.sdRput = s.held
      rw [lisPutbq_passfps alloc hp,hq,hrput,hheld]
    · show (hd.sdRq.lisPutbq alloc mp).defer = []
      unfold ListQueue.lisPutbq
      split_ifs <;> exact hdef

theorem Inv.recvfd (h : Inv s) (alloc : Msg → Bool) (fd : Bool) (fp : ℕ)
    (hc : s.alive = true → s.hd.sdRq.core.qFlag.shut = false →
      (s.hd.sdRq.msgs.head?.any isPassfp) = true → fd = true) : Inv (s.lisRecvfd alloc fd fp).1 := by
  unfold lisRecvfd
  by_cases h1 : (!s.alive) = true
  · rw [if_pos h1]
    exact h
  rw [if_neg h1]
  have hal : s.alive = true := by simpa using h1
  by_cases hs : s.hd.sdRq.core.qFlag.shut = true
  · obtain ⟨hm,hdef⟩ := lisGetq_none alloc (.inl hs)
    simp only [hs,if_true]
    exact h.keep _ s.peer s.strhup (by rw [hm]; rfl) (hdef.trans h.defer)
  have hs0 : s.hd.sdRq.core.qFlag.shut = false := by simpa using hs
  simp only [hs0,Bool.false_eq_true,if_false]
  cases hm : s.hd.sdRq.msgs with
  | nil =>
    obtain ⟨hm1,hdef⟩ := lisGetq_none alloc (.inr hm)
    exact h.keep _ s.peer s.strhup (by rw [hm1]; rfl) (hdef.trans h.defer)
  | cons mp l =>
    obtain ⟨hq,hdef⟩ := lisGetq_cons alloc hs0 hm
    simp only [List.head?_cons]
    cases hp : isPassfp mp with
    | false => exact h.putbqf _ alloc hm hp hq rfl (hdef.trans h.defer)
    | true =>
      have hw : short mp = false := by
        refine (h.whole mp (List.mem_append_left _ ?_)).2
        rw [hm]
        exact mem_passfps.mpr ⟨List.mem_cons_self ..,hp⟩
      have hfd : fd = true := hc hal hs0 (by rw [hm]; exact hp)
      simp only [hw,hfd,Bool.not_true,Bool.false_eq_true,if_false]
      by_cases hown : (s.cells mp.addr).bind Strrecvfd.rfp = some fp
      · have hr := h.received (s.hd.lisGetq alloc) [Ref.again mp.addr fp] [Ref.again mp.addr fp] (s.refs mp) hm hp hq rfl
          (hdef.trans h.defer) .rfl
        simp only [freemsg,hp,hown,if_true]
        exact hr
      · have hr := h.received (s.hd.lisGetq alloc) [] (s.refs mp) [] hm hp hq rfl (hdef.trans h.defer) (by simp)
        simp only [List.append_nil] at hr
        simp only [freemsg,hp,hown,if_false,if_true]
        exact hr

theorem inv_step (a : Act) (h : Inv s) (hc : Allowed s a) (hs : step s a = some t) : Inv t := by
  cases a with
  | sendfd alloc a =>
    simp only [step] at hs
    split_ifs at hs with ha
    exact Option.some.inj hs ▸ h.sendfd alloc a ha hc
  | recvfd alloc fd fp => exact Option.some.inj hs ▸ h.recvfd alloc fd fp hc
  | arrive alloc mp => exact Option.some.inj hs ▸ h.arrive alloc hc.1 hc.2
  | service so alloc => exact Option.some.inj hs ▸ h.service so alloc
  | tq => exact Option.some.inj hs ▸ h.tq
  | closeSender => exact Option.some.inj hs ▸ h.keep s.hd false s.strhup rfl h.defer
  | close => exact Option.some.inj hs ▸ h.keep _ false true rfl h.defer
  | markClosing =>
    simp only [step] at hs
    split_ifs at hs
    exact Option.some.inj hs ▸ h.keep _ s.peer s.strhup rfl h.defer
  | procsOff =>
    simp only [step] at hs
    split_ifs at hs
    exact Option.some.inj hs ▸ h.keep _ s.peer s.strhup rfl h.defer
  | detach alloc =>
    simp only [step] at hs
    split_ifs at hs
    exact Option.some.inj hs ▸ h.detach alloc
  | freeStdata =>
    simp only [step] at hs
    split_ifs at hs with hf
    exact Option.some.inj hs ▸ h.freeStdata hf.2 (hc hf.1)

/- In a run of allowed steps the account holds in every state. -/
theorem passed_accounted (qFlag : Qflag) (qHiwat qLowat : Ulong) (wq : ListQueue) (sdErr : Errors) (back : List BackQ)
    (as : List Act) (hm : Meets step Allowed (start qFlag qHiwat qLowat wq sdErr back) as)
    (h : exec step (start qFlag qHiwat qLowat wq sdErr back) as = some t) : Accounted t := by
  have hstart : Inv (start qFlag qHiwat qLowat wq sdErr back) :=
    ⟨⟨rfl,.nil,.nil,.nil,fun _ => rfl,.slnil⟩,.slnil,fun _ hx => absurd hx List.not_mem_nil,
      fun _ hx => absurd hx List.not_mem_nil,rfl⟩
  exact (exec_preserves (fun _ a _ hI hc hs => inv_step a hI hc hs) hstart hm h).acc

/- A send, its passage to the read queue, a receive. -/
def letter : Send := ⟨0,none,some 7,true,false,none,false,0,0,0⟩
def pipe : Pass := start {} 8 4 (ListQueue.empty {} 8 4 true) ⟨0,0,false,false⟩ []
def trip (fd : Bool) : List Act :=
  [.sendfd (fun _ => true) letter,.service (fun _ => ⟨none,none,none⟩) (fun _ => true),.recvfd (fun _ => true) fd 9]

theorem passed_accounted_trip : ∃ t, exec step pipe (trip true) = some t ∧ Accounted t := by
  obtain ⟨t,ht⟩ : ∃ t, exec step pipe (trip true) = some t := ⟨_,rfl⟩
  refine ⟨t,ht,passed_accounted {} 8 4 (ListQueue.empty {} 8 4 true) ⟨0,0,false,false⟩ [] (trip true) ?_ ht⟩
  have hsend : SendAllowed pipe letter := fun _ => ⟨fun hc => absurd hc (by decide),fun _ => ⟨rfl,rfl,by decide⟩⟩
  exact ⟨hsend,fun _ _ => ⟨trivial,fun _ _ => ⟨fun _ _ _ => rfl,fun _ _ => trivial⟩⟩⟩

/- Without a descriptor the message is put back and not counted. -/
theorem held_uncounted : ¬ ∀ (qFlag : Qflag) (qHiwat qLowat : Ulong) (wq : ListQueue) (sdErr : Errors)
    (back : List BackQ) (as : List Act) (t : Pass),
    exec step (start qFlag qHiwat qLowat wq sdErr back) as = some t → Accounted t := by
  intro h
  have hc := (h {} 8 4 (ListQueue.empty {} 8 4 true) ⟨0,0,false,false⟩ [] (trip false) _ rfl).count
  exact absurd hc (by decide +kernel)

end CSLiS.Head.Pass
