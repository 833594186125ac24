import CSLiS.Buffer.Ownership
import CSLiS.Lib.Exec

/-!
# Runs of the message block routines (head/msg.c, head/msgutl.c)

Callers allocate, duplicate, pull up and free messages in any order. Each routine
is a list of steps on single blocks; as long as no count runs over, and no last
reference to a buffer is given up while the header of its data block lives on,
every buffer and every header goes back once, at the right time.
-/

namespace CSLiS.Buffer
open Queue Lib.Refs Lib.Exec

namespace Mem

variable {s t : Mem} {x b d n : ℕ} {mp rest rtn blks : List ℕ} {length : ℤ}

inductive MemAct
  | allocb (size : ℕ) (hdr buf : Bool)
  | esballoc (size : ℕ) (hdr : Bool)
  | dupb (mp : ℕ) (hdr : Bool)
  | freeb (bp : ℕ)
  | setPtrs (bp : ℕ) (r w : ℤ)
  | setType (bp : ℕ) (t : Uchar)
  | copyBlk (newbp bp : ℕ) (length : ℤ)
  | swap (mp newbp : ℕ)

def step (s : Mem) : MemAct → Option Mem
  | .allocb size hdr buf => some (s.lisAllocb size hdr buf).1
  | .esballoc size hdr => some (s.lisEsballoc size hdr).1
  | .dupb mp hdr => if mp ∈ s.live then some (s.lisDupb mp hdr).1 else none
  | .freeb bp => if bp ∈ s.live then some (s.lisFreeb bp) else none
  | .setPtrs bp r w => if bp ∈ s.live then some (s.setPtrs bp r w) else none
  | .setType bp t => if bp ∈ s.live then some (s.setType bp t) else none
  | .copyBlk newbp bp length =>
      if newbp ∈ s.live ∧ bp ∈ s.live then some (s.copyBlk newbp bp length).1 else none
  | .swap mp newbp =>
      if mp ∈ s.live ∧ newbp ∈ s.live ∧ newbp ≠ mp ∧ s.datap newbp = some newbp then
        some (s.swap mp newbp) else none

def Guard (s : Mem) : MemAct → Prop
  | .dupb mp hdr => hdr = true → ∀ d ∈ s.datap mp, s.ref d ≠ 255
  | .freeb bp => s.LastRef bp
  | .swap mp _ => s.LastRef mp
  | _ => True

instance : Decidable (s.Plain x) := inferInstanceAs (Decidable (_ ∧ _))
instance : Decidable (s.LastRef b) := by
  unfold LastRef
  infer_instance
instance : ∀ a, Decidable (Guard s a)
  | .allocb .. | .esballoc .. | .setPtrs .. | .setType .. | .copyBlk .. => inferInstanceAs (Decidable True)
  | .dupb mp hdr => inferInstanceAs (Decidable (hdr = true → ∀ d ∈ s.datap mp, s.ref d ≠ 255))
  | .freeb bp => inferInstanceAs (Decidable (s.LastRef bp))
  | .swap mp _ => inferInstanceAs (Decidable (s.LastRef mp))

theorem setPtrs_frame (r w : ℤ) : Frame s (s.setPtrs b r w) := by
  refine ⟨rfl,rfl,rfl,rfl,rfl,funext fun x => ?_,fun x => ?_,funext fun x => ?_,fun x => ?_⟩ <;>
    simp only [Mem.datap,Mem.ref,SameBuf,setPtrs,upd_mdb] <;> split_ifs <;> simp_all

theorem setType_frame (ty : Uchar) : Frame s (s.setType b ty) := by
  unfold setType
  cases (s.mdb b).bDatap with
  | none => exact ⟨rfl,rfl,rfl,rfl,rfl,rfl,fun _ => rfl,rfl,fun _ => ⟨rfl,rfl,rfl⟩⟩
  | some d =>
    refine ⟨rfl,rfl,rfl,rfl,rfl,funext fun x => ?_,fun x => ?_,funext fun x => ?_,fun x => ?_⟩ <;>
      simp only [Option.elim_some,Mem.datap,Mem.ref,SameBuf,upd_mdb] <;> split_ifs <;> simp_all

theorem Frame.trans {u : Mem} (h : Frame s t) (h' : Frame t u) : Frame s u :=
  ⟨h'.live.trans h.live,h'.next.trans h.next,h'.external.trans h.external,h'.freed.trans h.freed,
    h'.released.trans h.released,h'.datap.trans h.datap,fun x => (h'.buf x).trans (h.buf x),
    h'.ref.trans h.ref,fun x => ⟨(h'.same x).1.trans (h.same x).1,(h'.same x).2.1.trans (h.same x).2.1,
      (h'.same x).2.2.trans (h.same x).2.2⟩⟩

theorem copyBlk_frame : Frame s (s.copyBlk n b length).1 := by
  unfold copyBlk
  split_ifs
  · exact (setPtrs_frame _ _).trans (setPtrs_frame _ _)
  · exact ⟨rfl,rfl,rfl,rfl,rfl,rfl,fun _ => rfl,rfl,fun _ => ⟨rfl,rfl,rfl⟩⟩

/- `lis_allocb` has a header and no buffer. -/
theorem freehdr_headers (hh : s.Headers) : ({ s with next := s.next + 1 }.freehdr s.next).Headers := by
  have hfresh : s.next ∉ s.live := fun hm => lt_irrefl _ (hh.lt _ hm)
  have hold : s.next ∉ s.freed := fun h => lt_irrefl _ ((hh.freed _).mp h).1
  refine ⟨hh.nodup,fun x hx => Nat.lt_succ_of_lt (hh.lt x hx),fun x hx => ?_,fun x hlt hnf => ?_,fun x => ?_,?_⟩
  · obtain ⟨e,hlt,he⟩ := hh.datap x hx
    exact ⟨e,Nat.lt_succ_of_lt hlt,he⟩
  · simp only [freehdr,List.mem_append,List.mem_singleton,not_or] at hlt hnf
    exact hh.ref x (by omega) hnf.1
  · simp only [freehdr,List.mem_append,List.mem_singleton,hh.freed]
    constructor
    · rintro (h | rfl)
      · exact ⟨Nat.lt_succ_of_lt h.1,h.2⟩
      · exact ⟨Nat.lt_succ_self _,hfresh,hh.users_next⟩
    · rintro ⟨hlt,hl,hu⟩
      by_cases hx : x = s.next
      · exact .inr hx
      · exact .inl ⟨by omega,hl,hu⟩
  · exact List.Nodup.append hh.freedNodup (List.nodup_singleton _) (by simpa using hold)

theorem freehdr_buffers (hb : s.Buffers) : ({ s with next := s.next + 1 }.freehdr s.next).Buffers :=
  ⟨fun x hx => Nat.lt_succ_of_lt (hb.lt x hx),hb.released,hb.releasedNodup,hb.holding,hb.plain⟩

/- No duplicate is made of a block whose data block has 255 references. -/
def Uncrowded (s : Mem) : MemAct → Prop
  | .dupb mp hdr => hdr = true → ∀ d ∈ s.datap mp, s.ref d ≠ 255
  | _ => True

instance : ∀ a, Decidable (Uncrowded s a)
  | .dupb mp hdr => inferInstanceAs (Decidable (hdr = true → ∀ d ∈ s.datap mp, s.ref d ≠ 255))
  | .allocb .. | .esballoc .. | .setPtrs .. | .setType .. | .copyBlk .. | .freeb .. | .swap .. =>
      inferInstanceAs (Decidable True)

/- What a step is to the counts and buffers: nothing, a header that came and went, a new block, a duplicate, or one
reference less. -/
inductive Effect (s t : Mem) (a : MemAct) : Prop
  | frame (h : Frame s t)
  | spare (h : t = { s with next := s.next + 1 }.freehdr s.next)
  | grow (separate : Bool) (h : Grow s t s.next separate)
  | dup (d : ℕ) (hpos : 0 < s.users d) (hg : Uncrowded s a → s.ref d ≠ 255) (h : Grow s t d false)
  | drop (b d : ℕ) (hm : b ∈ s.live) (hd : s.datap b = some d) (hg : Guard s a → s.LastRef b) (h : Drop s t b d)
  | swap (b d n : ℕ) (hm : b ∈ s.live) (hd : s.datap b = some d) (hn : n ∈ s.live) (hnd : s.datap n = some n)
      (hne : n ≠ b) (hg : Guard s a → s.LastRef b) (h : Swap s t b d n)

theorem frame_refl : Frame s s := ⟨rfl,rfl,rfl,rfl,rfl,rfl,fun _ => rfl,rfl,fun _ => ⟨rfl,rfl,rfl⟩⟩

theorem step_effect {a : MemAct} (hh : s.Headers) (he : ∀ x, 0 < s.users x → x ∈ s.external → s.Holding x)
    (hp : ∀ x, 0 < s.users x → x ∉ s.external → s.Plain x) (hs : step s a = some t) : Effect s t a := by
  cases a with
  | allocb size hdr buf =>
    simp only [step,lisAllocb,Option.some.injEq] at hs
    cases hdr with
    | false => exact hs ▸ .frame frame_refl
    | true =>
      by_cases hf : FASTBUF < size ∧ buf = false
      · simp only [Bool.not_true,Bool.false_eq_true,if_false,hf,decide_true,Bool.not_false,Bool.and_self,
          if_true] at hs
        exact .spare hs.symm
      · have ht : t = s.initb (decide (FASTBUF < size)) size false := by
          rw [← hs]
          have : (decide (FASTBUF < size) && !buf) = false := by
            cases buf <;> simp_all
          simp [this]
        exact .grow _ (ht ▸ initb_grow (decide (FASTBUF < size)) size false (fun h => .inr (of_decide_eq_true h))
          Bool.noConfusion)
  | esballoc size hdr =>
    simp only [step,lisEsballoc,Option.some.injEq] at hs
    cases hdr with
    | false => exact hs ▸ .frame frame_refl
    | true => exact hs ▸ .grow true (initb_grow true size true (fun _ => .inl rfl) (fun _ => rfl))
  | dupb mp hdr =>
    simp only [step,Option.ite_none_right_eq_some,Option.some.injEq] at hs
    obtain ⟨hm,hs⟩ := hs
    cases hdr with
    | false => exact hs ▸ .frame frame_refl
    | true =>
      obtain ⟨d,hlt,hd,hbuf⟩ := hh.datap mp hm
      have hne : mp ≠ s.next := (hh.lt mp hm).ne
      exact hs ▸ .dup d (users_pos hm hd) (fun hg => hg rfl d hd) (lisDupb_grow hd hbuf hne hlt.ne).1
  | freeb bp =>
    simp only [step,Option.ite_none_right_eq_some,Option.some.injEq] at hs
    obtain ⟨hm,hs⟩ := hs
    obtain ⟨d,-,hd,-⟩ := hh.datap bp hm
    have hpos := users_pos hm hd
    have hr := hh.ref_ne hm hd
    exact hs ▸ .drop bp d hm hd id (lisFreeb_drop hd hr.1 hr.2 (fun _ => he d hpos) (fun _ => hp d hpos))
  | setPtrs bp r w =>
    simp only [step,Option.ite_none_right_eq_some,Option.some.injEq] at hs
    exact hs.2 ▸ .frame (setPtrs_frame r w)
  | setType bp ty =>
    simp only [step,Option.ite_none_right_eq_some,Option.some.injEq] at hs
    exact hs.2 ▸ .frame (setType_frame ty)
  | copyBlk newbp bp length =>
    simp only [step,Option.ite_none_right_eq_some,Option.some.injEq] at hs
    exact hs.2 ▸ .frame copyBlk_frame
  | swap mp newbp =>
    simp only [step,Option.ite_none_right_eq_some,Option.some.injEq] at hs
    obtain ⟨⟨hm,hn,hne,hnd⟩,hs⟩ := hs
    obtain ⟨d,-,hd,-⟩ := hh.datap mp hm
    have hpos := users_pos hm hd
    have hr := hh.ref_ne hm hd
    exact hs ▸ .swap mp d newbp hm hd hn hnd hne id
      (swap_swap hd hnd hne hr.1 hr.2 (fun _ => he d hpos) (fun _ => hp d hpos))

/-- One step that is not the one of either kind that goes wrong. -/
theorem step_kept {a : MemAct} (hh : s.Headers) (hb : s.Buffers) (hg : Guard s a)
    (hs : step s a = some t) : t.Headers ∧ t.Buffers := by
  have hu : Uncrowded s a := by cases a <;> first | exact hg | trivial
  cases step_effect hh hb.holding hb.plain hs with
  | frame h => exact ⟨h.headers hh,h.buffers hb⟩
  | spare h => exact h ▸ ⟨freehdr_headers hh,freehdr_buffers hb⟩
  | grow separate h => exact ⟨h.headers hh (.inl rfl),h.buffers hh hb (.inl rfl)⟩
  | dup d hpos hne h => exact ⟨h.headers hh (.inr ⟨hpos,hne hu⟩),h.buffers hh hb (.inr ⟨hpos,rfl⟩)⟩
  | drop b d hm hd hlast h =>
    exact ⟨h.headers hh hm hd,hh.buffers_lost hb hm hd (hlast hg) (fun _ => h.users hh hm hd)
      h.next h.external h.released h.same⟩
  | swap b d n hm hd hn hnd hne hlast h =>
    exact ⟨h.headers hh hm hd hn hnd hne,hh.buffers_lost hb hm hd (hlast hg)
      (fun _ => h.users hh hm hd hn hnd hne) h.next h.external h.released h.same⟩

/- What callers do with whole messages, and with a block of theirs. -/
inductive MsgAct
  | allocb (size : ℕ) (hdr buf : Bool)
  | esballoc (size : ℕ) (hdr : Bool)
  | dupmsg (mp : List ℕ) (hdr : ℕ → Bool)
  | pullupmsg (mp : ℕ) (rest : List ℕ) (length : ℤ) (aligned hdr buf : Bool)
  | freemsg (mp : List ℕ)
  | setPtrs (bp : ℕ) (r w : ℤ)
  | setType (bp : ℕ) (t : Uchar)

/- A message is a list of distinct blocks that callers have. -/
def IsMsg (s : Mem) (mp : List ℕ) : Prop := mp.Nodup ∧ ∀ b ∈ mp, b ∈ s.live

instance : Decidable (s.IsMsg mp) := inferInstanceAs (Decidable (_ ∧ _))

def call (s : Mem) : MsgAct → Option Mem
  | .allocb size hdr buf => some (s.lisAllocb size hdr buf).1
  | .esballoc size hdr => some (s.lisEsballoc size hdr).1
  | .dupmsg mp hdr => if s.IsMsg mp then some (s.lisDupmsg mp hdr).1 else none
  | .pullupmsg mp rest length aligned hdr buf =>
      if s.IsMsg (mp :: rest) then some (s.lisPullupmsg mp rest length aligned hdr buf).1 else none
  | .freemsg mp => if s.IsMsg mp then some (s.lisFreemsg mp) else none
  | .setPtrs bp r w => if bp ∈ s.live then some (s.setPtrs bp r w) else none
  | .setType bp t => if bp ∈ s.live then some (s.setType bp t) else none

def dupParts (hdr : ℕ → Bool) : Mem → List ℕ → List ℕ → List MemAct
  | _, _, [] => []
  | s, rtn, mp :: rest =>
      .dupb mp (hdr mp) ::
        match s.lisDupb mp (hdr mp) with
        | (_,none) => rtn.map .freeb
        | (s,some bp) => dupParts hdr s (rtn ++ [bp]) rest

def pullParts (newbp : ℕ) : Bool → Mem → ℤ → List ℕ → List MemAct
  | _, _, _, [] => []
  | isFirst, s, length, bp :: rest =>
      if length ≤ 0 || s.dbType bp != s.dbType newbp then []
      else
        let c := s.copyBlk newbp bp length
        .copyBlk newbp bp length ::
          if !isFirst && c.1.nbytes bp == 0 then
            .freeb bp :: pullParts newbp false (c.1.lisFreeb bp) c.2 rest
          else pullParts newbp false c.1 c.2 rest

/- The steps that a call consists of. -/
def parts (s : Mem) : MsgAct → List MemAct
  | .allocb size hdr buf => [.allocb size hdr buf]
  | .esballoc size hdr => [.esballoc size hdr]
  | .dupmsg mp hdr => dupParts hdr s [] mp
  | .pullupmsg mp rest length aligned hdr buf =>
      match s.pullLength mp rest length aligned with
      | .error _ => []
      | .ok length =>
          .allocb (pullSize length) hdr buf ::
            match s.lisAllocb (pullSize length) hdr buf with
            | (_,none) => []
            | (s',some newbp) =>
                .setType newbp (s'.dbType mp) ::
                  (pullParts newbp true (s'.setType newbp (s'.dbType mp)) length (mp :: rest) ++
                    [.swap mp newbp])
  | .freemsg mp => mp.map .freeb
  | .setPtrs bp r w => [.setPtrs bp r w]
  | .setType bp t => [.setType bp t]

theorem lisFreeb_live : (s.lisFreeb b).live = s.live.erase b := rfl

theorem freemsg_parts (hn : mp.Nodup) (hm : ∀ b ∈ mp, b ∈ s.live) :
    exec step s (mp.map .freeb) = some (s.lisFreemsg mp) := by
  induction mp generalizing s with
  | nil => rfl
  | cons b mp ih =>
    obtain ⟨hb,hn⟩ := List.nodup_cons.mp hn
    have hstep : step s (.freeb b) = some (s.lisFreeb b) := if_pos (hm b (List.mem_cons_self ..))
    rw [List.map_cons,exec_cons,hstep]
    refine ih hn fun x hx => ?_
    rw [lisFreeb_live,List.mem_erase_of_ne (show x ≠ b from fun he => hb (he ▸ hx))]
    exact hm x (List.mem_cons_of_mem _ hx)

theorem lisDupb_cases (hdr : Bool) :
    hdr = false ∧ s.lisDupb b hdr = (s,none) ∨
      hdr = true ∧ ∃ t, s.lisDupb b hdr = (t,some s.next) ∧ t.live = s.next :: s.live ∧ t.next = s.next + 1 := by
  cases hdr with
  | false => exact .inl ⟨rfl,rfl⟩
  | true =>
    have hz : ¬FASTBUF < 0 := Nat.not_lt_zero _
    refine .inr ⟨rfl,_,by simp only [lisDupb,lisAllocb,hz,decide_false]; rfl,?_⟩
    cases hd : ((s.initb false 0 false).mdb b).bDatap <;> exact ⟨rfl,rfl⟩

theorem dupLoop_parts {hdr : ℕ → Bool} (hm : ∀ b ∈ mp, b ∈ s.live) (hlt : ∀ b ∈ s.live, b < s.next)
    (hr : s.IsMsg rtn) : exec step s (dupParts hdr s rtn mp) = some (dupLoop hdr s rtn mp).1 := by
  induction mp generalizing s rtn with
  | nil => rfl
  | cons b mp ih =>
    have hstep : step s (.dupb b (hdr b)) = some (s.lisDupb b (hdr b)).1 :=
      if_pos (hm b (List.mem_cons_self ..))
    simp only [dupParts,dupLoop,exec_cons,hstep,Option.bind_some]
    rcases lisDupb_cases (s := s) (b := b) (hdr b) with ⟨-,he⟩ | ⟨-,t,he,hl,hn⟩
    · simp only [he]
      exact freemsg_parts hr.1 hr.2
    · simp only [he]
      refine ih (fun x hx => ?_) (fun x hx => ?_) ⟨?_,fun x hx => ?_⟩
      · exact hl ▸ List.mem_cons_of_mem _ (hm x (List.mem_cons_of_mem _ hx))
      · rw [hl] at hx
        rw [hn]
        rcases List.mem_cons.mp hx with rfl | hx
        · omega
        · exact Nat.lt_succ_of_lt (hlt x hx)
      · refine List.Nodup.append hr.1 (List.nodup_singleton _) ?_
        intro x hx hx'
        have := hlt x (hr.2 x hx)
        simp only [List.mem_singleton] at hx'
        omega
      · rw [hl]
        rcases List.mem_append.mp hx with hx | hx
        · exact List.mem_cons_of_mem _ (hr.2 x hx)
        · exact List.mem_singleton.mp hx ▸ List.mem_cons_self ..

theorem lisFreeb_datap (hx : x ≠ b) : (s.lisFreeb b).datap x = s.datap x := by
  have hrel : ∀ (s : Mem) d, (s.releaseBuf d).datap x = s.datap x := by
    intro s d
    obtain ⟨size,base,rel,he,-⟩ := releaseBuf_eq (s := s) (x := d)
    simp only [he,datap,upd_mdb]
    split_ifs with h
    · rw [h]
    · rfl
  have hinc : ∀ (s : Mem) d, (s.incRef d).datap x = s.datap x := by
    intro s d
    simp only [incRef,datap,upd_mdb]
    split_ifs with h
    · rw [h]
    · rfl
  have hdec : ∀ (s : Mem) d, (s.decRef d).datap x = s.datap x := by
    intro s d
    simp only [decRef,datap,upd_mdb]
    split_ifs with h
    · rw [h]
    · rfl
  have hset : ∀ (s : Mem) d, (s.setDatap b d).datap x = s.datap x := by
    intro s d
    simp only [setDatap,datap,upd_mdb,if_neg hx]
  have hfree : ∀ (s : Mem) d, (s.freehdr d).datap x = s.datap x := fun _ _ => rfl
  show (s.lisFreedb b true).datap x = s.datap x
  unfold lisFreedb
  simp only
  split
  · split_ifs <;> simp only [hfree,hdec]
  · split_ifs <;> simp only [hfree,hdec,hinc,hset,hrel]

theorem copyBlk_live : (s.copyBlk n b length).1.live = s.live := copyBlk_frame.live
theorem copyBlk_datap : (s.copyBlk n b length).1.datap x = s.datap x := congrFun copyBlk_frame.datap x

theorem pullLoop_parts {isFirst : Bool} (hn : blks.Nodup) (hm : ∀ b ∈ blks, b ∈ s.live ∧ b ≠ n)
    (hnew : n ∈ s.live) :
    exec step s (pullParts n isFirst s length blks) = some (pullLoop n isFirst s length blks).1 := by
  induction blks generalizing s length isFirst with
  | nil => rfl
  | cons b blks ih =>
    obtain ⟨hb,hn⟩ := List.nodup_cons.mp hn
    obtain ⟨hbl,hbn⟩ := hm b (List.mem_cons_self ..)
    have hrest := fun x hx => hm x (List.mem_cons_of_mem b hx)
    have hcopy : step s (.copyBlk n b length) = some (s.copyBlk n b length).1 := if_pos ⟨hnew,hbl⟩
    simp only [pullParts,pullLoop]
    split_ifs with h1 h2
    · rfl
    · have hfree : step (s.copyBlk n b length).1 (.freeb b) =
          some ((s.copyBlk n b length).1.lisFreeb b) := if_pos (copyBlk_live.symm ▸ hbl)
      simp only [exec_cons,hcopy,Option.bind_some,hfree]
      refine ih hn (fun x hx => ⟨?_,(hrest x hx).2⟩) ?_
      · rw [lisFreeb_live,copyBlk_live]
        exact (List.mem_erase_of_ne (show x ≠ b from fun he => hb (he ▸ hx))).mpr (hrest x hx).1
      · rw [lisFreeb_live,copyBlk_live]
        exact (List.mem_erase_of_ne hbn.symm).mpr hnew
    · simp only [exec_cons,hcopy,Option.bind_some]
      exact ih hn (fun x hx => copyBlk_live.symm ▸ hrest x hx) (copyBlk_live.symm ▸ hnew)

/- The loop frees no block but those after the first. -/
theorem pullLoop_kept (n : ℕ) (isFirst : Bool) (length : ℤ) (blks : List ℕ) (hx : x ∈ s.live)
    (hne : x ∉ if isFirst then blks.tail else blks) :
    x ∈ (pullLoop n isFirst s length blks).1.live ∧
      (pullLoop n isFirst s length blks).1.datap x = s.datap x := by
  induction blks generalizing s isFirst length with
  | nil => exact ⟨hx,rfl⟩
  | cons b blks ih =>
    have hrest : x ∉ blks := by
      cases isFirst with
      | true => exact hne
      | false => exact fun h => hne (List.mem_cons_of_mem _ h)
    simp only [pullLoop]
    split_ifs with h1 h2
    · exact ⟨hx,rfl⟩
    · have hxb : x ≠ b := by
        rintro rfl
        cases isFirst with
        | true => simp at h2
        | false => exact hne (List.mem_cons_self ..)
      have hmem : x ∈ ((s.copyBlk n b length).1.lisFreeb b).live := by
        rw [lisFreeb_live,copyBlk_live]
        exact (List.mem_erase_of_ne hxb).mpr hx
      have h := ih false (s.copyBlk n b length).2 hmem hrest
      rwa [lisFreeb_datap hxb,copyBlk_datap] at h
    · have hmem : x ∈ (s.copyBlk n b length).1.live := copyBlk_live.symm ▸ hx
      have h := ih false (s.copyBlk n b length).2 hmem hrest
      rwa [copyBlk_datap] at h

theorem lisAllocb_cases (size : ℕ) (hdr buf : Bool) :
    (∃ t, s.lisAllocb size hdr buf = (t,none)) ∨
      s.lisAllocb size hdr buf = (s.initb (decide (FASTBUF < size)) size false,some s.next) := by
  unfold lisAllocb
  split_ifs
  · exact .inl ⟨_,rfl⟩
  · exact .inl ⟨_,rfl⟩
  · exact .inr rfl

theorem pullupmsg_parts {b : ℕ} {aligned hdr buf : Bool} (hh : s.Headers) (hm : s.IsMsg (b :: rest)) :
    exec step s (parts s (.pullupmsg b rest length aligned hdr buf)) =
      some (s.lisPullupmsg b rest length aligned hdr buf).1 := by
  simp only [parts,lisPullupmsg]
  cases s.pullLength b rest length aligned with
  | error r => rfl
  | ok len =>
    have halloc : step s (.allocb (pullSize len) hdr buf) = some (s.lisAllocb (pullSize len) hdr buf).1 := rfl
    simp only [exec_cons,halloc,Option.bind_some]
    rcases lisAllocb_cases (s := s) (pullSize len) hdr buf with ⟨t,he⟩ | he
    · simp only [he]
      rfl
    · have hgrow := initb_grow (s := s) (decide (FASTBUF < pullSize len)) (pullSize len) false
        (fun h => .inr (of_decide_eq_true h)) Bool.noConfusion
      simp only [he]
      generalize s.initb (decide (FASTBUF < pullSize len)) (pullSize len) false = u at hgrow
      have hset : step u (.setType s.next (u.dbType b)) = some (u.setType s.next (u.dbType b)) :=
        if_pos (hgrow.live ▸ List.mem_cons_self ..)
      have hframe := setType_frame (s := u) (b := s.next) (u.dbType b)
      simp only [exec_cons,hset,Option.bind_some]
      generalize u.setType s.next (u.dbType b) = v at hframe
      have hold : ∀ x ∈ s.live, x ∈ v.live ∧ x ≠ s.next := by
        intro x hx
        rw [hframe.live,hgrow.live]
        exact ⟨List.mem_cons_of_mem _ hx,(hh.lt x hx).ne⟩
      have hnew : s.next ∈ v.live := by
        rw [hframe.live,hgrow.live]
        exact List.mem_cons_self ..
      have hfresh : s.next ∉ rest := fun h => (hold _ (hm.2 _ (List.mem_cons_of_mem _ h))).2 rfl
      obtain ⟨hkn,hdn⟩ := pullLoop_kept s.next true len (b :: rest) hnew hfresh
      obtain ⟨hkb,-⟩ := pullLoop_kept s.next true len (b :: rest)
        (hold b (hm.2 b (List.mem_cons_self ..))).1 (List.nodup_cons.mp hm.1).1
      rw [hframe.datap,hgrow.datapSelf.1] at hdn
      rw [exec_append,pullLoop_parts hm.1 (fun x hx => hold x (hm.2 x hx)) hnew,Option.bind_some,exec_cons]
      rw [show step _ (.swap b s.next) = some _ from
        if_pos ⟨hkb,hkn,(hold b (hm.2 b (List.mem_cons_self ..))).2.symm,hdn⟩]
      rfl

/- A call is the run of its parts. -/
theorem call_parts {a : MsgAct} (hh : s.Headers) (hc : call s a = some t) :
    exec step s (parts s a) = some t := by
  cases a with
  | allocb size hdr buf => exact hc
  | esballoc size hdr => exact hc
  | dupmsg mp hdr =>
    simp only [call,Option.ite_none_right_eq_some] at hc
    rw [← hc.2]
    exact dupLoop_parts hc.1.2 hh.lt ⟨List.nodup_nil,nofun⟩
  | pullupmsg mp rest length aligned hdr buf =>
    simp only [call,Option.ite_none_right_eq_some] at hc
    rw [← hc.2]
    exact pullupmsg_parts hh hc.1
  | freemsg mp =>
    simp only [call,Option.ite_none_right_eq_some] at hc
    rw [← hc.2]
    exact freemsg_parts hc.1.1 hc.1.2
  | setPtrs bp r w =>
    have hs : step s (.setPtrs bp r w) = some t := hc
    simp only [parts,exec_cons,hs,Option.bind_some,exec_nil]
  | setType bp ty =>
    have hs : step s (.setType bp ty) = some t := hc
    simp only [parts,exec_cons,hs,Option.bind_some,exec_nil]

/- No count runs over in the call, and no last reference to a buffer is given up
while the header of its data block is a block of a message. -/
def Counted (s : Mem) (a : MsgAct) : Prop := Meets step Guard s (parts s a)

instance (a : MsgAct) : Decidable (Counted s a) := Meets.decidable step Guard s (parts s a)

theorem call_kept {a : MsgAct} (hi : s.Headers ∧ s.Buffers) (hc : Counted s a) (h : call s a = some t) :
    t.Headers ∧ t.Buffers :=
  exec_preserves (I := fun s => s.Headers ∧ s.Buffers) (fun _ _ _ hi => step_kept hi.1 hi.2) hi hc
    (call_parts hi.1 h)

/-- What went back so far: each buffer once, and those that no block points to; each
header once, and those that are no block and that no block points into. -/
structure GivenBack (s : Mem) : Prop where
  bufferOnce : s.released.Nodup
  buffer : ∀ x, x ∈ s.released ↔ x ∈ s.external ∧ ∀ b ∈ s.live, s.datap b ≠ some x
  headerOnce : s.freed.Nodup
  header : ∀ x, x ∈ s.freed ↔ x < s.next ∧ x ∉ s.live ∧ ∀ b ∈ s.live, s.datap b ≠ some x
  valid : ∀ b ∈ s.live, ∃ d, s.datap b = some d ∧ (s.mdb b).bBuf = some d ∧ d ∉ s.freed ∧ d ∉ s.released

theorem givenBack_of_kept (hh : s.Headers) (hb : s.Buffers) : s.GivenBack := by
  refine ⟨hb.releasedNodup,fun x => ?_,hh.freedNodup,fun x => ?_,fun b hm => ?_⟩
  · rw [hb.released,users,refs_zero_iff]
  · rw [hh.freed,users,refs_zero_iff]
  · obtain ⟨d,-,hd,hbuf⟩ := hh.datap b hm
    have hpos := users_pos hm hd
    exact ⟨d,hd,hbuf,fun h => hpos.ne' ((hh.freed d).mp h).2.2,fun h => hpos.ne' ((hb.released d).mp h).2⟩

/-- After every run whose calls are all counted, everything went back that no block
uses any more, once, and nothing that one still uses. -/
theorem run_given_back {as : List MsgAct} (hc : Meets call Counted init as)
    (h : exec call init as = some s) : s.GivenBack := by
  have hi := exec_preserves (I := fun s => s.Headers ∧ s.Buffers) (fun _ _ _ => call_kept)
    ⟨init_headers,init_buffers⟩ hc h
  exact givenBack_of_kept hi.1 hi.2

/-- A user's buffer, duplicated; the original is freed, the duplicate pulled up and freed. -/
theorem run_given_back_pulled : ∃ s, exec call init
      [.esballoc 16 true,.setPtrs 0 0 4,.dupmsg [0] fun _ => true,.freemsg [0],
        .pullupmsg 1 [] (-1) false true true,.freemsg [1]] = some s ∧
    s.released = [0,2] ∧ s.freed = [0,2,1] ∧ s.GivenBack :=
  ⟨_,rfl,by decide,by decide,@run_given_back _ [.esballoc 16 true,.setPtrs 0 0 4,
    .dupmsg [0] fun _ => true,.freemsg [0],.pullupmsg 1 [] (-1) false true true,.freemsg [1]]
    (by decide) rfl⟩

/-- A user's buffer, duplicated; the original is pulled up before both are freed. The
header of the original outlives the last reference to its data block, and the buffer
does not go back. -/
theorem pulled_buffer_lost : ∃ s, exec call init
      [.esballoc 16 true,.setPtrs 0 0 4,.dupmsg [0] fun _ => true,
        .pullupmsg 0 [] (-1) false true true,.freemsg [1],.freemsg [0]] = some s ∧
    s.live = [] ∧ 0 ∈ s.external ∧ 0 ∉ s.released ∧ ¬s.GivenBack := by
  refine ⟨_,rfl,by decide,by decide,by decide,fun h => ?_⟩
  have hlost := (h.buffer 0).mpr ⟨by decide,by decide⟩
  revert hlost
  decide

end Mem

end CSLiS.Buffer
