import CSLiS.Head.Service
import CSLiS.Lib.Exec

/-!
# When the service procedure of a stream head runs (head/head.c)

Messages wait on `sd_rput` for `lis_strrsrv`, an M_FLUSH is done at once. It frees everything that waits and
the data messages it is for on the read queue. When it runs is of no consequence as long as nothing waits
that the M_FLUSH is not for. Nobody reads.
-/

namespace CSLiS.Head
open Queue Lib.Exec

variable {so : Mesg → StroptionsT} {hd s t u : Shead} {mp x y : Mesg} {l k m ms : List Mesg} {band : ℤ} {b : Uchar}
  {f : Uchar → Ulong × Ulong} {v : Bool}

/-! ### The water marks of bands without messages -/

namespace Shead

/-- What there is to see of a stream head: a band without messages has no marks. -/
def seen (hd : Shead) : Shead :=
  { hd with opts := { hd.opts with marks := fun b => if b ≠ 0 ∧ inBand hd.rd.msgs b = true then hd.opts.marks b else (0,0) } }

def setMarks (hd : Shead) (f : Uchar → Ulong × Ulong) : Shead := { hd with opts := { hd.opts with marks := f } }

/- The marks of bands without messages may be others. -/
def Alike (s t : Shead) : Prop :=
  ∃ f, s = t.setMarks f ∧ ∀ b, b ≠ 0 → inBand t.rd.msgs b = true → f b = t.opts.marks b

theorem Alike.refl (hd : Shead) : hd.Alike hd := ⟨hd.opts.marks,rfl,fun _ _ _ => rfl⟩

theorem Alike.symm (h : s.Alike t) : t.Alike s := by
  obtain ⟨f,rfl,hf⟩ := h
  exact ⟨t.opts.marks,rfl,fun b hb hin => (hf b hb hin).symm⟩

theorem Alike.trans (h : s.Alike t) (h' : t.Alike u) : s.Alike u := by
  obtain ⟨f,rfl,hf⟩ := h
  obtain ⟨g,rfl,hg⟩ := h'
  refine ⟨f,rfl,fun b hb hin => ?_⟩
  rw [hf b hb hin]
  exact hg b hb hin

theorem Alike.seen (h : s.Alike t) : s.seen = t.seen := by
  obtain ⟨f,rfl,hf⟩ := h
  have hmarks : (fun b => if b ≠ 0 ∧ inBand t.rd.msgs b = true then f b else (0,0)) =
      fun b => if b ≠ 0 ∧ inBand t.rd.msgs b = true then t.opts.marks b else (0,0) := by
    funext b
    by_cases hb : b ≠ 0 ∧ inBand t.rd.msgs b = true
    · rw [if_pos hb,if_pos hb,hf b hb.1 hb.2]
    · rw [if_neg hb,if_neg hb]
  show { t with opts := { t.opts with marks := _ } } = { t with opts := { t.opts with marks := _ } }
  rw [← hmarks]
  rfl

end Shead

theorem inBand_put (l : List Mesg) (mp : Mesg) (b : Uchar) :
    inBand (lisPutq l mp) b = (inBand l b || mp.info.inBand b) := by
  obtain ⟨k,m,x,hl,heq,hx,-⟩ := lisPutq_spec l mp
  have hin : x.info.inBand b = mp.info.inBand b := by
    have hh : x.info.hipri = mp.info.hipri := congrArg lisHipri (dbType_of_types hx.types)
    cases hmp : mp.info.hipri with
    | true => simp only [Info.inBand,hmp,hh.trans hmp,Bool.not_true,Bool.false_and]
    | false =>
      have hr := hx.rank
      rw [rank_ordinary hmp,rank_ordinary (hh.trans hmp)] at hr
      simp only [Info.inBand,hmp,hh.trans hmp,Fin.val_injective hr]
  rw [heq,← hl]
  simp only [inBand,List.any_append,List.any_cons,hin]
  cases k.any fun y => y.info.inBand b <;> cases mp.info.inBand b <;> simp

/- A message of a band is not counted in the queue. -/
theorem inBand_eq (h : mp.info.inBand b = true) : mp.blk.bBand = b ∧ (b ≠ 0 → mp.info.inQCount = false) := by
  obtain ⟨h1,h2⟩ := (Bool.and_eq_true _ _).mp h
  have hb : mp.blk.bBand = b := beq_iff_eq.mp h2
  refine ⟨hb,fun hne => ?_⟩
  have hlo : mp.info.hipri = false := by simpa using h1
  have hz : (mp.info.bBand == 0) = false := beq_eq_false_iff_ne.mpr fun h => hne (hb.symm.trans h)
  rw [Info.inQCount,hlo,hz]
  rfl

namespace Shead

theorem Alike.putq (h : s.Alike t) (mp : Mesg) : (s.putq mp).Alike (t.putq mp) := by
  obtain ⟨f,rfl,hf⟩ := h
  refine ⟨_,rfl,fun b hb hin => ?_⟩
  replace hin : inBand (lisPutq t.rd.msgs mp) b = true := hin
  rw [inBand_put,Bool.or_eq_true] at hin
  show (if !mp.info.inQCount && !inBand t.rd.msgs mp.blk.bBand then Function.update f mp.blk.bBand _ else f) b =
    (if !mp.info.inQCount && !inBand t.rd.msgs mp.blk.bBand then Function.update t.opts.marks mp.blk.bBand _
      else t.opts.marks) b
  by_cases hbb : b = mp.blk.bBand
  · subst hbb
    cases hheld : inBand t.rd.msgs mp.blk.bBand with
    | true => simpa using hf _ hb hheld
    | false =>
      have hnew : mp.info.inBand mp.blk.bBand = true := hin.resolve_left (hheld ▸ Bool.false_ne_true)
      simp only [(inBand_eq hnew).2 hb,Bool.not_false,Bool.and_self,if_true,Function.update_self]
      rfl
  · have hheld : inBand t.rd.msgs b = true := hin.resolve_right fun hnew => hbb (inBand_eq hnew).1.symm
    split_ifs
    · rw [Function.update_of_ne hbb,Function.update_of_ne hbb]
      exact hf b hb hheld
    · exact hf b hb hheld

/- Fewer messages on the read queue, and other flags. -/
theorem Alike.setRd (h : s.Alike t) (rd : Rdq) (hs : ∀ b, inBand rd.msgs b = true → inBand t.rd.msgs b = true) :
    Alike { s with rd := rd } { t with rd := rd } := by
  obtain ⟨f,rfl,hf⟩ := h
  exact ⟨f,rfl,fun b hb hin => hf b hb (hs b hin)⟩

theorem Alike.rd_eq (h : s.Alike t) : s.rd = t.rd := by
  obtain ⟨f,rfl,-⟩ := h
  rfl

theorem Alike.rput_eq (h : s.Alike t) : s.rput = t.rput := by
  obtain ⟨f,rfl,-⟩ := h
  rfl

theorem Alike.qreading_eq (h : s.Alike t) : s.qreading = t.qreading := by
  obtain ⟨f,rfl,-⟩ := h
  rfl

theorem Alike.setRput (h : s.Alike t) (l : List Mesg) : Alike { s with rput := l } { t with rput := l } := by
  obtain ⟨f,rfl,hf⟩ := h
  exact ⟨f,rfl,hf⟩

theorem inBand_sublist (h : m.Sublist l) (hb : inBand m b = true) : inBand l b = true := by
  obtain ⟨x,hx,hxb⟩ := List.any_eq_true.mp hb
  exact List.any_eq_true.mpr ⟨x,h.subset hx,hxb⟩

theorem checkMSig_sublist (rd : Rdq) : rd.lisCheckMSig.msgs.Sublist rd.msgs := by
  rcases rd.checkMSig_cases with h | ⟨mp,l,hl,-,h⟩
  · rw [h]
  · rw [h,hl]
    exact List.sublist_cons_self mp l

theorem Alike.setOptions (h : s.Alike t) (o : StroptionsT) :
    Alike { s with opts := s.opts.setOptions (inBand s.rd.msgs) o } { t with opts := t.opts.setOptions (inBand t.rd.msgs) o } := by
  obtain ⟨f,rfl,hf⟩ := h
  have hrd : (t.setMarks f).rd = t.rd := rfl
  by_cases hband : o.has SO_BAND = true ∧ o.soBand ≠ 0
  · cases hheld : inBand t.rd.msgs o.soBand with
    | true =>
      simp only [Sopts.setOptions,hrd,if_pos hband,hheld,if_true]
      refine ⟨_,rfl,fun b hb hin => ?_⟩
      by_cases hbb : b = o.soBand
      · subst hbb
        simp only [Function.update_self,setMarks,hf _ hb hin]
      · simp only [Function.update_of_ne hbb]
        exact hf b hb hin
    | false =>
      simp only [Sopts.setOptions,hrd,if_pos hband,hheld,Bool.false_eq_true,if_false]
      exact ⟨f,rfl,hf⟩
  · simp only [Sopts.setOptions,if_neg hband]
    exact ⟨f,rfl,hf⟩

theorem Alike.process (h : s.Alike t) (hmp : mp.dbType ≠ M_FLUSH) :
    (s.lisProcessRput so mp).Alike (t.lisProcessRput so mp) := by
  unfold lisProcessRput
  split_ifs
  · exact h.putq mp
  · have hput := h.putq mp
    have hrd := hput.rd_eq
    simp only [hrd]
    exact hput.setRd _ fun b hb => inBand_sublist (checkMSig_sublist _) hb
  · obtain ⟨f,rfl,hf⟩ := h
    exact ⟨f,rfl,hf⟩
  · obtain ⟨f,rfl,hf⟩ := h
    exact ⟨f,rfl,hf⟩
  · exact h.setOptions (so mp)
  · exact h

/-! ### What a flush leaves -/

/- A round of `flush_worker`. -/
def flushStep (band : ℤ) (hd : Shead) (mp : Mesg) : Shead := if flushes band false mp.info then hd else hd.putq mp

theorem Alike.flushSteps (h : s.Alike t) (band : ℤ) (ms : List Mesg) :
    (ms.foldl (flushStep band) s).Alike (ms.foldl (flushStep band) t) := by
  induction ms generalizing s t with
  | nil => exact h
  | cons mp ms ih =>
    apply ih
    unfold flushStep
    split_ifs
    · exact h
    · exact h.putq mp

theorem flushRd_steps (hd : Shead) (band : ℤ) :
    hd.flushRd band = hd.rd.msgs.foldl (flushStep band) { hd with rd := { hd.rd with msgs := [] } } := rfl

/- The marks do not matter when there are no messages. -/
theorem alike_empty (hd : Shead) (f : Uchar → Ulong × Ulong) (h : hd.rd.msgs = []) : (hd.setMarks f).Alike hd := by
  refine ⟨f,rfl,fun b _ hin => ?_⟩
  rw [h] at hin
  cases hin

theorem Alike.flushRd (h : s.Alike t) (band : ℤ) : (s.flushRd band).Alike (t.flushRd band) := by
  rw [flushRd_steps,flushRd_steps,h.rd_eq]
  exact (h.setRd { t.rd with msgs := [] } fun b hb => by cases hb).flushSteps band _

/- The flush of the read queue, and what becomes of STRPRI (`head.c:2945-2957`). -/
def flushed (hd : Shead) (band : ℤ) : Shead :=
  { hd.flushRd band with
    rd := { (hd.flushRd band).rd with
      strpri := (hd.flushRd band).rd.strpri && (hd.flushRd band).rd.msgs.head?.any fun x => x.info.hipri } }

theorem flushed_of (h : (s.flushRd band).Alike (t.flushRd band)) : (s.flushed band).Alike (t.flushed band) := by
  unfold flushed
  rw [h.rd_eq]
  exact h.setRd _ fun b hb => hb

theorem Alike.flushed (h : s.Alike t) (band : ℤ) : (s.flushed band).Alike (t.flushed band) :=
  flushed_of (h.flushRd band)

theorem strrput_flush (hr : hd.qreading = false) (hmp : mp.dbType = M_FLUSH) : hd.lisStrrput mp =
    if flushr (flushByte mp.toMsg) then { hd with rput := [] }.flushed mp.flushBand else hd := by
  have hpc : M_FLUSH ≠ M_PCPROTO := by decide
  simp only [lisStrrput,hmp,if_neg hpc,if_true,lisHeadFlush,hr,Bool.false_eq_true,if_false]
  split <;> rfl

theorem strrput_pcproto (hmp : mp.dbType = M_PCPROTO) : hd.lisStrrput mp =
    if hd.rd.strpri then hd else { hd with rd := { hd.rd with strpri := true } }.putRput mp := if_pos hmp

theorem strrput_other (hp : mp.dbType ≠ M_PCPROTO) (hf : mp.dbType ≠ M_FLUSH) : hd.lisStrrput mp =
    if answersIoctl mp.dbType then hd else hd.putRput mp := by
  rw [lisStrrput,if_neg hp,if_neg hf]

theorem Alike.putRput (h : s.Alike t) (mp : Mesg) : (s.putRput mp).Alike (t.putRput mp) := by
  unfold Shead.putRput
  rw [h.rput_eq]
  exact h.setRput _

theorem Alike.strrput (h : s.Alike t) (hr : t.qreading = false) (mp : Mesg) : (s.lisStrrput mp).Alike (t.lisStrrput mp) := by
  by_cases hf : mp.dbType = M_FLUSH
  · rw [strrput_flush hr hf,strrput_flush (h.qreading_eq.trans hr) hf]
    split
    · exact (h.setRput []).flushed _
    · exact h
  by_cases hp : mp.dbType = M_PCPROTO
  · rw [strrput_pcproto hp,strrput_pcproto hp,h.rd_eq]
    split
    · exact h
    · exact (h.setRd { t.rd with strpri := true } fun b hb => hb).putRput mp
  · rw [strrput_other hp hf,strrput_other hp hf]
    split
    · exact h
    · exact h.putRput mp

/-! ### Processing what waits -/

/- The head with other messages waiting and STRPRI as given. -/
def frame (hd : Shead) (l : List Mesg) (v : Bool) : Shead := { hd with rput := l, rd := { hd.rd with strpri := v } }

theorem checkMSig_frame (rd : Rdq) (v : Bool) :
    ({ rd with strpri := v } : Rdq).lisCheckMSig = { rd.lisCheckMSig with strpri := v } := by
  obtain ⟨msgs,p⟩ := rd
  cases msgs with
  | nil => rfl
  | cons x l =>
    simp only [Rdq.lisCheckMSig]
    split_ifs <;> rfl

theorem process_frame (hmp : mp.dbType ≠ M_FLUSH) (l : List Mesg) (v : Bool) :
    (hd.frame l v).lisProcessRput so mp = (hd.lisProcessRput so mp).frame l v := by
  simp only [lisProcessRput,if_neg hmp]
  split_ifs
  · rfl
  · exact congrArg (fun rd => { (hd.frame l v).putq mp with rd := rd }) (checkMSig_frame (hd.putq mp).rd v)
  · rfl
  · rfl
  · rfl
  · rfl

/- The rounds of `lis_strrsrv` until nothing waits. -/
def settle (so : Mesg → StroptionsT) (hd : Shead) : Shead :=
  hd.rput.foldl (fun hd mp => hd.lisProcessRput so mp) { hd with rput := [] }

/- Nobody reads, and there is no M_FLUSH to be done later. -/
structure Idle (hd : Shead) : Prop where
  rput : ∀ mp ∈ hd.rput, mp.dbType ≠ M_FLUSH
  qreading : hd.qreading = false

theorem process_frame_self (hmp : mp.dbType ≠ M_FLUSH) :
    hd.lisProcessRput so mp = (hd.lisProcessRput so mp).frame hd.rput hd.rd.strpri :=
  process_frame hmp hd.rput hd.rd.strpri

theorem process_rput (hmp : mp.dbType ≠ M_FLUSH) : (hd.lisProcessRput so mp).rput = hd.rput := by
  rw [process_frame_self hmp]
  rfl

theorem process_qreading (hmp : mp.dbType ≠ M_FLUSH) : (hd.lisProcessRput so mp).qreading = hd.qreading := by
  simp only [lisProcessRput,if_neg hmp]
  split_ifs <;> rfl

theorem run_frame (h : ∀ mp ∈ ms, mp.dbType ≠ M_FLUSH) (l : List Mesg) (v : Bool) :
    ms.foldl (fun hd mp => hd.lisProcessRput so mp) (hd.frame l v) =
      (ms.foldl (fun hd mp => hd.lisProcessRput so mp) hd).frame l v := by
  induction ms generalizing hd with
  | nil => rfl
  | cons mp ms ih =>
    rw [List.foldl_cons,List.foldl_cons,process_frame (h mp (List.mem_cons_self ..))]
    exact ih fun x hx => h x (List.mem_cons_of_mem _ hx)

theorem settle_eq (h : hd.Idle) :
    hd.settle so = (hd.rput.foldl (fun hd mp => hd.lisProcessRput so mp) hd).frame [] hd.rd.strpri :=
  run_frame h.rput [] hd.rd.strpri

theorem settle_rput (h : hd.Idle) : (hd.settle so).rput = [] := by
  rw [settle_eq h]
  rfl

theorem settle_strpri (h : hd.Idle) : (hd.settle so).rd.strpri = hd.rd.strpri := by
  rw [settle_eq h]
  rfl

theorem settle_qreading (h : hd.Idle) : (hd.settle so).qreading = false := by
  have hrun : ∀ (ms : List Mesg) (hd : Shead), (∀ mp ∈ ms, mp.dbType ≠ M_FLUSH) →
      (ms.foldl (fun hd mp => hd.lisProcessRput so mp) hd).qreading = hd.qreading := by
    intro ms
    induction ms with
    | nil => exact fun hd _ => rfl
    | cons mp ms ih =>
      intro hd hms
      rw [List.foldl_cons,ih _ fun x hx => hms x (List.mem_cons_of_mem _ hx)]
      exact process_qreading (hms mp (List.mem_cons_self ..))
  exact (hrun hd.rput _ h.rput).trans h.qreading

theorem settle_idle (h : hd.Idle) : (hd.settle so).Idle :=
  ⟨by rw [settle_rput h]; exact fun mp hmp => absurd hmp List.not_mem_nil,settle_qreading h⟩

theorem settle_drained (h : hd.rput = []) : hd.settle so = hd := by
  obtain ⟨rput,rd,q,hup,e,o⟩ := hd
  obtain rfl : rput = [] := h
  rfl

theorem settle_settle (h : hd.Idle) : (hd.settle so).settle so = hd.settle so := settle_drained (settle_rput h)

theorem settle_putRput (hd : Shead) (mp : Mesg) : (hd.putRput mp).settle so = (hd.settle so).lisProcessRput so mp := by
  simp only [settle,putRput,List.foldl_append,List.foldl_cons,List.foldl_nil]

theorem settle_pri (h : hd.Idle) (v : Bool) : settle so { hd with rd := { hd.rd with strpri := v } } =
    { hd.settle so with rd := { (hd.settle so).rd with strpri := v } } := by
  rw [settle_eq h]
  exact run_frame h.rput [] v

theorem round_idle (h : hd.Idle) : (hd.rsrvRound so).Idle := by
  unfold rsrvRound
  split
  · exact h
  · next mp l hl =>
    have hall := hl ▸ h.rput
    have hmp := hall mp (List.mem_cons_self ..)
    refine ⟨?_,(process_qreading hmp).trans h.qreading⟩
    rw [process_rput hmp]
    exact fun x hx => hall x (List.mem_cons_of_mem _ hx)

/-- A round of the service procedure does not change what there will be in the end. -/
theorem settle_round (h : hd.Idle) : (hd.rsrvRound so).settle so = hd.settle so := by
  unfold rsrvRound
  split
  · rfl
  · next mp l hl =>
    have hmp : mp.dbType ≠ M_FLUSH := h.rput mp (hl ▸ List.mem_cons_self ..)
    have h1 : Shead.lisProcessRput so { hd with rput := l } mp = (hd.lisProcessRput so mp).frame l hd.rd.strpri :=
      process_frame hmp l hd.rd.strpri
    have h2 : Shead.lisProcessRput so { hd with rput := [] } mp = (hd.lisProcessRput so mp).frame [] hd.rd.strpri :=
      process_frame hmp [] hd.rd.strpri
    rw [h1,settle,settle,hl,List.foldl_cons,h2]
    rfl

theorem Alike.settle (h : s.Alike t) (hi : ∀ mp ∈ t.rput, mp.dbType ≠ M_FLUSH) : (s.settle so).Alike (t.settle so) := by
  have hrun : ∀ (ms : List Mesg) (s t : Shead), s.Alike t → (∀ mp ∈ ms, mp.dbType ≠ M_FLUSH) →
      (ms.foldl (fun hd mp => hd.lisProcessRput so mp) s).Alike (ms.foldl (fun hd mp => hd.lisProcessRput so mp) t) := by
    intro ms
    induction ms with
    | nil => exact fun s t h _ => h
    | cons mp ms ih =>
      intro s t h hms
      exact ih _ _ (h.process (hms mp (List.mem_cons_self ..))) fun x hx => hms x (List.mem_cons_of_mem _ hx)
  unfold Shead.settle
  rw [h.rput_eq]
  exact hrun _ _ _ (h.setRput []) hi

/-! ### Which messages a flush is for -/

/- A data message, of the band if it is for one. One of high priority is in no band. -/
def named (band : ℤ) (i : Info) : Bool := lisDatamsg i.dbType && (band < 0 || (!i.hipri && (i.bBand : ℤ) == band))

theorem named_flushes {i : Info} (h : named band i = true) : flushes band false i = true := by
  obtain ⟨h1,h2⟩ := (Bool.and_eq_true _ _).mp h
  rcases (Bool.or_eq_true _ _).mp h2 with h2 | h2
  · have hb : band < 0 := of_decide_eq_true h2
    have hne : (band != 0) = true := bne_iff_ne.mpr (by omega)
    simp only [flushes,h1,h2,hne,Bool.true_or,Bool.or_true,Bool.and_self]
  · obtain ⟨h3,h4⟩ := (Bool.and_eq_true _ _).mp h2
    cases hz : band == 0 with
    | true => simp only [flushes,h3,h4,hz,Bool.or_true,Bool.true_and,Bool.true_or]
    | false => simp only [flushes,h1,h4,bne,hz,Bool.or_true,Bool.not_false,Bool.true_and]

theorem named_put (hx : mp.Put x) (h : named band mp.info = true) : named band x.info = true := by
  have ht : x.info.dbType = mp.info.dbType := dbType_of_types hx.types
  have hh : x.info.hipri = mp.info.hipri := congrArg lisHipri ht
  obtain ⟨h1,h2⟩ := (Bool.and_eq_true _ _).mp h
  rw [named,ht,h1,Bool.true_and]
  rcases (Bool.or_eq_true _ _).mp h2 with h2 | h2
  · rw [h2,Bool.true_or]
  · have hlo : mp.info.hipri = false := by simpa using ((Bool.and_eq_true _ _).mp h2).1
    have hr := hx.rank
    rw [rank_ordinary hlo,rank_ordinary (hh.trans hlo)] at hr
    rw [hh,Fin.val_injective hr,h2,Bool.or_true]

theorem flush_putq (hd : Shead) (h : named band mp.info = true) :
    ((hd.putq mp).flushRd band).Alike (hd.flushRd band) := by
  obtain ⟨k,m,x,hl,heq,hx,-⟩ := lisPutq_spec hd.rd.msgs mp
  have hfl : flushes band false x.info = true := named_flushes (named_put hx h)
  have hmsgs : (hd.putq mp).rd.msgs = k ++ x :: m := heq
  rw [flushRd_steps,flushRd_steps,hmsgs,← hl,List.foldl_append,List.foldl_cons,List.foldl_append]
  rw [show ∀ s : Shead, flushStep band s x = s from fun s => if_pos hfl]
  have hstart := alike_empty { hd with rd := { hd.rd with msgs := [] } } (hd.putq mp).opts.marks rfl
  exact (hstart.flushSteps band k).flushSteps band m

/- Processing a message that the flush is for makes no difference to the flush. -/
theorem flush_process (hd : Shead) (h : named band mp.info = true) :
    ((hd.lisProcessRput so mp).flushed band).Alike (hd.flushed band) := by
  have hdata : lisDatamsg mp.dbType = true := ((Bool.and_eq_true _ _).mp h).1
  by_cases hq : mp.dbType = M_DATA ∨ mp.dbType = M_PCPROTO ∨ mp.dbType = M_PROTO ∨ mp.dbType = M_PASSFP
  · rw [lisProcessRput,if_pos hq]
    exact flushed_of (flush_putq hd h)
  · have hdelay : mp.dbType = M_DELAY := by
      simp only [lisDatamsg,Bool.or_eq_true,beq_iff_eq] at hdata
      tauto
    have hkeep : hd.lisProcessRput so mp = hd := by
      rw [lisProcessRput,hdelay]
      rfl
    rw [hkeep]
    exact Alike.refl _

theorem flush_run (h : ∀ x ∈ ms, named band x.info = true) (hd : Shead) :
    ((ms.foldl (fun hd mp => hd.lisProcessRput so mp) hd).flushed band).Alike (hd.flushed band) := by
  induction ms generalizing hd with
  | nil => exact Alike.refl _
  | cons x ms ih =>
    have hrest := ih (fun y hy => h y (List.mem_cons_of_mem _ hy)) (hd.lisProcessRput so x)
    exact hrest.trans (flush_process hd (h x (List.mem_cons_self ..)))

/-! ### Schedules -/

inductive SrvAct
  | rput (mp : Mesg)
  | rsrv

def step (so : Mesg → StroptionsT) (hd : Shead) : SrvAct → Option Shead
  | .rput mp => some (hd.lisStrrput mp)
  | .rsrv => some (hd.rsrvRound so)

def init (err : Errors) (opts : Sopts) : Shead := ⟨[],⟨[],false⟩,false,false,err,opts⟩

def arrivals (as : List SrvAct) : List Mesg := as.filterMap fun a =>
  match a with
  | .rput mp => some mp
  | .rsrv => none

/- The messages that an M_FLUSH names. -/
def names (mp x : Mesg) : Bool := flushr (flushByte mp.toMsg) && named mp.flushBand x.info

/- An M_FLUSH of the read side finds nothing waiting but messages it is for, and on the read queue it is for
what `lis_flushband` takes. -/
def Guard (hd : Shead) : SrvAct → Prop
  | .rput mp => mp.dbType = M_FLUSH → flushr (flushByte mp.toMsg) = true →
      (∀ x ∈ hd.rput, named mp.flushBand x.info = true) ∧
        ∀ x ∈ hd.rd.msgs, flushes mp.flushBand false x.info = true → named mp.flushBand x.info = true
  | .rsrv => True

instance decGuard (hd : Shead) : ∀ a, Decidable (hd.Guard a)
  | .rput mp => inferInstanceAs (Decidable (mp.dbType = M_FLUSH → flushr (flushByte mp.toMsg) = true →
      (∀ x ∈ hd.rput, named mp.flushBand x.info = true) ∧
        ∀ x ∈ hd.rd.msgs, flushes mp.flushBand false x.info = true → named mp.flushBand x.info = true))
  | .rsrv => inferInstanceAs (Decidable True)

/- The message arrives, and everything that waits is processed. -/
def deal (so : Mesg → StroptionsT) (hd : Shead) (mp : Mesg) : Shead := (hd.lisStrrput mp).settle so

theorem flushed_frame (hd : Shead) (band : ℤ) : ∃ rd o, hd.flushed band = { hd with rd := rd, opts := o } := by
  obtain ⟨o,ho⟩ := flushRd_eq hd band
  refine ⟨(hd.flushed band).rd,o,?_⟩
  rw [flushed,ho]

theorem strrput_idle (h : hd.Idle) (mp : Mesg) : (hd.lisStrrput mp).Idle := by
  have hput : mp.dbType ≠ M_FLUSH → ∀ x ∈ hd.rput ++ [mp], x.dbType ≠ M_FLUSH := by
    intro hf x hx
    rcases List.mem_append.mp hx with hx | hx
    · exact h.rput x hx
    · exact List.mem_singleton.mp hx ▸ hf
  by_cases hf : mp.dbType = M_FLUSH
  · rw [strrput_flush h.qreading hf]
    split
    · obtain ⟨rd,o,ho⟩ := flushed_frame { hd with rput := [] } mp.flushBand
      rw [ho]
      exact ⟨nofun,h.qreading⟩
    · exact h
  by_cases hp : mp.dbType = M_PCPROTO
  · rw [strrput_pcproto hp]
    split
    · exact h
    · exact ⟨hput hf,h.qreading⟩
  · rw [strrput_other hp hf]
    split
    · exact h
    · exact ⟨hput hf,h.qreading⟩

/-- What a message does in the end does not depend on what has been processed before it arrives. -/
theorem deal_settle (h : hd.Idle) (hg : hd.Guard (.rput mp)) : (deal so hd mp).Alike (deal so (hd.settle so) mp) := by
  have hset : (hd.settle so).settle so = hd.settle so := settle_settle h
  unfold deal
  by_cases hf : mp.dbType = M_FLUSH
  · rw [strrput_flush h.qreading hf,strrput_flush (settle_qreading h) hf]
    split
    · next hr =>
      obtain ⟨rd,o,ho⟩ := flushed_frame { hd with rput := [] } mp.flushBand
      obtain ⟨rd',o',ho'⟩ := flushed_frame { hd.settle so with rput := [] } mp.flushBand
      have h1 : Shead.settle so (flushed { hd with rput := [] } mp.flushBand) = flushed { hd with rput := [] } mp.flushBand :=
        settle_drained (by rw [ho])
      have h2 : Shead.settle so (flushed { hd.settle so with rput := [] } mp.flushBand) =
          flushed { hd.settle so with rput := [] } mp.flushBand := settle_drained (by rw [ho'])
      have h3 : { hd.settle so with rput := [] } = hd.settle so := by
        have hempty : (hd.settle so).rput = [] := settle_rput h
        generalize hd.settle so = w at hempty
        obtain ⟨rput,rd,q,hup,e,o⟩ := w
        obtain rfl : rput = [] := hempty
        rfl
      rw [h1,h2,h3]
      exact (flush_run (hg hf hr).1 { hd with rput := [] }).symm
    · rw [hset]
      exact Alike.refl _
  by_cases hp : mp.dbType = M_PCPROTO
  · rw [strrput_pcproto hp,strrput_pcproto hp,settle_strpri h]
    split
    · rw [hset]
      exact Alike.refl _
    · rw [settle_putRput,settle_putRput,settle_pri h,settle_pri (settle_idle h),hset]
      exact Alike.refl _
  · rw [strrput_other hp hf,strrput_other hp hf]
    split
    · rw [hset]
      exact Alike.refl _
    · rw [settle_putRput,settle_putRput,hset]
      exact Alike.refl _

theorem deals_alike (h : s.Alike t) (hi : t.Idle) : ∀ ms : List Mesg,
    (ms.foldl (deal so) s).Alike (ms.foldl (deal so) t) := by
  intro ms
  induction ms generalizing s t with
  | nil => exact h
  | cons mp ms ih =>
    have hput := strrput_idle hi mp
    exact ih ((h.strrput hi.qreading mp).settle hput.rput) (settle_idle hput)

/-- The step lemma and the run lemma: what a run leaves to be processed comes to what its arrivals come to. -/
theorem settle_run {as : List SrvAct} (h : s.Idle) (hm : Meets (step so) Guard s as) (hr : exec (step so) s as = some t) :
    (t.settle so).Alike ((arrivals as).foldl (deal so) (s.settle so)) := by
  induction as generalizing s with
  | nil =>
    obtain rfl := Option.some.inj hr
    exact Alike.refl _
  | cons a as ih =>
    obtain ⟨u,hu,hrun⟩ := exec_cons_eq_some hr
    have hmeets := hm.2 u hu
    cases a with
    | rput mp =>
      obtain rfl := Option.some.inj hu
      have hdeal : ((s.lisStrrput mp).settle so).Alike (deal so (s.settle so) mp) := deal_settle h hm.1
      refine (ih (strrput_idle h mp) hmeets hrun).trans ?_
      exact deals_alike hdeal (settle_idle (strrput_idle (settle_idle h) mp)) (arrivals as)
    | rsrv =>
      obtain rfl := Option.some.inj hu
      have hrest := ih (round_idle h) hmeets hrun
      rw [settle_round h] at hrest
      exact hrest

end Shead

/-! ### What a flush frees -/

/- The bands of all but the first message were cleared if they are of high priority. -/
structure Arranged (l : List Mesg) : Prop where
  ordered : Ordered Mesg.info l
  cleared : ∀ x ∈ l.tail, x.cleared = x

theorem cleared_cleared (mp : Mesg) : mp.cleared.cleared = mp.cleared := by
  unfold Mesg.cleared
  by_cases h : lisHipri mp.dbType = true
  · rw [if_pos h,if_pos (by exact h)]
  · rw [if_neg h,if_neg h]

theorem cleared_ordinary (h : mp.info.hipri = false) : mp.cleared = mp :=
  if_neg fun hh => Bool.noConfusion (h.symm.trans hh)

/- Nothing goes in front of a message of high priority. -/
theorem tailSplit_front {i : Info} (h : x.info.hipri = true) : ∃ y k, (tailSplit Mesg.info (x :: l) i).1 = y :: k := by
  unfold tailSplit
  split
  · next hl => cases l <;> simp at hl
  · split_ifs
    · exact ⟨x,l,rfl⟩
    · exact ⟨x,l,rfl⟩
    · exact ⟨x,_,List.takeWhile_cons_of_pos (p := fun y : Mesg => y.info.hipri) h⟩
    · exact ⟨x,_,congrArg (· ++ _) (List.takeWhile_cons_of_pos (p := fun y : Mesg => y.info.hipri) h)⟩

theorem Arranged.putq (h : Arranged l) (mp : Mesg) : Arranged (lisPutq l mp) := by
  obtain ⟨-,-,-,-,-,-,ho⟩ := lisPutq_spec l mp
  refine ⟨ho h.ordered,?_⟩
  cases l with
  | nil => exact nofun
  | cons x l =>
    have hall : ∀ y ∈ l, y.cleared = y := h.cleared
    have happ := tailSplit_append (v := Mesg.info) (l := x :: l) (i := mp.info)
    intro y hy
    rw [lisPutq] at hy
    simp only [List.isEmpty_cons,Bool.false_eq_true,if_false] at hy
    cases hk : (tailSplit Mesg.info (x :: l) mp.info).1 with
    | nil =>
      rw [hk,List.nil_append] at happ hy
      rw [List.tail_cons,happ] at hy
      rcases List.mem_cons.mp hy with rfl | hy
      · apply cleared_ordinary
        by_contra hn
        obtain ⟨z,k,hz⟩ := tailSplit_front (l := l) (i := mp.info) (show y.info.hipri = true by simpa using hn)
        cases hk.symm.trans hz
      · exact hall y hy
    | cons z k =>
      rw [hk] at happ hy
      rw [List.cons_append,List.tail_cons] at hy
      have hl : k ++ (tailSplit Mesg.info (x :: l) mp.info).2 = l := (List.cons.inj happ).2
      rcases List.mem_append.mp hy with hy | hy
      · exact hall y (hl ▸ List.mem_append_left _ hy)
      rcases List.mem_cons.mp hy with rfl | hy
      · exact cleared_cleared mp
      · exact hall y (hl ▸ List.mem_append_right _ hy)

theorem Arranged.sublist (h : Arranged l) (hs : m.Sublist l) : Arranged m := by
  refine ⟨h.ordered.sublist hs,fun x hx => ?_⟩
  exact h.cleared x ((hs.tail).subset hx)

/- Messages that were on a queue go back to their places. -/
theorem Arranged.putq_last (h : Arranged (l ++ [mp])) : lisPutq l mp = l ++ [mp] := by
  have hsplit : tailSplit Mesg.info l mp.info = (l,[]) := by
    cases hl : l.getLast? with
    | none =>
      obtain rfl := List.getLast?_eq_none_iff.mp hl
      rfl
    | some y =>
      have hy := List.mem_of_getLast? hl
      have hle : mp.info.rank ≤ y.info.rank :=
        (List.pairwise_append.mp h.ordered).2.2 y hy mp (List.mem_singleton_self mp)
      simp only [tailSplit,hl]
      split_ifs with h1 h2
      · rfl
      · rfl
      all_goals
        have hlo : y.info.hipri = false := by simpa using h1
        rw [rank_ordinary hlo] at hle
        have hmp : mp.info.hipri = false := by
          by_contra hn
          rw [rank_hipri (by simpa using hn)] at hle
          exact absurd y.info.bBand.isLt (by omega)
        rw [rank_ordinary hmp,Fin.val_fin_le] at hle
        exact absurd (show (!mp.info.hipri && decide (mp.info.bBand ≤ y.info.bBand)) = true by simp [hmp,hle]) h2
  have hclear : (if l.isEmpty then mp else mp.cleared) = mp := by
    cases l with
    | nil => rfl
    | cons z l => exact h.cleared mp (List.mem_append_right _ (List.mem_singleton_self mp))
  rw [lisPutq,hsplit,hclear]

theorem Arranged.arrive (h : Arranged l) : arrive l = l := by
  induction l using List.reverseRecOn with
  | nil => rfl
  | append_singleton l mp ih =>
    have hl := ih (h.sublist (List.sublist_append_left l [mp]))
    rw [Head.arrive,List.foldl_append,← Head.arrive,hl]
    exact h.putq_last

namespace Shead

/- The messages on the read queue and those that wait. -/
def queued (hd : Shead) : List Mesg := hd.rd.msgs ++ hd.rput

/-- An M_FLUSH frees the messages it names and no others. -/
def Discards (hd : Shead) : SrvAct → Prop
  | .rput mp => mp.dbType = M_FLUSH → (hd.lisStrrput mp).queued = hd.queued.filter fun x => !names mp x
  | .rsrv => True

theorem flushed_msgs (h : Arranged hd.rd.msgs) (band : ℤ) :
    (hd.flushed band).rd.msgs = hd.rd.msgs.filter fun x => !flushes band false x.info := by
  obtain ⟨o,ho⟩ := flushRd_eq hd band
  have hf := (h.sublist List.filter_sublist).arrive (l := hd.rd.msgs.filter fun x => !flushes band false x.info)
  rw [flushed,ho]
  exact hf

theorem flushed_unread (h : Arranged hd.rd.msgs) (band : ℤ) : (flushed { hd with rput := [] } band).rd.msgs =
    hd.rd.msgs.filter fun x => !flushes band false x.info := by
  have hu : Arranged ({ hd with rput := [] } : Shead).rd.msgs := h
  exact flushed_msgs hu band

theorem strrput_tidy (hi : hd.Idle) (h : Arranged hd.rd.msgs) (mp : Mesg) : Arranged (hd.lisStrrput mp).rd.msgs := by
  by_cases hf : mp.dbType = M_FLUSH
  · rw [strrput_flush hi.qreading hf]
    split
    · rw [flushed_unread h]
      exact h.sublist List.filter_sublist
    · exact h
  by_cases hp : mp.dbType = M_PCPROTO
  · rw [strrput_pcproto hp]
    split <;> exact h
  · rw [strrput_other hp hf]
    split <;> exact h

theorem process_tidy (h : Arranged hd.rd.msgs) (hmp : mp.dbType ≠ M_FLUSH) : Arranged (hd.lisProcessRput so mp).rd.msgs := by
  simp only [lisProcessRput,if_neg hmp]
  split_ifs
  · exact h.putq mp
  · exact (h.putq mp).sublist (checkMSig_sublist _)
  · exact h
  · exact h
  · exact h
  · exact h

theorem round_tidy (hi : hd.Idle) (h : Arranged hd.rd.msgs) : Arranged (hd.rsrvRound so).rd.msgs := by
  unfold rsrvRound
  split
  · exact h
  · next mp l hl => exact process_tidy h (hi.rput mp (hl ▸ List.mem_cons_self ..))

theorem guard_discards {a : SrvAct} (hi : hd.Idle) (h : Arranged hd.rd.msgs) (hg : hd.Guard a) : hd.Discards a := by
  cases a with
  | rsrv => trivial
  | rput mp =>
    intro hf
    rw [strrput_flush hi.qreading hf]
    cases hr : flushr (flushByte mp.toMsg) with
    | false =>
      rw [if_neg Bool.false_ne_true]
      refine (List.filter_eq_self.mpr fun x _ => ?_).symm
      rw [names,hr]
      rfl
    | true =>
      obtain ⟨h1,h2⟩ := hg hf hr
      have hrput : (hd.rput.filter fun x => !names mp x) = [] := by
        refine List.filter_eq_nil_iff.mpr fun x hx => ?_
        rw [names,hr,h1 x hx]
        exact Bool.false_ne_true
      have hrd : (hd.rd.msgs.filter fun x => !flushes mp.flushBand false x.info) = hd.rd.msgs.filter fun x => !names mp x := by
        refine List.filter_congr fun x hx => congrArg not ?_
        rw [names,hr,Bool.true_and]
        exact Bool.eq_iff_iff.mpr ⟨h2 x hx,named_flushes⟩
      obtain ⟨rd,o,ho⟩ := flushed_frame { hd with rput := [] } mp.flushBand
      have hempty : (flushed { hd with rput := [] } mp.flushBand).rput = [] := by rw [ho]
      rw [if_pos rfl,queued,hempty,flushed_unread h,hrd,List.append_nil,queued,
        List.filter_append,hrput,List.append_nil]

theorem run_discards {as : List SrvAct} (hi : s.Idle) (h : Arranged s.rd.msgs) (hm : Meets (step so) Guard s as) :
    Meets (step so) Discards s as := by
  induction as generalizing s with
  | nil => trivial
  | cons a as ih =>
    refine ⟨guard_discards hi h hm.1,fun u hu => ?_⟩
    have hmeets := hm.2 u hu
    cases a with
    | rput mp =>
      obtain rfl := Option.some.inj hu
      exact ih (strrput_idle hi mp) (strrput_tidy hi h mp) hmeets
    | rsrv =>
      obtain rfl := Option.some.inj hu
      exact ih (round_idle hi) (round_tidy hi h) hmeets

/-- Two schedules of the same arrivals leave the same drained stream head, and every M_FLUSH frees what it
names, if no M_FLUSH finds a message waiting, or on the read queue one that it frees, that it does not name. -/
theorem schedules_agree {err : Errors} {opts : Sopts} {as bs : List SrvAct} (ha : arrivals as = arrivals bs)
    (hm : Meets (step so) Guard (init err opts) as) (hn : Meets (step so) Guard (init err opts) bs)
    (hs : exec (step so) (init err opts) as = some s) (ht : exec (step so) (init err opts) bs = some t)
    (hs0 : s.rput = []) (ht0 : t.rput = []) :
    s.seen = t.seen ∧ Meets (step so) Discards (init err opts) as ∧ Meets (step so) Discards (init err opts) bs := by
  have hi : (init err opts).Idle := ⟨nofun,rfl⟩
  have htidy : Arranged (init err opts).rd.msgs := ⟨List.Pairwise.nil,nofun⟩
  have h1 := (settle_run hi hm hs).seen
  have h2 := (settle_run hi hn ht).seen
  rw [settle_drained hs0] at h1
  rw [settle_drained ht0] at h2
  exact ⟨by rw [h1,h2,ha],run_discards hi htidy hm,run_discards hi htidy hn⟩

def mesgOf (type band : Uchar) (bytes : List Uchar) : Mesg := ⟨{ dataBlk band bytes with dbType := type },[]⟩
def plainSo : Mesg → StroptionsT := fun _ => ⟨0,0,0,0,0,0,0⟩
def plainHead : Shead :=
  init ⟨0,0,false,false⟩ ⟨false,false,false,false,false,false,RPROTNORM,0,0,0,1024,128,fun _ => (1024,128)⟩

/- An M_FLUSH of band 0 finds one message waiting, or none. -/
def late : List SrvAct := [.rput (mesgOf M_DATA 0 [5]),.rput (mesgOf M_HANGUP 0 []),.rsrv,.rput (mesgOf M_DATA 1 [7]),
  .rsrv,.rsrv,.rput (mesgOf M_PROTO 0 [6]),.rput (mesgOf M_FLUSH 0 [5,0])]
def early : List SrvAct := [.rput (mesgOf M_DATA 0 [5]),.rsrv,.rput (mesgOf M_HANGUP 0 []),.rsrv,
  .rput (mesgOf M_DATA 1 [7]),.rsrv,.rput (mesgOf M_PROTO 0 [6]),.rsrv,.rput (mesgOf M_FLUSH 0 [5,0])]

theorem schedules_agree_two : ∃ s t, exec (step plainSo) plainHead late = some s ∧
    exec (step plainSo) plainHead early = some t ∧ s.seen = t.seen := by
  obtain ⟨s,hs⟩ := Option.isSome_iff_exists.mp (show (exec (step plainSo) plainHead late).isSome = true from rfl)
  obtain ⟨t,ht⟩ := Option.isSome_iff_exists.mp (show (exec (step plainSo) plainHead early).isSome = true from rfl)
  have hs0 : s.rput = [] := by
    obtain rfl := Option.some.inj hs
    decide +kernel
  have ht0 : t.rput = [] := by
    obtain rfl := Option.some.inj ht
    decide +kernel
  refine ⟨s,t,hs,ht,(schedules_agree rfl ?_ ?_ hs ht hs0 ht0).1⟩
  · decide +kernel
  · decide +kernel

/- The M_FLUSH frees an M_HANGUP, if that has not been processed before. -/
theorem hangup_lost : ¬ ∀ so err opts as bs s t, arrivals as = arrivals bs → exec (step so) (init err opts) as = some s →
    exec (step so) (init err opts) bs = some t → s.rput = [] → t.rput = [] →
    s.seen = t.seen ∧ Meets (step so) Discards (init err opts) as ∧ Meets (step so) Discards (init err opts) bs := by
  intro h
  have hs := (h plainSo plainHead.err plainHead.opts [.rput (mesgOf M_HANGUP 0 []),.rput (mesgOf M_FLUSH 0 [1])]
    [.rput (mesgOf M_HANGUP 0 []),.rsrv,.rput (mesgOf M_FLUSH 0 [1])] _ _ rfl rfl rfl rfl rfl).1
  exact Bool.noConfusion (congrArg strhup hs)

end Shead

end CSLiS.Head
