import CSLiS.Write.Strwrite
import CSLiS.Lib.Exec

/-!
# Written data is sent once (head/head.c, head/stream.c)

A task's bytes are those of the messages passed downstream and then of the one that is held, as long as the
queue runner and a writer do not have `sd_wmsg` at the same time and no call that has written bytes ends
with an error. Nothing in the code keeps them apart: the runner locks the queue, the writers take the
semaphore.
-/

namespace CSLiS.Write
open Lib.Crew Lib.Exec Queue

variable {m : Wmsgs} {b i k : ℕ} {bytes : List (ℕ × Uchar)}

/-! ### The messages -/

namespace Wmsgs

def ids (m : Wmsgs) : List ℕ := m.passed.map Prod.fst

/- The data of `sd_wmsg`, unless it was passed already. -/
def heldBytes (m : Wmsgs) : List (ℕ × Uchar) :=
  match m.wmsg with
  | none => []
  | some b => if b ∈ m.ids then [] else (m.blk b).data

/- The data passed downstream and the data held, in this order. -/
def stream (m : Wmsgs) : List (ℕ × Uchar) := (m.passed.map Prod.snd).flatten ++ m.heldBytes

/- No message is passed twice or changed after it was passed, and the numbers are fresh. -/
structure Good (m : Wmsgs) : Prop where
  once : m.ids.Nodup
  unchanged : ∀ p ∈ m.passed, (m.blk p.1).data = p.2
  ids_lt : ∀ b ∈ m.ids, b < m.next
  wmsg_lt : ∀ b ∈ m.wmsg, b < m.next

theorem heldBytes_none (h : m.wmsg = none) : m.heldBytes = [] := by simp only [heldBytes,h]

theorem heldBytes_passed (h : m.wmsg = some b) (hb : b ∈ m.ids) : m.heldBytes = [] := by
  simp only [heldBytes,h,if_pos hb]

theorem heldBytes_held (h : m.wmsg = some b) (hb : b ∉ m.ids) : m.heldBytes = (m.blk b).data := by
  simp only [heldBytes,h,if_neg hb]

theorem heldBytes_gone (h : ∀ b ∈ m.wmsg, b ∈ m.ids) : m.heldBytes = [] := by
  cases hw : m.wmsg with
  | none => exact heldBytes_none hw
  | some b => exact heldBytes_passed hw (h b hw)

theorem mem_ids {p : ℕ × List (ℕ × Uchar)} (h : p ∈ m.passed) : p.1 ∈ m.ids := List.mem_map_of_mem h

/- What a change of a block that was not passed leaves. -/
theorem unchanged_update (h : m.Good) (hb : b ∉ m.ids) (x : Wblk) :
    ∀ p ∈ m.passed, (Function.update m.blk b x p.1).data = p.2 := by
  intro p hp
  have hne : p.1 ≠ b := fun he => hb (he ▸ mem_ids hp)
  rw [Function.update_of_ne hne]
  exact h.unchanged p hp

theorem fresh (h : m.Good) : m.next ∉ m.ids := fun hm => lt_irrefl _ (h.ids_lt _ hm)

theorem Good.alloc (h : m.Good) (room : ℤ) : (m.alloc room).Good where
  once := h.once
  unchanged := unchanged_update h (fresh h) _
  ids_lt := fun b hb => Nat.lt_succ_of_lt (h.ids_lt b hb)
  wmsg_lt := by
    intro b hb
    obtain rfl := Option.some.inj hb
    exact Nat.lt_succ_self _

theorem stream_alloc (h : m.Good) (hw : m.wmsg = none) (room : ℤ) : (m.alloc room).stream = m.stream := by
  have hnew : (m.alloc room).heldBytes = [] := by
    rw [heldBytes_held (m := m.alloc room) (b := m.next) rfl (fresh h)]
    simp only [Wmsgs.alloc,Function.update_self]
  rw [stream,hnew,stream,heldBytes_none hw]
  rfl

theorem append_data (x : ℕ) :
    ((m.append b bytes).blk x).data = (m.blk x).data ++ if x = b then bytes else [] := by
  by_cases hx : x = b
  · subst hx
    simp [Wmsgs.append]
  · simp [Wmsgs.append,hx]

theorem Good.append (h : m.Good) (hb : bytes = [] ∨ b ∉ m.ids) : (m.append b bytes).Good where
  once := h.once
  unchanged := by
    intro p hp
    have hnone : (if p.1 = b then bytes else []) = [] := by
      rcases hb with rfl | hb
      · exact ite_self _
      · exact if_neg fun he : p.1 = b => hb (he ▸ mem_ids hp)
    rw [append_data,hnone,List.append_nil]
    exact h.unchanged p hp
  ids_lt := h.ids_lt
  wmsg_lt := h.wmsg_lt

theorem stream_append (hb : bytes = [] ∨ (m.wmsg = some b ∧ b ∉ m.ids)) :
    (m.append b bytes).stream = m.stream ++ bytes := by
  have hheld : (m.append b bytes).heldBytes = m.heldBytes ++ bytes := by
    rcases hb with rfl | ⟨hw,hb⟩
    · simp only [heldBytes,append_data,ite_self,List.append_nil]
      rfl
    · rw [heldBytes_held hw hb,heldBytes_held (m := m.append b bytes) hw hb,append_data,if_pos rfl]
  rw [stream,hheld,stream,List.append_assoc]
  rfl

theorem putnext_some (h : m.wmsg = some b) :
    m.putnext = { m with passed := m.passed ++ [(b,(m.blk b).data)] } := by simp only [putnext,h]

theorem putnext_none (h : m.wmsg = none) : m.putnext = m := by simp only [putnext,h]

@[simp] theorem putnext_wmsg (m : Wmsgs) : m.putnext.wmsg = m.wmsg := by
  cases h : m.wmsg with
  | none => rw [putnext_none h,h]
  | some b => rw [putnext_some h,h]

theorem ids_putnext (h : m.wmsg = some b) : m.putnext.ids = m.ids ++ [b] := by
  rw [putnext_some h,ids,ids,List.map_append]
  rfl

theorem putnext_mem (m : Wmsgs) : ∀ b ∈ m.putnext.wmsg, b ∈ m.putnext.ids := by
  intro b hb
  rw [putnext_wmsg] at hb
  rw [ids_putnext hb]
  exact List.mem_append_right _ (List.mem_singleton_self b)

theorem Good.putnext (h : m.Good) (hb : ∀ b ∈ m.wmsg, b ∉ m.ids) : m.putnext.Good := by
  cases hw : m.wmsg with
  | none => rwa [putnext_none hw]
  | some b =>
    have hids := ids_putnext hw
    refine ⟨?_,?_,?_,?_⟩
    · rw [hids]
      exact List.Nodup.append h.once (List.nodup_singleton b) (List.disjoint_singleton.mpr (hb b hw))
    · rw [putnext_some hw]
      intro p hp
      rcases List.mem_append.mp hp with hp | hp
      · exact h.unchanged p hp
      · rw [List.mem_singleton.mp hp]
    · rw [hids,putnext_some hw]
      intro x hx
      rcases List.mem_append.mp hx with hx | hx
      · exact h.ids_lt x hx
      · rw [List.mem_singleton.mp hx]
        exact h.wmsg_lt b hw
    · rw [putnext_some hw]
      exact h.wmsg_lt

theorem stream_putnext (hb : ∀ b ∈ m.wmsg, b ∉ m.ids) : m.putnext.stream = m.stream := by
  cases hw : m.wmsg with
  | none => rw [putnext_none hw]
  | some b =>
    rw [stream,heldBytes_gone (putnext_mem m),stream,heldBytes_held hw (hb b hw),putnext_some hw]
    simp only [List.map_append,List.map_cons,List.map_nil,List.flatten_append,List.flatten_cons,
      List.flatten_nil,List.append_nil]

theorem Good.clear (h : m.Good) : m.clear.Good := ⟨h.once,h.unchanged,h.ids_lt,nofun⟩

theorem stream_clear (hb : ∀ b ∈ m.wmsg, b ∈ m.ids) : m.clear.stream = m.stream := by
  rw [stream,stream,heldBytes_gone hb]
  rfl

end Wmsgs

/-! ### Calls and tasks -/

/- An int can count what the call writes, and has done so up to `ubuff`. -/
structure Wcall.Ok (c : Wcall) : Prop where
  written : c.written = c.off
  off_le : c.off ≤ c.buf.length
  length_lt : c.buf.length < 2 ^ 31

namespace Wcall

variable {c : Wcall}

theorem Ok.chunk_eq (h : c.Ok) : c.chunk = min LIS_MAXPSZ (c.buf.length - c.off) := by
  obtain ⟨h1,h2,h3⟩ := h
  rw [chunk,sizeT,h1]
  omega

theorem Ok.advance (h : c.Ok) : c.advance.Ok := by
  have hc := h.chunk_eq
  obtain ⟨h1,h2,h3⟩ := h
  refine ⟨?_,?_,h3⟩
  · simp only [Wcall.advance,h1]
    rw [Int.bmod_eq_of_le (by omega) (by omega)]
    push_cast
    rfl
  · simp only [Wcall.advance]
    omega

theorem Ok.bytes_length (h : c.Ok) : c.bytes.length = c.chunk := by
  have hc := h.chunk_eq
  rw [bytes,List.length_take,List.length_drop]
  omega

theorem take_advance (c : Wcall) : c.buf.take c.advance.off = c.buf.take c.off ++ c.bytes := List.take_add

end Wcall

def Wplace.inCall (p : Wplace) : List Uchar := p.call.elim [] fun c => c.buf.take c.off

/- The bytes that the calls of the task have written, in the order of the calls. -/
def Writer.said (w : Writer) : List Uchar := w.reported ++ w.place.inCall

def Writer.isInside (w : Writer) : Bool := w.place.isInside
def Writer.isSent (w : Writer) : Bool := w.place.isSent

/- What a writer that has the semaphore knows of `sd_wmsg`. -/
def Wplace.Here (wmsg : Option ℕ) : Wplace → Prop
  | .alloc _ => wmsg = none
  | .fill _ held _ => ∀ b ∈ wmsg, b = held
  | _ => True

theorem here_outside {p : Wplace} (h : p.isInside = false) (wmsg : Option ℕ) : p.Here wmsg := by
  cases p with
  | idle | top => trivial
  | alloc | fill | full | send | sent => cases h

def ofTask (i : ℕ) (l : List (ℕ × Uchar)) : List Uchar := (l.filter fun x => x.1 == i).map Prod.snd

theorem ofTask_append (i : ℕ) (l k : List (ℕ × Uchar)) : ofTask i (l ++ k) = ofTask i l ++ ofTask i k := by
  rw [ofTask,List.filter_append,List.map_append]
  rfl

theorem ofTask_tag (i j : ℕ) (l : List Uchar) : ofTask j (l.map fun x => (i,x)) = if i = j then l else [] := by
  rw [ofTask,List.filter_map,List.map_map]
  by_cases hij : i = j
  · subst hij
    simp [Function.comp_def]
  · simp [Function.comp_def,hij]

namespace WriteHead

variable {s t : WriteHead} {w w' : Writer} {l : List Uchar} {r r' : Runner} {a : Wact}

def written (s : WriteHead) (i : ℕ) : List Uchar := s.writers[i]?.elim [] Writer.said

/- Those who have passed `sd_wmsg` downstream and are to clear it. -/
def owners (s : WriteHead) : ℕ := tally Runner.isPassed s.runners + tally Writer.isSent s.writers

/- How copying to the held message may go on: nothing was written before the copy fails, the message is still
the one in `sd_wmsg`, and no queue runner has sent it. -/
def FillOk (s : WriteHead) (err : ℤ) : Wplace → Prop
  | .fill c held _ => c.chunk ≤ (s.msgs.blk held).room →
      if err < 0 then c.written = 0
      else 0 < c.chunk → s.msgs.wmsg = some held ∧ tally Runner.isPassed s.runners = 0
  | _ => True

def Guard (s : WriteHead) : Wact → Prop
  | .write _ buf _ => buf.length < 2 ^ 31
  | .refuse i _ => ∀ w ∈ s.writers[i]?, ∀ c ∈ w.place.call, c.written = 0
  | .fill i err _ => ∀ w ∈ s.writers[i]?, s.FillOk err w.place
  | .putnext _ => s.msgs.wmsg ≠ none → tally Runner.isPassed s.runners = 0
  | .pass k ret => 0 ≤ ret ∧ s.runners[k]? = some (.free false) ∧ s.msgs.wmsg ≠ none →
      tally Writer.isSent s.writers = 0
  | _ => True

instance decFillOk (s : WriteHead) (err : ℤ) : ∀ p, Decidable (s.FillOk err p)
  | .fill c held _ => inferInstanceAs (Decidable (c.chunk ≤ (s.msgs.blk held).room →
      if err < 0 then c.written = 0
      else 0 < c.chunk → s.msgs.wmsg = some held ∧ tally Runner.isPassed s.runners = 0))
  | .idle | .top _ | .alloc _ | .full _ | .send _ | .sent _ => inferInstanceAs (Decidable True)

instance decGuard (s : WriteHead) : ∀ a, Decidable (s.Guard a)
  | .write _ buf _ => inferInstanceAs (Decidable (buf.length < 2 ^ 31))
  | .refuse i _ => inferInstanceAs (Decidable (∀ w ∈ s.writers[i]?, ∀ c ∈ w.place.call, c.written = 0))
  | .fill i err _ => inferInstanceAs (Decidable (∀ w ∈ s.writers[i]?, s.FillOk err w.place))
  | .putnext _ => inferInstanceAs (Decidable (s.msgs.wmsg ≠ none → tally Runner.isPassed s.runners = 0))
  | .pass k ret => inferInstanceAs (Decidable (0 ≤ ret ∧ s.runners[k]? = some (.free false) ∧ s.msgs.wmsg ≠ none →
      tally Writer.isSent s.writers = 0))
  | .down _ | .alloc .. | .untimeout _ | .clear _ | .expire | .flag _ | .scan | .take _ | .unflag .. | .done _ =>
      inferInstanceAs (Decidable True)

structure Inv (s : WriteHead) : Prop where
  good : s.msgs.Good
  calls : ∀ w ∈ s.writers, ∀ c ∈ w.place.call, c.Ok
  carried : ∀ i, ofTask i s.msgs.stream = s.written i
  sem : s.writeSem + tally Writer.isInside s.writers = 1
  one : s.owners ≤ 1
  gone : ∀ b ∈ s.msgs.wmsg, (b ∈ s.msgs.ids ↔ 0 < s.owners)
  runner : 0 < tally Runner.isPassed s.runners → s.msgs.wmsg ≠ none
  here : ∀ w ∈ s.writers, w.place.Here s.msgs.wmsg

theorem forall_set {α : Type*} {P : α → Prop} {xs : List α} {x : α} (h : ∀ y ∈ xs, P y) (hx : P x) :
    ∀ y ∈ xs.set i x, P y := by
  intro y hy
  rcases List.mem_or_eq_of_mem_set hy with hy | rfl
  · exact h y hy
  · exact hx

theorem written_set (hw : s.writers[i]? = some w) (ht : t.writers = s.writers.set i w') (hs : w'.said = w.said ++ l)
    (j : ℕ) : t.written j = s.written j ++ if i = j then l else [] := by
  have hlt := (List.getElem?_eq_some_iff.mp hw).1
  rw [written,written,ht,List.getElem?_set]
  by_cases hij : i = j
  · subst hij
    simp only [if_pos hlt,hw,Option.elim_some,hs,if_true]
  · simp only [if_neg hij,List.append_nil]

/- The invariant after a step of a writer. -/
theorem Inv.writer (hi : s.Inv) (hw : s.writers[i]? = some w) (ht : t.writers = s.writers.set i w')
    (hgood : t.msgs.Good) (hc : ∀ c ∈ w'.place.call, c.Ok)
    (hstream : t.msgs.stream = s.msgs.stream ++ l.map fun x => (i,x)) (hsaid : w'.said = w.said ++ l)
    (hsem : t.writeSem + w'.isInside.toNat = s.writeSem + w.isInside.toNat)
    (hone : t.owners ≤ 1) (hgone : ∀ b ∈ t.msgs.wmsg, (b ∈ t.msgs.ids ↔ 0 < t.owners))
    (hrunner : 0 < tally Runner.isPassed t.runners → t.msgs.wmsg ≠ none)
    (hhere : ∀ w ∈ t.writers, w.place.Here t.msgs.wmsg) : t.Inv where
  good := hgood
  calls := ht ▸ forall_set hi.calls hc
  carried := by
    intro j
    rw [hstream,ofTask_append,hi.carried,written_set hw ht hsaid,ofTask_tag]
  sem := by
    have hset := tally_set hw w' Writer.isInside
    have := hi.sem
    rw [ht]
    omega
  one := hone
  gone := hgone
  runner := hrunner
  here := hhere

/- The step leaves `sd_wmsg` and what was passed. -/
theorem Inv.kept (hi : s.Inv) (hw : s.writers[i]? = some w) (ht : t.writers = s.writers.set i w')
    (hr : t.runners = s.runners) (hm : t.msgs.wmsg = s.msgs.wmsg) (hids : t.msgs.ids = s.msgs.ids)
    (hgood : t.msgs.Good) (hc : ∀ c ∈ w'.place.call, c.Ok)
    (hstream : t.msgs.stream = s.msgs.stream ++ l.map fun x => (i,x)) (hsaid : w'.said = w.said ++ l)
    (hsem : t.writeSem + w'.isInside.toNat = s.writeSem + w.isInside.toNat)
    (hsent : w'.isSent = w.isSent) (hhere : w'.place.Here s.msgs.wmsg) : t.Inv := by
  have howners : t.owners = s.owners := by
    have hset := tally_set hw w' Writer.isSent
    rw [hsent] at hset
    rw [owners,owners,ht,hr]
    omega
  refine hi.writer hw ht hgood hc hstream hsaid hsem (howners ▸ hi.one) ?_ ?_ ?_
  · rw [hm,hids,howners]
    exact hi.gone
  · rw [hm,hr]
    exact hi.runner
  · rw [hm,ht]
    exact forall_set hi.here hhere

/- The messages are left alone. -/
theorem Inv.quiet (hi : s.Inv) (hw : s.writers[i]? = some w) (ht : t.writers = s.writers.set i w')
    (hr : t.runners = s.runners) (hm : t.msgs = s.msgs) (hc : ∀ c ∈ w'.place.call, c.Ok) (hsaid : w'.said = w.said)
    (hsem : t.writeSem + w'.isInside.toNat = s.writeSem + w.isInside.toNat)
    (hsent : w'.isSent = w.isSent) (hhere : w'.place.Here s.msgs.wmsg) : t.Inv :=
  hi.kept (l := []) hw ht hr (hm ▸ rfl) (hm ▸ rfl) (hm ▸ hi.good) hc (by rw [hm,List.map_nil,List.append_nil])
    (by rw [hsaid,List.append_nil]) hsem hsent hhere

theorem Inv.zero (hi : s.Inv) (hw : s.writers[i]? = some w) (hin : w.isInside = true) (hns : w.isSent = false) :
    tally Writer.isSent s.writers = 0 := by
  have hone : tally Writer.isInside s.writers ≤ 1 := by have := hi.sem; omega
  refine tally_zero_of_alone hone hw hin (fun x hx => ?_) hns
  rcases x with ⟨p,_⟩
  cases p with
  | sent c => rfl
  | idle | top | alloc | fill | full | send => cases hx

theorem fill_inv (hi : s.Inv) {c : Wcall} {held : ℕ} {newmsg holding : Bool} {err : ℤ} {r : List Uchar}
    (hw : s.writers[i]? = some ⟨.fill c held newmsg,r⟩) (hg : s.FillOk err (.fill c held newmsg)) :
    (s.fillHeld i r c held newmsg err holding).Inv := by
  have hok : c.Ok := hi.calls _ (List.mem_of_getElem? hw) c rfl
  have hfull : (s.move i r (.full c)).Inv :=
    hi.quiet hw rfl rfl rfl (fun d hd => Option.some.inj hd ▸ hok) rfl rfl rfl trivial
  rw [fillHeld]
  split
  · next hroom =>
    have hg := hg hroom
    split
    · next herr =>
      rw [if_pos herr] at hg
      have hoff : c.off = 0 := by have := hok.written; omega
      refine hi.quiet hw rfl rfl rfl nofun ?_ rfl rfl trivial
      simp only [Writer.said,Wplace.inCall,Wplace.call,Option.elim,hoff,Int.toNat_of_nonpos herr.le]
      simp
    · next herr =>
      rw [if_neg herr] at hg
      have hbytes : (c.bytes.map fun x => (i,x)) = [] ∨ (s.msgs.wmsg = some held ∧ held ∉ s.msgs.ids) := by
        by_cases hc : 0 < c.chunk
        · obtain ⟨h1,h2⟩ := hg hc
          have h3 := hi.zero hw rfl rfl
          refine Or.inr ⟨h1,fun hmem => ?_⟩
          have := (hi.gone held h1).mp hmem
          rw [owners] at this
          omega
        · have hlen := hok.bytes_length
          exact Or.inl (List.map_eq_nil_iff.mpr (List.length_eq_zero_iff.mp (by omega)))
      have hgood := hi.good.append (hbytes.imp_right And.right)
      have hstream := Wmsgs.stream_append hbytes
      have hadv := hok.advance
      dsimp only
      split
      · refine hi.kept hw rfl rfl rfl rfl hgood nofun hstream ?_ rfl rfl trivial
        have hn : c.advance.written.toNat = c.advance.off := by rw [hadv.written]; rfl
        simp only [Writer.said,Wplace.inCall,Wplace.call,Option.elim,hn,List.append_nil,List.append_assoc]
        rw [show c.advance.buf = c.buf from rfl,c.take_advance]
      · refine hi.kept hw rfl rfl rfl rfl hgood (fun d hd => Option.some.inj hd ▸ hadv) hstream ?_ rfl rfl trivial
        simp only [Writer.said,Wplace.inCall,Wplace.call,Option.elim,List.append_assoc]
        rw [show c.advance.buf = c.buf from rfl,c.take_advance]
  · exact hfull

theorem alloc_inv (hi : s.Inv) {c : Wcall} {r : List Uchar} (hw : s.writers[i]? = some ⟨.alloc c,r⟩) (room : ℤ) :
    ({ s with msgs := s.msgs.alloc room }.move i r (.fill c s.msgs.next true)).Inv := by
  have hok : c.Ok := hi.calls _ (List.mem_of_getElem? hw) c rfl
  have hnull : s.msgs.wmsg = none := hi.here _ (List.mem_of_getElem? hw)
  have hrun : tally Runner.isPassed s.runners = 0 := by
    by_contra hne
    exact hi.runner (Nat.pos_of_ne_zero hne) hnull
  have hsent := hi.zero hw rfl rfl
  have howners : owners ({ s with msgs := s.msgs.alloc room }.move i r (.fill c s.msgs.next true)) = 0 := by
    have hset := tally_set hw ⟨.fill c s.msgs.next true,r⟩ Writer.isSent
    simp only [Writer.isSent,Wplace.isSent,Bool.toNat_false,Nat.add_zero] at hset
    simp only [owners,move]
    exact Nat.add_eq_zero_iff.mpr ⟨hrun,hset.trans hsent⟩
  refine hi.writer hw rfl (hi.good.alloc room) (fun d hd => Option.some.inj hd ▸ hok) (l := [])
    (by rw [List.map_nil,List.append_nil]; exact Wmsgs.stream_alloc hi.good hnull room)
    (List.append_nil _).symm rfl (by omega) ?_ nofun ?_
  · intro b hb
    obtain rfl := Option.some.inj hb
    rw [howners]
    exact iff_of_false (Wmsgs.fresh hi.good) (lt_irrefl 0)
  · intro v hv
    have hone : tally Writer.isInside s.writers ≤ 1 := by have := hi.sem; omega
    rcases tally_alone hone hw rfl ⟨.fill c s.msgs.next true,r⟩ v hv with rfl | hout
    · exact fun b hb => (Option.some.inj hb).symm
    · exact here_outside hout _

theorem putnext_inv (hi : s.Inv) {c : Wcall} {r : List Uchar} (hw : s.writers[i]? = some ⟨.send c,r⟩)
    (hg : s.msgs.wmsg ≠ none → tally Runner.isPassed s.runners = 0) :
    ({ s with msgs := s.msgs.putnext }.move i r (.sent c)).Inv := by
  have hok : c.Ok := hi.calls _ (List.mem_of_getElem? hw) c rfl
  have hrun : tally Runner.isPassed s.runners = 0 := by
    by_contra hne
    exact hne (hg (hi.runner (Nat.pos_of_ne_zero hne)))
  have hsent := hi.zero hw rfl rfl
  have hnew : ∀ b ∈ s.msgs.wmsg, b ∉ s.msgs.ids := by
    intro b hb hmem
    have := (hi.gone b hb).mp hmem
    rw [owners] at this
    omega
  have howners : owners ({ s with msgs := s.msgs.putnext }.move i r (.sent c)) = 1 := by
    have hset := tally_set hw ⟨.sent c,r⟩ Writer.isSent
    simp only [Writer.isSent,Wplace.isSent,Bool.toNat_false,Bool.toNat_true,Nat.add_zero] at hset
    rw [hsent] at hset
    simp only [owners,move,hrun,Nat.zero_add]
    exact hset
  refine hi.writer hw rfl (hi.good.putnext hnew) (fun d hd => Option.some.inj hd ▸ hok) (l := [])
    (by rw [List.map_nil,List.append_nil]; exact Wmsgs.stream_putnext hnew)
    (List.append_nil _).symm rfl howners.le ?_ ?_ ?_
  · intro b hb
    rw [howners]
    exact iff_of_true (Wmsgs.putnext_mem _ b hb) Nat.one_pos
  · intro hpos
    exact absurd hrun hpos.ne'
  · simp only [move,Wmsgs.putnext_wmsg]
    exact forall_set hi.here trivial

theorem here_none {p : Wplace} {wmsg : Option ℕ} (h : p.Here wmsg) : p.Here none := by
  cases p with
  | alloc => rfl
  | fill => nofun
  | idle | top | full | send | sent => trivial

theorem clear_inv (hi : s.Inv) {c : Wcall} {r r' : List Uchar} {p : Wplace}
    (hw : s.writers[i]? = some ⟨.sent c,r⟩) (hp : p.isInside = false) (hc : ∀ c ∈ p.call, c.Ok)
    (hsaid : Writer.said ⟨p,r'⟩ = Writer.said ⟨.sent c,r⟩) :
    ({ s with msgs := s.msgs.clear }.lisUp.move i r' p).Inv := by
  have hone := hi.one
  have hset := tally_set hw ⟨p,r'⟩ Writer.isSent
  have hps : Writer.isSent ⟨p,r'⟩ = false := by
    cases p with
    | sent => cases hp
    | idle | top | alloc | fill | full | send => rfl
  have hpos : 0 < s.owners := Nat.add_pos_right _ (tally_pos hw rfl)
  rw [hps] at hset
  simp only [Writer.isSent,Wplace.isSent,Bool.toNat_false,Bool.toNat_true] at hset
  refine hi.writer hw rfl hi.good.clear hc (l := []) ?_ (hsaid.trans (List.append_nil _).symm) ?_ ?_ nofun ?_ ?_
  · rw [List.map_nil,List.append_nil]
    exact Wmsgs.stream_clear fun b hb => (hi.gone b hb).mpr hpos
  · simp only [lisUp,move,Writer.isInside,hp]
    rfl
  · simp only [owners,move,lisUp] at hone ⊢
    omega
  · simp only [owners,move,lisUp] at hone ⊢
    omega
  · exact forall_set (fun w hw => here_none (hi.here w hw)) (here_outside hp _)

/- A runner moves, and has `sd_wmsg` neither before nor after. -/
theorem Inv.runs (hi : s.Inv) (hr : s.runners[k]? = some r) (ht : t.runners = s.runners.set k r')
    (h1 : r.isPassed = false) (h2 : r'.isPassed = false) (hm : t.msgs = s.msgs) (hw : t.writers = s.writers)
    (hs : t.writeSem = s.writeSem) : t.Inv := by
  have htally : tally Runner.isPassed t.runners = tally Runner.isPassed s.runners := by
    have hset := tally_set hr r' Runner.isPassed
    rw [h1,h2] at hset
    rw [ht]
    omega
  have howners : t.owners = s.owners := by rw [owners,owners,htally,hw]
  refine ⟨hm ▸ hi.good,hw ▸ hi.calls,?_,?_,howners ▸ hi.one,?_,?_,?_⟩
  · intro j
    rw [hm,hi.carried,written,written,hw]
  · rw [hs,hw]
    exact hi.sem
  · rw [hm,howners]
    exact hi.gone
  · rw [htally,hm]
    exact hi.runner
  · rw [hw,hm]
    exact hi.here

theorem pass_inv (hi : s.Inv) (hr : s.runners[k]? = some (.free false)) (hw : s.msgs.wmsg ≠ none)
    (hg : tally Writer.isSent s.writers = 0) (hl : tally Runner.isPassed s.runners = 0) :
    ({ s with msgs := s.msgs.putnext }.run k .passed).Inv := by
  have hset := tally_set hr .passed Runner.isPassed
  simp only [Runner.isPassed,Bool.toNat_false,Bool.toNat_true,Nat.add_zero] at hset
  rw [hl] at hset
  have howners : owners ({ s with msgs := s.msgs.putnext }.run k .passed) = 1 := by
    simp only [owners,run,hg,Nat.add_zero]
    exact hset
  have hnew : ∀ b ∈ s.msgs.wmsg, b ∉ s.msgs.ids := by
    intro b hb hmem
    have := (hi.gone b hb).mp hmem
    rw [owners] at this
    omega
  refine ⟨hi.good.putnext hnew,hi.calls,?_,hi.sem,howners.le,?_,?_,?_⟩
  · intro j
    exact (congrArg _ (Wmsgs.stream_putnext hnew)).trans (hi.carried j)
  · intro b hb
    rw [howners]
    exact iff_of_true (Wmsgs.putnext_mem _ b hb) Nat.one_pos
  · intro _
    simp only [run,Wmsgs.putnext_wmsg]
    exact hw
  · simp only [run,Wmsgs.putnext_wmsg]
    exact hi.here

theorem done_inv (hi : s.Inv) (hr : s.runners[k]? = some .passed) :
    ({ s with msgs := s.msgs.clear }.run k .idle).Inv := by
  have hone := hi.one
  have hset := tally_set hr .idle Runner.isPassed
  have hpos : 0 < s.owners := Nat.add_pos_left (tally_pos hr rfl) _
  simp only [Runner.isPassed,Bool.toNat_false,Bool.toNat_true,Nat.add_zero] at hset
  refine ⟨hi.good.clear,hi.calls,?_,hi.sem,?_,nofun,?_,?_⟩
  · intro j
    exact (congrArg _ (Wmsgs.stream_clear fun b hb => (hi.gone b hb).mpr hpos)).trans (hi.carried j)
  · simp only [owners,run] at hone ⊢
    omega
  · simp only [owners,run] at hone ⊢
    omega
  · exact fun w hw => here_none (hi.here w hw)

theorem step_inv (hi : s.Inv) (hg : s.Guard a) (h : s.step a = some t) : t.Inv := by
  cases a with
  | write i buf sndzero =>
    simp only [step] at h
    split at h
    next r hw =>
      split_ifs at h
      · exact Option.some.inj h ▸ hi
      · obtain rfl := Option.some.inj h
        refine hi.quiet hw rfl rfl rfl ?_ ?_ rfl rfl trivial
        · intro c hc
          obtain rfl := Option.some.inj hc
          exact ⟨rfl,Nat.zero_le _,hg⟩
        · simp [Writer.said,Wplace.inCall,Wplace.call]
    next => cases h
  | refuse i err =>
    simp only [step] at h
    split at h
    next c r hw =>
      simp only [Option.ite_none_right_eq_some,Option.some.injEq] at h
      obtain ⟨herr,rfl⟩ := h
      have hok : c.Ok := hi.calls _ (List.mem_of_getElem? hw) c rfl
      have hzero : c.written = 0 := hg _ hw c rfl
      have hoff : c.off = 0 := by have := hok.written; omega
      refine hi.quiet hw rfl rfl rfl nofun ?_ rfl rfl trivial
      simp [Writer.said,Wplace.inCall,Wplace.call,hoff,Int.toNat_of_nonpos herr.le]
    next => cases h
  | down i =>
    simp only [step] at h
    split at h
    next c r hw =>
      simp only [Option.ite_none_right_eq_some,Option.some.injEq] at h
      obtain ⟨hsem,rfl⟩ := h
      have hok : c.Ok := hi.calls _ (List.mem_of_getElem? hw) c rfl
      have hdown : s.writeSem - 1 + 1 = s.writeSem + 0 := by omega
      cases hm : s.msgs.wmsg with
      | none => exact hi.quiet hw rfl rfl rfl (fun d hd => Option.some.inj hd ▸ hok) rfl hdown rfl hm
      | some b =>
        refine hi.quiet hw rfl rfl rfl (fun d hd => Option.some.inj hd ▸ hok) rfl hdown rfl ?_
        intro x hx
        exact Option.some.inj (hx.symm.trans hm)
    next => cases h
  | alloc i ok wroff wroff' =>
    simp only [step] at h
    split at h
    next c r hw =>
      cases ok with
      | true => exact Option.some.inj h ▸ alloc_inv hi hw _
      | false =>
        obtain rfl := Option.some.inj h
        have hok : c.Ok := hi.calls _ (List.mem_of_getElem? hw) c rfl
        have hn : (if c.written ≠ 0 then c.written else -ENOMEM).toNat = c.off := by
          have := hok.written
          split_ifs
          · omega
          · rw [ENOMEM]
            omega
        refine hi.quiet hw rfl rfl rfl nofun ?_ rfl rfl trivial
        simp only [Writer.said,Wplace.inCall,Wplace.call,Option.elim,hn,List.append_nil]
    next => cases h
  | fill i err holding =>
    simp only [step] at h
    split at h
    next c held newmsg r hw => exact Option.some.inj h ▸ fill_inv hi hw (hg _ hw)
    next => cases h
  | untimeout i =>
    simp only [step] at h
    split at h
    next c r hw =>
      have hok : c.Ok := hi.calls _ (List.mem_of_getElem? hw) c rfl
      obtain rfl := Option.some.inj h
      exact hi.quiet hw rfl rfl rfl (fun d hd => Option.some.inj hd ▸ hok) rfl rfl rfl trivial
    next => cases h
  | putnext i =>
    simp only [step] at h
    split at h
    next c r hw => exact Option.some.inj h ▸ putnext_inv hi hw hg
    next => cases h
  | clear i =>
    simp only [step] at h
    split at h
    next c r hw =>
      have hok : c.Ok := hi.calls _ (List.mem_of_getElem? hw) c rfl
      obtain rfl := Option.some.inj h
      split_ifs with hmore
      · exact clear_inv hi hw rfl (fun d hd => Option.some.inj hd ▸ hok) rfl
      · refine clear_inv hi hw rfl nofun ?_
        have hn : c.written.toNat = c.off := by rw [hok.written]; rfl
        simp only [Writer.said,Wplace.inCall,Wplace.call,Option.elim,hn,List.append_nil]
    next => cases h
  | expire | scan =>
    simp only [step,Option.ite_none_right_eq_some,Option.some.injEq] at h
    obtain ⟨-,rfl⟩ := h
    exact { hi with }
  | flag procsoff =>
    simp only [step,Option.ite_none_right_eq_some,Option.some.injEq] at h
    obtain ⟨-,rfl⟩ := h
    split <;> exact { hi with }
  | take k =>
    simp only [step,Option.ite_none_right_eq_some,Option.some.injEq] at h
    obtain ⟨⟨hr,-⟩,rfl⟩ := h
    exact hi.runs hr rfl rfl rfl rfl rfl rfl
  | unflag k procsoff =>
    simp only [step,Option.ite_none_right_eq_some,Option.some.injEq] at h
    obtain ⟨hr,rfl⟩ := h
    exact hi.runs hr rfl rfl rfl rfl rfl rfl
  | pass k ret =>
    simp only [step] at h
    split at h
    next procsoff hr =>
      split_ifs at h with hret hlock hsend
      · exact Option.some.inj h ▸ hi.runs hr rfl rfl rfl rfl rfl rfl
      · obtain ⟨rfl,hm⟩ := hsend
        exact Option.some.inj h ▸ pass_inv hi hr hm (hg ⟨Int.not_lt.mp hret,hr,hm⟩) hlock
      · exact Option.some.inj h ▸ hi.runs hr rfl rfl rfl rfl rfl rfl
    next => cases h
  | done k =>
    simp only [step,Option.ite_none_right_eq_some,Option.some.injEq] at h
    obtain ⟨hr,rfl⟩ := h
    exact done_inv hi hr

theorem init_inv (n k : ℕ) : (init n k).Inv := by
  have hidle : ∀ w ∈ (init n k).writers, w = ⟨.idle,[]⟩ := fun w => List.eq_of_mem_replicate
  have h1 : tally Runner.isPassed (init n k).runners = 0 := tally_replicate k rfl
  have h2 : tally Writer.isSent (init n k).writers = 0 := tally_replicate n rfl
  have h3 : tally Writer.isInside (init n k).writers = 0 := tally_replicate n rfl
  refine ⟨⟨List.nodup_nil,nofun,nofun,nofun⟩,?_,?_,?_,?_,nofun,?_,?_⟩
  · intro w hw c hc
    rw [hidle w hw] at hc
    cases hc
  · intro i
    rw [written]
    cases hw : (init n k).writers[i]? with
    | none => rfl
    | some w =>
      rw [hidle w (List.mem_of_getElem? hw)]
      rfl
  · rw [h3]
    rfl
  · rw [owners,h1,h2]
    exact Nat.zero_le 1
  · rw [h1]
    nofun
  · intro w hw
    rw [hidle w hw]
    trivial

end WriteHead

end CSLiS.Write
