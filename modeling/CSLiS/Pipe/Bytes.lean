import CSLiS.Lib.Exec
import CSLiS.Pipe.Ends

/-!
# The bytes that go through

Writes on one end and reads on the other, in any order: the bytes come out as they were written.
-/

namespace CSLiS.Pipe
open Lib.Exec Queue Head Write

/- A message of a write, or what is left of one. -/
structure Plain (m : Mesg) : Prop where
  bCont : m.bCont = []
  dbType : m.blk.dbType = M_DATA
  bBand : m.blk.bBand = 0

variable {m : Mesg} {l : List Mesg} {c : Wreq} {s : Wloc} {a : Write.Pass} {next : Wnext}

theorem sentBlk_data (type band : Uchar) (wroff : ℕ) (bytes : List Uchar) :
    (sentBlk type band wroff bytes).data = bytes := by
  have hlen : (List.replicate wroff (0 : Uchar) ++ bytes).length = wroff + bytes.length := by simp
  simp only [Mblk.data,sentBlk]
  rw [← hlen,List.take_length,List.drop_left' List.length_replicate]

theorem plain_write (wroff : BitVec 16) (bytes : List Uchar) : Plain (writeMesg wroff bytes) := ⟨rfl,rfl,rfl⟩

theorem write_bytes (wroff : BitVec 16) (bytes : List Uchar) : blockBytes (writeMesg wroff bytes).blocks = bytes := by
  rw [Mesg.blocks,blockBytes]
  simp only [writeMesg,List.flatMap_cons,List.flatMap_nil,List.append_nil,sentBlk_data]

namespace Plain

theorem data (h : Plain m) : m.Data := by
  intro b hb
  rw [Mesg.blocks,h.bCont,List.mem_singleton] at hb
  rw [hb,h.dbType]

/- It goes to the end of the queue, behind all bands. -/
theorem lisPutq (h : Plain m) (l : List Mesg) : lisPutq l m = l ++ [m] := by
  have hlo : m.info.hipri = false := h.data.hipri
  have hsplit : tailSplit Mesg.info l m.info = (l,[]) := by
    unfold tailSplit
    cases hl : l.getLast? with
    | none =>
      rw [List.getLast?_eq_none_iff.mp hl]
    | some y =>
      have hle : m.info.bBand ≤ y.info.bBand := by
        rw [show m.info.bBand = 0 from h.bBand]
        exact Fin.zero_le _
      simp only [hlo,hle,Bool.not_false,decide_true,Bool.and_self,if_true,ite_self]
  rw [Head.lisPutq,hsplit,h.data.cleared,ite_self]

theorem fine (h : Plain m) (hf : Fine l) : Fine (l ++ [m]) := by
  refine ⟨fun x hx => ?_,List.pairwise_append.mpr ⟨hf.level,List.pairwise_singleton _ _,fun x _ y hy b _ => ?_⟩⟩
  · rcases List.mem_append.mp hx with hx | hx
    · exact hf.data x hx
    · rw [List.mem_singleton.mp hx]
      exact h.data
  · rw [List.mem_singleton.mp hy,h.bBand]
    exact Fin.zero_le _

theorem strrput (h : Plain m) (hd : Shead) : hd.lisStrrput m = hd.putRput m := by
  have ht : m.dbType = M_DATA := h.dbType
  rw [Shead.lisStrrput,ht,if_neg (by decide),if_neg (by decide),if_neg (by decide)]

theorem takes (h : Plain m) (hd : Shead) : takes hd m = true := by
  have ht : m.isPcproto = false := by
    rw [Mesg.isPcproto,h.data.dbType]
    rfl
  rw [Pipe.takes,ht]
  rfl

theorem process (h : Plain m) (hd : Shead) (so : Mesg → StroptionsT) : hd.lisProcessRput so m = hd.putq m :=
  if_pos (Or.inl h.dbType)

end Plain

theorem content_append (l l' : List Mesg) : content (l ++ l') = content l ++ content l' := List.flatMap_append

/-! ### A write -/

/- What a call has done up to now. -/
structure Wrote (c : Wreq) (s : Wloc) : Prop where
  bytes : s.sent.flatten = c.buf.take s.off
  off : s.off ≤ c.buf.length
  written : s.written = s.off
  whole : (c.buf.length : ℤ) ≤ Write.int c.maxpsz → (s.off = 0 ∨ s.off = c.buf.length) ∧
    ∀ d ∈ s.sent, d = [] ∨ d = c.buf

/- `chunk` is at most what is left. -/
theorem Wrote.chunk (h : Wrote c s) (hlen : c.buf.length < 2 ^ 31) :
    0 ≤ c.chunk s ∧ c.chunk s ≤ c.buf.length - s.off ∧
      ((c.buf.length : ℤ) ≤ Write.int c.maxpsz → c.chunk s = c.buf.length - s.off) := by
  have hoff := h.off
  have hleft : sizeT (c.buf.length - s.written) = c.buf.length - s.off := by
    rw [h.written,Wreq.sizeT_eq (by omega) (by omega)]
    omega
  have hmin := min_le_right (sizeT (Write.int c.maxpsz)) (sizeT (c.buf.length - s.written))
  rw [Wreq.chunk,Wreq.int_eq (by omega) (by omega)]
  refine ⟨by omega,by omega,fun hle => ?_⟩
  have hlt : Write.int c.maxpsz < 2 ^ 32 := by
    have := Int.bmod_lt (x := c.maxpsz) (m := 2 ^ 32) (by norm_num)
    rw [Write.int]
    omega
  rw [hleft,Wreq.sizeT_eq (by omega) (by omega)]
  omega

theorem wrote_init (c : Wreq) (wmsg : Option Held) : Wrote c ⟨wmsg,0,0,[]⟩ :=
  ⟨rfl,Nat.zero_le _,rfl,fun _ => ⟨Or.inl rfl,fun _ hd => absurd hd List.not_mem_nil⟩⟩

theorem Wrote.wmsg (h : Wrote c s) (wmsg : Option Held) : Wrote c { s with wmsg := wmsg } :=
  ⟨h.bytes,h.off,h.written,h.whole⟩

/- What a pass does. -/
structure Passed (c : Wreq) (s : Wloc) (next : Wnext) : Prop where
  wrote : Wrote c (locOf next)
  held : ∀ h ∈ (locOf next).wmsg, h.data = []
  more : ∃ ds, (locOf next).sent = s.sent ++ ds
  ret : ∀ r, retOf c next = some r → 0 ≤ r → r = (locOf next).off

theorem Wrote.refused (h : Wrote c s) (hh : ∀ x ∈ s.wmsg, x.data = []) {err : ℤ} (he : err < 0 ∨ err = s.written) :
    Passed c s (.rtn err s) := by
  refine ⟨h,hh,⟨[],(List.append_nil _).symm⟩,fun r hr h0 => ?_⟩
  obtain rfl := Option.some.inj hr
  rcases he with he | he
  · omega
  · exact he.trans h.written

theorem Wrote.goes {t : Wloc} (ht : Wrote c t) (hm : ∃ ds, t.sent = s.sent ++ ds) (hw : ∀ x ∈ t.wmsg, x.data = []) :
    Passed c s (.cont t) := by
  refine ⟨ht,hw,hm,fun r hr _ => ?_⟩
  simp only [retOf] at hr
  split_ifs at hr
  obtain rfl := Option.some.inj hr
  exact ht.written

theorem Wrote.held_nil (hh : ∀ x ∈ s.wmsg, x.data = []) : (c.held s).data = [] := by
  rw [Wreq.held]
  cases hw : s.wmsg with
  | none => rfl
  | some x => exact hh x hw

theorem Wrote.body (h : Wrote c s) (hlen : c.buf.length < 2 ^ 31) (hh : ∀ x ∈ s.wmsg, x.data = [])
    (hb : c.body s a = some next) : Passed c s next := by
  have hnil := Wrote.held_nil (c := c) hh
  cases a with
  | stwrerr e | nolock e | interrupted e =>
    simp only [Wreq.body] at hb
    split_ifs at hb
    obtain rfl := Option.some.inj hb
    exact h.refused hh (Or.inl (by omega))
  | hup | notblock =>
    obtain rfl := Option.some.inj hb
    exact h.refused hh (Or.inl (by decide))
  | waited =>
    obtain rfl := Option.some.inj hb
    exact h.goes ⟨[],(List.append_nil _).symm⟩ hh
  | nomem =>
    simp only [Wreq.body] at hb
    split_ifs at hb with h1 h2
    · obtain rfl := Option.some.inj hb
      exact h.refused hh (Or.inr rfl)
    · obtain rfl := Option.some.inj hb
      exact h.refused hh (Or.inl (by decide))
  | nocopy e =>
    simp only [Wreq.body] at hb
    split_ifs at hb with h1
    obtain rfl := Option.some.inj hb
    refine ⟨h.wmsg _,fun x hx => ?_,⟨[],(List.append_nil _).symm⟩,fun r hr h0 => ?_⟩
    · obtain rfl := Option.some.inj hx
      exact hnil
    · obtain rfl := Option.some.inj hr
      omega
  | pass =>
    obtain ⟨h0,hle,hall⟩ := h.chunk hlen
    simp only [Wreq.body] at hb
    split_ifs at hb with hroom hneg
    · -- the message that is held goes without bytes
      obtain rfl := Option.some.inj hb
      refine Wrote.goes ⟨?_,h.off,h.written,fun hw => ⟨(h.whole hw).1,fun d hd => ?_⟩⟩ ⟨_,rfl⟩ fun x hx => by cases hx
      · simp [hnil,h.bytes]
      · rcases List.mem_append.mp hd with hd | hd
        · exact (h.whole hw).2 d hd
        · exact Or.inl ((List.mem_singleton.mp hd).trans hnil)
    · obtain rfl := Option.some.inj hb
      have hoff := h.off
      have hw := h.written
      refine Wrote.goes ⟨?_,?_,?_,fun hw' => ⟨?_,fun d hd => ?_⟩⟩ ⟨_,rfl⟩ fun x hx => by cases hx
      · simp only [List.flatten_append,List.flatten_cons,List.flatten_nil,List.append_nil,hnil,List.nil_append,h.bytes,
          Wreq.bytes]
        exact List.take_add.symm
      · dsimp only
        omega
      · rw [hw,Wreq.int_eq (by omega) (by omega)]
        push_cast
        omega
      · dsimp only
        rcases (h.whole hw').1 with he | he <;> have := hall hw' <;> omega
      · rcases List.mem_append.mp hd with hd | hd
        · exact (h.whole hw').2 d hd
        · rw [List.mem_singleton.mp hd,hnil,List.nil_append,Wreq.bytes]
          have hc := hall hw'
          rcases (h.whole hw').1 with he | he
          · refine Or.inr ?_
            rw [he,List.drop_zero]
            exact List.take_of_length_le (by omega)
          · refine Or.inl ?_
            rw [he,List.drop_length,List.take_nil]

/-! ### The ends -/

variable {ι : Type} [DecidableEq ι] {peer : ι → ι} {p q : Ends ι} {i j : ι} {n : ℕ} {w : Wcall ι} {ms : List Mesg}

/- The messages of a call. -/
def tagged (l : List (Option ℕ × Mesg)) (n : ℕ) : List Mesg := (l.filter fun x => x.1 == some n).map Prod.snd

/- What there is to read at an end, now or after its service procedure has run. -/
def waiting (p : Ends ι) (j : ι) : List Uchar := content ((p.hd j).rd.msgs ++ (p.hd j).rput)

/- The bytes that were read or wait at the peer are those that were sent, in this order. A write sends a prefix of its
buffer, of the length that it returns if it returns no error, and in one message if that is long enough. -/
structure Delivered (peer : ι → ι) (p : Ends ι) : Prop where
  order : ∀ i, p.got (peer i) ++ waiting p (peer i) = content ((p.sent i).map Prod.snd)
  own : ∀ n w, p.calls[n]? = some w → content (tagged (p.sent w.side) n) <+: w.req.buf
  counted : ∀ n w (r : ℤ), p.calls[n]? = some w → w.ret = some r → 0 ≤ r →
    r = (content (tagged (p.sent w.side) n)).length
  whole : ∀ n w, p.calls[n]? = some w → (w.req.buf.length : ℤ) ≤ Write.int w.req.maxpsz →
    ∀ m ∈ tagged (p.sent w.side) n, blockBytes m.blocks = [] ∨ blockBytes m.blocks = w.req.buf

/- A call has sent what it says it has. -/
structure Fair (p : Ends ι) (n : ℕ) (w : Wcall ι) : Prop where
  wrote : Wrote w.req w.loc
  len : w.req.buf.length < 2 ^ 31
  ret : ∀ r, w.ret = some r → 0 ≤ r → r = w.loc.off
  own : (tagged (p.sent w.side) n).map (fun m => blockBytes m.blocks) = w.loc.sent

structure Flows (peer : ι → ι) (p : Ends ι) : Prop where
  rput : ∀ j, ∀ m ∈ (p.hd j).rput, Plain m
  fine : ∀ j, Fine (p.hd j).rd.msgs
  held : ∀ i, ∀ h ∈ p.wmsg i, h.data = []
  fair : ∀ n w, p.calls[n]? = some w → Fair p n w
  fresh : ∀ i n, p.calls.length ≤ n → tagged (p.sent i) n = []
  order : ∀ i, p.got (peer i) ++ waiting p (peer i) = content ((p.sent i).map Prod.snd)

theorem forall_update {α : Type} {P : α → Prop} {f : ι → α} {b : α} (hj : P b) (h : ∀ k, P (f k)) (k : ι) :
    P (Function.update f j b k) := by
  by_cases hk : k = j
  · subst hk
    rwa [Function.update_self]
  · rw [Function.update_of_ne hk]
    exact h k

theorem tagged_own (l : List (Option ℕ × Mesg)) (n : ℕ) (ms : List Mesg) :
    tagged (l ++ ms.map fun m => (some n,m)) n = tagged l n ++ ms := by
  simp [tagged,List.filter_append,List.filter_map,Function.comp_def]

theorem tagged_other {k : ℕ} (l : List (Option ℕ × Mesg)) (hk : k ≠ n) (ms : List Mesg) :
    tagged (l ++ ms.map fun m => (some n,m)) k = tagged l k := by
  simp [tagged,List.filter_append,List.filter_map,Function.comp_def,hk.symm]

theorem content_flatten (l : List Mesg) : content l = (l.map fun m => blockBytes m.blocks).flatten := List.flatMap_def ..

omit [DecidableEq ι] in
theorem Flows.delivered (h : Flows peer p) : Delivered peer p := by
  have hbytes (n : ℕ) (w : Wcall ι) (hw : p.calls[n]? = some w) :
      content (tagged (p.sent w.side) n) = w.req.buf.take w.loc.off := by
    have hf := h.fair n w hw
    rw [content_flatten,hf.own,hf.wrote.bytes]
  refine ⟨h.order,fun n w hw => ?_,fun n w r hw hr h0 => ?_,fun n w hw hmax m hm => ?_⟩
  · rw [hbytes n w hw]
    exact List.take_prefix ..
  · have hf := h.fair n w hw
    rw [hbytes n w hw,List.length_take,min_eq_left hf.wrote.off]
    exact hf.ret r hr h0
  · have hf := h.fair n w hw
    exact (hf.wrote.whole hmax).2 _ (hf.own ▸ List.mem_map_of_mem hm)

/- The messages of a write come to the end of the list of the peer. -/
theorem putAll_plain (p : Ends ι) (i : ι) (tag : Option ℕ) (hms : ∀ m ∈ ms, Plain m) :
    p.putAll peer i tag ms = { p with
      hd := Function.update p.hd (peer i) { p.hd (peer i) with rput := (p.hd (peer i)).rput ++ ms }
      sent := Function.update p.sent i (p.sent i ++ ms.map fun m => (tag,m)) } := by
  induction ms generalizing p with
  | nil =>
    simp only [Ends.putAll,List.foldl_nil,List.append_nil,List.map_nil,Function.update_eq_self]
  | cons m ms ih =>
    have hm := hms m (List.mem_cons_self ..)
    have hstep : p.lisPutnext peer i tag m = { p with
        hd := Function.update p.hd (peer i) ((p.hd (peer i)).putRput m)
        sent := Function.update p.sent i (p.sent i ++ [(tag,m)]) } := by
      rw [Ends.lisPutnext,hm.strrput,hm.takes,if_pos rfl]
      rfl
    have hcons : p.putAll peer i tag (m :: ms) = (p.lisPutnext peer i tag m).putAll peer i tag ms := rfl
    rw [hcons,hstep,ih _ fun x hx => hms x (List.mem_cons_of_mem _ hx)]
    simp only [Function.update_self,Function.update_idem,Shead.putRput,List.append_assoc,List.map_cons,
      List.singleton_append]

/- What keeps the bytes that wait, and the messages plain. -/
theorem Flows.setHd {hd : Shead} (h : Flows peer p) {got : List Uchar} (hr : ∀ m ∈ hd.rput, Plain m)
    (hf : Fine hd.rd.msgs)
    (hw : got ++ content (hd.rd.msgs ++ hd.rput) = p.got j ++ waiting p j) :
    Flows peer { p with hd := Function.update p.hd j hd, got := Function.update p.got j got } := by
  constructor
  case rput =>
    exact forall_update (P := fun h : Shead => ∀ m ∈ h.rput, Plain m) hr h.rput
  case fine =>
    exact forall_update (P := fun h : Shead => Fine h.rd.msgs) hf h.fine
  case held => exact h.held
  case fair =>
    intro n w hw'
    have hf := h.fair n w hw'
    exact ⟨hf.wrote,hf.len,hf.ret,hf.own⟩
  case fresh => exact h.fresh
  case order =>
    intro i
    refine Eq.trans ?_ (h.order i)
    by_cases hi : peer i = j
    · subst hi
      simp only [waiting,Function.update_self]
      exact hw
    · simp only [waiting,Function.update_of_ne hi]

theorem Flows.rsrv (h : Flows peer p) (j : ι) (so : Mesg → StroptionsT) :
    Flows peer (p.setHd j ((p.hd j).rsrvRound so)) := by
  have hgot : p.got = Function.update p.got j (p.got j) := (Function.update_eq_self ..).symm
  have hset : p.setHd j ((p.hd j).rsrvRound so) =
      { p with hd := Function.update p.hd j ((p.hd j).rsrvRound so), got := Function.update p.got j (p.got j) } := by
    rw [← hgot]
    rfl
  rw [hset]
  cases hl : (p.hd j).rput with
  | nil =>
    have hsame : (p.hd j).rsrvRound so = p.hd j := by rw [Shead.rsrvRound,hl]
    rw [hsame]
    exact h.setHd (h.rput j) (h.fine j) rfl
  | cons m l =>
    have hm : Plain m := h.rput j m (hl ▸ List.mem_cons_self ..)
    have hround : (p.hd j).rsrvRound so = { p.hd j with rput := l }.putq m := by
      rw [Shead.rsrvRound,hl]
      exact hm.process _ so
    rw [hround]
    refine h.setHd (fun x hx => h.rput j x (hl ▸ List.mem_cons_of_mem _ hx)) ?_ ?_
    · show Fine (Head.lisPutq _ m)
      rw [hm.lisPutq]
      exact hm.fine (h.fine j)
    · show _ ++ content (Head.lisPutq _ m ++ l) = _
      rw [hm.lisPutq,waiting,hl,List.append_assoc]
      rfl

theorem Flows.read {opt : Rdopt} {ulen : ℕ} {g : Got} (h : Flows peer p) (hmode : opt.mode ≠ .rmsgd)
    (hg : lisStrread opt (fun _ => false) (p.hd j).rd ulen = some g) :
    Flows peer
      { p.setHd j { p.hd j with rd := g.hd } with got := Function.update p.got j (p.got j ++ g.returned) } := by
  obtain ⟨g',hg',hok⟩ := lisStrread_ok hmode (h.fine j) ulen
  obtain rfl := Option.some.inj (hg.symm.trans hg')
  obtain ⟨new,hnew,hbytes⟩ := hok.bytes
  have hret : g.returned = new := by
    rw [List.nil_append] at hnew
    unfold Got.returned
    rcases hok.ret with hr | hr
    · rw [hr]
      exact hnew
    · rw [← hnew,hr]
      split <;> rfl
  refine h.setHd (h.rput j) hok.fine ?_
  rw [hret,content_append,← List.append_assoc,List.append_assoc (p.got
    j),hbytes,waiting,content_append,List.append_assoc]

/-! ### The writes -/

omit [DecidableEq ι] in
theorem Flows.write (h : Flows peer p) (i : ι) (c : Wreq) (hlen : c.buf.length < 2 ^ 31) :
    Flows peer { p with calls := p.calls ++ [⟨i,c,⟨none,0,0,[]⟩,refused c⟩] } := by
  refine ⟨h.rput,h.fine,h.held,fun n w hw => ?_,fun i n hn => ?_,h.order⟩
  · rcases lt_or_ge n p.calls.length with hlt | hge
    · have hf := h.fair n w ((List.getElem?_append_left hlt).symm.trans hw)
      exact ⟨hf.wrote,hf.len,hf.ret,hf.own⟩
    · have hw' : ([⟨i,c,⟨none,0,0,[]⟩,refused c⟩] : List (Wcall ι))[n - p.calls.length]? = some w :=
        (List.getElem?_append_right hge).symm.trans hw
      obtain rfl : w = ⟨i,c,⟨none,0,0,[]⟩,refused c⟩ := List.mem_singleton.mp (List.mem_of_getElem? hw')
      refine ⟨wrote_init c none,hlen,fun r hr h0 => ?_,?_⟩
      · simp only [refused,Write.EINVAL] at hr
        split_ifs at hr <;> simp_all
        all_goals omega
      · show (tagged (p.sent i) n).map _ = []
        rw [h.fresh i n hge,List.map_nil]
  · refine h.fresh i n ?_
    rw [List.length_append] at hn
    omega

theorem Flows.pass (hpeer : Function.Injective peer) (h : Flows peer p) (hw : p.calls[n]? = some w)
    (hb : w.req.body { w.loc with wmsg := p.wmsg w.side } a = some next) : Flows peer (p.passed peer n w next) := by
  have hf := h.fair n w hw
  have hn : n < p.calls.length := (List.getElem?_eq_some_iff.mp hw).1
  have hp : Passed w.req _ next := (hf.wrote.wmsg (p.wmsg w.side)).body hf.len (h.held w.side) hb
  obtain ⟨ds,hds⟩ := hp.more
  have hdrop : (locOf next).sent.drop w.loc.sent.length = ds := by
    rw [hds]
    exact List.drop_left ..
  have hplain : ∀ m ∈ ds.map (writeMesg w.req.wroff), Plain m := by
    intro m hm
    obtain ⟨d,-,rfl⟩ := List.mem_map.mp hm
    exact plain_write _ d
  rw [Ends.passed,hdrop,putAll_plain _ _ _ hplain]
  constructor
  case rput =>
    refine forall_update (P := fun h : Shead => ∀ m ∈ h.rput, Plain m) (fun m hm => ?_) h.rput
    exact (List.mem_append.mp hm).elim (h.rput _ m) (hplain m)
  case fine => exact forall_update (P := fun h : Shead => Fine h.rd.msgs) (h.fine _) h.fine
  case held => exact forall_update (P := fun h : Option Held => ∀ x ∈ h, x.data = []) hp.held h.held
  case fair =>
    intro k v hv
    by_cases hk : n = k
    · -- the call itself
      subst hk
      rw [List.getElem?_set_self hn] at hv
      obtain rfl := Option.some.inj hv
      refine ⟨hp.wrote,hf.len,hp.ret,?_⟩
      simp only [Function.update_self,tagged_own,List.map_append,hf.own,hds]
      rw [List.map_map]
      exact congrArg _ (List.map_id'' (fun d => write_bytes _ d) ds)
    · rw [List.getElem?_set_ne hk] at hv
      have hfv := h.fair k v hv
      refine ⟨hfv.wrote,hfv.len,hfv.ret,?_⟩
      by_cases hs : v.side = w.side
      · have hown := hfv.own
        rw [hs] at hown ⊢
        simpa only [Function.update_self,tagged_other _ (Ne.symm hk)] using hown
      · simpa only [Function.update_of_ne hs] using hfv.own
  case fresh =>
    intro i k hk
    rw [List.length_set] at hk
    have hne : k ≠ n := by omega
    by_cases hs : i = w.side
    · subst hs
      simp only [Function.update_self,tagged_other _ hne]
      exact h.fresh _ k hk
    · simp only [Function.update_of_ne hs]
      exact h.fresh i k hk
  case order =>
    intro i
    have ho := h.order i
    by_cases hs : i = w.side
    · subst hs
      have hsnd (ms : List Mesg) : (ms.map fun m => ((some n : Option ℕ),m)).map Prod.snd = ms := by
        rw [List.map_map]
        exact List.map_id ms
      simp only [waiting,Function.update_self,List.map_append,hsnd,content_append,← ho,List.append_assoc]
    · simp only [waiting,Function.update_of_ne hs,Function.update_of_ne (hpeer.ne hs)]
      exact ho

/-! ### A write alone -/

theorem putAll_frame (peer : ι → ι) (p : Ends ι) (i : ι) (tag : Option ℕ) (ms : List Mesg) :
    (p.putAll peer i tag ms).calls = p.calls ∧ (p.putAll peer i tag ms).wmsg = p.wmsg := by
  induction ms generalizing p with
  | nil => exact ⟨rfl,rfl⟩
  | cons m ms ih => exact ih (p.lisPutnext peer i tag m)

/- Passes that come one after the other are the loop of `lis_strwrite`. -/
theorem passes_alone {ps : List Write.Pass} {r : Wdone} (hw : p.calls[n]? = some w) (hr : w.ret = none)
    (hl : w.req.loop ps { w.loc with wmsg := p.wmsg w.side } = some r) :
    ∃ q v, exec (Ends.step peer) p (ps.map fun a => .pass n a) = some q ∧ q.calls[n]? = some v ∧ v.ret = some r.ret ∧
      v.loc.sent = r.sent ∧ q.wmsg w.side = r.wmsg := by
  induction ps generalizing p w with
  | nil => cases hl
  | cons a ps ih =>
    obtain ⟨next,hb,hl⟩ := Option.bind_eq_some_iff.mp hl
    have hstep : p.step peer (.pass n a) = some (p.passed peer n w next) := by
      simp only [Ends.step,hw,Option.bind_some,hr,if_true,hb,Option.map_some]
    have hn : n < p.calls.length := (List.getElem?_eq_some_iff.mp hw).1
    have hv : (p.passed peer n w next).calls[n]? = some { w with loc := locOf next, ret := retOf w.req next } := by
      rw [Ends.passed,(putAll_frame ..).1]
      exact List.getElem?_set_self hn
    have hm : (p.passed peer n w next).wmsg w.side = (locOf next).wmsg := by
      rw [Ends.passed,(putAll_frame ..).2]
      exact Function.update_self ..
    rw [List.map_cons,exec_cons,hstep,Option.bind_some]
    have hend {err : ℤ} (he : retOf w.req next = some err) (hrtn : Wreq.rtn (locOf next) ps err = some r) :
        ∃ q v, exec (Ends.step peer) (p.passed peer n w next) (ps.map fun a => .pass n a) = some q ∧
          q.calls[n]? = some v ∧ v.ret = some r.ret ∧ v.loc.sent = r.sent ∧ q.wmsg w.side = r.wmsg := by
      unfold Wreq.rtn at hrtn
      split_ifs at hrtn with hps
      subst hps
      obtain rfl := Option.some.inj hrtn
      exact ⟨_,_,rfl,hv,he,rfl,hm⟩
    cases next with
    | rtn err s => exact hend rfl hl
    | cont s =>
      by_cases hlt : sizeT s.written < w.req.buf.length
      · simp only [hlt,if_true] at hl
        obtain ⟨q,v,h⟩ := ih hv (if_pos hlt) (by rw [hm]; exact hl)
        exact ⟨q,v,h⟩
      · simp only [hlt,if_false] at hl
        exact hend (if_neg hlt) hl

/- No putmsg, no copy to the user that fails, no read that discards. -/
def Carries : Act ι → Prop
  | .write _ c => c.buf.length < 2 ^ 31
  | .pass _ _ => True
  | .putmsg _ _ => False
  | .rsrv _ _ => True
  | .read _ opt fault _ => opt.mode ≠ .rmsgd ∧ ∀ off, fault off = false
  | .getmsg _ _ => False

theorem Flows.step {act : Act ι} (hpeer : Function.Injective peer) (h : Flows peer p) (hc : Carries act)
    (hq : p.step peer act = some q) : Flows peer q := by
  cases act with
  | write i c =>
    obtain rfl := Option.some.inj hq
    exact h.write i c hc
  | pass n a =>
    obtain ⟨w,hw,hq⟩ := Option.bind_eq_some_iff.mp hq
    split_ifs at hq
    obtain ⟨next,hb,rfl⟩ := Option.map_eq_some_iff.mp hq
    exact h.pass hpeer hw hb
  | putmsg i c => exact hc.elim
  | rsrv i so =>
    obtain rfl := Option.some.inj hq
    exact h.rsrv i so
  | read i opt fault ulen =>
    obtain ⟨hmode,hfault⟩ := hc
    obtain rfl : fault = fun _ => false := funext hfault
    obtain ⟨g,hg,rfl⟩ := Option.map_eq_some_iff.mp hq
    exact h.read hmode hg
  | getmsg i c => exact hc.elim

/- No options and no errors. -/
def plainSo : Mesg → StroptionsT := fun _ => ⟨0,0,0,0,0,0,0⟩
def noErrors : Errors := ⟨0,0,false,false⟩

end CSLiS.Pipe
