import CSLiS.Write.Strwrite
import CSLiS.Lib.Exec

/-!
# What a write reports (head/head.c)

`lis_strwrite` without the holding of messages, for one writer, any packet size and any outcome of each pass
through its loop. The sizes are a size_t, a long and ints, as in the source.
-/

namespace CSLiS.Write
open Buffer Lib.Exec Queue

def EAGAIN : ℤ := 11
def ENODEV : ℤ := 19
def EINVAL : ℤ := 22

/- `x` as an int. -/
def int (x : ℤ) : ℤ := x.bmod (2 ^ 32)

/- `sd_wmsg`, with `room` for `db_lim - b_wptr`. -/
structure Held where
  data : List Uchar
  room : ℤ
  deriving DecidableEq, Repr

/- How a pass through the loop ends. In the first five nothing can be sent, `waited` comes back from
`lis_wait_on_wwrite`, `pass` has met no obstacle. -/
inductive Pass
  | stwrerr (sdWerror : ℤ)
  | hup
  | nolock (err : ℤ)
  | notblock
  | interrupted (err : ℤ)
  | waited
  | nomem
  | nocopy (err : ℤ)
  | pass
  deriving DecidableEq, Repr

def Pass.refuses : Pass → Bool
  | .stwrerr _ | .hup | .nolock _ | .notblock | .interrupted _ => true
  | _ => false

def Pass.faults : Pass → Bool
  | .nocopy _ => true
  | _ => false

/- A call. `fifo` is what `lis_fifo_write_sync` returns, 0 when the stream is not a FIFO, `umem` the result
of `lis_check_umem`. The number of bytes written fits in the type it is returned in. -/
structure Wreq where
  buf : List Uchar
  len : buf.length < 2 ^ 63
  minpsz : ℤ
  maxpsz : ℤ
  wroff : BitVec 16
  sndzero : Bool
  fifo : ℤ
  umem : ℤ
  stplex : Bool
  passes : List Pass

/- The locals of a call, and the messages it has sent. -/
structure Wloc where
  wmsg : Option Held
  off : ℕ
  written : ℤ
  sent : List (List Uchar)
  deriving DecidableEq, Repr

structure Wdone where
  ret : ℤ
  wmsg : Option Held
  sent : List (List Uchar)
  deriving DecidableEq, Repr

/- A pass returns, or comes to the condition of the loop. -/
inductive Wnext
  | rtn (err : ℤ) (s : Wloc)
  | cont (s : Wloc)
  deriving DecidableEq, Repr

namespace Wreq

variable (c : Wreq) (s : Wloc)

/- `lis_min` compares an int with a size_t. -/
def chunk : ℤ := int (min (sizeT (int c.maxpsz)) (sizeT (c.buf.length - s.written)))

/- The message that is held, or a new one (`allocb` and `db_base + sd_wroff`). -/
def held : Held := s.wmsg.getD ⟨[],max (int (c.chunk s + c.wroff.toNat)) FASTBUF - c.wroff.toNat⟩

def bytes : List Uchar := (c.buf.drop s.off).take (c.chunk s).toNat

/- The body of the loop (`head.c:5365-5493`). `copy_from_user` fails for a negative length. -/
def body : Pass → Option Wnext
  | .stwrerr sdWerror => if 0 < sdWerror then some (.rtn (-sdWerror) s) else none
  | .hup => some (.rtn (-ENODEV) s)
  | .nolock err => if err < 0 then some (.rtn err s) else none
  | .notblock => some (.rtn (-EAGAIN) s)
  | .interrupted err => if err < 0 then some (.rtn err s) else none
  | .waited => some (.cont s)
  | .nomem =>
      if s.wmsg = none then some (.rtn (if s.written ≠ 0 then s.written else -ENOMEM) s) else none
  | .nocopy err =>
      if err < 0 ∧ c.chunk s ≤ (c.held s).room then some (.rtn err { s with wmsg := some (c.held s) }) else none
  | .pass =>
      if (c.held s).room < c.chunk s then some (.cont { s with wmsg := none, sent := s.sent ++ [(c.held s).data] })
      else if c.chunk s < 0 then none
      else some (.cont ⟨none,s.off + (c.chunk s).toNat,int (s.written + c.chunk s),
        s.sent ++ [(c.held s).data ++ c.bytes s]⟩)

/- The call returns when it has come to the end of the passes. -/
def rtn (ps : List Pass) (err : ℤ) : Option Wdone := if ps = [] then some ⟨err,s.wmsg,s.sent⟩ else none

def loop : List Pass → Wloc → Option Wdone
  | [], _ => none
  | p :: ps, s =>
      (c.body s p).bind fun next =>
        match next with
        | .rtn err s => rtn s ps err
        | .cont s => if sizeT s.written < c.buf.length then loop ps s else rtn s ps s.written

/-- `lis_strwrite` (`head.c:5284-5512`) -/
def lisStrwrite (wmsg : Option Held) : Option Wdone :=
  let s : Wloc := ⟨wmsg,0,0,[]⟩
  if c.buf.length < sizeT c.minpsz then rtn s c.passes (-EINVAL)
  else if c.buf = [] ∧ c.sndzero = false then rtn s c.passes 0
  else if c.fifo < 0 then rtn s c.passes c.fifo
  else if c.umem < 0 then rtn s c.passes c.umem
  else if c.stplex then rtn s c.passes (-EINVAL)
  else c.loop c.passes s

/- What a call is to report, and leave behind. -/
structure Reports (r : Wdone) : Prop where
  counted : r.ret = r.sent.flatten.length ∨ (r.ret < 0 ∧ r.sent.flatten = [])
  zero : c.buf = [] → c.sndzero = true → r.sent = [[]] ∨ r.ret < 0
  cleared : r.wmsg = none

/- The first packet has data, for which there is room in a new message. -/
def carries : Bool :=
  let s : Wloc := ⟨none,0,0,[]⟩
  0 < c.chunk s ∧ c.chunk s ≤ (c.held s).room

/- No copy fails. A refusal has come before any data was sent. A write of no bytes does not wait. Not
as many bytes are sent as an int cannot count. -/
def Guard : Prop :=
  (∀ p ∈ c.passes, p.faults = false) ∧
    ((∃ p ∈ c.passes, p.refuses = true) → (∀ p ∈ c.passes.dropLast, p = .waited) ∨ c.carries = false) ∧
    (c.buf = [] → Pass.waited ∉ c.passes) ∧
    (c.buf.length < 2 ^ 31 ∨ c.passes.getLast? ≠ some .pass)

instance : Decidable c.Guard := inferInstanceAs (Decidable (_ ∧ _ ∧ _ ∧ _))

/- At the loop's top or its condition, with no message left over. -/
structure Ready : Prop where
  wmsg : s.wmsg = none
  counted : s.written = s.sent.flatten.length
  off : (s.off : ℤ) = s.written
  int : s.written < 2 ^ 31
  left : s.written < c.buf.length ∨ (c.buf = [] ∧ s.sent = [])

variable {c} {s} {ps : List Pass} {p : Pass} {r : Wdone} {next : Wnext}

theorem int_eq {x : ℤ} (h0 : 0 ≤ x) (h : x < 2 ^ 31) : Write.int x = x := by
  rw [Write.int,Int.bmod_def]
  omega

theorem sizeT_eq {x : ℤ} (h0 : 0 ≤ x) (h : x < 2 ^ 64) : sizeT x = x.toNat := by
  rw [sizeT]
  omega

theorem Ready.nonneg (h : c.Ready s) : 0 ≤ s.written := h.counted ▸ Int.natCast_nonneg _

theorem Ready.flatten_nil (h : c.Ready s) : s.sent.flatten = [] ↔ s.written = 0 := by
  rw [h.counted,Int.natCast_eq_zero,List.length_eq_zero_iff]

theorem Ready.written_nil (h : c.Ready s) (hb : c.buf = []) : s.written = 0 ∧ s.sent = [] := by
  have h0 := h.nonneg
  rcases h.left with hl | ⟨-,hs⟩
  · rw [hb,List.length_nil] at hl
    omega
  · refine ⟨?_,hs⟩
    rw [h.counted,hs]
    rfl

/- The loop goes on as long as there is something left. -/
theorem Ready.cond_iff (h : c.Ready s) : sizeT s.written < c.buf.length ↔ c.buf ≠ [] := by
  have h0 := h.nonneg
  have hi := h.int
  rw [sizeT_eq h0 (by omega)]
  rcases h.left with hl | ⟨hb,hs⟩
  · refine iff_of_true (by omega) fun hb => ?_
    rw [hb,List.length_nil] at hl
    omega
  · rw [hb]
    exact iff_of_false (Nat.not_lt_zero _) (not_not.mpr rfl)

theorem Ready.chunk_le (h : c.Ready s) : c.chunk s ≤ c.buf.length - s.written := by
  have h0 := h.nonneg
  have hlen := c.len
  have hle : s.written ≤ c.buf.length := by
    rcases h.left with hl | ⟨hb,-⟩
    · exact hl.le
    · rw [(h.written_nil hb).1]
      exact Int.natCast_nonneg _
  have hmin := min_le_right (sizeT (Write.int c.maxpsz)) (sizeT (c.buf.length - s.written))
  rw [sizeT_eq (x := c.buf.length - s.written) (by omega) (by omega)] at hmin
  rw [chunk,Write.int,Int.bmod_def,sizeT_eq (x := c.buf.length - s.written) (by omega) (by omega)]
  omega

theorem Ready.held_eq (h : c.Ready s) :
    c.held s = ⟨[],max (Write.int (c.chunk s + c.wroff.toNat)) FASTBUF - c.wroff.toNat⟩ := by
  rw [held,h.wmsg]
  rfl

/- The first packet, while nothing has been sent. -/
theorem Ready.carries_iff (h : c.Ready s) (h0 : s.written = 0) :
    c.carries = true ↔ 0 < c.chunk s ∧ c.chunk s ≤ (c.held s).room := by
  have hchunk : c.chunk ⟨none,0,0,[]⟩ = c.chunk s := by rw [chunk,chunk,h0]
  rw [carries,h.held_eq]
  simp only [held,hchunk,decide_eq_true_eq]
  rfl

/- `Guard` for the rest of the passes. -/
def Rest (c : Wreq) (s : Wloc) (ps : List Pass) : Prop :=
  (∀ p ∈ ps, p.faults = false) ∧
    ((∃ p ∈ ps, p.refuses = true) → s.written = 0 ∧ ((∀ p ∈ ps.dropLast, p = .waited) ∨ c.carries = false)) ∧
    (c.buf = [] → Pass.waited ∉ ps) ∧ (c.buf.length < 2 ^ 31 ∨ ps.getLast? ≠ some .pass)

theorem loop_cons (h : c.loop (p :: ps) s = some r) :
    (∃ err t, c.body s p = some (.rtn err t) ∧ ps = [] ∧ r = ⟨err,t.wmsg,t.sent⟩) ∨
    (∃ t, c.body s p = some (.cont t) ∧ ((sizeT t.written < c.buf.length ∧ ps ≠ [] ∧ c.loop ps t = some r) ∨
      (¬sizeT t.written < c.buf.length ∧ ps = [] ∧ r = ⟨t.written,t.wmsg,t.sent⟩))) := by
  obtain ⟨next,hb,hn⟩ := Option.bind_eq_some_iff.mp h
  cases next with
  | rtn err t =>
    obtain ⟨hps,hr⟩ := Option.ite_none_right_eq_some.mp hn
    exact Or.inl ⟨err,t,hb,hps,(Option.some.inj hr).symm⟩
  | cont t =>
    refine Or.inr ⟨t,hb,?_⟩
    by_cases hlt : sizeT t.written < c.buf.length
    · simp only [if_pos hlt] at hn
      refine Or.inl ⟨hlt,?_,hn⟩
      rintro rfl
      cases hn
    · simp only [if_neg hlt] at hn
      obtain ⟨hps,hr⟩ := Option.ite_none_right_eq_some.mp hn
      exact Or.inr ⟨hlt,hps,(Option.some.inj hr).symm⟩

theorem body_refuses (hp : p.refuses = true) (h : c.body s p = some next) : ∃ err, err < 0 ∧ next = .rtn err s := by
  cases p with
  | stwrerr werror =>
    obtain ⟨hw,hn⟩ := Option.ite_none_right_eq_some.mp h
    exact ⟨-werror,by omega,(Option.some.inj hn).symm⟩
  | hup => exact ⟨-ENODEV,by decide,(Option.some.inj h).symm⟩
  | nolock err =>
    obtain ⟨he,hn⟩ := Option.ite_none_right_eq_some.mp h
    exact ⟨err,he,(Option.some.inj hn).symm⟩
  | notblock => exact ⟨-EAGAIN,by decide,(Option.some.inj h).symm⟩
  | interrupted err =>
    obtain ⟨he,hn⟩ := Option.ite_none_right_eq_some.mp h
    exact ⟨err,he,(Option.some.inj hn).symm⟩
  | waited => cases hp
  | nomem => cases hp
  | nocopy err => cases hp
  | pass => cases hp

/- An error tells the truth as long as nothing was sent. -/
theorem Ready.error_iff (h : c.Ready s) {err : ℤ} (he : err < 0) : c.Reports ⟨err,none,s.sent⟩ ↔ s.written = 0 := by
  refine ⟨fun hr => ?_,fun h0 => ⟨Or.inr ⟨he,h.flatten_nil.mpr h0⟩,fun _ _ => Or.inr he,rfl⟩⟩
  rcases hr.counted with hc | ⟨-,hc⟩
  · dsimp only at hc
    omega
  · exact h.flatten_nil.mp hc

theorem Rest.cons_iff {t : Wloc} (hne : ps ≠ []) (hf : p.faults = false) (hr : p.refuses = false)
    (hz : c.buf = [] → p ≠ .waited) (hw : ∀ d : Prop, (s.written = 0 ∧ ((p = .waited ∧ d) ∨ c.carries = false)) ↔
      (t.written = 0 ∧ (d ∨ c.carries = false))) : c.Rest s (p :: ps) ↔ c.Rest t ps := by
  obtain ⟨q,qs,rfl⟩ := List.exists_cons_of_ne_nil hne
  refine and_congr ?_ (and_congr ?_ (and_congr ?_ ?_))
  · rw [List.forall_mem_cons]
    exact and_iff_right hf
  · have hany : (∃ x ∈ p :: q :: qs, x.refuses = true) ↔ ∃ x ∈ q :: qs, x.refuses = true := by simp [hr]
    rw [hany,List.dropLast_cons_cons,List.forall_mem_cons,hw]
  · refine imp_congr_right fun hb => ?_
    rw [List.mem_cons,not_or]
    exact and_iff_right (Ne.symm (hz hb))
  · rw [List.getLast?_cons_cons]

/- What `pass` does to the locals when the message has room for the packet. -/
def gone (c : Wreq) (s : Wloc) : Wloc :=
  ⟨none,s.off + (c.chunk s).toNat,Write.int (s.written + c.chunk s),s.sent ++ [(c.held s).data ++ c.bytes s]⟩

theorem body_pass (h : c.body s .pass = some next) :
    ((c.held s).room < c.chunk s ∧ next = .cont { s with wmsg := none, sent := s.sent ++ [(c.held s).data] }) ∨
      (c.chunk s ≤ (c.held s).room ∧ 0 ≤ c.chunk s ∧ next = .cont (c.gone s)) := by
  simp only [body] at h
  split_ifs at h with hroom hneg
  · exact Or.inl ⟨hroom,(Option.some.inj h).symm⟩
  · exact Or.inr ⟨not_lt.mp hroom,not_lt.mp hneg,(Option.some.inj h).symm⟩

/- A packet is sent with as many bytes as it is long. -/
theorem Ready.gone_flatten (h : c.Ready s) (h0 : 0 ≤ c.chunk s) :
    ((c.gone s).sent.flatten.length : ℤ) = s.written + c.chunk s := by
  have hle := h.chunk_le
  have hoff := h.off
  have hbytes : ((c.bytes s).length : ℤ) = c.chunk s := by
    rw [bytes,List.length_take,List.length_drop]
    omega
  rw [gone,List.flatten_append,List.length_append,h.held_eq]
  simp only [List.flatten_cons,List.flatten_nil,List.nil_append,List.append_nil]
  rw [Nat.cast_add,← h.counted,hbytes]

/- With no bytes to write there is room in every message. -/
theorem Ready.room_empty (h : c.Ready s) (hb : c.buf = []) : c.chunk s = 0 ∧ 0 ≤ (c.held s).room := by
  have hw := (h.written_nil hb).1
  have hc : c.chunk s = 0 := by
    have hmin : min (sizeT (Write.int c.maxpsz) : ℤ) (sizeT (([] : List Uchar).length - 0)) = 0 :=
      min_eq_right (Int.natCast_nonneg _)
    rw [chunk,hb,hw,hmin]
    rfl
  have hlt : c.wroff.toNat < 2 ^ 16 := c.wroff.isLt
  refine ⟨hc,?_⟩
  rw [h.held_eq,hc,zero_add,int_eq (by omega) (by omega)]
  dsimp only
  omega

/- An empty message goes, and the state is as before. -/
theorem Ready.empty (h : c.Ready s) (hb : c.buf ≠ []) (l : List Uchar) (hl : l = []) :
    c.Ready { s with wmsg := none, sent := s.sent ++ [l] } := by
  subst hl
  refine ⟨rfl,?_,h.off,h.int,Or.inl (h.left.resolve_right fun hc => hb hc.1)⟩
  rw [h.counted]
  simp

theorem Ready.gone (h : c.Ready s) (h0 : 0 ≤ c.chunk s) (hi : s.written + c.chunk s < 2 ^ 31)
    (hlt : s.written + c.chunk s < c.buf.length) : c.Ready (c.gone s) := by
  have hn := h.nonneg
  have hw : (c.gone s).written = s.written + c.chunk s := int_eq (by omega) hi
  have hoff := h.off
  refine ⟨rfl,?_,?_,hw ▸ hi,Or.inl (hw ▸ hlt)⟩
  · rw [hw,h.gone_flatten h0]
  · rw [hw,Wreq.gone]
    dsimp only
    omega

/- The last pass, which is no failed copy. -/
theorem Rest.last_iff (hf : p.faults = false) : c.Rest s [p] ↔ (p.refuses = true → s.written = 0) ∧
    (c.buf = [] → p ≠ .waited) ∧ (c.buf.length < 2 ^ 31 ∨ p ≠ .pass) := by
  refine ⟨fun h => ⟨fun hp => (h.2.1 ⟨p,List.mem_singleton_self p,hp⟩).1,fun hb hp => ?_,?_⟩,fun h => ⟨?_,?_,?_,?_⟩⟩
  · exact h.2.2.1 hb (hp ▸ List.mem_singleton_self p)
  · exact h.2.2.2.imp_right fun hl hp => hl (hp ▸ rfl)
  · exact fun x hx => List.mem_singleton.mp hx ▸ hf
  · rintro ⟨x,hx,hrx⟩
    exact ⟨h.1 (List.mem_singleton.mp hx ▸ hrx),Or.inl fun y hy => absurd hy List.not_mem_nil⟩
  · exact fun hb hm => h.2.1 hb (List.mem_singleton.mp hm).symm
  · exact h.2.2.imp_right fun hp hl => hp (Option.some.inj hl)

/- The pass after which the loop ends: the count is right unless it has passed the end of an int. -/
theorem Ready.pass_iff (h : c.Ready s) (hp : c.body s .pass = some next) {t : Wloc} (ht : next = .cont t)
    (hlt : ¬sizeT t.written < c.buf.length) :
    c.Reports ⟨t.written,t.wmsg,t.sent⟩ ↔ c.buf.length < 2 ^ 31 := by
  have hn := h.nonneg
  rcases body_pass hp with ⟨hroom,he⟩ | ⟨-,h0,he⟩
  · have hb : c.buf = [] := by
      obtain rfl := Wnext.cont.inj (ht.symm.trans he)
      exact not_not.mp fun hb => hlt (h.cond_iff.mpr hb)
    have hempty := h.room_empty hb
    omega
  · obtain rfl := Wnext.cont.inj (ht.symm.trans he)
    have hlen := h.gone_flatten h0
    have hle := h.chunk_le
    have hmax := c.len
    by_cases hi : s.written + c.chunk s < 2 ^ 31
    · have hw : (c.gone s).written = s.written + c.chunk s := int_eq (by omega) hi
      have hall : s.written + c.chunk s = c.buf.length := by
        rw [hw,sizeT_eq (by omega) (by omega)] at hlt
        omega
      refine iff_of_true ⟨Or.inl (hw.trans hlen.symm),fun hb _ => Or.inl ?_,rfl⟩ (by omega)
      rw [Wreq.gone,(h.written_nil hb).2,h.held_eq,bytes,hb]
      simp
    · refine iff_of_false (fun hrep => ?_) (by omega)
      have hw : (c.gone s).written = s.written + c.chunk s - 2 ^ 32 ∧ s.written + c.chunk s < 2 ^ 32 := by
        have hint := h.int
        have hc : c.chunk s < 2 ^ 31 := by
          rw [chunk,Write.int,Int.bmod_def]
          omega
        refine ⟨?_,by omega⟩
        rw [Wreq.gone,Write.int,Int.bmod_def]
        dsimp only
        omega
      rcases hrep.counted with hc | ⟨-,hc⟩
      · dsimp only at hc
        omega
      · dsimp only at hc
        rw [hc,List.length_nil] at hlen
        omega

/- A pass that does not end the call either leaves the count, and then the first packet has no data when
nothing has been counted, or counts more. -/
theorem Ready.pass_cont (h : c.Ready s) (hp : c.body s .pass = some next) {t : Wloc} (ht : next = .cont t)
    (hlt : sizeT t.written < c.buf.length) : c.Ready t ∧
      ((t.written = s.written ∧ (s.written = 0 → c.carries = false)) ∨
        (0 < t.written ∧ (s.written = 0 → c.carries = true))) := by
  have hn := h.nonneg
  rcases body_pass hp with ⟨hroom,he⟩ | ⟨hroom,h0,he⟩
  · obtain rfl := Wnext.cont.inj (ht.symm.trans he)
    refine ⟨h.empty (h.cond_iff.mp hlt) _ (by rw [h.held_eq]),Or.inl ⟨rfl,fun hw => ?_⟩⟩
    refine eq_false_of_ne_true fun hc => ?_
    have hfits := ((h.carries_iff hw).mp hc).2
    omega
  · obtain rfl := Wnext.cont.inj (ht.symm.trans he)
    have hle := h.chunk_le
    have hmax := c.len
    have hi : s.written + c.chunk s < 2 ^ 31 := by
      by_contra hi
      have hint := h.int
      have hc : c.chunk s < 2 ^ 31 := by
        rw [chunk,Write.int,Int.bmod_def]
        omega
      have hw : (c.gone s).written = s.written + c.chunk s - 2 ^ 32 := by
        rw [Wreq.gone,Write.int,Int.bmod_def]
        dsimp only
        omega
      rw [hw,sizeT] at hlt
      omega
    have hw : (c.gone s).written = s.written + c.chunk s := int_eq (by omega) hi
    have hless : s.written + c.chunk s < c.buf.length := by
      rw [hw,sizeT_eq (by omega) (by omega)] at hlt
      omega
    refine ⟨h.gone h0 hi hless,?_⟩
    rw [hw]
    rcases h0.eq_or_lt with hzero | hpos
    · refine Or.inl ⟨by omega,fun hs => eq_false_of_ne_true fun hc => ?_⟩
      have hcarry := ((h.carries_iff hs).mp hc).1
      omega
    · exact Or.inr ⟨by omega,fun hs => (h.carries_iff hs).mpr ⟨hpos,hroom⟩⟩

/- From a state in which no message is left over the rest of a call does what it is to do exactly as long as
the rest of the passes meets the condition. -/
theorem Ready.loop_iff (hz : c.buf = [] → c.sndzero = true) (h : c.Ready s) (hr : c.loop ps s = some r) :
    c.Reports r ↔ c.Rest s ps := by
  induction ps generalizing s with
  | nil => cases hr
  | cons p ps ih =>
    by_cases href : p.refuses = true
    · have hf : p.faults = false := by cases p <;> first | rfl | cases href
      have hwaited : p ≠ .waited := by
        rintro rfl
        cases href
      have hpass : p ≠ .pass := by
        rintro rfl
        cases href
      rcases loop_cons hr with ⟨err,t,hb,rfl,rfl⟩ | ⟨t,hb,-⟩
      · obtain ⟨e,he,hn⟩ := body_refuses href hb
        obtain ⟨rfl,rfl⟩ := Wnext.rtn.inj hn
        rw [h.wmsg,h.error_iff he,Rest.last_iff hf]
        exact ⟨fun h0 => ⟨fun _ => h0,fun _ => hwaited,Or.inr hpass⟩,fun hrest => hrest.1 href⟩
      · obtain ⟨e,he,hn⟩ := body_refuses href hb
        cases hn
    · cases p with
      | stwrerr werror => exact absurd rfl href
      | hup => exact absurd rfl href
      | nolock err => exact absurd rfl href
      | notblock => exact absurd rfl href
      | interrupted err => exact absurd rfl href
      | waited =>
        rcases loop_cons hr with ⟨err,t,hb,-⟩ | ⟨t,hb,⟨hlt,hne,hl⟩ | ⟨hlt,rfl,rfl⟩⟩
        · cases hb
        · obtain rfl := Wnext.cont.inj (Option.some.inj hb)
          rw [ih h hl]
          have hb := h.cond_iff.mp hlt
          exact (Rest.cons_iff hne rfl rfl (fun hc => absurd hc hb) fun d => by simp).symm
        · obtain rfl := Wnext.cont.inj (Option.some.inj hb)
          have hb : c.buf = [] := not_not.mp fun hb => hlt (h.cond_iff.mpr hb)
          obtain ⟨hw,hs⟩ := h.written_nil hb
          refine iff_of_false (fun hrep => ?_) fun hrest => (hrest.2.2.1 hb) List.mem_cons_self
          rcases hrep.zero hb (hz hb) with hc | hc
          · rw [hs] at hc
            cases hc
          · dsimp only at hc
            omega
      | nomem =>
        rcases loop_cons hr with ⟨err,t,hb,rfl,rfl⟩ | ⟨t,hb,-⟩
        · obtain ⟨-,hn⟩ := Option.ite_none_right_eq_some.mp hb
          obtain ⟨rfl,rfl⟩ := Wnext.rtn.inj (Option.some.inj hn)
          have hrest : c.Rest s [.nomem] :=
            (Rest.last_iff rfl).mpr ⟨fun hc => Bool.noConfusion hc,fun _ => by decide,Or.inr (by decide)⟩
          refine iff_of_true ?_ hrest
          by_cases h0 : s.written = 0
          · rw [if_neg (not_not.mpr h0),h.wmsg]
            exact (h.error_iff (by decide)).mpr h0
          · rw [if_pos h0]
            exact ⟨Or.inl h.counted,fun hb => absurd (h.written_nil hb).1 h0,h.wmsg⟩
        · obtain ⟨-,hn⟩ := Option.ite_none_right_eq_some.mp hb
          cases hn
      | nocopy err =>
        refine iff_of_false (fun hrep => ?_) fun hrest => Bool.noConfusion (hrest.1 _ List.mem_cons_self)
        rcases loop_cons hr with ⟨err,t,hb,rfl,rfl⟩ | ⟨t,hb,-⟩
        · obtain ⟨-,hn⟩ := Option.ite_none_right_eq_some.mp hb
          obtain ⟨rfl,rfl⟩ := Wnext.rtn.inj (Option.some.inj hn)
          cases hrep.cleared
        · obtain ⟨-,hn⟩ := Option.ite_none_right_eq_some.mp hb
          cases hn
      | pass =>
        rcases loop_cons hr with ⟨err,t,hb,-⟩ | ⟨t,hb,⟨hlt,hne,hl⟩ | ⟨hlt,rfl,rfl⟩⟩
        · rcases body_pass hb with ⟨-,he⟩ | ⟨-,-,he⟩ <;> cases he
        · obtain ⟨ht,hcount⟩ := h.pass_cont hb rfl hlt
          rw [ih ht hl]
          refine (Rest.cons_iff hne rfl rfl (fun _ => by decide) fun d => ?_).symm
          have hno : ¬(Pass.pass = Pass.waited ∧ d) := fun hc => by cases hc.1
          rw [or_iff_right hno]
          rcases hcount with ⟨hw,hc⟩ | ⟨hw,hc⟩
          · rw [hw]
            exact and_congr_right fun h0 => iff_of_true (hc h0) (Or.inr (hc h0))
          · refine iff_of_false (fun hs => ?_) fun ht => hw.ne' ht.1
            exact Bool.noConfusion ((hc hs.1).symm.trans hs.2)
        · rw [h.pass_iff hb rfl hlt,Rest.last_iff rfl]
          refine ⟨fun hi => ⟨fun hc => Bool.noConfusion hc,fun _ => by decide,Or.inl hi⟩,fun hrest => ?_⟩
          exact hrest.2.2.resolve_right (not_not.mpr rfl)

/- Without passes the condition is met. -/
theorem Guard.of_nil (h : c.passes = []) : c.Guard := by
  refine ⟨?_,?_,?_,?_⟩
  · rw [h]
    exact fun p hp => absurd hp List.not_mem_nil
  · rintro ⟨p,hp,-⟩
    rw [h] at hp
    exact absurd hp List.not_mem_nil
  · rw [h]
    exact fun _ => List.not_mem_nil
  · rw [h]
    exact Or.inr (by decide)

/- A return before the loop. -/
theorem rtn_iff {err : ℤ} (h : rtn ⟨none,0,0,[]⟩ c.passes err = some r)
    (he : err < 0 ∨ (err = 0 ∧ ¬(c.buf = [] ∧ c.sndzero = true))) : c.Reports r ↔ c.Guard := by
  obtain ⟨hps,hr⟩ := Option.ite_none_right_eq_some.mp h
  obtain rfl := Option.some.inj hr
  refine iff_of_true ⟨?_,fun hb hz => ?_,rfl⟩ (Guard.of_nil hps)
  · rcases he with he | ⟨rfl,-⟩
    · exact Or.inr ⟨he,rfl⟩
    · exact Or.inl rfl
  · rcases he with he | ⟨-,hno⟩
    · exact Or.inr he
    · exact absurd ⟨hb,hz⟩ hno

theorem lisStrwrite_iff (h : c.lisStrwrite none = some r) : c.Reports r ↔ c.Guard := by
  simp only [lisStrwrite] at h
  split_ifs at h with hmin hzero hfifo humem hplex
  · exact rtn_iff h (Or.inl (by decide))
  · refine rtn_iff h (Or.inr ⟨rfl,fun hc => ?_⟩)
    exact Bool.noConfusion (hc.2.symm.trans hzero.2)
  · exact rtn_iff h (Or.inl hfifo)
  · exact rtn_iff h (Or.inl humem)
  · exact rtn_iff h (Or.inl (by decide))
  · have hz : c.buf = [] → c.sndzero = true := fun hb => eq_true_of_ne_false fun hs => hzero ⟨hb,hs⟩
    have hleft : (0 : ℤ) < c.buf.length ∨ (c.buf = [] ∧ ([] : List (List Uchar)) = []) := by
      cases hb : c.buf with
      | nil => exact Or.inr ⟨rfl,rfl⟩
      | cons x l => exact Or.inl (Int.natCast_pos.mpr (Nat.succ_pos _))
    have hready : c.Ready ⟨none,0,0,[]⟩ := ⟨rfl,rfl,rfl,by decide,hleft⟩
    rw [hready.loop_iff hz h]
    exact and_congr_right fun _ => and_congr_left fun _ => imp_congr_right fun _ => and_iff_right rfl

end Wreq

/- The message that a call leaves behind is what the next one finds. -/
def step (wmsg : Option Held) (c : Wreq) : Option (Option Held) := (c.lisStrwrite wmsg).map fun r => r.wmsg

variable {c : Wreq} {wmsg : Option Held} {r : Wdone}

/-- After any run of writes that meet the condition a write reports the bytes that it has sent, sends
a message for no bytes or reports an error, and leaves no message behind, exactly when it meets the condition. -/
theorem writes_reported (cs : List Wreq) (hm : Meets step (fun _ c => c.Guard) none cs) (h : exec step none cs = some wmsg)
    (hr : c.lisStrwrite wmsg = some r) : c.Reports r ↔ c.Guard := by
  have hw : wmsg = none := by
    refine exec_preserves (I := (· = none)) (fun w c t hw hg ht => ?_) rfl hm h
    subst hw
    obtain ⟨r,hr,rfl⟩ := Option.map_eq_some_iff.mp ht
    exact ((Wreq.lisStrwrite_iff hr).mpr hg).cleared
  subst hw
  exact Wreq.lisStrwrite_iff hr

/- A write of zeros. -/
def zeros (n : ℕ) (h : n < 2 ^ 63) (maxpsz : ℕ) (passes : List Pass) : Wreq :=
  ⟨List.replicate n 0,by rwa [List.length_replicate],LIS_MINPSZ,maxpsz,0,true,0,0,false,passes⟩

theorem writes_reported_two :
    (zeros 25 (by decide) 20 [.pass,.waited,.pass]).Reports ⟨25,none,[List.replicate 20 0,List.replicate 5 0]⟩ ↔
      (zeros 25 (by decide) 20 [.pass,.waited,.pass]).Guard :=
  writes_reported [zeros 3 (by decide) LIS_MAXPSZ [.waited,.pass],zeros 0 (by decide) 20 [.interrupted (-4)]]
    (by decide +kernel) (by decide +kernel : _ = some none) (by decide +kernel)

/- The second packet meets flow control on a stream with `O_NONBLOCK`. The write returns `-EAGAIN`, with 4096
bytes sent. -/
theorem partial_write : ¬ ∀ c : Wreq, ∀ r, c.lisStrwrite none = some r → c.Reports r := by
  intro h
  have hsome : ((zeros 5000 (by decide) LIS_MAXPSZ [.pass,.notblock]).lisStrwrite none).isSome = true := by
    decide +kernel
  obtain ⟨r,hr⟩ := Option.isSome_iff_exists.mp hsome
  have hg : ¬(zeros 5000 (by decide) LIS_MAXPSZ [.pass,.notblock]).Guard := by decide +kernel
  exact hg ((Wreq.lisStrwrite_iff hr).mp (h _ r hr))

/- The message left by a failed copy is too small for the next packet and goes before it, empty. -/
example : (((zeros 3 (by decide) LIS_MAXPSZ [.nocopy (-14)]).lisStrwrite none).bind fun r =>
    ((zeros 9 (by decide) LIS_MAXPSZ [.pass,.pass]).lisStrwrite r.wmsg).map fun r => r.sent) =
      some [[],List.replicate 9 0] := by decide +kernel

end CSLiS.Write
