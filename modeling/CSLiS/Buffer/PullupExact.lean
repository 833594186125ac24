import CSLiS.Buffer.Pullup

/-!
# When a message survives being pulled up (head/msgutl.c)

Whatever happens, the same bytes of the same types are read through the message, and through every duplicate. The
result is right as long as the size of the leading blocks fits the `int` that counts it.
-/

namespace CSLiS.Buffer.Store
open Queue Lib.Exec

/- How many bytes are asked for, and how many there are. -/
def want (s : Mem) (mp : ℕ) (rest : List ℕ) (length : ℤ) : ℤ :=
  if length = -1 then lead s (s.dbType mp) (mp :: rest) else length

structure PulledUp (s : Store) (mp : ℕ) (rest : List ℕ) (length : ℤ) (aligned hdr buf : Bool)
    (r : Store × Bool × List ℕ) : Prop where
  answer : r.2.1 = true ↔ want s.mem mp rest length ≤ lead s.mem (s.mem.dbType mp) (mp :: rest) ∧
    (0 < want s.mem mp rest length →
      want s.mem mp rest length ≤ s.mem.nbytes mp ∧ aligned = true ∨ hdr = true ∧ buf = true)
  bytes : r.1.readMsg r.2.2 = s.readMsg (mp :: rest)
  first : r.2.1 = true → ∃ b l, r.2.2 = b :: l ∧ want s.mem mp rest length ≤ r.1.mem.nbytes b
  untouched : r.2.1 = false → r.2.2 = mp :: rest ∧ ∀ b ∈ s.mem.live, r.1.mem.mdb b = s.mem.mdb b
  others : ∀ b ∈ s.mem.live, b ∉ mp :: rest → b ∈ r.1.mem.live ∧ r.1.read b = s.read b
  blocks : ∀ b ∈ r.2.2, b ∈ r.1.mem.live
  alive : ∀ b ∈ r.1.mem.live, ∃ d, (r.1.mem.mdb b).bBuf = some d ∧ d ∉ r.1.mem.freed ∧ d ∉ r.1.mem.released

/- Nothing is asked for, or the bytes there are fit an `int`, or their count covers the request in spite of that. -/
def Fits (s : Mem) (mp : ℕ) (rest : List ℕ) (length : ℤ) : Prop :=
  length = 0 ∨ lead s (s.dbType mp) (mp :: rest) < 2 ^ 31 ∨
    0 < length ∧ length ≤ (lead s (s.dbType mp) (mp :: rest)).bmod (2 ^ 32)

variable {s : Store} {mp : ℕ} {rest : List ℕ} {length k : ℤ} {aligned hdr buf : Bool}

theorem pullParts_light (n : ℕ) (isFirst : Bool) (m : Mem) (length : ℤ) (blks : List ℕ) :
    ∀ a ∈ Mem.pullParts n isFirst m length blks, ∀ t, Mem.Uncrowded t a := by
  induction blks generalizing isFirst m length with
  | nil =>
    intro a ha
    cases ha
  | cons b blks ih =>
    simp only [Mem.pullParts]
    split_ifs
    · intro a ha
      cases ha
    · intro a ha t
      rcases List.mem_cons.mp ha with rfl | ha
      · trivial
      · rcases List.mem_cons.mp ha with rfl | ha
        · trivial
        · exact ih _ _ _ a ha t
    · intro a ha t
      rcases List.mem_cons.mp ha with rfl | ha
      · trivial
      · exact ih _ _ _ a ha t

/- A pull-up makes no duplicates. -/
theorem pullupmsg_light : Mem.Light s.mem (.pullupmsg mp rest length aligned hdr buf) := by
  refine meets_of_forall fun a ha t => ?_
  simp only [Mem.parts] at ha
  cases hl : s.mem.pullLength mp rest length aligned with
  | error r =>
    rw [hl] at ha
    cases ha
  | ok len =>
    rw [hl] at ha
    dsimp only at ha
    rcases List.mem_cons.mp ha with rfl | ha
    · trivial
    · generalize s.mem.lisAllocb (Mem.pullSize len) hdr buf = q at ha
      rcases q with ⟨m,_ | n⟩
      · cases ha
      · dsimp only at ha
        rcases List.mem_cons.mp ha with rfl | ha
        · trivial
        · rcases List.mem_append.mp ha with ha | ha
          · exact pullParts_light _ _ _ _ _ a ha t
          · obtain rfl := List.mem_singleton.mp ha
            trivial

theorem pulled_alive (length : ℤ) (aligned hdr buf : Bool) (hi : s.mem.Headers ∧ s.mem.InUse) (hm : s.mem.IsMsg (mp :: rest)) :
    ∀ b ∈ (s.lisPullupmsg mp rest length aligned hdr buf).1.mem.live,
      ∃ d, ((s.lisPullupmsg mp rest length aligned hdr buf).1.mem.mdb b).bBuf = some d ∧
        d ∉ (s.lisPullupmsg mp rest length aligned hdr buf).1.mem.freed ∧
        d ∉ (s.lisPullupmsg mp rest length aligned hdr buf).1.mem.released := by
  have hcall : Mem.call s.mem (.pullupmsg mp rest length aligned hdr buf) =
      some (s.lisPullupmsg mp rest length aligned hdr buf).1.mem := by
    rw [lisPullupmsg_mem]
    exact if_pos hm
  obtain ⟨hh,hu⟩ := Mem.call_inUse hi pullupmsg_light hcall
  intro b hb
  obtain ⟨d,-,hd,hbuf⟩ := hh.datap b hb
  have hpos := Mem.users_pos hb hd
  exact ⟨d,hbuf,fun h => hpos.ne' ((hh.freed d).mp h).2.2,hu.unreleased d hpos⟩

theorem lisXmsgsize_lead (hp : ∀ b ∈ mp :: rest, 0 ≤ s.mem.nbytes b) :
    s.mem.lisXmsgsize (s.mem.dbType mp) (mp :: rest) = (lead s.mem (s.mem.dbType mp) (mp :: rest)).bmod (2 ^ 32) := by
  unfold Mem.lisXmsgsize lead
  congr 2
  refine List.map_congr_left fun b hb => max_eq_right (hp b ?_)
  exact (List.takeWhile_sublist _).subset hb

/- `length` after the routine has put the count for -1. -/
def asked (s : Mem) (mp : ℕ) (rest : List ℕ) (length : ℤ) : ℤ :=
  if length = -1 then (lead s (s.dbType mp) (mp :: rest)).bmod (2 ^ 32) else length

theorem pullLength_eq (aligned : Bool) (hp : ∀ b ∈ mp :: rest, 0 ≤ s.mem.nbytes b) (hl : -1 ≤ length) :
    s.mem.pullLength mp rest length aligned =
      if asked s.mem mp rest length = 0 then .error true
      else if asked s.mem mp rest length < 0 ∨
          (lead s.mem (s.mem.dbType mp) (mp :: rest)).bmod (2 ^ 32) < asked s.mem mp rest length then .error false
      else if asked s.mem mp rest length ≤ s.mem.nbytes mp then
        if aligned then .error true else .ok (s.mem.nbytes mp)
      else .ok (asked s.mem mp rest length) := by
  unfold Mem.pullLength asked
  rw [if_neg (not_lt.mpr hl),lisXmsgsize_lead hp]
  simp only [Bool.or_eq_true,decide_eq_true_eq]

/- Where nothing is done: the state is the same, but for a header that came and went. -/
theorem pulledUp_same {r : Store × Bool × List ℕ} (hm : s.mem.IsMsg (mp :: rest)) (hmdb : r.1.mem.mdb = s.mem.mdb)
    (hlive : r.1.mem.live = s.mem.live) (hbyte : r.1.byte = s.byte) (hmsg : r.2.2 = mp :: rest)
    (halive : ∀ b ∈ r.1.mem.live, ∃ d, (r.1.mem.mdb b).bBuf = some d ∧ d ∉ r.1.mem.freed ∧ d ∉ r.1.mem.released)
    (hans : r.2.1 = true ↔ want s.mem mp rest length ≤ lead s.mem (s.mem.dbType mp) (mp :: rest) ∧
      (0 < want s.mem mp rest length →
        want s.mem mp rest length ≤ s.mem.nbytes mp ∧ aligned = true ∨ hdr = true ∧ buf = true))
    (hfirst : r.2.1 = true → want s.mem mp rest length ≤ s.mem.nbytes mp) :
    PulledUp s mp rest length aligned hdr buf r := by
  have hread : r.1.read = s.read := by
    funext b
    simp only [read,Mem.nbytes,Mem.dbType,hmdb,hbyte]
  refine ⟨hans,?_,fun h => ⟨mp,rest,hmsg,?_⟩,fun _ => ⟨hmsg,fun b _ => congrFun hmdb b⟩,
    fun b hb _ => ⟨hlive.symm ▸ hb,congrFun hread b⟩,?_,halive⟩
  · rw [hmsg,readMsg,hread]
    rfl
  · have := hfirst h
    simpa only [Mem.nbytes,hmdb] using this
  · rw [hmsg,hlive]
    exact hm.2

theorem lisPullupmsg_error {b : Bool} (hl : s.mem.pullLength mp rest length aligned = .error b) :
    s.lisPullupmsg mp rest length aligned hdr buf = (s,b,mp :: rest) := by
  unfold lisPullupmsg
  rw [hl]

/- Without memory the routine gives up. -/
theorem lisPullupmsg_nomem (hl : s.mem.pullLength mp rest length aligned = .ok k) (hno : ¬ (hdr = true ∧ buf = true)) :
    ∃ m, s.lisPullupmsg mp rest length aligned hdr buf = (⟨m,s.byte⟩,false,mp :: rest) ∧
      m.mdb = s.mem.mdb ∧ m.live = s.mem.live := by
  unfold lisPullupmsg
  rw [hl]
  dsimp only
  rw [lisAllocb_outside]
  split_ifs with hh hb
  · exact ⟨s.mem,rfl,rfl,rfl⟩
  · exact ⟨_,rfl,rfl,rfl⟩
  · exact absurd ⟨by simpa using hh,by simpa using hb⟩ hno

/-- In memory where no reference count ran over, a pull-up does what it is to do exactly when the bytes fit. -/
theorem pullup_keeps {as : List Mem.MsgAct} (hc : Meets Mem.call Mem.Light Mem.init as)
    (hr : exec Mem.call Mem.init as = some s.mem) (hm : s.mem.IsMsg (mp :: rest))
    (hp : ∀ b ∈ mp :: rest, 0 ≤ s.mem.nbytes b ∧ s.mem.nbytes b < 2 ^ 31) (n : Int32) (hn : -1 ≤ n.toInt) :
    (∀ hdr buf, PulledUp s mp rest n.toInt aligned hdr buf (s.lisPullupmsg mp rest n.toInt aligned hdr buf)) ↔
      Fits s.mem mp rest n.toInt := by
  have hi := Mem.run_inUse hc hr
  have hp0 : ∀ b ∈ mp :: rest, 0 ≤ s.mem.nbytes b := fun b hb => (hp b hb).1
  obtain ⟨hnb,hnmax⟩ := hp mp (List.mem_cons_self ..)
  have hmax := n.toInt_lt
  generalize n.toInt = length at hn hmax ⊢
  have hS := lead_nonneg s.mem (s.mem.dbType mp) hp0
  have hnbS : s.mem.nbytes mp ≤ lead s.mem (s.mem.dbType mp) (mp :: rest) := by
    have := lead_nonneg s.mem (s.mem.dbType mp) fun b hb => hp0 b (List.mem_cons_of_mem _ hb)
    rw [lead_cons,if_pos rfl]
    omega
  have hpl := pullLength_eq aligned hp0 hn
  have hok := fun k (hl : s.mem.pullLength mp rest length aligned = .ok k) hk hmk => pulled hi.1 hm hp0 hl hk hmk
  have hwrange : (lead s.mem (s.mem.dbType mp) (mp :: rest)).bmod (2 ^ 32) < 2 ^ 31 := Int.bmod_lt (by decide)
  have hwle : (lead s.mem (s.mem.dbType mp) (mp :: rest)).bmod (2 ^ 32) ≤ lead s.mem (s.mem.dbType mp) (mp :: rest) := by
    rw [Int.bmod_def]
    split_ifs <;> omega
  have hweq : lead s.mem (s.mem.dbType mp) (mp :: rest) < 2 ^ 31 →
      (lead s.mem (s.mem.dbType mp) (mp :: rest)).bmod (2 ^ 32) = lead s.mem (s.mem.dbType mp) (mp :: rest) :=
    fun h => Int.bmod_eq_of_le (by omega) (by omega)
  have halive := fun hdr buf => pulled_alive length aligned hdr buf hi hm
  have hW : length = -1 ∧ asked s.mem mp rest length = (lead s.mem (s.mem.dbType mp) (mp :: rest)).bmod (2 ^ 32) ∧
        want s.mem mp rest length = lead s.mem (s.mem.dbType mp) (mp :: rest) ∨
      0 ≤ length ∧ asked s.mem mp rest length = length ∧ want s.mem mp rest length = length := by
    unfold asked want
    split_ifs with h
    · exact Or.inl ⟨h,rfl,rfl⟩
    · exact Or.inr ⟨by omega,rfl,rfl⟩
  unfold Fits
  generalize hSd : lead s.mem (s.mem.dbType mp) (mp :: rest) = S at *
  generalize S.bmod (2 ^ 32) = w at *
  constructor
  · intro h
    have hone := h true true
    by_contra hno
    obtain ⟨h0,hbig,hcount⟩ : length ≠ 0 ∧ 2 ^ 31 ≤ S ∧ ¬ (0 < length ∧ length ≤ w) := by
      simpa only [not_or,not_lt,ne_eq] using hno
    -- all bytes are asked for, or more than the count says; at least the first block would have to hold them
    have hall : length = -1 ∧ asked s.mem mp rest length = w ∧ want s.mem mp rest length = S ∨
        w < length ∧ asked s.mem mp rest length = length ∧ want s.mem mp rest length = length := by omega
    have hshort : ∀ z, length = -1 → z < 2 ^ 31 → ¬ want s.mem mp rest length ≤ z := by omega
    have hkeep : ∀ k, s.mem.pullLength mp rest length aligned = .ok k → 0 < k → s.mem.nbytes mp ≤ k → k < 2 ^ 31 →
        length ≠ -1 := by
      intro k hl hk hmk hk2 h1
      obtain ⟨t,l,he,-,hnt,-,-⟩ := hok k hl hk hmk
      rw [he] at hone
      obtain ⟨b,l',hb,hw⟩ := hone.first rfl
      obtain ⟨rfl,-⟩ := List.cons.inj hb
      exact hshort (t.mem.nbytes mp) h1 (by omega) hw
    have hsame : ∀ b, s.mem.pullLength mp rest length aligned = .error b → b = true → length ≠ -1 := by
      rintro b hl rfl h1
      rw [lisPullupmsg_error hl] at hone
      obtain ⟨b,l',hb,hw⟩ := hone.first rfl
      obtain ⟨rfl,-⟩ := List.cons.inj hb
      exact hshort _ h1 hnmax hw
    have hrefuse : ∀ b, s.mem.pullLength mp rest length aligned = .error b → b ≠ false := by
      rintro b hl rfl
      rw [lisPullupmsg_error hl] at hone
      have hans := hone.answer.mpr ⟨by rw [hSd]; omega,fun _ => Or.inr ⟨rfl,rfl⟩⟩
      cases hans
    split_ifs at hpl with h1 h2 h3 h4
    · have := hsame _ hpl rfl
      omega
    · exact hrefuse _ hpl rfl
    · have := hsame _ hpl rfl
      omega
    · have := hkeep _ hpl (by omega) le_rfl hnmax
      omega
    · have := hkeep _ hpl (by omega) (by omega) (by omega)
      omega
  · intro hfits hdr buf
    have heq : asked s.mem mp rest length = want s.mem mp rest length ∧ 0 ≤ want s.mem mp rest length ∧
        (want s.mem mp rest length ≤ S ↔ want s.mem mp rest length ≤ w ∨ want s.mem mp rest length = 0) := by
      rcases hW with ⟨h1,h2,h3⟩ | ⟨h1,h2,h3⟩
      · have := hweq (by omega)
        omega
      · rcases hfits with h | h | h
        · omega
        · have := hweq h
          omega
        · omega
    obtain ⟨ha,hpos,hle⟩ := heq
    rw [ha] at hpl
    have hgo : ∀ k, s.mem.pullLength mp rest length aligned = .ok k → 0 < want s.mem mp rest length →
        want s.mem mp rest length ≤ S → s.mem.nbytes mp ≤ k → want s.mem mp rest length ≤ k → k ≤ S →
        ¬ (want s.mem mp rest length ≤ s.mem.nbytes mp ∧ aligned = true) →
        PulledUp s mp rest length aligned hdr buf (s.lisPullupmsg mp rest length aligned hdr buf) := by
      intro k hl h0 hS2 hmk hwk hkS hneed
      have hal := halive hdr buf
      by_cases hyes : hdr = true ∧ buf = true
      · obtain ⟨rfl,rfl⟩ := hyes
        obtain ⟨t,l,he,hmsg,hnt,hoth,hbl⟩ := hok k hl (by omega) hmk
        rw [he] at hal ⊢
        refine ⟨⟨fun _ => ⟨hSd ▸ hS2,fun _ => Or.inr ⟨rfl,rfl⟩⟩,fun _ => rfl⟩,hmsg,fun _ => ⟨mp,l,rfl,?_⟩,nofun,?_,hbl,hal⟩
        · dsimp only
          omega
        · exact fun b hb hnb => ⟨(hoth b hb hnb).1,(hoth b hb hnb).2.read⟩
      · obtain ⟨m,he,hmdb,hlv⟩ := lisPullupmsg_nomem hl hyes
        rw [he] at hal ⊢
        refine pulledUp_same hm hmdb hlv rfl rfl hal ⟨nofun,fun h => ?_⟩ nofun
        exact absurd ((h.2 h0).resolve_left hneed) hyes
    have hal := halive hdr buf
    split_ifs at hpl with h1 h2 h3 h4
    · rw [lisPullupmsg_error hpl] at hal ⊢
      refine pulledUp_same hm rfl rfl rfl rfl hal ⟨fun _ => ⟨hSd ▸ by omega,fun h => by omega⟩,fun _ => rfl⟩ fun _ => ?_
      omega
    · rw [lisPullupmsg_error hpl] at hal ⊢
      refine pulledUp_same hm rfl rfl rfl rfl hal ⟨nofun,fun h => ?_⟩ nofun
      have := hSd ▸ h.1
      omega
    · rw [lisPullupmsg_error hpl] at hal ⊢
      refine pulledUp_same hm rfl rfl rfl rfl hal ⟨fun _ => ⟨hSd ▸ by omega,fun _ => Or.inl ⟨h3,h4⟩⟩,fun _ => rfl⟩ ?_
      exact fun _ => h3
    · exact hgo _ hpl (by omega) (hle.mpr (Or.inl (by omega))) le_rfl h3 hnbS fun h => h4 h.2
    · exact hgo _ hpl (by omega) (hle.mpr (Or.inl (by omega))) (by omega) le_rfl (hle.mpr (Or.inl (by omega)))
        fun h => h3 h.1

/- A user's buffer of four bytes, duplicated; the original is pulled up. -/
def shared : List Mem.MsgAct := [.esballoc 16 true,.setPtrs 0 0 4,.dupmsg [0] fun _ => true]

theorem pullup_keeps_shared : ∃ s : Store, exec Mem.call Mem.init shared = some s.mem ∧
    ∀ hdr buf, PulledUp s 0 [] 3 false hdr buf (s.lisPullupmsg 0 [] 3 false hdr buf) :=
  ⟨⟨_,fun _ _ => 0⟩,rfl,(pullup_keeps (show Meets Mem.call Mem.Light Mem.init shared from by decide) rfl (by decide) (by decide)
    3 (by decide)).mpr
    (Or.inr (Or.inl (by decide)))⟩

/- Two blocks with a gigabyte each. -/
def huge : List Mem.MsgAct :=
  [.allocb (2 ^ 30) true true,.setPtrs 0 0 (2 ^ 30),.allocb (2 ^ 30) true true,.setPtrs 1 0 (2 ^ 30)]

theorem pullup_refused : ¬ ∀ (as : List Mem.MsgAct) (s : Store) (mp : ℕ) (rest : List ℕ) (n : Int32)
    (aligned hdr buf : Bool), exec Mem.call Mem.init as = some s.mem → s.mem.IsMsg (mp :: rest) →
    (∀ b ∈ mp :: rest, 0 ≤ s.mem.nbytes b ∧ s.mem.nbytes b < 2 ^ 31) → -1 ≤ n.toInt →
      PulledUp s mp rest n.toInt aligned hdr buf (s.lisPullupmsg mp rest n.toInt aligned hdr buf) := by
  intro h
  have hp := h huge ⟨_,fun _ _ => 0⟩ 0 [1] 1 true true true rfl (by decide) (by decide) (by decide)
  have hans := hp.answer.mpr ⟨by decide,fun _ => Or.inr ⟨rfl,rfl⟩⟩
  revert hans
  decide

end CSLiS.Buffer.Store
