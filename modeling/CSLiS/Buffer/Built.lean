import CSLiS.Buffer.Msgpullup

/-!
# Messages that are being built (head/msgutl.c)

The blocks of a message that is being built have headers and buffers of their own. Whatever is done to them, memory
that was there before stays as it was, and once they are freed nothing of them is left.
-/

namespace CSLiS.Buffer
open Queue

/- The blocks of callers have data blocks, and what is allocated next is in no use. -/
structure Mem.Sane (s : Mem) : Prop where
  nodup : s.live.Nodup
  lt : ∀ b ∈ s.live, b < s.next
  datap : ∀ b ∈ s.live, ∃ d < s.next, s.datap b = some d ∧ (s.mdb b).bBuf = some d
  external : ∀ x ∈ s.external, x < s.next

theorem Mem.Headers.sane {s : Mem} (hh : s.Headers) (hi : s.InUse) : s.Sane := ⟨hh.nodup,hh.lt,hh.datap,hi.extLt⟩

namespace Store

variable {s t u : Store} {b d n x mp : ℕ} {l blks : List ℕ} {size : ℕ} {hdr buf : Bool} {ty : Uchar} {off k pos r w : ℤ}

/- The header and the buffer of the block are its own, and nobody else refers to them. -/
def Own (m : Mem) (b : ℕ) : Prop := ∃ r w ty size, m.mdb b = ⟨some b,some b,r,w,false,some b,1,ty,size⟩ ∧
  (b ∈ m.external ↔ FASTBUF < size)

/- All of header `x` is given back. -/
def Gone (m : Mem) (x : ℕ) : Prop := x ∈ m.freed ∧ (x ∈ m.external → x ∈ m.released)

/- Memory `t` is `s` with the blocks `l` and headers that were given back. -/
structure Built (s t : Store) (l : List ℕ) : Prop where
  le : s.mem.next ≤ t.mem.next
  live : t.mem.live.Perm (l ++ s.mem.live)
  nodup : l.Nodup
  new : ∀ b ∈ l, s.mem.next ≤ b ∧ b < t.mem.next
  own : ∀ b ∈ l, Own t.mem b
  gone : ∀ x, s.mem.next ≤ x → x < t.mem.next → x ∉ l → Gone t.mem x
  mdb : ∀ x < s.mem.next, t.mem.mdb x = s.mem.mdb x
  byte : ∀ x < s.mem.next, t.byte x = s.byte x
  external : ∀ x ∈ t.mem.external, x < t.mem.next

theorem Built.refl (hs : s.mem.Sane) : Built s s [] :=
  ⟨le_rfl,List.Perm.refl _,List.nodup_nil,fun _ hb => absurd hb List.not_mem_nil,fun _ hb => absurd hb List.not_mem_nil,
    fun _ h1 h2 _ => absurd h2 (not_lt.mpr h1),fun _ _ => rfl,fun _ _ => rfl,hs.external⟩

/- Nothing but what is read of a block is changed. -/
theorem Built.change (h : Built s t l) (hb : b ∈ l) (hu : u.mem = { t.mem with mdb := u.mem.mdb })
    (hm : ∀ x, x ≠ b → u.mem.mdb x = t.mem.mdb x)
    (hself : ∃ r w ty, u.mem.mdb b = { t.mem.mdb b with bRptr := r, bWptr := w, dbType := ty })
    (hbyte : ∀ x, x ≠ b → u.byte x = t.byte x) : Built s u l := by
  have hnext : u.mem.next = t.mem.next := by rw [hu]
  have hlive : u.mem.live = t.mem.live := by rw [hu]
  have hext : u.mem.external = t.mem.external := by rw [hu]
  have hfreed : u.mem.freed = t.mem.freed := by rw [hu]
  have hrel : u.mem.released = t.mem.released := by rw [hu]
  have hold : ∀ x, x < s.mem.next → x ≠ b := fun x hx he => absurd (h.new b hb).1 (by omega)
  refine ⟨hnext ▸ h.le,hlive ▸ h.live,h.nodup,?_,fun x hx => ?_,?_,fun x hx => ?_,fun x hx => ?_,?_⟩
  · rw [hnext]
    exact h.new
  · unfold Own
    rw [hext]
    by_cases hxb : x = b
    · subst hxb
      obtain ⟨r,w,ty,hr⟩ := hself
      obtain ⟨r',w',ty',size,he,hs⟩ := h.own x hx
      rw [he] at hr
      exact ⟨r,w,ty,size,hr,hs⟩
    · rw [hm x hxb]
      exact h.own x hx
  · unfold Gone
    rw [hnext,hfreed,hext,hrel]
    exact h.gone
  · rw [hm x (hold x hx)]
    exact h.mdb x hx
  · rw [hbyte x (hold x hx)]
    exact h.byte x hx
  · rw [hext,hnext]
    exact h.external

/- An allocation that fails. -/
theorem Built.spare (h : Built s t l) :
    Built s { t with mem := { t.mem with next := t.mem.next + 1 }.freehdr t.mem.next } l := by
  have hnew : t.mem.next ∉ t.mem.external := fun hm => lt_irrefl _ (h.external _ hm)
  refine ⟨h.le.trans (Nat.le_succ _),h.live,h.nodup,fun b hb => ⟨(h.new b hb).1,Nat.lt_succ_of_lt (h.new b hb).2⟩,h.own,
    fun x h1 h2 h3 => ?_,h.mdb,h.byte,fun x hx => Nat.lt_succ_of_lt (h.external x hx)⟩
  rcases Nat.lt_succ_iff_lt_or_eq.mp h2 with h2 | rfl
  · exact ⟨List.mem_append_left _ (h.gone x h1 h2 h3).1,(h.gone x h1 h2 h3).2⟩
  · exact ⟨List.mem_append_right _ (List.mem_singleton_self _),fun hm => absurd hm hnew⟩

/- One that succeeds. -/
theorem Built.alloc (h : Built s t l) (size : ℕ) :
    Built s { t with mem := t.mem.initb (decide (FASTBUF < size)) size false } (l ++ [t.mem.next]) := by
  have hnl : t.mem.next ∉ l := fun hm => lt_irrefl _ (h.new _ hm).2
  have hne : ∀ x ∈ l, x ≠ t.mem.next := fun x hx => (h.new x hx).2.ne
  have hext : ∀ x, x ≠ t.mem.next →
      (x ∈ (t.mem.initb (decide (FASTBUF < size)) size false).external ↔ x ∈ t.mem.external) := by
    intro x hx
    simp only [Mem.initb]
    split_ifs
    · simp [hx]
    · rfl
  refine ⟨h.le.trans (Nat.le_succ _),?_,?_,fun b hb => ?_,fun b hb => ?_,fun x h1 h2 h3 => ?_,fun x hx => ?_,h.byte,
    fun x hx => ?_⟩
  · have h1 : (t.mem.next :: t.mem.live).Perm (t.mem.next :: (l ++ s.mem.live)) := h.live.cons _
    refine h1.trans ?_
    rw [List.append_assoc]
    exact List.perm_middle.symm
  · exact List.nodup_append.mpr ⟨h.nodup,List.nodup_singleton _,fun x hx y hy => List.mem_singleton.mp hy ▸ hne x hx⟩
  · rcases List.mem_append.mp hb with hb | hb
    · exact ⟨(h.new b hb).1,Nat.lt_succ_of_lt (h.new b hb).2⟩
    · obtain rfl := List.mem_singleton.mp hb
      exact ⟨h.le,Nat.lt_succ_self _⟩
  · rcases List.mem_append.mp hb with hb | hb
    · unfold Own
      simp only [Mem.initb_mdb,if_neg (hne b hb)]
      rw [hext b (hne b hb)]
      exact h.own b hb
    · obtain rfl := List.mem_singleton.mp hb
      unfold Own
      have hold : t.mem.next ∉ t.mem.external := fun hm => lt_irrefl _ (h.external _ hm)
      simp only [Mem.initb_mdb,if_true]
      refine ⟨0,0,M_DATA,_,rfl,?_⟩
      by_cases hs : FASTBUF < size
      · simp [Mem.initb,hs]
      · simp [Mem.initb,hs,hold]
  · have hx : x ≠ t.mem.next := by
      rintro rfl
      exact h3 (List.mem_append_right _ (List.mem_singleton_self _))
    have h2' : x < t.mem.next := lt_of_le_of_ne (Nat.le_of_lt_succ h2) hx
    obtain ⟨hf,hr⟩ := h.gone x h1 h2' fun hm => h3 (List.mem_append_left _ hm)
    exact ⟨hf,fun hm => hr ((hext x hx).mp hm)⟩
  · rw [Mem.initb_mdb,if_neg (by have := h.le; omega)]
    exact h.mdb x hx
  · by_cases hxn : x = t.mem.next
    · exact hxn ▸ Nat.lt_succ_self _
    · exact Nat.lt_succ_of_lt (h.external x ((hext x hxn).mp hx))

/- A block that nobody else refers to is given back whole. -/
theorem lisFreeb_own {m : Mem} (h : Own m b) : (∀ x, x ≠ b → (m.lisFreeb b).mdb x = m.mdb x) ∧
    (m.lisFreeb b).next = m.next ∧ (m.lisFreeb b).live = m.live.erase b ∧ (m.lisFreeb b).external = m.external ∧
    (m.lisFreeb b).freed = m.freed ++ [b] ∧ (∀ x ∈ m.released, x ∈ (m.lisFreeb b).released) ∧
    (b ∈ m.external → b ∈ (m.lisFreeb b).released) := by
  obtain ⟨r,w,ty,size,he,hext⟩ := h
  have h0 : (1 : Uchar) ≠ 0 := by decide
  have hdec : ((m.decRef b).mdb b) = ⟨some b,some b,r,w,false,some b,0,ty,size⟩ := by
    simp only [Mem.decRef,Mem.upd,Function.update_self,he]
    rfl
  have hother : ∀ x, x ≠ b → (m.decRef b).mdb x = m.mdb x := fun x hx => Function.update_of_ne hx ..
  have hrun : m.lisFreedb b true = ((m.decRef b).releaseBuf b).freehdr b := by
    unfold Mem.lisFreedb
    rw [he]
    simp only [he,h0,if_false,hdec,if_true]
    have href : (((m.decRef b).releaseBuf b).mdb b).dbRef = 0 := by
      unfold Mem.releaseBuf
      rw [hdec]
      simp only [Bool.false_eq_true,if_false]
      split_ifs <;> simp [Mem.upd,hdec]
    rw [href]
    simp
  have hrel : ((m.decRef b).releaseBuf b).released = m.released ++ (if FASTBUF < size then [b] else []) ∧
      (∀ x, x ≠ b → ((m.decRef b).releaseBuf b).mdb x = m.mdb x) ∧
      ((m.decRef b).releaseBuf b).next = m.next ∧ ((m.decRef b).releaseBuf b).live = m.live ∧
      ((m.decRef b).releaseBuf b).external = m.external ∧ ((m.decRef b).releaseBuf b).freed = m.freed := by
    unfold Mem.releaseBuf
    rw [hdec]
    simp only [Bool.false_eq_true,if_false]
    split_ifs with hs
    · refine ⟨rfl,fun x hx => ?_,rfl,rfl,rfl,rfl⟩
      exact (Function.update_of_ne hx ..).trans (hother x hx)
    · refine ⟨(List.append_nil _).symm,fun x hx => ?_,rfl,rfl,rfl,rfl⟩
      exact (Function.update_of_ne hx ..).trans (hother x hx)
  obtain ⟨h1,h2,h3,h4,h5,h6⟩ := hrel
  have hreleased : (m.lisFreeb b).released = m.released ++ (if FASTBUF < size then [b] else []) := by
    rw [Mem.lisFreeb,hrun]
    exact h1
  refine ⟨fun x hx => ?_,?_,rfl,?_,?_,fun x hx => ?_,fun hm => ?_⟩
  · rw [Mem.lisFreeb,hrun]
    exact h2 x hx
  · rw [Mem.lisFreeb,hrun]
    exact h3
  · rw [Mem.lisFreeb,hrun]
    exact h5
  · rw [Mem.lisFreeb,hrun]
    exact congrArg (· ++ [b]) h6
  · rw [hreleased]
    exact List.mem_append_left _ hx
  · rw [hreleased,if_pos (hext.mp hm)]
    exact List.mem_append_right _ (List.mem_singleton_self _)

theorem Built.freeb (h : Built s t l) (hb : b ∈ l) : Built s { t with mem := t.mem.lisFreeb b } (l.erase b) := by
  obtain ⟨h1,h2,h3,h4,h5,h6,h7⟩ := lisFreeb_own (h.own b hb)
  have hmem : ∀ x, x ∈ l.erase b ↔ x ≠ b ∧ x ∈ l := fun x => h.nodup.mem_erase_iff
  refine ⟨h2.symm ▸ h.le,?_,h.nodup.erase b,fun x hx => ?_,fun x hx => ?_,fun x hx hx2 hxl => ?_,fun x hx => ?_,h.byte,?_⟩
  · show (t.mem.lisFreeb b).live.Perm _
    rw [h3]
    have hp := h.live.erase b
    rwa [List.erase_append_left _ hb] at hp
  · show s.mem.next ≤ x ∧ x < (t.mem.lisFreeb b).next
    rw [h2]
    exact h.new x ((hmem x).mp hx).2
  · obtain ⟨hxb,hxl⟩ := (hmem x).mp hx
    unfold Own
    show ∃ r w ty size, (t.mem.lisFreeb b).mdb x = _ ∧ (x ∈ (t.mem.lisFreeb b).external ↔ _)
    rw [h1 x hxb,h4]
    exact h.own x hxl
  · unfold Gone
    show x ∈ (t.mem.lisFreeb b).freed ∧ (x ∈ (t.mem.lisFreeb b).external → x ∈ (t.mem.lisFreeb b).released)
    rw [h4,h5]
    by_cases hxb : x = b
    · subst hxb
      exact ⟨List.mem_append_right _ (List.mem_singleton_self _),h7⟩
    · have hx2' : x < t.mem.next := h2 ▸ hx2
      obtain ⟨hf,hr⟩ := h.gone x hx hx2' fun hm => hxl ((hmem x).mpr ⟨hxb,hm⟩)
      exact ⟨List.mem_append_left _ hf,fun he => h6 x (hr he)⟩
  · have hxb : x ≠ b := by
      have := (h.new b hb).1
      omega
    show (t.mem.lisFreeb b).mdb x = _
    rw [h1 x hxb]
    exact h.mdb x hx
  · show ∀ x ∈ (t.mem.lisFreeb b).external, x < (t.mem.lisFreeb b).next
    rw [h4,h2]
    exact h.external

theorem Built.freemsg (h : Built s t (l ++ blks)) : Built s { t with mem := t.mem.lisFreemsg blks } l := by
  induction blks generalizing t with
  | nil => simpa [Mem.lisFreemsg] using h
  | cons b blks ih =>
    have hb : b ∈ l ++ b :: blks := by simp
    have hl : b ∉ l := by
      have := (List.nodup_cons.mp (List.nodup_middle.mp h.nodup)).1
      exact fun hm => this (List.mem_append_left _ hm)
    have h1 := h.freeb hb
    rw [List.erase_append_right _ hl,List.erase_cons_head] at h1
    exact ih h1

end Store

end CSLiS.Buffer
