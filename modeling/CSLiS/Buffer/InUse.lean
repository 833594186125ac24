import CSLiS.Buffer.Release

/-!
# Data blocks in use (head/msg.c, head/msgutl.c)

A buffer that the header of its data block outlives is not given back. What a block still points to was given back
in no run, as long as no data block gets a reference too many.
-/

namespace CSLiS.Buffer
open Queue Lib.Refs Lib.Exec

namespace Mem

variable {s t : Mem} {x b d n : ℕ} {separate : Bool}

/- What the users of a data block rely on. -/
structure InUse (s : Mem) : Prop where
  extLt : ∀ x ∈ s.external, x < s.next
  relLt : ∀ x ∈ s.released, x < s.next
  unreleased : ∀ x, 0 < s.users x → x ∉ s.released
  holding : ∀ x, 0 < s.users x → x ∈ s.external → s.Holding x
  plain : ∀ x, 0 < s.users x → x ∉ s.external → s.Plain x

theorem init_inUse : init.InUse := by
  refine ⟨?_,?_,?_,?_,?_⟩ <;> simp [init,users]

theorem Frame.inUse (hf : Frame s t) (hi : s.InUse) : t.InUse := by
  refine ⟨?_,?_,fun x hu => ?_,fun x hu hm => ?_,fun x hu hm => ?_⟩
  · simpa only [hf.external,hf.next] using hi.extLt
  · simpa only [hf.released,hf.next] using hi.relLt
  · exact hf.released ▸ hi.unreleased x (hf.users ▸ hu)
  · have hs := hi.holding x (hf.users ▸ hu) (hf.external ▸ hm)
    obtain ⟨h1,h2,h3⟩ := hf.same x
    rwa [Holding,h1,h2,h3]
  · have hs := hi.plain x (hf.users ▸ hu) (hf.external ▸ hm)
    obtain ⟨h1,h2,-⟩ := hf.same x
    rwa [Plain,h1,h2]

theorem Grow.inUse (hg : Grow s t d separate) (hh : s.Headers) (hi : s.InUse)
    (hd : d = s.next ∨ 0 < s.users d ∧ separate = false) : t.InUse := by
  have hext : ∀ x ≠ s.next, x ∈ t.external ↔ x ∈ s.external := by
    intro x hx
    rw [hg.external]
    cases separate <;> simp [hx]
  have hold : s.next ∉ s.external := fun hm => lt_irrefl _ (hi.extLt _ hm)
  have hnew : s.next ∈ t.external ↔ separate = true := by
    rw [hg.external]
    cases separate <;> simp [hold]
  have hself := hg.bufSelf
  have hused : ∀ x ≠ s.next, 0 < t.users x → 0 < s.users x := by
    intro x hx hu
    rw [hg.users hh] at hu
    by_cases he : d = x
    · subst he
      exact (hd.resolve_left hx).1
    · simpa [he] using hu
  refine ⟨fun x hm => ?_,fun x hm => ?_,fun x hu => ?_,fun x hu hm => ?_,fun x hu hm => ?_⟩
  · by_cases hx : x = s.next
    · exact hx ▸ hg.next ▸ Nat.lt_succ_self _
    · exact hg.next ▸ Nat.lt_succ_of_lt (hi.extLt x ((hext x hx).mp hm))
  · exact hg.next ▸ Nat.lt_succ_of_lt (hi.relLt x (hg.released ▸ hm))
  · rw [hg.released]
    by_cases hx : x = s.next
    · exact fun hm => (hi.relLt x hm).ne hx
    · exact hi.unreleased x (hused x hx hu)
  · by_cases hx : x = s.next
    · subst hx
      rwa [if_pos (hnew.mp hm)] at hself
    · have hs := hi.holding x (hused x hx hu) ((hext x hx).mp hm)
      obtain ⟨h1,h2,h3⟩ := hg.same x hx
      rwa [Holding,h1,h2,h3]
  · by_cases hx : x = s.next
    · subst hx
      rwa [if_neg fun hs => hm (hnew.mpr hs)] at hself
    · have hs := hi.plain x (hused x hx hu) fun h => hm ((hext x hx).mpr h)
      obtain ⟨h1,h2,-⟩ := hg.same x hx
      rwa [Plain,h1,h2]

/-- One reference to `d` less: its buffer is given back only if that was the last one. -/
theorem Headers.inUse_lost (hh : s.Headers) (hi : s.InUse) (hm : b ∈ s.live) (hd : s.datap b = some d)
    (hu : ∀ x, t.users x + (if d = x then 1 else 0) = s.users x) (hnext : t.next = s.next)
    (hext : t.external = s.external)
    (hrel : t.released = s.released ++ if s.ref d = 1 ∧ d ∈ s.external then [d] else [])
    (hsame : ∀ x, x = d ∧ s.ref d = 1 ∨ SameBuf (s.mdb x) (t.mdb x)) : t.InUse := by
  have hkept : ∀ x, 0 < t.users x → 0 < s.users x ∧ ¬ (x = d ∧ s.ref d = 1) := by
    intro x hx
    have hux := hu x
    refine ⟨by omega,?_⟩
    rintro ⟨rfl,h1⟩
    have := ((hh.ref_one hm hd).mp h1).1
    rw [if_pos rfl] at hux
    omega
  refine ⟨?_,fun x hx => ?_,fun x hx hr => ?_,fun x hx he => ?_,fun x hx he => ?_⟩
  · simpa only [hext,hnext] using hi.extLt
  · rw [hrel,List.mem_append] at hx
    rw [hnext]
    refine hx.elim (hi.relLt x) fun h => ?_
    split_ifs at h with hc
    · exact List.mem_singleton.mp h ▸ hi.extLt d hc.2
    · cases h
  · rw [hrel,List.mem_append] at hr
    refine hr.elim (hi.unreleased x (hkept x hx).1) fun h => ?_
    split_ifs at h with hc
    · exact (hkept x hx).2 ⟨List.mem_singleton.mp h,hc.1⟩
    · cases h
  · obtain ⟨h1,h2,h3⟩ := (hsame x).resolve_left (hkept x hx).2
    have hs := hi.holding x (hkept x hx).1 (hext ▸ he)
    rwa [Holding,h1,h2,h3]
  · obtain ⟨h1,h2,-⟩ := (hsame x).resolve_left (hkept x hx).2
    have hs := hi.plain x (hkept x hx).1 (hext ▸ he)
    rwa [Plain,h1,h2]

theorem step_inUse {a : MemAct} (hi : s.Headers ∧ s.InUse) (hg : Uncrowded s a) (hs : step s a = some t) :
    t.Headers ∧ t.InUse := by
  obtain ⟨hh,hi⟩ := hi
  cases step_effect hh hi.holding hi.plain hs with
  | frame h => exact ⟨h.headers hh,h.inUse hi⟩
  | spare h =>
    refine h ▸ ⟨freehdr_headers hh,fun x hx => ?_,fun x hx => ?_,hi.unreleased,hi.holding,hi.plain⟩
    · exact Nat.lt_succ_of_lt (hi.extLt x hx)
    · exact Nat.lt_succ_of_lt (hi.relLt x hx)
  | grow separate h => exact ⟨h.headers hh (.inl rfl),h.inUse hh hi (.inl rfl)⟩
  | dup d hpos hne h => exact ⟨h.headers hh (.inr ⟨hpos,hne hg⟩),h.inUse hh hi (.inr ⟨hpos,rfl⟩)⟩
  | drop b d hm hd hlast h =>
    exact ⟨h.headers hh hm hd,hh.inUse_lost hi hm hd (fun _ => h.users hh hm hd) h.next h.external h.released h.same⟩
  | swap b d n hm hd hn hnd hne hlast h =>
    exact ⟨h.headers hh hm hd hn hnd hne,hh.inUse_lost hi hm hd (fun _ => h.users hh hm hd hn hnd hne) h.next
      h.external h.released h.same⟩

/- A call in which no data block gets a 256th reference. -/
def Light (s : Mem) (a : MsgAct) : Prop := Meets step Uncrowded s (parts s a)

instance (a : MsgAct) : Decidable (Light s a) := Meets.decidable step Uncrowded s (parts s a)

theorem call_inUse {a : MsgAct} (hi : s.Headers ∧ s.InUse) (hc : Light s a) (h : call s a = some t) :
    t.Headers ∧ t.InUse :=
  exec_preserves (I := fun s => s.Headers ∧ s.InUse) (fun _ _ _ => step_inUse) hi hc (call_parts hi.1 h)

/-- In memory where no reference count ran over, what a block points to is there. -/
theorem run_inUse {as : List MsgAct} (hc : Meets call Light init as) (h : exec call init as = some s) :
    s.Headers ∧ s.InUse :=
  exec_preserves (I := fun s => s.Headers ∧ s.InUse) (fun _ _ _ => call_inUse) ⟨init_headers,init_inUse⟩ hc h

end Mem

end CSLiS.Buffer
