import CSLiS.Buffer.Refs

/-!
# Who owns a header and a buffer (head/msg.c, head/msgutl.c)

A `db_ref` counts the live blocks that point to the data block, and one more for
a live header that points elsewhere. `Headers` and `Buffers` say what that means
for `freehdr` and for the buffers outside a header; each routine keeps both.
-/

namespace CSLiS.Buffer
open Queue Lib.Refs

namespace Mem

variable {s t : Mem} {x b d n : ℕ} {separate : Bool}

/- The live blocks that point to the data block of `x`. -/
def users (s : Mem) (x : ℕ) : ℕ := refs s.datap s.live x

/- What the life of a header adds to the count of a data block no longer its own. -/
def own (s : Mem) (x : ℕ) : ℕ := if x ∈ s.live ∧ s.datap x ≠ some x then 1 else 0

structure Headers (s : Mem) : Prop where
  nodup : s.live.Nodup
  lt : ∀ b ∈ s.live, b < s.next
  datap : ∀ b ∈ s.live, ∃ d < s.next, s.datap b = some d ∧ (s.mdb b).bBuf = some d
  ref : ∀ x < s.next, x ∉ s.freed → (s.ref x).val = s.users x + s.own x
  freed : ∀ x, x ∈ s.freed ↔ x < s.next ∧ x ∉ s.live ∧ s.users x = 0
  freedNodup : s.freed.Nodup

structure Buffers (s : Mem) : Prop where
  lt : ∀ x ∈ s.external, x < s.next
  released : ∀ x, x ∈ s.released ↔ x ∈ s.external ∧ s.users x = 0
  releasedNodup : s.released.Nodup
  holding : ∀ x, 0 < s.users x → x ∈ s.external → s.Holding x
  plain : ∀ x, 0 < s.users x → x ∉ s.external → s.Plain x

theorem init_headers : init.Headers := by
  refine ⟨List.nodup_nil,?_,?_,?_,?_,List.nodup_nil⟩ <;> simp [init]
theorem init_buffers : init.Buffers := by
  refine ⟨?_,?_,List.nodup_nil,?_,?_⟩ <;> simp [init,users]

theorem uchar_val_sub {a : Uchar} (h : a ≠ 0) : (a - 1).val = a.val - 1 := by
  rw [Fin.val_sub_one_of_ne_zero h]

theorem uchar_val_add {a : Uchar} (h : a ≠ 255) : (a + 1).val = a.val + 1 :=
  Fin.val_add_one_of_lt (lt_of_le_of_ne (Fin.le_last a) h)

theorem uchar_val_one {a : Uchar} : a = 1 ↔ a.val = 1 := Fin.ext_iff

section Grow

theorem Grow.users (hg : Grow s t d separate) (hh : s.Headers) :
    t.users x = s.users x + if d = x then 1 else 0 := by
  have hfresh : s.next ∉ s.live := fun hm => lt_irrefl _ (hh.lt _ hm)
  unfold Mem.users
  rw [hg.live,refs_cons,hg.datapSelf.1,refs_congr fun h hm => (hg.datap h ?_).1]
  · simp
  · rintro rfl
    exact hfresh hm

theorem Headers.users_next (hh : s.Headers) : s.users s.next = 0 := by
  refine refs_zero_iff.mpr fun b hm he => ?_
  obtain ⟨d,hlt,hd,-⟩ := hh.datap b hm
  rw [hd] at he
  exact lt_irrefl _ (Option.some.inj he ▸ hlt)

theorem Grow.headers (hg : Grow s t d separate) (hh : s.Headers) (hd : d = s.next ∨ 0 < s.users d ∧ s.ref d ≠ 255) :
    t.Headers := by
  have hfresh : s.next ∉ s.live := fun hm => lt_irrefl _ (hh.lt _ hm)
  have hdlt : d < t.next := by
    rw [hg.next]
    obtain hd | hd := hd
    · omega
    · obtain ⟨b,hm,he⟩ := refs_pos_iff.mp hd.1
      obtain ⟨d',hlt,hd',-⟩ := hh.datap b hm
      rw [hd'] at he
      cases he
      omega
  refine ⟨?_,?_,?_,?_,?_,hg.freed ▸ hh.freedNodup⟩
  · rw [hg.live]
    exact List.nodup_cons.mpr ⟨hfresh,hh.nodup⟩
  · rw [hg.live,hg.next]
    intro b hm
    rcases List.mem_cons.mp hm with rfl | hm
    · omega
    · exact Nat.lt_succ_of_lt (hh.lt b hm)
  · rw [hg.live]
    intro b hm
    rcases List.mem_cons.mp hm with rfl | hm
    · exact ⟨d,hdlt,hg.datapSelf⟩
    · have hne : b ≠ s.next := fun he => hfresh (he ▸ hm)
      obtain ⟨e,hlt,he⟩ := hh.datap b hm
      rw [(hg.datap b hne).1,(hg.datap b hne).2]
      exact ⟨e,hg.next ▸ Nat.lt_succ_of_lt hlt,he⟩
  · intro x hlt hnf
    rw [hg.users hh]
    by_cases hx : x = s.next
    · subst hx
      rw [hg.refSelf,hh.users_next,own,hg.live,hg.datapSelf.1]
      by_cases he : d = s.next <;> simp [he]
    · have hown : t.own x = s.own x := by simp [own,hg.live,(hg.datap x hx).1,hx]
      have hold := hh.ref x (by rw [hg.next] at hlt; omega) (hg.freed ▸ hnf)
      rw [hg.ref x hx,hown]
      by_cases he : x = d
      · subst he
        have hne := (hd.resolve_left hx).2
        rw [if_pos rfl,if_pos rfl,uchar_val_add hne]
        omega
      · rw [if_neg he,if_neg (Ne.symm he),add_zero]
        omega
  · intro x
    rw [hg.freed,hh.freed,hg.live,hg.next,hg.users hh]
    by_cases hx : x = s.next
    · subst hx
      simp
    · have hdx : d = x → s.users x ≠ 0 := by
        rintro rfl
        exact (hd.resolve_left hx).1.ne'
      by_cases he : d = x
      · simp [he,hdx he]
      · simp only [List.mem_cons,hx,false_or,if_neg he,add_zero]
        constructor
        · exact fun h => ⟨by omega,h.2⟩
        · exact fun h => ⟨by omega,h.2⟩

theorem Grow.buffers (hg : Grow s t d separate) (hh : s.Headers) (hb : s.Buffers)
    (hd : d = s.next ∨ 0 < s.users d ∧ separate = false) : t.Buffers := by
  have hext : ∀ x ≠ s.next, x ∈ t.external ↔ x ∈ s.external := by
    intro x hx
    rw [hg.external]
    cases separate <;> simp [hx]
  have hold : s.next ∉ s.external := fun hm => lt_irrefl _ (hb.lt _ hm)
  have hnew : s.next ∈ t.external ↔ separate = true := by
    rw [hg.external]
    cases separate <;> simp [hold]
  have hused : ∀ x ≠ s.next, 0 < t.users x → 0 < s.users x := by
    intro x hx hu
    rw [hg.users hh] at hu
    by_cases he : d = x
    · subst he
      exact (hd.resolve_left hx).1
    · simpa [he] using hu
  refine ⟨fun x hm => ?_,fun x => ?_,hg.released ▸ hb.releasedNodup,fun x hu hm => ?_,fun x hu hm => ?_⟩
  · rw [hg.next]
    by_cases hx : x = s.next
    · omega
    · exact Nat.lt_succ_of_lt (hb.lt x ((hext x hx).mp hm))
  · rw [hg.released,hb.released]
    by_cases hx : x = s.next
    · subst hx
      simp only [hold,false_and,hnew,false_iff,not_and,hg.users hh]
      intro hs
      rw [if_pos (hd.resolve_right fun h => by simp [h.2] at hs)]
      omega
    · have h0 : t.users x = 0 ↔ s.users x = 0 := by
        constructor
        · intro h
          rw [hg.users hh] at h
          omega
        · intro h
          by_contra hne
          have := hused x hx (Nat.pos_of_ne_zero hne)
          omega
      rw [hext x hx,h0]
  · by_cases hx : x = s.next
    · subst hx
      have := hg.bufSelf
      rwa [if_pos (hnew.mp hm)] at this
    · have hs := hb.holding x (hused x hx hu) ((hext x hx).mp hm)
      obtain ⟨h1,h2,h3⟩ := hg.same x hx
      rwa [Holding,h1,h2,h3]
  · by_cases hx : x = s.next
    · subst hx
      have := hg.bufSelf
      rwa [if_neg (fun h => hm (hnew.mpr h))] at this
    · have hs := hb.plain x (hused x hx hu) (fun h => hm ((hext x hx).mpr h))
      obtain ⟨h1,h2,-⟩ := hg.same x hx
      rwa [Plain,h1,h2]

end Grow

/- Reading or writing a block leaves the counts alone. -/
structure Frame (s t : Mem) : Prop where
  live : t.live = s.live
  next : t.next = s.next
  external : t.external = s.external
  freed : t.freed = s.freed
  released : t.released = s.released
  datap : t.datap = s.datap
  buf : ∀ x, (t.mdb x).bBuf = (s.mdb x).bBuf
  ref : t.ref = s.ref
  same : ∀ x, SameBuf (s.mdb x) (t.mdb x)

theorem Frame.users (hf : Frame s t) : t.users = s.users := by
  funext x
  simp only [Mem.users,hf.live,hf.datap]

theorem Frame.headers (hf : Frame s t) (hh : s.Headers) : t.Headers := by
  refine ⟨hf.live ▸ hh.nodup,?_,?_,?_,?_,hf.freed ▸ hh.freedNodup⟩
  · simpa only [hf.live,hf.next] using hh.lt
  · simpa only [hf.live,hf.next,hf.datap,hf.buf] using hh.datap
  · simpa only [hf.live,hf.next,hf.datap,hf.freed,hf.ref,hf.users,own] using hh.ref
  · simpa only [hf.live,hf.next,hf.freed,hf.users] using hh.freed

theorem Frame.buffers (hf : Frame s t) (hb : s.Buffers) : t.Buffers := by
  refine ⟨?_,?_,hf.released ▸ hb.releasedNodup,fun x hu hm => ?_,fun x hu hm => ?_⟩
  · simpa only [hf.external,hf.next] using hb.lt
  · simpa only [hf.external,hf.released,hf.users] using hb.released
  · have hs := hb.holding x (hf.users ▸ hu) (hf.external ▸ hm)
    obtain ⟨h1,h2,h3⟩ := hf.same x
    rwa [Holding,h1,h2,h3]
  · have hs := hb.plain x (hf.users ▸ hu) (hf.external ▸ hm)
    obtain ⟨h1,h2,-⟩ := hf.same x
    rwa [Plain,h1,h2]

section GivenUp

/- What `b` gives up is the last reference, or the header of the data block lives on
without it; in the second case there must be no buffer to give back. -/
def LastRef (s : Mem) (b : ℕ) : Prop :=
  ∀ d ∈ s.datap b, d ≠ b → d ∈ s.live → s.ref d = 2 → s.datap d = some d ∨ s.Plain d

theorem users_pos (hm : b ∈ s.live) (hd : s.datap b = some d) : 0 < s.users d := refs_pos_iff.mpr ⟨b,hm,hd⟩

theorem Headers.datap_lt (hh : s.Headers) (hm : b ∈ s.live) (hd : s.datap b = some d) : d < s.next := by
  obtain ⟨e,hlt,he,-⟩ := hh.datap b hm
  rw [hd] at he
  exact Option.some.inj he ▸ hlt

theorem Headers.ref_users (hh : s.Headers) (hm : b ∈ s.live) (hd : s.datap b = some d) :
    (s.ref d).val = s.users d + s.own d := by
  refine hh.ref d (hh.datap_lt hm hd) fun hf => ?_
  have := ((hh.freed d).mp hf).2.2
  exact absurd this (users_pos hm hd).ne'

theorem Headers.ref_self (hh : s.Headers) (hm : b ∈ s.live) : (s.ref b).val = s.users b + s.own b :=
  hh.ref b (hh.lt b hm) fun hf => ((hh.freed b).mp hf).2.1 hm

theorem own_self (hm : b ∈ s.live) (hd : s.datap b = some d) : s.own b = if d = b then 0 else 1 := by
  by_cases h : d = b <;> simp [own,hm,hd,h]

theorem two_users (hm : b ∈ s.live) (hd : s.datap b = some d) (hl : d ∈ s.live) (hne : d ≠ b)
    (hself : s.datap d = some d) : 2 ≤ s.users d := by
  have htwo := refs_erase (f := s.datap) (x := d) hm
  have hone : 0 < refs s.datap (s.live.erase b) d :=
    refs_pos_iff.mpr ⟨d,(List.mem_erase_of_ne hne).mpr hl,hself⟩
  rw [if_pos hd] at htwo
  change s.users d = _ at htwo
  omega

/- The last live block that points to `d` is `b`, and `d` is no live header. -/
theorem Headers.ref_one (hh : s.Headers) (hm : b ∈ s.live) (hd : s.datap b = some d) :
    s.ref d = 1 ↔ s.users d = 1 ∧ (d ∈ s.live → d = b) := by
  have hr := hh.ref_users hm hd
  have hpos := users_pos hm hd
  rw [uchar_val_one]
  constructor
  · intro h1
    refine ⟨by omega,fun hl => ?_⟩
    by_contra hne
    have hself : s.datap d = some d := by
      by_contra hn
      simp only [own,hl,ne_eq,hn,not_false_eq_true,and_self,if_true] at hr
      omega
    have := two_users hm hd hl hne hself
    omega
  · rintro ⟨h1,hl⟩
    have hown : s.own d = 0 := by
      unfold own
      split_ifs with h
      · exact absurd (hl h.1 ▸ hd) h.2
      · rfl
    omega

theorem Headers.ref_ne (hh : s.Headers) (hm : b ∈ s.live) (hd : s.datap b = some d) :
    s.ref d ≠ 0 ∧ s.ref b ≠ 0 := by
  have hr := hh.ref_users hm hd
  have hs := hh.ref_self hm
  have hpos := users_pos hm hd
  rw [own_self hm hd] at hs
  constructor
  · intro h
    rw [h] at hr
    simp only [Fin.val_zero] at hr
    omega
  · intro h
    rw [h] at hs
    simp only [Fin.val_zero] at hs
    by_cases he : d = b
    · subst he
      omega
    · simp [he] at hs

/- A buffer outside a header: the last live block that points to `d` is `b` exactly
when the count says so. -/
theorem Headers.ref_one_external (hh : s.Headers) (hb : s.Buffers) (hm : b ∈ s.live)
    (hd : s.datap b = some d) (hlast : s.LastRef b) (hext : d ∈ s.external) :
    s.ref d = 1 ↔ s.users d = 1 := by
  rw [hh.ref_one hm hd]
  refine ⟨fun h => h.1,fun h1 => ⟨h1,fun hl => ?_⟩⟩
  by_contra hne
  have hr := hh.ref_users hm hd
  by_cases hself : s.datap d = some d
  · have := two_users hm hd hl hne hself
    omega
  · have hown : s.own d = 1 := if_pos ⟨hl,hself⟩
    have htwo : s.ref d = 2 := Fin.ext (by rw [hr,h1,hown]; rfl)
    have hplain := (hlast d hd hne hl htwo).resolve_left hself
    rcases hb.holding d (by omega) hext with h | h
    · rw [hplain.1] at h
      cases h
    · exact absurd h.1 (not_lt.mpr hplain.2)

/-- One reference to `d` less: its buffer is given back if that was the last one. -/
theorem Headers.buffers_lost (hh : s.Headers) (hb : s.Buffers) (hm : b ∈ s.live)
    (hd : s.datap b = some d) (hlast : s.LastRef b)
    (hu : ∀ x, t.users x + (if d = x then 1 else 0) = s.users x) (hnext : t.next = s.next)
    (hext : t.external = s.external)
    (hrel : t.released = s.released ++ if s.ref d = 1 ∧ d ∈ s.external then [d] else [])
    (hsame : ∀ x, x = d ∧ s.ref d = 1 ∨ SameBuf (s.mdb x) (t.mdb x)) : t.Buffers := by
  have hpos := users_pos hm hd
  have hnot : d ∉ s.released := fun hr => absurd ((hb.released d).mp hr).2 hpos.ne'
  have hsame' : ∀ x, 0 < t.users x → SameBuf (s.mdb x) (t.mdb x) := by
    intro x hx
    refine (hsame x).resolve_left ?_
    rintro ⟨rfl,h1⟩
    have := hu x
    have := ((hh.ref_one hm hd).mp h1).1
    simp only [if_true] at *
    omega
  refine ⟨?_,fun x => ?_,?_,fun x hx he => ?_,fun x hx he => ?_⟩
  · simpa only [hext,hnext] using hb.lt
  · have hux := hu x
    rw [hrel,List.mem_append,hext,hb.released]
    by_cases hx : d = x
    · subst hx
      rw [if_pos rfl] at hux
      by_cases he : d ∈ s.external
      · have h1 := hh.ref_one_external hb hm hd hlast he
        by_cases hr : s.ref d = 1
        · simp only [he,hr,true_and,if_true,List.mem_singleton,or_true,true_iff]
          have := h1.mp hr
          omega
        · have : s.users d ≠ 1 := fun h => hr (h1.mpr h)
          simp only [he,hr,true_and,false_and,if_false,List.not_mem_nil,or_false]
          omega
      · simp [he]
    · have : x ∉ (if s.ref d = 1 ∧ d ∈ s.external then [d] else []) := by
        split_ifs <;> simp [Ne.symm hx]
      rw [if_neg hx,add_zero] at hux
      simp only [this,or_false,hux]
  · rw [hrel]
    refine List.Nodup.append hb.releasedNodup ?_ ?_
    · split_ifs <;> simp
    · split_ifs
      · simpa using hnot
      · simp
  · have hx' := hu x
    obtain ⟨h1,h2,h3⟩ := hsame' x hx
    have hs := hb.holding x (by omega) (hext ▸ he)
    rwa [Holding,h1,h2,h3]
  · have hx' := hu x
    obtain ⟨h1,h2,-⟩ := hsame' x hx
    have hs := hb.plain x (by omega) (hext ▸ he)
    rwa [Plain,h1,h2]

theorem Drop.users (hg : Drop s t b d) (hh : s.Headers) (hm : b ∈ s.live) (hd : s.datap b = some d) :
    t.users x + (if d = x then 1 else 0) = s.users x := by
  have hrest : t.users x = refs s.datap (s.live.erase b) x := by
    unfold Mem.users
    rw [hg.live]
    refine refs_congr fun h hmem => hg.datap h ?_
    rintro rfl
    exact hh.nodup.not_mem_erase hmem
  rw [hrest,Mem.users,refs_erase hm,hd]
  simp

theorem Swap.users (hg : Swap s t b d n) (hh : s.Headers) (hm : b ∈ s.live) (hd : s.datap b = some d)
    (hn : n ∈ s.live) (hnd : s.datap n = some n) (hne : n ≠ b) :
    t.users x + (if d = x then 1 else 0) = s.users x := by
  have hmem : b ∈ s.live.erase n := (List.mem_erase_of_ne hne.symm).mpr hm
  have hrest : t.users x = refs (Function.update s.datap b (some n)) (s.live.erase n) x := by
    unfold Mem.users
    rw [hg.live]
    refine refs_congr fun h hmem => ?_
    by_cases hb : h = b
    · subst hb
      rw [hg.datapSelf.1,Function.update_self]
    · have hhn : h ≠ n := by
        rintro rfl
        exact hh.nodup.not_mem_erase hmem
      rw [(hg.datap h hb hhn).1,Function.update_of_ne hb]
  have hupd := refs_update (f := s.datap) (x := x) (y := some n) hmem (hh.nodup.erase n)
  have hera := refs_erase (f := s.datap) (x := x) hn
  rw [hrest]
  simp only [hd,Option.some.injEq] at hupd
  simp only [hnd,Option.some.injEq] at hera
  change s.users x = _ at hera
  omega

theorem Drop.own (hg : Drop s t b d) (hh : s.Headers) :
    t.own x = if x = b then 0 else s.own x := by
  have hb : b ∉ t.live := hg.live ▸ hh.nodup.not_mem_erase
  by_cases hx : x = b
  · subst hx
    simp [Mem.own,hb]
  · simp [Mem.own,hg.live,List.mem_erase_of_ne hx,hg.datap x hx,hx]

theorem Drop.headers (hg : Drop s t b d) (hh : s.Headers) (hm : b ∈ s.live)
    (hd : s.datap b = some d) : t.Headers := by
  have hne : ∀ x ∈ t.live, x ≠ b ∧ x ∈ s.live := by
    intro x hx
    rw [hg.live] at hx
    exact ⟨fun he => hh.nodup.not_mem_erase (he ▸ hx),List.mem_of_mem_erase hx⟩
  have hself := hh.ref_self hm
  have hown := own_self hm hd
  have hpos := users_pos hm hd
  have hone := hh.ref_one hm hd
  obtain ⟨hd0,hb0⟩ := hh.ref_ne hm hd
  have hbf : b ∉ s.freed := fun h => ((hh.freed b).mp h).2.1 hm
  have hdf : d ∉ s.freed := fun h => hpos.ne' ((hh.freed d).mp h).2.2
  refine ⟨?_,fun x hx => ?_,fun x hx => ?_,fun x hlt hnf => ?_,fun x => ?_,?_⟩
  · rw [hg.live]
    exact hh.nodup.erase b
  · rw [hg.next]
    exact hh.lt x (hne x hx).2
  · obtain ⟨e,hlt,he⟩ := hh.datap x (hne x hx).2
    rw [hg.datap x (hne x hx).1,hg.buf,hg.next]
    exact ⟨e,hlt,he⟩
  · have hux := hg.users hh hm hd (x := x)
    have hold : x ∉ s.freed := fun h => hnf (by simp [hg.freed,h])
    rw [hg.ref,hg.own hh]
    by_cases hx : x = b
    · subst hx
      by_cases he : d = x
      · subst he
        simp only [ne_eq,not_true_eq_false,and_false,if_false,if_true,sub_zero] at *
        rw [uchar_val_sub hb0]
        omega
      · simp only [ne_eq,he,Ne.symm he,not_false_eq_true,and_true,if_false,if_true,sub_zero] at *
        rw [uchar_val_sub hb0]
        omega
    · have hr := hh.ref x (hg.next ▸ hlt) hold
      by_cases he : d = x
      · subst he
        simp only [hx,false_and,if_false,if_true,sub_zero] at *
        rw [uchar_val_sub hd0]
        omega
      · simp only [hx,Ne.symm he,he,false_and,if_false,sub_zero] at *
        omega
  · have hux := hg.users hh hm hd (x := x)
    rw [hg.freed,hg.next,hg.live]
    by_cases hx : x = b
    · subst hx
      have hlt := hh.lt x hm
      have hout := hh.nodup.not_mem_erase (a := x)
      by_cases he : d = x
      · subst he
        simp only [ne_eq,not_true_eq_false,false_and,if_false,List.append_nil,List.mem_append,hbf,
          false_or,hlt,hout,not_false_eq_true,true_and,if_true] at *
        have h1 : s.ref d = 1 ↔ t.users d = 0 := by
          rw [uchar_val_one]
          omega
        by_cases hr : s.ref d = 1 <;> simp [hr,← h1]
      · simp only [if_neg he,add_zero] at hux hown
        have h1 : s.ref x = 1 ↔ s.users x = 0 := by
          rw [uchar_val_one]
          omega
        by_cases hr : s.ref x = 1
        · simp [hr,hlt,hout,hux,h1.mp hr]
        · have : s.users x ≠ 0 := fun h => hr (h1.mpr h)
          by_cases hrd : s.ref d = 1 <;> simp [hr,hbf,hrd,hux,this,Ne.symm he,he]
    · have hbx : x ∉ (if s.ref b = 1 then [b] else []) := by
        split_ifs <;> simp [hx]
      by_cases he : d = x
      · subst he
        have hlt := hh.datap_lt hm hd
        by_cases hr : s.ref d = 1
        · obtain ⟨h1,hl⟩ := hone.mp hr
          have hnl : d ∉ s.live := fun h => hx (hl h)
          simp only [if_true] at hux
          have h0 : t.users d = 0 := by omega
          simp [hr,hx,hlt,hnl,h0]
        · simp only [if_true] at hux
          simp only [hr,and_false,if_false,List.append_nil,List.mem_append,hdf,hbx,or_self,false_iff,
            List.mem_erase_of_ne hx,not_and]
          intro _ hnl h0
          exact hr (hone.mpr ⟨by omega,fun h => absurd h hnl⟩)
      · simp only [if_neg he,add_zero] at hux
        have hdx : x ∉ (if d ≠ b ∧ s.ref d = 1 then [d] else []) := by
          split_ifs <;> simp [Ne.symm he]
        simp only [List.mem_append,hbx,hdx,or_false,hh.freed x,List.mem_erase_of_ne hx,hux]
  · rw [hg.freed]
    refine List.Nodup.append (List.Nodup.append hh.freedNodup ?_ ?_) ?_ ?_
    · split_ifs <;> simp
    · split_ifs <;> simp [hdf]
    · split_ifs <;> simp
    · split_ifs with h1 h2 <;> simp [hbf]
      exact fun h => h1.1 h.symm

theorem Swap.own (hg : Swap s t b d n) (hh : s.Headers) (hm : b ∈ s.live) (hne : n ≠ b) :
    t.own x = if x = b then 1 else if x = n then 0 else s.own x := by
  have hn : n ∉ t.live := hg.live ▸ hh.nodup.not_mem_erase
  by_cases hb : x = b
  · subst hb
    have : x ∈ t.live := hg.live ▸ (List.mem_erase_of_ne hne.symm).mpr hm
    simp [Mem.own,this,hg.datapSelf.1,hne]
  · by_cases hx : x = n
    · subst hx
      simp [Mem.own,hn,hb]
    · simp [Mem.own,hg.live,List.mem_erase_of_ne hx,(hg.datap x hb hx).1,hb,hx]

theorem Swap.headers (hg : Swap s t b d n) (hh : s.Headers) (hm : b ∈ s.live)
    (hd : s.datap b = some d) (hn : n ∈ s.live) (hnd : s.datap n = some n) (hne : n ≠ b) :
    t.Headers := by
  have hmem : ∀ x ∈ t.live, x ≠ n ∧ x ∈ s.live := by
    intro x hx
    rw [hg.live] at hx
    exact ⟨fun he => hh.nodup.not_mem_erase (he ▸ hx),List.mem_of_mem_erase hx⟩
  have hown := own_self hm hd
  have hownn : s.own n = 0 := (own_self hn hnd).trans (if_pos rfl)
  have hpos := users_pos hm hd
  have hposn := users_pos hn hnd
  have hone := hh.ref_one hm hd
  have hd0 := (hh.ref_ne hm hd).1
  have hnlt := hh.datap_lt hn hnd
  have hbuf : (s.mdb n).bBuf = some n := by
    obtain ⟨e,-,he,hb⟩ := hh.datap n hn
    rw [hnd] at he
    rw [hb,he]
  have hdf : d ∉ s.freed := fun h => hpos.ne' ((hh.freed d).mp h).2.2
  refine ⟨?_,fun x hx => ?_,fun x hx => ?_,fun x hlt hnf => ?_,fun x => ?_,?_⟩
  · rw [hg.live]
    exact hh.nodup.erase n
  · rw [hg.next]
    exact hh.lt x (hmem x hx).2
  · rw [hg.next]
    by_cases hb : x = b
    · subst hb
      rw [hg.datapSelf.1,hg.datapSelf.2]
      exact ⟨n,hnlt,rfl,hbuf⟩
    · obtain ⟨e,hlt,he⟩ := hh.datap x (hmem x hx).2
      rw [(hg.datap x hb (hmem x hx).1).1,(hg.datap x hb (hmem x hx).1).2]
      exact ⟨e,hlt,he⟩
  · have hux := hg.users hh hm hd hn hnd hne (x := x)
    have hr := hh.ref x (hg.next ▸ hlt) fun h => hnf (by simp [hg.freed,h])
    rw [hg.ref,hg.own hh hm hne]
    by_cases he : d = x
    · subst he
      by_cases hb : d = b
      · subst hb
        simp only [ne_eq,not_true_eq_false,and_false,if_false,if_true,sub_zero] at *
        omega
      · simp only [ne_eq,hb,not_false_eq_true,and_self,if_true,if_false,uchar_val_sub hd0] at *
        split_ifs with hx
        · subst hx
          omega
        · omega
    · rw [if_neg fun h => he h.1.symm,sub_zero]
      rw [if_neg he] at hux
      split_ifs with hb hx
      · subst hb
        rw [if_neg he] at hown
        omega
      · subst hx
        omega
      · omega
  · have hux := hg.users hh hm hd hn hnd hne (x := x)
    rw [hg.freed,hg.next,hg.live]
    by_cases hxn : x = n
    · subst hxn
      have hnf : x ∉ s.freed := fun h => hposn.ne' ((hh.freed x).mp h).2.2
      have hu : t.users x ≠ 0 := by
        refine (users_pos ?_ hg.datapSelf.1).ne'
        rw [hg.live]
        exact (List.mem_erase_of_ne hne.symm).mpr hm
      have hdx : x ∉ (if d ≠ b ∧ s.ref d = 1 then [d] else []) := by
        split_ifs with h
        · intro hmem
          have he : x = d := List.mem_singleton.mp hmem
          subst he
          exact hne ((hone.mp h.2).2 hn)
        · simp
      simp [hnf,hu,hdx]
    · rw [List.mem_append,hh.freed x,List.mem_erase_of_ne hxn]
      by_cases he : d = x
      · subst he
        have hlt := hh.datap_lt hm hd
        by_cases hr : s.ref d = 1
        · obtain ⟨h1,hl⟩ := hone.mp hr
          simp only [if_true] at hux
          have h0 : t.users d = 0 := by omega
          by_cases hb : d = b
          · subst hb
            simp [hm]
          · have hnl : d ∉ s.live := fun h => hb (hl h)
            simp [hr,hb,hlt,h0,hnl]
        · have : ¬(d ∉ s.live ∧ s.users d = 1) := fun h => hr (hone.mpr ⟨h.2,fun h' => absurd h' h.1⟩)
          simp only [if_true] at hux
          simp only [hr,and_false,if_false,List.not_mem_nil,or_false]
          constructor
          · rintro ⟨-,-,h0⟩
            omega
          · rintro ⟨-,hnl,h0⟩
            exact absurd ⟨hnl,by omega⟩ this
      · have hdx : x ∉ (if d ≠ b ∧ s.ref d = 1 then [d] else []) := by
          split_ifs <;> simp [Ne.symm he]
        simp only [if_neg he,add_zero] at hux
        simp only [hdx,or_false,hux]
  · rw [hg.freed]
    refine List.Nodup.append hh.freedNodup ?_ ?_
    · split_ifs <;> simp
    · split_ifs <;> simp [hdf]

end GivenUp

end Mem

end CSLiS.Buffer
