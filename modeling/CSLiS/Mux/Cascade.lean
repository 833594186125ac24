import CSLiS.Mux.Runs

/-!
# What a close takes along

When no wait fails, the last close of a control stream closes what is below it as far as nothing else keeps it: no file,
no persistent link of its own.
-/

namespace CSLiS.Mux

open Lib Lib.Exec Lib.Forest Muxes

variable {s t u : Muxes} {opens held extra opens' held' extra' : ℕ → ℕ} {owner owner' owner1 : ℕ → Option ℕ}
  {d : Driver} {h hd hp k x y n fuel : ℕ} {rest : List ℕ} {doclose : ℕ → Muxes → Option Muxes}

/- The streams below `hd` that are closed when all that is linked under it is unlinked. -/
inductive Falls (s : Muxes) (opens : ℕ → ℕ) (owner : ℕ → Option ℕ) (hd : ℕ) : ℕ → Prop
  | first {x : ℕ} (ho : owner x = some hd) (hopen : opens x = 0) (hpl : s.plinks x = 0) : Falls s opens owner hd x
  | next {k x : ℕ} (hk : Falls s opens owner hd k) (ho : owner x = some k) (hopen : opens x = 0)
      (hpl : s.plinks x = 0) : Falls s opens owner hd x

/- Those that are closed with `h`, and `h` itself, if it has no other use. -/
def Shuts (s : Muxes) (opens : ℕ → ℕ) (owner : ℕ → Option ℕ) (h x : ℕ) : Prop :=
  (opens h = 0 ∧ owner h = none ∧ s.plinks h = 0) ∧ (x = h ∨ Falls s opens owner h x)

theorem Falls.isBelow (hf : Falls s opens owner hd x) : Below owner x hd := by
  induction hf with
  | first ho _ _ => exact Below.owned ho
  | next _ ho _ _ ih => exact (Below.owned ho).trans ih

theorem Falls.idle (hf : Falls s opens owner hd x) : opens x = 0 ∧ s.plinks x = 0 := by
  cases hf with
  | first _ h1 h2 => exact ⟨h1,h2⟩
  | next _ _ h1 h2 => exact ⟨h1,h2⟩

/- Of one lower stream. -/
theorem shuts_cut (hg : Graded owner) (ho : owner hp = some hd) (hpl : ∀ k, k ≠ hd → u.plinks k = s.plinks k) :
    Shuts u opens (Function.update owner hp none) hp x ↔ Falls s opens owner hd x ∧ Below owner x hp := by
  have hne : hp ≠ hd := hg.ne ho
  have hnd (y) (hb : Below owner y hp) : y ≠ hd := fun he => hg.not_below ho (he ▸ hb)
  constructor
  · rintro ⟨⟨h1,-,h3⟩,hx⟩
    have hfp : Falls s opens owner hd hp := .first ho h1 (hpl hp hne ▸ h3)
    rcases hx with rfl | hf
    · exact ⟨hfp,Below.refl ..⟩
    · induction hf with
      | first ho' h1' h2' =>
        have hb := Below.owned (Cut.owner_le ho')
        exact ⟨.next hfp (Cut.owner_le ho') h1' (hpl _ (hnd _ hb) ▸ h2'),hb⟩
      | next _ ho' h1' h2' ih =>
        have hb := (Below.owned (Cut.owner_le ho')).trans ih.2
        exact ⟨.next ih.1 (Cut.owner_le ho') h1' (hpl _ (hnd _ hb) ▸ h2'),hb⟩
  · rintro ⟨hf,hb⟩
    have hkeep (y k) (hy : owner y = some k) (hyp : y ≠ hp) : Function.update owner hp none y = some k := by
      rw [Function.update_of_ne hyp,hy]
    induction hf with
    | @first x ho' h1 h2 =>
      obtain rfl : x = hp := by
        by_contra hc
        exact hg.siblings ho' ho hc hb
      exact ⟨⟨h1,Function.update_self ..,(hpl _ hne).trans h2⟩,Or.inl rfl⟩
    | @next k x hk ho' h1 h2 ih =>
      by_cases hx : x = hp
      · subst hx
        exact ⟨⟨h1,Function.update_self ..,(hpl _ hne).trans h2⟩,Or.inl rfl⟩
      · rcases hb.cases with he | ⟨k',hk',hb'⟩
        · exact absurd he hx
        · obtain rfl := Option.some.inj (ho'.symm.trans hk')
          obtain ⟨htop,hk2⟩ := ih hb'
          refine ⟨htop,Or.inr ?_⟩
          have h2' : u.plinks x = 0 := (hpl x (hnd x hb)).trans h2
          rcases hk2 with rfl | hk2
          · exact .first (hkeep x _ ho' hx) h1 h2'
          · exact .next hk2 (hkeep x _ ho' hx) h1 h2'

theorem Falls.ne (hg : Graded owner) (hf : Falls s opens owner hd x) : x ≠ hd := by
  rintro rfl
  cases hf with
  | first ho _ _ => exact hg.not_below ho (Below.refl ..)
  | next hk ho _ _ => exact hg.not_below ho hk.isBelow

theorem Falls.congr (hpl : ∀ x, t.plinks x = s.plinks x) (hf : Falls s opens owner hd x) : Falls t opens owner hd x := by
  induction hf with
  | first ho h1 h2 => exact .first ho h1 ((hpl _).trans h2)
  | next _ ho h1 h2 ih => exact .next ih ho h1 ((hpl _).trans h2)

/- Of the lower streams behind the first one. -/
theorem falls_rest (hi : Inv s opens held extra owner) (hu : Inv u opens' held' extra' owner1)
    (hs : Shrunk s u owner hd) (hl : s.lowers hd = hp :: rest) (hlu : u.lowers hd = rest)
    (hsame : ∀ k, k ≠ hd → ¬(Falls s opens owner hd k ∧ Below owner k hp) → u.lowers k = s.lowers k) :
    Falls u opens owner1 hd x ↔ Falls s opens owner hd x ∧ ¬Below owner x hp := by
  have hop : owner hp = some hd := (hi.owned hp hd).mp (hl ▸ List.mem_cons_self ..)
  have hnd : (hp :: rest).Nodup := hl ▸ (hi.lists hd).nodup
  have hpl (y) (hy : y ≠ hd) (hn : ¬Below owner y hp) : u.plinks y = s.plinks y :=
    plinks_congr (hsame y hy fun hc => hn hc.2) fun z _ => hs.mxCmd z
  constructor
  · intro hf
    induction hf with
    | @first x ho h1 h2 =>
      have hx : x ∈ rest := hlu ▸ (hu.owned x hd).mpr ho
      have hne : x ≠ hp := fun he => (List.nodup_cons.mp hnd).1 (he ▸ hx)
      have hox : owner x = some hd := hs.owner_le hi hu ho
      have hnb : ¬Below owner x hp := hi.forest.siblings hox hop hne
      exact ⟨.first hox h1 ((hpl x (hi.forest.ne hox) hnb).symm.trans h2),hnb⟩
    | @next k x _ ho h1 h2 ih =>
      obtain ⟨hfk,hnk⟩ := ih
      have hox : owner x = some k := hs.owner_le hi hu ho
      have hnb : ¬Below owner x hp := by
        intro hb
        rcases hb.cases with rfl | ⟨k',hk',hb'⟩
        · exact hfk.ne hi.forest (Option.some.inj (hox.symm.trans hop))
        · obtain rfl := Option.some.inj (hox.symm.trans hk')
          exact hnk hb'
      have hne : x ≠ hd := by
        rintro rfl
        exact hi.forest.not_below hox hfk.isBelow
      exact ⟨.next hfk hox h1 ((hpl x hne hnb).symm.trans h2),hnb⟩
  · rintro ⟨hf,hnb⟩
    induction hf with
    | @first x ho h1 h2 =>
      have hx : x ∈ hp :: rest := hl ▸ (hi.owned x hd).mpr ho
      have hx' : x ∈ rest := by
        rcases List.mem_cons.mp hx with rfl | hx
        · exact absurd (Below.refl ..) hnb
        · exact hx
      exact .first ((hu.owned x hd).mp (hlu ▸ hx')) h1 ((hpl x (hi.forest.ne ho) hnb).trans h2)
    | @next k x hk ho h1 h2 ih =>
      have hnk : ¬Below owner k hp := fun hb => hnb ((Below.owned ho).trans hb)
      have hkl : u.lowers k = s.lowers k := hsame k (hk.ne hi.forest) fun hc => hnk hc.2
      have hne : x ≠ hd := by
        rintro rfl
        exact hi.forest.not_below ho hk.isBelow
      exact .next (ih hnk) ((hu.owned x k).mp (hkl ▸ (hi.owned x k).mpr ho)) h1 ((hpl x hne hnb).trans h2)

/- `doclose` empties the lists of the streams that are closed, and no others. -/
def Empties (doclose : ℕ → Muxes → Option Muxes) (n : ℕ) (extra : ℕ → ℕ) : Prop :=
  ∀ s opens held owner h t, Inv s (bump opens h) held extra owner → links s owner < n → doclose h s = some t →
    (∀ k, Shuts s opens owner h k → t.lowers k = []) ∧ ∀ k, ¬Shuts s opens owner h k → t.lowers k = s.lowers k

theorem Inv.emptied_lower {r : ℤ × Muxes} {rtn : ℤ} (hi : Inv s opens held extra owner)
    (hl : s.lowers hd = hp :: rest) (hh : 0 < opens hd + held hd) (hde : Empties doclose (links s owner) extra)
    (hr : s.unlinkLower doclose hd hp none rtn = some r) (hk : k ≠ hd) :
    (Falls s opens owner hd k ∧ Below owner k hp → r.2.lowers k = []) ∧
      (¬(Falls s opens owner hd k ∧ Below owner k hp) → r.2.lowers k = s.lowers k) := by
  have ho : owner hp = some hd := (hi.owned hp hd).mp (hl ▸ List.mem_cons_self ..)
  have hl' : s.lowers hd = [] ++ hp :: rest := hl
  obtain ⟨u,hc,heq⟩ := hi.unlinkLower_eq doclose rtn hl' hh
  have hiu : Inv u (bump opens hp) (bump held hd) extra (Function.update owner hp none) := hc.inv hi hl' hh
  have hpl (y) (hy : y ≠ hd) : u.plinks y = s.plinks y := by
    have := hc.plinks hl' y
    rwa [if_neg fun hc => hy hc.1] at this
  have hcut : Shuts u opens (Function.update owner hp none) hp k ↔ Falls s opens owner hd k ∧ Below owner k hp :=
    shuts_cut hi.forest ho hpl
  rw [List.getLast?_nil] at heq
  rw [heq] at hr
  by_cases h1 : (u.head hp).sdOpencnt = 1
  · rw [if_pos h1] at hr
    obtain ⟨t,ht,rfl⟩ := Option.map_eq_some_iff.mp hr
    obtain ⟨hgone,hsame⟩ := hde u opens (bump held hd) _ hp t hiu (hc.links_lt hi ho) ht
    simp only [(like_headPut t hd).lowers]
    exact ⟨fun hf => hgone k (hcut.mpr hf),fun hf => (hsame k fun hs => hf (hcut.mp hs)).trans (hc.lowers_ne hk)⟩
  · rw [if_neg h1] at hr
    obtain ⟨t,ht,rfl⟩ := Option.map_eq_some_iff.mp hr
    obtain rfl := Option.some.inj ht
    have hlow : ((u.decOpencnt hp).headPut hp).lowers = u.lowers :=
      (like_headPut _ hp).lowers.trans (like_decOpencnt u hp).lowers
    simp only [(like_headPut _ hd).lowers,hlow]
    refine ⟨fun hf => ?_,fun _ => hc.lowers_ne hk⟩
    -- the stream has another use
    obtain ⟨⟨h2,-,h3⟩,-⟩ := hcut.mpr hf
    have hopen := hiu.opencnt hp
    rw [bump_self,h2,h3,up_none (Function.update_self ..)] at hopen
    exact absurd hopen h1

theorem Inv.emptied_loop {r : ℤ × Muxes} {rtn : ℤ} (hd' : ∀ h x, 0 ≤ d.await h x) (hi : Inv s opens held extra owner)
    (hl : s.lowers hd = rest) (hh : 0 < opens hd + held hd) (hdc : Closes doclose (links s owner) extra)
    (hde : Empties doclose (links s owner) extra) (hf : rest.length < fuel)
    (hr : Mux.iUnlinkLoop doclose d hd (-1) .punlink fuel rest.head? none rtn s = some r) (hk : k ≠ hd) :
    (Falls s opens owner hd k → r.2.lowers k = []) ∧ (¬Falls s opens owner hd k → r.2.lowers k = s.lowers k) := by
  induction rest generalizing rtn fuel s owner with
  | nil =>
    obtain ⟨fuel,rfl⟩ := Nat.exists_eq_add_one_of_ne_zero (Nat.ne_of_gt hf)
    obtain rfl := Option.some.inj hr
    refine ⟨fun hfk => ?_,fun _ => rfl⟩
    -- nothing falls from an empty list
    exfalso
    induction hfk with
    | first ho _ _ =>
      have hx := (hi.owned _ hd).mpr ho
      rw [hl] at hx
      exact List.not_mem_nil hx
    | next hk' _ _ _ ih => exact ih (hk'.ne hi.forest)
  | cons hp rest ih =>
    obtain ⟨fuel,rfl⟩ := Nat.exists_eq_add_one_of_ne_zero (Nat.ne_of_gt (Nat.zero_lt_of_lt hf))
    rw [List.length_cons,Nat.add_lt_add_iff_right] at hf
    have hl' : s.lowers hd = [] ++ hp :: rest := hl
    have hnext : s.next hp = rest.head? := by
      have hth := hi.lists hd
      rw [hl] at hth
      exact hth.2.head
    obtain ⟨u,owner1,hu,hiu,hsu,hlu⟩ := hi.unlinkLower rtn hl' hh hdc
    rw [List.getLast?_nil] at hu
    rw [List.head?_cons,Mux.iUnlinkLoop,hnext] at hr
    simp only [if_neg (not_skipped_all s hp),refuses_punlink,if_neg (not_lt.mpr (hd' hd hp)),hu,Option.bind_some,
      if_pos (by decide : (-1 : ℤ) < 0)] at hr
    have hlower (k) (hk : k ≠ hd) := hi.emptied_lower hl hh hde hu hk
    have hrest : Falls u opens owner1 hd k ↔ Falls s opens owner hd k ∧ ¬Below owner k hp :=
      falls_rest hi hiu hsu hl hlu fun k hk => (hlower k hk).2
    have hle : links u owner1 ≤ links s owner := links_le hsu.stdatas fun x h ho => hsu.owner_le hi hiu ho
    have hdc' := hdc.mono hle
    have hde' : Empties doclose (links u owner1) extra :=
      fun v o e w h t hi hlt ht => hde v o e w h t hi (hlt.trans_le hle) ht
    obtain ⟨hgone,hsame⟩ := ih hiu hlu hdc' hde' hf hr
    refine ⟨fun hfk => ?_,fun hfk => ?_⟩
    · by_cases hb : Below owner k hp
      · have hlu' : u.lowers hd = [] ++ rest := hlu
        obtain ⟨v,_,hv,-,hsv,-⟩ := hiu.iUnlinkLoop d (-1) .punlink rtn hlu' hh hdc' hf
        rw [List.getLast?_nil] at hv
        obtain rfl := Option.some.inj (hr.symm.trans hv)
        have hsub := hsv.sub k
        rw [(hlower k hk).1 ⟨hfk,hb⟩] at hsub
        exact List.sublist_nil.mp hsub
      · exact hgone (hrest.mpr ⟨hfk,hb⟩)
    · rw [hsame fun hc => hfk (hrest.mp hc).1]
      exact (hlower k hk).2 fun hc => hfk hc.1

theorem empties_lisDoclose (hd' : ∀ h x, 0 ≤ d.await h x) (extra : ℕ → ℕ) (hf : n < fuel) :
    Empties (lisDoclose d fuel) n extra := by
  induction fuel generalizing n with
  | zero => exact absurd hf (Nat.not_lt_zero n)
  | succ fuel ih =>
    intro s opens held owner h t hi hlt ht
    have hi1 := hi.decOpencnt
    have hlike := like_decOpencnt s h
    have hopen := hi1.opencnt h
    have hpos : 0 < (s.head h).sdOpencnt := by
      have := hi.opencnt h
      rw [bump_self] at this
      omega
    have hpl : (s.decOpencnt h).plinks h = s.plinks h := hlike.plinks h
    rw [lisDoclose,if_pos hpos] at ht
    by_cases hz : ((s.decOpencnt h).head h).sdOpencnt = 0
    · rw [hz,hpl] at hopen
      have htop : opens h = 0 ∧ owner h = none ∧ s.plinks h = 0 := ⟨by omega,up_zero (by omega),by omega⟩
      have hlen := hi1.lowers_length_le h
      have hl1 : links (s.decOpencnt h) owner = links s owner := rfl
      have hlow : (s.decOpencnt h).lowers h = [] ++ (s.decOpencnt h).lowers h := rfl
      have hheld : 0 < opens h + bump held h h := by rw [bump_self]; omega
      have hlf : ((s.decOpencnt h).lowers h).length < fuel := by omega
      have hdc : Closes (lisDoclose d fuel) (links (s.decOpencnt h) owner) extra := closes_lisDoclose d extra (by omega)
      have hde : Empties (lisDoclose d fuel) (links (s.decOpencnt h) owner) extra := ih (by omega)
      obtain ⟨v,_,hv,-,-,hvl⟩ := hi1.iUnlinkLoop d (-1) .punlink 0 hlow hheld hdc hlf
      simp only [if_pos hz,(hi1.lists h).head] at ht
      rw [List.getLast?_nil] at hv
      rw [hv,Option.map_some,Option.map_some] at ht
      obtain rfl := Option.some.inj ht
      have hloop (k) (hk : k ≠ h) := hi1.emptied_loop hd' rfl hheld hdc hde hlf hv hk
      have hfall (k) : Falls (s.decOpencnt h) opens owner h k ↔ Falls s opens owner h k :=
        ⟨fun hf => hf.congr fun x => (hlike.plinks x).symm,fun hf => hf.congr hlike.plinks⟩
      simp only [(like_headPut v h).lowers]
      constructor
      · rintro k ⟨-,rfl | hk⟩
        · rw [hvl,(unrefused fun x _ => hd' _ x).1]
          rfl
        · exact (hloop k (hk.ne hi.forest)).1 ((hfall k).mpr hk)
      · intro k hk
        have hne : k ≠ h := fun he => hk ⟨htop,Or.inl he⟩
        exact (hloop k hne).2 fun hc => hk ⟨htop,Or.inr ((hfall k).mp hc)⟩
    · rw [if_neg hz,Option.map_some] at ht
      obtain rfl := Option.some.inj ht
      rw [(like_headPut _ h).lowers,hlike.lowers]
      refine ⟨fun k hk => ?_,fun _ _ => rfl⟩
      obtain ⟨⟨h1,h2,h3⟩,-⟩ := hk
      rw [h1,up_none h2,hpl,h3] at hopen
      exact absurd hopen hz

/-! ### The last close of a file -/

/- The streams that a close of a file of `h` closes: `h` if that was its last use, and then what was linked under a
stream that is closed and has neither a file nor a persistent link under it. -/
inductive Closed (s : Muxes) (h : ℕ) : ℕ → Prop
  | self (hf : s.files h = 1) (hl : ∀ k, h ∉ s.lowers k) (hp : s.plinks h = 0) : Closed s h h
  | lower {k x : ℕ} (hk : Closed s h k) (hx : x ∈ s.lowers k) (hf : s.files x = 0) (hp : s.plinks x = 0) : Closed s h x

theorem closed_iff (hi : Inv s s.files held extra owner) (hf : 0 < s.files h) :
    Closed s h x ↔ Shuts s (Function.update s.files h (s.files h - 1)) owner h x := by
  have hother (y) (hy : y ≠ h) : Function.update s.files h (s.files h - 1) y = s.files y := Function.update_of_ne hy ..
  constructor
  · intro hc
    induction hc with
    | self h1 h2 h3 =>
      refine ⟨⟨by rw [Function.update_self,h1],?_,h3⟩,Or.inl rfl⟩
      by_contra hn
      obtain ⟨k,hk⟩ := Option.ne_none_iff_exists'.mp hn
      exact h2 k ((hi.owned h k).mpr hk)
    | @lower k x _ hx h1 h2 ih =>
      obtain ⟨htop,hk⟩ := ih
      have hxh : x ≠ h := by
        rintro rfl
        omega
      have ho := (hi.owned x k).mp hx
      refine ⟨htop,Or.inr ?_⟩
      rcases hk with rfl | hk
      · exact .first ho ((hother x hxh).trans h1) h2
      · exact .next hk ho ((hother x hxh).trans h1) h2
  · rintro ⟨⟨h1,h2,h3⟩,hx⟩
    rw [Function.update_self] at h1
    have hself : Closed s h h := by
      refine .self (by omega) (fun k hk => ?_) h3
      rw [hi.owned,h2] at hk
      cases hk
    rcases hx with rfl | hx
    · exact hself
    · induction hx with
      | first ho ha hb =>
        have hne := hi.forest.ne ho
        exact .lower hself ((hi.owned _ h).mpr ho) (hother _ hne ▸ ha) hb
      | @next k x hk ho ha hb ih =>
        have hne : x ≠ h := by
          rintro rfl
          rw [h2] at ho
          cases ho
        exact .lower ih ((hi.owned _ _).mpr ho) (hother _ hne ▸ ha) hb

theorem plinks_le (s : Muxes) (x : ℕ) : s.plinks x ≤ (s.lowers x).length := List.countP_le_length

/- Nothing keeps a stream that is closed. -/
theorem gone_of_closed (hi : Inv s s.files held extra owner) (hf : 0 < s.files h)
    (ht : Inv t (Function.update s.files h (s.files h - 1)) (fun _ => 0) extra owner')
    (hle : ∀ x k, owner' x = some k → owner x = some k) (hgone : ∀ k, Closed s h k → t.lowers k = [])
    (hx : Closed s h x) : x ∉ t.str.stdatas := by
  intro hm
  refine ht.used x hm ?_
  have hlow := hgone x hx
  have hlen : (t.lowers x).length = 0 := by rw [hlow]; rfl
  have hpl := plinks_le t x
  have hopen : Function.update s.files h (s.files h - 1) x = 0 := by
    obtain ⟨⟨h1,-⟩,rfl | hx⟩ := (closed_iff hi hf).mp hx
    · exact h1
    · exact hx.idle.1
  have hup : up owner' x = 0 := by
    cases ho : owner' x with
    | none => exact up_none ho
    | some k =>
      have hk : Closed s h k := by
        cases hx with
        | self _ h2 _ => exact absurd ((hi.owned _ k).mpr (hle _ k ho)) (h2 k)
        | @lower k' _ hk hx' _ _ =>
          obtain rfl := Option.some.inj (((hi.owned x k').mp hx').symm.trans (hle x k ho))
          exact hk
      have hxk := (ht.owned x k).mpr ho
      rw [hgone k hk] at hxk
      exact absurd hxk List.not_mem_nil
  have hr := ht.refcnt x
  rw [hopen,hup] at hr
  omega

/- And every other one has what kept it, or it has a file. -/
theorem kept_of_not_closed (hi : Inv s s.files (fun _ => 0) extra owner) (hf : 0 < s.files h)
    (ht : Inv t (Function.update s.files h (s.files h - 1)) (fun _ => 0) extra owner')
    (hsame : ∀ k, ¬Closed s h k → t.lowers k = s.lowers k) (hm : x ∈ s.str.stdatas) (hx : ¬Closed s h x) :
    x ∈ t.str.stdatas := by
  refine ht.live x ?_
  have hlow := hsame x hx
  have hpl := plinks_le s x
  have hused := hi.used x hm
  have hr := hi.refcnt x
  have hroot (k) (hk : Closed s h k) : owner h = none := ((closed_iff hi hf).mp hk).1.2.1
  by_cases hopen : 0 < Function.update s.files h (s.files h - 1) x
  · omega
  rw [hlow]
  cases ho : owner x with
  | some k =>
    by_cases hk : Closed s h k
    · have hxh : x ≠ h := by
        rintro rfl
        rw [hroot k hk] at ho
        cases ho
      rw [Function.update_of_ne hxh] at hopen
      have hp : s.plinks x ≠ 0 := fun hp => hx (.lower hk ((hi.owned x k).mpr ho) (by omega) hp)
      omega
    · have ho' : owner' x = some k := by
        rw [← ht.owned,hsame k hk,hi.owned]
        exact ho
      rw [up_some ho']
      omega
  | none =>
    rw [up_none ho] at hr
    by_cases hxh : x = h
    · subst hxh
      rw [Function.update_self] at hopen
      have hp : s.plinks x ≠ 0 := fun hp => hx (.self (by omega) (hi.not_mem ho) hp)
      omega
    · rw [Function.update_of_ne hxh] at hopen
      omega

theorem Kept.strclose (hk : Kept s) (hf : 0 < s.files h) (hd' : ∀ k x, 0 ≤ d.await k x) :
    ∃ t, step old s (.strclose h d) = some t ∧ Booked t ∧ (∀ x, x ∈ t.str.stdatas ↔ x ∈ s.str.stdatas ∧ ¬Closed s h x) ∧
      (∀ k, Closed s h k → t.lowers k = []) ∧ ∀ k, ¬Closed s h k → t.lowers k = s.lowers k := by
  obtain ⟨hmux,owner,hi⟩ := hk
  let s1 : Muxes := { s with files := Function.update s.files h (s.files h - 1) }
  have hi1 : Inv s1 (bump s1.files h) (fun _ => 0) (fun _ => 0) owner := by
    have hb : bump s1.files h = s.files := bump_pred s.files hf
    rw [hb]
    exact hi.relabel rfl rfl
  have hlinks : links s1 owner + 1 < s.enough := links_lt_enough s owner
  obtain ⟨t,owner',ht,hit,hst⟩ := closes_lisDoclose d _ hlinks s1 _ _ owner h hi1 (Nat.lt_succ_self _)
  obtain ⟨hgone,hsame⟩ := empties_lisDoclose hd' _ hlinks s1 _ _ owner h t hi1 (Nat.lt_succ_self _) ht
  have hshut (k) : Shuts s1 s1.files owner h k ↔ Closed s h k := by
    rw [closed_iff hi hf]
    exact and_congr_right fun _ => or_congr_right
      ⟨fun hc => Falls.congr (s := s1) (t := s) (fun _ => rfl) hc,
        fun hc => Falls.congr (s := s) (t := s1) (fun _ => rfl) hc⟩
  have hgone' (k) (hk : Closed s h k) : t.lowers k = [] := hgone k ((hshut k).mpr hk)
  have hsame' (k) (hk : ¬Closed s h k) : t.lowers k = s.lowers k := hsame k fun hs => hk ((hshut k).mp hs)
  have hit' : Inv t t.files (fun _ => 0) (fun _ => 0) owner' := hst.files ▸ hit
  refine ⟨{ t with ret := 0 },by rw [step,if_pos hf,ht,Option.map_some],?_,fun x => ?_,hgone',hsame'⟩
  · exact Inv.booked (hit'.relabel rfl rfl)
  · have hback (hx : x ∈ s.str.stdatas) (hc : ¬Closed s h x) : x ∈ t.str.stdatas :=
      kept_of_not_closed hi hf hit hsame' hx hc
    refine ⟨fun hx => ⟨hst.stdatas.subset hx,fun hc => ?_⟩,fun hx => hback hx.1 hx.2⟩
    exact gone_of_closed hi hf hit (fun x k ho => hst.owner_le hi1 hit ho) hgone' hc hx

section Runs

variable {ops : List Op}

end Runs

end CSLiS.Mux
