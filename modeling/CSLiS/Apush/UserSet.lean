import CSLiS.Apush.UserRight

/-!
# Set, and runs of set and get (head/mod.c:1294-1385)

The ids that `lis_loadmod` answers with are those of slots that have the names, and the names stay there until the
module is unregistered. So what `lis_apush_set` was called with is what `lis_apush_get` finds.
-/

namespace CSLiS.Apush.User
open Queue Lib.Exec CSLiS.Mod

variable {s t : Sys} {u : Strapush} {list : ℕ → Uchar} {loads : ℕ → Load} {l : Load} {r : Registry} {n : Name}
  {i m major : ℕ} {a e : Autopush} {c : Chain} {st : State} {ids : List ModID}

/-! ## Loading -/

variable {K : List (ModID × Name)} {intr : Bool}

theorem kind_spec {x : Mod.Act} (hK : ∀ p ∈ K, p.1 ∈ ids) (h : kind ids r x = true) : Registry.Kind K r x := by
  cases x with
  | loadDone k ok =>
    intro id hid
    rw [kind,Option.mem_def.mp hid] at h
    simp only [Bool.or_eq_true,Bool.and_eq_true,Bool.not_eq_eq_eq_not,Bool.not_true] at h
    rcases h with ⟨h1,h2⟩ | h3
    · exact .inl ⟨h1,Option.isSome_iff_ne_none.mp h2⟩
    · refine .inr ?_
      rintro p hp rfl
      have := List.contains_iff_mem.mpr (hK p hp)
      rw [h3] at this
      cases this
  | _ => trivial

theorem registryCall_holds {x : Mod.Act} {q : Registry} (h : r.view.Holds K) (hK : Short K) (hx : Registry.Kind K r x)
    (ht : registryCall r x = some q) : q.view.Holds K := by
  cases x with
  | unregister strtab intr intrSem => cases ht
  | _ => exact Registry.holds_step h hK hx (by simp) ht

/- The calls made while a module is being loaded. -/
theorem during_holds {xs : List Mod.Act} {q : Registry} (h : r.view.Holds K) (hK : Short K) (hin : ∀ p ∈ K, p.1 ∈ ids)
    (hm : Meets registryCall (fun t x => kind ids t x = true) r xs) (hq : exec registryCall r xs = some q) :
    q.view.Holds K := by
  apply exec_preserves (I := fun t : Registry => t.view.Holds K) ?_ h hm hq
  intro t x w ht hx hw
  exact registryCall_holds ht hK (kind_spec hin hx) hw

/- The end of a load that does not take a name of `K`. -/
theorem loadDone_holds {id k : ℕ} {ok : Bool} {q : ℤ × Registry} (h : r.view.Holds K) (hk : r.loads[k]? = some id)
    (hsp : (ok && (r.sw id).fStr.isSome) = true ∨ id ∉ K.map Prod.fst) (hq : r.loadDone k ok = some q) :
    q.2.view.Holds K := by
  apply Registry.holds_loadDone h ?_ hq
  intro j hj
  obtain rfl := Option.some.inj (hk.symm.trans hj)
  rcases hsp with hsp | hsp
  · obtain ⟨h1,h2⟩ := Bool.and_eq_true_iff.mp hsp
    exact .inl ⟨h1,Option.isSome_iff_ne_none.mp h2⟩
  · refine .inr ?_
    rintro p hp rfl
    exact hsp (List.mem_map_of_mem hp)

/- A load answers with a slot that has the name, or with nothing, and no name of `K` is lost. -/
structure LoadRight (K : List (ModID × Name)) (n : Name) (q : ℤ × Registry × Bool) : Prop where
  ok : q.2.2 = true
  holds : q.2.1.view.Holds K
  short : 0 < q.1 → n.length ≤ FMNAMESZ
  slot : 0 < q.1 → n ≠ [] → ∃ id : ℕ, q.1 = id ∧ id < MAX_STRMOD ∧ q.2.1.view.Holds [(id,n)]

theorem all_within {v : Names} (h : v.Within) : (v.used.all fun j => decide (j < MAX_STRMOD)) = true := by
  simpa [Names.Within] using h

/- The module is being loaded, into slot `id`. -/
theorem waited_right {id : ℕ} {q w : ℤ × Registry} {ok : Bool} (hK : Short K) (hin : ∀ p ∈ K, p.1 ∈ ids)
    (hh : q.2.view.Holds K) (hu : q.2.view.Within) (hslot : Registry.Slot q.2 id n) (hlen : n.length ≤ LIS_NAMESZ)
    {xs : List Mod.Act} {old : List ℕ}
    (hm : Meets registryCall (fun t x => kind (id :: ids) t x = true) { q.2 with loads := old } xs)
    {t : Registry} (ht : exec registryCall { q.2 with loads := old } xs = some t)
    (hend : ((ok && (t.sw id).fStr.isSome) || !ids.contains id) = true)
    (hw : ({ t with loads := t.loads ++ [id], used := q.2.used } : Registry).loadDone t.loads.length ok = some w) :
    w.2.view.Within ∧ w.2.view.Holds K ∧ (0 < w.1 → n ≠ [] → w.1 = id ∧ id < MAX_STRMOD ∧ w.2.view.Holds [(id,n)]) := by
  have hid : id < MAX_STRMOD := hslot.lt.trans_le hh.le
  have hk : (t.loads ++ [id])[t.loads.length]? = some id := List.getElem?_concat_length
  obtain ⟨hwin,hans⟩ := Registry.loadDone_answer (s := { t with loads := t.loads ++ [id], used := q.2.used }) hu hid hk hw
  have hdur : ∀ L : List (ModID × Name), Short L → (∀ p ∈ L, p.1 ∈ id :: ids) → q.2.view.Holds L → t.view.Holds L := by
    intro L hL hLin hLh
    exact during_holds (r := { q.2 with loads := old }) ⟨hLh.pos,hLh.le,hLh.high,hLh.held⟩ hL hLin hm ht
  have htK := hdur K hK (fun p hp => List.mem_cons_of_mem _ (hin p hp)) hh
  have hwK : w.2.view.Holds K := by
    apply loadDone_holds (r := { t with loads := t.loads ++ [id], used := q.2.used }) ⟨htK.pos,htK.le,htK.high,htK.held⟩ hk
      ?_ hw
    rcases Bool.or_eq_true_iff.mp hend with hend | hend
    · exact .inl hend
    · refine .inr fun hc => ?_
      obtain ⟨p,hp,rfl⟩ := List.mem_map.mp hc
      have hmem := List.contains_iff_mem.mpr (hin p hp)
      rw [hmem] at hend
      cases hend
  refine ⟨hwin,hwK,?_⟩
  intro hpos hn
  rcases hans with h1 | ⟨h1,hname,hcnt⟩
  · omega
  · have hti := hdur [(id,n)] (fun p hp => by rw [List.mem_singleton.mp hp]; exact ⟨hn,hlen⟩)
      (fun p hp => by rw [List.mem_singleton.mp hp]; exact List.mem_cons_self ..) (hh.single hslot.pos hslot.lt hslot.name)
    obtain ⟨-,hlt,htn⟩ := hti.held (id,n) (List.mem_singleton_self _)
    exact ⟨h1,hid,hwK.single hslot.pos (hlt.trans_eq hcnt.symm) (hname.trans htn)⟩

theorem loadName_right {q : ℤ × Registry × Bool} (h : r.view.Holds K) (hK : Short K) (hin : ∀ p ∈ K, p.1 ∈ ids)
    (hc : loadCareful ids r list i l = true) (hq : loadName r list i l = some q) : LoadRight K (cName list i) q := by
  rw [loadCareful,Bool.and_eq_true,Bool.and_eq_true,Bool.or_eq_true,List.isEmpty_iff,decide_eq_true_iff] at hc
  obtain ⟨⟨hw,hfull⟩,hc⟩ := hc
  obtain ⟨w,hrest,rfl⟩ := Option.map_eq_some_iff.mp hq
  obtain ⟨a,ha,hrest⟩ := Option.bind_eq_some_iff.mp hrest
  have h0 : ({ r with used := [] } : Registry).view.Holds K := ⟨h.pos,h.le,h.high,h.held⟩
  have hu0 : ({ r with used := [] } : Registry).view.Within := by simp [Names.Within,Registry.view]
  have hsame : a.2.loads = r.loads → a = w := by
    intro hl
    rw [hl,List.getElem?_eq_none_iff.mpr le_rfl] at hrest
    exact Option.some.inj hrest
  cases hrow : (row list i).contains 0 with
  | false =>
    -- the wait for `lis_mod_reg` is interrupted
    have hintr : l.intr = true := by
      rw [within,hrow,Bool.false_or,Bool.and_eq_true] at hw
      exact hw.1
    rw [hintr,Registry.loadmod_interrupted] at ha
    obtain rfl := Option.some.inj ha
    obtain ⟨k,hk,hl,-⟩ := Registry.findmod_find h0 (cName list i)
    have hloads : (Registry.lisFindmod { r with used := [] } (some (cName list i))).2.loads = r.loads := by rw [hk]
    obtain rfl := hsame hloads
    have hwin : (Registry.lisFindmod { r with used := [] } (some (cName list i))).2.view.Within := by
      rw [hk]
      intro j hj
      exact hl hfull j (by simpa [Registry.view] using hj)
    refine ⟨?_,Registry.holds_lisFindmod h0 _,fun hpos => absurd hpos (lt_irrefl 0),fun hpos => absurd hpos (lt_irrefl 0)⟩
    simp only [hw,Bool.true_and]
    exact all_within hwin
  | true =>
    have hlen : (cName list i).length ≤ LIS_NAMESZ := (row_ends hrow).2.trans (by decide)
    have hasked := Registry.loadmod_asked h0 hK hu0 hlen hfull ha
    have hah := Registry.holds_loadmod h0 hK ha
    rcases hasked.answer with ⟨hl,hans⟩ | ⟨id,hl,hslot⟩
    · obtain rfl := hsame hl
      refine ⟨?_,hah,fun _ => (row_ends hrow).2,?_⟩
      · simp only [hw,Bool.true_and]
        exact all_within hasked.within
      · intro hpos _
        rcases hans with h1 | ⟨id,h1,hslot⟩
        · exact absurd h1 hpos.ne'
        · exact ⟨id,h1,hslot.lt.trans_le hah.le,hah.single hslot.pos hslot.lt hslot.name⟩
    · have hget : a.2.loads[r.loads.length]? = some id := by
        rw [hl]
        exact List.getElem?_concat_length
      rw [ha] at hc
      simp only [hget,Bool.and_eq_true,decide_eq_true_iff] at hc hrest
      obtain ⟨t,ht,hrest⟩ := Option.bind_eq_some_iff.mp hrest
      rw [ht,Option.all_some] at hc
      obtain ⟨hwin,hwK,hans⟩ := waited_right hK hin hah hasked.within hslot hlen hc.1 ht hc.2 hrest
      refine ⟨?_,hwK,fun _ => (row_ends hrow).2,fun hpos hn => ⟨id,hans hpos hn⟩⟩
      simp only [hw,Bool.true_and]
      exact all_within hwin

/- The ids that a call gets for its names. -/
structure Answered (names : List Name) (q : Registry) (mods : List ModID) : Prop where
  length : mods.length = names.length
  ids : ∀ id ∈ mods, 0 < id ∧ id < MAX_STRMOD
  proper : ∀ n ∈ names, n ≠ [] ∧ n.length ≤ FMNAMESZ
  holds : q.view.Holds (mods.zip names)

theorem loadNames_right {k : ℕ} {q : Option (List ModID) × Registry × Bool} (h : r.view.Holds K) (hK : Short K)
    (hin : ∀ p ∈ K, p.1 ∈ ids) (hc : loadsCareful list loads k i ids r = true)
    (hq : loadNames list loads k i r = some q) : q.2.2 = true ∧ q.2.1.view.Holds K ∧
      ∀ mods, q.1 = some mods → Answered ((List.range' i k).map (cName list)) q.2.1 mods := by
  induction k generalizing i r K ids q with
  | zero =>
    obtain rfl := Option.some.inj hq
    refine ⟨rfl,h,?_⟩
    intro mods hm
    obtain rfl := Option.some.inj hm
    exact ⟨rfl,by simp,by simp,⟨h.pos,h.le,h.high,by simp⟩⟩
  | succ k ih =>
    obtain ⟨w,hw,hq⟩ := Option.bind_eq_some_iff.mp hq
    rw [loadsCareful,hw,Option.all_some,Bool.and_eq_true] at hc
    have hl := loadName_right h hK hin hc.1 hw
    by_cases hpos : w.1 ≤ 0
    · rw [if_pos hpos] at hq
      obtain rfl := Option.some.inj hq
      refine ⟨hl.ok,hl.holds,?_⟩
      intro mods hm
      cases hm
    · rw [if_neg hpos] at hq
      obtain ⟨v,hv,rfl⟩ := Option.map_eq_some_iff.mp hq
      have hpos : 0 < w.1 := not_le.mp hpos
      have hc := hc.2
      rw [decide_eq_false (not_le.mpr hpos),Bool.false_or,Bool.and_eq_true] at hc
      have hn : cName list i ≠ [] := by simpa using hc.1
      obtain ⟨id,hid,hmax,hone⟩ := hl.slot hpos hn
      have hlen := hl.short hpos
      have hnat : w.1.toNat = id := by omega
      rw [hnat] at hc ⊢
      -- the slot is one more whose name must stay
      have hK1 : Short (K ++ [(id,cName list i)]) := by
        intro p hp
        rcases List.mem_append.mp hp with hp | hp
        · exact hK p hp
        · rw [List.mem_singleton.mp hp]
          exact ⟨hn,hlen.trans (by decide)⟩
      have hin1 : ∀ p ∈ K ++ [(id,cName list i)], p.1 ∈ id :: ids := by
        intro p hp
        rcases List.mem_append.mp hp with hp | hp
        · exact List.mem_cons_of_mem _ (hin p hp)
        · rw [List.mem_singleton.mp hp]
          exact List.mem_cons_self ..
      obtain ⟨hok,hh,hmods⟩ := ih (hl.holds.append hone) hK1 hin1 hc.2 hv
      refine ⟨?_,hh.mono fun p hp => List.mem_append_left _ hp,?_⟩
      · simp only [hl.ok,hok,Bool.true_and]
      · intro mods hm
        obtain ⟨ms,hms,rfl⟩ := Option.map_eq_some_iff.mp hm
        have ha := hmods ms hms
        have hfirst : v.2.1.view.Holds [(id,cName list i)] := hh.mono fun p hp => List.mem_append_right _ hp
        have h0 := (hone.held (id,cName list i) (List.mem_singleton_self _)).1
        rw [List.range'_succ,List.map_cons]
        refine ⟨?_,?_,?_,?_⟩
        · rw [List.length_cons,List.length_cons,ha.length]
        · exact List.forall_mem_cons.mpr ⟨⟨h0,hmax⟩,ha.ids⟩
        · exact List.forall_mem_cons.mpr ⟨⟨hn,hlen⟩,ha.proper⟩
        · exact hfirst.append ha.holds

/-! ## Set -/

theorem clearEntry_minor {p : Autopush × Chain} (h : clearEntry m c = some p) : p.1.minor = m := by
  induction c generalizing p with
  | nil => cases h
  | cons x c ih =>
    unfold clearEntry at h
    split_ifs at h with h1 h2
    · rw [← Option.some.inj h]
      exact h2
    · obtain ⟨q,hq,rfl⟩ := Option.map_eq_some_iff.mp h
      have hmin := ih hq
      exact hmin

/- What `apush_conf` does: nothing, the entry is new in the chain of a driver that is there, or one is taken out. -/
inductive Confed (env : Env) (major : ℕ) (a : Autopush) (st : State) : ℤ × State → Prop
  | failed {err : ℤ} (h : err ≠ 0) : Confed env major a st (err,st)
  | entered {t : State} (hm : major < maxStrdev) (hp : (env.fstrSw major || env.drvObjname major) = true)
      (ha : a.cmd ≠ sapClear) (d : Chain) (hd : d.Perm (a :: st.apush major))
      (ht : t.apush = Function.update st.apush major d) : Confed env major a st (0,t)
  | cleared {t : State} (hm : major < maxStrdev) (ha : a.cmd = sapClear) (e : Autopush) (d : Chain)
      (hd : (st.apush major).Perm (e :: d)) (he : e.minor = a.minor ∨ (a.minor = 0 ∧ e.cmd = sapAll))
      (ht : t.apush = Function.update st.apush major d) : Confed env major a st (0,t)

theorem apushConf_confed (env : Env) (major : ℕ) (a : Autopush) (st : State) :
    Confed env major a st (apushConf env major a st) := by
  have hinsert : ∀ o : Option Chain, ¬ major ≥ maxStrdev →
      ¬ (!env.fstrSw major && !env.drvObjname major) = true → a.cmd ≠ sapClear →
      (∀ d, o = some d → d.Perm (a :: st.apush major)) → Confed env major a st (insertEntry st major a o) := by
    intro o hm hp ha ho
    rw [← Bool.not_or,Bool.not_eq_true',Bool.not_eq_false] at hp
    cases o with
    | none => exact .failed (by decide)
    | some d => exact .entered (Nat.not_le.mp hm) hp ha d (ho d rfl) rfl
  unfold apushConf
  split_ifs with h1 h2 h3 h4 h5 h6 h7 h8 h9 h10
  · exact .failed (by decide)
  · exact .failed (by decide)
  · have hm : major < maxStrdev := Nat.not_le.mp h1
    cases hc : st.apush major with
    | nil => exact .failed (by decide)
    | cons ar rest =>
      by_cases hall : a.minor = 0 ∧ ar.cmd = sapAll
      · simp only [if_pos hall]
        exact .cleared hm h3 ar rest (by rw [hc]) (.inr hall) rfl
      · simp only [if_neg hall]
        cases hp : clearEntry a.minor (ar :: rest) with
        | none => exact .failed (by decide)
        | some p =>
          exact .cleared hm h3 p.1 p.2 (by rw [hc]; exact clearEntry_perm hp) (.inl (clearEntry_minor hp)) rfl
  · exact .failed (by decide)
  · apply hinsert _ h1 h2 h3
    intro d hd
    exact insertOne_perm hd
  · exact .failed (by decide)
  · exact .failed (by decide)
  · apply hinsert _ h1 h2 h3
    intro d hd
    exact insertRange_perm hd
  · apply hinsert _ h1 h2 h3
    intro d hd
    rw [← Option.some.inj hd,List.isEmpty_iff.mp h10]
  · exact .failed (by decide)
  · exact .failed (by decide)

theorem conf_holds {env : Env} (hst : StateOk st) (hc : Counted st)
    (hids : ∀ e ∈ st.apush major, e.push.length ≤ maxApush ∧ ∀ id ∈ e.push, 0 < id ∧ id < MAX_STRMOD)
    (hlen : a.push.length ≤ maxApush) (hv : apushValidate env a.push = true) : confHolds env major a st = true := by
  have hok := hst major
  unfold confHolds
  rw [hv,decide_eq_true hlen]
  split_ifs with h1 h2 h3 h4 h5 h6
  · rfl
  · rfl
  · have hm : major < maxStrdev := Nat.not_le.mp h1
    have hfree : ∀ e ∈ st.apush major, freeHolds e st.apushNref = true := fun e he =>
      free_holds hc hm he (hids e he).1 (hids e he).2
    cases hch : st.apush major with
    | nil => rfl
    | cons ar rest =>
      rw [hch] at hfree hok
      by_cases hall : a.minor = 0 ∧ ar.cmd = sapAll
      · have halone := hok.all_alone (List.mem_cons_self ..) hall.2
        rw [List.cons.injEq] at halone
        simp only [if_pos hall,halone.2,hfree ar (List.mem_cons_self ..),List.isEmpty_nil,Bool.and_self]
      · simp only [if_neg hall]
        cases hp : clearEntry a.minor (ar :: rest) with
        | none => rfl
        | some p => exact hfree p.1 ((clearEntry_perm hp).mem_iff.mpr (List.mem_cons_self ..))
  · cases hh : headIsAll (st.apush major) with
    | true => rfl
    | false => simp [one_holds hok (not_headIsAll hok hh)]
  · cases hh : headIsAll (st.apush major) with
    | true => simp
    | false =>
      by_cases hlt : a.minor < a.lastminor
      · simp [range_holds hok (not_headIsAll hok hh) hlt]
      · simp [Nat.not_lt.mp hlt]
  · rfl
  · rfl

variable {pr : ℕ → Bool} {env : Env}

/- The entries of a major after `apush_conf`. -/
theorem Confed.mem {q : ℤ × State} (h : Confed env major a st q) {j : ℕ} (he : e ∈ q.2.apush j) :
    e ∈ st.apush j ∨ (e = a ∧ j = major ∧ (env.fstrSw major || env.drvObjname major) = true) := by
  cases h with
  | failed _ => exact .inl he
  | entered hm hp ha d hd ht =>
    rw [ht] at he
    by_cases hj : j = major
    · subst hj
      rw [Function.update_self] at he
      rcases List.mem_cons.mp (hd.mem_iff.mp he) with rfl | he
      · exact .inr ⟨rfl,rfl,hp⟩
      · exact .inl he
    · rw [Function.update_of_ne hj] at he
      exact .inl he
  | cleared hm ha x d hd _ ht =>
    rw [ht] at he
    by_cases hj : j = major
    · subst hj
      rw [Function.update_self] at he
      exact .inl (hd.mem_iff.mpr (List.mem_cons_of_mem _ he))
    · rw [Function.update_of_ne hj] at he
      exact .inl he

theorem Confed.keeps {q : ℤ × State} (h : Confed env major a st q) (ha : a.cmd ≠ sapClear) {j : ℕ} (he : e ∈ st.apush j) :
    e ∈ q.2.apush j := by
  cases h with
  | failed _ => exact he
  | entered hm hp _ d hd ht =>
    rw [ht]
    by_cases hj : j = major
    · subst hj
      rw [Function.update_self]
      exact hd.mem_iff.mpr (List.mem_cons_of_mem _ he)
    · rw [Function.update_of_ne hj]
      exact he
  | cleared _ hc => exact absurd hc ha

theorem TabsOk.conf (h : TabsOk pr st) (hpr : (env.fstrSw major || env.drvObjname major) = pr major)
    (hlen : a.push.length ≤ maxApush) (hids : ∀ id ∈ a.push, 0 < id ∧ id < MAX_STRMOD) :
    TabsOk pr (apushConf env major a st).2 := by
  have hq := apushConf_confed env major a st
  refine ⟨apushConf_ok h.chain env major a,h.counted.apushConf env major a,?_,?_⟩
  · intro j e he
    rcases hq.mem he with he | ⟨rfl,-,-⟩
    · exact h.ids j e he
    · exact ⟨hlen,hids⟩
  · intro j hne
    obtain ⟨e,he⟩ := List.exists_mem_of_ne_nil _ hne
    rcases hq.mem he with he | ⟨-,rfl,hp⟩
    · exact h.present j (List.ne_nil_of_mem he)
    · rw [← hpr]
      exact hp

/- Lists that are left. -/
theorem TabsOk.sub {pr' : ℕ → Bool} {t : State} (h : TabsOk pr st) (hc : Counted t)
    (hj : ∀ j, t.apush j = [] ∨ (t.apush j = st.apush j ∧ pr' j = pr j)) : TabsOk pr' t := by
  refine ⟨?_,hc,?_,?_⟩
  · intro j
    rcases hj j with hj | ⟨hj,-⟩
    · rw [hj]
      exact .nil
    · rw [hj]
      exact h.chain j
  · intro j e he
    rcases hj j with hj | ⟨hj,-⟩
    · rw [hj] at he
      cases he
    · rw [hj] at he
      exact h.ids j e he
  · intro j hne
    rcases hj j with hj | ⟨hj,hp⟩
    · exact absurd hj hne
    · rw [hj] at hne
      rw [hp]
      exact h.present j hne

theorem chain_without (h : ChainOk c) (mod : ModID) : ChainOk (without mod c) := by
  refine ⟨?_,?_⟩
  · intro e he
    obtain ⟨x,hx,rfl⟩ := List.mem_map.mp he
    exact h.wellFormed x hx
  · exact List.pairwise_map.mpr h.order

theorem TabsOk.dropMod (h : TabsOk pr st) (mod : ModID) : TabsOk pr (apushDropMod mod st) := by
  have hc := h.counted.apushDropMod mod
  rw [h.counted.apushDropMod_eq] at hc ⊢
  refine ⟨fun j => chain_without (h.chain j) mod,hc,?_,?_⟩
  · intro j e he
    obtain ⟨x,hx,rfl⟩ := List.mem_map.mp he
    obtain ⟨hlen,hids⟩ := h.ids j x hx
    refine ⟨(List.length_filter_le _ _).trans hlen,?_⟩
    intro id hid
    exact hids id (List.mem_filter.mp hid).1
  · intro j hne
    apply h.present j
    rintro hnil
    apply hne
    show without mod (st.apush j) = []
    rw [hnil]
    rfl

theorem Inv.short (hi : Inv s) : Short (held s.owed) := by
  intro p hp
  obtain ⟨o,ho,hp⟩ := List.mem_flatMap.mp hp
  obtain ⟨h1,h2,-⟩ := hi.names o ho p.2 (List.of_mem_zip hp).2
  exact ⟨h1,h2.trans (by decide)⟩

theorem held_mono {xs ys : List Owed} (h : ∀ o ∈ xs, o ∈ ys) : ∀ p ∈ held xs, p ∈ held ys := by
  intro p hp
  obtain ⟨o,ho,hp⟩ := List.mem_flatMap.mp hp
  exact List.mem_flatMap.mpr ⟨o,h o ho,hp⟩

/- The entries that are still owed are still there. -/
theorem Inv.less (hi : Inv s) (ht : TabsOk t.present t.tabs) (hr : t.reg.view.Holds (held t.owed))
    (ho : ∀ o ∈ t.owed, o ∈ s.owed ∧ o.entry ∈ t.tabs.apush o.major) : Inv t := by
  refine ⟨ht,hr,?_,?_⟩
  · intro o hm
    exact ⟨(ho o hm).2,(hi.owed o (ho o hm).1).2⟩
  · intro o hm
    exact hi.names o (ho o hm).1

theorem Inv.conf_right (hi : Inv s) (ht : TabsOk s.present (apushConf env u.sapMajor a s.tabs).2) {names : List Name}
    (ha : Answered names s.reg a.push) (hn : ∀ n ∈ names, (0 : Uchar) ∉ n) :
    Inv { s with
      tabs := (apushConf env u.sapMajor a s.tabs).2
      owed := if (apushConf env u.sapMajor a s.tabs).1 = 0 then u.owes a names s.owed else s.owed } := by
  have hq := apushConf_confed env u.sapMajor a s.tabs
  generalize apushConf env u.sapMajor a s.tabs = q at hq ht ⊢
  have hkeep : a.cmd ≠ sapClear → ∀ o ∈ s.owed, o.entry ∈ q.2.apush o.major := fun ha o ho =>
    hq.keeps ha (hi.owed o ho).1
  cases hq with
  | failed herr =>
    simp only [if_neg herr]
    exact hi
  | entered hm hp hcmd d hd htab =>
    simp only [if_true,Strapush.owes,if_neg hcmd]
    refine ⟨ht,?_,List.forall_mem_cons.mpr ⟨⟨?_,ha.length⟩,?_⟩,List.forall_mem_cons.mpr ⟨?_,hi.names⟩⟩
    · exact ha.holds.append hi.reg
    · show a ∈ _
      rw [htab,Function.update_self]
      exact hd.mem_iff.mpr (List.mem_cons_self ..)
    · intro o ho
      exact ⟨hkeep hcmd o ho,(hi.owed o ho).2⟩
    · intro n hmem
      exact ⟨(ha.proper n hmem).1,(ha.proper n hmem).2,hn n hmem⟩
  | cleared hm hcmd e d hd he htab =>
    simp only [if_true,Strapush.owes,if_pos hcmd]
    apply hi.less ht
    · exact hi.reg.mono (held_mono fun o ho => (List.mem_filter.mp ho).1)
    · intro o ho
      obtain ⟨ho,hkeep⟩ := List.mem_filter.mp ho
      refine ⟨ho,?_⟩
      have hin := (hi.owed o ho).1
      show o.entry ∈ _
      rw [htab]
      by_cases hj : o.major = u.sapMajor
      · rw [hj] at hin ⊢
        rw [Function.update_self]
        rcases List.mem_cons.mp (hd.mem_iff.mp hin) with heq | hin
        · simp [hj,heq] at hkeep
          omega
        · exact hin
      · rw [Function.update_of_ne hj]
        exact hin

theorem Inv.set_right (hi : Inv s) {alloc : Bool} (hc : Careful s (.set u alloc loads)) {o : Outcome}
    (ho : s.lisApushSet u alloc loads = some o) : o.ok = true ∧ Inv o.sys := by
  obtain ⟨hlt,hnames⟩ := hc
  simp only [Sys.lisApushSet,decide_eq_true hlt,Bool.true_and] at ho
  split_ifs at ho with h1 h2 h3
  · obtain rfl := Option.some.inj ho
    exact ⟨rfl,hi⟩
  · obtain rfl := Option.some.inj ho
    exact ⟨rfl,hi⟩
  · obtain rfl := Option.some.inj ho
    exact ⟨rfl,hi⟩
  · obtain ⟨w,hw,rfl⟩ := Option.map_eq_some_iff.mp ho
    obtain ⟨hok,hh,hmods⟩ := loadNames_right hi.reg hi.short (fun p hp => List.mem_map_of_mem hp)
      (hnames (by simpa using h1) (Nat.not_lt.mp h2) (by simpa using h3)) hw
    have hreg : Inv { s with reg := w.2.1 } := ⟨hi.tabs,hh,hi.owed,hi.names⟩
    cases hm : w.1 with
    | none => exact ⟨hok,hreg⟩
    | some mods =>
      have ha := hmods mods hm
      rw [← List.range_eq_range'] at ha
      have hlen : mods.length ≤ maxApush := by
        rw [ha.length]
        simpa using h2
      cases hv : apushValidate ({ s with reg := w.2.1 } : Sys).env mods with
      | false =>
        simp only [hv,Bool.false_eq_true,if_false]
        exact ⟨hok,hreg⟩
      | true =>
        simp only [hv,if_true]
        refine ⟨?_,?_⟩
        · rw [hok,Bool.true_and]
          exact conf_holds hi.tabs.chain hi.tabs.counted (hi.tabs.ids _) hlen hv
        · apply hreg.conf_right (u := u) (a := ⟨u.sapCmd,u.sapMinor,u.sapLastminor,mods⟩) (hi.tabs.conf rfl hlen ha.ids) ha
          intro n hn
          obtain ⟨i,-,rfl⟩ := List.mem_map.mp hn
          exact cName_nonzero u.sapList i

/-! ## Runs -/

theorem findMods_ids {mods : List Name} (hc : ∀ id ∈ findMods r mods, id < MAX_STRMOD) :
    ∀ id ∈ findMods r mods, 0 < id ∧ id < MAX_STRMOD := by
  intro id hid
  refine ⟨?_,hc id hid⟩
  obtain ⟨n,-,hn⟩ := List.mem_filterMap.mp hid
  exact (List.mem_range'_1.mp (List.mem_of_find?_eq_some hn)).1

theorem freeAll_apush (hc : Counted st) (j : ℕ) : (apushFreeAll st).apush j = [] := by
  by_cases hj : j < maxStrdev
  · have hall : ∀ (is : List ℕ) (t : State), (is.foldl (fun t i => apushFreeMajor i t) t).apush j =
        if j ∈ is then [] else t.apush j := by
      intro is
      induction is with
      | nil => exact fun t => rfl
      | cons i is ih =>
        intro t
        rw [List.foldl_cons,ih]
        by_cases hin : j ∈ is
        · simp [hin]
        · by_cases hji : j = i
          · subst hji
            simp [hin,apushFreeMajor,setChain]
          · simp [hin,hji,apushFreeMajor,setChain]
    rw [apushFreeAll,hall,if_pos (List.mem_range.mpr hj)]
  · exact hc.apushFreeAll.empty j (Nat.not_lt.mp hj)

/- The entries that do not name a module stay as they are when it goes. -/
theorem mem_dropMod (hc : Counted st) {mod : ModID} (he : e ∈ st.apush major) (hm : mod ∉ e.push) :
    e ∈ (apushDropMod mod st).apush major := by
  rw [hc.apushDropMod_eq]
  refine List.mem_map.mpr ⟨e,he,?_⟩
  rw [filter_of_not_mem hm]

theorem Inv.unregister (hi : Inv s) {id : ℕ} {intr : Bool} (ht : s.unregister id intr = some t) : Inv t := by
  obtain ⟨w,hw,rfl⟩ := Option.map_eq_some_iff.mp ht
  split_ifs with hdrop
  · have hown : ∀ o ∈ s.owed.filter (fun o => !o.entry.push.contains id), o ∈ s.owed ∧ id ∉ o.entry.push := by
      intro o ho
      obtain ⟨ho,hid⟩ := List.mem_filter.mp ho
      exact ⟨ho,by simpa using hid⟩
    apply hi.less (hi.tabs.dropMod id)
    · apply Registry.holds_unregisterModule (hi.reg.mono (held_mono fun o ho => (hown o ho).1)) hw
      rintro p hp rfl
      obtain ⟨o,ho,hp⟩ := List.mem_flatMap.mp hp
      exact (hown o ho).2 (List.of_mem_zip hp).1
    · intro o ho
      exact ⟨(hown o ho).1,mem_dropMod hi.tabs.counted (hi.owed o (hown o ho).1).1 (hown o ho).2⟩
  · exact ⟨hi.tabs,Registry.holds_unregister_failed hi.reg hw hdrop,hi.owed,hi.names⟩

theorem Inv.step (hi : Inv s) {x : Act} (hx : Careful s x) (ht : step s x = some t) : Inv t := by
  cases x with
  | set u alloc loads =>
    obtain ⟨o,ho,rfl⟩ := Option.map_eq_some_iff.mp ht
    exact (hi.set_right hx ho).2
  | get u =>
    obtain rfl := Option.some.inj ht
    exact hi
  | initEntry major cmd minor lastminor mods =>
    simp only [User.step] at ht
    split_ifs at ht with hcond
    obtain rfl := Option.some.inj ht
    have hlen : (findMods s.reg mods).length ≤ maxApush := (List.length_filterMap_le _ _).trans hcond.2
    have htabs : TabsOk s.present (apushConf s.env major ⟨cmd,minor,lastminor,findMods s.reg mods⟩ s.tabs).2 :=
      hi.tabs.conf rfl hlen (findMods_ids hx)
    refine hi.less (t := { s with tabs := _ }) htabs hi.reg ?_
    intro o ho
    exact ⟨ho,(apushConf_confed _ _ _ _).keeps hcond.1 (hi.owed o ho).1⟩
  | registerStrdev major =>
    obtain rfl := Option.some.inj ht
    refine hi.less ⟨hi.tabs.chain,hi.tabs.counted,hi.tabs.ids,?_⟩ hi.reg fun o ho => ⟨ho,(hi.owed o ho).1⟩
    intro j hne
    have hp := hi.tabs.present j hne
    by_cases hj : j = major
    · subst hj
      simp [Sys.present]
    · simpa [Sys.present,hj] using hp
  | unregisterStrdev major =>
    simp only [User.step] at ht
    split_ifs at ht with hcond
    obtain rfl := Option.some.inj ht
    have hne : ∀ o ∈ s.owed.filter (fun o => o.major ≠ major), o ∈ s.owed ∧ o.major ≠ major := by
      intro o ho
      obtain ⟨ho,hj⟩ := List.mem_filter.mp ho
      exact ⟨ho,by simpa using hj⟩
    apply hi.less
    · apply hi.tabs.sub (hi.tabs.counted.apushFreeMajor hcond.1)
      intro j
      by_cases hj : j = major
      · subst hj
        exact .inl (by simp [apushFreeMajor,setChain])
      · exact .inr ⟨by simp [apushFreeMajor,setChain,hj],by simp [Sys.present,hj]⟩
    · exact hi.reg.mono (held_mono fun o ho => (hne o ho).1)
    · intro o ho
      obtain ⟨ho,hj⟩ := hne o ho
      refine ⟨ho,?_⟩
      have hin := (hi.owed o ho).1
      simpa [apushFreeMajor,setChain,hj] using hin
  | freeAll =>
    obtain rfl := Option.some.inj ht
    have htabs : TabsOk s.present (apushFreeAll s.tabs) :=
      hi.tabs.sub hi.tabs.counted.apushFreeAll fun j => .inl (freeAll_apush hi.tabs.counted j)
    generalize apushFreeAll s.tabs = w at htabs ⊢
    exact ⟨htabs,hi.reg.mono (by simp [held]),by simp,by simp⟩
  | unregisterModule id intr =>
    simp only [User.step] at ht
    split_ifs at ht with hcond
    exact hi.unregister ht
  | modules x =>
    obtain ⟨r,hr,rfl⟩ := Option.map_eq_some_iff.mp ht
    have hk := kind_spec (fun p hp => List.mem_map_of_mem hp) hx
    exact ⟨hi.tabs,registryCall_holds hi.reg hi.short hk hr,hi.owed,hi.names⟩

theorem inv_start (beyond : ℕ → Fmodsw) (behind drvObjname : ℕ → Bool) : Inv (start beyond behind drvObjname) := by
  have hcnt : (start beyond behind drvObjname).reg.view.cnt = 1 := rfl
  refine ⟨⟨fun _ => ChainOk.nil,⟨?_,fun _ _ => rfl⟩,?_,?_⟩,⟨?_,?_,?_,?_⟩,?_,?_⟩
  · intro m
    symm
    apply namedIn_zero_iff.mpr
    simp [start,State.initial]
  · intro major e he
    cases he
  · intro major hne
    exact absurd rfl hne
  · rw [hcnt]
    exact Nat.one_pos
  · rw [hcnt]
    decide
  · intro i _ hi
    simp [start,Registry.view,Registry.init,hi]
  all_goals simp [start,held]

/-- In every run whose steps are careful, every call that is careful is right, and of the calls of `lis_apush_get` no
other one is. -/
theorem set_get_right (beyond : ℕ → Fmodsw) (behind drvObjname : ℕ → Bool) (xs : List Act)
    (hm : Meets step Careful (start beyond behind drvObjname) xs)
    (h : exec step (start beyond behind drvObjname) xs = some s) :
    (∀ x, Careful s x → Right s x) ∧ ∀ u, Right s (.get u) → Careful s (.get u) := by
  have hi : Inv s := exec_preserves (fun _ _ _ hI hc hs => hI.step hc hs) (inv_start beyond behind drvObjname) hm h
  refine ⟨?_,fun u hr hlt hp => hi.get_careful hlt hp hr.1 hr.2⟩
  intro x hx
  cases x with
  | set u alloc loads => exact fun r hr => (hi.set_right hx hr).1
  | get u => exact ⟨hi.get_holds hx,fun o ho hmaj hmin => hi.get_returns ho hmaj hmin hx⟩
  | _ => trivial

/- A driver with major 5 and a module, and an entry for one minor or for all. -/
def relay : Name := [114,101,108,97,121]
def relayFor (cmd minor : ℕ) : Strapush := ⟨cmd,5,minor,0,1,fun k => relay.getD k 0⟩
def relayRun (cmd : ℕ) : List Act :=
  [.registerStrdev 5,.modules (.register (some 1) (some relay) false false),
    .set (relayFor cmd 4) true fun _ => ⟨false,false,[],true⟩]
def bare : Sys := start (fun _ => ⟨none,0,[],LINKED,false,false,0⟩) (fun _ => false) fun _ => false

theorem set_get_right_one : ∃ s, exec step bare (relayRun sapOne) = some s ∧ s.owed.length = 1 ∧
    Right s (.get (relayFor sapClear 4)) := by
  obtain ⟨s,hs,hc⟩ := (Option.any_eq_true _ _).mp (show (exec step bare (relayRun sapOne)).any (fun s =>
      decide (s.owed.length = 1 ∧ Careful s (.get (relayFor sapClear 4)))) = true by decide +kernel)
  obtain ⟨hone,hc⟩ := of_decide_eq_true hc
  exact ⟨s,hs,hone,(set_get_right _ _ _ (relayRun sapOne) (by decide +kernel) hs).1 _ hc⟩

/- An entry for all minors, set with minor 4, is not returned for minor 6. -/
theorem get_asserts : ¬ ∀ (xs : List Act) (s : Sys), exec step bare xs = some s → ∀ x, Right s x := by
  intro hall
  obtain ⟨s,hs,hc⟩ := (Option.any_eq_true _ _).mp (show (exec step bare (relayRun sapAll)).any (fun s =>
      !(s.lisApushGet (relayFor sapClear 6)).2.2) = true by decide +kernel)
  have hok := (hall _ s hs (.get (relayFor sapClear 6))).1
  rw [hok] at hc
  cases hc

end CSLiS.Apush.User
