import CSLiS.Minimux.Content

/-!
# The table implements the routes

The entries are threaded together, and what is in them are the streams and routes. A run that keeps to what the stream
head promises never uses an entry that was freed, its answers and the ways of its messages are those of the routes, and
every entry that it leaves is one of a stream.
-/

namespace CSLiS.Minimux
open Lib Lib.Exec Lib.Split

/- The thread from the head, the entries on it are those there are. -/
structure Listed (h : Heap) (head : Option ℕ) (brk : ℕ) (live : List ℕ) : Prop where
  links : Threaded (thread h) head live
  mem : ∀ a, a ∈ live ↔ (h a).isSome
  fresh : ∀ a ∈ live, a < brk

variable {h g : Heap} {head o : Option ℕ} {brk a b : ℕ} {live l₁ l₂ : List ℕ} {e x : Entry}

namespace Listed

theorem some_mem (hl : Listed h head brk live) (he : h a = some e) : a ∈ live := by
  rw [hl.mem,he]
  rfl

theorem brk_none (hl : Listed h head brk live) : h brk = none := by
  rw [← Option.not_isSome_iff_eq_none,← hl.mem]
  exact fun hb => Nat.lt_irrefl _ (hl.fresh _ hb)

theorem length_le (hl : Listed h head brk live) : live.length ≤ brk := by
  have hsub : live ⊆ List.range brk := fun a ha => List.mem_range.mpr (hl.fresh a ha)
  simpa using (hl.links.nodup.subperm hsub).length_le

/- A new entry is the first one on the list. -/
theorem push (hl : Listed h head brk live) (hx : x.list = head) :
    Listed (Function.update h brk (some x)) (some brk) (brk + 1) (brk :: live) where
  links := by
    rw [thread_put,hx]
    exact hl.links.push fun hb => Nat.lt_irrefl _ (hl.fresh _ hb)
  mem a := by
    by_cases ha : a = brk
    · simp [ha]
    · simp [ha,hl.mem]
  fresh a ha := by
    obtain rfl | ha := List.mem_cons.mp ha
    · exact Nat.lt_succ_self _
    · exact Nat.lt_succ_of_lt (hl.fresh a ha)

theorem write (hl : Listed h head brk live) (he : h a = some e) (hx : x.list = e.list) :
    Listed (Function.update h a (some x)) head brk live where
  links := by
    have hlist : thread h a = e.list := by simp [thread,he]
    rw [thread_put,hx,← hlist,Function.update_eq_self]
    exact hl.links
  mem b := by
    by_cases hb : b = a
    · simp [hb,hl.mem,he]
    · simp [hb,hl.mem]
  fresh := hl.fresh

/- An entry that the others are linked around is freed. -/
theorem drop (hl : Listed h head brk (l₁ ++ a :: l₂)) (hg : ∀ b, (g b).isSome = (h b).isSome)
    (ht : Threaded (thread g) o (l₁ ++ l₂)) : Listed (Function.update g a none) o brk (l₁ ++ l₂) := by
  have hnd := hl.links.nodup
  rw [List.nodup_middle] at hnd
  have ha := (List.nodup_cons.mp hnd).1
  refine ⟨?_,fun b => ?_,fun b hb => hl.fresh b ?_⟩
  · rw [thread_drop]
    refine ht.congr fun x hx => Function.update_of_ne ?_ ..
    rintro rfl
    exact ha hx
  · by_cases hb : b = a
    · rw [hb,Function.update_self]
      exact iff_of_false ha Bool.false_ne_true
    · have hm := hl.mem b
      simp only [List.mem_append,List.mem_cons,hb,false_or] at hm
      rw [Function.update_of_ne hb,hg,← hm,List.mem_append]
  · simp only [List.mem_append,List.mem_cons] at hb ⊢
    exact hb.imp_right .inr

end Listed

theorem isSome_of_body (hb : body g = body h) (b : ℕ) : (g b).isSome = (h b).isSome := by
  simpa [body] using congrArg Option.isSome (congrFun hb b)

structure Rel (s : Driver) (n : Net) (live : List ℕ) : Prop where
  listed : Listed s.heap s.muxHead s.brk live
  content : Content s.view n
  minors : s.muxMinors = n.marked
  out : s.out = n.out

variable {s : Driver} {n : Net} {q l c m : ℕ} {id : ℤ}

def Driver.write (s : Driver) (a : ℕ) (x : Entry) : Driver := { s with heap := Function.update s.heap a (some x) }

theorem Driver.modify_eq {f : Entry → Entry} (he : s.heap a = some e) : s.modify a f = some (s.write a (f e)) := by
  rw [Driver.modify,he]
  rfl

theorem Driver.write_same (he : s.heap a = some e) : s.write a e = s := by
  rw [Driver.write,← he,Function.update_eq_self]

@[simp] theorem Driver.setPtr_ptr {w : Outq} : (s.setPtr w o).ptr = Function.update s.ptr w o := by
  funext w'
  cases w <;> cases w' <;> simp [Driver.ptr,Driver.setPtr,Function.update_apply]

theorem Driver.entry_some (hx : s.view.entry a = some x) : ∃ e, s.heap a = some e ∧ { e with list := none } = x :=
  body_some hx

theorem Driver.view_entry (he : s.heap a = some e) : s.view.entry a = some { e with list := none } := by
  simp [Driver.view,body,he]

namespace Rel

theorem init : Rel Driver.init Net.init [] where
  listed := ⟨rfl,fun _ => Iff.intro (fun h => by cases h) (fun h => by cases h),fun _ h => by cases h⟩
  content.absent w _ := by cases w <;> rfl
  content.present w _ h := by cases w <;> cases h
  content.owned _ _ h := by cases h
  minors := rfl
  out := rfl

theorem reply (h : Rel s n live) (r : Reply) : Rel (s.reply r) (n.reply r) live :=
  ⟨h.listed,h.content.congr rfl rfl rfl,h.minors,congrArg (· ++ [r]) h.out⟩

theorem mark (h : Rel s n live) (m : ℕ) :
    Rel { s with muxMinors := Function.update s.muxMinors m true } (n.mark m) live :=
  ⟨h.listed,h.content.congr rfl rfl rfl,congrArg (Function.update · m true) h.minors,h.out⟩

theorem brk_none (h : Rel s n live) : s.view.entry s.brk = none := by
  simp [Driver.view,body,h.listed.brk_none]

theorem add (h : Rel s n live) (hs : Sane n) (hq : n.minor q = none) :
    Rel ((s.newMux ⟨none,.rd q,none,none,0,m⟩).setPtr (.rd q) (some s.brk)) (n.add q m) (s.brk :: live) where
  listed := h.listed.push rfl
  content := by
    have hadd := h.content.add (m := m) hs hq h.brk_none
    rw [Driver.view,Driver.setPtr_ptr]
    exact body_put ▸ hadd
  minors := h.minors
  out := h.out

theorem opened (h : Rel s n live) (hs : Sane n) (clone mem : Bool) :
    ∃ live', Rel (s.muxOpen q clone m mem) (n.opened q (if clone then firstMinor n.marked else m) mem) live' := by
  have hdev : (if clone then firstMinor s.muxMinors else m) = if clone then firstMinor n.marked else m := by
    rw [h.minors]
  have hup : (s.upper q).isSome = (n.minor q).isSome := h.content.upper_isSome q
  simp only [Driver.muxOpen,Net.opened,hdev,hup]
  generalize (if clone then firstMinor n.marked else m) = dev
  split_ifs with hmax hq hmem
  · exact ⟨live,h.reply _⟩
  · exact ⟨live,(h.mark dev).reply _⟩
  · exact ⟨_,((h.mark dev).add (hs.mark dev) (Option.not_isSome_iff_eq_none.mp hq)).reply _⟩
  · exact ⟨live,(h.mark dev).reply _⟩

section Find

variable {test : ℕ → Entry → Bool}

/- What the search comes to: the first entry on the list that passes the test, after the one before it. -/
theorem find_eq (h : Rel s n live) :
    s.find test = some ((splitFirst (fun a => (s.heap a).any (test a)) live).map fun z => (z.1.getLast?,z.2.1)) := by
  have hread : ∀ a ∈ live, (s.heap a).map (fun e => (test a e,e.list)) =
      some ((s.heap a).any (test a),thread s.heap a) := by
    intro a ha
    obtain ⟨e,he⟩ := Option.isSome_iff_exists.mp ((h.listed.mem a).mp ha)
    simp [he,thread]
  rw [Driver.find,search_threaded h.listed.links hread (Nat.lt_succ_of_le h.listed.length_le)]
  simp only [Option.or_none]

theorem find_none (h : Rel s n live) (ht : ∀ a e, s.heap a = some e → test a e = false) : s.find test = some none := by
  have hnone : splitFirst (fun a => (s.heap a).any (test a)) live = none := by
    refine splitFirst_none.mpr fun a ha => ?_
    obtain ⟨e,he⟩ := Option.isSome_iff_exists.mp ((h.listed.mem a).mp ha)
    rw [he]
    exact ht a e he
  rw [h.find_eq,hnone]
  rfl

theorem find_some (h : Rel s n live) (he : s.heap a = some e) (ht : test a e = true)
    (hu : ∀ b x, s.heap b = some x → test b x = true → b = a) :
    ∃ l₁ l₂, live = l₁ ++ a :: l₂ ∧ s.find test = some (some (l₁.getLast?,a)) := by
  obtain ⟨l₁,b,l₂,hs,hb⟩ := splitFirst_of_mem (p := fun a => (s.heap a).any (test a)) (h.listed.some_mem he)
    (by rw [he]; exact ht)
  obtain ⟨x,hx⟩ := Option.isSome_iff_exists.mp
    ((h.listed.mem b).mp ((splitFirst_some hs).1 ▸ List.mem_append_right _ (List.mem_cons_self ..)))
  obtain rfl := hu b x hx (by rw [hx] at hb; exact hb)
  exact ⟨l₁,l₂,(splitFirst_some hs).1,by rw [h.find_eq,hs]; rfl⟩

end Find

/- An entry with the mux id of a control stream is that of a stream which is linked there. -/
theorem of_test (h : Rel s n live) (ha : s.upper q = some a) (hb : s.heap b = some e)
    (ht : (e.ctlStrm == some a && e.muxid == id) = true) : ∃ l, s.lower l = some b ∧ n.ctl l = some (q,id) := by
  simp only [Bool.and_eq_true,beq_iff_eq] at ht
  obtain ⟨hctl,hid⟩ := ht
  have hbody := Driver.view_entry hb
  obtain ⟨w,hp⟩ := h.content.owned b _ hbody
  cases w with
  | rd p =>
    obtain ⟨m,-,hx⟩ := h.content.of_upper hp
    have hnone : e.ctlStrm = none := congrArg Entry.ctlStrm (Option.some.inj (hbody.symm.trans hx))
    cases hctl.symm.trans hnone
  | wr l =>
    obtain ⟨c,i,hci,hx⟩ := h.content.of_lower hp
    have hc : e.ctlStrm = s.upper c := congrArg Entry.ctlStrm (Option.some.inj (hbody.symm.trans hx))
    have hi : e.muxid = i := congrArg Entry.muxid (Option.some.inj (hbody.symm.trans hx))
    obtain rfl := Outq.rd.inj (h.content.inj (hc.symm.trans hctl) ha)
    exact ⟨l,hp,by rw [hci,← hi,hid]⟩

theorem findLower_none (h : Rel s n live) (hs : Sane n) (ha : s.upper q = some a) (hl : n.lower q id = none) :
    s.findLower a id = some none := by
  refine h.find_none fun b e he => Bool.eq_false_iff.mpr fun ht => ?_
  obtain ⟨l,-,hc⟩ := h.of_test ha he ht
  exact hs.lower_none.mp hl l hc

theorem findLower_some (h : Rel s n live) (hs : Sane n) (ha : s.upper q = some a) (hl : n.ctl l = some (q,id)) :
    ∃ b l₁ l₂, s.lower l = some b ∧ live = l₁ ++ b :: l₂ ∧ s.findLower a id = some (some (l₁.getLast?,b)) := by
  obtain ⟨b,hb,hbody⟩ := h.content.lower hl
  obtain ⟨e,he,hx⟩ := Driver.entry_some hbody
  have hctl : e.ctlStrm = some a := (congrArg Entry.ctlStrm hx).trans ha
  have hid : e.muxid = id := congrArg Entry.muxid hx
  have hu : ∀ p x, s.heap p = some x → (x.ctlStrm == some a && x.muxid == id) = true → p = b := by
    intro p x hp ht
    obtain ⟨k,hk,hck⟩ := h.of_test ha hp ht
    obtain rfl := hs.ids k l q id hck hl
    exact Option.some.inj (hk.symm.trans hb)
  obtain ⟨l₁,l₂,hlive,hfind⟩ := h.find_some he (by simp [hctl,hid]) hu
  exact ⟨b,l₁,l₂,hb,hlive,hfind⟩

/- An entry is linked around. -/
theorem around (h : Rel s n (l₁ ++ a :: l₂)) (he : s.heap a = some e) :
    ∃ g o, s.around l₁.getLast? e.list = some { s with heap := g, muxHead := o } ∧ g a = some e ∧ body g = body s.heap ∧
      Threaded (thread g) o (l₁ ++ l₂) := by
  have hnd := h.listed.links.nodup
  have hnext : thread s.heap a = e.list := by simp [thread,he]
  cases hp : l₁.getLast? with
  | none =>
    obtain rfl := List.getLast?_eq_none_iff.mp hp
    refine ⟨s.heap,e.list,rfl,he,rfl,?_⟩
    exact h.listed.links.remove (fun _ => hnext.symm) (fun hne => absurd rfl hne) (fun p hp => by cases hp)
      fun _ _ _ => rfl
  | some p =>
    have hpm : p ∈ l₁ := List.mem_of_getLast? hp
    have hpa : p ≠ a := by
      rintro rfl
      exact (List.nodup_append.mp hnd).2.2 p hpm p (List.mem_cons_self ..) rfl
    obtain ⟨x,hx⟩ := Option.isSome_iff_exists.mp ((h.listed.mem p).mp (List.mem_append_left _ hpm))
    have hbx : body s.heap p = some { x with list := none } := by simp [body,hx]
    refine ⟨Function.update s.heap p (some { x with list := e.list }),s.muxHead,?_,?_,?_,?_⟩
    · simp [Driver.around,Driver.modify,hx]
    · rwa [Function.update_of_ne hpa.symm]
    · rw [body_put,← hbx,Function.update_eq_self]
    · rw [thread_put]
      refine h.listed.links.remove (fun hl => ?_) (fun _ => rfl) (fun k hk => ?_) fun k _ hk => ?_
      · rw [hl] at hp
        cases hp
      · obtain rfl := Option.some.inj (hp.symm.trans hk)
        rw [Function.update_self,hnext]
      · have hkp : k ≠ p := by
          rintro rfl
          exact hk hp
        exact Function.update_of_ne hkp ..

/- The route of a stream is written into its entry. -/
theorem write_content (h : Content s.view n) (ha : s.upper q = some a) (he : s.heap a = some e) {d : Option ℕ}
    (ho : o = d.bind s.lower) :
    Content (s.write a { e with othermux := o }).view { n with down := Function.update n.down q d } := by
  obtain ⟨m,hm,hx⟩ := h.of_upper ha
  have hbody := Option.some.inj ((Driver.view_entry he).symm.trans hx)
  have hnew : ({ e with list := none, othermux := o } : Entry) = ⟨none,.rd q,o,none,0,m⟩ :=
    congrArg (fun x : Entry => { x with othermux := o }) hbody
  have hview : (s.write a { e with othermux := o }).view =
      ⟨Function.update s.view.entry a (some ⟨none,.rd q,o,none,0,m⟩),s.view.ptr⟩ :=
    congrArg (View.mk · s.ptr) (body_put.trans (by rw [hnew]; rfl))
  rw [hview]
  exact h.reroute hm ha ho

theorem write_route (h : Rel s n live) (ha : s.upper q = some a) (he : s.heap a = some e) {d : Option ℕ}
    (ho : o = d.bind s.lower) :
    Rel (s.write a { e with othermux := o }) { n with down := Function.update n.down q d } live :=
  ⟨h.listed.write he rfl,write_content h.content ha he ho,h.minors,h.out⟩

theorem link (h : Rel s n live) (hs : Sane n) (ha : s.upper q = some a) (hl : n.ctl l = none) (id : ℤ) :
    ∃ t live', s.muxIoctl a (.link (some (id,l)) true) = some (.ack,t) ∧ t.upper = s.upper ∧
      Rel t (n.link q l id) live' := by
  obtain ⟨k,-,hx⟩ := h.content.of_upper ha
  obtain ⟨e,he,-⟩ := Driver.entry_some hx
  have hab : a ≠ s.brk := by
    rintro rfl
    rw [h.listed.brk_none] at he
    cases he
  have he' : (s.newMux ⟨none,.wr l,some a,some a,id,0⟩).heap a = some e := (Function.update_of_ne hab ..).trans he
  have hmod := Driver.modify_eq (f := fun e => { e with othermux := some s.brk }) he'
  have hattached : Rel ((s.newMux ⟨none,.wr l,some a,some a,id,0⟩).setPtr (.wr l) (some s.brk)) (n.attach q l id)
      (s.brk :: live) := by
    refine ⟨h.listed.push rfl,?_,h.minors,h.out⟩
    have hattach := h.content.attach hs ha hl h.brk_none id
    rw [Driver.view,Driver.setPtr_ptr]
    exact body_put ▸ hattach
  refine ⟨_,s.brk :: live,?_,?_,hattached.write_route ha he' (o := some s.brk) (d := some l) ?_⟩
  · simp only [Driver.muxIoctl,if_true,hmod]
    rfl
  · rfl
  · simp [Driver.setPtr]

/- The other end is led back, if it leads here. -/
theorem detach_eq {y : Entry} (hb : s.heap b = some e) (ho : e.othermux = some a) (ha : s.heap a = some y) :
    s.detach b = some (s.write a { y with othermux := if y.othermux = some b then none else y.othermux }) := by
  simp only [Driver.detach,hb,ho,ha,Option.bind_eq_bind,Option.bind_some]
  split_ifs with hy
  · rw [Driver.modify_eq ha]
  · rw [Driver.write_same ha]

/- The lower entry is linked around, its control stream is led elsewhere and it is freed. -/
theorem unlink (h : Rel s n live) (hs : Sane n) (ha : s.upper q = some a) (hl : n.ctl l = some (q,id)) :
    ∃ t live', s.muxIoctl a (.unlink (some id)) = some (.ack,t) ∧ t.upper = s.upper ∧ Rel t (n.unlink q l) live' := by
  obtain ⟨b,l₁,l₂,hb,rfl,hfind⟩ := h.findLower_some hs ha hl
  obtain ⟨c,i,hci,hbody⟩ := h.content.of_lower hb
  obtain ⟨rfl,rfl⟩ := Prod.mk.inj (Option.some.inj (hci.symm.trans hl))
  obtain ⟨e,he,hex⟩ := Driver.entry_some hbody
  have hother : e.othermux = some a := (congrArg Entry.othermux hex).trans ha
  have houtq : e.outq = .wr l := congrArg Entry.outq hex
  have hab := h.content.upper_ne_lower ha hb
  obtain ⟨g,o,hround,hgb,hbg,hthread⟩ := h.around he
  have hsome := isSome_of_body hbg
  /- The entry of the control stream, which may be the one before. -/
  obtain ⟨m,hm,hx⟩ := h.content.of_upper ha
  obtain ⟨y,hy,hyx⟩ := body_some ((congrFun hbg a).trans hx)
  have hroute : y.othermux = (n.down c).bind s.lower := congrArg Entry.othermux hyx
  have hdown : (if y.othermux = some b then none else y.othermux) =
      (if n.down c = some l then none else n.down c).bind s.lower := by
    cases hd : n.down c with
    | none => simp [hroute,hd]
    | some k =>
      by_cases hkl : k = l
      · simp [hroute,hd,hkl,hb]
      · have hkb : s.lower k ≠ some b := fun hk => hkl (Outq.wr.inj (h.content.inj hk hb))
        simp [hroute,hd,hkl,hkb]
  generalize hX : (if y.othermux = some b then none else y.othermux) = X at hdown
  have hXb : X ≠ some b := by
    rw [← hX]
    split_ifs with hyb
    · exact Option.some_ne_none b ∘ Eq.symm
    · exact hyb
  let s₁ : Driver := { s with heap := g, muxHead := o }
  let s₂ := s₁.write a { y with othermux := X }
  have hdetach : s₁.detach b = some s₂ := by rw [detach_eq hgb hother hy,hX]
  have ha₂ : s₂.heap a = some { y with othermux := X } := Function.update_self ..
  have hb₂ : s₂.heap b = some e := (Function.update_of_ne hab.symm ..).trans hgb
  have hagain : s₂.modify a (fun x => if x.othermux = some b then { x with othermux := none } else x) = some s₂ := by
    rw [Driver.modify_eq ha₂,if_neg hXb,Driver.write_same ha₂]
  have hcontent₁ : Content s₁.view n := by
    have hview : s₁.view = s.view := congrArg (View.mk · s.ptr) hbg
    exact hview ▸ h.content
  have hcontent₂ : Content s₂.view (n.unroute c l) := write_content hcontent₁ ha hy hdown
  refine ⟨(s₂.setPtr (.wr l) none).free b,l₁ ++ l₂,?_,rfl,?_,?_,h.minors,h.out⟩
  · simp only [Driver.muxIoctl,hfind,he,hround,Option.bind_eq_bind,Option.bind_some]
    rw [hdetach,Option.bind_some,hagain,Option.bind_some,hb₂,Option.bind_some,houtq]
  · have hya : thread g a = y.list := by simp [thread,hy]
    have hwritten : thread s₂.heap = thread g := thread_put.trans (by rw [← hya,Function.update_eq_self])
    have hsome₂ (x) : (s₂.heap x).isSome = (s.heap x).isSome := by
      by_cases hxa : x = a
      · rw [hxa,ha₂,← hsome,hy]
        rfl
      · exact (congrArg Option.isSome (Function.update_of_ne hxa ..)).trans (hsome x)
    exact h.listed.drop hsome₂ (hwritten ▸ hthread)
  · have hdetached := hcontent₂.detach (hs.unroute c l) hl Net.unroute_ne hb
    have hptr : ((s₂.setPtr (.wr l) none).free b).ptr = Function.update s₂.ptr (.wr l) none :=
      Driver.setPtr_ptr (s := s₂) (w := .wr l)
    rw [Driver.view,hptr]
    exact body_drop ▸ hdetached

/- A stream that nothing is linked to is closed. Its entry leads nowhere. -/
theorem close (h : Rel s n live) (hs : Sane n) (hm : n.minor q = some m) (hq : n.lowers q = []) :
    ∃ t live', s.muxClose q = some (t.reply (.ret 0)) ∧ Rel t (n.close q m) live' := by
  obtain ⟨a,ha,hbody⟩ := h.content.upper hm
  obtain ⟨e,he,hex⟩ := Driver.entry_some hbody
  have hd : n.down q = none := by
    rw [Option.eq_none_iff_forall_ne_some]
    intro l hl
    obtain ⟨id,hid⟩ := hs.down q l (Option.isSome_iff_exists.mpr ⟨m,hm⟩) hl
    have hmem := (hs.linked l q id hid).2
    rw [hq] at hmem
    cases hmem
  have hother : e.othermux = none := (congrArg Entry.othermux hex).trans (by rw [hd]; rfl)
  have houtq : e.outq = .rd q := congrArg Entry.outq hex
  have hminor : e.minorDev = m := congrArg Entry.minorDev hex
  obtain ⟨l₁,l₂,rfl,hfind⟩ := h.find_some he (beq_self_eq_true a) fun b x _ ht => beq_iff_eq.mp ht
  obtain ⟨g,o,hround,hga,hbg,hthread⟩ := h.around he
  have hsome := isSome_of_body hbg
  let s₁ : Driver := { s with heap := g, muxHead := o }
  have hdetach : s₁.detach a = some s₁ := by simp [s₁,Driver.detach,hga,hother]
  let t : Driver := { (s₁.setPtr (.rd q) none).free a with muxMinors := Function.update s.muxMinors m false }
  refine ⟨t,l₁ ++ l₂,?_,?_,?_,congrArg (Function.update · m false) h.minors,h.out⟩
  · have ha' : s.upper q = some a := ha
    simp only [Driver.muxClose,ha',hfind,he,hround,Option.bind_eq_bind,Option.bind_some]
    rw [hdetach,Option.bind_some]
    simp [s₁,t,hga,houtq,hminor,Driver.setPtr,Driver.free,Driver.reply]
  · exact h.listed.drop hsome hthread
  · have hclosed := h.content.close (m := m) hs ha hq
    have hptr : t.ptr = Function.update s.ptr (.rd q) none := Driver.setPtr_ptr (s := s₁) (w := .rd q)
    have hbody' : body t.heap = Function.update (body s.heap) a none := by
      rw [← hbg]
      exact body_drop
    rw [Driver.view,hptr,hbody']
    exact hclosed

theorem ioctl (h : Rel s n live) (hs : Sane n) (ha : s.upper q = some a) {cmd : Icmd} (hg : Guard n (.ioctl q cmd)) :
    ∃ r t live', s.muxIoctl a cmd = some (r,t) ∧ t.upper = s.upper ∧ Rel (t.reply r) (n.ioctl q cmd) live' := by
  have hnak : ∀ err, Rel (s.reply (.nak err)) (n.reply (.nak err)) live := fun err => h.reply _
  cases cmd with
  | link lk mem =>
    cases lk with
    | none => exact ⟨_,s,live,rfl,rfl,hnak _⟩
    | some lk =>
      cases mem with
      | false => exact ⟨_,s,live,rfl,rfl,hnak _⟩
      | true =>
        obtain ⟨t,live',ht,hup,hr⟩ := h.link hs ha hg.1 lk.1
        exact ⟨_,t,live',ht,hup,hr.reply _⟩
  | unlink id =>
    cases id with
    | none => exact ⟨_,s,live,rfl,rfl,hnak _⟩
    | some id =>
      rw [Net.ioctl]
      cases hl : n.lower q id with
      | none => exact ⟨_,s,live,by simp [Driver.muxIoctl,h.findLower_none hs ha hl],rfl,hnak _⟩
      | some l =>
        obtain ⟨t,live',ht,hup,hr⟩ := h.unlink hs ha (hs.lower_iff.mp hl)
        exact ⟨_,t,live',ht,hup,hr.reply _⟩
  | up id =>
    cases id with
    | none => exact ⟨_,s,live,rfl,rfl,hnak _⟩
    | some id =>
      rw [Net.ioctl]
      cases hl : n.lower q id with
      | none => exact ⟨_,s,live,by simp [Driver.muxIoctl,h.findLower_none hs ha hl],rfl,hnak _⟩
      | some l =>
        have hc := hs.lower_iff.mp hl
        obtain ⟨b,l₁,l₂,hb,-,hfind⟩ := h.findLower_some hs ha hc
        obtain ⟨c,i,hci,hbody⟩ := h.content.of_lower hb
        obtain ⟨rfl,rfl⟩ := Prod.mk.inj (Option.some.inj (hci.symm.trans hc))
        obtain ⟨e,he,hex⟩ := Driver.entry_some hbody
        have hother : e.othermux = some a := (congrArg Entry.othermux hex).trans ha
        have hsame : ({ e with othermux := some a } : Entry) = e := by rw [← hother]
        refine ⟨.ack,s,live,?_,rfl,h.reply _⟩
        simp only [Driver.muxIoctl,hfind,Option.bind_eq_bind,Option.bind_some]
        rw [Driver.modify_eq he,hsame,Driver.write_same he]
        rfl
  | down id =>
    cases id with
    | none => exact ⟨_,s,live,rfl,rfl,hnak _⟩
    | some id =>
      rw [Net.ioctl]
      cases hl : n.lower q id with
      | none => exact ⟨_,s,live,by simp [Driver.muxIoctl,h.findLower_none hs ha hl],rfl,hnak _⟩
      | some l =>
        obtain ⟨b,l₁,l₂,hb,-,hfind⟩ := h.findLower_some hs ha (hs.lower_iff.mp hl)
        obtain ⟨m,-,hbody⟩ := h.content.of_upper ha
        obtain ⟨e,he,-⟩ := Driver.entry_some hbody
        have hr := h.write_route ha he (o := some b) (d := some l) hb.symm
        refine ⟨.ack,s.write a { e with othermux := some b },live,?_,rfl,hr.reply _⟩
        simp only [Driver.muxIoctl,hfind,Option.bind_eq_bind,Option.bind_some]
        rw [Driver.modify_eq he]
        rfl
  | other => exact ⟨_,s,live,rfl,rfl,hnak _⟩

/- Where the messages of the entries go. -/
theorem forward_upper (h : Rel s n live) (hs : Sane n) (ha : s.upper q = some a) : s.forwardq a = some (n.downq q) := by
  obtain ⟨m,hm,hbody⟩ := h.content.of_upper ha
  obtain ⟨e,he,hex⟩ := Driver.entry_some hbody
  have houtq : e.outq = .rd q := congrArg Entry.outq hex
  have hother : e.othermux = (n.down q).bind s.lower := congrArg Entry.othermux hex
  simp only [Driver.forwardq,he,Option.bind_eq_bind,Option.bind_some,hother,Net.downq]
  cases hd : n.down q with
  | none => rw [houtq]; rfl
  | some l =>
    obtain ⟨id,hid⟩ := hs.down q l (Option.isSome_iff_exists.mpr ⟨m,hm⟩) hd
    obtain ⟨b,hb,hbb⟩ := h.content.lower hid
    obtain ⟨y,hy,hyx⟩ := Driver.entry_some hbb
    have hyq : y.outq = .wr l := congrArg Entry.outq hyx
    have hb' : s.lower l = some b := hb
    simp [hb',hy,hyq]

theorem forward_lower (h : Rel s n live) (hs : Sane n) (hc : n.ctl l = some (c,id)) :
    ∃ b, s.lower l = some b ∧ s.forwardq b = some (.rd c) := by
  obtain ⟨b,hb,hbody⟩ := h.content.lower hc
  obtain ⟨e,he,hex⟩ := Driver.entry_some hbody
  obtain ⟨m,hm⟩ := Option.isSome_iff_exists.mp (hs.linked l c id hc).1
  obtain ⟨a,ha,haa⟩ := h.content.upper hm
  obtain ⟨y,hy,hyx⟩ := Driver.entry_some haa
  have hother : e.othermux = some a := (congrArg Entry.othermux hex).trans ha
  have houtq : y.outq = .rd c := congrArg Entry.outq hyx
  exact ⟨b,hb,by simp [Driver.forwardq,he,hother,hy,houtq]⟩

theorem step (h : Rel s n live) (hs : Sane n) {op : Op} (hg : Guard n op) :
    ∃ t live', step s op = some t ∧ Rel t (n.step op) live' := by
  cases op with
  | opens q clone minor mem =>
    obtain ⟨live',hr⟩ := h.opened hs clone mem
    exact ⟨_,live',rfl,hr⟩
  | ioctl q cmd =>
    rw [Net.step]
    cases hm : n.minor q with
    | none =>
      have ha : s.upper q = none := h.content.closed hm
      exact ⟨s.reply .freed,live,by rw [Minimux.step,ha],h.reply _⟩
    | some m =>
      obtain ⟨a,ha,hbody⟩ := h.content.upper hm
      have ha' : s.upper q = some a := ha
      obtain ⟨r,t,live',ht,hup,hr⟩ := h.ioctl hs ha' hg
      obtain ⟨k,-,hk⟩ := hr.content.of_upper (show (t.reply r).upper q = some a from (congrFun hup q).trans ha')
      obtain ⟨e,he,-⟩ := Driver.entry_some hk
      have he' : t.heap a = some e := he
      exact ⟨t.reply r,live',by simp [Minimux.step,ha',h.forward_upper hs ha',ht,he'],hr⟩
  | close q =>
    rw [Net.step]
    cases hm : n.minor q with
    | none =>
      have ha : s.upper q = none := h.content.closed hm
      exact ⟨s.reply (.ret 0),live,by simp [Minimux.step,Driver.muxClose,ha],h.reply _⟩
    | some m =>
      obtain ⟨t,live',ht,hr⟩ := h.close hs hm hg
      exact ⟨_,live',ht,hr.reply _⟩
  | wput q =>
    rw [Net.step]
    cases hm : n.minor q with
    | none =>
      have ha : s.upper q = none := h.content.closed hm
      exact ⟨s.reply .freed,live,by simp [Minimux.step,Driver.put,ha],h.reply _⟩
    | some m =>
      obtain ⟨a,ha,-⟩ := h.content.upper hm
      have ha' : s.upper q = some a := ha
      exact ⟨s.reply (.forward (n.downq q)),live,by simp [Minimux.step,Driver.put,ha',h.forward_upper hs ha'],h.reply _⟩
  | lrput l =>
    rw [Net.step]
    cases hc : n.ctl l with
    | none =>
      have ha : s.lower l = none := h.content.apart hc
      exact ⟨s.reply .freed,live,by simp [Minimux.step,Driver.put,ha],h.reply _⟩
    | some ci =>
      obtain ⟨b,hb,hf⟩ := h.forward_lower hs hc
      exact ⟨s.reply (.forward (.rd ci.1)),live,by simp [Minimux.step,Driver.put,hb,hf],h.reply _⟩

/- The entries there are are those that a stream points to. -/
theorem isSome_iff (h : Rel s n live) : (s.heap a).isSome ↔ ∃ q, s.upper q = some a ∨ s.lower q = some a := by
  constructor
  · intro ha
    obtain ⟨e,he⟩ := Option.isSome_iff_exists.mp ha
    obtain ⟨w,hw⟩ := h.content.owned a _ (Driver.view_entry he)
    cases w with
    | rd q => exact ⟨q,.inl hw⟩
    | wr l => exact ⟨l,.inr hw⟩
  · intro hq
    obtain ⟨q,hq | hq⟩ := hq
    · obtain ⟨m,-,hx⟩ := h.content.of_upper hq
      obtain ⟨e,he,-⟩ := Driver.entry_some hx
      rw [he]
      rfl
    · obtain ⟨c,id,-,hx⟩ := h.content.of_lower hq
      obtain ⟨e,he,-⟩ := Driver.entry_some hx
      rw [he]
      rfl

theorem exec (h : Rel s n live) (hs : Sane n) {ops : List Op}
    (hm : Meets (fun n op => some (Net.step n op)) Guard n ops) :
    ∃ t n' live', Exec.exec Minimux.step s ops = some t ∧ Exec.exec (fun n op => some (Net.step n op)) n ops = some n' ∧
      Sane n' ∧ Rel t n' live' := by
  induction ops generalizing s n live with
  | nil => exact ⟨s,n,live,rfl,rfl,hs,h⟩
  | cons op ops ih =>
    obtain ⟨t,live',ht,hr⟩ := h.step hs hm.1
    obtain ⟨u,n',live'',hu,hn,hs',hr'⟩ := ih hr (hs.step hm.1) (hm.2 _ rfl)
    exact ⟨u,n',live'',by rw [exec_cons,ht]; exact hu,hn,hs',hr'⟩

end Rel

/- A run of the streams and routes that keeps to what the stream head promises is one of the table, with the same
replies. Nothing that was freed is used, and the entries at its end are those of the streams. -/
theorem routes_implemented {ops : List Op} (hm : Meets (fun n op => some (Net.step n op)) Guard Net.init ops) :
    ∃ s n, exec step Driver.init ops = some s ∧ exec (fun n op => some (Net.step n op)) Net.init ops = some n ∧
      s.out = n.out ∧ Sane n ∧ ∀ a, (s.heap a).isSome ↔ ∃ q, s.upper q = some a ∨ s.lower q = some a := by
  obtain ⟨s,n,live,hs,hn,hsane,h⟩ := Rel.init.exec Sane.init hm
  exact ⟨s,n,hs,hn,h.out,hsane,fun _ => h.isSome_iff⟩

/- A stream with two lower ones is routed to the first of them, whose messages then come up. It is unlinked. -/
theorem routes_implemented_two :
    let ops : List Op := [.opens 1 true 0 true,.ioctl 1 (.link (some (7,2)) true),.ioctl 1 (.link (some (8,3)) true),
      .ioctl 1 (.down (some 7)),.wput 1,.lrput 2,.ioctl 1 (.unlink (some 7)),.wput 1,.ioctl 1 (.unlink (some 8)),.close 1]
    ∃ s n, exec step Driver.init ops = some s ∧ exec (fun n op => some (Net.step n op)) Net.init ops = some n ∧
      s.out = n.out ∧ Sane n ∧ ∀ a, (s.heap a).isSome ↔ ∃ q, s.upper q = some a ∨ s.lower q = some a := by
  intro ops
  exact routes_implemented (by decide)

end CSLiS.Minimux
