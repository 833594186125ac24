import CSLiS.Minimux.Table

/-!
# What the multiplexor is for

Streams with a minor device each, under each of them the lower streams that were linked there. A stream may have a route
down, to one of its own lower streams, a lower stream is always routed up, to its control stream. A message of a stream
that has no route goes back to it. The table of the driver is an implementation of this.
-/

namespace CSLiS.Minimux

/- `ctl` is the control stream of a lower stream, and its mux id there. -/
structure Net where
  streams : List ℕ
  minor : ℕ → Option ℕ
  marked : ℕ → Bool
  lowers : ℕ → List ℕ
  ctl : ℕ → Option (ℕ × ℤ)
  down : ℕ → Option ℕ
  out : List Reply

namespace Net

variable (n : Net)

def reply (r : Reply) : Net := { n with out := n.out ++ [r] }

def lower (q : ℕ) (id : ℤ) : Option ℕ := (n.lowers q).find? fun l => n.ctl l == some (q,id)

def mark (m : ℕ) : Net := { n with marked := Function.update n.marked m true }

def add (q m : ℕ) : Net :=
  { n with
    streams := q :: n.streams
    minor := Function.update n.minor q (some m)
    down := Function.update n.down q none
    lowers := Function.update n.lowers q [] }

/- An open marks a minor, of which a stream is made if it is not open yet. -/
def opened (q m : ℕ) (mem : Bool) : Net :=
  if MAXMUX ≤ m then n.reply (.ret OPENFAIL)
  else if (n.minor q).isSome then (n.mark m).reply (.opened m)
  else if mem then ((n.mark m).add q m).reply (.opened m)
  else (n.mark m).reply (.ret ENOMEM)

def route (q l : ℕ) : Net := { n with down := Function.update n.down q (some l) }

def unroute (q l : ℕ) : Net :=
  { n with down := Function.update n.down q (if n.down q = some l then none else n.down q) }

def attach (q l : ℕ) (id : ℤ) : Net :=
  { n with lowers := Function.update n.lowers q (l :: n.lowers q), ctl := Function.update n.ctl l (some (q,id)) }

def detach (q l : ℕ) : Net :=
  { n with
    lowers := Function.update n.lowers q ((n.lowers q).filter (· != l))
    ctl := Function.update n.ctl l none }

/- A stream that is linked below is the route down. -/
def link (q l : ℕ) (id : ℤ) : Net := (n.attach q l id).route q l

def unlink (q l : ℕ) : Net := (n.unroute q l).detach q l

def ioctl (q : ℕ) : Icmd → Net
  | .link none _ | .unlink none | .up none | .down none | .other => n.reply (.nak EINVAL)
  | .link (some lk) mem => if mem then (n.link q lk.2 lk.1).reply .ack else n.reply (.nak ENOMEM)
  | .unlink (some id) => (n.lower q id).elim (n.reply (.nak EINVAL)) fun l => (n.unlink q l).reply .ack
  | .up (some id) => n.reply (if (n.lower q id).isSome then .ack else .nak EINVAL)
  | .down (some id) => (n.lower q id).elim (n.reply (.nak EINVAL)) fun l => (n.route q l).reply .ack

def close (q m : ℕ) : Net :=
  { n with
    streams := n.streams.filter (· != q)
    minor := Function.update n.minor q none
    marked := Function.update n.marked m false }

/- Where a message of a stream goes. -/
def downq (q : ℕ) : Outq := (n.down q).elim (.rd q) .wr

def step : Op → Net
  | .opens q clone minor mem => n.opened q (if clone then firstMinor n.marked else minor) mem
  | .ioctl q cmd => if (n.minor q).isSome then n.ioctl q cmd else n.reply .freed
  | .close q => ((n.minor q).elim n (n.close q)).reply (.ret 0)
  | .wput q => n.reply (if (n.minor q).isSome then .forward (n.downq q) else .freed)
  | .lrput l => n.reply ((n.ctl l).elim .freed fun c => .forward (.rd c.1))

def init : Net := ⟨[],fun _ => none,fun _ => false,fun _ => [],fun _ => none,fun _ => none,[]⟩

end Net

/- What the stream head keeps to. A minor is that of one stream, which an open of it leads to, a clone open makes a new
stream. A stream is linked below one control stream, with a mux id of its own, and it is unlinked before the control
stream is closed. -/
def Guard (n : Net) : Op → Prop
  | .opens q clone minor _ =>
      if clone then n.minor q = none
      else (∀ q' ∈ n.streams, n.minor q' = some minor → q' = q) ∧ (n.minor q = none ∨ n.minor q = some minor)
  | .ioctl q (.link (some lk) _) => n.ctl lk.2 = none ∧ ∀ l ∈ n.lowers q, n.ctl l ≠ some (q,lk.1)
  | .close q => n.lowers q = []
  | .ioctl _ _ | .wput _ | .lrput _ => True

instance Guard.decidable (n : Net) : ∀ op, Decidable (Guard n op)
  | .opens _ _ _ _ => inferInstanceAs (Decidable (ite _ _ _))
  | .ioctl _ (.link (some _) _) => inferInstanceAs (Decidable (_ ∧ ∀ _ ∈ _, _))
  | .close _ => inferInstanceAs (Decidable (_ = _))
  | .ioctl _ (.link none _) | .ioctl _ (.unlink _) | .ioctl _ (.up _) | .ioctl _ (.down _) | .ioctl _ .other | .wput _
  | .lrput _ => inferInstanceAs (Decidable True)

/- The streams have their minors to themselves, and the routes are between streams that are linked. -/
structure Sane (n : Net) : Prop where
  streams : ∀ q, q ∈ n.streams ↔ (n.minor q).isSome
  minors : ∀ q q' m, n.minor q = some m → n.minor q' = some m → q = q'
  marked : ∀ q m, n.minor q = some m → n.marked m = true ∧ m < MAXMUX
  linked : ∀ l c id, n.ctl l = some (c,id) → (n.minor c).isSome ∧ l ∈ n.lowers c
  lowers : ∀ c, (n.minor c).isSome → ∀ l ∈ n.lowers c, ∃ id, n.ctl l = some (c,id)
  ids : ∀ l l' c id, n.ctl l = some (c,id) → n.ctl l' = some (c,id) → l = l'
  down : ∀ q l, (n.minor q).isSome → n.down q = some l → ∃ id, n.ctl l = some (q,id)

variable {n : Net} {op : Op} {q l m : ℕ} {id : ℤ}

theorem Sane.init : Sane Net.init where
  streams _ := Iff.intro (fun h => by cases h) (fun h => by cases h)
  minors _ _ _ h := by cases h
  marked _ _ h := by cases h
  linked _ _ _ h := by cases h
  lowers _ h := by cases h
  ids _ _ _ _ h := by cases h
  down _ _ h := by cases h

theorem Sane.lower_iff (h : Sane n) : n.lower q id = some l ↔ n.ctl l = some (q,id) := by
  constructor
  · intro hl
    exact beq_iff_eq.mp (List.find?_some (p := fun l => n.ctl l == some (q,id)) hl)
  · intro hc
    have hmem := (h.linked l q id hc).2
    cases hf : n.lower q id with
    | none => exact absurd (beq_iff_eq.mpr hc) (List.find?_eq_none.mp hf l hmem)
    | some l' =>
      have hc' : n.ctl l' = some (q,id) := beq_iff_eq.mp (List.find?_some (p := fun l => n.ctl l == some (q,id)) hf)
      rw [h.ids l' l q id hc' hc]

theorem Sane.lower_none (h : Sane n) : n.lower q id = none ↔ ∀ l, n.ctl l ≠ some (q,id) := by
  rw [Option.eq_none_iff_forall_ne_some]
  exact forall_congr' fun l => not_congr h.lower_iff

theorem firstMinor_free {minors : ℕ → Bool} (hm : firstMinor minors < MAXMUX) : minors (firstMinor minors) = false := by
  unfold firstMinor at hm ⊢
  cases hf : ((List.range (MAXMUX - 1)).map Nat.succ).find? fun dev => !minors dev with
  | none =>
    rw [hf] at hm
    exact absurd hm (Nat.lt_irrefl _)
  | some d => simpa using List.find?_some hf

theorem Sane.reply (h : Sane n) (r : Reply) : Sane (n.reply r) :=
  ⟨h.streams,h.minors,h.marked,h.linked,h.lowers,h.ids,h.down⟩

theorem Sane.mark (h : Sane n) (m : ℕ) : Sane (n.mark m) := by
  refine ⟨h.streams,h.minors,fun q x hx => ⟨?_,(h.marked q x hx).2⟩,h.linked,h.lowers,h.ids,h.down⟩
  by_cases he : x = m
  · rw [he]
    exact Function.update_self ..
  · exact (Function.update_of_ne he ..).trans (h.marked q x hx).1

/- A new stream takes a marked minor that no stream has. -/
theorem Sane.add (h : Sane n) (hq : n.minor q = none) (hm : n.marked m = true ∧ m < MAXMUX)
    (hf : ∀ q', n.minor q' ≠ some m) : Sane (n.add q m) := by
  have hne : ∀ {c}, (n.minor c).isSome → c ≠ q := by
    intro c hc he
    rw [he,hq] at hc
    cases hc
  refine ⟨fun x => ?_,fun x y k hx hy => ?_,fun x k hx => ?_,fun l c id hl => ?_,fun c hc l hl => ?_,h.ids,
    fun x l hx hl => ?_⟩
  · by_cases hx : x = q
    · simp [Net.add,hx]
    · simp [Net.add,hx,h.streams x]
  · by_cases hxq : x = q <;> by_cases hyq : y = q <;> simp only [Net.add,hxq,hyq,Function.update_self,ne_eq,
      not_false_eq_true,Function.update_of_ne,Option.some.injEq] at hx hy ⊢
    · exact absurd (hx ▸ hy) (hf y)
    · exact absurd (hy ▸ hx) (hf x)
    · exact h.minors x y k hx hy
  · by_cases hxq : x = q
    · obtain rfl : m = k := by simpa [Net.add,hxq] using hx
      exact hm
    · exact h.marked x k (by simpa [Net.add,hxq] using hx)
  · obtain ⟨hc,hmem⟩ := h.linked l c id hl
    have hcq := hne hc
    exact ⟨by simpa [Net.add,hcq] using hc,by simpa [Net.add,hcq] using hmem⟩
  · by_cases hcq : c = q
    · rw [hcq] at hl
      simp [Net.add] at hl
    · simp only [Net.add,ne_eq,hcq,not_false_eq_true,Function.update_of_ne] at hc hl
      exact h.lowers c hc l hl
  · by_cases hxq : x = q
    · rw [hxq] at hl
      simp [Net.add] at hl
    · simp only [Net.add,ne_eq,hxq,not_false_eq_true,Function.update_of_ne] at hx hl
      exact h.down x l hx hl

/- A minor that a stream may be opened on: no other stream has it. -/
theorem Guard.own {clone : Bool} {minor : ℕ} {mem : Bool} (h : Sane n) (hg : Guard n (.opens q clone minor mem))
    (hm : (if clone then firstMinor n.marked else minor) < MAXMUX) :
    ∀ q', n.minor q' = some (if clone then firstMinor n.marked else minor) → q' = q := by
  intro q' hq'
  cases clone with
  | true => exact absurd (h.marked q' _ hq').1 (Bool.eq_false_iff.mp (firstMinor_free hm))
  | false => exact hg.1 q' ((h.streams q').mpr (Option.isSome_iff_exists.mpr ⟨_,hq'⟩)) hq'

theorem Sane.opened (h : Sane n) {mem : Bool} (hown : m < MAXMUX → ∀ q', n.minor q' = some m → q' = q) :
    Sane (n.opened q m mem) := by
  unfold Net.opened
  split_ifs with hmax hq hmem
  · exact h.reply _
  · exact (h.mark _).reply _
  · have hnone := Option.not_isSome_iff_eq_none.mp hq
    refine ((h.mark _).add hnone ⟨Function.update_self ..,not_le.mp hmax⟩ fun q' hq' => ?_).reply _
    obtain rfl := hown (not_le.mp hmax) q' hq'
    exact absurd (hnone.symm.trans hq') (by simp)
  · exact (h.mark _).reply _

theorem Sane.route (h : Sane n) (hl : n.ctl l = some (q,id)) : Sane (n.route q l) := by
  refine ⟨h.streams,h.minors,h.marked,h.linked,h.lowers,h.ids,fun x y hx hy => ?_⟩
  by_cases hxq : x = q
  · subst hxq
    simp only [Net.route,Function.update_self,Option.some.injEq] at hy
    exact ⟨id,hy ▸ hl⟩
  · exact h.down x y hx (by simpa [Net.route,hxq] using hy)

/- A route that there is after it was taken away from `l` was there before, and leads elsewhere. -/
theorem Net.unroute_down {x y : ℕ} (hy : (n.unroute q l).down x = some y) : n.down x = some y ∧ (x = q → y ≠ l) := by
  by_cases hxq : x = q
  · subst hxq
    simp only [Net.unroute,Function.update_self] at hy
    split_ifs at hy with hd
    exact ⟨hy,fun _ he => hd (he ▸ hy)⟩
  · exact ⟨by simpa [Net.unroute,hxq] using hy,fun he => absurd he hxq⟩

theorem Sane.unroute (h : Sane n) (q l : ℕ) : Sane (n.unroute q l) :=
  ⟨h.streams,h.minors,h.marked,h.linked,h.lowers,h.ids,fun x y hx hy => h.down x y hx (Net.unroute_down hy).1⟩

theorem Sane.attach (h : Sane n) (hq : (n.minor q).isSome) (hl : n.ctl l = none)
    (hid : ∀ l ∈ n.lowers q, n.ctl l ≠ some (q,id)) : Sane (n.attach q l id) := by
  have hid' : ∀ x, n.ctl x ≠ some (q,id) := fun x hx => hid x (h.linked x q id hx).2 hx
  have hctl : ∀ {x c i}, n.ctl x = some (c,i) → x ≠ l := fun hx he => by simp [he,hl] at hx
  have hkeep : ∀ {x c i}, n.ctl x = some (c,i) → (n.attach q l id).ctl x = some (c,i) := fun hx => by
    simpa [Net.attach,hctl hx] using hx
  have hsplit : ∀ {x c i}, (n.attach q l id).ctl x = some (c,i) → x = l ∧ c = q ∧ i = id ∨ n.ctl x = some (c,i) := by
    intro x c i hx
    by_cases hxl : x = l
    · simp only [Net.attach,hxl,Function.update_self,Option.some.injEq,Prod.mk.injEq] at hx
      exact .inl ⟨hxl,hx.1.symm,hx.2.symm⟩
    · exact .inr (by simpa [Net.attach,hxl] using hx)
  refine ⟨h.streams,h.minors,h.marked,fun x c i hx => ?_,fun c hc x hx => ?_,fun x y c i hx hy => ?_,
    fun x y hx hy => (h.down x y hx hy).imp fun _ => hkeep⟩
  · obtain ⟨rfl,rfl,-⟩ | hx := hsplit hx
    · exact ⟨hq,by simp [Net.attach]⟩
    · obtain ⟨hc,hmem⟩ := h.linked x c i hx
      refine ⟨hc,?_⟩
      by_cases hcq : c = q
      · subst hcq
        simp [Net.attach,hmem]
      · simpa [Net.attach,hcq] using hmem
  · by_cases hcq : c = q
    · subst hcq
      simp only [Net.attach,Function.update_self,List.mem_cons] at hx
      obtain rfl | hx := hx
      · exact ⟨id,Function.update_self ..⟩
      · exact (h.lowers c hq x hx).imp fun _ => hkeep
    · simp only [Net.attach,ne_eq,hcq,not_false_eq_true,Function.update_of_ne] at hx
      exact (h.lowers c hc x hx).imp fun _ => hkeep
  · obtain ⟨rfl,rfl,rfl⟩ | hx' := hsplit hx
    · obtain ⟨rfl,-⟩ | hy' := hsplit hy
      · rfl
      · exact absurd hy' (hid' y)
    · obtain ⟨rfl,rfl,rfl⟩ | hy' := hsplit hy
      · exact absurd hx' (hid' x)
      · exact h.ids x y c i hx' hy'

theorem Sane.link (h : Sane n) (hq : (n.minor q).isSome) (hl : n.ctl l = none)
    (hid : ∀ l ∈ n.lowers q, n.ctl l ≠ some (q,id)) : Sane (n.link q l id) :=
  (h.attach hq hl hid).route (Function.update_self ..)

/- What is under another stream is another stream. -/
theorem Net.ne_of_ctl {x c : ℕ} {i : ℤ} (hl : n.ctl l = some (q,id)) (hc : c ≠ q) (hx : n.ctl x = some (c,i)) :
    x ≠ l := by
  rintro rfl
  exact hc (Prod.mk.inj (Option.some.inj (hx.symm.trans hl))).1

theorem Sane.detach (h : Sane n) (hl : n.ctl l = some (q,id)) (hd : n.down q ≠ some l) : Sane (n.detach q l) := by
  have hkeep : ∀ {x c i}, x ≠ l → n.ctl x = some (c,i) → (n.detach q l).ctl x = some (c,i) := fun hxl hx => by
    simpa [Net.detach,hxl] using hx
  have hback : ∀ {x c i}, (n.detach q l).ctl x = some (c,i) → x ≠ l ∧ n.ctl x = some (c,i) := by
    intro x c i hx
    by_cases hxl : x = l
    · simp [Net.detach,hxl] at hx
    · exact ⟨hxl,by simpa [Net.detach,hxl] using hx⟩
  refine ⟨h.streams,h.minors,h.marked,fun x c i hx => ?_,fun c hc x hx => ?_,fun x y c i hx hy =>
    h.ids x y c i (hback hx).2 (hback hy).2,fun x y hx hy => ?_⟩
  · obtain ⟨hxl,hx⟩ := hback hx
    obtain ⟨hc,hmem⟩ := h.linked x c i hx
    refine ⟨hc,?_⟩
    by_cases hcq : c = q
    · subst hcq
      simp [Net.detach,hmem,hxl]
    · simpa [Net.detach,hcq] using hmem
  · by_cases hcq : c = q
    · subst hcq
      simp only [Net.detach,Function.update_self,List.mem_filter,bne_iff_ne,ne_eq] at hx
      exact (h.lowers c hc x hx.1).imp fun _ => hkeep hx.2
    · simp only [Net.detach,ne_eq,hcq,not_false_eq_true,Function.update_of_ne] at hx
      exact (h.lowers c hc x hx).imp fun _ hx => hkeep (Net.ne_of_ctl hl hcq hx) hx
  · obtain ⟨i,hi⟩ := h.down x y hx hy
    refine ⟨i,hkeep ?_ hi⟩
    by_cases hxq : x = q
    · rintro rfl
      exact hd (hxq ▸ hy)
    · exact Net.ne_of_ctl hl hxq hi

theorem Net.unroute_ne : (n.unroute q l).down q ≠ some l := fun hd => (Net.unroute_down hd).2 rfl rfl

theorem Sane.unlink (h : Sane n) (hl : n.ctl l = some (q,id)) : Sane (n.unlink q l) :=
  (h.unroute q l).detach hl Net.unroute_ne

theorem Sane.close (h : Sane n) (hm : n.minor q = some m) (hq : n.lowers q = []) : Sane (n.close q m) := by
  have hback : ∀ {x k}, (n.close q m).minor x = some k → x ≠ q ∧ n.minor x = some k := by
    intro x k hx
    by_cases hxq : x = q
    · simp [Net.close,hxq] at hx
    · exact ⟨hxq,by simpa [Net.close,hxq] using hx⟩
  have hbacks : ∀ {x}, ((n.close q m).minor x).isSome → (n.minor x).isSome := by
    intro x hx
    obtain ⟨k,hk⟩ := Option.isSome_iff_exists.mp hx
    exact Option.isSome_iff_exists.mpr ⟨k,(hback hk).2⟩
  refine ⟨fun x => ?_,fun x y k hx hy => h.minors x y k (hback hx).2 (hback hy).2,fun x k hx => ?_,
    fun x c i hx => ?_,fun c hc x hx => h.lowers c (hbacks hc) x hx,h.ids,fun x y hx hy => h.down x y (hbacks hx) hy⟩
  · by_cases hxq : x = q
    · simp [Net.close,hxq]
    · simp [Net.close,hxq,h.streams x]
  · obtain ⟨hxq,hx⟩ := hback hx
    have hk : k ≠ m := fun he => hxq (h.minors x q m (he ▸ hx) hm)
    exact ⟨by simpa [Net.close,hk] using (h.marked x k hx).1,(h.marked x k hx).2⟩
  · obtain ⟨hc,hmem⟩ := h.linked x c i hx
    have hcq : c ≠ q := by
      rintro rfl
      rw [hq] at hmem
      cases hmem
    exact ⟨by simpa [Net.close,hcq] using hc,hmem⟩

theorem Sane.ioctl (h : Sane n) {cmd : Icmd} (hq : (n.minor q).isSome) (hg : Guard n (.ioctl q cmd)) :
    Sane (n.ioctl q cmd) := by
  have hfound : ∀ {id} {f : ℕ → Net}, (∀ l, n.ctl l = some (q,id) → Sane (f l)) →
      Sane ((n.lower q id).elim (n.reply (.nak EINVAL)) f) := by
    intro id f hf
    cases hl : n.lower q id with
    | none => exact h.reply _
    | some l => exact hf l (h.lower_iff.mp hl)
  cases cmd with
  | link lk mem =>
    cases lk with
    | none => exact h.reply _
    | some lk =>
      cases mem with
      | false => exact h.reply _
      | true => exact (h.link hq hg.1 hg.2).reply _
  | unlink id =>
    cases id with
    | none => exact h.reply _
    | some id => exact hfound fun l hl => (h.unlink hl).reply _
  | up id => cases id <;> exact h.reply _
  | down id =>
    cases id with
    | none => exact h.reply _
    | some id => exact hfound fun l hl => (h.route hl).reply _
  | other => exact h.reply _

theorem Sane.step (h : Sane n) (hg : Guard n op) : Sane (n.step op) := by
  cases op with
  | opens q clone minor mem => exact h.opened (Guard.own h hg)
  | ioctl q cmd =>
    rw [Net.step]
    split_ifs with hq
    · exact h.ioctl hq hg
    · exact h.reply _
  | close q =>
    rw [Net.step]
    cases hm : n.minor q with
    | none => exact h.reply _
    | some m => exact (h.close hm hg).reply _
  | wput q => exact h.reply _
  | lrput l => exact h.reply _

end CSLiS.Minimux
