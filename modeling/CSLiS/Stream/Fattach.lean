import CSLiS.Lib.Exec

/-!
# Streams attached to paths (head/linux-mdep.c)

`attempts` counts the unmounts asked for; `ok` says which of them the kernel does. A path that is being unmounted
cannot be unmounted again: when `lis_doclose` asks for that, which it does for a hung-up stream with several paths,
nothing happens. `closed` are the instances whose open was closed.
-/

namespace CSLiS.Stream.Fattach
open Lib.Exec

/- `lis_fattach_t`; `umount_begin` clears `head` and `file`. -/
structure Instance where
  id : ℕ
  head : Option ℕ
  file : Bool
  deriving DecidableEq, Repr

/- The newest instance is the first one. -/
structure Fattaches where
  list : List Instance
  fattachcnt : ℕ → ℤ
  strattach : ℕ → Bool
  listed : ℤ
  attempts : ℕ
  closed : List ℕ

namespace Fattaches

variable (s : Fattaches) (ok : ℕ → Bool)

def init : Fattaches := ⟨[],fun _ => 0,fun _ => false,0,0,[]⟩

/-- `lis_fs_fattach_sb` (`linux-mdep.c:1576-1690`) and `lis_fattach_insert` (`linux-mdep.c:3840-3855`) -/
def attach (id h : ℕ) : Fattaches :=
  { s with
    list := ⟨id,some h,true⟩ :: s.list
    fattachcnt := Function.update s.fattachcnt h (s.fattachcnt h + 1)
    strattach := Function.update s.strattach h true
    listed := s.listed + 1 }

/- `lis_doclose` of the open that was taken for the instance. -/
def doclose (id : ℕ) : Fattaches := { s with closed := s.closed ++ [id] }

/-- `lis_super_umount_begin` (`linux-mdep.c:1955-2065`); the instance as it is then. -/
def superUmountBegin (data : Instance) : Fattaches × Instance :=
  match data.head with
  | none => (s,data)
  | some h =>
      let cnt := s.fattachcnt h - 1
      let s := { s with
        fattachcnt := Function.update s.fattachcnt h cnt
        strattach := if cnt ≤ 0 then Function.update s.strattach h false else s.strattach }
      (s.doclose data.id,{ data with head := none, file := false })

/-- `lis_fattach_remove` (`linux-mdep.c:3858-3871`) -/
def remove (data : Instance) : Fattaches :=
  { s with list := s.list.filter (·.id ≠ data.id), listed := s.listed - 1 }

/-- `lis_super_put_super` (`linux-mdep.c:2067-2120`) -/
def superPutSuper (data : Instance) : Fattaches :=
  let r := if data.file then s.superUmountBegin data else (s,data)
  r.1.remove data

/-- `lis_fdetach` (`linux-mdep.c:3503-3538`): the kernel calls both routines when it unmounts. -/
def lisFdetach (data : Instance) : Fattaches :=
  let t := { s with attempts := s.attempts + 1 }
  if ok s.attempts then
    let r := t.superUmountBegin data
    r.1.superPutSuper r.2
  else t

/- The loop of `lis_fdetach_stream`. -/
def streamLoop (h : ℕ) : ℕ → Fattaches → Fattaches
  | 0, s => s
  | n + 1, s => match s.list with
      | [] => s
      | data :: _ =>
          if data.head = some h then
            let s := s.lisFdetach ok data
            if s.fattachcnt h = 0 then s else streamLoop h n s
          else streamLoop h n s

/-- `lis_fdetach_stream` (`linux-mdep.c:3551-3601`) -/
def fdetachStream (h : ℕ) : Fattaches :=
  if s.fattachcnt h = 0 then s else streamLoop ok h s.listed.toNat s

/- The loop of `lis_fdetach_all`. -/
def allLoop : ℕ → Fattaches → Fattaches
  | 0, s => s
  | n + 1, s => match s.list with
      | [] => s
      | data :: _ => allLoop n (s.lisFdetach ok data)

/-- `lis_fdetach_all` (`linux-mdep.c:3611-3644`) -/
def fdetachAll : Fattaches := allLoop ok s.listed.toNat s

end Fattaches

/-! ### What is claimed -/

/- The instance belongs to the stream head. -/
def Instance.of (h : ℕ) (d : Instance) : Bool := d.head == some h

/- The counts are right: `sd_fattachcnt`, STRATTACH and `num_fattaches_listed`. -/
structure Consistent (s : Fattaches) : Prop where
  heads : ∀ d ∈ s.list, ∃ h, d.head = some h
  ids : (s.list.map Instance.id).Nodup
  cnt : ∀ h, s.fattachcnt h = s.list.countP (·.of h)
  flag : ∀ h, s.strattach h = true ↔ 0 < s.fattachcnt h
  listed : s.listed = s.list.length

/- What `lis_fdetach_stream` is for. -/
structure Detached (h : ℕ) (s t : Fattaches) : Prop where
  none : ∀ d ∈ t.list, d.of h = false
  others : t.list = s.list.filter fun d => !d.of h
  counts : Consistent t
  closed : t.closed = s.closed ++ (s.list.filter (·.of h)).map Instance.id

/- How many of the next `n` unmounts succeed. -/
def succeed (ok : ℕ → Bool) (c n : ℕ) : ℕ := (List.range n).countP fun i => ok (c + i)

/-- The instances of the head are together at the front, and enough unmounts succeed. -/
def Front (ok : ℕ → Bool) (h : ℕ) (s : Fattaches) : Prop :=
  (∀ d ∈ s.list.dropWhile (·.of h), d.of h = false) ∧
    (s.list.takeWhile (·.of h)).length ≤ succeed ok s.attempts s.list.length

variable {s t : Fattaches} {ok : ℕ → Bool} {d : Instance} {l : List Instance} {h id n c : ℕ}

theorem succeed_succ (ok : ℕ → Bool) (c n : ℕ) :
    succeed ok c (n + 1) = (if ok c then 1 else 0) + succeed ok (c + 1) n := by
  have hshift : (fun i => ok (c + i)) ∘ Nat.succ = fun i => ok (c + 1 + i) := by
    funext i
    simp only [Function.comp_apply,Nat.succ_eq_add_one]
    congr 1
    omega
  rw [succeed,List.range_succ_eq_map,List.countP_cons,List.countP_map,hshift,Nat.add_comm]
  rfl

theorem of_iff : d.of h = true ↔ d.head = some h := beq_iff_eq

theorem init_consistent : Consistent Fattaches.init := by
  refine ⟨fun d hd => absurd hd List.not_mem_nil,List.nodup_nil,fun h => rfl,fun h => ?_,rfl⟩
  simp [Fattaches.init]

theorem attach_consistent (hs : Consistent s) (hid : id ∉ s.list.map Instance.id) : Consistent (s.attach id h) := by
  obtain ⟨hheads,hids,hcnt,hflag,hlisted⟩ := hs
  refine ⟨fun d hd => ?_,List.nodup_cons.mpr ⟨hid,hids⟩,fun x => ?_,fun x => ?_,?_⟩
  · rcases List.mem_cons.mp hd with rfl | hd
    · exact ⟨h,rfl⟩
    · exact hheads d hd
  · rcases eq_or_ne x h with rfl | hne
    · simp [Fattaches.attach,hcnt,Instance.of]
    · simp [Fattaches.attach,hcnt,Instance.of,hne,Ne.symm hne]
  · rcases eq_or_ne x h with rfl | hne
    · have := hcnt x
      simp [Fattaches.attach]
      omega
    · simp [Fattaches.attach,hne,hflag]
  · simp [Fattaches.attach,hlisted]

/- An unmount that succeeds removes the instance and closes its open. -/
theorem detach_first (hs : Consistent s) (hl : s.list = d :: l) (hok : ok s.attempts = true) :
    (s.lisFdetach ok d).list = l ∧ (s.lisFdetach ok d).closed = s.closed ++ [d.id] ∧
      (s.lisFdetach ok d).attempts = s.attempts + 1 ∧ Consistent (s.lisFdetach ok d) := by
  obtain ⟨hheads,hids,hcnt,hflag,hlisted⟩ := hs
  rw [hl] at hheads hids hcnt hlisted
  obtain ⟨h,hh⟩ := hheads d (List.mem_cons_self ..)
  obtain ⟨hd,hids⟩ := List.nodup_cons.mp hids
  have hfilter : (d :: l).filter (fun x => decide (x.id ≠ d.id)) = l := by
    rw [List.filter_cons_of_neg (by simp)]
    refine List.filter_eq_self.mpr fun x hx => decide_eq_true fun he => hd ?_
    exact he ▸ List.mem_map_of_mem hx
  have heq : s.lisFdetach ok d = ⟨l,Function.update s.fattachcnt h (s.fattachcnt h - 1),
      if s.fattachcnt h - 1 ≤ 0 then Function.update s.strattach h false else s.strattach,s.listed - 1,
      s.attempts + 1,s.closed ++ [d.id]⟩ := by
    simp only [Fattaches.lisFdetach,hok,if_true,Fattaches.superUmountBegin,hh,Fattaches.superPutSuper,
      Fattaches.remove,Fattaches.doclose,hl,Bool.false_eq_true,if_false,hfilter]
  rw [heq]
  refine ⟨rfl,rfl,rfl,fun x hx => hheads x (List.mem_cons_of_mem _ hx),hids,fun x => ?_,fun x => ?_,?_⟩
  · have hx := hcnt x
    rw [List.countP_cons] at hx
    rcases eq_or_ne x h with rfl | hne
    · simp [Instance.of,hh] at hx ⊢
      omega
    · have : d.head ≠ some x := fun hc => hne (Option.some.inj (hc.symm.trans hh))
      simp [Instance.of,this,hne] at hx ⊢
      omega
  · have hx := hflag x
    rcases eq_or_ne x h with rfl | hne
    · have := hcnt x
      rw [List.countP_cons] at this
      simp [Instance.of,hh] at this
      simp only [Function.update_self]
      split_ifs with h0
      · simp
        omega
      · rw [hx]
        omega
    · simp only [Function.update_of_ne hne]
      split_ifs
      · rw [Function.update_of_ne hne,hx]
      · exact hx
  · dsimp only
    rw [hlisted,List.length_cons]
    omega

theorem detach_fails (hok : ok s.attempts = false) : s.lisFdetach ok d = { s with attempts := s.attempts + 1 } := by
  simp [Fattaches.lisFdetach,hok]

theorem Consistent.attempts (hs : Consistent s) (n : ℕ) : Consistent { s with attempts := n } :=
  ⟨hs.heads,hs.ids,hs.cnt,hs.flag,hs.listed⟩

theorem Consistent.front_none (hs : Consistent s) (h0 : s.fattachcnt h = 0) : s.list.takeWhile (·.of h) = [] := by
  have hc := hs.cnt h
  rw [h0] at hc
  have hz : s.list.countP (·.of h) = 0 := by omega
  cases hm : s.list with
  | nil => rfl
  | cons e m =>
    rw [hm] at hz
    exact List.takeWhile_cons_of_neg (List.countP_eq_zero.mp hz e (List.mem_cons_self ..))

/- The loop takes instances of the head off the front, as many as unmounts succeed. -/
theorem streamLoop_spec (hs : Consistent s) (h n : ℕ) :
    let k := min (s.list.takeWhile (·.of h)).length (succeed ok s.attempts n)
    (Fattaches.streamLoop ok h n s).list = s.list.drop k ∧
      (Fattaches.streamLoop ok h n s).closed = s.closed ++ (s.list.take k).map Instance.id ∧
      Consistent (Fattaches.streamLoop ok h n s) := by
  dsimp only
  induction n generalizing s with
  | zero =>
    have h0 : succeed ok s.attempts 0 = 0 := rfl
    simp [Fattaches.streamLoop,h0,hs]
  | succ n ih =>
    rw [succeed_succ,Fattaches.streamLoop]
    cases hl : s.list with
    | nil => simp [hl,hs]
    | cons d l =>
      dsimp only
      by_cases hd : d.head = some h
      · have hof : d.of h = true := of_iff.mpr hd
        rw [if_pos hd,List.takeWhile_cons_of_pos hof,List.length_cons]
        cases hok : ok s.attempts with
        | true =>
          obtain ⟨htl,htc,hta,hts⟩ := detach_first hs hl hok
          simp only [if_true,Nat.add_comm 1]
          rw [Nat.add_min_add_right,List.drop_succ_cons,List.take_succ_cons,List.map_cons]
          split_ifs with hcnt
          · -- it was the last one
            have hnone := hts.front_none hcnt
            rw [htl] at hnone
            rw [hnone,List.length_nil,Nat.zero_min]
            exact ⟨htl,htc,hts⟩
          · obtain ⟨h1,h2,h3⟩ := ih hts
            rw [htl,hta] at h1 h2
            refine ⟨h1,?_,h3⟩
            rw [h2,htc,List.append_assoc]
            rfl
        | false =>
          have hpos : s.fattachcnt h ≠ 0 := by
            have := hs.cnt h
            rw [hl,List.countP_cons_of_pos hof] at this
            omega
          rw [detach_fails hok]
          simp only [if_neg hpos,Bool.false_eq_true,if_false,Nat.zero_add]
          simpa only [hl,List.takeWhile_cons_of_pos hof,List.length_cons] using ih (hs.attempts (s.attempts + 1))
      · have hof : ¬ d.of h = true := fun hc => hd (of_iff.mp hc)
        have := ih hs
        rw [hl,List.takeWhile_cons_of_neg hof] at this
        rw [if_neg hd,List.takeWhile_cons_of_neg hof,List.length_nil,Nat.zero_min]
        rw [List.length_nil,Nat.zero_min] at this
        exact this

theorem fdetachStream_spec (hs : Consistent s) (h : ℕ) :
    let k := min (s.list.takeWhile (·.of h)).length (succeed ok s.attempts s.list.length)
    (s.fdetachStream ok h).list = s.list.drop k ∧
      (s.fdetachStream ok h).closed = s.closed ++ (s.list.take k).map Instance.id ∧
      Consistent (s.fdetachStream ok h) := by
  dsimp only
  unfold Fattaches.fdetachStream
  split_ifs with h0
  · rw [hs.front_none h0,List.length_nil,Nat.zero_min]
    simp [hs]
  · have := @streamLoop_spec s ok hs h s.listed.toNat
    rw [hs.listed,Int.toNat_natCast] at this
    rw [hs.listed,Int.toNat_natCast]
    exact this

/- All unmounts succeed. -/
theorem allLoop_spec (hs : Consistent s) (hok : ∀ i, ok i = true) (n : ℕ) :
    (Fattaches.allLoop ok n s).list = s.list.drop n ∧ Consistent (Fattaches.allLoop ok n s) := by
  induction n generalizing s with
  | zero => exact ⟨rfl,hs⟩
  | succ n ih =>
    rw [Fattaches.allLoop]
    cases hl : s.list with
    | nil => exact ⟨hl,hs⟩
    | cons d l =>
      obtain ⟨htl,-,-,hts⟩ := detach_first hs hl (hok s.attempts)
      have := ih hts
      rwa [htl] at this

theorem fdetachAll_spec (hs : Consistent s) (hok : ∀ i, ok i = true) : (s.fdetachAll ok).list = [] := by
  rw [Fattaches.fdetachAll,hs.listed,Int.toNat_natCast,(allLoop_spec hs hok _).1,List.drop_length]

theorem filter_front (hrest : ∀ d ∈ l.dropWhile (·.of h), d.of h = false) :
    l.filter (·.of h) = l.takeWhile (·.of h) ∧ (l.filter fun d => !d.of h) = l.dropWhile (·.of h) := by
  have hfront : ∀ d ∈ l.takeWhile (·.of h), d.of h = true := fun d hd => List.mem_takeWhile_imp hd
  constructor
  · conv_lhs => rw [← @List.takeWhile_append_dropWhile _ (·.of h) l]
    rw [List.filter_append,List.filter_eq_self.mpr hfront,
      List.filter_eq_nil_iff.mpr fun d hd => by rw [hrest d hd]; exact Bool.false_ne_true,List.append_nil]
  · conv_lhs => rw [← @List.takeWhile_append_dropWhile _ (·.of h) l]
    rw [List.filter_append,List.filter_eq_nil_iff.mpr fun d hd => by rw [hfront d hd]; exact Bool.false_ne_true,
      List.filter_eq_self.mpr fun d hd => by rw [hrest d hd]; rfl,List.nil_append]

theorem drop_front (l : List Instance) (h : ℕ) :
    l.drop (l.takeWhile (·.of h)).length = l.dropWhile (·.of h) ∧
      l.take (l.takeWhile (·.of h)).length = l.takeWhile (·.of h) := by
  have hd : ∀ a b : List Instance, a ++ b = l → l.drop a.length = b ∧ l.take a.length = a := by
    rintro a b rfl
    exact ⟨List.drop_left ..,List.take_left ..⟩
  exact hd _ _ List.takeWhile_append_dropWhile

/-- `lis_fdetach_stream` does what it is for just when the instances of the head are together at the front and enough
unmounts succeed; `lis_fdetach_all` does when none fails. -/
theorem fdetach_iff (s : Fattaches) (ok : ℕ → Bool) (h : ℕ) (hs : Consistent s) :
    (Detached h s (s.fdetachStream ok h) ↔ Front ok h s) ∧ ((∀ i, ok i = true) → (s.fdetachAll ok).list = []) := by
  refine ⟨?_,fdetachAll_spec hs⟩
  obtain ⟨hlist,hclosed,hcons⟩ := @fdetachStream_spec s ok hs h
  obtain ⟨hdrop,htake⟩ := drop_front s.list h
  constructor
  · rintro ⟨hnone,-,-,-⟩
    have hle : (s.list.takeWhile (·.of h)).length ≤ succeed ok s.attempts s.list.length := by
      by_contra hlt
      rw [hlist,Nat.min_eq_right (by omega)] at hnone
      -- the next instance is one of the head
      obtain ⟨d,hd⟩ : ∃ d, (s.list.takeWhile (·.of h))[succeed ok s.attempts s.list.length]? = some d :=
        ⟨_,List.getElem?_eq_getElem (by omega)⟩
      have hof := List.mem_takeWhile_imp (List.mem_of_getElem? hd)
      have hat : s.list[succeed ok s.attempts s.list.length]? = some d := by
        rw [← htake,List.getElem?_take_of_lt (by omega)] at hd
        exact hd
      have hmem : d ∈ s.list.drop (succeed ok s.attempts s.list.length) := by
        refine List.mem_of_getElem? (i := 0) ?_
        rw [List.getElem?_drop]
        exact hat
      exact Bool.noConfusion ((hnone d hmem).symm.trans hof)
    rw [hlist,Nat.min_eq_left hle,hdrop] at hnone
    exact ⟨hnone,hle⟩
  · rintro ⟨hrest,hle⟩
    rw [Nat.min_eq_left hle] at hlist hclosed
    rw [hdrop] at hlist
    rw [htake] at hclosed
    obtain ⟨hf,hn⟩ := filter_front hrest
    exact ⟨by rw [hlist]; exact hrest,by rw [hlist,hn],hcons,by rw [hclosed,hf]⟩

/- Two paths of the head 7, and below them one of the head 8. -/
def twoPaths : Fattaches := ((Fattaches.init.attach 0 8).attach 1 7).attach 2 7

theorem twoPaths_consistent : Consistent twoPaths :=
  attach_consistent (attach_consistent (attach_consistent init_consistent (by decide)) (by decide)) (by decide)

theorem fdetach_iff_twoPaths : (Detached 7 twoPaths (twoPaths.fdetachStream (fun i => i ≠ 0) 7) ↔
      Front (fun i => i ≠ 0) 7 twoPaths) ∧
    ((∀ i, (fun i => decide (i ≠ 0)) i = true) → (twoPaths.fdetachAll fun i => i ≠ 0).list = []) :=
  fdetach_iff twoPaths _ 7 twoPaths_consistent

/- The newest path is that of another head. -/
theorem behind_another : ¬ ∀ (s : Fattaches) (ok : ℕ → Bool) (h : ℕ), Consistent s → (∀ i, ok i = true) →
    Detached h s (s.fdetachStream ok h) := by
  intro hall
  have hnone := (hall twoPaths (fun _ => true) 8 twoPaths_consistent fun _ => rfl).none ⟨0,some 8,true⟩ (by decide)
  exact absurd hnone (by decide)

end CSLiS.Stream.Fattach
