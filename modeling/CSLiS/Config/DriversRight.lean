import CSLiS.Config.Drivers

/-!
# Which driver lines leave the configuration consistent
-/

namespace CSLiS.Config
open Lib.Exec

/- Name and prefix are the identifiers of the line, cut to 49 characters, with a NUL behind them. -/
def Driver.Named (dp : Driver) (d : Decl) : Prop :=
  (nul ∈ dp.name ∧ cstr dp.name = d.name.take 49) ∧ nul ∈ dp.drvPrefix ∧ cstr dp.drvPrefix = d.drvPrefix.take 49

def Driver.instances (dp : Driver) : Finset ℕ := Finset.Ico dp.instNr (dp.instNr + dp.nmajors)

structure Consistent (drivers : List Driver) : Prop where
  owned : ∀ dp ∈ drivers, dp.major.length = dp.nmajors ∧ 0 < dp.nmajors
  enough : ∀ dp ∈ drivers, ∀ m < dp.nminors, major m < dp.nmajors
  unshared : (drivers.flatMap (·.major)).Nodup
  instances : drivers.Pairwise fun a b => a.prefixStr = b.prefixStr → Disjoint a.instances b.instances
  majorsNames : (drivers.map Driver.majorsName).Nodup
  cmajorNames : (drivers.flatMap Driver.cmajorNames).Nodup

/- A line about which an error is printed is rejected. -/
structure Right (s : Conf) (l : Line) (t : Conf) : Prop where
  consistent : Consistent t.drivers
  rejected : t.errors ≠ s.errors → t.drivers = s.drivers ∧ t.majors = s.majors
  added : t.drivers = s.drivers ∨
    ∃ d dp, parseDriver l.nextp = .ok d ∧ t.drivers = s.drivers ++ [dp] ∧ dp.Named d

/- The majors that the line asks for can be had. -/
def Decl.accepted (d : Decl) (s : Conf) : Bool :=
  (if d.count = 1 then d.major0.all fun m => !s.majorInUse m else d.major0.isNone) &&
    decide (s.majors.length + d.count ≤ 256)

/- Only a prefix that a NUL of the frame ends has 49 characters; there is a minor, and there are majors for all; no
other prefix is the same in capitals. -/
def Decl.Good (d : Decl) (s : Conf) (l : Line) : Prop :=
  (d.drvPrefix.length < 49 ∨ l.slot = nul) ∧
    (0 < d.nminors ∧ d.nminors ≤ if d.nmajors = 0 then 2 ^ 20 else 256 * d.nmajors) ∧
    ∀ dp ∈ s.drivers, raise dp.prefixStr = raise (d.drvPrefix.take 49) → dp.prefixStr ≠ ['-'] →
      d.drvPrefix.take 49 ≠ ['-'] → dp.prefixStr = d.drvPrefix.take 49

def Guard (s : Conf) (l : Line) : Prop := ∀ d, parseDriver l.nextp = .ok d → d.accepted s = true → d.Good s l

/-! ### Tokens and buffers -/

theorem nul_not_graphic : graphic nul = false := rfl

theorem nul_notMem_token (p : List Char) : nul ∉ (getNext p).token := fun h =>
  Bool.false_ne_true (nul_not_graphic.symm.trans (List.mem_takeWhile_imp (List.mem_of_mem_take h)))

theorem identArg_ok {err : List Char → Err} {p : List Char} {r : List Char × List Char}
    (h : identArg err p = .ok r) : nul ∉ r.1 := by
  simp only [identArg] at h
  split at h
  · cases h
    exact nul_notMem_token p
  · cases h

theorem parseDriver_ok {p : List Char} {d : Decl} (h : parseDriver p = .ok d) : nul ∉ d.name ∧ nul ∉ d.drvPrefix := by
  simp only [parseDriver, bind, Except.bind] at h
  split at h
  · cases h
  rename_i name hname
  split at h
  · cases h
  rename_i pre hpre
  split at h
  · cases h
  split at h
  · cases h
  split at h
  · cases h
  cases h
  exact ⟨identArg_ok hname,identArg_ok hpre⟩

theorem ne_nul {t : List Char} (ht : nul ∉ t) : ∀ c ∈ t, (c != nul) = true :=
  fun _ hc => bne_iff_ne.mpr fun he => ht (he ▸ hc)

theorem cstr_append_nul {t : List Char} (ht : nul ∉ t) (r : List Char) : cstr (t ++ nul :: r) = t := by
  rw [cstr,List.takeWhile_append_of_pos (ne_nul ht),List.takeWhile_cons_of_neg (by simp),List.append_nil]

theorem cstr_eq_self {t : List Char} (ht : nul ∉ t) : cstr t = t :=
  List.takeWhile_eq_self_iff.mpr (ne_nul ht)

theorem nul_notMem_cstr (t : List Char) : nul ∉ cstr t := fun h => by
  have := List.mem_takeWhile_imp h
  simp at this

/- Room for the NUL. -/
theorem strncpy_of_lt {n : ℕ} {src : List Char} (h : (cstr src).length < n) :
    strncpy n src = cstr src ++ nul :: List.replicate (n - (cstr src).length - 1) nul := by
  have htake : (cstr src).take n = cstr src := List.take_of_length_le h.le
  simp only [strncpy,htake]
  rw [← List.replicate_succ]
  congr 2
  omega

/- No room. -/
theorem strncpy_of_le {n : ℕ} {src : List Char} (h : n ≤ (cstr src).length) : strncpy n src = (cstr src).take n := by
  have hlen : ((cstr src).take n).length = n := List.length_take_of_le h
  simp [strncpy,hlen]

theorem cstr_strncpy_append {n : ℕ} {src : List Char} (h : (cstr src).length < n) (r : List Char) :
    cstr (strncpy n src ++ r) = cstr src := by
  rw [strncpy_of_lt h,List.append_assoc,List.cons_append]
  exact cstr_append_nul (nul_notMem_cstr src) _

theorem cstr_strncpy {n : ℕ} {src : List Char} (h : (cstr src).length < n) :
    nul ∈ strncpy n src ∧ cstr (strncpy n src) = cstr src := by
  refine ⟨by simp [strncpy_of_lt h],?_⟩
  rw [← List.append_nil (strncpy n src)]
  exact cstr_strncpy_append h []

/- An array of 50 bytes in which a token is cut, with `c` at its end. -/
theorem cstr_cut {t : List Char} (ht : nul ∉ t) {c : Char} (r : List Char) (h : t.length < 49 ∨ c = nul) :
    cstr (strncpy 49 t ++ c :: r) = t.take 49 := by
  have hself := cstr_eq_self ht
  by_cases hlt : t.length < 49
  · rw [cstr_strncpy_append (by rw [hself]; exact hlt),hself,List.take_of_length_le hlt.le]
  · rw [strncpy_of_le (by rw [hself]; omega),hself,h.resolve_left hlt]
    exact cstr_append_nul (fun hm => ht (List.mem_of_mem_take hm)) r

theorem cstr_nameBuf {d : Decl} (h : nul ∉ d.name) : cstr (nameBuf d) = d.name.take 49 := cstr_cut h [] (.inr rfl)

theorem cstr_prefixBuf {d : Decl} {l : Line} (h : nul ∉ d.drvPrefix) (hg : d.drvPrefix.length < 49 ∨ l.slot = nul) :
    cstr (prefixBuf d l) = d.drvPrefix.take 49 := cstr_cut h _ hg

theorem length_take_lt (t : List Char) : (t.take 49).length < 50 := by
  rw [List.length_take]
  omega

/- A prefix of 49 characters, and something else than a NUL behind them. -/
theorem nul_notMem_prefix {d : Decl} {l : Line} (h : nul ∉ d.drvPrefix) (hlen : 49 ≤ d.drvPrefix.length)
    (hslot : l.slot ≠ nul) : nul ∉ strncpy 50 (prefixBuf d l) := by
  have hself := cstr_eq_self h
  have hall : nul ∉ d.drvPrefix.take 49 ++ [l.slot] := by
    simp only [List.mem_append,List.mem_singleton,not_or]
    exact ⟨fun hm => h (List.mem_of_mem_take hm),hslot.symm⟩
  have hbuf : cstr (prefixBuf d l) = (d.drvPrefix.take 49 ++ [l.slot]) ++ cstr l.frame := by
    rw [prefixBuf,strncpy_of_le (by rw [hself]; exact hlen),hself,
      ← List.singleton_append,← List.append_assoc,cstr,List.takeWhile_append_of_pos (ne_nul hall)]
    rfl
  have h50 : (d.drvPrefix.take 49 ++ [l.slot]).length = 50 := by
    rw [List.length_append,List.length_take_of_le hlen]
    rfl
  rw [strncpy_of_le (by rw [hbuf,List.length_append]; omega),hbuf,List.take_left' h50]
  exact hall

theorem newDriver_named {d : Decl} {l : Line} (hd : nul ∉ d.name ∧ nul ∉ d.drvPrefix)
    (hg : d.drvPrefix.length < 49 ∨ l.slot = nul) (maj : List ℕ) (inst : ℕ) :
    (newDriver d l maj inst).Named d := by
  have hn := cstr_nameBuf hd.1
  have hp := cstr_prefixBuf hd.2 hg
  have hname : (cstr (nameBuf d)).length < 50 := hn ▸ length_take_lt _
  have hprefix : (cstr (prefixBuf d l)).length < 50 := hp ▸ length_take_lt _
  exact ⟨⟨(cstr_strncpy hname).1,(cstr_strncpy hname).2.trans hn⟩,
    (cstr_strncpy hprefix).1,(cstr_strncpy hprefix).2.trans hp⟩

theorem newDriver_prefixStr {d : Decl} {l : Line} (hd : nul ∉ d.drvPrefix)
    (hg : d.drvPrefix.length < 49 ∨ l.slot = nul) (maj : List ℕ) (inst : ℕ) :
    (newDriver d l maj inst).prefixStr = d.drvPrefix.take 49 := by
  have hp := cstr_prefixBuf hd hg
  exact (cstr_strncpy_append (hp ▸ length_take_lt _) l.past).trans hp

/-! ### Majors -/

namespace Conf

theorem run_of_freeFrom_mem {s : Conf} (fuel m : ℕ) (h : s.freeFrom fuel m ∈ s.majors) :
    ∀ k ≤ fuel, m + k ∈ s.majors := by
  induction fuel generalizing m with
  | zero =>
    intro k hk
    obtain rfl : k = 0 := Nat.le_zero.mp hk
    exact h
  | succ fuel ih =>
    simp only [freeFrom] at h
    split at h
    · rename_i hin
      intro k hk
      cases k with
      | zero => exact List.contains_iff_mem.mp hin
      | succ k => exact Nat.add_right_comm m 1 k ▸ ih (m + 1) h k (by omega)
    · rename_i hin
      exact absurd (List.contains_iff_mem.mpr h) hin

/- A run of more majors than are in use is not in use as a whole. -/
theorem getFreeMajor_notMem (s : Conf) : s.getFreeMajor.1 ∉ s.majors := by
  intro h
  have hrun := run_of_freeFrom_mem s.majors.length s.nextMajor h
  have hsub : List.range' s.nextMajor (s.majors.length + 1) ⊆ s.majors := by
    intro x hx
    obtain ⟨i,hi,rfl⟩ := List.mem_range'.mp hx
    simpa using hrun i (by omega)
  have hle := (List.subperm_of_subset List.nodup_range' hsub).length_le
  rw [List.length_range'] at hle
  omega

theorem reserveMajor_eq_some {s t : Conf} {m : ℕ} (h : s.reserveMajor m = some t) :
    m ∉ s.majors ∧ s.majors.length < 256 ∧ t = { s with majors := s.majors ++ [m] } := by
  rw [reserveMajor] at h
  by_cases hin : s.majorInUse m = true
  · rw [if_pos hin] at h
    cases h
  rw [if_neg hin] at h
  by_cases hlen : 256 ≤ s.majors.length
  · rw [if_pos hlen] at h
    cases h
  rw [if_neg hlen] at h
  cases h
  exact ⟨fun hm => hin (List.contains_iff_mem.mpr hm),by omega,rfl⟩

/- What the table is after `maj` has been reserved. -/
structure Reserved (s t : Conf) (maj : List ℕ) : Prop where
  majors : t.majors = s.majors ++ maj
  nodup : s.majors.Nodup → t.majors.Nodup
  length_le : s.majors.length ≤ 256 → t.majors.length ≤ 256
  drivers : t.drivers = s.drivers
  errors : t.errors = s.errors

theorem reserved_one {s t : Conf} {m : ℕ} (h : s.reserveMajor m = some t) : Reserved s t [m] := by
  obtain ⟨hnot,hlen,rfl⟩ := reserveMajor_eq_some h
  exact ⟨rfl,fun hn => List.nodup_append'.mpr ⟨hn,List.nodup_singleton m,List.disjoint_singleton.mpr hnot⟩,
    fun _ => by simp only [List.length_append,List.length_singleton]; omega,rfl,rfl⟩

theorem reserved_free {n : ℕ} {s t : Conf} {maj : List ℕ} (h : reserveFree n s = some (maj,t)) :
    maj.length = n ∧ Reserved s t maj := by
  induction n generalizing s maj with
  | zero =>
    cases h
    exact ⟨rfl,(List.append_nil _).symm,id,id,rfl,rfl⟩
  | succ n ih =>
    obtain ⟨u,hu,hr⟩ := Option.bind_eq_some_iff.mp h
    obtain ⟨q,hq,he⟩ := Option.map_eq_some_iff.mp hr
    cases he
    obtain ⟨hlen,hres⟩ := ih hq
    have hone := reserved_one hu
    refine ⟨by rw [List.length_cons,hlen],?_,fun hn => hres.nodup (hone.nodup hn),
      fun hl => hres.length_le (hone.length_le hl),hres.drivers.trans hone.drivers,hres.errors.trans hone.errors⟩
    rw [hres.majors,hone.majors,List.append_assoc]
    rfl

/- The driver of a line, with the majors reserved for it. -/
structure Added (s t : Conf) (d : Decl) (l : Line) (maj : List ℕ) : Prop where
  length : maj.length = d.count
  majors : t.majors = s.majors ++ maj
  nodup : s.majors.Nodup → t.majors.Nodup
  length_le : s.majors.length ≤ 256 → t.majors.length ≤ 256
  drivers : t.drivers = s.drivers ++ [newDriver d l maj (driverInstance s.drivers (prefixBuf d l))]
  errors : t.errors = s.errors ++ if d.tooFew then [.tooFew d.nmajors d.nminors] else []

theorem added_of_reserved {s u t : Conf} {d : Decl} {l : Line} {maj : List ℕ} (hlen : maj.length = d.count)
    (hmaj : u.majors = s.majors) (hdrv : u.drivers = s.drivers)
    (herr : u.errors = s.errors ++ if d.tooFew then [.tooFew d.nmajors d.nminors] else []) (h : Reserved u t maj) :
    Added s (t.mkDriver d l maj) d l maj where
  length := hlen
  majors := h.majors.trans (by rw [hmaj])
  nodup hn := h.nodup (by rw [hmaj]; exact hn)
  length_le hl := h.length_le (by rw [hmaj]; exact hl)
  drivers := by rw [mkDriver,h.drivers,hdrv]
  errors := h.errors.trans herr

theorem room_of_added {s t : Conf} {d : Decl} {l : Line} {maj : List ℕ} (h : Added s t d l maj)
    (hs : s.majors.length ≤ 256) : decide (s.majors.length + d.count ≤ 256) = true := by
  have hle := h.length_le hs
  rw [h.majors,List.length_append,h.length] at hle
  exact decide_eq_true hle

theorem accepted_of_one {s : Conf} {d : Decl} (h : d.count = 1) :
    d.accepted s = (d.major0.all (fun m => !s.majorInUse m) && decide (s.majors.length + d.count ≤ 256)) := by
  rw [Decl.accepted,if_pos h]

/- A line either changes nothing but the errors, or adds the driver with its majors. -/
theorem declare_cases {s t : Conf} {d : Decl} {l : Line} (hs : s.majors.length ≤ 256) (h : s.declare d l = some t) :
    (d.accepted s = false ∧ t.drivers = s.drivers ∧ t.majors = s.majors) ∨
      (d.accepted s = true ∧ ∃ maj, Added s t d l maj) := by
  set u := if d.tooFew then s.err (.tooFew d.nmajors d.nminors) else s with hu
  have hmaj : u.majors = s.majors := by rw [hu]; split <;> rfl
  have hdrv : u.drivers = s.drivers := by rw [hu]; split <;> rfl
  have herr : u.errors = s.errors ++ if d.tooFew then [.tooFew d.nmajors d.nminors] else [] := by
    rw [hu]
    split
    · rfl
    · exact (List.append_nil _).symm
  simp only [declare,← hu] at h
  by_cases hone : d.count = 1
  · rw [if_pos hone] at h
    cases hmajor : d.major0 with
    | none =>
      simp only [hmajor] at h
      have hfree : ¬ u.getFreeMajor.2.majorInUse u.getFreeMajor.1 = true := fun hin =>
        getFreeMajor_notMem u (List.contains_iff_mem.mp hin)
      rw [if_neg hfree] at h
      obtain ⟨v,hv,rfl⟩ := Option.map_eq_some_iff.mp h
      have hadd : Added s (v.mkDriver d l [u.getFreeMajor.1]) d l _ :=
        added_of_reserved hone.symm (show u.getFreeMajor.2.majors = s.majors from hmaj) hdrv herr (reserved_one hv)
      exact .inr ⟨by rw [accepted_of_one hone,hmajor,room_of_added hadd hs]; rfl,_,hadd⟩
    | some m =>
      simp only [hmajor] at h
      by_cases hin : u.majorInUse m = true
      · rw [if_pos hin] at h
        cases h
        have hin' : s.majorInUse m = true := by rw [majorInUse,← hmaj]; exact hin
        exact .inl ⟨by rw [accepted_of_one hone,hmajor]; simp [hin'],hdrv,hmaj⟩
      · rw [if_neg hin] at h
        obtain ⟨v,hv,rfl⟩ := Option.map_eq_some_iff.mp h
        have hin' : s.majorInUse m = false := by rw [majorInUse,← hmaj]; exact Bool.eq_false_iff.mpr hin
        have hadd : Added s (v.mkDriver d l [m]) d l _ := added_of_reserved hone.symm hmaj hdrv herr (reserved_one hv)
        exact .inr ⟨by rw [accepted_of_one hone,hmajor,room_of_added hadd hs]; simp [hin'],_,hadd⟩
  · rw [if_neg hone] at h
    cases hmajor : d.major0 with
    | some m =>
      simp only [hmajor,Option.isSome_some,if_true] at h
      cases h
      exact .inl ⟨by simp [Decl.accepted,hone,hmajor],hdrv,hmaj⟩
    | none =>
      simp only [hmajor,Option.isSome_none,Bool.false_eq_true,if_false] at h
      obtain ⟨⟨maj,v⟩,hv,rfl⟩ := Option.map_eq_some_iff.mp h
      obtain ⟨hlen,hres⟩ := reserved_free hv
      have hadd : Added s (v.mkDriver d l maj) d l maj := added_of_reserved hlen hmaj hdrv herr hres
      exact .inr ⟨by simp [Decl.accepted,hone,hmajor,room_of_added hadd hs],_,hadd⟩

/- There is room for the majors that are asked for. -/
theorem reserveMajor_isSome {s : Conf} {m : ℕ} (hm : m ∉ s.majors) (hroom : s.majors.length < 256) :
    s.reserveMajor m = some { s with majors := s.majors ++ [m] } := by
  have hin : ¬ s.majorInUse m = true := fun hin => hm (List.contains_iff_mem.mp hin)
  rw [reserveMajor,if_neg hin,if_neg (by omega)]

theorem reserveFree_isSome {n : ℕ} {s : Conf} (hroom : s.majors.length + n ≤ 256) : (reserveFree n s).isSome := by
  induction n generalizing s with
  | zero => rfl
  | succ n ih =>
    have hone : s.getFreeMajor.2.reserveMajor s.getFreeMajor.1 = some _ :=
      reserveMajor_isSome (getFreeMajor_notMem s) (show s.majors.length < 256 by omega)
    simp only [reserveFree,hone,Option.bind_some,Option.isSome_map]
    refine ih ?_
    rw [List.length_append,List.length_singleton]
    exact (show s.majors.length + 1 + n ≤ 256 by omega)

theorem declare_isSome {s : Conf} {d : Decl} (l : Line) (h : d.accepted s = true) : (s.declare d l).isSome := by
  set u := if d.tooFew then s.err (.tooFew d.nmajors d.nminors) else s with hu
  have hmaj : u.majors = s.majors := by rw [hu]; split <;> rfl
  simp only [Decl.accepted,Bool.and_eq_true,decide_eq_true_eq] at h
  obtain ⟨hsel,hroom⟩ := h
  rw [← hmaj] at hroom
  simp only [declare,← hu]
  by_cases hone : d.count = 1
  · rw [if_pos hone]
    have hlen : u.majors.length < 256 := by omega
    have hone (v : Conf) (m : ℕ) (hv : v.majors = u.majors) :
        (if v.majorInUse m then some (v.err (.inUse m))
          else (v.reserveMajor m).map fun t => t.mkDriver d l [m]).isSome = true := by
      by_cases hin : v.majorInUse m = true
      · rw [if_pos hin]
        rfl
      · rw [if_neg hin,reserveMajor_isSome (fun hm => hin (List.contains_iff_mem.mpr hm)) (by rw [hv]; exact hlen)]
        rfl
    cases d.major0 with
    | none => exact hone u.getFreeMajor.2 u.getFreeMajor.1 rfl
    | some m => exact hone u m rfl
  · rw [if_neg hone]
    split
    · rfl
    · rw [Option.isSome_map]
      exact reserveFree_isSome hroom

end Conf

/-! ### Names -/

theorem isDigit_toDigits {n : ℕ} {c : Char} (h : c ∈ Nat.toDigits 10 n) : c.isDigit = true :=
  Nat.isDigit_of_mem_toDigits (by omega) (by omega) h

theorem toDigits_inj {m n : ℕ} (h : Nat.toDigits 10 m = Nat.toDigits 10 n) : m = n := by
  rw [← Nat.ofDigitChars_ten_toDigits (n := m),h,Nat.ofDigitChars_ten_toDigits]

/- A number is read back from the end. -/
theorem append_digits_inj {x y : List Char} {c : Char} (hc : c.isDigit = false) {m n : ℕ}
    (h : (x ++ [c]) ++ Nat.toDigits 10 m = (y ++ [c]) ++ Nat.toDigits 10 n) : x = y ∧ m = n := by
  -- what one of the texts has more in front of the number would end in `c`
  have hnone (u v w : List Char) (k : ℕ) (he : v ++ [c] = u ++ w) (hw : ∀ e ∈ w, e ∈ Nat.toDigits 10 k) : w = [] := by
    rcases List.eq_nil_or_concat w with rfl | ⟨w',e,rfl⟩
    · rfl
    · rw [List.concat_eq_append,← List.append_assoc] at he
      obtain ⟨-,hce⟩ := List.append_inj' he rfl
      have hd := isDigit_toDigits (hw e (by simp))
      rw [← List.singleton_inj.mp hce,hc] at hd
      cases hd
  rcases List.append_eq_append_iff.mp h with ⟨w,hy,hm⟩ | ⟨w,hx,hn⟩
  · obtain rfl := hnone _ _ w m hy fun e he => hm ▸ List.mem_append_left _ he
    rw [List.append_nil] at hy
    exact ⟨(List.append_inj' hy rfl).1.symm,toDigits_inj hm⟩
  · obtain rfl := hnone _ _ w n hx fun e he => hn ▸ List.mem_append_left _ he
    rw [List.append_nil] at hx
    exact ⟨(List.append_inj' hx rfl).1,(toDigits_inj hn).symm⟩

namespace Driver

theorem majorsName_inj {a b : Driver} (h : a.majorsName = b.majorsName) :
    a.prefixStr = b.prefixStr ∧ a.instNr = b.instNr := by
  have h' : (a.prefixStr ++ ['_']) ++ Nat.toDigits 10 a.instNr ++ ['_','m','a','j','o','r','s'] =
      (b.prefixStr ++ ['_']) ++ Nat.toDigits 10 b.instNr ++ ['_','m','a','j','o','r','s'] := by
    simpa [majorsName] using h
  exact append_digits_inj rfl (List.append_cancel_right h')

theorem mem_cmajorNames {a : Driver} {x : List Char} :
    x ∈ a.cmajorNames ↔ a.prefixStr ≠ ['-'] ∧ ∃ k ∈ a.instances,
      x = (raise a.prefixStr ++ ['_','C','M','A','J','O','R']) ++ ['_'] ++ Nat.toDigits 10 k := by
  by_cases hp : a.prefixStr = ['-']
  · simp [cmajorNames,hp]
  · rw [cmajorNames,if_neg hp,List.mem_map,and_iff_right hp]
    simp only [instances,Finset.mem_Ico,List.mem_range]
    constructor
    · rintro ⟨i,hi,rfl⟩
      exact ⟨i + a.instNr,⟨by omega,by omega⟩,by simp⟩
    · rintro ⟨k,⟨hk,hk'⟩,rfl⟩
      exact ⟨k - a.instNr,by omega,by simp [Nat.sub_add_cancel hk]⟩

theorem cmajorName_inj {p q : List Char} {k j : ℕ}
    (h : (raise p ++ ['_','C','M','A','J','O','R']) ++ ['_'] ++ Nat.toDigits 10 k =
      (raise q ++ ['_','C','M','A','J','O','R']) ++ ['_'] ++ Nat.toDigits 10 j) : raise p = raise q ∧ k = j := by
  obtain ⟨hp,hk⟩ := append_digits_inj rfl h
  exact ⟨List.append_cancel_right hp,hk⟩

theorem nodup_cmajorNames (a : Driver) : a.cmajorNames.Nodup := by
  rw [cmajorNames]
  split
  · exact List.nodup_nil
  · refine List.Nodup.map_on (fun i _ j _ h => ?_) List.nodup_range
    have := (cmajorName_inj (p := a.prefixStr) (q := a.prefixStr) (by simpa using h)).2
    omega

end Driver

/-! ### Instances -/

theorem driverInstance_append (drivers : List Driver) (dp : Driver) (p : List Char) :
    driverInstance (drivers ++ [dp]) p =
      driverInstance drivers p + if dp.prefixStr = cstr p then dp.nmajors else 0 := by
  simp only [driverInstance,List.filter_append,List.map_append,List.sum_append]
  congr 1
  by_cases h : dp.prefixStr = cstr p <;> simp [h]

theorem driverInstance_eq_zero {drivers : List Driver} {p : List Char} (h : ∀ dp ∈ drivers, dp.prefixStr ≠ cstr p) :
    driverInstance drivers p = 0 := by
  rw [driverInstance,List.filter_eq_nil_iff.mpr fun dp hdp => by simpa using h dp hdp]
  rfl

theorem driverInstance_congr (drivers : List Driver) {p q : List Char} (h : cstr p = cstr q) :
    driverInstance drivers p = driverInstance drivers q := by
  rw [driverInstance,driverInstance,h]

theorem cstr_prefixStr (dp : Driver) : cstr dp.prefixStr = dp.prefixStr := cstr_eq_self (nul_notMem_cstr _)

/-! ### Minors -/

theorem major_of_lt {m : ℕ} (h : m < 2 ^ 20) : major m = m / 256 := by
  have he : ((m : ℤ) % 2 ^ 64).toNat = m := by omega
  simp only [major,he]
  omega

theorem major_pred {n : ℕ} (hpos : 0 < n) (h : n ≤ 2 ^ 20) : major ((n : ℤ) - 1) = (n - 1) / 256 := by
  have he : (n : ℤ) - 1 = ((n - 1 : ℕ) : ℤ) := by omega
  rw [he,major_of_lt (by omega)]

theorem major_neg_one : major ((0 : ℕ) - 1) = 2 ^ 32 - 1 := by decide

/- A line with minors and majors for all of them. -/
theorem count_of_minors {d : Decl} (hpos : 0 < d.nminors)
    (hle : d.nminors ≤ if d.nmajors = 0 then 2 ^ 20 else 256 * d.nmajors) (hroom : d.count ≤ 256) :
    0 < d.count ∧ d.tooFew = false ∧ ∀ m < d.nminors, major m < d.count := by
  by_cases hz : d.nmajors = 0
  · rw [if_pos hz] at hle
    have hcount : d.count = ((d.nminors - 1) / 256 + 1) % 2 ^ 32 := by
      rw [Decl.count,if_pos hz,major_pred hpos hle]
    refine ⟨by omega,by simp [Decl.tooFew,hz],fun m hm => ?_⟩
    rw [major_of_lt (by omega)]
    omega
  · rw [if_neg hz] at hle
    have hcount : d.count = d.nmajors := if_neg hz
    have hsmall : d.nminors ≤ 2 ^ 20 := by omega
    refine ⟨by omega,?_,fun m hm => ?_⟩
    · rw [Decl.tooFew,major_pred hpos hsmall]
      simp only [Bool.and_eq_false_iff,decide_eq_false_iff_not]
      exact .inr (by omega)
    · rw [major_of_lt (by omega)]
      omega

/- The other way round. -/
theorem minors_of_count {d : Decl} (hroom : d.count ≤ 256) (hpos : 0 < d.count) (hfew : d.tooFew = false)
    (hall : ∀ m < d.nminors, major m < d.count) :
    0 < d.nminors ∧ d.nminors ≤ if d.nmajors = 0 then 2 ^ 20 else 256 * d.nmajors := by
  have hle : d.nminors ≤ 256 * d.count := by
    by_contra hlt
    have := hall (256 * d.count) (by omega)
    rw [major_of_lt (by omega)] at this
    omega
  have hmin : 0 < d.nminors := by
    by_contra hz
    have hz : d.nminors = 0 := by omega
    by_cases hn : d.nmajors = 0
    · rw [Decl.count,if_pos hn,hz,major_neg_one] at hpos
      omega
    · rw [Decl.tooFew,hz,major_neg_one] at hfew
      have hcount : d.count = d.nmajors := if_neg hn
      simp only [Bool.and_eq_false_iff,decide_eq_false_iff_not,bne_eq_false_iff_eq] at hfew
      omega
  refine ⟨hmin,?_⟩
  split
  · omega
  · rename_i hn
    have hcount : d.count = d.nmajors := if_neg hn
    omega

/-! ### What every accepted line keeps -/

structure Inv (drivers : List Driver) (majors : List ℕ) : Prop where
  consistent : Consistent drivers
  reserved : drivers.flatMap (·.major) = majors
  table : majors.length ≤ 256
  below : ∀ dp ∈ drivers, dp.instNr + dp.nmajors ≤ driverInstance drivers dp.prefixStr
  zero : ∀ dp ∈ drivers, ∃ e ∈ drivers, e.prefixStr = dp.prefixStr ∧ e.instNr = 0
  caseless : ∀ a ∈ drivers, ∀ b ∈ drivers, raise a.prefixStr = raise b.prefixStr → a.prefixStr ≠ ['-'] →
    b.prefixStr ≠ ['-'] → a.prefixStr = b.prefixStr

theorem inv_init : Inv Conf.init.drivers Conf.init.majors where
  consistent := by constructor <;> simp [Conf.init]
  reserved := rfl
  table := by simp [Conf.init]
  below := by simp [Conf.init]
  zero := by simp [Conf.init]
  caseless := by simp [Conf.init]

namespace Inv

variable {s t : Conf} {d : Decl} {l : Line} {maj : List ℕ}

/- The numbers of a new driver lie above those of every driver with its prefix. -/
theorem below_new (hi : Inv s.drivers s.majors) {p : List Char} {a : Driver} (ha : a ∈ s.drivers)
    (hp : a.prefixStr = cstr p) : a.instNr + a.nmajors ≤ driverInstance s.drivers p := by
  rw [driverInstance_congr s.drivers (hp.symm.trans (cstr_prefixStr a).symm)]
  exact hi.below a ha

theorem disjoint_new {a b : Driver} (h : a.instNr + a.nmajors ≤ b.instNr) : Disjoint a.instances b.instances := by
  simp only [Driver.instances,Finset.disjoint_left,Finset.mem_Ico]
  omega

theorem added (hi : Inv s.drivers s.majors) (ha : Conf.Added s t d l maj) (hroom : d.count ≤ 256)
    (hd : nul ∉ d.name ∧ nul ∉ d.drvPrefix) (hg : d.Good s l) : Inv t.drivers t.majors := by
  obtain ⟨hpre,⟨hpos,hmin⟩,hcase⟩ := hg
  obtain ⟨hcount,-,henough⟩ := count_of_minors hpos hmin hroom
  set inst := driverInstance s.drivers (prefixBuf d l) with hinst
  set new := newDriver d l maj inst with hnew
  have hp : new.prefixStr = d.drvPrefix.take 49 := newDriver_prefixStr hd.2 hpre maj inst
  have hbuf : new.prefixStr = cstr (prefixBuf d l) := hp.trans (cstr_prefixBuf hd.2 hpre).symm
  have hnmaj : new.nmajors = d.count := rfl
  -- a driver with the same prefix, or with the same in capitals
  have hbelow (a : Driver) (hm : a ∈ s.drivers) (he : a.prefixStr = new.prefixStr) : a.instNr + a.nmajors ≤ inst :=
    hi.below_new hm (he.trans hbuf)
  have hsame (a : Driver) (hm : a ∈ s.drivers) (hr : raise a.prefixStr = raise new.prefixStr)
      (ha' : a.prefixStr ≠ ['-']) (hn : new.prefixStr ≠ ['-']) : a.prefixStr = new.prefixStr := by
    rw [hp] at hr hn ⊢
    exact hcase a hm hr ha' hn
  have hmem (a : Driver) : a ∈ t.drivers ↔ a ∈ s.drivers ∨ a = new := by
    rw [ha.drivers,List.mem_append,List.mem_singleton]
  have hres : t.drivers.flatMap (·.major) = t.majors := by
    rw [ha.drivers,List.flatMap_append,hi.reserved,ha.majors]
    simp [newDriver]
  have hc := hi.consistent
  have hsnodup : s.majors.Nodup := hi.reserved ▸ hc.unshared
  refine ⟨⟨?owned,?enough,hres ▸ ha.nodup hsnodup,?instances,?majorsNames,?cmajorNames⟩,hres,ha.length_le hi.table,
    ?below,?zero,?caseless⟩
  case owned =>
    intro dp hdp
    rcases (hmem dp).mp hdp with h | rfl
    · exact hc.owned dp h
    · exact ⟨ha.length,hcount⟩
  case enough =>
    intro dp hdp
    rcases (hmem dp).mp hdp with h | rfl
    · exact hc.enough dp h
    · exact henough
  case instances =>
    rw [ha.drivers]
    refine List.pairwise_append.mpr ⟨hc.instances,List.pairwise_singleton _ _,fun a hm b hb he => ?_⟩
    obtain rfl := List.mem_singleton.mp hb
    exact disjoint_new (hbelow a hm he)
  case majorsNames =>
    rw [ha.drivers,List.map_append]
    refine List.nodup_append.mpr ⟨hc.majorsNames,List.nodup_singleton _,fun x hx y hy he => ?_⟩
    obtain ⟨a,hm,rfl⟩ := List.mem_map.mp hx
    obtain rfl := List.mem_singleton.mp hy
    obtain ⟨hpre',hnr⟩ := Driver.majorsName_inj he
    have hle : a.instNr + a.nmajors ≤ new.instNr := hbelow a hm hpre'
    have hnr : a.instNr = new.instNr := hnr
    have hpos' := (hc.owned a hm).2
    omega
  case cmajorNames =>
    rw [ha.drivers,List.flatMap_append]
    refine List.nodup_append.mpr ⟨hc.cmajorNames,?_,fun x hx y hy he => ?_⟩
    · simpa using new.nodup_cmajorNames
    · obtain ⟨a,hm,hxa⟩ := List.mem_flatMap.mp hx
      have hyn : y ∈ new.cmajorNames := by simpa using hy
      obtain ⟨hna,k,hk,rfl⟩ := Driver.mem_cmajorNames.mp hxa
      obtain ⟨hnn,j,hj,hy'⟩ := Driver.mem_cmajorNames.mp hyn
      obtain ⟨hr,rfl⟩ := Driver.cmajorName_inj (he.trans hy')
      exact Finset.disjoint_left.mp (disjoint_new (hbelow a hm (hsame a hm hr hna hnn))) hk hj
  case below =>
    intro dp hdp
    rw [ha.drivers,driverInstance_append,cstr_prefixStr]
    rcases (hmem dp).mp hdp with h | rfl
    · exact (hi.below dp h).trans (Nat.le_add_right _ _)
    · rw [if_pos rfl,driverInstance_congr s.drivers ((cstr_prefixStr _).trans hbuf)]
      exact le_rfl
  case zero =>
    intro dp hdp
    rcases (hmem dp).mp hdp with h | rfl
    · obtain ⟨e,he,hz⟩ := hi.zero dp h
      exact ⟨e,(hmem e).mpr (.inl he),hz⟩
    · by_cases hex : ∃ e ∈ s.drivers, e.prefixStr = new.prefixStr
      · obtain ⟨e,he,hpe⟩ := hex
        obtain ⟨e',he',hpe',hz⟩ := hi.zero e he
        exact ⟨e',(hmem e').mpr (.inl he'),hpe'.trans hpe,hz⟩
      · refine ⟨new,(hmem new).mpr (.inr rfl),rfl,driverInstance_eq_zero fun dp hdp hpd => ?_⟩
        exact hex ⟨dp,hdp,hpd.trans hbuf.symm⟩
  case caseless =>
    intro a hma b hmb hr hna hnb
    rcases (hmem a).mp hma with h | rfl <;> rcases (hmem b).mp hmb with h' | rfl
    · exact hi.caseless a h b h' hr hna hnb
    · exact hsame a h hr hna hnb
    · exact (hsame b h' hr.symm hnb hna).symm
    · rfl

end Inv

/- What goes wrong when an accepted line is not good. -/
theorem good_of_right {s t : Conf} {d : Decl} {l : Line} {maj : List ℕ} (hi : Inv s.drivers s.majors)
    (ha : Conf.Added s t d l maj) (hroom : d.count ≤ 256) (hparse : parseDriver l.nextp = .ok d)
    (hr : Right s l t) : d.Good s l := by
  have hd := parseDriver_ok hparse
  set new := newDriver d l maj (driverInstance s.drivers (prefixBuf d l)) with hnew
  have hdrv : t.drivers = s.drivers ++ [new] := ha.drivers
  have hne : t.drivers ≠ s.drivers := by simp [hdrv]
  have hmem : new ∈ t.drivers := by simp [hdrv]
  have hfew : d.tooFew = false := by
    by_contra htrue
    refine hne (hr.rejected ?_).1
    rw [ha.errors,if_pos (Bool.eq_true_of_not_eq_false htrue)]
    simp
  have hpre : d.drvPrefix.length < 49 ∨ l.slot = nul := by
    by_contra hbad
    push Not at hbad
    obtain ⟨d',dp,hp',hdp,hnamed⟩ := hr.added.resolve_left hne
    obtain rfl : d = d' := Except.ok.inj (hparse.symm.trans hp')
    obtain rfl : new = dp := List.singleton_inj.mp (List.append_cancel_left (hdrv.symm.trans hdp))
    exact nul_notMem_prefix hd.2 hbad.1 hbad.2 hnamed.2.1
  refine ⟨hpre,minors_of_count hroom (hr.consistent.owned new hmem).2 hfew (hr.consistent.enough new hmem),?_⟩
  intro a hm hcaps hna hnn
  by_contra hdiff
  have hp : new.prefixStr = d.drvPrefix.take 49 := newDriver_prefixStr hd.2 hpre maj _
  have hbuf : new.prefixStr = cstr (prefixBuf d l) := hp.trans (cstr_prefixBuf hd.2 hpre).symm
  rw [← hp] at hcaps hnn hdiff
  -- the first driver with either prefix has the number 0
  obtain ⟨a₀,hm₀,hpa,hza⟩ := hi.zero a hm
  have hzero : new.instNr = 0 := driverInstance_eq_zero fun e he hpe => hdiff (by
    have hpe := hpe.trans hbuf.symm
    exact (hi.caseless a hm e he (hcaps.trans (by rw [hpe])) hna (by rw [hpe]; exact hnn)).trans hpe)
  have hin (b : Driver) (hb : b ∈ t.drivers) (hz : b.instNr = 0) : 0 ∈ b.instances :=
    Finset.mem_Ico.mpr ⟨hz.le,by have := (hr.consistent.owned b hb).2; omega⟩
  have hnodup := hr.consistent.cmajorNames
  rw [hdrv,List.flatMap_append] at hnodup
  have hold := Driver.mem_cmajorNames.mpr ⟨hpa ▸ hna,0,hin a₀ (by simp [hdrv,hm₀]) hza,rfl⟩
  have hnew' := Driver.mem_cmajorNames.mpr ⟨hnn,0,hin new hmem hzero,rfl⟩
  refine (List.nodup_append.mp hnodup).2.2 _ (List.mem_flatMap.mpr ⟨a₀,hm₀,hold⟩) _
    (List.mem_flatMap.mpr ⟨new,List.mem_singleton_self new,hnew'⟩) ?_
  rw [hpa,hcaps]

/- A line that declares nothing. -/
theorem right_same {s t : Conf} {l : Line} (hi : Inv s.drivers s.majors) (hd : t.drivers = s.drivers)
    (hm : t.majors = s.majors) : Right s l t ∧ Inv t.drivers t.majors :=
  ⟨⟨hd ▸ hi.consistent,fun _ => ⟨hd,hm⟩,.inl hd⟩,by rw [hd,hm]; exact hi⟩

theorem processLine_right {s t : Conf} {l : Line} (hi : Inv s.drivers s.majors) (h : s.processLine l = some t) :
    (Right s l t ↔ Guard s l) ∧ (Guard s l → Inv t.drivers t.majors) := by
  cases hparse : parseDriver l.nextp with
  | error e =>
    simp only [Conf.processLine,hparse,Option.some.injEq] at h
    obtain rfl := h
    obtain ⟨hr,hi'⟩ : Right s l (s.err e) ∧ Inv (s.err e).drivers (s.err e).majors := right_same hi rfl rfl
    exact ⟨iff_of_true hr fun d hd => absurd (hparse.symm.trans hd) (by simp),fun _ => hi'⟩
  | ok d =>
    simp only [Conf.processLine,hparse] at h
    have hguard : Guard s l ↔ (d.accepted s = true → d.Good s l) :=
      ⟨fun hg => hg d hparse,fun hg d' hd' => Except.ok.inj (hparse.symm.trans hd') ▸ hg⟩
    rw [hguard]
    rcases Conf.declare_cases hi.table h with ⟨hno,hdrv,hmaj⟩ | ⟨hyes,maj,ha⟩
    · obtain ⟨hr,hi'⟩ := right_same (l := l) hi hdrv hmaj
      exact ⟨iff_of_true hr fun hyes => absurd (hno.symm.trans hyes) (by simp),fun _ => hi'⟩
    · rw [forall_prop_of_true hyes]
      have hroom : d.count ≤ 256 := by
        have := ha.length_le hi.table
        rw [ha.majors,List.length_append,ha.length] at this
        omega
      refine ⟨⟨good_of_right hi ha hroom hparse,fun hg => ?_⟩,hi.added ha hroom (parseDriver_ok hparse)⟩
      obtain ⟨-,hfew,-⟩ := count_of_minors hg.2.1.1 hg.2.1.2 hroom
      refine ⟨(hi.added ha hroom (parseDriver_ok hparse) hg).consistent,fun herr => ?_,
        .inr ⟨d,_,hparse,ha.drivers,newDriver_named (parseDriver_ok hparse) hg.1 _ _⟩⟩
      exact absurd (ha.errors.trans (by simp [hfew])) herr

/- A line at which `strconf` exits does not get as far as to be taken. -/
theorem guard_of_exit {s : Conf} {l : Line} (h : s.processLine l = none) : Guard s l := by
  intro d hd hyes
  have hsome := Conf.declare_isSome l hyes
  simp only [Conf.processLine,hd] at h
  rw [h] at hsome
  cases hsome

/-! ### Every sequence of driver lines -/

/- Every line is taken or rejected as it should be; at the end the drivers are those of the lines, and the sort ends
with them in the order of their first majors. -/
def AllRight (lines : List Line) : Prop :=
  Meets Conf.processLine (fun s l => ∀ t, s.processLine l = some t → Right s l t) .init lines ∧
    ∀ t, exec Conf.processLine .init lines = some t →
      (∀ dp ∈ t.drivers, ∃ l ∈ lines, ∃ d, parseDriver l.nextp = .ok d ∧ dp.Named d) ∧
      ∃ r, t.sortDrivers = some r ∧ r.Perm t.drivers ∧ r.Pairwise fun a b => a.first ≤ b.first

theorem named_of_run {s t : Conf} {lines : List Line}
    (hm : Meets Conf.processLine (fun s l => ∀ t, s.processLine l = some t → Right s l t) s lines)
    (h : exec Conf.processLine s lines = some t) :
    ∀ dp ∈ t.drivers, dp ∈ s.drivers ∨ ∃ l ∈ lines, ∃ d, parseDriver l.nextp = .ok d ∧ dp.Named d := by
  induction lines generalizing s with
  | nil =>
    obtain rfl := Option.some.inj h
    exact fun dp hdp => .inl hdp
  | cons l lines ih =>
    obtain ⟨u,hu,hr⟩ := exec_cons_eq_some h
    intro dp hdp
    rcases ih (hm.2 u hu) hr dp hdp with hold | ⟨l',hl',hd⟩
    · rcases (hm.1 u hu).added with hsame | ⟨d,dp',hparse,hadd,hnamed⟩
      · exact .inl (hsame ▸ hold)
      · rw [hadd,List.mem_append,List.mem_singleton] at hold
        rcases hold with hold | rfl
        · exact .inl hold
        · exact .inr ⟨l,List.mem_cons_self,d,hparse,hnamed⟩
    · exact .inr ⟨l',List.mem_cons_of_mem l hl',hd⟩

theorem drivers_right (lines : List Line) : AllRight lines ↔ Meets Conf.processLine Guard .init lines := by
  have hiff : Meets Conf.processLine (fun s l => ∀ t, s.processLine l = some t → Right s l t) .init lines ↔
      Meets Conf.processLine Guard .init lines := by
    refine meets_iff (I := fun s => Inv s.drivers s.majors) (fun s l hi => ?_) lines inv_init
    cases h : s.processLine l with
    | none => exact ⟨iff_of_true (fun t ht => by cases ht) (guard_of_exit h),fun t _ ht => by cases ht⟩
    | some u =>
      obtain ⟨hright,hinv⟩ := processLine_right hi h
      have honly : (∀ t, some u = some t → Right s l t) ↔ Right s l u :=
        ⟨fun hr => hr u rfl,fun hr t ht => Option.some.inj ht ▸ hr⟩
      exact ⟨honly.trans hright,fun t hr ht => Option.some.inj ht ▸ hinv (hright.mp (honly.mp hr))⟩
  rw [← hiff]
  refine ⟨And.left,fun hm => ⟨hm,fun t ht => ⟨fun dp hdp => ?_,Lib.Bubble.passes_length t.drivers⟩⟩⟩
  exact (named_of_run hm ht dp hdp).resolve_left List.not_mem_nil

/- `driver d p * 0`: a driver of 0 minors, for which no major is reserved. -/
def noMinors : Line := ⟨[' ','d',' ','p',' ','*',' ','0'],'x',[],[],0⟩

theorem not_all_right : ¬ ∀ lines : List Line, AllRight lines := by
  intro h
  have hnone : (Conf.init.processLine noMinors).any (fun t => t.drivers.any fun dp => dp.nmajors == 0) = true := by
    decide +kernel
  obtain ⟨t,ht,hdp⟩ := Option.any_eq_true _ _ |>.mp hnone
  obtain ⟨dp,hmem,hz⟩ := List.any_eq_true.mp hdp
  have hpos := (((h [noMinors]).1.1 t ht).consistent.owned dp hmem).2
  rw [beq_iff_eq.mp hz] at hpos
  omega

end CSLiS.Config
