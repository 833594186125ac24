import CSLiS.Stream.Route
import CSLiS.Queue.Message

/-!
# I_LIST, I_FIND and I_LOOK (head/head.c)

The three commands follow `q_next` from the write queue of the stream head, each with a rule of its own for where to
stop. The names are in memory, and something is behind each; the memory of the process is there.
-/

namespace CSLiS.Stream
open Lib Lib.Exec Qid Queue

/-- `strconfig.h:94-98`; the build with USE_OLD_CONSTS. -/
def FMNAMESZ (oldConsts : Bool) : ℕ := if oldConsts then 16 else 8

def EINVAL : ℤ := 22
def ENAMETOOLONG : ℤ := 36

/- A string in C, without the NUL. -/
structure Cstr where
  bytes : List Uchar
  noNul : 0 ∉ bytes
  deriving DecidableEq

/- The names of the queues (`lis_queue_name`) and what is in memory behind each NUL. -/
structure Names where
  name : Qid → Cstr
  behind : Qid → ℕ → Uchar

def Names.byte (w : Names) (q : Qid) (i : ℕ) : Uchar := ((w.name q).bytes ++ [0])[i]?.getD (w.behind q i)

/- `l_name` of an entry after its name was copied, and how many bytes were read of the name. -/
structure Entry where
  lName : List Uchar
  read : ℕ
  deriving DecidableEq, Repr

namespace Plumbing

variable (s : Plumbing) (fmnamesz : ℕ) (w : Names)

/-- `lis_safe_SAMESTR` (`safe.c:143-152`) -/
def samestr (q : Qid) : Bool :=
  match s.qNext q with
  | some nq => q.readr == nq.readr
  | none => false

/- The queues that the loop of I_LIST goes through. -/
def listLoop : ℕ → Option Qid → List Qid
  | 0,_ => []
  | _,none => []
  | n + 1,some q => q :: if s.samestr q then listLoop n (s.qNext q) else []

/- A copy of FMNAMESZ bytes into a field that ends with `old`. -/
def copyName (q : Qid) (old : Uchar) : Entry := ⟨(List.range fmnamesz).map (w.byte q) ++ [old],fmnamesz⟩

/-- I_LIST with an argument (`head.c:7442-7490`): the result and the entries stored, whose number is stored too. -/
def iList (h : ℕ) (user : ℕ → Uchar) (slNmods : ℤ) : ℤ × List Entry :=
  if slNmods ≤ 0 then (-EINVAL,[])
  else match s.qNext (WR h) with
    | none => (0,[])
    | some q => (0,(s.listLoop slNmods.toNat (some q)).mapIdx fun i q => copyName fmnamesz w q (user i))

/-- I_LIST without one (`head.c:7428-7440`) -/
def iListNull (k : Kind) (h : ℕ) : ℕ := s.sdPushcnt h + if k = .plain then 1 else 0

/- `strncmp` finds no difference. -/
def strncmpEq (a b : Cstr) (n : ℕ) : Bool := (a.bytes ++ [0]).take n == (b.bytes ++ [0]).take n

def findLoop (mname : Cstr) : ℕ → Option Qid → ℤ
  | 0,_ => 0
  | _,none => 0
  | n + 1,some q =>
      if strncmpEq (w.name q) mname fmnamesz then 1
      else if s.samestr q then findLoop mname n (s.qNext q) else 0

/-- I_FIND (`head.c:7089-7127`) -/
def iFind (h : ℕ) (mname : Cstr) : ℤ :=
  if fmnamesz < mname.bytes.length then -ENAMETOOLONG
  else if mname.bytes = [] then -EINVAL
  else findLoop s fmnamesz w mname (s.sdPushcnt h) (s.qNext (WR h))

/-- I_LOOK (`head.c:6951-6983`): the bytes stored. -/
def iLook (h : ℕ) : Option (List Uchar) :=
  if s.sdPushcnt h = 0 then none
  else (s.qNext (WR h)).map fun q => (List.range (min (w.name q).bytes.length fmnamesz + 1)).map (w.byte q)

end Plumbing

/- The write queues that have the names of a stream: the modules from the top down, and the driver. -/
def inspected (k : Kind) (m : Stacks) (h : ℕ) : List Qid := (m.mods h).map WR ++ if k = .plain then [WR 1] else []

/- The name is in the field, with a NUL, and no byte of it was read beyond its end. -/
structure Holds (name : Cstr) (e : Entry) : Prop where
  nul : 0 ∈ e.lName
  text : e.lName.takeWhile (· ≠ 0) = name.bytes
  read : e.read ≤ name.bytes.length + 1

/- The three commands agree with each other and with the modules. -/
structure Agree (k : Kind) (s : Plumbing) (m : Stacks) (fmnamesz : ℕ) (w : Names) (h : ℕ) (user : ℕ → Uchar) :
    Prop where
  count : ∀ room, (s.iListNull k h : ℤ) ≤ room → (s.iList fmnamesz w h user room).2.length = s.iListNull k h
  names : ∀ room, List.Forall₂ (fun q e => Holds (w.name q) e) ((inspected k m h).take room.toNat)
    (s.iList fmnamesz w h user room).2
  look : ∀ n l, m.mods h = n :: l → s.iLook fmnamesz w h = some ((w.name (WR n)).bytes ++ [0])
  find : ∀ mname, s.iFind fmnamesz w h mname = 1 ↔ ∃ n ∈ m.mods h, w.name (WR n) = mname

/- The names fill their fields but for the NUL, or all but the byte that is one already. -/
structure Fill (k : Kind) (m : Stacks) (fmnamesz : ℕ) (w : Names) (h : ℕ) (user : ℕ → Uchar) : Prop where
  module : k ≠ .plain → m.mods h ≠ []
  length : ∀ i q, (inspected k m h)[i]? = some q →
    (w.name q).bytes.length + 1 = fmnamesz ∨ ((w.name q).bytes.length = fmnamesz ∧ user i = 0)

namespace Plumbing

variable {k : Kind} {s : Plumbing} {m : Stacks} {w : Names} {h n : ℕ} {user : ℕ → Uchar} {o : Option Qid}
  {l r : List Qid} {q : Qid}

/-! ### The loops -/

/- Behind the list the direction changes, or there is nothing. -/
def Turns (r : List Qid) : Prop := ∀ q ∈ r.head?, q.readr = true

theorem samestr_last (hq : q.readr = false) (hr : Turns r) (ht : Threaded s.qNext (s.qNext q) r) :
    s.samestr q = false := by
  rw [samestr,ht.head]
  cases hh : r.head? with
  | none => rfl
  | some x => simp [hq,hr x (hh ▸ rfl)]

theorem samestr_next {x : Qid} (hq : q.readr = false) (hx : x.readr = false) (hn : s.qNext q = some x) :
    s.samestr q = true := by
  simp [samestr,hn,hq,hx]

theorem listLoop_take (hl : ∀ q ∈ l, q.readr = false) (hne : l ≠ []) (hr : Turns r)
    (ht : Threaded s.qNext o (l ++ r)) (n : ℕ) : s.listLoop n o = l.take n := by
  induction l generalizing o n with
  | nil => exact absurd rfl hne
  | cons q l ih =>
    obtain ⟨rfl,ht⟩ := ht
    cases n with
    | zero => rfl
    | succ n =>
      have hq := hl q (List.mem_cons_self ..)
      rw [listLoop,List.take_succ_cons]
      cases l with
      | nil =>
        rw [samestr_last hq hr ht]
        simp
      | cons x l =>
        have hx := hl x (List.mem_cons_of_mem _ (List.mem_cons_self ..))
        have hih := ih (fun y hy => hl y (List.mem_cons_of_mem _ hy)) (List.cons_ne_nil _ _) ht n
        rw [samestr_next hq hx ht.1,if_pos rfl,hih]

theorem findLoop_eq {mname : Cstr} {fm : ℕ} (hl : ∀ q ∈ l, q.readr = false) (ht : Threaded s.qNext o (l ++ r)) :
    findLoop s fm w mname l.length o = if ∃ q ∈ l, strncmpEq (w.name q) mname fm = true then 1 else 0 := by
  induction l generalizing o with
  | nil => simp [findLoop]
  | cons q l ih =>
    obtain ⟨rfl,ht⟩ := ht
    have hih := ih (fun y hy => hl y (List.mem_cons_of_mem _ hy)) ht
    rw [List.length_cons,findLoop]
    cases hc : strncmpEq (w.name q) mname fm with
    | true => simp [hc]
    | false =>
      have hex : (∃ x ∈ q :: l, strncmpEq (w.name x) mname fm = true) ↔
          ∃ x ∈ l, strncmpEq (w.name x) mname fm = true := by
        simp [hc]
      simp only [Bool.false_eq_true,if_false,hex]
      cases l with
      | nil => cases s.samestr q <;> simp [findLoop]
      | cons x l =>
        have hx := hl x (List.mem_cons_of_mem _ (List.mem_cons_self ..))
        rw [samestr_next (hl q (List.mem_cons_self ..)) hx ht.1,if_pos rfl]
        exact hih

/-! ### The names -/

theorem map_byte (w : Names) (q : Qid) (hn : n ≤ (w.name q).bytes.length + 1) :
    (List.range n).map (w.byte q) = ((w.name q).bytes ++ [0]).take n := by
  refine List.ext_getElem (by simp; omega) fun i hi hi' => ?_
  have hlt : i < ((w.name q).bytes ++ [0]).length := (List.length_take_le' _ _).trans_lt' hi' |>.trans_le le_rfl
  rw [List.getElem_map,List.getElem_range,List.getElem_take,Names.byte,List.getElem?_eq_getElem hlt]
  rfl

theorem takeWhile_name (a : Cstr) (l : List Uchar) (hl : l.head? = some 0 ∨ l = []) :
    (a.bytes ++ l).takeWhile (· ≠ 0) = a.bytes := by
  have hnil : l.takeWhile (· ≠ 0) = [] := by
    rcases hl with hl | rfl
    · obtain ⟨x,l,rfl⟩ := List.exists_cons_of_ne_nil (fun hc : l = [] => by simp [hc] at hl)
      simp_all
    · rfl
  rw [List.takeWhile_append_of_pos fun x hx => by simpa using fun hc : x = 0 => a.noNul (hc ▸ hx),hnil,List.append_nil]

theorem strncmpEq_iff {a b : Cstr} {fm : ℕ} (ha : a.bytes.length ≤ fm) (hb : b.bytes.length ≤ fm) :
    strncmpEq a b fm = true ↔ a = b := by
  have htake : ∀ c : Cstr, c.bytes.length ≤ fm → ((c.bytes ++ [0]).take fm).takeWhile (· ≠ 0) = c.bytes := by
    intro c hc
    rw [List.take_append,List.take_of_length_le hc]
    refine takeWhile_name c _ ?_
    cases fm - c.bytes.length <;> simp
  rw [strncmpEq,beq_iff_eq]
  constructor
  · intro h
    have := congrArg (List.takeWhile (· ≠ 0)) h
    rw [htake a ha,htake b hb] at this
    cases a
    cases b
    simpa using this
  · rintro rfl
    rfl

/- When a field holds the name that was copied into it. -/
theorem copyName_holds {fm : ℕ} {old : Uchar} (hq : (w.name q).bytes.length ≤ fm) :
    Holds (w.name q) (copyName fm w q old) ↔
      (w.name q).bytes.length + 1 = fm ∨ ((w.name q).bytes.length = fm ∧ old = 0) := by
  constructor
  · intro h
    have hread : fm ≤ (w.name q).bytes.length + 1 := h.read
    rcases Nat.lt_or_ge (w.name q).bytes.length fm with hlt | hge
    · exact Or.inl (by omega)
    · have heq : (w.name q).bytes.length = fm := by omega
      have hnul := h.nul
      rw [copyName,map_byte w q hread,List.take_append_of_le_length heq.ge,List.take_of_length_le hq,
        List.mem_append] at hnul
      exact Or.inr ⟨heq,(List.mem_singleton.mp (hnul.resolve_left (w.name q).noNul)).symm⟩
  · rintro (heq | ⟨heq,rfl⟩)
    · have hname : (copyName fm w q old).lName = (w.name q).bytes ++ [0,old] := by
        rw [copyName,map_byte w q heq.ge,List.take_of_length_le (by simp; omega)]
        simp
      exact ⟨by rw [hname]; simp,by rw [hname]; exact takeWhile_name _ _ (Or.inl rfl),heq.ge⟩
    · have hname : (copyName fm w q 0).lName = (w.name q).bytes ++ [0] := by
        rw [copyName,map_byte w q (by omega),List.take_append_of_le_length heq.ge,List.take_of_length_le hq]
      exact ⟨by rw [hname]; simp,by rw [hname]; exact takeWhile_name _ _ (Or.inl rfl),by simp [copyName]; omega⟩

/-! ### The commands -/

theorem inspected_threaded (hp : Plumbed k s m) (hh : h ∈ k.heads) :
    ∃ r, Turns r ∧ Threaded s.qNext (s.qNext (WR h)) (inspected k m h ++ r) := by
  have ht := hp.route hh
  cases k with
  | plain => exact ⟨[],by simp [Turns],by simpa [inspected,Stacks.route,Threaded] using ht⟩
  | fifo =>
    refine ⟨(m.mods h).reverse.map RD ++ [RD h],?_,by simpa [inspected,Stacks.route,Threaded] using ht⟩
    cases (m.mods h).reverse <;> simp [Turns,RD]
  | pipe =>
    refine ⟨(m.mods (1 - h)).reverse.map RD ++ [RD (1 - h)],?_,by simpa [inspected,Stacks.route,Threaded] using ht⟩
    cases (m.mods (1 - h)).reverse <;> simp [Turns,RD]

theorem inspected_writers (k : Kind) (m : Stacks) (h : ℕ) : ∀ q ∈ inspected k m h, q.readr = false := by
  intro q hq
  rcases List.mem_append.mp hq with hq | hq
  · obtain ⟨n,-,rfl⟩ := List.mem_map.mp hq
    rfl
  · split_ifs at hq
    · exact List.mem_singleton.mp hq ▸ rfl
    · exact absurd hq List.not_mem_nil

theorem iListNull_eq (hp : Plumbed k s m) : s.iListNull k h = (inspected k m h).length := by
  rw [iListNull,hp.pushcnt,inspected,List.length_append,List.length_map]
  split_ifs <;> rfl

/- What I_LIST stores when there is a module or a driver. -/
theorem iList_entries (hp : Plumbed k s m) (hh : h ∈ k.heads) (hne : inspected k m h ≠ []) (fm : ℕ) (room : ℤ) :
    (s.iList fm w h user room).2 =
      ((inspected k m h).take room.toNat).mapIdx fun i q => copyName fm w q (user i) := by
  obtain ⟨r,hr,ht⟩ := inspected_threaded hp hh
  obtain ⟨y,hy⟩ := hp.head_next hh
  rw [iList]
  split_ifs with h0
  · rw [Int.toNat_of_nonpos h0]
    rfl
  · have hloop := listLoop_take (inspected_writers k m h) hne hr ht room.toNat
    rw [hy] at hloop ⊢
    exact congrArg (List.mapIdx fun i q => copyName fm w q (user i)) hloop

/- One entry too many is stored when there is none. -/
theorem iList_none (hp : Plumbed k s m) (hh : h ∈ k.heads) (fm : ℕ) : (s.iList fm w h user 1).2.length = 1 := by
  obtain ⟨y,hy⟩ := hp.head_next hh
  rw [iList,if_neg (by decide),hy]
  cases hs : s.samestr y <;> simp [listLoop,hs]

theorem iLook_eq (hp : Plumbed k s m) (hh : h ∈ k.heads) {fm : ℕ} (hfm : ∀ q, (w.name q).bytes.length ≤ fm) {l : List ℕ}
    (hm : m.mods h = n :: l) : s.iLook fm w h = some ((w.name (WR n)).bytes ++ [0]) := by
  obtain ⟨r,-,ht⟩ := inspected_threaded hp hh
  have hcnt : s.sdPushcnt h ≠ 0 := by rw [hp.pushcnt,hm]; exact Nat.succ_ne_zero _
  have hy : s.qNext (WR h) = some (WR n) := by
    rw [inspected,hm] at ht
    exact ht.head
  rw [iLook,if_neg hcnt,hy,Option.map_some,Nat.min_eq_left (hfm _),map_byte w _ le_rfl,List.take_of_length_le (by simp)]

theorem iFind_iff (hp : Plumbed k s m) (hh : h ∈ k.heads) {fm : ℕ} (hfm : ∀ q, (w.name q).bytes.length ≤ fm)
    (hmods : ∀ n ∈ m.mods h, (w.name (WR n)).bytes ≠ []) (mname : Cstr) :
    s.iFind fm w h mname = 1 ↔ ∃ n ∈ m.mods h, w.name (WR n) = mname := by
  obtain ⟨r,-,ht⟩ := inspected_threaded hp hh
  rw [iFind]
  split_ifs with hlong hnil
  · refine iff_of_false (by decide) ?_
    rintro ⟨n,-,rfl⟩
    exact absurd (hfm (WR n)) (by omega)
  · refine iff_of_false (by decide) ?_
    rintro ⟨n,hn,rfl⟩
    exact hmods n hn hnil
  · rw [inspected,List.append_assoc] at ht
    have hwriters : ∀ q ∈ (m.mods h).map WR, q.readr = false := fun q hq => by
      obtain ⟨n,-,rfl⟩ := List.mem_map.mp hq
      rfl
    have hloop : findLoop s fm w mname ((m.mods h).map WR).length (s.qNext (WR h)) = _ := findLoop_eq hwriters ht
    rw [List.length_map,← hp.pushcnt] at hloop
    have hex : (∃ q ∈ (m.mods h).map WR, strncmpEq (w.name q) mname fm = true) ↔
        ∃ n ∈ m.mods h, w.name (WR n) = mname := by
      constructor
      · rintro ⟨q,hq,he⟩
        obtain ⟨n,hn,rfl⟩ := List.mem_map.mp hq
        exact ⟨n,hn,(strncmpEq_iff (hfm _) (by omega)).mp he⟩
      · rintro ⟨n,hn,rfl⟩
        exact ⟨WR n,List.mem_map_of_mem hn,(strncmpEq_iff (hfm _) (hfm _)).mpr rfl⟩
    rw [hloop,← hex]
    split_ifs with he
    · exact iff_of_true rfl he
    · exact iff_of_false (by decide) he

/- The commands agree when each name fills its field, and there is a name. -/
theorem agree_iff (hp : Plumbed k s m) (hh : h ∈ k.heads) {fm : ℕ} (h1 : 1 < fm)
    (hfm : ∀ q, (w.name q).bytes.length ≤ fm) : Agree k s m fm w h user ↔ Fill k m fm w h user := by
  have hhold : ∀ i q, Holds (w.name q) (copyName fm w q (user i)) ↔
      (w.name q).bytes.length + 1 = fm ∨ ((w.name q).bytes.length = fm ∧ user i = 0) := fun i q =>
    copyName_holds (hfm q)
  constructor
  · intro ha
    have hmod : k ≠ .plain → m.mods h ≠ [] := by
      intro hk hnil
      have hz : s.iListNull k h = 0 := by rw [iListNull_eq hp,inspected,hnil,if_neg hk]; rfl
      have := ha.count 1 (by rw [hz]; decide)
      rw [iList_none hp hh,hz] at this
      exact Nat.one_ne_zero this
    have hne : inspected k m h ≠ [] := by
      by_cases hk : k = .plain
      · simp [inspected,hk]
      · simpa [inspected,hk] using hmod hk
    refine ⟨hmod,fun i q hq => ?_⟩
    have hn := ha.names (inspected k m h).length
    rw [iList_entries hp hh hne,Int.toNat_natCast,List.take_length] at hn
    obtain ⟨hi,rfl⟩ := List.getElem?_eq_some_iff.mp hq
    have := (List.forall₂_iff_get.mp hn).2 i hi (by simpa using hi)
    rw [← hhold]
    simpa using this
  · intro hfill
    have hne : inspected k m h ≠ [] := by
      by_cases hk : k = .plain
      · simp [inspected,hk]
      · simpa [inspected,hk] using hfill.module hk
    have hpos := List.length_pos_of_ne_nil hne
    refine ⟨fun room hroom => ?_,fun room => ?_,fun n l hm => iLook_eq hp hh hfm hm,
      iFind_iff hp hh hfm fun n hn hnil => ?_⟩
    · rw [iListNull_eq hp] at hroom ⊢
      rw [iList_entries hp hh hne,List.length_mapIdx,List.length_take]
      omega
    · rw [iList_entries hp hh hne]
      refine List.forall₂_iff_get.mpr ⟨by simp,fun i hi hi' => ?_⟩
      have hlt : i < (inspected k m h).length := by simp at hi; omega
      have := (hhold i _).mpr (hfill.length i _ (List.getElem?_eq_getElem hlt))
      simpa using this
    · obtain ⟨i,hi,he⟩ := List.getElem_of_mem (List.mem_append_left (if k = .plain then [WR 1] else [])
        (List.mem_map_of_mem (f := WR) hn))
      have := hfill.length i (WR n) (he ▸ List.getElem?_eq_getElem hi)
      rw [hnil,List.length_nil] at this
      omega

/- After every run of pushes and pops, in either build. -/
theorem inspection_iff {maxpushcnt : ℕ → ℕ} {as : List PlumbAct} (hs : exec (step k) (init maxpushcnt k) as = some s)
    (hh : h ∈ k.heads) (oldConsts : Bool) (hw : ∀ q, (w.name q).bytes.length ≤ FMNAMESZ oldConsts) (user : ℕ → Uchar) :
    ∃ m, exec Stacks.step Stacks.init as = some m ∧
      (Agree k s m (FMNAMESZ oldConsts) w h user ↔ Fill k m (FMNAMESZ oldConsts) w h user) := by
  obtain ⟨m,hm,hp⟩ := exec_simulates (fun _ _ _ _ => step_plumbed) (init_plumbed k maxpushcnt) hs
  exact ⟨m,hm,agree_iff hp hh (by cases oldConsts <;> decide) hw⟩

/- Queues that are all called "loop". -/
def loopNames : Names := ⟨fun _ => ⟨[108,111,111,112],by decide⟩,fun _ _ => 0⟩

theorem loopNames_short (q : Qid) : (loopNames.name q).bytes.length ≤ FMNAMESZ false := by
  change 4 ≤ 8
  decide

theorem inspection_iff_pipe : ∃ s, exec (step .pipe) (init (fun _ => 0) .pipe) [.push 0 true,.push 1 true] = some s ∧
    ∃ m, exec Stacks.step Stacks.init [.push 0 true,.push 1 true] = some m ∧
      (Agree .pipe s m (FMNAMESZ false) loopNames 1 (fun _ => 0) ↔
        Fill .pipe m (FMNAMESZ false) loopNames 1 fun _ => 0) :=
  Exists.imp (fun _ hs => ⟨hs,inspection_iff hs (by decide) false loopNames_short fun _ => 0⟩)
    (Option.isSome_iff_exists.mp rfl)

/- I_LIST reads eight bytes of the name of a driver that has five. -/
theorem name_overread : ¬ ∀ (k : Kind) (maxpushcnt : ℕ → ℕ) (as : List PlumbAct) (s : Plumbing) (m : Stacks) (h : ℕ)
    (oldConsts : Bool) (w : Names) (user : ℕ → Uchar), exec (step k) (init maxpushcnt k) as = some s →
    exec Stacks.step Stacks.init as = some m → h ∈ k.heads → (∀ q, (w.name q).bytes.length ≤ FMNAMESZ oldConsts) →
    Agree k s m (FMNAMESZ oldConsts) w h user := by
  intro hall
  have ha := hall .plain (fun _ => 0) [] _ _ 0 false loopNames (fun _ => 0) rfl rfl (List.mem_singleton_self _)
    loopNames_short
  have hfill := (agree_iff (init_plumbed .plain fun _ => 0) (List.mem_singleton_self _) (by decide)
    loopNames_short).mp ha
  exact absurd (hfill.length 0 (WR 1) rfl) (by decide)

end Plumbing

end CSLiS.Stream
