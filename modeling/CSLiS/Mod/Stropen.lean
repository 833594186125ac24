import CSLiS.Mod.Stacks

/-!
# An open that fails (head/head.c)

`lis_stropen` for a device that has no other open, with every place at which it can fail. The call goes by what
the routines and waits return. Of a stream head that it finds, another open or close is in progress; such a head
is given up again. `Stacks` has the stack of the new head only. Of inodes, dentries and names there is only
whether they could be made.
-/

namespace CSLiS.Mod.Opening
open Queue Pushing

/- A round that finds a head: whether `lis_stdata_sem` and its `sd_opening` are obtained. -/
structure Race where
  sem : Bool
  opening : Bool
  deriving DecidableEq, Repr

/- The open routine has chosen another device: `lis_stdata_sem`, whether the device is in use, the new inode. -/
structure Clone where
  sem : Bool
  inUse : Bool
  inode : Bool
  deriving DecidableEq, Repr

/- A module of the autopush list: what `lis_loadmod` returns, whether its `f_sem` is obtained, and the push. -/
structure Automod where
  id : ℕ
  sem : Bool
  push : Outcome
  deriving DecidableEq, Repr

/- `opened` is returned by `lis_open_fifo` or `lis_qattach`, `sync` by `lis_set_q_sync`, `fifoSync` by
`lis_fifo_open_sync`. `fCount` is the count of the file. -/
structure Ways where
  races : List Race
  sem : Bool
  head : Bool
  opening : Bool
  inode : Bool
  fifo : Bool
  opened : ℤ
  clone : Option Clone
  sync : ℤ
  mods : List Automod
  fifoSync : ℤ
  fCount : ℕ
  deriving DecidableEq, Repr

/- Semaphores, and references to stream heads, that have been taken less those given back. `driver` and `own` are
queue pairs whose open routine has succeeded: that of the driver, and that of the head of a FIFO. -/
structure Opener where
  table : Stacks
  driver : Bool
  own : Bool
  refs : ℤ
  opencnt : ℤ
  stdataSem : ℤ
  sdOpening : ℤ
  fSem : ℕ → ℤ

/- `stdata_locked`, `hd_locked`, and whether `head` is not null. -/
structure Locals where
  head : Bool
  stdataLocked : Bool
  hdLocked : Bool
  deriving DecidableEq, Repr

/- A new head, before the call. -/
def newHead : Head := ⟨[],0,0⟩

def opener (s : Stacks) : Opener := ⟨{ s with heads := [newHead] },false,false,0,0,0,0,fun _ => 0⟩

namespace Opener

variable (s : Opener)

def stack : List Inst := ((s.table.heads[0]?).getD newHead).stack

def setStack (l : List Inst) : Opener :=
  { s with table := s.table.setHead 0 { (s.table.heads[0]?).getD newHead with stack := l } }

/- `SAMESTR` of the write queue of the head. -/
def sameStr : Bool := s.driver || s.stack ≠ []

/- `lis_qdetach` of the queue pair below the head. -/
def detachBelow : Opener :=
  match s.stack with
  | [] => { s with driver := false }
  | mod :: l => s.setStack (lisQdetach (mod :: l))

/-- `lis_dismantle` (`head.c:1328-1342`) -/
def lisDismantle : Opener := { s with own := false }

/- `error_rtn` (`head.c:5222-5276`). No head here counts an open. -/
def errorRtn (l : Locals) (err : ℤ) : Opener × ℤ :=
  let s := if l.stdataLocked then { s with stdataSem := s.stdataSem - 1 } else s
  if l.head then
    let s := if l.hdLocked then { s with sdOpening := s.sdOpening - 1 } else s
    let s := if s.sameStr then s.detachBelow else s
    let s := s.lisDismantle
    ({ s with refs := s.refs - 1 },err)
  else (s,err)

/- The head of the stream is there, and its opening semaphore is held. -/
def held : Locals := ⟨true,false,true⟩

/- `successful_rtn` (`head.c:5124-5220`). -/
def successfulRtn (x : Ways) : Opener × ℤ :=
  if x.fifo ∧ x.fifoSync < 0 then s.errorRtn held x.fifoSync
  else
    let s := if x.fCount = 1 then { s with opencnt := s.opencnt + 1 }
      else if 1 < x.fCount then { s with refs := s.refs - 1 } else s
    ({ s with sdOpening := s.sdOpening - 1 },0)

/- The modules of the autopush list (`head.c:5095-5122`). -/
def autopush (x : Ways) : List Automod → Opener → Opener × ℤ
  | [], s => s.successfulRtn x
  | m :: ms, s =>
      if m.id = 0 ∨ (s.table.sw m.id).fStr = none then s.errorRtn held (-ENOSR)
      else if !m.sem then s.errorRtn held (-EINTR)
      else
        let s := { s with fSem := Function.update s.fSem m.id (s.fSem m.id + 1) }
        match s.table.pushMod 0 m.id m.push with
        | none => (s,0)
        | some r =>
            let s := { s with table := r.2 }
            if r.1 < 0 then s.errorRtn held r.1
            else autopush x ms { s with fSem := Function.update s.fSem m.id (s.fSem m.id - 1) }

/- The queues have been attached (`head.c:4964-5093`). -/
def attached (x : Ways) : Opener × ℤ :=
  let synced := fun (s : Opener) => if x.sync < 0 then s.errorRtn held x.sync else autopush x x.mods s
  match x.clone with
  | none => synced s
  | some c =>
      if !c.sem then s.errorRtn held (-EINTR)
      else
        let s := { s with stdataSem := s.stdataSem + 1 }
        if c.inUse then s.errorRtn ⟨true,true,true⟩ (-EBUSY)
        else
          let s := { s with stdataSem := s.stdataSem - 1 }
          if !c.inode then s.errorRtn held (-QSyncs.ENOMEM) else synced s

/- The stream is new (`head.c:4874-4963`). -/
def newStream (x : Ways) : Opener × ℤ :=
  if !x.inode then s.errorRtn held (-QSyncs.ENOMEM)
  else if x.opened < 0 then s.errorRtn held x.opened
  else (if x.fifo then { s with own := true } else { s with driver := true }).attached x

/- The last round, with a new head (`head.c:4682-4795`). `stale` says that `head` is not null before. -/
def lastRound (x : Ways) (stale : Bool) : Opener × ℤ :=
  if !x.sem then s.errorRtn ⟨stale,false,false⟩ (-EINTR)
  else
    let s := { s with stdataSem := s.stdataSem + 1 }
    if !x.head then s.errorRtn ⟨false,true,false⟩ (-QSyncs.ENOMEM)
    else
      let s := { s with refs := s.refs + 1, stdataSem := s.stdataSem - 1 }
      if !x.opening then s.errorRtn ⟨true,false,false⟩ (-EINTR)
      else { s with sdOpening := s.sdOpening + 1 }.newStream x

/- The rounds that start over (`head.c:4672-4795`). -/
def rounds (x : Ways) : List Race → Bool → Opener → Opener × ℤ
  | [], stale, s => s.lastRound x stale
  | r :: rs, stale, s =>
      if !r.sem then s.errorRtn ⟨stale,false,false⟩ (-EINTR)
      else
        let s := { s with refs := s.refs + 1 }
        if !r.opening then s.errorRtn ⟨true,false,false⟩ (-EINTR)
        else rounds x rs true { s with refs := s.refs - 1 }

/-- `lis_stropen` (`head.c:4556-5278`) -/
def lisStropen (x : Ways) : Opener × ℤ := rounds x x.races false s

/- Everything that the call has acquired is released. -/
structure Released (t : Opener) : Prop where
  refs : t.refs = s.refs
  stdataSem : t.stdataSem = s.stdataSem
  sdOpening : t.sdOpening = s.sdOpening
  fSem : ∀ id, t.fSem id = s.fSem id
  fCount : ∀ id, (t.table.sw id).fCount = (s.table.sw id).fCount
  driver : t.driver = false
  own : t.own = false
  stack : t.stack = []

end Opener

/-! ### When it does -/

/- In a round after the first one the wait for `lis_stdata_sem` fails. -/
def Ways.losesSem (x : Ways) : List Race → Bool
  | [] => !x.sem
  | r :: rs => !r.sem || (r.opening && x.losesSem rs)

def Ways.stale (x : Ways) : Bool :=
  match x.races with
  | [] => false
  | r :: rs => r.sem && r.opening && x.losesSem rs

/- The new device is not in use, and can be taken. -/
def Ways.cloned (x : Ways) : Bool :=
  match x.clone with
  | none => true
  | some c => c.sem && !c.inUse && c.inode

/- The first module of the autopush list is loaded and its semaphore is obtained. -/
def Ways.firstPushed (s : Stacks) (x : Ways) : Bool :=
  x.mods.head?.any fun m => m.id ≠ 0 && (s.sw m.id).fStr.isSome && m.sem

/- The new head can be attached to its queues. -/
def Ways.attaches (x : Ways) : Bool := x.sem && x.head && x.opening && x.inode && 0 ≤ x.opened

/- `push_mod` is called. -/
def Ways.pushes (s : Stacks) (x : Ways) : Bool :=
  x.races.all (fun r => r.sem && r.opening) && x.attaches && x.cloned && 0 ≤ x.sync && x.firstPushed s

namespace Opener

variable {st : Stacks} {s t : Opener} {x : Ways} {l : Locals} {err : ℤ} {m : Automod} {ms : List Automod} {hd : Head}

/-! ### The exit -/

theorem detachBelow_fSem (s : Opener) : s.detachBelow.fSem = s.fSem := by
  rw [detachBelow]
  cases s.stack <;> rfl

theorem detachBelow_sw (s : Opener) : s.detachBelow.table.sw = s.table.sw := by
  rw [detachBelow]
  cases s.stack <;> rfl

theorem errorRtn_fSem (s : Opener) (l : Locals) (err : ℤ) : (s.errorRtn l err).1.fSem = s.fSem := by
  simp only [errorRtn,lisDismantle]
  split_ifs <;> simp [detachBelow_fSem]

theorem errorRtn_sw (s : Opener) (l : Locals) (err : ℤ) : (s.errorRtn l err).1.table.sw = s.table.sw := by
  simp only [errorRtn,lisDismantle]
  split_ifs <;> simp [detachBelow_sw]

/- What the call has, going by its locals, when no module is on the stream. -/
structure Holds (st : Stacks) (l : Locals) (s : Opener) : Prop where
  table : s.table = { st with heads := [newHead] }
  refs : s.refs = l.head.toNat
  stdataSem : s.stdataSem = l.stdataLocked.toNat
  sdOpening : s.sdOpening = l.hdLocked.toNat
  fSem : ∀ id, s.fSem id = 0
  queues : l.head = false → s.driver = false ∧ s.own = false
  locked : l.head = false → s.sdOpening = 0

theorem Holds.stack (h : Holds st l s) : s.stack = [] := by
  rw [Opener.stack,h.table]
  rfl

/- With no module on the stream the driver is the queue pair below the head. -/
theorem exit_empty (hs : s.stack = []) : (if s.sameStr then s.detachBelow else s) = { s with driver := false } := by
  have hd : s.detachBelow = { s with driver := false } := by rw [detachBelow,hs]
  rw [sameStr,hs,hd]
  obtain ⟨table,driver,own,refs,opencnt,stdataSem,sdOpening,fSem⟩ := s
  cases driver <;> rfl

theorem errorRtn_empty (hs : s.stack = []) (hl : l.head = true) : s.errorRtn l err =
    ({ s with stdataSem := s.stdataSem - l.stdataLocked.toNat, sdOpening := s.sdOpening - l.hdLocked.toNat,
              driver := false, own := false, refs := s.refs - 1 },err) := by
  obtain ⟨head,stdataLocked,hdLocked⟩ := l
  obtain rfl : head = true := hl
  cases stdataLocked <;> cases hdLocked
  all_goals
    simp only [errorRtn,Bool.false_eq_true,if_false,if_true]
    rw [exit_empty (by exact hs),lisDismantle]
    simp

theorem errorRtn_headless (hl : l.head = false) :
    s.errorRtn l err = ({ s with stdataSem := s.stdataSem - l.stdataLocked.toNat },err) := by
  obtain ⟨head,stdataLocked,hdLocked⟩ := l
  obtain rfl : head = false := hl
  cases stdataLocked <;> simp [errorRtn]

theorem Holds.released (h : Holds st l s) (err : ℤ) : (opener st).Released (s.errorRtn l err).1 := by
  have hsw (id : ℕ) : (s.table.sw id).fCount = ((opener st).table.sw id).fCount := by rw [h.table]; rfl
  have hsem : s.stdataSem - l.stdataLocked.toNat = 0 := by rw [h.stdataSem,sub_self]
  have hopen : s.sdOpening - l.hdLocked.toNat = 0 := by rw [h.sdOpening,sub_self]
  cases hl : l.head with
  | true =>
    rw [errorRtn_empty h.stack hl]
    have hrefs : s.refs - 1 = 0 := by rw [h.refs,hl]; rfl
    exact ⟨hrefs,hsem,hopen,h.fSem,hsw,rfl,rfl,h.stack⟩
  | false =>
    rw [errorRtn_headless hl]
    have hrefs : s.refs = 0 := by rw [h.refs,hl]; rfl
    exact ⟨hrefs,hsem,h.locked hl,h.fSem,hsw,(h.queues hl).1,(h.queues hl).2,h.stack⟩

/- A head that was given up is put once more. -/
theorem Holds.put_twice (h : Holds st ⟨false,false,false⟩ s) (err : ℤ) :
    ¬ (opener st).Released (s.errorRtn ⟨true,false,false⟩ err).1 := by
  intro hr
  have hrefs := hr.refs
  rw [errorRtn_empty h.stack rfl] at hrefs
  have h0 : s.refs = 0 := h.refs
  have h1 : s.refs - 1 = 0 := hrefs
  omega

/-! ### Modules -/

/- Queue pairs that the exit does not close, or a count that it does not lower. -/
structure Carries (st : Stacks) (s : Opener) : Prop where
  heads : ∃ hd, s.table.heads = [hd]
  stack : s.stack ≠ []
  lost : s.driver = true ∨ 2 ≤ s.stack.length ∨ ∃ id, (s.table.sw id).fCount = (st.sw id).fCount + 1

theorem Carries.of_eq (h : Carries st s) (ht : t.table = s.table) (hd : t.driver = s.driver) : Carries st t := by
  obtain ⟨table,driver,own,refs,opencnt,stdataSem,sdOpening,fSem⟩ := t
  obtain rfl : table = s.table := ht
  obtain rfl : driver = s.driver := hd
  exact ⟨h.heads,h.stack,h.lost⟩

theorem detachBelow_modules (hh : s.table.heads = [hd]) (hs : s.stack ≠ []) :
    s.detachBelow.driver = s.driver ∧ s.detachBelow.stack = s.stack.tail := by
  rw [detachBelow]
  cases hl : s.stack with
  | nil => exact absurd hl hs
  | cons mod l => exact ⟨rfl,by simp [setStack,stack,Stacks.setHead,hh,lisQdetach]⟩

/- The exit closes the last module only. -/
theorem errorRtn_modules (err : ℤ) (hh : s.table.heads = [hd]) (hs : s.stack ≠ []) :
    (s.errorRtn held err).1.driver = s.driver ∧ (s.errorRtn held err).1.stack = s.stack.tail := by
  have hsame : sameStr { s with sdOpening := s.sdOpening - 1 } = true := by
    rw [sameStr,show stack { s with sdOpening := s.sdOpening - 1 } = s.stack from rfl]
    simp [hs]
  have hd : (detachBelow { s with sdOpening := s.sdOpening - 1 }).driver = s.driver ∧
      (detachBelow { s with sdOpening := s.sdOpening - 1 }).stack = s.stack.tail := detachBelow_modules hh hs
  simp only [errorRtn,held,Bool.false_eq_true,if_false,if_true,hsame]
  exact hd

theorem Carries.kept (h : Carries st s) (err : ℤ) : ¬ (opener st).Released (s.errorRtn held err).1 := by
  intro hr
  obtain ⟨hd,hh⟩ := h.heads
  obtain ⟨hdriver,hstack⟩ := errorRtn_modules err hh h.stack
  rcases h.lost with hdrv | hlen | ⟨id,hc⟩
  · exact absurd (hdriver.symm.trans hr.driver) (by rw [hdrv]; decide)
  · have htail : s.stack.tail = [] := hstack.symm.trans hr.stack
    have hlt := congrArg List.length htail
    rw [List.length_tail,List.length_nil] at hlt
    omega
  · have hcount := hr.fCount id
    rw [errorRtn_sw,hc] at hcount
    exact absurd hcount (by show (st.sw id).fCount + 1 ≠ (st.sw id).fCount; bv_omega)

/- The module that has been pushed is on top, and counted. -/
theorem pushed_head (hh : s.table.heads = [hd]) (id : ℕ) : ∃ m hd2, (s.table.pushed 0 hd id).heads = [hd2] ∧
    hd2.stack = m :: s.stack ∧ ((s.table.pushed 0 hd id).sw id).fCount = (s.table.sw id).fCount + 1 := by
  let m : Inst := ⟨id,(lisSetq (s.table.sw id).fStr).bind fun qi => qi.2.miIdname⟩
  refine ⟨m,{ hd with stack := m :: hd.stack, sdPushcnt := hd.sdPushcnt + 1 },?_,?_,?_⟩
  · simp only [Stacks.pushed,Stacks.setHead,Stacks.setCount,hh,List.set_cons_zero,m]
  · rw [stack,hh]
    rfl
  · rw [Stacks.pushed,Stacks.setCount_sw,if_pos rfl]

theorem Carries.pushed (h : Carries st s) (hh : s.table.heads = [hd]) (id : ℕ) :
    Carries st { s with table := s.table.pushed 0 hd id } := by
  obtain ⟨m,hd2,hheads,hstack,-⟩ := pushed_head hh id
  have hst : Opener.stack { s with table := s.table.pushed 0 hd id } = m :: s.stack := by
    rw [Opener.stack,hheads,← hstack]
    rfl
  refine ⟨⟨hd2,hheads⟩,by rw [hst]; exact List.cons_ne_nil _ _,.inr (.inl ?_)⟩
  have hne := List.length_pos_iff.mpr h.stack
  rw [hst,List.length_cons]
  omega

/- The first module. -/
theorem Holds.pushed (h : Holds st held s) (id : ℕ) : Carries st { s with table := s.table.pushed 0 newHead id } := by
  have hh : s.table.heads = [newHead] := by rw [h.table]
  obtain ⟨m,hd2,hheads,hstack,hcount⟩ := pushed_head hh id
  have hst : Opener.stack { s with table := s.table.pushed 0 newHead id } = m :: s.stack := by
    rw [Opener.stack,hheads,← hstack]
    rfl
  refine ⟨⟨hd2,hheads⟩,?_,.inr (.inr ⟨id,?_⟩)⟩
  · rw [hst]
    exact List.cons_ne_nil _ _
  · rw [hcount,h.table]

/- The semaphore of a module whose push has failed stays down. -/
theorem fSem_kept {id : ℕ} (h : s.fSem id = 1) (l : Locals) (err : ℤ) :
    ¬ (opener st).Released (s.errorRtn l err).1 := by
  intro hr
  have hsem := hr.fSem id
  rw [errorRtn_fSem,h] at hsem
  exact absurd hsem one_ne_zero

theorem push_cases (hh : s.table.heads = [hd]) (id : ℕ) (o : Outcome) :
    (∃ err, err < 0 ∧ s.table.pushMod 0 id o = some (err,s.table)) ∨
      s.table.pushMod 0 id o = some (0,s.table.pushed 0 hd id) := by
  have hk : s.table.heads[0]? = some hd := by rw [hh]; rfl
  by_cases hr : s.table.Refused hd id o
  · exact .inl (Stacks.pushMod_refused hk hr)
  · exact .inr (Stacks.pushMod_done hk hr)

/- The end of the call, for a stream that has modules. -/
theorem successfulRtn_kept (h : Carries st s) (he : (s.successfulRtn x).2 < 0) :
    ¬ (opener st).Released (s.successfulRtn x).1 := by
  rw [successfulRtn] at he ⊢
  split_ifs at he ⊢ with hf
  · exact h.kept _
  all_goals exact absurd he (lt_irrefl 0)

/- The semaphore of a module that is pushed is obtained, and given back. -/
theorem fSem_back (hf : ∀ id, s.fSem id = 0) (i : ℕ) (id : ℕ) :
    Function.update (Function.update s.fSem i (s.fSem i + 1)) i
      (Function.update s.fSem i (s.fSem i + 1) i - 1) id = 0 := by
  rw [Function.update_idem,Function.update_self,add_sub_cancel_right,Function.update_eq_self]
  exact hf id

theorem fSem_taken (hf : ∀ id, s.fSem id = 0) (id : ℕ) : Function.update s.fSem id (s.fSem id + 1) id = 1 := by
  rw [Function.update_self,hf,zero_add]

theorem autopush_kept (h : Carries st s) (hf : ∀ id, s.fSem id = 0) (he : (autopush x ms s).2 < 0) :
    ¬ (opener st).Released (autopush x ms s).1 := by
  induction ms generalizing s with
  | nil => exact successfulRtn_kept h he
  | cons m ms ih =>
    obtain ⟨hd,hh⟩ := h.heads
    rw [autopush] at he ⊢
    by_cases hload : m.id = 0 ∨ (s.table.sw m.id).fStr = none
    · rw [if_pos hload]
      exact h.kept _
    rw [if_neg hload] at he ⊢
    by_cases hsem : (!m.sem) = true
    · rw [if_pos hsem]
      exact h.kept _
    rw [if_neg hsem] at he ⊢
    rcases push_cases hh m.id m.push with ⟨err,hneg,hp⟩ | hp
    · simp only [hp,if_pos hneg]
      exact fSem_kept (fSem_taken hf m.id) _ _
    · simp only [hp,lt_irrefl,if_false] at he ⊢
      exact ih ((h.pushed hh m.id).of_eq rfl rfl) (fSem_back hf m.id) he

theorem Holds.successful (h : Holds st held s) (he : (s.successfulRtn x).2 < 0) :
    (opener st).Released (s.successfulRtn x).1 := by
  rw [successfulRtn] at he ⊢
  split_ifs at he ⊢ with hf
  · exact h.released _
  all_goals exact absurd he (lt_irrefl 0)

/- The autopush list of a stream that has no modules yet. -/
theorem autopush_iff (h : Holds st held s) (he : (autopush x x.mods s).2 < 0) :
    (opener st).Released (autopush x x.mods s).1 ↔ x.firstPushed st = false := by
  have hsw : s.table.sw = st.sw := by rw [h.table]
  rw [Ways.firstPushed]
  cases hm : x.mods with
  | nil =>
    rw [hm] at he
    exact iff_of_true (h.successful he) rfl
  | cons m ms =>
    rw [hm] at he
    rw [autopush,hsw] at he ⊢
    simp only [List.head?_cons,Option.any_some]
    by_cases hload : m.id = 0 ∨ (st.sw m.id).fStr = none
    · rw [if_pos hload]
      refine iff_of_true (h.released _) ?_
      rcases hload with h0 | hn
      · simp [h0]
      · simp [hn]
    rw [if_neg hload] at he ⊢
    by_cases hsem : (!m.sem) = true
    · rw [if_pos hsem]
      refine iff_of_true (h.released _) ?_
      rw [Bool.not_eq_true'] at hsem
      rw [hsem,Bool.and_false]
    rw [if_neg hsem] at he ⊢
    have hfirst : (decide (m.id ≠ 0) && (st.sw m.id).fStr.isSome && m.sem) = true := by
      obtain ⟨h0,hn⟩ := not_or.mp hload
      rw [Bool.not_eq_true',Bool.not_eq_false] at hsem
      simp [h0,hsem,Option.isSome_iff_ne_none.mpr hn]
    refine iff_of_false ?_ (by rw [hfirst]; decide)
    have hh : s.table.heads = [newHead] := by rw [h.table]
    rcases push_cases hh m.id m.push with ⟨err,hneg,hp⟩ | hp
    · simp only [hp,if_pos hneg]
      exact fSem_kept (fSem_taken h.fSem m.id) _ _
    · simp only [hp,lt_irrefl,if_false] at he ⊢
      exact autopush_kept ((h.pushed m.id).of_eq rfl rfl) (fSem_back h.fSem m.id) he

/-! ### The stages before -/

theorem Holds.of_eq (h : Holds st l s) {k : Locals} (ht : t.table = s.table) (hf : t.fSem = s.fSem)
    (hr : t.refs = k.head.toNat) (hs : t.stdataSem = k.stdataLocked.toNat) (ho : t.sdOpening = k.hdLocked.toNat)
    (hk : k.head = true) : Holds st k t :=
  ⟨ht.trans h.table,hr,hs,ho,fun id => hf ▸ h.fSem id,fun hc => Bool.noConfusion (hk.symm.trans hc),
    fun hc => Bool.noConfusion (hk.symm.trans hc)⟩

theorem synced_iff (h : Holds st held s)
    (he : (if x.sync < 0 then s.errorRtn held x.sync else autopush x x.mods s).2 < 0) :
    (opener st).Released (if x.sync < 0 then s.errorRtn held x.sync else autopush x x.mods s).1 ↔
      (decide (0 ≤ x.sync) && x.firstPushed st) = false := by
  by_cases hs : x.sync < 0
  · rw [if_pos hs]
    exact iff_of_true (h.released _) (by rw [decide_eq_false (not_le.mpr hs),Bool.false_and])
  · rw [if_neg hs] at he ⊢
    rw [decide_eq_true (not_lt.mp hs),Bool.true_and]
    exact autopush_iff h he

theorem attached_iff (h : Holds st held s) (he : (s.attached x).2 < 0) :
    (opener st).Released (s.attached x).1 ↔ (x.cloned && decide (0 ≤ x.sync) && x.firstPushed st) = false := by
  rw [attached] at he ⊢
  rw [Ways.cloned]
  cases hc : x.clone with
  | none =>
    rw [hc] at he
    rw [Bool.true_and]
    exact synced_iff h he
  | some c =>
    rw [hc] at he
    obtain ⟨sem,inUse,inode⟩ := c
    cases sem with
    | false => exact iff_of_true (h.released _) (by simp)
    | true =>
      have hlocked : Holds st ⟨true,true,true⟩ { s with stdataSem := s.stdataSem + 1 } :=
        h.of_eq rfl rfl h.refs (by rw [h.stdataSem]; rfl) h.sdOpening rfl
      have hback : Holds st held { s with stdataSem := s.stdataSem + 1 - 1 } :=
        h.of_eq rfl rfl h.refs (by rw [h.stdataSem]; rfl) h.sdOpening rfl
      cases inUse with
      | true => exact iff_of_true (hlocked.released _) (by simp)
      | false =>
        cases inode with
        | false => exact iff_of_true (hback.released _) (by simp)
        | true => exact synced_iff hback he

theorem newStream_iff (h : Holds st held s) (he : (s.newStream x).2 < 0) :
    (opener st).Released (s.newStream x).1 ↔
      (x.inode && decide (0 ≤ x.opened) && x.cloned && decide (0 ≤ x.sync) && x.firstPushed st) = false := by
  rw [newStream] at he ⊢
  by_cases hi : (!x.inode) = true
  · rw [if_pos hi]
    rw [Bool.not_eq_true'] at hi
    exact iff_of_true (h.released _) (by simp [hi])
  rw [if_neg hi] at he ⊢
  rw [Bool.not_eq_true',Bool.not_eq_false] at hi
  by_cases ho : x.opened < 0
  · rw [if_pos ho]
    exact iff_of_true (h.released _) (by simp [not_le.mpr ho])
  rw [if_neg ho] at he ⊢
  rw [hi,decide_eq_true (not_lt.mp ho),Bool.true_and,Bool.true_and]
  have hq : Holds st held (if x.fifo then { s with own := true } else { s with driver := true }) := by
    cases x.fifo
    · exact h.of_eq rfl rfl h.refs h.stdataSem h.sdOpening rfl
    · exact h.of_eq rfl rfl h.refs h.stdataSem h.sdOpening rfl
  exact attached_iff hq he

/- What the call has between two rounds: nothing. -/
abbrev Empty (st : Stacks) (s : Opener) : Prop := Holds st ⟨false,false,false⟩ s

theorem stale_iff (h : Empty st s) (stale : Bool) (err : ℤ) :
    (opener st).Released (s.errorRtn ⟨stale,false,false⟩ err).1 ↔ stale = false := by
  cases stale with
  | false => exact iff_of_true (h.released err) rfl
  | true => exact iff_of_false (h.put_twice err) (by decide)

theorem lastRound_iff (h : Empty st s) (stale : Bool) (he : (s.lastRound x stale).2 < 0) :
    (opener st).Released (s.lastRound x stale).1 ↔ (stale && !x.sem) = false ∧
      (x.attaches && x.cloned && decide (0 ≤ x.sync) && x.firstPushed st) = false := by
  rw [lastRound] at he ⊢
  rw [Ways.attaches]
  cases hsem : x.sem with
  | false =>
    rw [Bool.not_false,if_pos rfl,stale_iff h]
    simp
  | true =>
    rw [hsem] at he
    simp only [Bool.not_true,Bool.false_eq_true,if_false,Bool.and_false,Bool.true_and,true_and] at he ⊢
    have hrefs : s.refs = 0 := h.refs
    have hdata : s.stdataSem = 0 := h.stdataSem
    have hopen : s.sdOpening = 0 := h.sdOpening
    by_cases hhead : (!x.head) = true
    · rw [if_pos hhead]
      rw [Bool.not_eq_true'] at hhead
      have hlocked : Holds st ⟨false,true,false⟩ { s with stdataSem := s.stdataSem + 1 } :=
        ⟨h.table,h.refs,by rw [hdata]; rfl,h.sdOpening,h.fSem,h.queues,h.locked⟩
      exact iff_of_true (hlocked.released _) (by simp [hhead])
    rw [if_neg hhead] at he ⊢
    rw [Bool.not_eq_true',Bool.not_eq_false] at hhead
    by_cases hopening : (!x.opening) = true
    · rw [if_pos hopening]
      rw [Bool.not_eq_true'] at hopening
      have hgot : Holds st ⟨true,false,false⟩ { s with refs := s.refs + 1, stdataSem := s.stdataSem + 1 - 1 } :=
        h.of_eq rfl rfl (by rw [hrefs]; rfl) (by rw [hdata]; rfl) h.sdOpening rfl
      exact iff_of_true (hgot.released _) (by simp [hopening])
    rw [if_neg hopening] at he ⊢
    rw [Bool.not_eq_true',Bool.not_eq_false] at hopening
    rw [hhead,hopening,Bool.true_and,Bool.true_and]
    have hheld : Holds st held
        { s with refs := s.refs + 1, stdataSem := s.stdataSem + 1 - 1, sdOpening := s.sdOpening + 1 } :=
      h.of_eq rfl rfl (by rw [hrefs]; rfl) (by rw [hdata]; rfl) (by rw [hopen]; rfl) rfl
    exact newStream_iff hheld he

/- A round that starts over goes on with a head that was given up. -/
theorem round_iff {r : Race} {rs : List Race} {P : Prop} (h : Empty st s) (stale : Bool)
    (hnext : ∀ u, Empty st u → (rounds x rs true u).2 < 0 → ((opener st).Released (rounds x rs true u).1 ↔ P))
    (he : (rounds x (r :: rs) stale s).2 < 0) : (opener st).Released (rounds x (r :: rs) stale s).1 ↔
      (stale && !r.sem) = false ∧ (r.sem = true → r.opening = true → P) := by
  obtain ⟨sem,opening⟩ := r
  rw [rounds] at he ⊢
  have hrefs : s.refs = 0 := h.refs
  cases sem with
  | false =>
    rw [Bool.not_false,if_pos rfl,stale_iff h]
    simp
  | true =>
    cases opening with
    | false =>
      have hgot : Holds st ⟨true,false,false⟩ { s with refs := s.refs + 1 } :=
        h.of_eq rfl rfl (by rw [hrefs]; rfl) h.stdataSem h.sdOpening rfl
      exact iff_of_true (hgot.released _) ⟨by simp,fun _ hc => Bool.noConfusion hc⟩
    | true =>
      have hput : Empty st { s with refs := s.refs + 1 - 1 } :=
        ⟨h.table,by rw [hrefs]; rfl,h.stdataSem,h.sdOpening,h.fSem,h.queues,h.locked⟩
      refine (hnext _ hput he).trans ?_
      simp

theorem rounds_stale_iff {rs : List Race} (h : Empty st s) (he : (rounds x rs true s).2 < 0) :
    (opener st).Released (rounds x rs true s).1 ↔ x.losesSem rs = false ∧
      (rs.all (fun r => r.sem && r.opening) && x.attaches && x.cloned && decide (0 ≤ x.sync) &&
        x.firstPushed st) = false := by
  induction rs generalizing s with
  | nil =>
    rw [List.all_nil,Bool.true_and]
    exact lastRound_iff h true he
  | cons r rs ih =>
    rw [round_iff h true (fun u hu hue => ih hu hue) he,Ways.losesSem,List.all_cons]
    cases r.sem <;> cases r.opening <;> simp

/-- `lis_stropen` that fails, for a device that has no other open, releases all it has acquired if and only if it
has not called `push_mod`, and has not been stopped in the wait for `lis_stdata_sem` of a round after the first. -/
theorem stropen_releases (st : Stacks) (x : Ways) (he : ((opener st).lisStropen x).2 < 0) :
    (opener st).Released ((opener st).lisStropen x).1 ↔ x.stale = false ∧ x.pushes st = false := by
  have h : Empty st (opener st) := ⟨rfl,rfl,rfl,rfl,fun _ => rfl,fun _ => ⟨rfl,rfl⟩,fun _ => rfl⟩
  rw [lisStropen] at he ⊢
  rw [Ways.stale,Ways.pushes]
  cases hr : x.races with
  | nil =>
    rw [hr] at he
    rw [List.all_nil,Bool.true_and]
    exact lastRound_iff h false he
  | cons r rs =>
    rw [hr] at he
    rw [round_iff h false (fun u hu hue => rounds_stale_iff hu hue) he,List.all_cons]
    obtain ⟨sem,opening⟩ := r
    cases sem <;> cases opening <;> simp

/- Everything goes well up to the autopush list. -/
def upTo (mods : List Automod) : Ways := ⟨[],true,true,true,true,false,0,none,0,mods,0,1⟩

def pushes (queue : Bool) : Automod := ⟨1,true,⟨[],queue,true,true,0,true,true⟩⟩

/- The only module of the autopush list cannot be loaded. -/
theorem stropen_releases_one : (opener (Stacks.oneModule none)).Released
    ((opener (Stacks.oneModule none)).lisStropen (upTo [⟨0,true,⟨[],true,true,true,0,true,true⟩⟩])).1 :=
  (stropen_releases (Stacks.oneModule none) _ (by decide)).mpr ⟨by decide,by decide⟩

/- There is no memory for the queue pair of the second module: the semaphore of the module stays down, its count
stays raised and the driver open. After a lost race a signal ends the wait for `lis_stdata_sem`. -/
theorem stropen_keeps :
    (¬ ∀ (st : Stacks) (x : Ways), ((opener st).lisStropen x).2 < 0 → ∀ id,
      ((opener st).lisStropen x).1.fSem id = 0) ∧
    (¬ ∀ (st : Stacks) (x : Ways), ((opener st).lisStropen x).2 < 0 → ∀ id,
      (((opener st).lisStropen x).1.table.sw id).fCount = (st.sw id).fCount) ∧
    (¬ ∀ (st : Stacks) (x : Ways), ((opener st).lisStropen x).2 < 0 → ((opener st).lisStropen x).1.driver = false) ∧
    ¬ ∀ (st : Stacks) (x : Ways), ((opener st).lisStropen x).2 < 0 → ((opener st).lisStropen x).1.refs = 0 := by
  refine ⟨fun h => ?_,fun h => ?_,fun h => ?_,fun h => ?_⟩
  · exact absurd (h (Stacks.oneModule none) (upTo [pushes true,pushes false]) (by decide) 1) (by decide)
  · exact absurd (h (Stacks.oneModule none) (upTo [pushes true,pushes false]) (by decide) 1) (by decide)
  · exact absurd (h (Stacks.oneModule none) (upTo [pushes true,pushes false]) (by decide)) (by decide)
  · have hx := h (Stacks.oneModule none) { upTo [] with races := [⟨true,true⟩], sem := false } (by decide)
    exact absurd hx (by decide)

end Opener

end CSLiS.Mod.Opening
