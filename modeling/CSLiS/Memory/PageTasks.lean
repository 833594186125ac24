import CSLiS.Lib.Crew
import CSLiS.Memory.Pages

/-!
# The table of the pages in several tasks (head/linux/lismem.c)

Each section under `contig_lock`, each call of the kernel's allocator and each update without the lock is a step of one
task. `kernel` and `tblKernel` are the areas and the pages of the table that the kernel has given and not got back,
`owned` are the areas that callers have; the code has no such lists. `wrong` says that something was freed that was not
given out so, or that a freed page of the table was read.
-/

namespace CSLiS.Memory.PageTasks
open Lib.Exec Lib.Crew

/- Where a task is: in `lis_get_free_pages_fcn` until the address is entered, then in `lis_free_pages_fcn`. The order
of an area that is to be freed is only in the table. -/
inductive Place
  | idle
  | search (nbytes : ℤ) (order : ℕ)
  | full (nbytes : ℤ) (order : ℕ)
  | blank (nbytes : ℤ) (order pg : ℕ)
  | again (nbytes : ℤ) (order : ℕ)
  | alloc (mp : Slot) (nbytes : ℤ) (order : ℕ)
  | toCount (mp : Slot) (nbytes : ℤ) (order a : ℕ)
  | toSize (mp : Slot) (nbytes : ℤ) (order a : ℕ)
  | toOrder (mp : Slot) (order a : ℕ)
  | toAddr (mp : Slot) (order a : ℕ)
  | free (ptr order : ℕ)
  | release (addr order : ℕ)
  deriving DecidableEq, Repr

structure Pages where
  table : Table
  kernel : List (ℕ × ℕ)
  tblKernel : List ℕ
  owned : List (ℕ × ℕ)
  places : List Place
  wrong : Bool
  closed : Bool

/- `ans` is what the kernel's allocator gives, where the step asks it. -/
inductive Act
  | get (i : ℕ) (nbytes : ℤ)
  | put (i ptr : ℕ)
  | run (i : ℕ) (ans : Option ℕ)
  | freeAll
  deriving DecidableEq, Repr

namespace Pages

variable (s : Pages)

def init (tasks : ℕ) : Pages := ⟨.empty,[],[],[],List.replicate tasks .idle,false,false⟩

def move (i : ℕ) (p : Place) : Pages := { s with places := s.places.set i p }

/- `free_pages` and `free_page`. -/
def freePages (addr order : ℕ) : Pages :=
  if s.kernel.contains (addr,order) then { s with kernel := s.kernel.erase (addr,order) } else { s with wrong := true }
def freePage (m : Slot) : Pages :=
  if m.2 = 0 ∧ s.tblKernel.contains m.1 then { s with tblKernel := s.tblKernel.erase m.1 } else { s with wrong := true }

/- An entry is looked at. -/
def read (m : Slot) : Pages := if s.tblKernel.contains m.1 then s else { s with wrong := true }

/- What the kernel gives is not in use; an area is aligned. -/
def Fresh (a : ℕ) : Prop := 0 < a ∧ a % pageSize = 0 ∧ a ∉ s.kernel.map Prod.fst ∧ a ∉ s.tblKernel

instance (a : ℕ) : Decidable (s.Fresh a) := inferInstanceAs (Decidable (_ ∧ _))

/- The section in which an entry is reserved; `p` is where the task goes without one. -/
def reserve (i : ℕ) (nbytes : ℤ) (order : ℕ) (p : Place) : Pages :=
  match s.table.findEntry 0 with
  | none => s.move i p
  | some mp => { s with table := s.table.reserve mp }.move i (.alloc mp nbytes order)

/-- The next step of a task in `lis_get_free_pages_fcn` (`lismem.c:221-275`) or `lis_free_pages_fcn`
(`lismem.c:287-320`). -/
def next (i : ℕ) (ans : Option ℕ) : Place → Option Pages
  | .idle => none
  | .search nbytes order => some (s.reserve i nbytes order (.full nbytes order))
  | .full nbytes order =>
      match ans with
      | none => some (s.move i .idle)
      | some pg =>
          if s.Fresh pg then some { s.move i (.blank nbytes order pg) with tblKernel := pg :: s.tblKernel } else none
  | .blank nbytes order pg => some ({ s with table := s.table.allocPageTbl pg }.move i (.again nbytes order))
  | .again nbytes order => some (s.reserve i nbytes order .idle)
  | .alloc mp nbytes order =>
      match ans with
      | none => some (s.move i .idle)
      | some a =>
          if s.Fresh a then some { s.move i (.toCount mp nbytes order a) with kernel := (a,order) :: s.kernel } else none
  | .toCount mp nbytes order a => some ({ s with table := s.table.count order }.move i (.toSize mp nbytes order a))
  | .toSize mp nbytes order a => some ({ s with table := s.table.setSize mp nbytes }.move i (.toOrder mp order a))
  | .toOrder mp order a => some ({ s with table := s.table.setOrder mp order }.move i (.toAddr mp order a))
  | .toAddr mp order a => some ({ s with table := s.table.setAddr mp a, owned := (a,order) :: s.owned }.move i .idle)
  | .free ptr _ =>
      match s.table.unlist ptr with
      | (none,_) => some (s.move i .idle)
      | (some (addr,order),table) => some ({ s with table := table }.move i (.release addr order))
  | .release addr order => some ((s.freePages addr order).move i .idle)

/- The first loop of `lis_free_all_pages`: `lis_free_pages` of what the entries have. -/
def freeAreas (s : Pages) : List Slot → Pages
  | [] => s
  | mp :: rest =>
      let s := s.read mp
      let a := (s.table.entry mp).pageAddr
      if a = 0 ∨ a = reserved then s.freeAreas rest
      else
        match s.table.unlist a with
        | (none,_) => (s.read mp).freeAreas rest
        | (some (addr,order),table) => (({ s with table := table }.freePages addr order).read mp).freeAreas rest

def freeBoundary (s : Pages) : Option Slot → Pages
  | none => s
  | some b => s.freePage b

/- The second loop: a page is freed when the walk has come to the next one. -/
def freeTable (s : Pages) (boundary : Option Slot) : List Slot → Pages
  | [] => s.freeBoundary boundary
  | mp :: rest =>
      let s := s.read mp
      if (s.table.entry mp).boundary then ((s.freeBoundary boundary).read mp).freeTable (some mp) rest
      else (s.read mp).freeTable boundary rest

/-- `lis_free_all_pages` (`lismem.c:322-375`), after which nobody has an area -/
def lisFreeAllPages : Pages :=
  if s.table.contigBytes ≠ 0 then
    let t := s.freeAreas s.table.slots
    let t := t.freeTable none t.table.slots
    { s with
      table := { t.table with tblPages := [] }
      kernel := t.kernel
      tblKernel := t.tblKernel
      owned := []
      wrong := t.wrong
      closed := true }
  else { s with owned := [], closed := true }

end Pages

/- An area is freed by who has it; `lis_free_all_pages` is called when all other calls have returned. A call for which
no order is big enough never comes to the table. -/
def step (fuel : ℕ) (s : Pages) : Act → Option Pages
  | .get i nbytes =>
      if s.places[i]? = some .idle ∧ s.closed = false then
        (findOrder nbytes fuel 0).map fun order => s.move i (.search nbytes order)
      else none
  | .put i ptr =>
      if s.places[i]? = some .idle ∧ s.closed = false then
        if ptr = 0 then some s
        else
          (s.owned.find? fun x => x.1 == ptr).map fun x =>
            { s.move i (.free ptr x.2) with owned := s.owned.erase x }
      else none
  | .run i ans => s.places[i]?.bind (s.next i ans)
  | .freeAll =>
      if (∀ p ∈ s.places, p = .idle) ∧ s.closed = false then some s.lisFreeAllPages else none

/-! ### What is claimed -/

/- The entry is reserved by a call, or the area is passed to `lis_free_pages`. -/
def Place.holds : Place → Option Slot
  | .alloc mp _ _ => some mp
  | .toCount mp _ _ _ => some mp
  | .toSize mp _ _ _ => some mp
  | .toOrder mp _ _ => some mp
  | .toAddr mp _ _ => some mp
  | _ => none

def Place.frees : Place → Option (ℕ × ℕ)
  | .free ptr order => some (ptr,order)
  | _ => none

def areaBytes (x : ℕ × ℕ) : ℕ := 2 ^ x.2 * pageSize

/- Every area has one entry, with its order. Every entry is free, reserved by a call that has not returned, or in use.
While no call is in progress `contig_bytes` is the total of the areas, and these are what the kernel has given. At the
end nothing is left. -/
structure Right (s : Pages) : Prop where
  entered : ∀ x ∈ s.owned, ∃ m ∈ s.table.slots, (s.table.entry m).pageAddr = x.1 ∧ (s.table.entry m).order = x.2 ∧
    ∀ n ∈ s.table.slots, (s.table.entry n).pageAddr = x.1 → n = m
  entries : ∀ m ∈ s.table.slots, (s.table.entry m).pageAddr = 0 ∨
    ((s.table.entry m).pageAddr = reserved ∧ ∃ p ∈ s.places, p.holds = some m) ∨
      ∃ order, ((s.table.entry m).pageAddr,order) ∈ s.owned ∨
        ∃ p ∈ s.places, p.frees = some ((s.table.entry m).pageAddr,order)
  bytes : (∀ p ∈ s.places, p = .idle) → s.closed = false → s.table.contigBytes = (s.owned.map areaBytes).sum
  given : (∀ p ∈ s.places, p = .idle) → s.kernel.Perm s.owned
  freed : s.wrong = false
  clean : s.closed = true → s.kernel = [] ∧ s.tblKernel = []

/- The pages of an area are asked for. -/
def Place.asks : Place → Bool
  | .alloc .. => true
  | _ => false

/- The kernel gives the pages of an area, and at the end there are areas, or no table. -/
def Guard (s : Pages) : Act → Prop
  | .get _ _ => True
  | .put _ _ => True
  | .run i ans => ans = none → ∀ p ∈ s.places[i]?, p.asks = false
  | .freeAll => s.table.contigBytes ≠ 0 ∨ s.table.tblPages = []

instance (s : Pages) (a : Act) : Decidable (Guard s a) :=
  match a with
  | .get _ _ => isTrue trivial
  | .put _ _ => isTrue trivial
  | .run i ans => inferInstanceAs (Decidable (ans = none → ∀ p ∈ s.places[i]?, p.asks = false))
  | .freeAll => inferInstanceAs (Decidable (_ ∨ _))

end CSLiS.Memory.PageTasks
