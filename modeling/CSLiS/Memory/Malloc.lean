import CSLiS.Lib.Ring
import CSLiS.Memory.Pages

/-!
# `lis_malloc` and `lis_free` (head/strmdbg.c)

A long has 8 bytes and a cache line 64. `regions` is what the kernel has given for areas and not got back, `areas` are
the areas that callers have, each with the size they asked for; they have no counterpart in the code. A region that is
given back to another allocator than its own is `stray`, a guard word written outside of the area's own region makes
the memory `wild`, and a call that never returns leaves it `hung`.
-/

namespace CSLiS.Memory
open Lib Lib.Exec

/- `sizeof(mem_link_space_t)`, `sizeof(mem_hdr_space_t)` and `sizeof(long)`. -/
def linkSpace : ℕ := 128
def hdrSpace : ℕ := 64
def word : ℕ := 8

/- `MAX_KMALLOC_SIZE`, a size_t. -/
def maxKmallocSize : ℤ := 120000 - linkSpace - word - word

/- `SIZE_LIS_MAX`. -/
def sizeLisMax : ℤ := 1500

inductive Class
  | atomic
  | kernel
  | dma
  | other (n : ℕ)
  deriving DecidableEq, Repr

/- `size` and `kflags` of the entries. -/
def lisSlabTable : List (ℤ × Class) :=
  [(200,.atomic),(512,.atomic),(1500,.atomic),(200,.kernel),(512,.kernel),(1500,.kernel),(200,.dma),(512,.dma),
    (1500,.dma)]

inductive Source
  | pages (order : ℕ)
  | kmalloc
  | slab (i : ℕ)
  deriving DecidableEq, Repr

structure Region where
  addr : ℕ
  len : ℕ
  src : Source
  deriving DecidableEq, Repr

/- `made` are the entries of `lis_slab_table` with a `cache_struct`; `slabPtr` is in the header of `lis__kmalloc`, the
links and the size are in the header of `lis_malloc`, `lis_mem_head` is 0. -/
structure Mem where
  table : Table
  made : ℕ → Bool
  regions : List Region
  next : ℕ → Option ℕ
  prev : ℕ → Option ℕ
  size : ℕ → ℤ
  slabPtr : ℕ → Option ℕ
  memAlloced : ℤ
  maxMem : ℤ
  areas : List (ℕ × ℤ)
  stray : Bool
  wild : Bool
  hung : Bool

/- `(nbytes + 15) & ~0x0F`. -/
def abytes (nbytes : ℤ) : ℤ := toInt (nbytes + 15) / 16 * 16

def tbytes (nbytes : ℤ) : ℤ := toInt (abytes nbytes + linkSpace + word)

/- An int or a long against `MAX_KMALLOC_SIZE`. -/
def big (size : ℤ) : Bool := decide (maxKmallocSize < size % 2 ^ 64)

/- Where `lis_malloc` has its header. -/
def Region.base (r : Region) : ℕ :=
  match r.src with
  | .pages _ => r.addr
  | .kmalloc => r.addr + hdrSpace
  | .slab _ => r.addr + hdrSpace

def Region.Apart (r r' : Region) : Prop := r.addr + r.len ≤ r'.addr ∨ r'.addr + r'.len ≤ r.addr

instance (r r' : Region) : Decidable (r.Apart r') := inferInstanceAs (Decidable (_ ∨ _))

/- The area of the page table that the region is, if it has pages. -/
def Region.area (r : Region) : Option (ℕ × ℕ) :=
  match r.src with
  | .pages order => some (r.addr,order)
  | .kmalloc => none
  | .slab _ => none

/- The table, after a page was linked to it if no entry is free. -/
def Table.grow (t : Table) (tbl : Option ℕ) : Option Table :=
  match t.findEntry 0 with
  | some _ => some t
  | none => tbl.map t.allocPageTbl

namespace Mem

variable (s : Mem)

def init (made : ℕ → Bool) : Mem :=
  ⟨.empty,made,[],fun x => if x = 0 then some 0 else none,fun x => if x = 0 then some 0 else none,fun _ => 0,
    fun _ => none,0,0,[],false,false,false⟩

def give (r : Region) : Mem := { s with regions := s.regions ++ [r] }

def giveBack (addr : ℕ) (src : Source) : Mem :=
  match s.regions.find? fun r => r.addr == addr && r.src == src with
  | some r => { s with regions := s.regions.erase r }
  | none => { s with stray := true }

/-- `lis_get_free_pages_fcn` (`lismem.c:221-275`), when nobody else uses the table: `tbl` is what `__get_free_page`
gives for the table and `mem` what `__get_free_pages` gives. -/
def lisGetFreePages (fuel : ℕ) (nbytes : ℤ) (tbl mem : Option ℕ) : Option (Option ℕ × Mem) :=
  (findOrder nbytes fuel 0).map fun order =>
    match s.table.grow tbl with
    | none => (none,s)
    | some table =>
        match table.findEntry 0 with
        | none => (none,{ s with table := table })
        | some mp =>
            let table := table.reserve mp
            match mem with
            | none => (none,{ s with table := table })
            | some a =>
                let table := (((table.count order).setSize mp nbytes).setOrder mp order).setAddr mp a
                (some a,{ s with table := table }.give ⟨a,2 ^ order * pageSize,.pages order⟩)

/-- `lis_free_pages_fcn` (`lismem.c:287-320`) -/
def lisFreePages (ptr : ℕ) : Mem :=
  match s.table.unlist ptr with
  | (none,_) => s
  | (some (addr,order),table) => { s with table := table }.giveBack addr (.pages order)

/-- `lis__kmalloc` (`lismem.c:404-452`), `mem` is what the kernel's allocator gives -/
def lisKmalloc (nbytes : ℤ) (cls : Class) (useCache : Bool) (mem : Option ℕ) : Option ℕ × Mem :=
  let nbytes := toInt (nbytes + hdrSpace)
  let got (len : ℤ) (cp : Option ℕ) (src : Source) : Option ℕ × Mem :=
    match mem with
    | none => (none,s)
    | some p =>
        (some (p + hdrSpace),{ s.give ⟨p,len.toNat,src⟩ with slabPtr := Function.update s.slabPtr p cp })
  if !useCache ∨ sizeLisMax < nbytes then got nbytes none .kmalloc
  else
    match lisSlabTable.zipIdx.find? fun tp => decide (tp.1.2 = cls ∧ s.made tp.2 ∧ nbytes ≤ tp.1.1) with
    | none => (none,s)
    | some tp => got tp.1.1 (some tp.2) (.slab tp.2)

/-- `lis__kfree` (`lismem.c:454-470`) -/
def lisKfree (ptr : ℕ) : Mem :=
  let p := ptr - hdrSpace
  match s.slabPtr p with
  | none => s.giveBack p .kmalloc
  | some cp => s.giveBack p (.slab cp)

/- The region that has the address has these bytes as well. -/
def Covers (p : ℕ) (lo hi : ℤ) : Prop :=
  ∃ r ∈ s.regions, r.addr ≤ p ∧ p < r.addr + r.len ∧ (r.addr : ℤ) ≤ lo ∧ hi ≤ r.addr + r.len

instance (p : ℕ) (lo hi : ℤ) : Decidable (s.Covers p lo hi) :=
  inferInstanceAs (Decidable (∃ r ∈ s.regions, _))

/- `lp`, the place of the guard word. -/
def guardWord (p : ℕ) : ℤ := p + s.size p + linkSpace

/- The last part of `lis_malloc`, with the memory that the allocator has given. -/
def enlist (p : ℕ) (abytes : ℤ) : Mem :=
  let last := (s.prev 0).getD 0
  let t := { s with
    memAlloced := s.memAlloced + abytes
    next := Function.update (Function.update s.next p (some 0)) last (some p)
    prev := Function.update (Function.update s.prev p (some last)) 0 (some p)
    size := Function.update s.size p abytes }
  { t with wild := t.wild || !decide (t.Covers p (t.guardWord p) (t.guardWord p + word)) }

/- `lis_max_mem` leaves no more. -/
def Refuses : Prop := s.maxMem ≠ 0 ∧ s.maxMem ≤ s.memAlloced

instance : Decidable s.Refuses := inferInstanceAs (Decidable (_ ∧ _))

/-- `lis_malloc` (`strmdbg.c:211-284`) -/
def lisMalloc (fuel : ℕ) (nbytes : ℤ) (cls : Class) (useCache : Bool) (tbl mem : Option ℕ) : Option (Option ℕ × Mem) :=
  if s.Refuses then some (none,s)
  else
    let got :=
      if big (abytes nbytes) then s.lisGetFreePages fuel (tbytes nbytes) tbl mem
      else some (s.lisKmalloc (tbytes nbytes) cls useCache mem)
    got.map fun
      | (none,t) => (none,t)
      | (some p,t) => (some (p + linkSpace),t.enlist p (abytes nbytes))

/-- `lis_free` (`strmdbg.c:345-398`) of an area -/
def lisFree (ptr : ℕ) : Mem :=
  let p := ptr - linkSpace
  let next := s.next p
  let prev := s.prev p
  let t := { s with
    memAlloced := s.memAlloced - s.size p
    next := Function.update (Function.update s.next (prev.getD 0) next) p none
    prev := Function.update (Function.update s.prev (next.getD 0) prev) p none }
  if big (s.size p) then t.lisFreePages p else t.lisKfree p

/- What the kernel takes care of: the regions are apart from each other, none is at the null pointer, and pages are
aligned; no page of the table is given out twice. -/
structure Kept : Prop where
  apart : s.regions.Pairwise Region.Apart
  real : ∀ r ∈ s.regions, 0 < r.addr
  aligned : ∀ r ∈ s.regions, r.area.isSome → r.addr % pageSize = 0
  pages : s.table.tblPages.Nodup

instance : Decidable s.Kept :=
  decidable_of_iff (_ ∧ _ ∧ _ ∧ _) ⟨fun h => ⟨h.1,h.2.1,h.2.2.1,h.2.2.2⟩,fun h => ⟨h.1,h.2,h.3,h.4⟩⟩

end Mem

inductive MemCall
  | malloc (nbytes : ℤ) (cls : Class) (useCache : Bool) (tbl mem : Option ℕ)
  | free (ptr : ℕ)
  | setMaxMem (maxMem : ℤ)

/- The calls: an area is freed by who has it. -/
def Mem.step (fuel : ℕ) (s : Mem) : MemCall → Option Mem
  | .malloc nbytes cls useCache tbl mem =>
      if 0 ≤ nbytes ∧ nbytes < 2 ^ 31 then
        match s.lisMalloc fuel nbytes cls useCache tbl mem with
        | none => some { s with hung := true }
        | some (none,t) => if t.Kept then some t else none
        | some (some ptr,t) =>
            if t.Kept then some { t with areas := t.areas ++ [(ptr - linkSpace,nbytes)] } else none
      else none
  | .free ptr =>
      if ptr = 0 then some s
      else if s.areas.any fun a => a.1 + linkSpace == ptr then
        some { s.lisFree ptr with areas := s.areas.eraseP fun a => a.1 + linkSpace == ptr }
      else none
  | .setMaxMem maxMem => some { s with maxMem := maxMem }

/-! ### What is claimed -/

/- The bytes that `lis_malloc` asks for, if no int overflows. -/
def need (nbytes : ℤ) : ℤ := (nbytes + 15) / 16 * 16 + linkSpace + word

namespace Mem

/- Every call has returned. Every area has its header, its bytes and the guard word behind them in the memory that it
was given, all that the kernel has given is that of an area and was given back to who gave it, and `lis_mem_alloced` and
the list are those of the areas. -/
structure Sound (s : Mem) : Prop where
  returns : s.hung = false
  guarded : s.wild = false
  inside : ∀ a ∈ s.areas, a.2 ≤ s.size a.1 ∧ s.Covers a.1 a.1 (a.1 + linkSpace + a.2) ∧
    s.Covers a.1 (s.guardWord a.1) (s.guardWord a.1 + word)
  back : s.stray = false ∧ s.regions.map Region.base = s.areas.map Prod.fst
  alloced : s.memAlloced = (s.areas.map fun a => s.size a.1).sum
  list : Ring s.next s.prev 0 (s.areas.map Prod.fst)

/- The limit refuses the request, or it fits into an int with its power of two, or it is so big that the size
overflows, and no page is left for it. -/
def Guard (s : Mem) : MemCall → Prop
  | .malloc nbytes _ _ tbl mem =>
      s.Refuses ∨ need nbytes ≤ 2 ^ 30 ∨
        2 ^ 31 ≤ need nbytes ∧ (mem = none ∨ s.table.findEntry 0 = none ∧ tbl = none)
  | .free _ => True
  | .setMaxMem _ => True

instance (s : Mem) (call : MemCall) : Decidable (Guard s call) :=
  match call with
  | .malloc .. => inferInstanceAs (Decidable (_ ∨ _ ∨ _))
  | .free _ => isTrue trivial
  | .setMaxMem _ => isTrue trivial

end Mem

end CSLiS.Memory
