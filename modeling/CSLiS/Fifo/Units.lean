import CSLiS.Lib.Exec

/-!
# The units of the FIFO driver (drivers/str/fifo.c)

A call holds `fifo_sem` from the search for the unit to its end, so calls come one after the other. `fifo_dev_t` is kept
by its fields, a list of the kernel as the units on it, a `q_ptr` as the index of what it points to. `fault` says that
an index was not one of `fifo_dev` or `fifo__0_majors`, or that something was divided by 0. A device has 20 bits of
minor number.
-/

namespace CSLiS.Fifo.Units
open Lib.Exec

def minorSpan : ℕ := 2 ^ 20
def EMFILE : ℤ := 24
def EBUSY : ℤ := 16
def ENXIO : ℤ := 6
def ENOENT : ℤ := 2

/- FIFO__UNITS, and `fifo__0_majors`, which has FIFO__CMAJORS elements. -/
structure Config where
  units : ℕ
  majors : List ℕ

structure Fifos where
  index : ℕ → ℤ
  clonable : ℕ → Bool
  allocated : ℕ → Bool
  freeFifos : List ℕ
  numFreeFifos : ℤ
  qPtr : ℕ → Option ℕ
  fault : Bool
  ret : ℤ
  dev : ℕ

/- A value in a short. -/
def toShort (z : ℤ) : ℤ := z.bmod (2 ^ 16)

def getmajor (dev : ℕ) : ℕ := dev / minorSpan
def getminor (dev : ℕ) : ℕ := dev % minorSpan
def makedevice (majr minr : ℕ) : ℕ := majr * minorSpan + minr % minorSpan

namespace Config

variable (c : Config)

/- FIFO_MAX_MINOR + 1. -/
def maxminors : ℕ := c.units / c.majors.length

def fifoMajorIndex (maj : ℕ) : ℤ :=
  match c.majors.idxOf? maj with
  | none => - ENOENT
  | some idx => idx

def fifoUnitIndex (dev : ℕ) : ℤ :=
  let idx := c.fifoMajorIndex (getmajor dev)
  if idx < 0 then idx
  else
    let idx := idx * c.maxminors + getminor dev
    if c.units ≤ idx then - ENXIO else idx

def fifoMkdev (unitIndex : ℕ) : ℕ :=
  makedevice (c.majors.getD (unitIndex / c.maxminors) 0) (unitIndex % c.maxminors)

end Config

namespace Fifos

variable (c : Config) (s : Fifos)

/- A unit in `fifo_init`. -/
def initUnit (s : Fifos) (i : ℕ) : Fifos :=
  let s := { s with index := Function.update s.index i (toShort i), fault := s.fault || c.maxminors == 0 }
  if i % c.maxminors ≠ 0 then
    { s with
      clonable := Function.update s.clonable i false
      freeFifos := s.freeFifos ++ [i]
      numFreeFifos := s.numFreeFifos + 1 }
  else
    { s with
      clonable := Function.update s.clonable i true
      fault := s.fault || decide (c.majors.length ≤ i / c.maxminors) }

/-- `fifo_init` (`fifo.c:473-512`) -/
def fifoInit : Fifos :=
  (List.range c.units).foldl (initUnit c) ⟨fun _ => 0,fun _ => false,fun _ => false,[],0,fun _ => none,false,0,0⟩

/-- `fifo_alloc` (`fifo.c:210-239`) -/
def fifoAlloc (idx : ℤ) : ℤ × Fifos :=
  if c.units < idx then (- ENXIO,s)
  else
    match s.freeFifos with
    | [] => (- EMFILE,s)
    | e :: _ =>
        let fdp := if idx < 0 then e else idx.toNat
        let s := { s with fault := s.fault || decide (c.units ≤ fdp) }
        if s.allocated fdp then (- EBUSY,s)
        else
          (s.index fdp,{ s with
            allocated := Function.update s.allocated fdp true
            freeFifos := s.freeFifos.erase fdp
            numFreeFifos := s.numFreeFifos - 1 })

/-- `fifo_free` (`fifo.c:242-257`) -/
def fifoFree (idx : ℤ) : Fifos :=
  if idx < 0 ∨ c.units ≤ idx then s
  else if s.allocated idx.toNat then
    { s with
      allocated := Function.update s.allocated idx.toNat false
      freeFifos := s.freeFifos ++ [idx.toNat]
      numFreeFifos := s.numFreeFifos + 1 }
  else s

/- The end of `fifo_open`, with the unit. -/
def opened (q m : ℕ) : Fifos :=
  { s with
    qPtr := if s.qPtr q = none then Function.update s.qPtr q (some m) else s.qPtr
    dev := c.fifoMkdev m
    ret := 0
    fault := s.fault || decide (c.majors.length ≤ m / c.maxminors) || decide (c.units ≤ m) }

/-- `fifo_open` (`fifo.c:261-325`) -/
def fifoOpen (q dev : ℕ) (clone : Bool) : Fifos :=
  let m := if clone then 0 else c.fifoUnitIndex dev
  if m < 0 then { s with ret := m }
  else
    let s := { s with fault := s.fault || decide (c.units ≤ m) }
    if s.clonable m.toNat then
      let (m,s) := s.fifoAlloc c (-1)
      if m < 0 then { s with ret := m } else s.opened c q m.toNat
    else if s.qPtr q = none then
      let (m,s) := s.fifoAlloc c m
      if m < 0 then { s with ret := m } else s.opened c q m.toNat
    else s.opened c q m.toNat

/-- `fifo_close` (`fifo.c:331-361`) -/
def fifoClose (q : ℕ) : Fifos :=
  match s.qPtr q with
  | none => { s with ret := 0 }
  | some fdp => { s.fifoFree c (s.index fdp) with qPtr := Function.update s.qPtr q none, ret := 0 }

end Fifos

inductive FifoCall
  | open (q dev : ℕ) (clone : Bool)
  | close (q : ℕ)
  deriving DecidableEq, Repr

def step (c : Config) (s : Fifos) : FifoCall → Option Fifos
  | .open q dev clone => some (s.fifoOpen c q dev clone)
  | .close q => some (s.fifoClose c q)

/-! ### What is claimed -/

namespace Fifos

variable (c : Config) (s : Fifos)

/- A unit is free, or has one stream, or is there for clone opens; the number of free ones is that of the list, and a
unit and its device name each other. -/
structure Sound : Prop where
  free : ∀ u < c.units, s.clonable u = false → s.allocated u = false →
    s.freeFifos.count u = 1 ∧ ∀ q, s.qPtr q ≠ some u
  held : ∀ u < c.units, s.clonable u = false → s.allocated u = true →
    u ∉ s.freeFifos ∧ ∃ q, s.qPtr q = some u ∧ ∀ p, s.qPtr p = some u → p = q
  clone : ∀ u < c.units, s.clonable u = true → s.allocated u = false ∧ u ∉ s.freeFifos ∧ ∀ q, s.qPtr q ≠ some u
  range : (∀ u ∈ s.freeFifos, u < c.units) ∧ ∀ q u, s.qPtr q = some u → u < c.units
  count : s.numFreeFifos = s.freeFifos.length
  inside : s.fault = false
  inverse : ∀ u < c.units, c.fifoUnitIndex (c.fifoMkdev u) = u

/- A reopen that succeeds returns the device of the stream's unit. -/
def Reopens (t : Fifos) : FifoCall → Prop
  | .open q _ _ => ∀ u, s.qPtr q = some u → t.ret = 0 → t.dev = c.fifoMkdev u
  | .close _ => True

/- The unit that an open looks at first. -/
def wanted (c : Config) (dev : ℕ) (clone : Bool) : ℤ := if clone then 0 else c.fifoUnitIndex dev

/- An open is refused, or gets a unit below 2^15 that is not yet used; a reopen names the unit of the stream. -/
def Guard (c : Config) (s : Fifos) : FifoCall → Prop
  | .open q dev clone =>
      let m := wanted c dev clone
      m < 0 ∨ m < c.units ∧
        if s.clonable m.toNat then ∀ u ∈ s.freeFifos.head?, u < 2 ^ 15 ∧ s.qPtr q = none
        else
          (s.qPtr q = none → s.freeFifos = [] ∨ s.allocated m.toNat = true ∨ m < 2 ^ 15) ∧
            ∀ u ∈ s.qPtr q, m = u
  | .close _ => True

instance (c : Config) (s : Fifos) (call : FifoCall) : Decidable (Guard c s call) :=
  match call with
  | .open _ dev clone =>
      inferInstanceAs (Decidable (wanted c dev clone < 0 ∨ wanted c dev clone < c.units ∧ ite _ _ _))
  | .close _ => isTrue trivial

end Fifos

/- The units fall to the majors evenly, and the minor numbers do not exceed their bits. -/
def Config.Fits (c : Config) : Prop := c.majors.length ∣ c.units ∧ c.maxminors ≤ minorSpan

instance (c : Config) : Decidable c.Fits := inferInstanceAs (Decidable (_ ∧ _))

end CSLiS.Fifo.Units
