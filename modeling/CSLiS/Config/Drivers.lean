import CSLiS.Lib.Exec
import CSLiS.Lib.Bubble

/-!
# Driver lines of the configuration (util/strconf.c)

A line is what follows the keyword in `inbuf`, up to its NUL. Lines with another keyword touch nothing that is kept
here. `processLine` is `none` where `strconf` leaves with `exit(1)`. A buffer is the list of its bytes, and `strcmp`
reads on behind an array that has no NUL.
-/

namespace CSLiS.Config

def intMax : ℤ := 2 ^ 31 - 1
def longMax : ℤ := 2 ^ 63 - 1
def longMin : ℤ := -2 ^ 63

/-! ### Tokens -/

def nul : Char := Char.ofNat 0

/- `*nextp > ' '`, of a signed char. -/
def graphic (c : Char) : Bool := decide (32 < c.toNat) && decide (c.toNat < 128)

def white (c : Char) : Bool := c != nul && !graphic c

def digit (base : ℕ) (c : Char) : Option ℕ :=
  let d :=
    if '0' ≤ c ∧ c ≤ '9' then c.toNat - '0'.toNat
    else if 'a' ≤ c ∧ c ≤ 'z' then c.toNat - 'a'.toNat + 10
    else if 'A' ≤ c ∧ c ≤ 'Z' then c.toNat - 'A'.toNat + 10
    else base
  if d < base then some d else none

def number (base : ℕ) (cs : List Char) : Option ℕ :=
  if cs.isEmpty then none else cs.foldlM (fun n c => (digit base c).map (n * base + ·)) 0

def magnitude : List Char → Option ℕ
  | '0' :: 'x' :: cs => number 16 cs
  | '0' :: 'X' :: cs => number 16 cs
  | '0' :: cs => number 8 ('0' :: cs)
  | cs => number 10 cs

/- `strtol(token, &endp, 0)`, `none` unless the whole token is converted. -/
def strtol : List Char → Option ℤ
  | '-' :: cs => (magnitude cs).map fun n => -n
  | '+' :: cs => (magnitude cs).map fun n => n
  | cs => (magnitude cs).map fun n => n

inductive Class
  | number (value : ℤ)
  | ident
  | eol
  deriving DecidableEq, Repr

def classify (token : List Char) : Class :=
  match strtol token with
  | some val => if longMin < val ∧ val < longMax then .number val else .ident
  | none => if token.isEmpty then .eol else .ident

structure Next where
  token : List Char
  cls : Class
  nextp : List Char

/-- `strconf.c:575-635`: `token` has 200 bytes. -/
def getNext (nextp : List Char) : Next :=
  let p := nextp.dropWhile white
  let token := (p.takeWhile graphic).take 199
  ⟨token,classify token,p.dropWhile graphic⟩

/-! ### What a line declares -/

/- What `err` prints, behind the name of the file and the number of the line. -/
inductive Err
  | driverName (token : List Char)      -- Driver name must be identifier: %s
  | driverPrefix (token : List Char)    -- Driver prefix must be identifier: %s
  | majorValue (value : ℤ)              -- Invalid driver major %ld  specifier: %s
  | majorSpec (token : List Char)       -- Invalid driver major specifier: %s
  | minorsValue (value : ℤ)             -- Invalid driver n-minors specifier: %ld
  | minorsSpec (token : List Char)      -- Invalid driver n-minors specifier: %s
  | majorsValue (value : ℤ)             -- Invalid driver n-majors specifier: %ld
  | tooFew (nmajors nminors : ℕ)        -- Too few majors (%d) specified for %d minors.
  | inUse (major : ℕ)                   -- Major %d already in use.
  | multiple                            -- Multiple majors - major spec must be '*'.
  deriving DecidableEq, Repr

/- The identifiers as `get_next` leaves them, `major0` -1 as `none`, `nmajors` 0 when it is not given. -/
structure Decl where
  name : List Char
  drvPrefix : List Char
  major0 : Option ℕ
  nminors : ℕ
  nmajors : ℕ
  deriving DecidableEq, Repr

def identArg (err : List Char → Err) (nextp : List Char) : Except Err (List Char × List Char) :=
  let n := getNext nextp
  if n.cls = .ident then .ok (n.token,n.nextp) else .error (err n.token)

def inInt (value : ℤ) : Bool := decide (0 ≤ value) && decide (value ≤ intMax)

def majorArg (nextp : List Char) : Except Err (Option ℕ × List Char) :=
  let n := getNext nextp
  match n.cls with
  | .number value => if inInt value then .ok (some value.toNat,n.nextp) else .error (.majorValue value)
  | .ident => if n.token = ['*'] then .ok (none,n.nextp) else .error (.majorSpec n.token)
  | .eol => .error (.majorSpec n.token)

def minorsArg (nextp : List Char) : Except Err (ℕ × List Char) :=
  let n := getNext nextp
  match n.cls with
  | .number value => if inInt value then .ok (value.toNat,n.nextp) else .error (.minorsValue value)
  | .eol => .ok (1,n.nextp)
  | .ident => .error (.minorsSpec n.token)

def majorsArg (nextp : List Char) : Except Err ℕ :=
  match (getNext nextp).cls with
  | .number value => if inInt value then .ok value.toNat else .error (.majorsValue value)
  | .eol => .ok 0
  | .ident => .ok 0

/-- `strconf.c:682-755` -/
def parseDriver (nextp : List Char) : Except Err Decl := do
  let name ← identArg .driverName nextp
  let drvPrefix ← identArg .driverPrefix name.2
  let major0 ← majorArg drvPrefix.2
  let nminors ← minorsArg major0.2
  let nmajors ← majorsArg nminors.2
  pure ⟨name.1,drvPrefix.1,major0.1,nminors.1,nmajors⟩

/- `gnu_dev_major` of <sys/sysmacros.h>, of an int made a `dev_t`. -/
def major (dev : ℤ) : ℕ :=
  let d := (dev % 2 ^ 64).toNat
  d / 2 ^ 8 % 2 ^ 12 + d / 2 ^ 44 % 2 ^ 20 * 2 ^ 12

namespace Decl

variable (d : Decl)

/- `nmajors` when the majors are reserved: unsigned arithmetic, 0 for a driver of 0 minors. -/
def count : ℕ := if d.nmajors = 0 then (major (d.nminors - 1) + 1) % 2 ^ 32 else d.nmajors

def tooFew : Bool := d.nmajors != 0 && decide (d.nmajors ≤ major (d.nminors - 1))

end Decl

/-! ### The tables -/

structure Driver where
  name : List Char
  drvPrefix : List Char
  past : List Char
  nmajors : ℕ
  major : List ℕ
  cell : ℤ
  nminors : ℕ
  instNr : ℕ
  deriving DecidableEq, Repr

structure Conf where
  majors : List ℕ
  nextMajor : ℕ
  drivers : List Driver
  errors : List Err
  deriving DecidableEq, Repr

/- Of memory that nothing has been written to: `slot` is `prefix[49]` in the frame of the call, `frame` what follows it,
`past` what follows the prefix in the new entry, `cell` what is found at `major[0]` when there are no majors. -/
structure Line where
  nextp : List Char
  slot : Char
  frame : List Char
  past : List Char
  cell : ℤ
  deriving DecidableEq, Repr

def cstr (buf : List Char) : List Char := buf.takeWhile (· != nul)

def strncpy (n : ℕ) (src : List Char) : List Char :=
  let s := (cstr src).take n
  s ++ List.replicate (n - s.length) nul

/- `name` and `prefix` of `process_line`, as they are handed to `mk_driver`. -/
def nameBuf (d : Decl) : List Char := strncpy 49 d.name ++ [nul]

def prefixBuf (d : Decl) (l : Line) : List Char := strncpy 49 d.drvPrefix ++ l.slot :: l.frame

namespace Driver

variable (dp : Driver)

/- What `strcmp` and `%s` take for the prefix. -/
def prefixStr : List Char := cstr (dp.drvPrefix ++ dp.past)

def first : ℤ :=
  match dp.major with
  | [] => dp.cell
  | m :: _ => m

end Driver

/-- `strconf.c:296-311` -/
def driverInstance (drivers : List Driver) (p : List Char) : ℕ :=
  ((drivers.filter fun dp => dp.prefixStr = cstr p).map (·.nmajors)).sum

def newDriver (d : Decl) (l : Line) (maj : List ℕ) (instNr : ℕ) : Driver where
  name := strncpy 50 (nameBuf d)
  drvPrefix := strncpy 50 (prefixBuf d l)
  past := l.past
  nmajors := d.count
  major := maj
  cell := l.cell
  nminors := d.nminors
  instNr := instNr

namespace Conf

variable (s : Conf)

def init : Conf := ⟨[],50,[],[]⟩

def err (e : Err) : Conf := { s with errors := s.errors ++ [e] }

def majorInUse (m : ℕ) : Bool := s.majors.contains m

/- The loop of `get_free_major`: of more majors than are in use one is free. -/
def freeFrom : ℕ → ℕ → ℕ
  | 0, m => m
  | fuel + 1, m => if s.majorInUse m then freeFrom fuel (m + 1) else m

/-- `strconf.c:227-235` -/
def getFreeMajor : ℕ × Conf :=
  let m := s.freeFrom s.majors.length s.nextMajor
  (m,{ s with nextMajor := m + 1 })

/-- `strconf.c:244-255` -/
def reserveMajor (m : ℕ) : Option Conf :=
  if s.majorInUse m then none
  else if 256 ≤ s.majors.length then none
  else some { s with majors := s.majors ++ [m] }

/-- `strconf.c:794-798` -/
def reserveFree : ℕ → Conf → Option (List ℕ × Conf)
  | 0, s => some ([],s)
  | n + 1, s =>
      let r := s.getFreeMajor
      (r.2.reserveMajor r.1).bind fun t => (reserveFree n t).map fun q => (r.1 :: q.1,q.2)

/-- `strconf.c:319-345` -/
def mkDriver (d : Decl) (l : Line) (maj : List ℕ) : Conf :=
  { s with drivers := s.drivers ++ [newDriver d l maj (driverInstance s.drivers (prefixBuf d l))] }

/-- `strconf.c:757-800` -/
def declare (d : Decl) (l : Line) : Option Conf :=
  let s := if d.tooFew then s.err (.tooFew d.nmajors d.nminors) else s
  if d.count = 1 then
    let r := match d.major0 with
      | none => s.getFreeMajor
      | some m => (m,s)
    if r.2.majorInUse r.1 then some (r.2.err (.inUse r.1))
    else (r.2.reserveMajor r.1).map fun t => t.mkDriver d l [r.1]
  else if d.major0.isSome then some (s.err .multiple)
  else (reserveFree d.count s).map fun r => r.2.mkDriver d l r.1

/-- `strconf.c:674-801` -/
def processLine (l : Line) : Option Conf :=
  match parseDriver l.nextp with
  | .error e => some (s.err e)
  | .ok d => s.declare d l

/-- `strconf.c:1642-1658` -/
def sortDrivers : Option (List Driver) := Lib.Bubble.passes Driver.first (s.drivers.length ^ 2 + 1) s.drivers

end Conf

/-! ### Generated names -/

/- `toupper`, and `_` for what is neither a letter, a digit nor `_`. -/
def raiseChar (c : Char) : Char :=
  let u := if 'a' ≤ c ∧ c ≤ 'z' then Char.ofNat (c.toNat - 32) else c
  if ('A' ≤ u ∧ u ≤ 'Z') ∨ ('0' ≤ u ∧ u ≤ '9') then u else '_'

def raise (p : List Char) : List Char := p.map raiseChar

namespace Driver

variable (dp : Driver)

/- `%s_%u_majors` in `modconf.c`. -/
def majorsName : List Char :=
  dp.prefixStr ++ '_' :: (Nat.toDigits 10 dp.instNr ++ ['_','m','a','j','o','r','s'])

/- `%s_CMAJOR_%d` in `config.h`, for each of the majors. -/
def cmajorNames : List (List Char) :=
  if dp.prefixStr = ['-'] then []
  else (List.range dp.nmajors).map fun i =>
    raise dp.prefixStr ++ (['_','C','M','A','J','O','R','_'] ++ Nat.toDigits 10 (i + dp.instNr))

end Driver

end CSLiS.Config
