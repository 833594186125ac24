import CSLiS.Apush.InsertExact
import CSLiS.Apush.LookupExact

/-!
# Autopush lines of the configuration (util/strconf.c, head/mod.c)

`strconf` reads the lines and keeps those that do not conflict in the list `dp->ap` of the driver, newest first.
`build_modconf` writes the list out, and `lis_init_mod` installs what was written through `apush_conf`.
-/

namespace CSLiS.Apush

def intMax : ℤ := 2147483647

/- `autopush_info_t`: `minor` is -1 for all minors, `lastminor` 0 for one. -/
structure Info where
  minor : ℤ
  lastminor : ℤ
  mods : List String
  deriving DecidableEq, Repr

def inrange (x lo hi : ℤ) : Bool := decide (lo ≤ x) && decide (x ≤ hi)

/- The loop's test of the entry `ar` against a single minor. -/
def Info.clashOne (ap ar : Info) : Bool :=
  ar.minor == -1 || (ar.lastminor != 0 && inrange ar.minor ap.minor ap.lastminor) ||
    (ar.lastminor == 0 && ar.minor == ap.minor)

/- Against a range. -/
def Info.clashRange (ap ar : Info) : Bool :=
  ar.minor == -1 ||
    (ar.lastminor != 0 && (inrange ar.minor ap.minor ap.lastminor || inrange ar.lastminor ap.minor ap.lastminor ||
      (decide (ar.minor < ap.minor) && decide (ap.lastminor < ar.lastminor)))) ||
    (ar.lastminor == 0 && inrange ar.minor ap.minor ap.lastminor)

/-- `strconf.c:1512-1582` -/
def Info.refused (ap : Info) (dp : List Info) : Bool :=
  if ap.minor = -1 then !dp.isEmpty
  else if ap.lastminor = 0 then dp.any ap.clashOne
  else if ap.minor < ap.lastminor then dp.any ap.clashRange
  else true

/-- `strconf.c:1438-1587`: the list `dp->ap` after the line, nothing when the line is rejected. -/
def processLine (modules : List String) (minor lastminor : ℤ) (mods : List String) (dp : List Info) :
    Option (List Info) :=
  if minor < -1 ∨ intMax < minor then none
  else if lastminor < 0 ∨ intMax < lastminor then none
  else if minor ≠ -1 ∧ lastminor ≠ 0 ∧ lastminor ≤ minor then none
  else if ¬ ∀ n ∈ mods.take maxApush, n ∈ modules then none
  else
    let ap : Info := ⟨minor,if minor = -1 then 0 else lastminor,mods.take maxApush⟩
    if ap.refused dp then none else some (ap :: dp)

/- A line for all minors, for one or for a range. -/
structure Line (modules : List String) where
  minor : ℤ
  lastminor : ℤ
  mods : List String
  least : -1 ≤ minor
  minor_le : minor ≤ intMax
  last_nonneg : 0 ≤ lastminor
  last_le : lastminor ≤ intMax
  range : minor = -1 ∨ lastminor = 0 ∨ minor < lastminor
  length_le : mods.length ≤ maxApush
  known : ∀ n ∈ mods, n ∈ modules

/- What `strconf` keeps of it. -/
def Line.info {modules : List String} (l : Line modules) : Info :=
  ⟨l.minor,if l.minor = -1 then 0 else l.lastminor,l.mods⟩

/- `autopush_init_t`. The entries of other drivers have other majors. -/
structure AutopushInit where
  major : ℕ
  minor : ℤ
  lastminor : ℤ
  mods : List String
  deriving DecidableEq, Repr

/- A declared driver and modules, and what `lis_init_mod` has registered when it comes to the autopush table: `names`
are the `f_name` from slot 1 on. -/
structure Boot where
  modules : List String
  major : ℕ
  others : List ℕ
  env : Env
  names : List String
  registered : ∀ n ∈ modules, n ∈ names
  fName : ∀ i n, names[i]? = some n → env.fName (i + 1) = n

namespace Boot

variable (b : Boot)

def majors : List ℕ := b.major :: b.others

/- The list `dp->ap` after the lines. -/
def accepted (lines : List (Line b.modules)) : List Info :=
  lines.foldl (fun dp l => (processLine b.modules l.minor l.lastminor l.mods dp).getD dp) []

/-- `strconf.c:1881-1902` -/
def buildModconf (dp : List Info) : List AutopushInit := dp.map fun ap => ⟨b.major,ap.minor,ap.lastminor,ap.mods⟩

/-- `mod.c:303-312` -/
def findMod (name : String) : Option ModID := (b.names.findIdx? fun n => n = name).map (· + 1)

/-- `mod.c:1498-1517` -/
def initEntry (e : AutopushInit) : Autopush where
  cmd := if e.minor = -1 then sapAll else if e.lastminor = 0 then sapOne else sapRange
  minor := if e.minor = -1 then 0 else e.minor.toNat
  lastminor := if e.minor = -1 then 0 else e.lastminor.toNat
  push := e.mods.filterMap b.findMod

/-- `mod.c:1488-1526`, with what `apush_conf` returns for each entry. -/
def lisInitMod : List AutopushInit → State → List ℤ × State
  | [], st => ([],st)
  | e :: table, st =>
      let r := apushConf b.env e.major (b.initEntry e) st
      let q := lisInitMod table r.2
      (r.1 :: q.1,q.2)

end Boot

end CSLiS.Apush
