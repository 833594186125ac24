import CSLiS.Lib.Exec

/-!
# Autopush configuration (head/mod.c, include/sys/sad.h)

The autopush entries of one major device number form a chain sorted by minor
(`mod.c:81-103`). `apush_conf` checks a new entry against the chain and links
it in, `find_apush_entry` looks a minor up, and `lis_apush_set`, `lis_apushm`
are the callers. The module ids of all entries are reference counted in
`apush_nref`. Numbers of type `unsigned` are natural numbers: nothing here adds
to a major or a minor.
-/

namespace CSLiS.Apush

abbrev ModID := ℕ

def maxStrdev : ℕ := 1024
def maxApush : ℕ := 8

def ENODEV : ℤ := 19
def EEXIST : ℤ := 17
def EINVAL : ℤ := 22
def ERANGE : ℤ := 34
def ENOSTR : ℤ := 60
def ENOSR : ℤ := 63

/-- `apc_cmd` values (`sad.h:38-42`). The field is an `unsigned` that a user
process fills in, so any number occurs. -/
def sapClear : ℕ := 0
def sapOne : ℕ := 1
def sapRange : ℕ := 2
def sapAll : ℕ := 3

/-- `struct autopush` without its link; `push` holds the `npush` module ids. -/
structure Autopush where
  cmd : ℕ
  minor : ℕ
  lastminor : ℕ
  push : List ModID
  deriving DecidableEq, Repr

abbrev Chain := List Autopush

/-- The static tables `apush` and `apush_nref`. -/
structure State where
  apush : ℕ → Chain
  apushNref : ModID → ℕ

def State.initial : State := ⟨fun _ => [], fun _ => 0⟩

/-- What the routines below read outside the autopush tables: the driver table
`lis_fstr_sw`, `find_drv_objname`, the module table `lis_fmod_sw` and the
outcomes of `lis_loadmod` and `ALLOC`. -/
structure Env where
  fstrSw : ℕ → Bool
  drvObjname : ℕ → Bool
  modInited : ModID → Bool
  fName : ModID → String
  lisLoadmod : String → ℤ
  alloc : Bool

/-- `apush_free`: the entry's modules lose one reference each. -/
def apushFree (a : Autopush) (nref : ModID → ℕ) : ModID → ℕ :=
  a.push.foldl (fun r m => Function.update r m (r m - 1)) nref

/-- The reference counting at the end of `apush_conf` (`mod.c:665-666`). -/
def countRefs (a : Autopush) (nref : ModID → ℕ) : ModID → ℕ :=
  a.push.foldl (fun r m => Function.update r m (r m + 1)) nref

/-- The `SAP_CLEAR` search: the chain without the entry of this minor, and that
entry. -/
def clearEntry (minor : ℕ) : Chain → Option (Autopush × Chain)
  | [] => none
  | ar :: rest =>
      if ar.minor > minor then none
      else if ar.minor = minor then some (ar,rest)
      else (clearEntry minor rest).map fun p => (p.1,ar :: p.2)

/-- The `SAP_ONE` loop; `none` is the return of `-EEXIST`. -/
def insertOne (a : Autopush) : Chain → Option Chain
  | [] => some [a]
  | ar :: rest =>
      if ar.minor > a.minor then some (a :: ar :: rest)
      else if ar.cmd = sapOne then
        if ar.minor = a.minor then none
        else (insertOne a rest).map (ar :: ·)
      else if a.minor ≤ ar.lastminor then none
      else (insertOne a rest).map (ar :: ·)

/-- The `SAP_RANGE` loop; `none` is the return of `-EEXIST`. -/
def insertRange (a : Autopush) : Chain → Option Chain
  | [] => some [a]
  | ar :: rest =>
      if ar.minor > a.lastminor then some (a :: ar :: rest)
      else if ar.minor ≥ a.minor then none
      else if ar.cmd ≠ sapOne then
        if ar.lastminor ≤ a.lastminor ∨ ar.lastminor ≥ a.minor then none
        else (insertRange a rest).map (ar :: ·)
      else (insertRange a rest).map (ar :: ·)

def headIsAll : Chain → Bool
  | [] => false
  | ar :: _ => ar.cmd == sapAll

def setChain (st : State) (major : ℕ) (c : Chain) : State :=
  { st with apush := Function.update st.apush major c }

/-- Linking a new entry in and counting its modules. -/
def insertEntry (st : State) (major : ℕ) (a : Autopush) (c : Option Chain) : ℤ × State :=
  match c with
  | none => (-EEXIST,st)
  | some c => (0,{ setChain st major c with apushNref := countRefs a st.apushNref })

/-- `apush_conf` (`mod.c:534-669`): the return value and the tables after it. -/
def apushConf (env : Env) (major : ℕ) (a : Autopush) (st : State) : ℤ × State :=
  if major ≥ maxStrdev then (-ENODEV,st)
  else if !env.fstrSw major && !env.drvObjname major then (-ENODEV,st)
  else if a.cmd = sapClear then
    match st.apush major with
    | [] => (-ENODEV,st)
    | ar :: rest =>
        if a.minor = 0 ∧ ar.cmd = sapAll then
          (0,{ setChain st major rest with apushNref := apushFree ar st.apushNref })
        else match clearEntry a.minor (ar :: rest) with
          | none => (-ERANGE,st)
          | some p => (0,{ setChain st major p.2 with apushNref := apushFree p.1 st.apushNref })
  else if a.cmd = sapOne then
    if headIsAll (st.apush major) then (-EEXIST,st)
    else insertEntry st major a (insertOne a (st.apush major))
  else if a.cmd = sapRange then
    if a.minor ≥ a.lastminor then (-ERANGE,st)
    else if headIsAll (st.apush major) then (-EEXIST,st)
    else insertEntry st major a (insertRange a (st.apush major))
  else if a.cmd = sapAll then
    if (st.apush major).isEmpty then insertEntry st major a (some [a]) else (-EEXIST,st)
  else (-EINVAL,st)

/-- `struct strapush`; `sapList` is the array of names. -/
structure Strapush where
  sapCmd : ℕ
  sapMajor : ℕ
  sapMinor : ℕ
  sapLastminor : ℕ
  sapNpush : ℕ
  sapList : ℕ → String

/-- The loop that turns the names into module ids; `none` when a module is
unknown. -/
def loadMods (env : Env) : List String → Option (List ModID)
  | [] => some []
  | s :: rest =>
      if env.lisLoadmod s ≤ 0 then none
      else (loadMods env rest).map ((env.lisLoadmod s).toNat :: ·)

/-- `apush_validate` (the length was checked by the caller). -/
def apushValidate (env : Env) (mods : List ModID) : Bool := mods.all env.modInited

/-- `lis_apush_set` (`mod.c:1294-1347`). -/
def lisApushSet (env : Env) (ap : Strapush) (st : State) : ℤ × State :=
  if !env.fstrSw ap.sapMajor && !env.drvObjname ap.sapMajor then (-ENOSTR,st)
  else if ap.sapNpush > maxApush then (-EINVAL,st)
  else if !env.alloc then (-ENOSR,st)
  else match loadMods env ((List.range ap.sapNpush).map ap.sapList) with
    | none => (-EINVAL,st)
    | some mods =>
        if apushValidate env mods then
          apushConf env ap.sapMajor ⟨ap.sapCmd,ap.sapMinor,ap.sapLastminor,mods⟩ st
        else (-EINVAL,st)

/-- `find_apush_entry` (`mod.c:671-693`) on the chain of one major. -/
def findApushEntry (minor : ℕ) : Chain → Option Autopush
  | [] => none
  | a :: rest =>
      if a.cmd = sapAll then some a
      else if a.minor > minor then none
      else if a.minor = minor then some a
      else if a.cmd = sapRange ∧ a.lastminor ≤ minor then some a
      else findApushEntry minor rest

/-- `lis_apushm` (`mod.c:1265-1292`): the names stored in `mods`. -/
def lisApushm (env : Env) (major minor : ℕ) (st : State) : List String :=
  if major ≥ maxStrdev then []
  else match findApushEntry minor (st.apush major) with
    | none => []
    | some a => a.push.map env.fName

end CSLiS.Apush
