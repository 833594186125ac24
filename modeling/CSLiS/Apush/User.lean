import CSLiS.Apush.DropMod
import CSLiS.Apush.LookupExact
import CSLiS.Mod.Registry

/-!
# Autopush structures of a user process (head/mod.c, include/sys/sad.h)

`lis_apush_set` and `lis_apush_get` on a `struct strapush` as it comes from a user process, with the modules of
Mod/Registry. Each routine notes in `ok` that its indices are inside of their arrays, that no name is read and no byte
of `sap_list` written beyond its array, and that every LISASSERT that it meets holds. What lies behind an array is
there to be read. A call is a step. While `lis_apush_set` waits for a module to be loaded, other calls on the table of
modules are made, none on the autopush lists.
-/

namespace CSLiS.Apush.User
open Queue Lib.Exec CSLiS.Mod

def FMNAMESZ : ℕ := 8

/- `struct strapush` (`sad.h:31-49`). `sapList` is the memory from `sap_list` on: 8 rows of 9 bytes, and what follows. -/
structure Strapush where
  sapCmd : ℕ
  sapMajor : ℕ
  sapMinor : ℕ
  sapLastminor : ℕ
  sapNpush : ℕ
  sapList : ℕ → Uchar

def row (list : ℕ → Uchar) (i : ℕ) : Name := (List.range (FMNAMESZ + 1)).map fun j => list ((FMNAMESZ + 1) * i + j)

/- The string that starts in a row, as far as a comparison with an `f_name` or a copy to one looks. -/
def cName (list : ℕ → Uchar) (i : ℕ) : Name :=
  ((List.range (LIS_NAMESZ + 1)).map fun j => list ((FMNAMESZ + 1) * i + j)).takeWhile (· ≠ 0)

/- The string within the row. -/
def rowName (list : ℕ → Uchar) (i : ℕ) : Name := (row list i).takeWhile (· ≠ 0)

/- What a `lis_loadmod` meets: interrupted waits, the other calls made during `request_module`, and how that ends. -/
structure Load where
  intr : Bool
  intrSem : Bool
  during : List Mod.Act
  ok : Bool
  deriving Repr

/- An entry of `lis_apush_set` and the names it was made with. -/
structure Owed where
  major : ℕ
  entry : Autopush
  names : List Name
  deriving DecidableEq, Repr

structure Sys where
  tabs : State
  reg : Registry
  fstrSw : ℕ → Bool
  drvObjname : ℕ → Bool
  owed : List Owed

/- A call on the table of modules that leaves the autopush lists alone. -/
def registryCall (r : Registry) : Mod.Act → Option Registry
  | .unregister .. => none
  | x => r.step x

/-! ## Names -/

/- The bytes of the row are all there is of the name, or nobody looks further: `lis_findmod` finds a difference in
every slot, and `lis_loadmod` goes no further than to `lis_mod_reg`. -/
def within (r : Registry) (list : ℕ → Uchar) (i : ℕ) (intr : Bool) : Bool :=
  (row list i).contains 0 ||
    (intr && (List.range' 1 r.lisFmodcnt).all fun id => !(row list i).isPrefixOf (r.sw id).fName)

/- `lis_loadmod` for a name of the list. -/
def loadName (r : Registry) (list : ℕ → Uchar) (i : ℕ) (l : Load) : Option (ℤ × Registry × Bool) :=
  ((Registry.lisLoadmod { r with used := [] } (cName list i) l.intr l.intrSem).bind fun (q : ℤ × Registry) =>
    match q.2.loads[r.loads.length]? with
    | none => some q
    | some id =>
        (exec registryCall { q.2 with loads := r.loads } l.during).bind fun (t : Registry) =>
          { t with loads := t.loads ++ [id], used := q.2.used }.loadDone t.loads.length l.ok).map
    fun (t : ℤ × Registry) => (t.1,t.2,within r list i l.intr && t.2.used.all fun j => decide (j < MAX_STRMOD))

/- The module ids of the names from the `i`-th on (`mod.c:1320-1329`). -/
def loadNames (list : ℕ → Uchar) (loads : ℕ → Load) : ℕ → ℕ → Registry → Option (Option (List ModID) × Registry × Bool)
  | 0, _, r => some (some [],r,true)
  | n+1, i, r =>
      (loadName r list i (loads i)).bind fun q =>
        if q.1 ≤ 0 then some (none,q.2)
        else (loadNames list loads n (i + 1) q.2.1).map fun t =>
          (t.1.map (q.1.toNat :: ·),t.2.1,q.2.2 && t.2.2)

/-! ## Assertions -/

/- `apush_free` (`mod.c:418-434`) -/
def refsHold : List ModID → (ModID → ℕ) → Bool
  | [], _ => true
  | m :: ms, nref => decide (0 < m) && decide (m < MAX_STRMOD) && decide (0 < nref m) &&
      refsHold ms (Function.update nref m (nref m - 1))

def freeHolds (a : Autopush) (nref : ModID → ℕ) : Bool := decide (a.push.length ≤ maxApush) && refsHold a.push nref

/- The loop of `SAP_ONE` (`mod.c:592-610`) -/
def oneHolds (a : Autopush) : Chain → Bool
  | [] => true
  | ar :: rest =>
      if ar.minor > a.minor then true
      else if ar.cmd = sapOne then ar.minor == a.minor || oneHolds a rest
      else ar.cmd == sapRange && decide (ar.minor ≤ a.minor) && (decide (a.minor ≤ ar.lastminor) || oneHolds a rest)

/- The loop of `SAP_RANGE` (`mod.c:623-647`) -/
def rangeHolds (a : Autopush) : Chain → Bool
  | [] => true
  | ar :: rest =>
      if ar.minor > a.lastminor then true
      else if ar.minor ≥ a.minor then decide (ar.minor ≤ a.lastminor)
      else if ar.cmd ≠ sapOne then
        ar.cmd == sapRange && decide (ar.minor ≤ a.lastminor) && decide (ar.minor < a.minor) &&
          decide (a.minor < a.lastminor) && decide (ar.minor < a.lastminor) &&
          (decide (ar.lastminor ≤ a.lastminor ∨ ar.lastminor ≥ a.minor) || rangeHolds a rest)
      else rangeHolds a rest

/- `apush_conf` (`mod.c:534-669`) -/
def confHolds (env : Env) (major : ℕ) (a : Autopush) (st : State) : Bool :=
  if major ≥ maxStrdev then true
  else if !env.fstrSw major && !env.drvObjname major then true
  else if a.cmd = sapClear then
    match st.apush major with
    | [] => true
    | ar :: rest =>
        if a.minor = 0 ∧ ar.cmd = sapAll then rest.isEmpty && freeHolds ar st.apushNref
        else match clearEntry a.minor (ar :: rest) with
          | none => true
          | some p => freeHolds p.1 st.apushNref
  else if a.cmd = sapOne then
    decide (a.push.length ≤ maxApush) && apushValidate env a.push &&
      (headIsAll (st.apush major) || oneHolds a (st.apush major))
  else if a.cmd = sapRange then
    decide (a.push.length ≤ maxApush) && apushValidate env a.push &&
      (decide (a.minor ≥ a.lastminor) || headIsAll (st.apush major) || rangeHolds a (st.apush major))
  else if a.cmd = sapAll then decide (a.push.length ≤ maxApush) && apushValidate env a.push
  else true

/- `find_apush_entry` (`mod.c:671-693`) -/
def findHolds (minor : ℕ) : Chain → Bool
  | [] => true
  | a :: rest =>
      (a.cmd == sapAll || a.cmd == sapOne || a.cmd == sapRange) &&
        if a.cmd = sapAll then decide (a.minor ≤ minor)
        else if a.minor > minor then true
        else if a.minor = minor then true
        else if a.cmd = sapRange ∧ a.lastminor ≤ minor then true
        else findHolds minor rest

/-! ## Set and get -/

def Sys.env (s : Sys) : Env := ⟨s.fstrSw,s.drvObjname,fun id => (s.reg.sw id).inited,fun _ => "",fun _ => 0,true⟩

/- A driver is there, or it is one that can be loaded. -/
def Sys.present (s : Sys) (major : ℕ) : Bool := s.fstrSw major || s.drvObjname major

/- What a successful call takes from the entries that are owed, and adds to them. -/
def Strapush.owes (u : Strapush) (a : Autopush) (names : List Name) (owed : List Owed) : List Owed :=
  if a.cmd = sapClear then
    owed.filter fun o => !(o.major == u.sapMajor && (o.entry.minor == a.minor || (a.minor == 0 && o.entry.cmd == sapAll)))
  else ⟨u.sapMajor,a,names⟩ :: owed

structure Outcome where
  ret : ℤ
  sys : Sys
  ok : Bool

/-- `lis_apush_set` (`mod.c:1294-1347`) -/
def Sys.lisApushSet (s : Sys) (u : Strapush) (alloc : Bool) (loads : ℕ → Load) : Option Outcome :=
  let inTable := decide (u.sapMajor < maxStrdev)
  if !s.present u.sapMajor then some ⟨-ENOSTR,s,inTable⟩
  else if u.sapNpush > maxApush then some ⟨-Apush.EINVAL,s,inTable⟩
  else if !alloc then some ⟨-ENOSR,s,inTable⟩
  else (loadNames u.sapList loads u.sapNpush 0 s.reg).map fun t =>
    let s := { s with reg := t.2.1 }
    match t.1 with
    | none => ⟨-Apush.EINVAL,s,inTable && t.2.2⟩
    | some mods =>
        let a : Autopush := ⟨u.sapCmd,u.sapMinor,u.sapLastminor,mods⟩
        if apushValidate s.env mods then
          let c := apushConf s.env u.sapMajor a s.tabs
          ⟨c.1,{ s with
              tabs := c.2
              owed := if c.1 = 0 then u.owes a ((List.range u.sapNpush).map (cName u.sapList)) s.owed else s.owed },
            inTable && t.2.2 && confHolds s.env u.sapMajor a s.tabs⟩
        else ⟨-Apush.EINVAL,s,inTable && t.2.2⟩

/- `strncpy(ap->sap_list[i], name, LIS_NAMESZ + 1)` -/
def strncpy (list : ℕ → Uchar) (i : ℕ) (name : Name) : ℕ → Uchar := fun k =>
  if (FMNAMESZ + 1) * i ≤ k ∧ k < (FMNAMESZ + 1) * i + (LIS_NAMESZ + 1) then name.getD (k - (FMNAMESZ + 1) * i) 0
  else list k

/- The names from the `i`-th on (`mod.c:1374-1381`), and that they stay inside of `sap_list`. -/
def copyNames (r : Registry) : ℕ → List ModID → (ℕ → Uchar) → (ℕ → Uchar) × Bool
  | _, [], list => (list,true)
  | i, id :: ids, list =>
      let t := copyNames r (i + 1) ids (strncpy list i (r.sw id).fName)
      (t.1,decide (0 < id) && decide (id < MAX_STRMOD) && (r.sw id).fStr.isSome &&
        decide ((FMNAMESZ + 1) * i + (LIS_NAMESZ + 1) ≤ (FMNAMESZ + 1) * maxApush) && t.2)

/-- `lis_apush_get` (`mod.c:1349-1385`) -/
def Sys.lisApushGet (s : Sys) (u : Strapush) : ℤ × Strapush × Bool :=
  if u.sapMajor ≥ maxStrdev then (-Apush.EINVAL,u,true)
  else if !s.present u.sapMajor then (-ENOSTR,u,true)
  else
    let c := s.tabs.apush u.sapMajor
    match findApushEntry u.sapMinor c with
    | none => (-ENODEV,u,findHolds u.sapMinor c)
    | some a =>
        let t := copyNames s.reg 0 a.push u.sapList
        (0,{ u with sapCmd := a.cmd, sapLastminor := a.lastminor, sapNpush := a.push.length, sapList := t.1 },
          findHolds u.sapMinor c && u.sapMinor == a.minor && t.2)

/-! ## Steps -/

inductive Act
  | set (u : Strapush) (alloc : Bool) (loads : ℕ → Load)
  | get (u : Strapush)
  | initEntry (major cmd minor lastminor : ℕ) (mods : List Name)
  | registerStrdev (major : ℕ)
  | unregisterStrdev (major : ℕ)
  | freeAll
  | unregisterModule (id : ℕ) (intr : Bool)
  | modules (x : Mod.Act)

/- The ids that `lis_init_mod` finds for the names of an autopush entry (`mod.c:1509-1517`). -/
def findMods (r : Registry) (mods : List Name) : List ModID := mods.filterMap fun n => (r.findMod n).1

/- `unregister_module` comes to `apush_drop_mod` if it returns 0 for a slot that is initialised (`mod.c:775-822`). -/
def Sys.unregister (s : Sys) (id : ℕ) (intr : Bool) : Option Sys :=
  (s.reg.unregisterModule id intr).map fun u =>
    if u.1 = 0 ∧ (s.reg.sw id).inited then
      { s with tabs := apushDropMod id s.tabs, reg := u.2, owed := s.owed.filter fun o => !o.entry.push.contains id }
    else { s with reg := u.2 }

def step (s : Sys) : Act → Option Sys
  | .set u alloc loads => (s.lisApushSet u alloc loads).map Outcome.sys
  | .get _ => some s
  | .initEntry major cmd minor lastminor mods =>
      if cmd ≠ sapClear ∧ mods.length ≤ maxApush then
        some { s with tabs := (apushConf s.env major ⟨cmd,minor,lastminor,findMods s.reg mods⟩ s.tabs).2 }
      else none
  | .registerStrdev major => some { s with fstrSw := Function.update s.fstrSw major true }
  | .unregisterStrdev major =>
      if major < maxStrdev ∧ s.fstrSw major then
        some { s with
          tabs := apushFreeMajor major s.tabs
          fstrSw := Function.update s.fstrSw major false
          owed := s.owed.filter fun o => o.major ≠ major }
      else none
  | .freeAll => some { s with tabs := apushFreeAll s.tabs, owed := [] }
  | .unregisterModule id intr => if 0 < id ∧ id < MAX_STRMOD then s.unregister id intr else none
  | .modules x => (registryCall s.reg x).map fun r => { s with reg := r }

/- After the memset of `lis_init_mod` (`mod.c:1420-1424`). `lis_drv_objnames` is configured. -/
def start (beyond : ℕ → Fmodsw) (behind drvObjname : ℕ → Bool) : Sys :=
  ⟨.initial,Registry.init beyond,fun i => decide (maxStrdev ≤ i) && behind i,drvObjname,[]⟩

end CSLiS.Apush.User
