import CSLiS.Queue.Message
import CSLiS.Lib.Exec
import CSLiS.Lib.Crew

/-!
# The table of modules (head/mod.c, head/head.c)

`lis_fmod_sw` is memory: behind the last slot there is something too. Every index that a routine uses
is noted in `used`. A call is a step, but for `lis_loadmod`, which gives up its semaphores for as long as
the object is being loaded. That a wait is interrupted is a parameter; a wait for a semaphore that nobody
is going to release has no next state. The autopush lists are left out.
-/

namespace CSLiS.Mod
open Queue Lib

def MAX_STRMOD : ℕ := 256
def LIS_NAMESZ : ℕ := 64

/- The bytes before the NUL. -/
abbrev Name := List Uchar

def LINKED : BitVec 8 := 0
def UNLOADED : BitVec 8 := 1
def LOADING : BitVec 8 := 2
def LOADED : BitVec 8 := 3
def UNKNOWN : BitVec 8 := 4

def EINTR : ℤ := 4
def EBUSY : ℤ := 16
def EINVAL : ℤ := 22

/- `-EINTR` as a `modID_t`, an unsigned short. -/
def midEintr : ℤ := 65532

/- `f_state` is the state and the bit LIS_MODSTATE_INITED, `f_sem` its count and whether it was initialised. -/
structure Fmodsw where
  fStr : Option ℕ
  fCount : BitVec 16
  fName : Name
  fState : BitVec 8
  inited : Bool
  semAlloc : Bool
  fSem : ℕ
  deriving DecidableEq, Repr

/- A module on a stream: the slot it was pushed from and the `mi_idname` of its streamtab. -/
structure Inst where
  slot : ℕ
  idname : Option Name
  deriving DecidableEq, Repr

structure Strm where
  stack : List Inst
  sdPushcnt : ℕ
  deriving DecidableEq, Repr

/- `semHeld` counts for each `f_sem` how often it was acquired and not released, `loads` has the slots
for which `lis_loadmod` waits for an object. -/
structure Registry where
  sw : ℕ → Fmodsw
  lisFmodcnt : ℕ
  lisModReg : ℕ
  semHeld : ℕ → ℤ
  used : List ℕ
  loads : List ℕ
  streams : List Strm
  ret : ℤ

/- How `push_mod` ends: before the module is on the stream, after `lis_set_q_sync` failed, or well. -/
inductive Pushed
  | failed
  | unsynced
  | done
  deriving DecidableEq, Repr

inductive Act
  | register (strtab : Option ℕ) (name : Option Name) (intr1 intr2 : Bool)
  | unregister (strtab : Option ℕ) (intr intrSem : Bool)
  | findmod (name : Option Name)
  | findmodStrtab (strtab : Option ℕ) (intr : Bool)
  | loadmod (name : Name) (intr intrSem : Bool)
  | loadDone (k : ℕ) (ok : Bool)
  | initMod (i modid : ℕ) (loadable : Bool)
  | openStream
  | push (k id : ℕ) (idname : Option Name) (pushed : Pushed)
  | autopush (k id : ℕ) (idname : Option Name) (intr : Bool) (pushed : Pushed)
  | pop (k : ℕ) (detached : Bool)
  deriving Repr

/- The indices that a search looks at. -/
def visited (p : ℕ → Bool) (l : List ℕ) : List ℕ := l.takeWhile (fun i => !p i) ++ (l.find? p).toList

namespace Registry

variable (s : Registry)

/- After the memset of `lis_init_mod` (`mod.c:1420-1424`). -/
def init (beyond : ℕ → Fmodsw) : Registry :=
  ⟨fun i => if i < MAX_STRMOD then ⟨none,0,[],LINKED,false,false,0⟩ else beyond i,1,1,fun _ => 0,[],[],[],0⟩

def setSlot (id : ℕ) (f : Fmodsw) : Registry :=
  { s with sw := Function.update s.sw id f, used := s.used ++ [id] }

/- A search through the table for a slot. -/
def search (l : List ℕ) (p : Fmodsw → Bool) : Option ℕ × Registry :=
  (l.find? fun i => p (s.sw i),{ s with used := s.used ++ visited (fun i => p (s.sw i)) l })

def downReg (intr : Bool) : Option (Bool × Registry) :=
  if intr then some (false,s)
  else if s.lisModReg = 0 then none
  else some (true,{ s with lisModReg := s.lisModReg - 1 })

def upReg : Registry := { s with lisModReg := s.lisModReg + 1 }

/- `lis_down(&lis_fmod_sw[id].f_sem)` fails for a semaphore that is not initialised. -/
def downSem (id : ℕ) (intr : Bool) : Option (Bool × Registry) :=
  let f := s.sw id
  if intr || !f.semAlloc then some (false,{ s with used := s.used ++ [id] })
  else if f.fSem = 0 then none
  else some (true,{ s.setSlot id { f with fSem := f.fSem - 1 } with
    semHeld := Function.update s.semHeld id (s.semHeld id + 1) })

def upSem (id : ℕ) : Registry :=
  { s.setSlot id { s.sw id with fSem := (s.sw id).fSem + 1 } with
    semHeld := Function.update s.semHeld id (s.semHeld id - 1) }

/-- `initialize_module` (`mod.c:360-370`). The bit is tested in what was just assigned, so that it is
never found set. -/
def initializeModule (id : ℕ) (name : Name) (state : BitVec 8) : Registry :=
  s.setSlot id { s.sw id with
    fState := state, inited := true, fCount := 0, fName := name.take LIS_NAMESZ, semAlloc := true, fSem := 1 }

/-- `deinitialize_module` (`mod.c:373-383`) -/
def deinitializeModule (id : ℕ) : Registry :=
  let f := s.sw id
  s.setSlot id { f with
    semAlloc := if f.inited then false else f.semAlloc, fState := UNKNOWN, inited := false, fCount := 0, fName := [] }

/-- `find_mod` (`mod.c:303-312`) -/
def findMod (name : Name) : Option ℕ × Registry := s.search (List.range' 1 s.lisFmodcnt) fun f => f.fName == name

/-- `find_empty_mod_index` (`mod.c:389-415`) -/
def findEmptyModIndex (name : Name) : ℕ × Registry :=
  let r := s.search (List.range' 1 (s.lisFmodcnt - 1)) fun f => f.fName == []
  match r.1 with
  | some id => (id,r.2.initializeModule id name UNKNOWN)
  | none =>
      if s.lisFmodcnt = MAX_STRMOD then (0,r.2)
      else (s.lisFmodcnt,{ r.2.initializeModule s.lisFmodcnt name UNKNOWN with lisFmodcnt := s.lisFmodcnt + 1 })

/-- `lis_findmod_strtab` (`mod.c:858-880`) -/
def lisFindmodStrtab (strtab : Option ℕ) (intr : Bool) : Option (ℤ × Registry) :=
  match strtab with
  | none => some (0,s)
  | some _ =>
      (s.downReg intr).map fun d =>
        if !d.1 then (midEintr,d.2)
        else
          let r := d.2.search (List.range' 1 (s.lisFmodcnt - 1)) fun f => f.fStr == strtab
          ((r.1.getD 0 : ℕ),r.2.upReg)

/-- `lis_findmod` (`mod.c:885-899`) -/
def lisFindmod (name : Option Name) : ℕ × Registry :=
  match name with
  | none | some [] => (0,s)
  | some name =>
      let r := s.search (List.range' 1 s.lisFmodcnt).reverse fun f => f.fName == name
      (r.1.getD 0,r.2)

/- The end of `lis_register_strmod` (`mod.c:732-753`). -/
def enter (id : ℕ) (strtab : Option ℕ) (name : Name) (newEntry : Bool) : ℤ × Registry :=
  if id = s.lisFmodcnt ∧ id = MAX_STRMOD then (0,s.upReg)
  else
    let s := if id = s.lisFmodcnt then { s with lisFmodcnt := s.lisFmodcnt + 1 } else s
    let s := s.setSlot id { s.sw id with fStr := strtab }
    (id,(s.initializeModule id name (if newEntry && strtab.isSome then LOADED else LINKED)).upReg)

/- `lis_register_strmod` under `lis_mod_reg` (`mod.c:722-753`). -/
def registerName (strtab : Option ℕ) (name : Name) : ℤ × Registry :=
  let f := s.findMod name
  let e := match f.1 with
    | some inx => (inx,f.2)
    | none => f.2.findEmptyModIndex name
  e.2.enter e.1 strtab name f.1.isNone

/-- `lis_register_strmod` (`mod.c:703-754`) -/
def lisRegisterStrmod (strtab : Option ℕ) (name : Option Name) (intr1 intr2 : Bool) : Option (ℤ × Registry) :=
  match name with
  | none => some (0,s)
  | some name =>
      (s.lisFindmodStrtab strtab intr1).bind fun r =>
        if 0 < r.1 then some r
        else (r.2.downReg intr2).map fun d => if !d.1 then (midEintr,d.2) else d.2.registerName strtab name

/-- `unregister_module` (`mod.c:775-826`) -/
def unregisterModule (id : ℕ) (intr : Bool) : Option (ℤ × Registry) :=
  let f := s.sw id
  if !f.inited then some (0,s)
  else if f.fCount ≠ 0 then some (-EBUSY,s)
  else (s.downSem id intr).map fun d =>
    if !d.1 then (-EINTR,d.2)
    else if f.fState = LINKED then (0,(d.2.upSem id).deinitializeModule id)
    else if f.fState = LOADING then (-EBUSY,d.2.upSem id)
    else if f.fState = LOADED ∨ f.fState = UNLOADED ∨ f.fState = UNKNOWN then
      (0,(d.2.setSlot id { d.2.sw id with fStr := none }).deinitializeModule id)
    else (0,d.2)

/-- `lis_unregister_strmod` (`mod.c:828-851`) -/
def lisUnregisterStrmod (strtab : Option ℕ) (intr intrSem : Bool) : Option (ℤ × Registry) :=
  (s.downReg intr).bind fun d =>
    if !d.1 then some (-EINTR,d.2)
    else
      let r := d.2.search (List.range' 1 s.lisFmodcnt).reverse fun f => f.fStr == strtab
      match r.1 with
      | none => some (-EINVAL,r.2.upReg)
      | some slot => (r.2.unregisterModule slot intrSem).map fun u => (u.1,u.2.upReg)

/- `lis_loadmod` for a slot, up to `request_module` (`mod.c:952-976`). -/
def loadSlot (id : ℕ) (intr : Bool) : Option (ℤ × Registry) :=
  (s.downSem id intr).map fun (t : Bool × Registry) =>
    let s := t.2
    let state := (s.sw id).fState
    if !t.1 then (0,s)
    else if state = LINKED ∨ state = LOADED then (id,(s.upSem id).upReg)
    else if state = UNLOADED ∨ state = UNKNOWN then
      let s := ((s.setSlot id { s.sw id with fState := LOADING }).upSem id).upReg
      (0,{ s with loads := s.loads ++ [id] })
    else if state = LOADING then (0,(s.upSem id).upReg)
    else (id,s.upReg)

/-- `lis_loadmod` up to `request_module` (`mod.c:928-976`) -/
def lisLoadmod (name : Name) (intr intrSem : Bool) : Option (ℤ × Registry) :=
  let m := s.lisFindmod (some name)
  (m.2.downReg intr).bind fun d =>
    if !d.1 then some (0,d.2)
    else
      let e := if m.1 = 0 then d.2.findEmptyModIndex name else (m.1,d.2)
      if e.1 = 0 then some (0,e.2.upReg) else e.2.loadSlot e.1 intrSem

/-- `lis_loadmod` from the end of `request_module` on (`mod.c:977-999`) -/
def loadDone (k : ℕ) (ok : Bool) : Option (ℤ × Registry) :=
  s.loads[k]?.map fun (id : ℕ) =>
    let s := { s with loads := s.loads.eraseIdx k, used := s.used ++ [id] }
    if !ok || (s.sw id).fStr.isNone then (0,s.deinitializeModule id)
    else (id,s.setSlot id { s.sw id with fState := LOADED })

/- `lis_init_mod` for a module it has registered (`mod.c:1453-1459`). -/
def initMod (i modid : ℕ) (loadable : Bool) : Registry :=
  let s := s.setSlot i { s.sw i with fState := 0 }
  s.setSlot modid { s.sw modid with fState := (s.sw modid).fState ||| if loadable then UNLOADED else LINKED }

/-- `push_mod` (`head.c:2498-2533`) -/
def pushMod (k id : ℕ) (idname : Option Name) (pushed : Pushed) : Option (ℤ × Registry) :=
  s.streams[k]?.map fun hd =>
    let s := { s with used := s.used ++ [id] }
    let stack := ⟨id,idname⟩ :: hd.stack
    match pushed with
    | .failed => (-EINVAL,s)
    | .unsynced => (-EINVAL,{ s with streams := s.streams.set k { hd with stack := stack } })
    | .done =>
        (0,{ s.setSlot id { s.sw id with fCount := (s.sw id).fCount + 1 } with
          streams := s.streams.set k ⟨stack,hd.sdPushcnt + 1⟩ })

/- A module that `lis_stropen` pushes (`head.c:5116-5120`). -/
def autopush (k id : ℕ) (idname : Option Name) (intr : Bool) (pushed : Pushed) : Option (ℤ × Registry) :=
  (s.downSem id intr).bind fun d =>
    if !d.1 then some (-EINTR,d.2)
    else (d.2.pushMod k id idname pushed).map fun r => if r.1 < 0 then r else (0,r.2.upSem id)

/-- `pop_mod` (`head.c:2538-2594`) -/
def popMod (k : ℕ) (detached : Bool) : Option (ℤ × Registry) :=
  s.streams[k]?.bind fun hd =>
    if hd.sdPushcnt = 0 then some (-EINVAL,s)
    else match hd.stack with
      | [] => none
      | mod :: below =>
          let s := { s with streams := s.streams.set k { hd with sdPushcnt := hd.sdPushcnt - 1 } }
          if mod.idname.isNone then some (-EINVAL,s)
          else
            let m := s.lisFindmod mod.idname
            let id := m.1
            let s := m.2
            let s := if 0 < id then s.setSlot id { s.sw id with fCount := (s.sw id).fCount - 1 } else s
            if detached then some (0,{ s with streams := s.streams.set k ⟨below,hd.sdPushcnt - 1⟩ })
            else some (-EINTR,s)

/- Modules are pushed from the slots that have a streamtab (`lis_modstr`). -/
def call : Act → Option (ℤ × Registry)
  | .register strtab name intr1 intr2 => s.lisRegisterStrmod strtab name intr1 intr2
  | .unregister strtab intr intrSem => s.lisUnregisterStrmod strtab intr intrSem
  | .findmod name => some ((s.lisFindmod name).1,(s.lisFindmod name).2)
  | .findmodStrtab strtab intr => s.lisFindmodStrtab strtab intr
  | .loadmod name intr intrSem => s.lisLoadmod name intr intrSem
  | .loadDone k ok => s.loadDone k ok
  | .initMod i modid loadable =>
      if i < MAX_STRMOD ∧ 0 < modid ∧ modid < s.lisFmodcnt ∧ modid < MAX_STRMOD then some (0,s.initMod i modid loadable)
      else none
  | .openStream => some (0,{ s with streams := s.streams ++ [⟨[],0⟩] })
  | .push k id idname pushed =>
      if 0 < id ∧ id < s.lisFmodcnt ∧ (s.sw id).fStr ≠ none then s.pushMod k id idname pushed else none
  | .autopush k id idname intr pushed =>
      if 0 < id ∧ id < s.lisFmodcnt ∧ (s.sw id).fStr ≠ none then s.autopush k id idname intr pushed else none
  | .pop k detached => s.popMod k detached

/- The indices used are those of the call. -/
def step (s : Registry) (x : Act) : Option Registry :=
  ({ s with used := [] }.call x).map fun (r : ℤ × Registry) => { r.2 with ret := r.1 }

end Registry

end CSLiS.Mod
