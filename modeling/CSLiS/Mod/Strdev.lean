import CSLiS.Lib.Exec

/-!
# Registration of drivers (head/mod.c, head/head.c)

A driver enters its streamtab in the slot of its major in `lis_fstr_sw`, and LiS registers the major with the kernel. An
open reads the slot, and again that of the device that a clone open has chosen.
-/

namespace CSLiS.Mod.Strdev
open Lib.Exec

def MAX_STRDEV : ℕ := 1024
def LIS_NAMESZ : ℕ := 64
def LIS_QLOCK_QUEUE : ℤ := 1

def EIO : ℤ := 5
def ENXIO : ℤ := 6
def EBUSY : ℤ := 16
def ENODEV : ℤ := 19
def EINVAL : ℤ := 22

/- An entry of `lis_fstr_sw`; `fStr` is the streamtab. -/
structure Slot where
  fStr : Option ℕ
  fCount : ℕ
  fFlags : ℕ
  fName : List Char
  fQlockOption : ℤ

/- A stream head with the major of `sd_dev`; `attached` when `lis_stropen` is done with it. -/
structure Hd where
  major : ℕ
  sdStrtab : Option ℕ
  opencnt : ℕ
  attached : Bool
  deriving DecidableEq, Repr

/- `chrdev` has the majors that the kernel holds for LiS, `unregs` the majors of the `lis_unregister_strdev` calls that
wait for `lis_mod_reg`; `outside` is set by an index that is not below MAX_STRDEV. -/
structure Registry where
  slots : ℕ → Slot
  chrdev : ℕ → Bool
  hds : List Hd
  unregs : List ℕ
  outside : Bool

namespace Registry

def index (s : Registry) (major : ℕ) : Registry := { s with outside := s.outside || decide (MAX_STRDEV ≤ major) }

def setSlot (s : Registry) (major : ℕ) (f : Slot) : Registry := { s with slots := Function.update s.slots major f }

/-- LIS_DEVOK, LIS_DEV_IS_CLONE (`sys/LiS/mod.h:236-243`) -/
def devOk (s : Registry) (major : ℕ) : Bool := (s.slots major).fStr.isSome
def devIsClone (s : Registry) (major : ℕ) : Bool := s.devOk major && (s.slots major).fFlags.testBit 0
def devIsFifo (s : Registry) (major : ℕ) : Bool := s.devOk major && (s.slots major).fFlags.testBit 1

/- What `__register_chrdev` may return: a major is given once, and one that is free for 0. -/
def Chrdev (s : Registry) (major : ℕ) (rslt : ℤ) : Prop :=
  rslt < 0 ∨ (major ≠ 0 ∧ rslt = 0 ∧ s.chrdev major = false) ∨
    (major = 0 ∧ 0 < rslt ∧ s.chrdev rslt.toNat = false)

instance (s : Registry) (major : ℕ) (rslt : ℤ) : Decidable (s.Chrdev major rslt) :=
  inferInstanceAs (Decidable (_ ∨ _))

/- The major that the driver has got. -/
def given (major : ℕ) (rslt : ℤ) : ℕ := if major = 0 then rslt.toNat else major

/-- `mod.c:1068-1125`; `down` is what `lis_down` returns. -/
def lisRegisterStrdev (s : Registry) (major : ℕ) (strtab : Option ℕ) (name : Option (List Char)) (down rslt : ℤ) :
    ℤ × Registry :=
  match strtab with
  | none => (- EINVAL,s)
  | some tab =>
      if down < 0 then (down,s)
      else if rslt < 0 then (- EIO,s)
      else
        let maj := given major rslt
        let t := index { s with chrdev := Function.update s.chrdev maj true } maj
        if (s.slots maj).fStr ≠ some tab ∧ (s.slots maj).fStr ≠ none then (- EBUSY,t)
        else (maj,t.setSlot maj { s.slots maj with
          fStr := some tab
          fCount := 0
          fQlockOption := LIS_QLOCK_QUEUE
          fName := (name.getD []).take LIS_NAMESZ })

/-- `mod.c:1127-1144` -/
def lisRegisterDriverQlockOption (s : Registry) (major : ℕ) (option down : ℤ) : ℤ × Registry :=
  if down < 0 then (down,s)
  else (0,(s.index major).setSlot major { s.slots major with fQlockOption := option })

/-- `mod.c:1149-1169`: the tests before the lock is taken, 0 when the call goes on. -/
def unregisterTests (s : Registry) (major : ℕ) : ℤ :=
  if MAX_STRDEV ≤ major ∨ s.devOk major = false then - ENODEV
  else if (s.slots major).fCount ≠ 0 then - EBUSY
  else 0

/-- `mod.c:1171-1203` -/
def lisUnregisterStrdev (s : Registry) (major : ℕ) (down : ℤ) : ℤ × Registry :=
  if down < 0 then (down,s)
  else
    let t := (s.index major).setSlot major { s.slots major with fStr := none }
    (0,{ t with chrdev := Function.update t.chrdev major false })

/-- `head.c:1707-1728`, `4661-4949`: a new stream up to `lis_qattach`. -/
def openNew (s : Registry) (major minor : ℕ) : Registry :=
  let t := s.index major
  if s.devOk major = false then t
  else
    let u := if !s.devIsFifo major && s.devIsClone major then t.index minor else t
    { u with hds := s.hds ++ [⟨major,(s.slots major).fStr,0,false⟩] }

/- `open` comes from the kernel for the minors below 1024 of a major that LiS has registered. `attached` is what follows
`lis_qattach` (`4951-5165`), with the major of the device that a clone open has chosen; `openFailed` is its failure or
that of a step before the stream gets another device. -/
inductive Act where
  | register (major : ℕ) (strtab : Option ℕ) (name : Option (List Char)) (down rslt : ℤ)
  | qlock (major : ℕ) (option down : ℤ)
  | unregTests (major : ℕ)
  | unreg (i : ℕ) (down : ℤ)
  | openNew (major minor : ℕ)
  | attached (i : ℕ) (ndev : Option ℕ) (ok : Bool)
  | openFailed (i : ℕ)
  | reopen (i : ℕ)
  | close (i : ℕ)
  deriving DecidableEq, Repr

def step (s : Registry) : Act → Option Registry
  | .register major strtab name down rslt =>
      if s.Chrdev major rslt then some (s.lisRegisterStrdev major strtab name down rslt).2 else none
  | .qlock major option down => some (s.lisRegisterDriverQlockOption major option down).2
  | .unregTests major => some (if s.unregisterTests major = 0 then { s with unregs := s.unregs ++ [major] } else s)
  | .unreg i down =>
      match s.unregs[i]? with
      | none => none
      | some major => some { (s.lisUnregisterStrdev major down).2 with unregs := s.unregs.eraseIdx i }
  | .openNew major minor => if s.chrdev major = true ∧ minor < 1024 then some (s.openNew major minor) else none
  | .attached i ndev ok =>
      match s.hds[i]? with
      | none => none
      | some hd =>
          if hd.attached then none
          else
            let major := ndev.getD hd.major
            let t := s.index major
            let strtab := if ndev.isSome then (s.slots major).fStr else hd.sdStrtab
            if ok then some { t with hds := s.hds.set i ⟨major,strtab,hd.opencnt + 1,true⟩ }
            else some { t with hds := s.hds.eraseIdx i }
  | .openFailed i =>
      match s.hds[i]? with
      | none => none
      | some hd => if hd.attached then none else some { s with hds := s.hds.eraseIdx i }
  | .reopen i =>
      match s.hds[i]? with
      | none => none
      | some hd =>
          if hd.opencnt = 0 then none
          else
            let t := s.index hd.major
            if s.devOk hd.major = false then some t
            else some { t with hds := s.hds.set i { hd with opencnt := hd.opencnt + 1 } }
  | .close i =>
      match s.hds[i]? with
      | none => none
      | some hd =>
          if hd.opencnt = 0 then none
          else
            let t := s.index hd.major
            if s.devOk hd.major = false then some t
            else if hd.opencnt = 1 then some { t with hds := s.hds.eraseIdx i }
            else some { t with hds := s.hds.set i { hd with opencnt := hd.opencnt - 1 } }

/- What a step of the registry is to be. -/
structure Guarded (s : Registry) (a : Act) (t : Registry) : Prop where
  indexes : t.outside = false
  slots : ∀ m, (t.slots m).fStr.isSome = true ↔ t.chrdev m = true
  failed : ∀ major strtab name down rslt, a = .register major strtab name down rslt →
    (s.lisRegisterStrdev major strtab name down rslt).1 < 0 → t.slots = s.slots ∧ t.chrdev = s.chrdev
  closed : ∀ i down major, a = .unreg i down → s.unregs[i]? = some major → (s.lisUnregisterStrdev major down).1 = 0 →
    ∀ hd ∈ s.hds, hd.major = major → hd.opencnt = 0

/- What the callers have to see to. -/
def Allowed (s : Registry) : Act → Prop
  | .register major strtab _ down rslt => strtab ≠ none → 0 ≤ down → 0 ≤ rslt → given major rslt < MAX_STRDEV
  | .qlock major _ down => 0 ≤ down → major < MAX_STRDEV
  | .attached _ ndev _ => ∀ m ∈ ndev, m < MAX_STRDEV
  | .unreg i down => 0 ≤ down → ∀ major ∈ s.unregs[i]?, ∀ hd ∈ s.hds, hd.major = major → hd.opencnt = 0
  | _ => True

instance (s : Registry) : ∀ a, Decidable (Allowed s a)
  | .register major strtab _ down rslt =>
      inferInstanceAs (Decidable (strtab ≠ none → 0 ≤ down → 0 ≤ rslt → given major rslt < MAX_STRDEV))
  | .qlock major _ down => inferInstanceAs (Decidable (0 ≤ down → major < MAX_STRDEV))
  | .attached _ ndev _ => inferInstanceAs (Decidable (∀ m ∈ ndev, m < MAX_STRDEV))
  | .unreg i down => inferInstanceAs
      (Decidable (0 ≤ down → ∀ major ∈ s.unregs[i]?, ∀ hd ∈ s.hds, hd.major = major → hd.opencnt = 0))
  | .unregTests _ | .openNew _ _ | .openFailed _ | .reopen _ | .close _ => .isTrue trivial

/- The empty table, with what the drivers set in `f_flags`. -/
def start (fFlags : ℕ → ℕ) : Registry := ⟨fun m => ⟨none,0,fFlags m,[],0⟩,fun _ => false,[],[],false⟩

end Registry

end CSLiS.Mod.Strdev
