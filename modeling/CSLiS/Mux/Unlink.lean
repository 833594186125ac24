import CSLiS.Lib.Exec
import CSLiS.Mux.FailedLink

/-!
# From the first link to the last unlink (head/head.c)

`lis_i_unlink` and `lis_unlink_all`, what `lis_doclose` does with the counters and the lower streams, and the ioctls
that link and unlink. What a call is told while it waits for a queue or asks the driver is an argument of the call.
The counters have no bound here, `sd_linkcnt` has 16 bits of its one. A call that runs out of fuel, or that uses a
null pointer, has no result.
-/

namespace CSLiS.Mux

def EIO : ℤ := 5
def ENXIO : ℤ := 6
def EINVAL : ℤ := 22

/- `&strmhd_rdinit` and `&strmhd_wrinit`. -/
def strmhdInit : ℕ × ℕ := (0,0)

inductive Ucmd
  | unlink
  | punlink
  deriving DecidableEq, Repr

/- The results of `lis_await_qsched` and of the ioctl to the driver, for a control stream and one of its lower
streams. -/
structure Driver where
  await : ℕ → ℕ → ℤ
  ioctl : ℕ → ℕ → ℤ

/- What `lis_strioctl` looks at before it links or unlinks: the result of `lis_lock_wioc`, STRDERR or STWRERR, STRHUP or
STRCLOSE, whether the driver has lower `qinit` structures. -/
structure Gate where
  wioc : ℤ
  err : Bool
  hup : Bool
  muxinit : Bool

/- The stream heads, the majors of their devices, and what the last call has returned. The code has no such thing as
`lowers`, the streams that were linked under a stream and not unlinked since, the last one first, `lost`, those that
are on no list any more but were not unlinked, or `files`, the number of files that are open. -/
structure Muxes where
  str : Streams
  major : ℕ → ℕ
  lowers : ℕ → List ℕ
  lost : List ℕ
  files : ℕ → ℕ
  ret : ℤ

def Driver.refuses (d : Driver) (cmd : Ucmd) (hd hp : ℕ) : Option ℤ :=
  if d.await hd hp < 0 then some (d.await hd hp)
  else if d.ioctl hd hp < 0 ∧ cmd = .unlink then some (d.ioctl hd hp)
  else none

namespace Gate

def ioctl (g : Gate) (plex : Bool) : Option ℤ :=
  if plex then some (-EINVAL) else if g.wioc < 0 then some g.wioc else none

def link (g : Gate) (plex : Bool) : Option ℤ :=
  match g.ioctl plex with
  | some err => some err
  | none =>
      if g.err then some (-EINVAL) else if g.hup then some (- ENXIO) else if g.muxinit then none else some (-EINVAL)

def unlink (g : Gate) (plex : Bool) (arg : ℤ) : Option ℤ :=
  match g.ioctl plex with
  | some err => some err
  | none => if g.hup then some (- ENXIO) else if arg < -1 then some (-EINVAL) else none

end Gate

namespace Muxes

variable (s : Muxes)

def head (h : ℕ) : Stdata := s.str.heads h
def next (h : ℕ) : Option ℕ := (s.head h).mxNext

def upd (h : ℕ) (f : Stdata → Stdata) : Muxes := { s with str := s.str.upd h f }

def headGet (h : ℕ) : Muxes := s.upd h fun hd => { hd with sdRefcnt := hd.sdRefcnt + 1 }

def free (h : ℕ) : Muxes := { s with str := { s.str with stdatas := s.str.stdatas.erase h } }

/-- `lis_head_put` (`head.c:725-758`). -/
def headPut (h : ℕ) : Muxes :=
  let s1 := s.upd h fun hd => { hd with sdRefcnt := hd.sdRefcnt - 1 }
  if (s.head h).sdRefcnt = 1 then s1.free h else s1

def decOpencnt (h : ℕ) : Muxes := s.upd h fun hd => { hd with sdOpencnt := hd.sdOpencnt - 1 }

/- As an open does. -/
def opened (h : ℕ) : Muxes := (s.upd h fun hd => { hd with sdOpencnt := hd.sdOpencnt + 1 }).headGet h

/- The lower stream is taken out of the list. -/
def delink (hd : ℕ) (prev : Option ℕ) (hp : ℕ) : Option Muxes :=
  let next := s.next hp
  let s1 :=
    if (s.head hd).mxHd = some hp then some (s.upd hd fun h => { h with mxHd := next })
    else prev.map fun p => s.upd p fun h => { h with mxNext := next }
  s1.map fun t =>
    { t.upd hp fun m => { m with mxNext := none } with
      lowers := Function.update t.lowers hd ((t.lowers hd).erase hp) }

/- It is no lower stream any more. -/
def unplex (hd hp : ℕ) : Muxes :=
  let s1 := s.upd hp fun m => { m with qinfo := strmhdInit, qnoenb := true }
  let s2 :=
    if (s1.head hp).mxCmd = .plink ∧ 0 < (s1.head hd).sdOpencnt then
      (s1.upd hd fun h => { h with sdOpencnt := h.sdOpencnt - 1, sdLinkcnt := h.sdLinkcnt - 1 }).headPut hd
    else s1
  s2.upd hp fun m => { m with sdLinkcnt := m.sdLinkcnt - 1, stplex := false }

/- The part of the loop of `lis_i_unlink` after the driver has agreed, `doclose` is `lis_doclose`. -/
def unlinkLower (doclose : ℕ → Muxes → Option Muxes) (hd hp : ℕ) (prev : Option ℕ) (rtn : ℤ) :
    Option (ℤ × Muxes) :=
  (s.delink hd prev hp).bind fun s1 =>
    let s2 := s1.unplex hd hp
    let opencnt := (s2.head hp).sdOpencnt
    let done :=
      if opencnt = 1 then (doclose hp s2).map fun t => (rtn,t)
      else if 1 < opencnt then some (rtn,(s2.decOpencnt hp).headPut hp)
      else some (- EIO,s2)
    done.map fun r => (r.1,r.2.headPut hd)

/- The lower streams that `lis_i_unlink` skips. -/
def Skipped (lIndex : ℤ) (cmd : Ucmd) (hp : ℕ) : Prop :=
  (0 ≤ lIndex ∧ ((s.head hp).mxIndex : ℤ) ≠ lIndex) ∨ (cmd = .unlink ∧ (s.head hp).mxCmd = .plink)

instance Skipped.decidable (lIndex : ℤ) (cmd : Ucmd) (hp : ℕ) : Decidable (s.Skipped lIndex cmd hp) :=
  inferInstanceAs (Decidable (_ ∨ _))

end Muxes

open Muxes

/-- The loop of `lis_i_unlink` (`head.c:936-1091`). -/
def iUnlinkLoop (doclose : ℕ → Muxes → Option Muxes) (d : Driver) (hd : ℕ) (lIndex : ℤ) (cmd : Ucmd) :
    ℕ → Option ℕ → Option ℕ → ℤ → Muxes → Option (ℤ × Muxes)
  | 0, _, _, _, _ => none
  | _ + 1, none, _, rtn, s => some (rtn,s)
  | fuel + 1, some hp, prev, rtn, s =>
      let next := s.next hp
      if s.Skipped lIndex cmd hp then iUnlinkLoop doclose d hd lIndex cmd fuel next (some hp) rtn s
      else
        match d.refuses cmd hd hp with
        | some err =>
            if lIndex < 0 then iUnlinkLoop doclose d hd lIndex cmd fuel next (some hp) err s else some (err,s)
        | none =>
            (s.unlinkLower doclose hd hp prev rtn).bind fun r =>
              if lIndex < 0 then iUnlinkLoop doclose d hd lIndex cmd fuel next prev r.1 r.2 else some r

/-- `lis_doclose` (`head.c:8419-8611`), with the lower streams that `close_action` unlinks. -/
def lisDoclose (d : Driver) : ℕ → ℕ → Muxes → Option Muxes
  | 0, _, _ => none
  | fuel + 1, head, s =>
      let s1 := if 0 < (s.head head).sdOpencnt then s.decOpencnt head else s
      let closed :=
        if (s1.head head).sdOpencnt = 0 then
          (iUnlinkLoop (lisDoclose d fuel) d head (-1) .punlink fuel (s1.head head).mxHd none 0 s1).map fun r => r.2
        else some s1
      closed.map fun t => t.headPut head

def lisIUnlink (d : Driver) (fuel hd : ℕ) (lIndex : ℤ) (cmd : Ucmd) (s : Muxes) : Option (ℤ × Muxes) :=
  iUnlinkLoop (lisDoclose d fuel) d hd lIndex cmd fuel (s.head hd).mxHd none 0 s

namespace Muxes

variable (s : Muxes)

/- A control stream of the major. -/
def IsCtl (maj hdp : ℕ) : Prop := s.major hdp = maj ∧ (s.head hdp).mxHd ≠ none

instance IsCtl.decidable (maj hdp : ℕ) : Decidable (s.IsCtl maj hdp) := inferInstanceAs (Decidable (_ ∧ _))

/- `hdp->sd_mux.mx_hd = NULL`. -/
def drop (hdp : ℕ) : Muxes :=
  { s.upd hdp fun h => { h with mxHd := none } with
    lost := s.lowers hdp ++ s.lost
    lowers := Function.update s.lowers hdp [] }

/- What `lis_unlink_all` does with a control stream. -/
def takeApart (d : Driver) (calls hdp : ℕ) : Option (ℤ × Muxes) :=
  (lisIUnlink d calls hdp (-1) .punlink (s.opened hdp)).bind fun r =>
    (lisDoclose d calls hdp (r.2.drop hdp)).map fun t => (r.1,t)

end Muxes

/- Where `lis_unlink_all` is: its result so far, the stream heads, whether it holds `lis_stdata_lock`. It is no longer
`ok` when it has taken the lock twice, has released it without holding it, or has followed `sd_next` without the lock
or from a head that is freed. -/
structure Walk where
  rtn : ℤ
  mux : Muxes
  locked : Bool
  ok : Bool

namespace Walk

variable (w : Walk)

def lock : Walk := { w with locked := true, ok := w.ok && !w.locked }
def unlock : Walk := { w with locked := false, ok := w.ok && w.locked }
def follow (hdp : ℕ) : Walk := { w with ok := w.ok && w.locked && w.mux.str.stdatas.contains hdp }

end Walk

/-- The loop of `lis_unlink_all` (`head.c:1150-1172`), from `again` on the lock is held. It starts again 100 times, then
it goes on behind the head that it has closed. What it does with a head that is freed is not said. -/
def unlinkAllLoop (d : Driver) (calls maj : ℕ) : ℕ → ℕ → List ℕ → Walk → Option Walk
  | 0, _, _, _ => none
  | _ + 1, _, [], w => some w.unlock
  | fuel + 1, again, hdp :: rest, w =>
      if ¬w.mux.IsCtl maj hdp then unlinkAllLoop d calls maj fuel again rest (w.follow hdp)
      else
        (w.mux.takeApart d calls hdp).bind fun r =>
          let w1 := { w.unlock with rtn := if r.1 < 0 then r.1 else w.rtn, mux := r.2 }
          if again < 100 then
            if r.2.str.stdatas = [] then some w1
            else unlinkAllLoop d calls maj fuel (again + 1) r.2.str.stdatas w1.lock
          else if r.2.str.stdatas.contains hdp then
            unlinkAllLoop d calls maj fuel (again + 1) (r.2.str.stdatas.dropWhile (· != hdp)).tail (w1.follow hdp)
          else some (w1.follow hdp)

/-- `lis_unlink_all` (`head.c:1132-1174`). -/
def lisUnlinkAll (d : Driver) (fuel hd : ℕ) (s : Muxes) : Option Walk :=
  if s.str.stdatas = [] then some ⟨0,s,false,true⟩
  else unlinkAllLoop d fuel (s.major hd) fuel 0 s.str.stdatas ⟨0,s,true,true⟩

namespace Muxes

variable (s : Muxes)

/- `lis_i_link`, and the head that its `lis_head_put` may free. -/
def iLink (old : Bool) (hd muxed : ℕ) (cmd : Cmd) (await ioctl sync : ℤ) : Option (ℤ × Muxes) :=
  (s.str.lisILink old hd muxed cmd await ioctl sync).map fun r =>
    let t := { s with str := r.2 }
    if 0 ≤ r.1 then (r.1,{ t with lowers := Function.update s.lowers hd (muxed :: s.lowers hd) })
    else (r.1,if (t.head muxed).sdRefcnt = 0 then t.free muxed else t)

end Muxes

inductive Op
  | stropen (h major : ℕ) (tab : Streamtab)
  | reopen (h : ℕ)
  | strclose (h : ℕ) (d : Driver)
  | link (cmd : Cmd) (hd : ℕ) (muxed : Option ℕ) (g : Gate) (await ioctl sync : ℤ)
  | unlink (cmd : Ucmd) (hd : ℕ) (arg : ℤ) (g : Gate) (d : Driver)

/- A head from `lis_alloc_stdata`, opened once. -/
def newHead (tab : Streamtab) : Stdata := ⟨strmhdInit,true,false,1,0,1,none,none,0,.link,tab⟩

/- The ioctls of a stream that is not a lower one. -/
def Muxes.strioctl (s : Muxes) (hd : ℕ) (call : Muxes → Option (ℤ × Muxes)) : Option Muxes :=
  (call (s.headGet hd)).map fun r => { r.2.headPut hd with ret := r.1 }

/- Enough fuel for every call. -/
def Muxes.enough (s : Muxes) : ℕ := (s.str.stdatas.length + 2) ^ 2

/-- A call, with the file that it is for. `arg` of an unlink is a long, `lis_i_unlink` gets an int. A call that goes
wrong on the list of the stream heads has no result. -/
def step (old : Bool) (s : Muxes) : Op → Option Muxes
  | .stropen h major tab =>
      if s.str.stdatas.contains h then none
      else some {
        str := { s.str with heads := Function.update s.str.heads h (newHead tab), stdatas := s.str.stdatas ++ [h] }
        major := Function.update s.major h major
        lowers := Function.update s.lowers h []
        lost := s.lost
        files := Function.update s.files h 1
        ret := 0 }
  | .reopen h =>
      if s.str.stdatas.contains h then
        some { s.opened h with files := Function.update s.files h (s.files h + 1), ret := 0 }
      else none
  | .strclose h d =>
      if 0 < s.files h then
        (lisDoclose d s.enough h { s with files := Function.update s.files h (s.files h - 1) }).map fun t =>
          { t with ret := 0 }
      else none
  | .link cmd hd muxed g await ioctl sync =>
      if 0 < s.files hd then
        match g.link (s.head hd).stplex,muxed with
        | some err,_ => some { s with ret := err }
        | none,none => some { s with ret := -EINVAL }
        | none,some m =>
            if 0 < s.files m then s.strioctl hd fun t => t.iLink old hd m cmd await ioctl sync else none
      else none
  | .unlink cmd hd arg g d =>
      if 0 < s.files hd then
        match g.unlink (s.head hd).stplex arg with
        | some err => some { s with ret := err }
        | none =>
            s.strioctl hd fun t =>
              if cmd = .punlink ∧ arg = -1 then
                (lisUnlinkAll d s.enough hd t).bind fun w => if w.ok then some (w.rtn,w.mux) else none
              else lisIUnlink d s.enough hd (arg.bmod (2 ^ 32)) cmd t
      else none

/- No stream is open. -/
def init : Muxes :=
  ⟨⟨fun _ => ⟨strmhdInit,true,false,0,0,0,none,none,0,.link,⟨(0,0),(0,0)⟩⟩,[],0⟩,fun _ => 0,fun _ => [],[],fun _ => 0,0⟩

end CSLiS.Mux
