import Mathlib

/-!
# Linking a stream under a multiplexor (head/head.c)

`lis_i_link` with the results of the calls that can fail: waiting for the lower queue to be idle, the link
ioctl to the driver, setting the queue sync option. Of the flags of the stream head's queue pair QNOENB is the
one that it changes, `qinfo` has the procedures of the pair.
-/

namespace CSLiS.Mux

inductive Cmd
  | link
  | plink
  deriving DecidableEq, Repr

/- The `qinit` structures of a driver, the upper ones and the lower ones, those of the read side first. -/
structure Streamtab where
  st : ℕ × ℕ
  stMux : ℕ × ℕ
  deriving DecidableEq, Repr

structure Stdata where
  qinfo : ℕ × ℕ
  qnoenb : Bool
  stplex : Bool
  sdOpencnt : ℤ
  sdLinkcnt : ℤ
  sdRefcnt : ℤ
  mxHd : Option ℕ
  mxNext : Option ℕ
  mxIndex : ℕ
  mxCmd : Cmd
  sdStrtab : Streamtab
  deriving DecidableEq, Repr

/- `stdatas` are the stream heads in the list of all of them. -/
structure Streams where
  heads : ℕ → Stdata
  stdatas : List ℕ
  muxid : ℕ

/- `while ((my_id = lis_incr(&muxid)) < 0) muxid = 0`, of a 32 bit integer. -/
def lisIncr (muxid : ℕ) : ℕ := if muxid + 1 < 2 ^ 31 then muxid + 1 else 1

/- The loop of `new_muxid`. -/
def newMuxidLoop (inUse : ℕ → Bool) : ℕ → ℕ → Option ℕ
  | 0, _ => none
  | fuel + 1, muxid =>
      let myId := lisIncr muxid
      if inUse myId then newMuxidLoop inUse fuel myId else some myId

namespace Streams

variable (s : Streams)

def upd (h : ℕ) (f : Stdata → Stdata) : Streams := { s with heads := Function.update s.heads h (f (s.heads h)) }

def headGet (h : ℕ) : Streams := s.upd h fun hd => { hd with sdRefcnt := hd.sdRefcnt + 1 }
def headPut (h : ℕ) : Streams := s.upd h fun hd => { hd with sdRefcnt := hd.sdRefcnt - 1 }

/-- `new_muxid` (`head.c:845-875`). -/
def newMuxid : Option ℕ :=
  newMuxidLoop (fun id => s.stdatas.any fun h => (s.heads h).mxIndex == id) (2 ^ 31) s.muxid

/-- `str_link_mux` (`head.c:884-895`). -/
def strLinkMux (hd muxed : ℕ) (cmd : Cmd) : Option (ℕ × Streams) :=
  let s1 := s.upd muxed fun m => { m with mxCmd := cmd }
  match s1.newMuxid with
  | none => none
  | some id =>
      let s2 := { s1 with muxid := id }.upd muxed fun m => { m with mxIndex := id }
      let s3 := s2.upd muxed fun m => { m with mxNext := (s2.heads hd).mxHd }
      some (id,s3.upd hd fun h => { h with mxHd := some muxed })

/- From `error_rtn` on. -/
def errorRtn (hd muxed : ℕ) : Streams :=
  let s1 := s.upd muxed fun m => { m with stplex := false }
  let s2 := s1.upd muxed fun m => { m with qinfo := (s1.heads hd).sdStrtab.st }
  let s3 := s2.upd hd fun h => { h with mxHd := (s2.heads muxed).mxNext }
  let s4 := s3.upd muxed fun m => { m with mxNext := none, qnoenb := true }
  (s4.headPut muxed).headPut hd

/-- `lis_i_link` (`head.c:1192-1322`) of a stream `muxed` that was found, with the results of `lis_await_qsched`,
`lis_strdoioctl` and `lis_set_q_sync`. A kernel is `old` if it is older than 6.8. -/
def lisILink (old : Bool) (hd muxed : ℕ) (cmd : Cmd) (await ioctl sync : ℤ) : Option (ℤ × Streams) :=
  match (s.headGet hd).strLinkMux hd muxed cmd with
  | none => none
  | some (index,s1) =>
      let s2 := s1.upd muxed fun m => { m with qnoenb := false }
      if await < 0 then some (await,s2.errorRtn hd muxed)
      else
        let s3 := s2.upd muxed fun m => { m with qinfo := (s2.heads hd).sdStrtab.stMux, stplex := true }
        let s4 := (s3.headGet muxed).upd muxed fun m =>
          { m with sdOpencnt := m.sdOpencnt + if old then 1 else 0, sdLinkcnt := m.sdLinkcnt + 1 }
        if ioctl < 0 then
          let s5 := s4.upd muxed fun m => { m with sdOpencnt := m.sdOpencnt - 1, sdLinkcnt := m.sdLinkcnt - 1 }
          some (ioctl,s5.errorRtn hd muxed)
        else if sync < 0 then some (sync,s4.errorRtn hd muxed)
        else
          let s5 := match (s4.heads muxed).mxCmd with
            | .plink => (s4.headGet hd).upd hd fun h =>
                { h with sdOpencnt := h.sdOpencnt + 1, sdLinkcnt := h.sdLinkcnt + 1 }
            | .link => s4
          some (index,s5)

end Streams

theorem lisIncr_eq {m : ℕ} (hm : m < 2 ^ 31) : lisIncr m = m % (2 ^ 31 - 1) + 1 := by
  rw [lisIncr]
  split_ifs with h
  · rw [Nat.mod_eq_of_lt (by omega)]
  · obtain rfl : m = 2 ^ 31 - 1 := by omega
    rfl

/- All the numbers tried are in use when the loop does not find one. -/
theorem newMuxidLoop_none {inUse : ℕ → Bool} {fuel m : ℕ} (hm : m < 2 ^ 31) (h : newMuxidLoop inUse fuel m = none) :
    ∀ j < fuel, inUse ((m + j) % (2 ^ 31 - 1) + 1) = true := by
  induction fuel generalizing m with
  | zero => exact fun j hj => absurd hj (Nat.not_lt_zero j)
  | succ fuel ih =>
    have hlt : m % (2 ^ 31 - 1) < 2 ^ 31 - 1 := Nat.mod_lt _ (by omega)
    simp only [newMuxidLoop,lisIncr_eq hm] at h
    split_ifs at h with hu
    intro j hj
    cases j with
    | zero => exact hu
    | succ j =>
      have hj' := ih (by omega) h j (by omega)
      rwa [show (m % (2 ^ 31 - 1) + 1 + j) % (2 ^ 31 - 1) = (m + (j + 1)) % (2 ^ 31 - 1) by omega] at hj'

namespace Streams

variable {s : Streams}

/-- With fewer stream heads than there are numbers, `new_muxid` finds one. -/
theorem newMuxid_isSome (hm : s.muxid < 2 ^ 31) (hl : s.stdatas.length < 2 ^ 31 - 1) : ∃ id, s.newMuxid = some id := by
  by_contra hc
  have hnone : s.newMuxid = none := by
    cases h : s.newMuxid with
    | none => rfl
    | some id => exact absurd ⟨id,h⟩ hc
  have hall := newMuxidLoop_none hm hnone
  let f := fun j => (s.muxid + j) % (2 ^ 31 - 1) + 1
  have hinj : Set.InjOn f (Finset.range (s.stdatas.length + 1)) := by
    intro j hj k hk he
    simp only [Finset.coe_range,Set.mem_Iio] at hj hk
    simp only [f] at he
    omega
  have hsub : (Finset.range (s.stdatas.length + 1)).image f ⊆ (s.stdatas.map fun k => (s.heads k).mxIndex).toFinset := by
    intro id hid
    obtain ⟨j,hj,rfl⟩ := Finset.mem_image.mp hid
    have hj' := Finset.mem_range.mp hj
    obtain ⟨k,hk,he⟩ := List.any_eq_true.mp (hall j (by omega))
    exact List.mem_toFinset.mpr (List.mem_map.mpr ⟨k,hk,beq_iff_eq.mp he⟩)
  have hcard := (Finset.card_le_card hsub).trans (List.toFinset_card_le _)
  rw [Finset.card_image_of_injOn hinj,Finset.card_range,List.length_map] at hcard
  omega

end Streams

end CSLiS.Mux
