import CSLiS.Lib.Exec
import CSLiS.Queue.Message

/-!
# The ioctls of the SAD driver (drivers/str/sad.c)

An ioctl comes down when none is under way, and M_IOCDATA as the answer to the copy request that was sent last. What
`lis_apush_set` and `lis_apush_get` return is a parameter, as are the sizes of the structures and what is read at the
places of their fields. Whether a copy of the ioctl failed or was of the wrong size, how much a request is about, and
what was called and answered are only there to be spoken about.
-/

namespace CSLiS.Apush.Sad
open Queue Lib.Exec

def EACCES : BitVec 32 := 13
def EINVAL : BitVec 32 := 22

structure Abi where
  sizeofStrapush : ℕ
  sizeofStrList : ℕ
  sizeofStrMlist : ℕ
  slNmods : List Uchar → BitVec 32
  slModlist : List Uchar → ℕ

inductive IocState
  | stNone
  | stSapIn
  | stGapIn
  | stGapOut
  | stVmlIn1
  | stVmlIn2
  deriving DecidableEq, Repr

inductive IocCmd
  | sap
  | gap
  | vml
  | other
  deriving DecidableEq, Repr

/- `copyreq_t`; `cq_size` is an unsigned int. -/
structure CopyReq where
  dbType : Uchar
  cqAddr : ℕ
  cqSize : BitVec 32
  deriving DecidableEq, Repr

/- A function that is applied to what was copied in: the bytes it is about and those that there are. -/
structure Applied where
  size : ℕ
  copied : ℕ
  deriving DecidableEq, Repr

/- A final answer, and whether a copy for it went wrong. -/
structure Final where
  nak : Bool
  iocError : BitVec 32
  iocRval : BitVec 32
  wrong : Bool
  deriving DecidableEq, Repr

/-- `struct priv` (`sad.c:107-113`) -/
structure Priv where
  iocState : IocState
  uaddr : ℕ
  vmlNmods : BitVec 32
  waiting : Bool
  want : Option ℕ
  wrong : Bool
  ioctls : ℕ
  sent : List CopyReq
  applied : List Applied
  finals : List Final

/- `dat` is the block behind an M_IOCDATA, which is there when `cp_rval` is 0. -/
inductive Act
  | ioctl (cmd : IocCmd) (transparent uid0 : Bool) (uaddr : ℕ)
  | iocdata (cpRval : BitVec 64) (dat : Option (List Uchar)) (rtn : BitVec 32)

namespace Priv

variable (abi : Abi) (known : List Uchar → Bool) (p : Priv)

def init : Priv := ⟨.stNone,0,0,false,none,false,0,[],[],[]⟩

/-- `sad_copyio` (`sad.c:146-161`); the number of bytes that are wanted, for a request to copy in. -/
def sadCopyio (type : Uchar) (uaddr size : ℕ) (want : Option ℕ) : Priv :=
  { p with sent := p.sent ++ [⟨type,uaddr,BitVec.ofNat 32 size⟩], waiting := true, want := want }

/- The end of an ioctl, at `ioctl_done` and `nak_it`. -/
def reply (nak : Bool) (err ret : BitVec 32) : Priv :=
  { p with finals := p.finals ++ [⟨nak,-err,ret,p.wrong⟩], waiting := false }

def ioctlDone (err ret : BitVec 32) : Priv := p.reply (err.slt 0) err ret

def toState (st : IocState) : Priv := { p with iocState := st }

def apply (size copied : ℕ) : Priv := { p with applied := p.applied ++ [⟨size,copied⟩] }

/- The string that begins at an `l_name`. -/
def lName (l : List Uchar) : List Uchar := l.takeWhile (· ≠ 0)

/-- `lis_valid_mod_list` (`mod.c:1387-1405`); `known` are the names in the table of modules. -/
def validLoop : ℕ → List Uchar → BitVec 32
  | 0,_ => 0
  | n + 1,l => if known (lName l) then validLoop n (l.drop abi.sizeofStrMlist) else 1

def lisValidModList (nmods : BitVec 32) (l : List Uchar) : BitVec 32 :=
  if nmods.toInt ≤ 0 then -EINVAL else validLoop abi known nmods.toNat l

/-- `sad_do_ioctl` (`sad.c:278-336`) -/
def sadDoIoctl (cmd : IocCmd) (transparent uid0 : Bool) (uaddr : ℕ) : Priv :=
  if !transparent then p.reply true (-EINVAL) 0
  else if p.iocState ≠ .stNone then p.reply true (-EINVAL) 0
  else
    let p := { p with uaddr := uaddr }
    match cmd with
    | .sap =>
        if !uid0 then p.reply true (-EACCES) 0
        else (p.toState .stSapIn).sadCopyio M_COPYIN uaddr abi.sizeofStrapush (some abi.sizeofStrapush)
    | .gap => (p.toState .stGapIn).sadCopyio M_COPYIN uaddr abi.sizeofStrapush (some abi.sizeofStrapush)
    | .vml => (p.toState .stVmlIn1).sadCopyio M_COPYIN uaddr abi.sizeofStrList (some abi.sizeofStrList)
    | .other => p.reply true (-EINVAL) 0

/-- `sad_iocdata` (`sad.c:163-269`) when `cp_rval` is 0 -/
def sadCopied (bp : List Uchar) (rtn : BitVec 32) : Priv :=
  match p.iocState with
  | .stSapIn =>
      let p := p.toState .stNone
      if bp.length = abi.sizeofStrapush then (p.apply abi.sizeofStrapush bp.length).ioctlDone rtn 0
      else p.ioctlDone (-EINVAL) (-1)
  | .stGapIn =>
      let p := p.toState .stGapOut
      if bp.length = abi.sizeofStrapush then
        let p := p.apply abi.sizeofStrapush bp.length
        if rtn.slt 0 then (p.toState .stNone).ioctlDone rtn 0
        else p.sadCopyio M_COPYOUT p.uaddr abi.sizeofStrapush none
      else (p.toState .stNone).ioctlDone (-EINVAL) (-1)
  | .stGapOut => (p.toState .stNone).ioctlDone 0 0
  | .stVmlIn1 =>
      if bp.length ≠ abi.sizeofStrList then (p.toState .stNone).ioctlDone (-EINVAL) (-1)
      else
        let n := abi.slNmods bp
        let p := { p with vmlNmods := n }
        if n.toInt ≤ 0 then (p.toState .stNone).ioctlDone (-EINVAL) (-1)
        else
          let size := n.toNat * abi.sizeofStrMlist
          (p.toState .stVmlIn2).sadCopyio M_COPYIN (abi.slModlist bp) size (some size)
  | .stVmlIn2 =>
      -- an error for a block of another size is lost
      let p := p.toState .stNone
      (p.apply (p.vmlNmods.toNat * abi.sizeofStrMlist) bp.length).ioctlDone 0 (lisValidModList abi known p.vmlNmods bp)
  | .stNone => p.ioctlDone (-EINVAL) (-1)

/-- `sad_iocdata` (`sad.c:163-269`) -/
def sadIocdata (cpRval : BitVec 64) (dat : List Uchar) (rtn : BitVec 32) : Priv :=
  if cpRval ≠ 0 then p.ioctlDone ((-cpRval).setWidth 32) (-1) else p.sadCopied abi known dat rtn

/- A copy fails, or delivers another number of bytes than are wanted. -/
def goesWrong (cpRval : BitVec 64) (dat : List Uchar) : Bool := cpRval ≠ 0 || p.want.any (dat.length ≠ ·)

def step (p : Priv) : Act → Option Priv
  | .ioctl cmd transparent uid0 uaddr =>
      if p.waiting then none
      else some ({ p with wrong := false, ioctls := p.ioctls + 1 }.sadDoIoctl abi cmd transparent uid0 uaddr)
  | .iocdata cpRval dat rtn =>
      if p.waiting ∧ (cpRval = 0 → dat.isSome) then
        let bp := dat.getD []
        some ({ p with wrong := p.wrong || p.goesWrong cpRval bp }.sadIocdata abi known cpRval bp rtn)
      else none

end Priv

/- A final answer refuses the ioctl if a copy went wrong. -/
def Fair (f : Final) : Prop := f.wrong = true → f.nak = true ∧ 0 < f.iocError.toInt

/- What the driver owes its callers at any time. No ioctl waits for more than two copies, so that it is answered. -/
structure Sound (p : Priv) : Prop where
  once : p.finals.length + (if p.waiting then 1 else 0) = p.ioctls
  brief : p.sent.length ≤ 2 * p.ioctls
  fair : ∀ f ∈ p.finals, Fair f
  reset : p.waiting = false → p.iocState = .stNone
  complete : ∀ a ∈ p.applied, a.copied = a.size

/- Every copy succeeds, and the module list has the number of bytes that it should have. -/
def Copies (abi : Abi) (p : Priv) : Act → Prop
  | .ioctl .. => True
  | .iocdata cpRval dat _ =>
      cpRval = 0 ∧ (p.iocState = .stVmlIn2 → (dat.getD []).length = p.vmlNmods.toNat * abi.sizeofStrMlist)

/-! ### One step -/

/- How much the request is about that is sent in a state. -/
def wanted (abi : Abi) (p : Priv) : Option ℕ :=
  match p.iocState with
  | .stSapIn | .stGapIn => some abi.sizeofStrapush
  | .stVmlIn1 => some abi.sizeofStrList
  | .stVmlIn2 => some (p.vmlNmods.toNat * abi.sizeofStrMlist)
  | .stGapOut | .stNone => none

/- The requests that can still follow. -/
def ahead : IocState → ℕ
  | .stGapIn | .stVmlIn1 => 1
  | _ => 0

/- What holds whatever comes from above. -/
structure Inv (abi : Abi) (p : Priv) : Prop where
  once : p.finals.length + (if p.waiting then 1 else 0) = p.ioctls
  brief : p.sent.length + (if p.waiting then ahead p.iocState else 0) ≤ 2 * p.ioctls
  busy : p.waiting = true → p.iocState ≠ .stNone ∧ p.want = wanted abi p ∧ p.wrong = false

/- The part of `Sound` that the past decides. -/
def Good (p : Priv) : Prop := (∀ f ∈ p.finals, Fair f) ∧ ∀ a ∈ p.applied, a.copied = a.size

section Step
variable {abi : Abi} {known : List Uchar → Bool} {p q : Priv} {a : Act}

theorem init_inv (abi : Abi) : Inv abi Priv.init := ⟨rfl,le_refl 0,fun h => Bool.noConfusion h⟩

theorem Inv.sound_iff (hi : Inv abi p) : Sound p ↔ Good p ∧ (p.waiting = false → p.iocState = .stNone) :=
  ⟨fun h => ⟨⟨h.fair,h.complete⟩,h.reset⟩,
    fun h => ⟨hi.once,(Nat.le_add_right _ _).trans hi.brief,h.1.1,h.2,h.1.2⟩⟩

theorem good_apply {size copied : ℕ} : Good (p.apply size copied) ↔ Good p ∧ copied = size := by
  rw [Good,Good,Priv.apply,List.forall_mem_append,List.forall_mem_singleton]
  exact and_assoc.symm

/- The driver after a final answer. -/
theorem reply_sound {P : Prop} {nak : Bool} {err ret : BitVec 32} (hc : p.finals.length + 1 = p.ioctls)
    (hb : p.sent.length ≤ 2 * p.ioctls) (hg : (Good p ∧ Fair ⟨nak,-err,ret,p.wrong⟩) ∧ p.iocState = .stNone ↔ P) :
    Inv abi (p.reply nak err ret) ∧ (Sound (p.reply nak err ret) ↔ P) := by
  have hi : Inv abi (p.reply nak err ret) :=
    ⟨by simpa [Priv.reply] using hc,by simpa [Priv.reply] using hb,fun h => Bool.noConfusion h⟩
  refine ⟨hi,hi.sound_iff.trans (Iff.trans (and_congr ?_ (forall_prop_of_true rfl)) hg)⟩
  rw [Good,Good,Priv.reply,List.forall_mem_append,List.forall_mem_singleton]
  exact and_right_comm

/- The driver after another request. -/
theorem copyio_sound {P : Prop} {type : Uchar} {uaddr size : ℕ} {want : Option ℕ}
    (hc : p.finals.length + 1 = p.ioctls) (hb : p.sent.length + 1 + ahead p.iocState ≤ 2 * p.ioctls)
    (hst : p.iocState ≠ .stNone) (hw : want = wanted abi p) (hwr : p.wrong = false) (hg : Good p ↔ P) :
    Inv abi (p.sadCopyio type uaddr size want) ∧ (Sound (p.sadCopyio type uaddr size want) ↔ P) := by
  have hi : Inv abi (p.sadCopyio type uaddr size want) :=
    ⟨hc,by simpa [Priv.sadCopyio] using hb,fun _ => ⟨hst,hw,hwr⟩⟩
  exact ⟨hi,hi.sound_iff.trans ((and_iff_left fun h => Bool.noConfusion h).trans hg)⟩

theorem fair_of_right {nak : Bool} {err ret : BitVec 32} {wrong : Bool} (hw : wrong = false) :
    Fair ⟨nak,err,ret,wrong⟩ := fun h => Bool.noConfusion (hw.symm.trans h)

theorem fair_nak (wrong : Bool) (ret : BitVec 32) : Fair ⟨(-EINVAL).slt 0,- -EINVAL,ret,wrong⟩ := by
  have hn : (-EINVAL).slt 0 = true := by decide
  have hp : 0 < (- -EINVAL).toInt := by decide
  exact fun _ => ⟨hn,hp⟩

theorem ioctl_sound (hi : Inv abi p) {cmd : IocCmd} {transparent uid0 : Bool} {uaddr : ℕ}
    (hs : Priv.step abi known p (.ioctl cmd transparent uid0 uaddr) = some q) :
    Inv abi q ∧ (Sound q ↔ Sound p) := by
  rw [Priv.step] at hs
  split_ifs at hs with hwait
  obtain rfl := Option.some.inj hs
  rw [Bool.not_eq_true] at hwait
  have hc : p.finals.length + 1 = p.ioctls + 1 := by simpa [hwait] using hi.once
  have hb : p.sent.length ≤ 2 * p.ioctls := by simpa [hwait] using hi.brief
  have hidle : Sound p ↔ Good p ∧ p.iocState = .stNone :=
    hi.sound_iff.trans (and_congr_right' (forall_prop_of_true hwait))
  -- a refusal
  have hr (err : BitVec 32) {u : Priv} (hu : u.finals = p.finals ∧ u.applied = p.applied ∧ u.wrong = false ∧
      u.ioctls = p.ioctls + 1 ∧ u.sent = p.sent ∧ u.iocState = p.iocState) :
      Inv abi (u.reply true err 0) ∧ (Sound (u.reply true err 0) ↔ Sound p) := by
    obtain ⟨h1,h2,h3,h4,h5,h6⟩ := hu
    refine reply_sound (by rw [h1,h4]; exact hc) (by rw [h5,h4]; omega) ?_
    rw [hidle,h6,Good,h1,h2]
    exact and_congr_left' (and_iff_left (fair_of_right h3))
  rw [Priv.sadDoIoctl]
  by_cases ht : (!transparent) = true
  · rw [if_pos ht]
    exact hr _ ⟨rfl,rfl,rfl,rfl,rfl,rfl⟩
  rw [if_neg ht]
  by_cases hst : p.iocState = .stNone
  · rw [if_neg (not_not.mpr hst)]
    have hg : Good p ↔ Sound p := (hidle.trans (and_iff_left hst)).symm
    cases cmd with
    | sap =>
      cases uid0 with
      | false => exact hr _ ⟨rfl,rfl,rfl,rfl,rfl,rfl⟩
      | true =>
        refine copyio_sound hc ?_ (fun h => IocState.noConfusion h) rfl rfl hg
        simp only [Priv.toState,ahead]; omega
    | gap =>
      refine copyio_sound hc ?_ (fun h => IocState.noConfusion h) rfl rfl hg
      simp only [Priv.toState,ahead]; omega
    | vml =>
      refine copyio_sound hc ?_ (fun h => IocState.noConfusion h) rfl rfl hg
      simp only [Priv.toState,ahead]; omega
    | other => exact hr _ ⟨rfl,rfl,rfl,rfl,rfl,rfl⟩
  · rw [if_pos hst]
    exact hr _ ⟨rfl,rfl,rfl,rfl,rfl,rfl⟩

/- A final answer that resets the state. -/
theorem done_sound {P : Prop} {err ret : BitVec 32} (hc : p.finals.length + 1 = p.ioctls)
    (hb : p.sent.length ≤ 2 * p.ioctls) (hf : Fair ⟨err.slt 0,-err,ret,p.wrong⟩) (hst : p.iocState = .stNone)
    (hg : Good p ↔ P) : Inv abi (p.ioctlDone err ret) ∧ (Sound (p.ioctlDone err ret) ↔ P) :=
  reply_sound hc hb ((and_iff_left hst).trans ((and_iff_left hf).trans hg))

/- `sad_iocdata` when the copy succeeded -/
theorem copied_sound {bp : List Uchar} (rtn : BitVec 32) (hc : p.finals.length + 1 = p.ioctls)
    (hb : p.sent.length + ahead p.iocState ≤ 2 * p.ioctls) (hne : p.iocState ≠ .stNone)
    (hwr : p.wrong = (wanted abi p).any (bp.length ≠ ·)) :
    Inv abi (p.sadCopied abi known bp rtn) ∧ (Sound (p.sadCopied abi known bp rtn) ↔
      Good p ∧ (p.iocState = .stVmlIn2 → bp.length = p.vmlNmods.toNat * abi.sizeofStrMlist)) := by
  have hb0 : p.sent.length ≤ 2 * p.ioctls := (Nat.le_add_right _ _).trans hb
  have hright {n : ℕ} (hn : wanted abi p = some n) (hl : bp.length = n) : p.wrong = false := by
    rw [hwr,hn]; exact decide_eq_false (not_not.mpr hl)
  rw [Priv.sadCopied]
  cases hst : p.iocState with
  | stNone => exact absurd hst hne
  | stSapIn =>
    simp only [reduceCtorEq,false_implies,and_true]
    by_cases hl : bp.length = abi.sizeofStrapush
    · rw [if_pos hl]
      have hw : p.wrong = false := hright (by rw [wanted,hst]) hl
      exact done_sound hc hb0 (fair_of_right hw) rfl (good_apply.trans (and_iff_left hl))
    · rw [if_neg hl]
      exact done_sound hc hb0 (fair_nak _ _) rfl Iff.rfl
  | stGapIn =>
    simp only [reduceCtorEq,false_implies,and_true]
    by_cases hl : bp.length = abi.sizeofStrapush
    · rw [if_pos hl]
      have hw : p.wrong = false := hright (by rw [wanted,hst]) hl
      have hg : Good ((p.toState .stGapOut).apply abi.sizeofStrapush bp.length) ↔ Good p :=
        good_apply.trans (and_iff_left hl)
      by_cases hr : rtn.slt 0 = true
      · rw [if_pos hr]
        exact done_sound hc hb0 (fair_of_right hw) rfl hg
      · rw [if_neg hr]
        rw [hst] at hb
        exact copyio_sound hc hb (fun h => IocState.noConfusion h) rfl hw hg
    · rw [if_neg hl]
      exact done_sound hc hb0 (fair_nak _ _) rfl Iff.rfl
  | stGapOut =>
    simp only [reduceCtorEq,false_implies,and_true]
    have hw : p.wrong = false := by rw [hwr,wanted,hst]; rfl
    exact done_sound hc hb0 (fair_of_right hw) rfl Iff.rfl
  | stVmlIn1 =>
    simp only [reduceCtorEq,false_implies,and_true]
    by_cases hl : bp.length = abi.sizeofStrList
    · rw [if_neg (not_not.mpr hl)]
      have hw : p.wrong = false := hright (by rw [wanted,hst]) hl
      by_cases hn : (abi.slNmods bp).toInt ≤ 0
      · rw [if_pos hn]
        exact done_sound hc hb0 (fair_nak _ _) rfl Iff.rfl
      · rw [if_neg hn]
        rw [hst] at hb
        exact copyio_sound hc hb (fun h => IocState.noConfusion h) rfl hw Iff.rfl
    · rw [if_pos hl]
      exact done_sound hc hb0 (fair_nak _ _) rfl Iff.rfl
  | stVmlIn2 =>
    simp only [true_implies]
    by_cases hl : bp.length = p.vmlNmods.toNat * abi.sizeofStrMlist
    · have hw : p.wrong = false := hright (by rw [wanted,hst]) hl
      exact done_sound hc hb0 (fair_of_right hw) rfl good_apply
    · -- the list is looked through, so the driver is not right whatever it answers
      refine reply_sound hc hb0 (iff_of_false ?_ fun h => hl h.2)
      exact fun h => hl (good_apply.mp h.1.1).2

theorem iocdata_sound (hi : Inv abi p) {cpRval : BitVec 64} {dat : Option (List Uchar)} {rtn : BitVec 32}
    (hs : Priv.step abi known p (.iocdata cpRval dat rtn) = some q) :
    Inv abi q ∧ (Sound q ↔ Sound p ∧ Copies abi p (.iocdata cpRval dat rtn)) := by
  rw [Priv.step] at hs
  split_ifs at hs with hw
  obtain rfl := Option.some.inj hs
  obtain ⟨hst,hwant,hright⟩ := hi.busy hw.1
  have hc : p.finals.length + 1 = p.ioctls := by simpa [hw.1] using hi.once
  have hb : p.sent.length + ahead p.iocState ≤ 2 * p.ioctls := by simpa [hw.1] using hi.brief
  have hg : Sound p ↔ Good p := hi.sound_iff.trans (and_iff_left fun h => Bool.noConfusion (hw.1.symm.trans h))
  by_cases h0 : cpRval = 0
  · subst h0
    have hwr : (p.wrong || p.goesWrong 0 (dat.getD [])) = (wanted abi p).any ((dat.getD []).length ≠ ·) := by
      rw [hright,Bool.false_or,Priv.goesWrong,hwant]; rfl
    obtain ⟨hi',hs'⟩ :=
      @copied_sound abi known { p with wrong := p.wrong || p.goesWrong 0 (dat.getD []) } _ rtn hc hb hst hwr
    refine ⟨hi',hs'.trans ?_⟩
    rw [hg,Copies,and_iff_right rfl]
    exact Iff.rfl
  · rw [Priv.sadIocdata,if_pos h0]
    exact reply_sound hc ((Nat.le_add_right _ _).trans hb) (iff_of_false (fun h => hst h.2) fun h => h0 h.2.1)

end Step

/-! ### Runs -/

theorem step_sound {abi : Abi} {known : List Uchar → Bool} (p : Priv) (a : Act) (q : Priv) (hi : Inv abi p)
    (hs : Priv.step abi known p a = some q) : Inv abi q ∧ (Sound q ↔ Sound p ∧ Copies abi p a) := by
  cases a with
  | ioctl cmd transparent uid0 uaddr =>
    obtain ⟨hq,hsound⟩ := ioctl_sound hi hs
    exact ⟨hq,hsound.trans (and_iff_left trivial).symm⟩
  | iocdata cpRval dat rtn => exact iocdata_sound hi hs

/- Structures of one byte; the first of a list is the number of its modules. -/
def bytes : Abi := ⟨1,1,1,fun l => BitVec.ofNat 32 (l.headD 0).val,fun _ => 0⟩

end CSLiS.Apush.Sad
