import CSLiS.Head.Rput
import CSLiS.Head.Siglist
import CSLiS.Lib.Exec

/-!
# Signals from the stream head (head/head.c)

Processes register and are removed with I_SETSIG and when they close the stream; closing also frees the
list. The service procedures, the readers and `lis_stream_error` deliver events by `kill_procs`. Wakeups
and pollers are left out. `reg` is what each process has asked for by now, only there to be spoken about.
-/

namespace CSLiS.Head
open Queue Lib.Exec

structure SigHead where
  hd : Stdata
  mem : Kmem
  sdSiglist : ℕ
  sdSigflags : BitVec 32
  stristty : Bool
  reg : ℕ → BitVec 16
  sent : List (ℕ × Signal)
  pgrp : List ℕ
  oops : Bool

/- With `flags` other parts of the stream head change flags. Of `lis_strwsrv` it is a parameter whether
the queue below takes messages, and whether one of its bands does. -/
inductive SigAct
  | setsig (pid : ℕ) (arg : BitVec 64) (ok okHead : Bool)
  | closeDel (pid : ℕ)
  | freeElist
  | process (alloc : Msg → Bool) (mp : Msg)
  | getq (alloc : Msg → Bool)
  | checkMSig (alloc : Msg → Bool)
  | strwsrv (canput anyband : Bool)
  | streamError (rderr wrerr : ℤ)
  | flags (qFlag : Qflag) (sdFlag : SdFlag) (stristty : Bool)

def mSigAt (hd : Stdata) : Option Msg :=
  match hd.sdRq.msgs with
  | [] => none
  | mp :: _ => if mp.dbType = M_SIG then some mp else none

namespace SigHead

variable (s : SigHead)

def init (hd : Stdata) : SigHead := ⟨hd,Kmem.fresh,0,0,false,0,[],[],false⟩

/- The bits of sd_sigflags that an event can have. -/
def sigflags : BitVec 16 := s.sdSigflags.setWidth 16

/-- `kill_procs` (`head.c:2728-2769`) for `sd_siglist`. -/
def killProcs (e : BitVec 16) : SigHead :=
  match s.mem.killProcs s.sdSiglist e with
  | none => { s with oops := true }
  | some l => { s with sent := s.sent ++ l }

/-- `signalusr` (`head.c:2775-2782`). A signal number stands where the events should. -/
def signalusr (sig : ℕ) : SigHead :=
  if sig = SIGPOLL then s.killProcs (BitVec.ofNat 16 SIGPOLL)
  else if s.stristty then { s with pgrp := s.pgrp ++ [sig] }
  else s

/-- `lis_check_m_sig` (`head.c:5522-5538`). `lis_getq` hands out no message of a queue that is shut. -/
def lisCheckMSig (alloc : Msg → Bool) : SigHead :=
  match mSigAt s.hd with
  | none => s
  | some hdmp =>
      if s.hd.sdRq.core.qFlag.shut then { s with oops := true }
      else { s with hd := s.hd.lisGetq alloc }.signalusr (flushByte hdmp).val

/-- `F_ISSET(sd_sigflags,e)`, then `kill_procs` -/
def killIf (e : BitVec 16) : SigHead := if fIsset s.sigflags e then s.killProcs e else s

/-- The events of a message (`head.c:3137-3163`). -/
def dataEvents (mp : Msg) : BitVec 16 :=
  if lisHipri mp.dbType then S_HIPRI
  else S_INPUT ||| if mp.bBand = 0 then S_RDNORM else S_RDBAND

/- Whether the message is looked at for its events (`head.c:3136`). -/
def first (hd : Stdata) (mp : Msg) : Bool :=
  mp.dbType == M_PCPROTO || hd.sdRq.msgs.head?.map Msg.addr == some mp.addr

/- A stream that is closing discards what arrives (`head.c:3066-3069`). -/
def closed (hd : Stdata) : Bool := hd.sdFlag.strclose || hd.sdRq.core.qFlag.shut

/-- `lis_process_rput` (`head.c:3059-3321`). Where `sd_sigflags` is 0 nobody is signalled, whether or not
somebody polls (`head.c:3128`). -/
def lisProcessRput (so : Msg → Stroptions) (alloc : Msg → Bool) (mp : Msg) : SigHead :=
  let t := { s with hd := s.hd.processMsg so alloc mp }
  if closed s.hd then t
  else if mp.dbType = M_SIG then t.lisCheckMSig alloc
  else if queued mp.dbType then
    if first t.hd mp then
      let evs := dataEvents mp &&& s.sigflags
      if evs ≠ 0 then t.killProcs evs else t
    else t
  else if mp.dbType = M_ERROR then t.killIf S_ERROR
  else if mp.dbType = M_HANGUP then t.killIf S_HANGUP
  else if mp.dbType = M_PCSIG then t.signalusr (flushByte mp).val
  else t

/-- `lis_strwsrv` (`head.c:3537-3563`) -/
def lisStrwsrv (canput anyband : Bool) : SigHead :=
  let s := if canput then s.killIf S_OUTPUT else s
  if anyband then s.killIf S_WRBAND else s

/-- I_SETSIG (`head.c:7042-7054`) -/
def setsig (pid : ℕ) (arg : BitVec 64) (ok okHead : Bool) : SigHead :=
  if arg = 0 then
    match s.mem.lisDelFromElist s.sdSiglist pid S_ALL with
    | none => { s with oops := true }
    | some (found,mem) =>
        { s with
          mem := mem
          sdSigflags := if found && s.sdSiglist == 0 then 0 else s.sdSigflags
          reg := Function.update s.reg pid (s.reg pid &&& ~~~S_ALL) }
  else match s.mem.lisAddToElist s.sdSiglist pid (arg.setWidth 16) ok okHead with
    | none => { s with oops := true }
    | some (false,list,mem) => { s with mem := mem, sdSiglist := list }
    | some (true,list,mem) =>
        { s with
          mem := mem
          sdSiglist := list
          sdSigflags := s.sdSigflags ||| arg.setWidth 32
          reg := Function.update s.reg pid (s.reg pid ||| arg.setWidth 16) }

/-- `lis_doclose` for the process that closes (`head.c:8515`) -/
def closeDel (pid : ℕ) : SigHead :=
  match s.mem.lisDelFromElist s.sdSiglist pid S_ALL with
  | none => { s with oops := true }
  | some (_,mem) => { s with mem := mem, reg := Function.update s.reg pid (s.reg pid &&& ~~~S_ALL) }

/-- `lis_free_elist(&sd_siglist)` (`head.c:8333`, `8544`) -/
def freeElist : SigHead :=
  match s.mem.lisFreeElist s.sdSiglist with
  | none => { s with oops := true }
  | some mem => { s with mem := mem, sdSiglist := 0, reg := 0 }

def act (so : Msg → Stroptions) : SigAct → SigHead
  | .setsig pid arg ok okHead => s.setsig pid arg ok okHead
  | .closeDel pid => s.closeDel pid
  | .freeElist => s.freeElist
  | .process alloc mp => s.lisProcessRput so alloc mp
  | .getq alloc => { s with hd := s.hd.lisGetq alloc }
  | .checkMSig alloc => s.lisCheckMSig alloc
  | .strwsrv canput anyband => s.lisStrwsrv canput anyband
  | .streamError rderr wrerr =>
      { s with hd := { s.hd with sdErr := lisStreamError s.hd.sdErr rderr wrerr } }.killIf S_ERROR
  | .flags qFlag sdFlag stristty =>
      { s with
        hd := { s.hd with
          sdRq := { s.hd.sdRq with core := { s.hd.sdRq.core with qFlag := qFlag } }
          sdFlag := sdFlag }
        stristty := stristty }

/- A step that follows a wrong pointer is the last one. -/
def step (so : Msg → Stroptions) (s : SigHead) (x : SigAct) : Option SigHead :=
  if s.oops then none else some (s.act so x)

/-! ### What should be sent -/

/- The signal message at the front of the read queue, if there is one, is an event when it carries SIGPOLL. -/
def sigEvents (sig : ℕ) : List (BitVec 16) := if sig = SIGPOLL then [S_MSG] else []
def msigEvents (hd : Stdata) : List (BitVec 16) := (mSigAt hd).elim [] fun mp => sigEvents (flushByte mp).val

/-- The events that arrive at the stream head with a step. Those of one message arrive together. -/
def arrives (so : Msg → Stroptions) : SigAct → List (BitVec 16)
  | .process alloc mp =>
      let hd := s.hd.processMsg so alloc mp
      if closed s.hd then []
      else if mp.dbType = M_SIG then msigEvents hd
      else if queued mp.dbType then if first hd mp then [dataEvents mp] else []
      else if mp.dbType = M_ERROR then [S_ERROR]
      else if mp.dbType = M_HANGUP then [S_HANGUP]
      else if mp.dbType = M_PCSIG then sigEvents (flushByte mp).val
      else []
  | .checkMSig _ => msigEvents s.hd
  | .strwsrv canput anyband => (if canput then [S_OUTPUT] else []) ++ if anyband then [S_WRBAND] else []
  | .streamError _ _ => [S_ERROR]
  | _ => []

/- The process wants SIGURG for S_RDBAND. -/
def urgent (m : BitVec 16) : Bool := fIsset m S_BANDURG && fIsset m S_RDBAND

/-- The signals for events of a process that asked for those in `m`: SIGURG for S_RDBAND if it
wants that, SIGPOLL for the others. -/
def wanted (e m : BitVec 16) : List Signal :=
  (if fIsset e S_RDBAND && urgent m then [.sigurg] else []) ++
    if fIsset m (if urgent m then e &&& ~~~S_RDBAND else e) then [.sigpoll] else []

/- The signals in the list that are for the process. -/
def sentTo (p : ℕ) (l : List (ℕ × Signal)) : List Signal := (l.filter fun x => x.1 == p).map Prod.snd

/-- No pointer was followed that should not be, and every process was sent what it asked for. -/
def Exact (s t : SigHead) (es : List (BitVec 16)) : Prop :=
  t.oops = false ∧ ∃ new, t.sent = s.sent ++ new ∧ ∀ p, sentTo p new = es.flatMap fun e => wanted e (s.reg p)

/- sd_sigflags has every event that a process has asked for. -/
def Covers : Prop := ∀ p, s.reg p &&& s.sigflags = s.reg p

/-- When the delivery of events is right. For S_MSG the events are taken to be the bits of SIGPOLL; for
others a process that wants SIGURG gets it whichever of its events arrives. -/
def Safe (e : BitVec 16) : Prop :=
  if e = S_MSG then
    s.sdSiglist ≠ 0 ∧ ∀ p, fIsset (s.reg p) (BitVec.ofNat 16 SIGPOLL) = true →
      fIsset (s.reg p) S_MSG = true ∧ urgent (s.reg p) = false
  else
    (fIsset s.sigflags e = true → s.sdSiglist ≠ 0) ∧
      ∀ p, urgent (s.reg p) = true → fIsset (s.reg p) e = true → fIsset e S_RDBAND = true

/-- Each event of the step is delivered right. A reader finds no signal message on a queue that is shut. -/
def Guard (so : Msg → Stroptions) (s : SigHead) (x : SigAct) : Prop :=
  (∀ e ∈ s.arrives so x, s.Safe e) ∧
    ∀ alloc, x = .checkMSig alloc → s.hd.sdRq.core.qFlag.shut = true → mSigAt s.hd = none

end SigHead

end CSLiS.Head
