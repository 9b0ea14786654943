import Mathlib.Data.UInt
import Mathlib.Logic.Function.Basic
import H713.Lib.Run

/-!
# Mmc.Code

Requests of the SD/MMC host driver with the CMD53 retry. A step is what the interrupt, the thread or the watchdog
does under the host lock, or between two holds of it. Requests carry a number, while the driver compares addresses;
a timer callback that has started outlives `timer_delete`.
-/

namespace H713.Mmc

def respTimeout : UInt32 := 0x100
def commandDone : UInt32 := 0x4
def fifoRunError : UInt32 := 0x800
def hardWareLocked : UInt32 := 0x1000
def errorBit : UInt32 := 0xbbc2
def doneBit : UInt32 := 0x440c
def receiveInterrupt : UInt32 := 0x2

def isFifoErr (rint : UInt32) : Bool := rint &&& (fifoRunError ||| hardWareLocked) ≠ 0

def phaseRetries : Nat := 7
def fifoRetries : Nat := 15

def retryLimit (fifo : Bool) : Nat := if fifo then fifoRetries else phaseRetries

def phaseTable : List (Nat × Nat × Nat) :=
  [(1, 1, 0), (1, 0, 1), (1, 2, 1), (1, 3, 1), (1, 0, 0), (1, 2, 0), (1, 3, 0)]

def ioRwExtended : Nat := 53
def switchVoltage : Nat := 11

structure Mrq where
  id : Nat
  addr : Nat
  opcode : Nat
  data : Bool
  write : Bool
deriving DecidableEq

structure Host where
  mrq : Option Mrq
  dmaRetryMrq : Option Mrq
  manualStopMrq : Option Mrq
  retryTimerMrq : Option Mrq
  intSum : UInt32
  errorRint : UInt32
  waitDma : Bool
  retryCnt : Nat
  fifoRetryCnt : Nat
  timer : Bool
  phase : Option (Nat × Nat × Nat)

inductive Thread where
  | idle
  | retry (m : Mrq) (fifo : Bool) (idx : Nat)
  | reissue (m : Mrq) (fifo : Bool)
  | stop (m : Mrq)
deriving DecidableEq

structure Log where
  issued : Nat
  completed : List Nat
  maps : Nat → Nat
  unmaps : Nat → Nat
  phaseReissues : Nat → Nat
  fifoReissues : Nat → Nat

structure Sys where
  host : Host
  thread : Thread
  wake : Bool
  callbacks : Nat
  doing : List Mrq
  outstanding : Option Mrq
  log : Log

def bump (f : Nat → Nat) (id : Nat) : Nat → Nat := Function.update f id (f id + 1)

def Log.map (l : Log) (id : Nat) : Log := { l with maps := bump l.maps id }

def Log.unmap (l : Log) (id : Nat) : Log := { l with unmaps := bump l.unmaps id }

def Log.reissue (l : Log) (id : Nat) (fifo : Bool) : Log :=
  if fifo then { l with fifoReissues := bump l.fifoReissues id }
  else { l with phaseReissues := bump l.phaseReissues id }

def PointsTo (p : Option Mrq) (m : Mrq) : Prop := p.map Mrq.addr = some m.addr
deriving Decidable

namespace Host

def retryUsed (h : Host) (fifo : Bool) : Nat := if fifo then h.fifoRetryCnt else h.retryCnt

def clearCounters (h : Host) : Host := { h with retryCnt := 0, fifoRetryCnt := 0 }

def dropTimer (h : Host) (m : Mrq) : Host :=
  if PointsTo h.retryTimerMrq m then { h with timer := false, retryTimerMrq := none } else h

end Host

namespace Sys

def handBack (s : Sys) (m : Mrq) : Sys := { s with doing := s.doing ++ [m] }

def finalizeRequest (s : Sys) (m : Mrq) : Sys :=
  let err := s.host.intSum &&& errorBit
  let fifo := isFifoErr err
  let used := s.host.retryUsed fifo
  let h := s.host.dropTimer m
  let retry := err ≠ 0 ∧ m.data ∧ m.opcode = ioRwExtended ∧ used < retryLimit fifo
  let h := if retry then { h with errorRint := err, dmaRetryMrq := some m }
    else if err ≠ 0 ∧ m.data then { h with manualStopMrq := some m }
    else h
  -- a retry has been unmapped already
  let log := if retry ∨ (m.data ∧ h.dmaRetryMrq = none) then s.log.unmap m.id else s.log
  let h := { h with mrq := none, intSum := 0, waitDma := false }
  if h.dmaRetryMrq = none ∧ h.manualStopMrq = none then
    { s with host := h.clearCounters, log := log }.handBack m
  else { s with host := h, log := log, wake := true }

def collect (s : Sys) (mskInt idmaInt : UInt32) : Sys :=
  { s with host := { s.host with
    waitDma := s.host.waitDma && idmaInt &&& receiveInterrupt = 0
    intSum := s.host.intSum ||| mskInt } }

def irq (s : Sys) (mskInt idmaInt : UInt32) : Sys :=
  match s.host.mrq with
  | none => s
  | some m =>
    let t := s.collect mskInt idmaInt
    -- after a response timeout the end of the command is waited for
    if t.host.intSum &&& respTimeout ≠ 0 ∧ t.host.intSum &&& commandDone = 0 then t
    else if t.host.intSum &&& errorBit ≠ 0 then t.finalizeRequest m
    else if t.host.intSum &&& doneBit ≠ 0 ∧ ¬ t.host.waitDma then t.finalizeRequest m
    else t

def retryTimeout (s : Sys) : Sys :=
  match s.host.mrq with
  | none => s
  | some m =>
    if ¬ PointsTo s.host.retryTimerMrq m then s
    else
      let h := { s.host with
        mrq := none, retryTimerMrq := none, dmaRetryMrq := none, manualStopMrq := none
        intSum := 0, waitDma := false }
      { s with host := h.clearCounters }.handBack m

def threadStart (s : Sys) : Sys :=
  match s.host.dmaRetryMrq with
  | some m =>
    let fifo := isFifoErr s.host.errorRint
    let h := if fifo then { s.host with fifoRetryCnt := s.host.fifoRetryCnt + 1 }
      else { s.host with retryCnt := s.host.retryCnt + 1 }
    { s with
      host := { h with dmaRetryMrq := none }
      thread := .retry m fifo (s.host.retryUsed fifo) }
  | none =>
    match s.host.manualStopMrq with
    | none => s
    | some m => { s with thread := .stop m }

structure RetryEnv where
  clk : Bool
  oclk : Bool
  map : Bool

def threadFail (s : Sys) (m : Mrq) : Sys :=
  { s with host := s.host.clearCounters, thread := .idle }.handBack m

def threadRetry (s : Sys) (m : Mrq) (fifo : Bool) (idx : Nat) (env : RetryEnv) : Out Sys Unit :=
  if idx ≥ retryLimit fifo then .ret () (s.threadFail m)
  else if ¬ env.clk then .ret () (s.threadFail m)
  else if ¬ env.oclk then .ret () (s.threadFail m)
  else
    let mapped (s : Sys) : Sys :=
      if ¬ env.map then s.threadFail m
      else { s with log := s.log.map m.id, thread := .reissue m fifo }
    if fifo then .ret () (mapped s)
    else
      match phaseTable[idx]? with
      | none => .bug
      | some row => .ret () (mapped { s with host := { s.host with phase := some row } })

def threadReissue (s : Sys) (m : Mrq) (fifo : Bool) : Sys :=
  { s with
    host := { s.host with
      mrq := some m, intSum := 0, waitDma := !m.write, retryTimerMrq := some m, timer := true }
    thread := .idle
    log := s.log.reissue m.id fifo }

def threadStop (s : Sys) (m : Mrq) : Sys :=
  { s with host := { s.host with manualStopMrq := none }, thread := .idle }.handBack m

structure Start where
  addr : Nat
  opcode : Nat
  data : Bool
  write : Bool
  ferror : Bool
  map : Bool
  oclk : Bool

def request (s : Sys) (r : Start) : Sys :=
  let m : Mrq := ⟨s.log.issued, r.addr, r.opcode, r.data, r.write⟩
  let s := { s with outstanding := some m, log := { s.log with issued := s.log.issued + 1 } }
  if r.ferror then s.handBack m
  else if r.data ∧ ¬ r.map then s.handBack m
  else
    let unmapped := s.handBack m
    let s := if r.data then { s with log := s.log.map m.id } else s
    if r.opcode = switchVoltage ∧ ¬ r.oclk ∨ s.host.mrq.isSome ∨ s.host.manualStopMrq.isSome then
      { unmapped with log := if r.data then s.log.unmap m.id else s.log }
    else { s with host := { s.host with mrq := some m, waitDma := r.data && !r.write } }

end Sys

inductive Op where
  | request (r : Sys.Start)
  | irq (mskInt idmaInt : UInt32)
  | expire
  | timeout
  | thread (env : Sys.RetryEnv)
  | done (m : Mrq)

def step (s : Sys) : Op → Out Sys Unit
  | .request r => .ret () (s.request r)
  | .irq mskInt idmaInt => .ret () (s.irq mskInt idmaInt)
  | .expire => .ret () { s with host := { s.host with timer := false }, callbacks := s.callbacks + 1 }
  | .timeout => .ret () { s.retryTimeout with callbacks := s.callbacks - 1 }
  | .thread env =>
    match s.thread with
    | .idle => .ret () { s with wake := false }.threadStart
    | .retry m fifo idx => s.threadRetry m fifo idx env
    | .reissue m fifo => .ret () (s.threadReissue m fifo)
    | .stop m => .ret () (s.threadStop m)
  | .done m =>
    .ret () { s with
      doing := s.doing.erase m
      outstanding := none
      log := { s.log with completed := s.log.completed ++ [m.id] } }

/-- The core has one request outstanding, the timer expires when it is pending, the thread runs when woken. -/
def Possible (s : Sys) : Op → Prop
  | .request _ => s.outstanding = none
  | .irq _ _ => True
  | .expire => s.host.timer
  | .timeout => 0 < s.callbacks
  | .thread _ => s.thread ≠ .idle ∨ s.wake
  | .done m => m ∈ s.doing

instance (s : Sys) : DecidablePred (Possible s) := fun o => by
  cases o <;> unfold Possible <;> infer_instance

def Sys.init : Sys where
  host := ⟨none, none, none, none, 0, 0, false, 0, 0, false, none⟩
  thread := .idle
  wake := false
  callbacks := 0
  doing := []
  outstanding := none
  log := ⟨0, [], fun _ => 0, fun _ => 0, fun _ => 0, fun _ => 0⟩

end H713.Mmc
