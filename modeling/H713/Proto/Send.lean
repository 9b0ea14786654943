import H713.Fifo.Code
import H713.Routine.Table

/-!
# Proto.Send

`SendComm2CPUEx` (`cpu_comm_proto.c`), which puts a 104-byte message into a call slot of the destination and waits
for the acknowledgement. It is in two parts, before and after its wait (`sendBegin`, `sendEnd`), so that other calls
can come in between. What the call finds out from outside while it runs is in `Env`; a wait for other threads is
`spin`.

An address is its low 32 bits, as the code keeps it in a `u32` here and in the modules that build on this one. What
`queueAction` does at once for a message to the CPU itself, `command_action`, is left out.
-/

namespace H713.Proto

open Function
open Bytes

structure WaitEntry where
  session : Nat
  pid : Nat

structure Socket where
  base : Nat
  sendSem : Nat → Nat
  waitList : List Nat
  listSem : Nat
  freeWait : List Nat
  releaseSem : Nat
  waits : Nat → WaitEntry

structure ShareSeq where
  base : Nat
  localCpu : Nat
  remoteCpu : Nat
  direction : Nat
  counter : Nat
  status : Nat
  seqNo : Nat
  param : Nat
  semPtr : Nat
  cmdFifo : Fifo.Fifo
  freeCall : List Nat

structure World where
  rt : Routine.Table
  sock : Nat → Socket
  shareW : Nat → Nat → ShareSeq
  cache : Nat → Nat → Nat
  calls : Nat → Buf
  callSessionId : Nat

structure Env where
  cur : Nat
  pid : Nat
  signal : Bool
  getUserFault : Bool
  reset : Bool
  resetAgain : Bool
  appReady : Bool
  copyFromFault : Option Buf
  copyToFault : Option Buf
  ack : Int

structure Args where
  msg : Buf
  target : Nat
  fromUser : Bool

structure Sent where
  ret : Int
  msg : Buf
  dispatched : Bool
  wait : Option (Nat × Nat)

def eFault : Int := -14

def eInval : Int := -22

def eRestartSys : Int := -512

def fifoDefaultCap : Nat := 21

def semDown (count : Nat) (signal : Bool) : Option Nat :=
  if 0 < count then some (count - 1)
  else if signal then some (2 ^ 32 - 1)
  else none

def semUp (count : Nat) : Nat := (count + 1) % 2 ^ 32

def World.setSock (w : World) (cpu : Nat) (s : Socket) : World :=
  { w with sock := update w.sock cpu s }

def World.setShareW (w : World) (dst dir : Nat) (q : ShareSeq) : World :=
  { w with shareW := update w.shareW dst (update (w.shareW dst) dir q) }

def World.setCache (w : World) (dst dir v : Nat) : World :=
  { w with cache := update w.cache dst (update (w.cache dst) dir v) }

def World.setCall (w : World) (a : Nat) (b : Buf) : World :=
  { w with calls := update w.calls a b }

def takeFreeWait : List Nat → Option (Nat × List Nat)
  | [] => none
  | a :: rest => if a = 0 then takeFreeWait rest else some (a, rest)

def addtoWaitComm (s : Socket) (a : Nat) (signal : Bool) : Option Socket :=
  match semDown s.listSem signal with
  | none => none
  | some n => some { s with waitList := s.waitList ++ [a], listSem := semUp n }

def findWaitBySessionId (s : Socket) (session : Nat) : Option Nat :=
  s.waitList.find? fun a => (s.waits a).session = session

def getWaitbySessionId (s : Socket) (session : Nat) (signal : Bool) : Option Socket :=
  match semDown s.listSem signal with
  | none => none
  | some n => some { s with
      waitList := s.waitList.eraseP (fun a => (s.waits a).session = session), listSem := semUp n }

def releaseWaitComm (s : Socket) (a : Nat) (signal : Bool) : Out Socket Unit :=
  match semDown s.releaseSem signal with
  | none => .spin
  | some n =>
    if s.freeWait.length ≥ fifoDefaultCap - 1 then .bug
    else .ret () { s with freeWait := s.freeWait ++ [a], releaseSem := semUp n }

inductive Slot where
  | bug
  | spin
  | got (a : Nat) (w : World)

def commGetFreeCall (w : World) (dst dir : Nat) : Slot :=
  match (w.shareW dst dir).freeCall with
  | [] => .spin
  | a :: rest =>
    if a = 0 then .bug
    else if rd (w.calls a) 4 2 > 19 then .bug
    else .got a ((w.setCall a (wr (w.calls a) 10 2 0)).setShareW dst dir
      { w.shareW dst dir with freeCall := rest })

def takeSlot (w : World) (dst dir : Nat) : Slot :=
  if Fifo.fifoIsNearlyFull (w.shareW dst dir).cmdFifo 1 then .spin
  else if w.cache dst dir ≠ 0 then .got (w.cache dst dir) w
  else
    match commGetFreeCall w dst dir with
    | .got a w => .got a (w.setCache dst dir a)
    | r => r

def msgType (target : Nat) : Nat := if target ≠ 0 then 2 else 1

def copyIn (slot msg : Buf) (target : Nat) : Buf :=
  let b := cpy slot 0 msg 0 104
  let b := wr b 4 2 (rd slot 4 2)
  wr b 10 2 (msgType target)

def routeFields (b : Buf) : Option Buf → Buf
  | none => b
  | some r =>
    let b := wr b 0 2 (rd r 0 2)
    let b := wr b 2 2 (rd r 2 2)
    let b := wr b 16 4 (rd r 2 1)
    wr b 24 4 (rd r 2 1)

def forwardFields (b : Buf) (routine : Option Buf) (session pid : Nat) : Buf :=
  wr (wr (routeFields b routine) 12 4 session) 28 4 pid

def waitFields (b : Buf) (session wait : Nat) : Buf :=
  let b := wr b 32 8 wait
  if (rd b 6 2).testBit 1 then wr (wr b 60 4 session) 64 4 wait else b

def isNotify (b : Buf) : Bool := (rd b 6 2).testBit 0 && !(rd b 6 2).testBit 1

def newSession (cur callSessionId : Nat) : Nat := (callSessionId + 1) % 2 ^ 30 + cur * 2 ^ 30

inductive Filled where
  | spin
  | ok (w : World) (slot : Buf) (session : Nat) (wait : Option Nat)

def fillForward (w : World) (e : Env) (dst : Nat) (b : Buf) (routine : Option Buf) : Filled :=
  let session := newSession e.cur w.callSessionId
  let w := { w with callSessionId := (w.callSessionId + 1) % 2 ^ 30 }
  let b := forwardFields b routine session e.pid
  if isNotify b then .ok w (wr b 32 8 0) session none
  else
    let s := w.sock dst
    match takeFreeWait s.freeWait with
    | none => .spin
    | some (a, rest) =>
      let s := { s with freeWait := rest, waits := update s.waits a ⟨session, e.pid⟩ }
      match addtoWaitComm s a e.signal with
      | none => .spin
      | some s => .ok (w.setSock dst s) (waitFields b session a) session (some a)

def fill (w : World) (e : Env) (dst dir : Nat) (b : Buf) (routine : Option Buf) : Filled :=
  if (w.shareW dst dir).direction = 0 then fillForward w e dst b routine
  else .ok w b (rd b 12 4) none

def sendCommLow (cur : Nat) (q : ShareSeq) (slot type session sem : Nat) : Bool × ShareSeq :=
  if q.remoteCpu ≠ cur then (false, q)
  else if q.direction > 1 ∨ slot ≥ fifoDefaultCap then (false, q)
  else (true, { q with
    seqNo := slot, param := session, semPtr := sem, counter := (q.counter + 1) % 2 ^ 32,
    status := if q.localCpu = q.remoteCpu then type else type ||| 4 })

def ackSem (seqBase dir : Nat) : Nat := seqBase + (if dir ≠ 0 then 1036 else 8) + 16

def dropWait (w : World) (e : Env) (dst dir : Nat) (wait : Option Nat) : Out World Unit :=
  match wait with
  | none => .ret () w
  | some a =>
    if (w.shareW dst dir).direction ≠ 0 then .ret () w
    else
      match getWaitbySessionId (w.sock dst) ((w.sock dst).waits a).session e.signal with
      | none => .spin
      | some s =>
        match releaseWaitComm s a e.signal with
        | .ret _ s => .ret () (w.setSock dst s)
        | .bug => .bug
        | .spin => .spin

def downSend (w : World) (dst dir : Nat) : World :=
  w.setSock dst { w.sock dst with
    sendSem := update (w.sock dst).sendSem dir ((w.sock dst).sendSem dir - 1) }

def upSend (w : World) (dst dir : Nat) : World :=
  w.setSock dst { w.sock dst with
    sendSem := update (w.sock dst).sendSem dir (semUp ((w.sock dst).sendSem dir)) }

def leave (w : World) (dst dir : Nat) : World := upSend (w.setCache dst dir 0) dst dir

/-- A send that waits for its acknowledgement. -/
structure Pending where
  dst : Nat
  dir : Nat
  wait : Option Nat
  session : Nat
  retAck : Bool
  msg : Buf
  sent : Bool
  sem : Nat

def dispatch (w : World) (e : Env) (dst dir slot : Nat) (b : Buf) (session : Nat) (wait : Option Nat)
    (msg : Buf) : Out World (Sent ⊕ Pending) :=
  let w := w.setCall slot (wr b 10 2 (rd b 10 2 ||| 4))
  let sem := ackSem (w.sock dst).base dir
  let (sent, q) := sendCommLow e.cur (w.shareW dst dir) (rd b 4 2) (msgType dir) session sem
  .ret (.inr ⟨dst, dir, wait, session, (rd b 6 2).testBit 1, msg, sent, sem⟩) (w.setShareW dst dir q)

inductive Resolved where
  | fail (r : Int)
  | spin
  | ok (dst : Nat) (routine : Option Buf)

def resolve (w : World) (e : Env) (a : Args) : Resolved :=
  if a.fromUser ∧ e.getUserFault then .fail eFault
  else if a.target = 0 then
    match Routine.findRoutineEx w.rt (rd a.msg 40 4) (fun _ => 0) with
    | none => .spin
    | some (r, buf) => if r ≠ 0 then .fail (-3) else .ok (rd buf 2 1) (some buf)
  else .ok (rd a.msg 2 2) none

def sendFrom (w : World) (e : Env) (a : Args) (dst : Nat) (routine : Option Buf) (slot : Nat) :
    Out World (Sent ⊕ Pending) :=
  match a.fromUser, e.copyFromFault with
  | true, some b => .ret (.inl ⟨eFault, a.msg, false, none⟩) (leave (w.setCall slot b) dst a.target)
  | _, _ =>
    let b := copyIn (w.calls slot) a.msg a.target
    if slot ≠ (w.shareW dst a.target).base + 104 * rd b 4 2 + 360 then .bug
    else
      match fill w e dst a.target b routine with
      | .spin => .spin
      | .ok w b session wait =>
        let w := w.setCall slot b
        match a.fromUser, e.copyToFault with
        | true, some m =>
          .ret (.inl ⟨eFault, m, false, wait.map fun x => (dst, x)⟩) (leave w dst a.target)
        | true, none => dispatch w e dst a.target slot b session wait (cpy a.msg 0 b 0 104)
        | false, _ => dispatch w e dst a.target slot b session wait a.msg

def sendBegin (w : World) (e : Env) (a : Args) : Out World (Sent ⊕ Pending) :=
  if a.target > 1 then .bug
  else
    match resolve w e a with
    | .spin => .spin
    | .fail r => .ret (.inl ⟨r, a.msg, false, none⟩) w
    | .ok dst routine =>
      if dst ≤ 1 ∧ e.reset then .ret (.inl ⟨eRestartSys, a.msg, false, none⟩) w
      else if dst > 1 then .ret (.inl ⟨eInval, a.msg, false, none⟩) w
      else if (w.sock dst).sendSem a.target = 0 then
        -- only a signal ends this wait
        if e.signal then .ret (.inl ⟨eRestartSys, a.msg, false, none⟩) w else .spin
      else
        let w := downSend w dst a.target
        if e.resetAgain then .ret (.inl ⟨eRestartSys, a.msg, false, none⟩) (upSend w dst a.target)
        else if ¬ e.appReady then .ret (.inl ⟨-1, a.msg, false, none⟩) (upSend w dst a.target)
        else
          match takeSlot w dst a.target with
          | .bug => .bug
          | .spin => .spin
          | .got slot w => sendFrom w e a dst routine slot

def sendEnd (w : World) (e : Env) (p : Pending) (ack : Int) : Out World Sent :=
  let wait' := p.wait.map fun a => (p.dst, a)
  if ack = 0 then .ret ⟨0, p.msg, p.sent, wait'⟩ (leave w p.dst p.dir)
  else
    let q := w.shareW p.dst p.dir
    let w := w.setShareW p.dst p.dir { q with status := q.status &&& 0xfb }
    match dropWait w e p.dst p.dir p.wait with
    | .ret _ w => .ret ⟨ack, p.msg, p.sent, wait'⟩ (leave w p.dst p.dir)
    | .bug => .bug
    | .spin => .spin

def sendRest (e : Env) : Sent ⊕ Pending → World → Out World Sent
  | .inl r, w => .ret r w
  | .inr p, w => sendEnd w e p e.ack

def sendComm2CPUEx (w : World) (e : Env) (a : Args) : Out World Sent := (sendBegin w e a).bind (sendRest e)

end H713.Proto
