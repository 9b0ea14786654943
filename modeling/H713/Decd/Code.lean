import H713.Lib.RefCount
import H713.Lib.Run
import Mathlib.Algebra.GroupWithZero.Nat
import Mathlib.Data.Fin.VecNotation

/-!
# Decd.Code

The frame manager of `decd_frame.c`. Pointers are `NULL`, the value 1 that `dec_frame_queue_resume` stores as a
flag, or a frame. Using a pointer to a frame that has been freed, or to none, is `bug`; taking a spinlock that the
same path holds is `spin`. What goes to the hardware is left out, the frames it reads from are not.
-/

namespace H713.Decd

open RefCount

inductive Ptr where
  | null
  | one
  | frame (k : Nat)
deriving DecidableEq

/-- `struct dec_frame_item`, as far as the frame manager reads it. -/
structure Item where
  altYValid : Bool

structure VideoFrame where
  seqnum : UInt32
  payload : Option Item
  release : Bool

structure Kfifo where
  size : Nat
  items : List Ptr

namespace Kfifo

def push (f : Kfifo) (p : Ptr) : Kfifo :=
  if f.items.length < f.size then { f with items := f.items ++ [p] } else f

end Kfifo

instance slotsNeZero : NeZero 4 := ⟨by decide⟩

structure DecFrameQueue where
  dirty : UInt32
  interlace : UInt32
  toggle : UInt32
  fieldPattern : UInt32
  repeatCurrent : UInt32
  repeatBudget : UInt32
  slots : Fin 4 → Ptr
  interlaceHold : Ptr
  interlaceTop : Ptr
  interlaceBottom : Ptr
  releaseFifo : Kfifo
  shutdownHold : Ptr
  lastReleased : Ptr
  repeatMode : UInt32
  repeatPending : UInt32
  hwRepeat : UInt32
  hwRepeatPrev : UInt32
  hwRepeatReq : UInt32
  shutdownCounter : UInt32
  softRepeatCount : UInt32

structure DecFrameManager where
  seqno : UInt32
  state : UInt32
  request : UInt32
  type : UInt32
  readyList : List Nat
  readyCount : UInt32
  forceInterlace : UInt32
  irqCount : UInt64
  refreshScheduled : Bool
  recycleFifo : Kfifo
  interlacePair0 : Ptr
  interlacePair1 : Ptr

structure Dev where
  heap : Heap VideoFrame
  q : DecFrameQueue
  m : DecFrameManager
  lastFrame : Ptr
  queueLock : Bool
  readyLock : Bool
  work : Bool
  released : List (Nat × List Ptr)

def Dev.refs (d : Dev) : List Ptr :=
  d.m.readyList.map .frame ++ [d.q.slots 0, d.q.slots 1, d.q.slots 2, d.q.slots 3, d.q.lastReleased] ++
    d.q.releaseFifo.items ++ [d.lastFrame]

def M (α : Type) : Type := Dev → Out Dev α

instance : Monad M where
  pure a := fun d => .ret a d
  bind x f := fun d => (x d).bind f

namespace M

def get : M Dev := fun d => .ret d d

def modify (f : Dev → Dev) : M Unit := fun d => .ret () (f d)

def modifyQ (f : DecFrameQueue → DecFrameQueue) : M Unit := modify fun d => { d with q := f d.q }

def modifyM (f : DecFrameManager → DecFrameManager) : M Unit := modify fun d => { d with m := f d.m }

end M

open M

def lockQueue : M Unit := fun d => if d.queueLock then .spin else .ret () { d with queueLock := true }

def unlockQueue : M Unit := modify fun d => { d with queueLock := false }

def lockReady : M Unit := fun d => if d.readyLock then .spin else .ret () { d with readyLock := true }

def unlockReady : M Unit := modify fun d => { d with readyLock := false }

def touch (ks : List Nat) : M Unit := fun d => if ∀ k ∈ ks, d.heap.Live k then .ret () d else .bug

def Ptr.frame? : Ptr → Option Nat
  | frame k => some k
  | _ => none

def deref (p : Ptr) : M VideoFrame := fun d =>
  match p.frame?.bind d.heap.obj? with
  | some vf => .ret vf d
  | none => .bug

def refcountInc (p : Ptr) : M Unit := fun d =>
  match p.frame?.bind d.heap.inc with
  | some heap => .ret () { d with heap := heap }
  | none => .bug

def decCreateVideoFrame (alloc : Bool) : M Ptr := fun d =>
  let heap := if alloc then d.heap.alloc ⟨d.m.seqno, none, false⟩ else d.heap
  .ret (if alloc then .frame d.heap.next else .null) { d with heap := heap, m.seqno := d.m.seqno + 1 }

def setPayload (k : Nat) (payload : Item) : M Unit :=
  modify fun d => { d with heap := d.heap.modify k fun vf => { vf with payload := some payload, release := true } }

def logRelease (d : Dev) (k : Nat) (vf : VideoFrame) : List (Nat × List Ptr) :=
  if vf.release then d.released ++ [(k, d.refs)] else d.released

def videoFramePut (p : Ptr) : M Unit := fun d =>
  match p with
  | .null => .ret () d
  | .one => .bug
  | .frame k =>
    match d.heap.put k with
    | none => .bug
    | some (heap, none) => .ret () { d with heap := heap }
    | some (heap, some vf) => .ret () { d with heap := heap, released := logRelease d k vf }

def deferRelease (q : DecFrameQueue) (vf : Ptr) : DecFrameQueue :=
  { q with
    releaseFifo := if q.lastReleased ≠ .null then q.releaseFifo.push q.lastReleased else q.releaseFifo
    lastReleased := vf }

def decFrameDeferRelease (vf : Ptr) : M Unit := modifyQ fun q => deferRelease q vf

def decFrameQueueEnqueue (vf : Ptr) : M Int := do
  let d ← get
  if vf = .null then return -22
  else if d.q.dirty ≠ 0 then return 1
  else
    decFrameDeferRelease (d.q.slots 3)
    modifyQ fun q => { q with slots := fun _ => vf }
    refcountInc vf
    modifyQ fun q => { q with softRepeatCount := 0, dirty := 1 }
    return 0

def popReady : M Ptr := do
  let d ← get
  if d.m.type = 1 ∧ d.m.interlacePair1 ≠ .null then
    let vf := if d.q.softRepeatCount &&& 1 = 0 then d.m.interlacePair0 else d.m.interlacePair1
    refcountInc vf
    modifyQ fun q => { q with softRepeatCount := q.softRepeatCount + 1 }
    return vf
  else
    match d.m.readyList with
    | [] => return .null
    | k :: rest =>
      -- `list_del_init` writes the node and the one behind it
      touch (k :: rest.take 1)
      modifyM fun m => { m with readyList := rest, readyCount := m.readyCount - 1 }
      return .frame k

def decFramePop : M Ptr := do
  lockReady
  let vf ← popReady
  unlockReady
  return vf

def recycleAll : List Ptr → M Unit
  | [] => pure ()
  | vf :: rest => do
    modifyM fun m => { m with recycleFifo.items := rest }
    if vf ≠ .null then
      lockQueue
      modifyQ fun q => { q with releaseFifo := q.releaseFifo.push vf }
      unlockQueue
    recycleAll rest

def queueWork : M Unit := modify fun d => { d with work := true }

def decFrameRecycle : M Unit := do
  let d ← get
  recycleAll d.m.recycleFifo.items
  queueWork

def decFrameQueueHardwareRepeatCtrl (q : DecFrameQueue) (enable : UInt32) : Bool × DecFrameQueue :=
  if q.hwRepeat = enable then (false, q)
  else
    (true, { q with
      hwRepeat := enable
      hwRepeatPrev := if enable ≠ 0 then 0 else q.hwRepeatPrev
      hwRepeatReq := enable })

def decFrameQueueRepeat : M Unit := do
  let d ← get
  if d.q.interlace ≠ 0 then
    modifyQ fun q => { q with softRepeatCount := q.softRepeatCount + 1 }
    if d.q.toggle ≠ 0 then
      modifyQ fun q =>
        let r := decFrameQueueHardwareRepeatCtrl { q with toggle := 1 } 1
        if r.1 then { r.2 with dirty := 1 } else r.2
    else
      decFrameDeferRelease (d.q.slots 3)
      if d.q.slots 0 ≠ .null then refcountInc (d.q.slots 0)
      modifyQ fun q => { q with
        toggle := 1
        dirty := 1
        slots := ![q.interlaceHold, q.slots 1, q.slots 1, q.slots 2]
        fieldPattern := 2 * q.fieldPattern ||| 1 }
  else
    decFrameDeferRelease (d.q.slots 3)
    modifyQ fun q => { q with slots := ![q.slots 0, q.slots 1, q.slots 1, q.slots 2] }
    if d.q.slots 0 ≠ .null then refcountInc (d.q.slots 0)
    modifyQ fun q => { q with dirty := 1, softRepeatCount := q.softRepeatCount + 1 }

def decIsInterlaceFrame (payload : Option Item) : Bool := payload.any (·.altYValid)

def decFrameManagerSetStreamType (type : UInt32) : M Unit := do
  lockReady
  modifyM fun m => { m with type := type }
  unlockReady

def resumeWith (vf : Ptr) : M Unit := do
  modifyQ fun q => { q with slots := fun _ => vf }
  refcountInc vf
  let frame ← deref vf
  if decIsInterlaceFrame frame.payload then
    decFrameManagerSetStreamType 1
    modifyQ fun q => { q with interlaceHold := vf, interlace := 1, toggle := 0, fieldPattern := 0 }
  else
    let d ← get
    if d.m.forceInterlace ≠ 0 then
      decFrameManagerSetStreamType 1
      modifyQ fun q => { q with interlace := 0, toggle := 0, fieldPattern := 0 }
    else
      modifyQ fun q => { q with
        interlace := 0, toggle := 0, fieldPattern := 0, repeatCurrent := 0, repeatBudget := 0 }
      decFrameManagerSetStreamType 0
    videoFramePut vf
  -- the flag overwrites the pointer to the frame
  modifyQ fun q => { q with interlaceHold := .one, dirty := 1, softRepeatCount := 0, repeatBudget := 1 }
  modifyM fun m => { m with state := 1 }

def putLastFrame : M Unit := do
  let d ← get
  if d.lastFrame ≠ .null then
    videoFramePut d.lastFrame
    modify fun d => { d with lastFrame := .null }

def resumeLocked : M Unit := do
  putLastFrame
  let vf ← decFramePop
  if vf ≠ .null then resumeWith vf

def decFrameQueueResume : M Unit := do
  let d ← get
  if d.m.state ≠ 0 then
    if d.m.state = 2 then modifyM fun m => { m with state := 1 }
  else
    lockQueue
    if d.q.dirty = 0 then resumeLocked
    unlockQueue

def putAll : List Nat → M Unit
  | [] => pure ()
  | k :: ks => do
    videoFramePut (.frame k)
    putAll ks

def decFrameManagerFree : M Unit := do
  lockReady
  let d ← get
  modifyM fun m => { m with
    readyList := [], readyCount := 0, interlacePair0 := .null, interlacePair1 := .null, type := 0, request := 0 }
  unlockReady
  putAll d.m.readyList
  videoFramePut d.m.interlacePair0
  videoFramePut d.m.interlacePair1
  modifyM fun m => { m with state := 0 }

def readSlots : List Ptr → M Unit
  | [] => pure ()
  | p :: ps => do
    if p ≠ .null then
      let _ ← deref p
    readSlots ps

def decFrameQueueSync : M Unit := do
  modifyQ fun q => { q with dirty := 0 }
  let d ← get
  readSlots [d.q.slots 0, d.q.slots 1, d.q.slots 2, d.q.slots 3]
  modifyQ fun q => { q with repeatPending := 0 }

def decVsyncProcess : M Unit := do
  lockQueue
  let d ← get
  if d.q.dirty ≠ 0 then
    decFrameQueueSync
    decFrameRecycle
  unlockQueue
  modifyM fun m => { m with
    refreshScheduled := m.refreshScheduled || d.m.state &&& ~~~2 ≠ 0
    irqCount := m.irqCount + 1 }

def refreshFields : M Unit := do
  let d ← get
  if d.q.toggle = 0 then
    modifyQ fun q => { q with toggle := 1 }
    if d.q.hwRepeatReq ≠ 0 then
      modifyQ fun q => { q with repeatPending := 1, repeatMode := 1 }
      if d.m.readyList ≠ [] then
        modifyQ fun q => { q with hwRepeatReq := 0, hwRepeat := 0, hwRepeatPrev := 1, repeatCurrent := 1 }
  else
    modifyQ fun q => { q with toggle := 0 }
    if d.m.readyList = [] ∧ d.q.repeatBudget ≤ 4 then
      modifyQ fun q => { q with
        repeatBudget := q.repeatBudget + 1, repeatCurrent := 0, interlaceBottom := .null
        fieldPattern := q.fieldPattern <<< 1 }
      let _ ← decFrameQueueEnqueue d.q.interlaceHold
      -- the trace reads the payload
      let _ ← deref d.q.interlaceHold
    else if d.q.hwRepeatReq ≠ 0 then
      let r := decFrameQueueHardwareRepeatCtrl { d.q with toggle := 0, repeatCurrent := d.q.repeatCurrent + 1 } 1
      modifyQ fun _ => { r.2 with repeatMode := 0 }
      if r.1 then modifyM fun m => { m with state := 0 }
    else if d.m.readyList ≠ [] then
      let vf ← decFramePop
      modifyQ fun q => { q with repeatMode := 0, repeatCurrent := 0, fieldPattern := q.fieldPattern <<< 1 }
      decFrameDeferRelease d.q.interlaceHold
      modifyQ fun q => { q with interlaceHold := vf, repeatBudget := q.repeatBudget + 1 }
      modifyM fun m => { m with forceInterlace := 0 }

def takeBack (vf : Ptr) : M Unit := do
  lockReady
  let d ← get
  if d.m.type = 1 then videoFramePut vf
  else
    match vf with
    | .frame k =>
      touch (k :: d.m.readyList.take 1)
      modifyM fun m => { m with readyList := k :: m.readyList, readyCount := m.readyCount + 1 }
    | _ => fun _ => .bug
  unlockReady

def refreshFrame : M Unit := do
  let vf ← decFramePop
  if vf ≠ .null then
    let r ← decFrameQueueEnqueue vf
    if r ≠ 0 then takeBack vf else videoFramePut vf
    modifyM fun m => { m with forceInterlace := 0 }
  else
    decFrameQueueRepeat
    modifyM fun m => { m with forceInterlace := 1 }

def refreshPair : M Unit := do
  let d ← get
  if d.m.interlacePair0 ≠ .null ∧ d.m.interlacePair1 ≠ .null then
    modifyQ fun q => { q with toggle := q.toggle ^^^ 1, fieldPattern := q.fieldPattern <<< 1 }
    let _ ← decFrameQueueEnqueue (if d.q.toggle ^^^ 1 ≠ 0 then d.m.interlacePair1 else d.m.interlacePair0)

def refreshRunning : M Unit := do
  let d ← get
  if d.q.interlace ≠ 0 then refreshFields
  else if d.m.forceInterlace = 0 then refreshFrame
  else refreshPair

def refreshStopping : M Unit := do
  let d ← get
  if d.m.state = 3 then
    if d.q.interlace ≠ 0 then
      modifyM fun m => { m with state := 4 }
      modifyQ fun q => { q with repeatMode := 0, softRepeatCount := 0, repeatBudget := 0, dirty := 1 }
    else modifyM fun m => { m with state := 2 }
  else if d.m.state = 4 then
    modifyM fun m => { m with state := 5 }
    -- no reference is taken: the branch that would is taken for a slot that is and is not `NULL`
    modifyQ fun q => { q with shutdownHold := if q.slots 0 ≠ .null then q.slots 0 else q.slots 1 }
    decFrameDeferRelease (d.q.slots 0)
    modifyQ fun q => { q with
      slots := fun _ => .null
      toggle := 0, fieldPattern := 0, repeatCurrent := 0, repeatMode := 0, repeatPending := 0
      hwRepeat := 0, hwRepeatPrev := 0, hwRepeatReq := 0, dirty := 1
      interlaceBottom := .null, interlaceTop := .null, interlaceHold := .null
      softRepeatCount := 0, repeatBudget := 0 }
  else if d.m.state = 5 then
    decFrameDeferRelease d.q.shutdownHold
    modifyQ fun q => if q.slots 0 ≠ .null then deferRelease q (q.slots 0) else q
    modifyQ fun q => { deferRelease q .null with
      shutdownHold := .null
      slots := Function.update q.slots 0 .null }
    modifyM fun m => { m with state := 0 }
    modifyQ fun q => (decFrameQueueHardwareRepeatCtrl q 0).2
    decFrameRecycle

def refreshLocked : M Unit := do
  let d ← get
  if d.q.dirty = 0 then
    if d.m.state = 1 then refreshRunning
    -- `(int)q->shutdown_counter < 0`
    else if (d.m.state = 3 ∨ d.m.state = 4 ∨ d.m.state = 5) ∧ 0x80000000 ≤ d.q.shutdownCounter.toNat then
      decFrameQueueRepeat
    else refreshStopping

def decFrameQueueRefresh : M Unit := do
  modifyM fun m => { m with refreshScheduled := false }
  lockQueue
  refreshLocked
  unlockQueue

inductive Worker where
  | idle
  | loop
  | put (vf : Ptr)
  | tail
  | last (vf : Ptr)
deriving DecidableEq

def popRelease : M (Option Ptr) := do
  lockQueue
  let d ← get
  modifyQ fun q => { q with releaseFifo.items := q.releaseFifo.items.tail }
  unlockQueue
  return d.q.releaseFifo.items.head?

def decFrameReleaseProcess : Worker → M Worker
  | .idle => do
    modify fun d => { d with work := false }
    return .loop
  | .loop => do
    let d ← get
    if 1 < d.q.releaseFifo.items.length then
      match ← popRelease with
      | some vf => return .put vf
      | none => return .loop
    else if d.q.dirty = 0 then return .tail
    else return .idle
  | .put vf => do
    videoFramePut vf
    return .loop
  | .tail => do
    match ← popRelease with
    | some vf => return .last vf
    | none => return .idle
  | .last vf => do
    modify fun d => { d with lastFrame := vf }
    return .idle

def listAddTail (k : Nat) : M Unit := do
  let d ← get
  touch (k :: d.m.readyList.getLast?.toList)
  modifyM fun m => { m with readyList := m.readyList ++ [k], readyCount := m.readyCount + 1 }

def decFrameManagerEnqueueFrame (payload : Item) (alloc : Bool) : M Int := do
  match ← decCreateVideoFrame alloc with
  | .frame k =>
    setPayload k payload
    lockReady
    listAddTail k
    unlockReady
    return 0
  | _ => return -12

def setPair (m : DecFrameManager) (top bottom : Ptr) : DecFrameManager :=
  let f := if m.interlacePair0 ≠ .null then m.recycleFifo.push m.interlacePair0 else m.recycleFifo
  { m with
    forceInterlace := 1
    recycleFifo := if m.interlacePair1 ≠ .null then f.push m.interlacePair1 else f
    interlacePair0 := top
    interlacePair1 := bottom }

def decFrameManagerEnqueueInterlaceFrame (top bottom : Item) (allocTop allocBottom : Bool) : M Int := do
  let d ← get
  if d.m.type ≠ 1 then return -22
  else
    let topVf ← decCreateVideoFrame allocTop
    let botVf ← decCreateVideoFrame allocBottom
    match topVf, botVf with
    | .frame k, .frame l =>
      setPayload k top
      setPayload l bottom
      lockReady
      modifyM fun m => setPair m topVf botVf
      unlockReady
      queueWork
      return 0
    | _, _ =>
      videoFramePut topVf
      videoFramePut botVf
      return -12

def decFrameManagerStop : M Unit :=
  modifyM fun m => if m.state = 1 ∨ m.state = 2 then { m with request := 1, state := 3 } else m

def decFrameManagerExit (worker : Worker) : M Unit := fun d =>
  if worker ≠ .idle ∨ d.work then .bug else decFrameManagerFree d

def decFrameManagerInit (size : Nat) (heap : Heap VideoFrame) (lastFrame : Ptr) (released : List (Nat × List Ptr)) :
    Dev where
  heap := heap
  q := {
    dirty := 0, interlace := 0, toggle := 0, fieldPattern := 0, repeatCurrent := 0, repeatBudget := 0
    slots := fun _ => .null
    interlaceHold := .null, interlaceTop := .null, interlaceBottom := .null
    releaseFifo := ⟨512 * size, []⟩
    shutdownHold := .null, lastReleased := .null
    repeatMode := 0, repeatPending := 0, hwRepeat := 0, hwRepeatPrev := 0, hwRepeatReq := 0
    shutdownCounter := 4
    softRepeatCount := 0 }
  m := {
    seqno := 0, state := 0, request := 0, type := 0
    readyList := []
    readyCount := 0, forceInterlace := 0, irqCount := 0
    refreshScheduled := false
    recycleFifo := ⟨512 * size, []⟩
    interlacePair0 := .null, interlacePair1 := .null }
  lastFrame := lastFrame
  queueLock := false
  readyLock := false
  work := false
  released := released

end H713.Decd
