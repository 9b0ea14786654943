import Mathlib.Data.Finset.Card
import H713.Lib.CString
import H713.Lock.Code

/-!
# Component.Pool

The component pool in shared memory, byte by byte: `InitComponentPool` and the create, attach and detach requests of
`comm_fd_ioctl`. The initialiser writes the count of free slots and the lock ids where no request reads them.
-/

namespace H713.Component

open Bytes Lock

def maxSlots : Nat := 40

def poolLock (b : Buf) : Nat := rd b 0 4
def attachCount (b : Buf) (i : Nat) : Nat := rd b (816 * i + 8) 1
def registeredFlag (b : Buf) (i : Nat) : Nat := rd b (816 * i + 9) 1
def componentIndex (b : Buf) (i : Nat) : Nat := rd b (816 * i + 10) 1
def lockId (b : Buf) (i : Nat) : Nat := rd b (816 * i + 32) 4
def listenerCount (b : Buf) (i : Nat) : Nat := rd b (816 * i + 48) 4
def freeSlotCount (b : Buf) : Nat := rd b (4 * 8162) 4
def shmemBufMid (b : Buf) : Nat := rd b (4 * 8164) 8
def shmemBufSize (b : Buf) : Nat := rd b (4 * 8166) 4

structure Fd where
  pool : Buf
  locks : Locks
  freed : List Nat

def initSentinels (b : Buf) (comp : Nat) : Nat → Buf
  | 0 => b
  | n + 1 => wr (initSentinels b comp n) (comp + 4 * (12 * n + 18)) 4 (2 ^ 32 - 1)

def initComponent (b : Buf) (i : Nat) : Buf :=
  let comp := 4 * (i * (816 / 4) + 4)
  let b := wr b (comp + 10 - 16) 1 i
  let b := wr b (comp + 4 * (8 / 4)) 4 255
  let b := wr b (comp + 0x1C - 16) 2 2
  initSentinels b comp 16

def initComponents (b : Buf) : Nat → Buf
  | 0 => b
  | n + 1 => initComponent (initComponents b n) n

def initComponentPool (s : Fd) : Out Fd Unit :=
  let b := wr s.pool 0 (maxSlots * 816 + 16) 0
  let b := wr b (4 * (8162 / 4)) 4 maxSlots
  (commReqestSpinLock s.locks).bind fun r l =>
    let b := wr b 0 4 r
    if poolLock b = 255 then .bug
    else .ret () { s with pool := initComponents b maxSlots, locks := l }

def findName (b name : Buf) : Option Nat :=
  (List.range maxSlots).find? fun i =>
    registeredFlag b i ≠ 0 ∧ strneq b (816 * i + 11) name 0 15 = true

def findFree (b : Buf) : Option Nat :=
  (List.range maxSlots).find? fun i => attachCount b i = 0 ∧ registeredFlag b i = 0

def fillSlot (b : Buf) (slot : Nat) (name : Buf) (compFlags : Nat) : Buf :=
  let b := strncpy b (816 * slot + 11) name 0 15
  let b := wr b (816 * slot + 8) 1 1
  let b := wr b (816 * slot + 9) 1 1
  let b := wr b (816 * slot + 10) 1 slot
  let b := wr b (816 * slot + 28) 2 getCurCPUID
  let b := wr b (816 * slot + 44) 4 (componentIndex b slot)
  wr b (816 * slot + 40) 4 compFlags

def assignLock (b : Buf) (l : Locks) (slot : Nat) : Out Locks Buf :=
  if lockId b slot = 255 then
    (commReqestSpinLock l).bind fun r l => .ret (wr b (816 * slot + 32) 4 r) l
  else .ret b l

def pred32 (n : Nat) : Nat := if n = 0 then 2 ^ 32 - 1 else n - 1

theorem pred32_lt {n : Nat} (h : n < 256 ^ 4) : pred32 n < 256 ^ 4 := by
  simp only [pred32]
  split <;> omega

def takeSlot (b : Buf) : Buf := wr b (4 * 8162) 4 (pred32 (freeSlotCount b))

def createComponent (s : Fd) (tgid : Nat) (name : Buf) (compFlags : Nat) : Out Fd Nat :=
  let poolSpin := poolLock s.pool
  (commSpinLockMutex s.locks poolSpin tgid).bind fun _ l =>
  match findName s.pool name with
  | some _ => (commSpinUnLock l poolSpin).bind fun _ l => .ret (2 ^ 32 - 1) { s with locks := l }
  | none =>
    match findFree s.pool with
    | none => (commSpinUnLock l poolSpin).bind fun _ l => .ret (2 ^ 32 - 1) { s with locks := l }
    | some slot =>
      (assignLock (fillSlot s.pool slot name compFlags) l slot).bind fun b l =>
      (commSpinUnLock l poolSpin).bind fun _ l => .ret slot { s with pool := takeSlot b, locks := l }

def bumpAttach (b : Buf) (i : Nat) : Buf := wr b (816 * i + 8) 1 (attachCount b i + 1)

def attachComponent (s : Fd) (tgid : Nat) (name : Buf) (timeoutMs : Nat) : Out Fd Nat :=
  (commSpinLockMutex s.locks (poolLock s.pool) tgid).bind fun _ l =>
  match findName s.pool name with
  | some i =>
    let compSpin := lockId s.pool i
    (commSpinLockMutex l compSpin tgid).bind fun _ l =>
    let b := bumpAttach s.pool i
    (commSpinUnLock l compSpin).bind fun _ l =>
    (commSpinUnLock l (poolLock b)).bind fun _ l => .ret i { s with pool := b, locks := l }
  | none =>
    (commSpinUnLock l (poolLock s.pool)).bind fun _ l =>
    if timeoutMs = 0 then .spin else .ret (2 ^ 32 - 1) { s with locks := l }

def dropAttach (b : Buf) (i : Nat) : Buf := wr b (816 * i + 8) 1 (attachCount b i - 1)

def clearSlot (b : Buf) (i : Nat) : Buf :=
  let b := wr b (816 * i + 28) 2 2
  let b := wr b (816 * i + 11) 1 0
  let b := wr b (816 * i + 9) 1 0
  let b := wr b (816 * i + 40) 8 0
  wr b (4 * 8162) 4 (freeSlotCount b + 1)

/-- With the last component the buffer goes back to its heap. -/
def releaseBuffer (s : Fd) : Fd :=
  if freeSlotCount s.pool = maxSlots ∧ shmemBufMid s.pool ≠ 0 ∧ shmemBufSize s.pool ≠ 0 then
    { s with
      pool := wr (wr s.pool (4 * 8164) 8 0) (4 * 8166) 4 0
      freed := shmemBufMid s.pool % 2 ^ 32 :: s.freed }
  else s

def detachComponent (s : Fd) (tgid compIdx : Nat) : Out Fd Nat :=
  if maxSlots ≤ compIdx then .bug
  else if attachCount s.pool compIdx = 0 then .bug
  else
    let compSpin := lockId s.pool compIdx
    if compSpin = 255 then .bug
    else
      (commSpinLockMutex s.locks (poolLock s.pool) tgid).bind fun _ l =>
      (commSpinLockMutex l compSpin tgid).bind fun _ l =>
      let b := dropAttach s.pool compIdx
      let last := attachCount b compIdx = 0
      let s := { s with pool := b }
      let s := if last ∧ listenerCount b compIdx = 0 then
        releaseBuffer { s with pool := clearSlot b compIdx } else s
      (commSpinUnLock l compSpin).bind fun _ l =>
      (commSpinUnLock l (poolLock s.pool)).bind fun _ l =>
        .ret (if last then 1 else 0) { s with locks := l }

end H713.Component
