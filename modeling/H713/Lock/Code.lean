import H713.Lib.Bytes
import H713.Lib.Run

/-!
# Lock.Code

The software spinlocks in shared memory: twelve entries of twelve bytes, one call after the other. The owner byte
says "inside a call", the thread id who holds the lock. The shared memory is mapped.
-/

namespace H713.Lock

open Function
open Bytes

def free : Nat := 2

def noThread : Nat := 255

def maxId : Nat := 11

def appIds : List Nat := [5, 6, 7, 8, 9, 10, 11]

/-- The CPU a call is made on: the driver runs on the ARM, and the firmware of the MIPS makes the same calls. -/
inductive Cpu where
  | arm
  | mips
  deriving DecidableEq, Repr

def getCurCPUID (c : Cpu := .arm) : Nat :=
  match c with
  | .arm => 0
  | .mips => 1

structure Entry where
  type : Nat
  status : Nat
  mutex : Nat
  owner : Nat
  refCount : Nat
  threadId : Nat
  deriving DecidableEq, Repr

abbrev Locks := Nat → Entry

def initEntry : Entry := ⟨free, free, 0, free, 0, noThread⟩

def commInitSpinLock (hw : Int) (t : Locks) : Out Locks Int :=
  if hw ≠ 0 then .ret hw t
  else .ret 0 fun i => if i < 12 then initEntry else t i

def enterCritical (e : Entry) (c : Cpu := .arm) : Entry := { e with owner := getCurCPUID c }

def leaveCritical (e : Entry) : Entry := { e with owner := free }

def addRef (e : Entry) : Entry := { e with refCount := (e.refCount + 1) % 2 ^ 32 }

def dropRef (e : Entry) : Entry :=
  { e with refCount := if e.refCount = 0 then 2 ^ 32 - 1 else e.refCount - 1 }

def spinRound (tgid : Nat) (e : Entry) (c : Cpu := .arm) : Option Nat × Entry :=
  let e := enterCritical e c
  if e.owner = getCurCPUID c then
    if e.threadId = noThread then (some 2, leaveCritical (addRef { e with threadId := tgid }))
    else if e.mutex = 0 ∧ e.threadId = tgid then (some 1, leaveCritical (addRef e))
    else (none, leaveCritical e)
  else if e.owner = free then
    (some 2, leaveCritical (addRef { e with owner := getCurCPUID c, threadId := tgid }))
  else (none, leaveCritical e)

def spinLock (t : Locks) (id mode tgid : Nat) (c : Cpu := .arm) : Out Locks Nat :=
  if maxId < id then .bug
  else if toI32 (t id).refCount < 0 then .bug
  else
    match spinRound tgid (t id) c with
    | (some r, e) => .ret r (update t id e)
    | (none, e) => if mode = 0 then .ret 0 (update t id e) else .spin

def commSpinLock (t : Locks) (id tgid : Nat) : Out Locks Unit :=
  (spinLock t id 2 tgid).bind fun _ t => .ret () t

def commSpinLockMutex (t : Locks) (id tgid : Nat) : Out Locks Unit :=
  (spinLock t id 1 tgid).bind fun _ t => .ret () t

def commTrySpinLock (t : Locks) (id tgid : Nat) : Out Locks Nat :=
  (spinLock t id 0 tgid).bind fun r t => .ret (if r ≠ 0 then 1 else 0) t

def unlockEntry (e : Entry) : Entry :=
  let e := dropRef e
  leaveCritical (if e.refCount = 0 then { e with owner := free, threadId := noThread } else e)

def commSpinUnLock (t : Locks) (id : Nat) (c : Cpu := .arm) : Out Locks Unit :=
  if maxId < id then .bug
  else
    let e := enterCritical (t id) c
    if toI32 e.refCount ≤ 0 then .ret () (update t id (leaveCritical e))
    else if e.owner = free then .bug
    else if e.threadId = noThread then .bug
    else .ret () (update t id (unlockEntry e))

def firstFree (t : Locks) : Option Nat := appIds.find? fun id => (t id).owner = free

def commReqestSpinLock (t : Locks) (c : Cpu := .arm) : Out Locks Nat :=
  match firstFree t with
  | none => .ret 255 t
  | some id =>
    if (t id).refCount ≠ 0 then .bug
    else if (t id).type ≠ free then .bug
    else if (t id).threadId ≠ noThread then .bug
    else .ret id (update t id { t id with mutex := 0, owner := getCurCPUID c })

def commReleaseSpinLock (t : Locks) (id : Nat) : Out Locks Int :=
  if id ∉ appIds then .bug
  else if (t id).refCount ≠ 0 ∨ (t id).threadId ≠ noThread then .ret (-1) t
  else .ret 0 (update t id { t id with owner := free })

theorem spinRound_eq (tgid : Nat) (e : Entry) (c : Cpu) : spinRound tgid e c =
      if e.threadId = noThread then (some 2, leaveCritical (addRef { e with threadId := tgid }))
      else if e.mutex = 0 ∧ e.threadId = tgid then (some 1, leaveCritical (addRef e))
      else (none, leaveCritical e) := by
  cases c <;> rfl

variable {t t' : Locks} {c : Cpu}

theorem commInitSpinLock_entries {hw : Int} {l : Locks} (h : commInitSpinLock hw t = .ret 0 l) :
    l = fun i => if i < 12 then initEntry else t i := by
  simp only [commInitSpinLock] at h
  split at h
  · rename_i hn; exact absurd (Out.ret.inj h).1 hn
  · exact (Out.ret.inj h).2.symm

def freshLocks : Locks := fun _ => initEntry

theorem freshLocks_init : commInitSpinLock 0 freshLocks = .ret 0 freshLocks := by
  have h : (fun i => if i < 12 then initEntry else freshLocks i) = freshLocks := by
    funext i; exact ite_self _
  simp only [commInitSpinLock, h]
  rfl

theorem spinLock_ret {id mode tgid r : Nat} (h : spinLock t id mode tgid c = .ret r t') :
    (r = 2 ∧ (t id).threadId = noThread ∧
      t' = update t id (leaveCritical (addRef { t id with threadId := tgid }))) ∨
    (r = 1 ∧ (t id).threadId ≠ noThread ∧ (t id).threadId = tgid ∧
      t' = update t id (leaveCritical (addRef (t id)))) ∨
    (r = 0 ∧ mode = 0 ∧ t' = update t id (leaveCritical (t id))) := by
  simp only [spinLock, spinRound_eq] at h
  split at h
  · cases h
  split at h
  · cases h
  by_cases h1 : (t id).threadId = noThread
  · rw [if_pos h1] at h
    cases h
    exact .inl ⟨rfl, h1, rfl⟩
  rw [if_neg h1] at h
  by_cases h2 : (t id).mutex = 0 ∧ (t id).threadId = tgid
  · rw [if_pos h2] at h
    cases h
    exact .inr (.inl ⟨rfl, h1, h2.2, rfl⟩)
  · rw [if_neg h2] at h
    simp only at h
    split at h
    · rename_i h3
      cases h
      exact .inr (.inr ⟨rfl, h3, rfl⟩)
    · cases h

theorem unlockEntry_enterCritical (e : Entry) : unlockEntry (enterCritical e c) = unlockEntry e := by
  by_cases h : (dropRef e).refCount = 0
  · have h' : (dropRef (enterCritical e c)).refCount = 0 := h
    simp only [unlockEntry, if_pos h, if_pos h']
    rfl
  · have h' : ¬ (dropRef (enterCritical e c)).refCount = 0 := h
    simp only [unlockEntry, if_neg h, if_neg h']
    rfl

theorem commSpinUnLock_ret {id : Nat} (h : commSpinUnLock t id c = .ret () t') :
    (toI32 (t id).refCount ≤ 0 ∧ t' = update t id (leaveCritical (t id))) ∨
    (0 < toI32 (t id).refCount ∧ (t id).threadId ≠ noThread ∧ t' = update t id (unlockEntry (t id))) := by
  simp only [commSpinUnLock, unlockEntry_enterCritical] at h
  split at h
  · cases h
  split at h
  · rename_i h0
    exact .inl ⟨h0, (Out.ret.inj h).2.symm⟩
  rename_i h0
  split at h
  · cases h
  split at h
  · cases h
  · rename_i h1
    exact .inr ⟨Int.not_le.mp h0, h1, (Out.ret.inj h).2.symm⟩

theorem commReqestSpinLock_ret {r : Nat} (h : commReqestSpinLock t c = .ret r t') : t' = t ∨
    (r ∈ appIds ∧ (t r).refCount = 0 ∧ (t r).threadId = noThread ∧
      t' = update t r { t r with mutex := 0, owner := getCurCPUID c }) := by
  simp only [commReqestSpinLock] at h
  split at h
  · exact .inl (Out.ret.inj h).2.symm
  rename_i id hid
  split at h
  · cases h
  rename_i href
  split at h
  · cases h
  split at h
  · cases h
  rename_i hthread
  cases h
  exact .inr ⟨List.mem_of_find?_eq_some hid, not_not.mp href, not_not.mp hthread, rfl⟩

end H713.Lock
