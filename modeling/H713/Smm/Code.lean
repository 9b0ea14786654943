import H713.Lib.Bytes
import H713.Lib.Run

/-!
# Smm.Code

The shared memory manager of `cpu_comm_mem.c` on a flat memory of `u32` words by virtual address: the header
`heap[0]` to `heap[47]`, the page table at 4096, page `p` at `heap + 4096 * p`. Page 0 is the sentinel of the list
of free runs. Pointers in the heap are physical; `Shm` says where the memory is mapped. Loops that nothing in the
code bounds take fuel.
-/

namespace H713.Smm

open Bytes

structure Mem where
  cell : Nat → Nat

def ld (m : Mem) (a : Nat) : Nat := m.cell (a % 2 ^ 32)

def st (m : Mem) (a v : Nat) : Mem := ⟨Function.update m.cell (a % 2 ^ 32) (v % 2 ^ 32)⟩

def sub32 (x y : Nat) : Nat := (x + (2 ^ 32 - y % 2 ^ 32)) % 2 ^ 32

def divPage (x : Nat) : Nat := ofI32 ((toI32 x).tdiv 4096)

structure Shm where
  shMemAddrBase : Nat
  shMemAddr : Nat

namespace Shm

def toVir (s : Shm) (x : Nat) : Nat := sub32 (x + s.shMemAddrBase) s.shMemAddr

def toPhy (s : Shm) (x : Nat) : Nat := sub32 (x + s.shMemAddr) s.shMemAddrBase

def smmPhy2vir (s : Shm) (phy : Nat) : Nat := if phy = 0 then 0 else s.toVir phy

def smmVir2phy (s : Shm) (vir : Nat) : Nat := if vir = 0 then 0 else s.toPhy vir

end Shm

def pteAddr (pt p j : Nat) : Nat := pt + 12 * p + 4 * j

def pageAddr (pt p : Nat) : Nat := sub32 (pt + p * 4096) 4096

section

variable (s : Shm) (heap : Nat)

def word (m : Mem) (k : Nat) : Nat := ld m (heap + 4 * k)

def setWord (m : Mem) (k v : Nat) : Mem := st m (heap + 4 * k) v

def addWord (m : Mem) (k v : Nat) : Mem := setWord heap m k (word heap m k + v)

def subWord (m : Mem) (k v : Nat) : Mem := setWord heap m k (sub32 (word heap m k) v)

def dataBase (m : Mem) : Nat := s.smmPhy2vir (word heap m 0)

def pageTable (m : Mem) : Nat := s.smmPhy2vir (word heap m 1)

def brkAddr (m : Mem) (a2 : Nat) : Nat :=
  let cur := (word heap m 47 + word heap m 45) % 2 ^ 32
  if cur ≠ a2 then sub32 (s.toVir cur) a2 else 0

def shmallocBrk (m : Mem) (a2 : Nat) : Nat × Mem :=
  if a2 ≠ 0 then
    let newBreak := (a2 + word heap m 45) % 2 ^ 32
    -- both sides are `int`
    if toI32 newBreak > toI32 (word heap m 46) then (0, m)
    else
      let m := setWord heap m 45 newBreak
      (brkAddr s heap m a2, m)
  else (brkAddr s heap m 0, m)

def alignCore (ptr : Nat) (m : Mem) : Nat × Mem :=
  if ptr % 4096 ≠ 0 then
    ((ptr + (4096 - ptr % 4096)) % 2 ^ 32, (shmallocBrk s heap m (4096 - ptr % 4096)).2)
  else (ptr, m)

def morecore (m : Mem) (a2 : Nat) : Out Mem Nat :=
  let r := shmallocBrk s heap m a2
  let r := alignCore s heap r.1 r.2
  if r.1 = 0 then .ret 0 r.2
  else
    let neededPages := sub32 (r.1 + a2) (dataBase s heap r.2) / 4096 + 1
    if toI32 neededPages > toI32 (word heap r.2 2) then .bug
    else .ret r.1 (setWord heap r.2 4 neededPages)

def dropRun (m : Mem) (pt cur : Nat) : Mem :=
  let m := st m (pteAddr pt (ld m (pteAddr pt cur 1)) 2) (ld m (pteAddr pt cur 2))
  let m := st m (pteAddr pt (ld m (pteAddr pt cur 2)) 1) (ld m (pteAddr pt cur 1))
  let m := setWord heap m 3 (ld m (pteAddr pt cur 1))
  subWord heap m 43 1

def splitRun (m : Mem) (pt cur needed : Nat) : Mem :=
  let split := cur + needed
  let m := st m (pteAddr pt split 0) (ld m (pteAddr pt cur 0) - needed)
  let m := st m (pteAddr pt split 1) (ld m (pteAddr pt cur 1))
  let m := st m (pteAddr pt split 2) (ld m (pteAddr pt cur 2))
  let m := setWord heap m 3 split
  let m := st m (pteAddr pt (ld m (pteAddr pt cur 1)) 2) split
  st m (pteAddr pt (ld m (pteAddr pt cur 2)) 1) split

def takeRun (m : Mem) (pt cur needed : Nat) : Mem :=
  let m := if needed ≥ ld m (pteAddr pt cur 0) then dropRun heap m pt cur else splitRun heap m pt cur needed
  let m := st m (pteAddr pt cur 0) 0
  let m := st m (pteAddr pt cur 1) needed
  let m := addWord heap m 41 1
  let m := addWord heap m 42 (needed * 4096)
  subWord heap m 44 (needed * 4096)

def findRun (m : Mem) (pt needed searchPage : Nat) : Nat → Nat → Option (Option Nat)
  | 0, _ => none
  | f + 1, cur =>
    if needed ≤ ld m (pteAddr pt cur 0) then some (some cur)
    else
      let cur := ld m (pteAddr pt cur 1)
      if searchPage ≠ cur then findRun m pt needed searchPage f cur else some none

def growHeap (m : Mem) (pt needed : Nat) : Out Mem Nat :=
  match morecore s heap m (needed * 4096 % 2 ^ 32) with
  | .bug => .bug
  | .spin => .spin
  | .ret pageAlloc m =>
    if pageAlloc = 0 then .ret 0 m
    else
      let p := divPage (sub32 pageAlloc (dataBase s heap m)) + 1
      let m := st m (pteAddr pt p 0) 0
      let m := st m (pteAddr pt p 1) needed
      let m := addWord heap m 41 1
      .ret pageAlloc (addWord heap m 42 (needed * 4096))

def LastAtBreak (m : Mem) (pt : Nat) : Prop :=
  let last := ld m (pteAddr pt 0 2)
  word heap m 4 ≠ 0 ∧ word heap m 4 = (last + ld m (pteAddr pt last 0)) % 2 ^ 32 ∧
    brkAddr s heap m 0 = pageAddr (dataBase s heap m) last
deriving Decidable

def largeLoop (pt needed searchPage : Nat) : Nat → Mem → Nat → Out Mem Nat
  | 0, _, _ => .spin
  | f + 1, m, cur =>
    match findRun m pt needed searchPage f cur with
    | none => .spin
    | some (some cur) => .ret (pageAddr (dataBase s heap m) cur) (takeRun heap m pt cur needed)
    | some none =>
      if ¬ LastAtBreak s heap m pt then growHeap s heap m pt needed
      else
        let extra := sub32 needed (ld m (pteAddr pt (ld m (pteAddr pt 0 2)) 0))
        match morecore s heap m (extra * 4096 % 2 ^ 32) with
        | .bug => .bug
        | .spin => .spin
        | .ret ptr m =>
          if ptr = 0 then growHeap s heap m pt needed
          else
            let cur := ld m (pteAddr pt 0 2)
            let m := st m (pteAddr pt cur 0) (ld m (pteAddr pt cur 0) + extra)
            largeLoop pt needed searchPage f (addWord heap m 44 (extra * 4096)) cur

def shmallocLarge (fuel : Nat) (m : Mem) (size : Nat) : Out Mem Nat :=
  largeLoop s heap (pageTable s heap m) ((size + 4095) % 2 ^ 32 / 4096) (word heap m 3) fuel m
    (word heap m 3)

def shiftRounds : Nat → Nat → Nat
  | 0, _ => 0
  | f + 1, v => if v = 0 then 0 else shiftRounds f (v / 2) + 1

def sizeClass (size : Nat) : Nat := 1 + shiftRounds 32 (size - 1)

/-- A virtual address behind the heap's first byte and below its end. -/
def InBounds (m : Mem) (vir : Nat) : Prop :=
  s.smmPhy2vir (word heap m 47) < vir ∧ vir < (s.smmPhy2vir (word heap m 47) + word heap m 46) % 2 ^ 32
deriving Decidable

def countTaken (m : Mem) (pt i head : Nat) : Mem :=
  let p := sub32 (head + 4095) (dataBase s heap m) / 4096 + 1
  let m := st m (pteAddr pt p 1) (sub32 (ld m (pteAddr pt p 1)) 1)
  let m := if ld m (pteAddr pt p 1) = 0 then st m (pteAddr pt p 2) (ld m head % 4096 / 2 ^ i) else m
  let m := addWord heap m 41 1
  let m := addWord heap m 42 (2 ^ i)
  let m := subWord heap m 43 1
  subWord heap m 44 (2 ^ i)

def popBlock (m : Mem) (pt i head : Nat) : Nat × Mem :=
  if ¬ InBounds s heap m head then (0, m)
  else if head % 4 ≠ 0 then (0, m)
  else
    let prev := ld m (head + 4)
    if word heap m 47 ≥ prev ∨ prev ≥ (word heap m 47 + word heap m 46) % 2 ^ 32 then (0, m)
    else if prev % 4 ≠ 0 then (0, m)
    else
      let next := ld m head
      let nextVir := s.smmPhy2vir next
      if nextVir ≠ 0 ∧ (¬ InBounds s heap m nextVir ∨ nextVir % 4 ≠ 0) then (0, m)
      else
        let m := if nextVir ≠ 0 then st m (nextVir + 4) prev else m
        let m := if s.toVir prev ≠ 0 then st m (s.toVir prev) next else m
        (head, countTaken s heap m pt i head)

def chainBlock (i : Nat) (m : Mem) (block : Nat) : Mem :=
  let m := st m block (word heap m (2 * i + 17))
  let m := st m (block + 4) (s.toPhy (heap + 4 * (2 * i + 17)))
  let m := setWord heap m (2 * i + 17) (s.smmVir2phy block)
  let oldHead := ld m block
  if oldHead ≠ 0 then st m (s.toVir oldHead + 4) (s.smmVir2phy block) else m

def chainBlocks (i page : Nat) (m : Mem) : Nat → Mem
  | 0 => m
  | k + 1 => chainBlock s heap i (chainBlocks i page m k) ((page + (k + 1) * 2 ^ i) % 2 ^ 32)

def carvePage (m : Mem) (pt i page : Nat) : Mem :=
  let subCount := 4096 / 2 ^ i
  let m := addWord heap m (i + 5) 1
  let m := chainBlocks s heap i page m (subCount - 1)
  let p := divPage (sub32 page (dataBase s heap m)) + 1
  let m := st m (pteAddr pt p 0) i
  let m := st m (pteAddr pt p 1) (subCount - 1)
  let m := st m (pteAddr pt p 2) (subCount - 1)
  let m := setWord heap m 43 (sub32 (word heap m 43) 1 + subCount)
  let m := setWord heap m 42 (sub32 (word heap m 42) 4096 + 2 ^ i)
  setWord heap m 44 (sub32 (word heap m 44 + 4096) (2 ^ i))

def shmallocSmall (fuel : Nat) (m : Mem) (size : Nat) : Out Mem Nat :=
  let pt := pageTable s heap m
  let i := sizeClass size
  let freeHead := word heap m (2 * i + 17)
  if freeHead ≠ 0 ∧ s.toVir freeHead ≠ 0 then
    let r := popBlock s heap m pt i (s.toVir freeHead)
    .ret r.1 r.2
  else
    match shmallocLarge s heap fuel m 4096 with
    | .bug => .bug
    | .spin => .spin
    | .ret page m => if page = 0 then .ret 0 m else .ret page (carvePage s heap m pt i page)

def shmalloc (fuel : Nat) (m : Mem) (size : Nat) : Out Mem Nat :=
  if size = 0 then .ret 0 m
  else if size > 0x800 then shmallocLarge s heap fuel m size
  else shmallocSmall s heap fuel m (if size ≤ 7 then 8 else size)

def walkForward (m : Mem) (pt target : Nat) : Nat → Nat → Option Nat
  | 0, _ => none
  | f + 1, cur =>
    let cur := ld m (pteAddr pt cur 1)
    if cur = 0 then some 0
    else if target > cur then walkForward m pt target f cur
    else some cur

def walkBackward (m : Mem) (pt target : Nat) : Nat → Nat → Option Nat
  | 0, _ => none
  | f + 1, cur =>
    let cur := ld m (pteAddr pt cur 2)
    if target < cur then walkBackward m pt target f cur else some cur

def searchPlace (m : Mem) (pt target start fuel : Nat) : Option Nat :=
  if target ≥ start then walkForward m pt target fuel start
  else (walkBackward m pt target fuel start).map fun cur =>
    ld m (pteAddr pt (ld m (pteAddr pt cur 2)) 1)

def joinPrev (m : Mem) (pt p pages prev : Nat) : Nat × Mem :=
  let prevCount := ld m (pteAddr pt prev 0)
  if p = (prev + prevCount) % 2 ^ 32 then (prev, st m (pteAddr pt prev 0) (prevCount + pages))
  else
    let m := st m (pteAddr pt p 0) pages
    let m := st m (pteAddr pt p 1) (ld m (pteAddr pt prev 1))
    let m := st m (pteAddr pt p 2) prev
    let m := st m (pteAddr pt prev 1) p
    -- the entry written is the one in front of `prev`, not the one behind `p`
    let m := st m (pteAddr pt (ld m (pteAddr pt prev 2)) 2) p
    (p, addWord heap m 43 1)

def joinNext (m : Mem) (pt merged cur : Nat) : Mem :=
  if (merged + ld m (pteAddr pt merged 0)) % 2 ^ 32 = cur then
    let m := st m (pteAddr pt merged 0) (ld m (pteAddr pt merged 0) + ld m (pteAddr pt cur 0))
    let next := ld m (pteAddr pt cur 1)
    let m := st m (pteAddr pt merged 1) next
    let m := st m (pteAddr pt next 2) merged
    subWord heap m 43 1
  else m

def trim (m : Mem) (pt merged : Nat) : Mem :=
  let count := ld m (pteAddr pt merged 0)
  if count > 7 ∧ (merged + count) % 2 ^ 32 = word heap m 4 then
    if brkAddr s heap m 0 = (pageAddr (dataBase s heap m) merged + count * 4096) % 2 ^ 32 then
      let m := subWord heap m 4 count
      let m := (shmallocBrk s heap m (sub32 0 (count * 4096))).2
      let m := st m (pteAddr pt (ld m (pteAddr pt merged 2)) 1) (ld m (pteAddr pt merged 1))
      let m := st m (pteAddr pt (ld m (pteAddr pt merged 1)) 2) (ld m (pteAddr pt merged 2))
      let m := subWord heap m 43 1
      subWord heap m 44 (ld m (pteAddr pt merged 0) * 4096)
    else m
  else m

def freeRun (fuel : Nat) (m : Mem) (pt p pages : Nat) : Out Mem Unit :=
  let m := subWord heap m 42 (pages * 4096)
  let m := addWord heap m 44 (pages * 4096)
  match searchPlace m pt p (word heap m 3) fuel with
  | none => .spin
  | some cur =>
    -- `+ 4`: the run behind `cur`, although the one in front is meant
    let prev := ld m (pteAddr pt cur 1)
    let r := joinPrev heap m pt p pages prev
    let m := joinNext heap r.2 pt r.1 cur
    let m := trim s heap m pt r.1
    .ret () (setWord heap m 3 r.1)

def unlinkPage (c page : Nat) : Nat → Nat → Mem → Bool × Mem
  | 0, _, m => (true, m)
  | k + 1, cur, m =>
    if cur = 0 then (true, m)
    else
      let vir := s.toVir cur
      if ¬ InBounds s heap m vir ∨ vir % 4 ≠ 0 then (false, m)
      else if vir / 4096 = page then
        let next := ld m vir
        let prev := ld m (vir + 4)
        let m := if s.smmPhy2vir next ≠ 0 then st m (s.smmPhy2vir next + 4) prev else m
        let m := if s.smmPhy2vir prev ≠ 0 then st m (s.smmPhy2vir prev) next
          else setWord heap m (2 * c + 17) next
        unlinkPage c page k next m
      else unlinkPage c page k (ld m vir) m

def pushFree (m : Mem) (pt p c vaddr : Nat) : Mem :=
  let oldHead := word heap m (2 * c + 17)
  let m := st m vaddr oldHead
  let m := st m (vaddr + 4) (s.toPhy (heap + 4 * (2 * c + 17)))
  let m :=
    if oldHead ≠ 0 ∧ InBounds s heap m (s.toVir oldHead) ∧ s.toVir oldHead % 4 = 0 then
      st m (s.toVir oldHead + 4) (s.toPhy vaddr)
    else m
  let m := setWord heap m (2 * c + 17) (s.smmVir2phy vaddr)
  let m := st m (pteAddr pt p 1) (ld m (pteAddr pt p 1) + 1)
  st m (pteAddr pt p 2) (ld m vaddr % 4096 / 2 ^ c)

def freeBlock (fuel : Nat) (m : Mem) (pt p c vaddr : Nat) : Out Mem Unit :=
  if ¬ InBounds s heap m vaddr ∨ vaddr % 4 ≠ 0 then .ret () m
  else
    let allocCount := ld m (pteAddr pt p 1)
    let m := subWord heap m 42 (2 ^ c)
    let m := addWord heap m 44 (2 ^ c)
    let m := addWord heap m 43 1
    -- `heap[2 * c + 5]`, although the pages of the class are counted in `heap[c + 5]`
    if allocCount = sub32 (4096 / 2 ^ c) 1 ∧ word heap m (2 * c + 5) > 1 then
      let subCount := 4096 / 2 ^ c
      let m := subWord heap m (2 * c + 5) 1
      let r := unlinkPage s heap c (vaddr / 4096) (subCount - 1) (word heap m (2 * c + 17)) m
      if r.1 then
        let m := subWord heap r.2 43 1
        let m := subWord heap m 43 (subCount - 1)
        let m := addWord heap m 42 (sub32 4096 (2 ^ c))
        let m := subWord heap m 44 (sub32 4096 (2 ^ c))
        let p := sub32 (vaddr / 4096 * 4096) (dataBase s heap m) / 4096 + 1
        let m := st m (pteAddr pt p 0) 0
        let m := st m (pteAddr pt p 1) 1
        freeRun s heap fuel (addWord heap m 41 1) pt p 1
      else .ret () r.2
    else .ret () (pushFree s heap m pt p c vaddr)

def shfree (fuel : Nat) (m : Mem) (vaddr : Nat) : Out Mem Unit :=
  let pt := pageTable s heap m
  let p := sub32 vaddr (dataBase s heap m) / 4096 + 1
  let m := subWord heap m 41 1
  let c := ld m (pteAddr pt p 0)
  if c = 0 then freeRun s heap fuel m pt p (ld m (pteAddr pt p 1))
  else freeBlock s heap fuel m pt p c vaddr

def initHeap (m : Mem) (size : Nat) : Mem :=
  let pageCount := (size + 4095) % 2 ^ 32 / 4096
  let m : Mem := ⟨fun a => if heap ≤ a ∧ a < heap + 4096 then 0 else m.cell a⟩
  let m := setWord heap m 0 (s.toPhy (heap + 4096))
  let m := setWord heap m 1 (s.toPhy (heap + 4096))
  let m := setWord heap m 2 pageCount
  let m := setWord heap m 45 ((12 * pageCount + 4095) % 2 ^ 32 / 4096 * 4096 + 4096)
  let m := setWord heap m 46 size
  setWord heap m 47 (s.toPhy heap)

end

structure Slot where
  base : Nat
  size : Nat

structure Heaps where
  mem : Mem
  slot : Nat → Slot

section

variable (s : Shm)

def tridSMMInit (h : Heaps) (base size : Nat) : Heaps :=
  let heap := (base + 4095) % 2 ^ 32 / 4096 * 4096
  { mem := initHeap s heap h.mem size
    slot := Function.update h.slot 0 ⟨s.toPhy heap, size⟩ }

def effectiveSlot (slot : Int) (attr : Nat) : Option Nat :=
  if slot < 0 then
    if attr.testBit 0 then some 1
    else if ¬ attr.testBit 2 then none
    else if ¬ attr.testBit 1 then none
    else some 0
  else if slot > 1 then none
  else some slot.toNat

def smmMalloc (fuel : Nat) (h : Heaps) (slot : Int) (size attr : Nat) : Out Heaps Nat :=
  match effectiveSlot slot attr with
  | none => .bug
  | some k =>
    if (h.slot k).base = 0 then .ret 0 h
    else
      let allocSize := if size ≤ 0x800 ∧ k % 2 = 1 then 2049 else size
      match shmalloc s (s.toVir (h.slot k).base) fuel h.mem allocSize with
      | .bug => .bug
      | .spin => .spin
      | .ret r m => .ret (s.smmVir2phy r) { h with mem := m }

def tridSMMMalloc (fuel : Nat) (h : Heaps) (size : Nat) : Out Heaps Nat := smmMalloc s fuel h 0 size 0

def ownerSlot (h : Heaps) (phy : Nat) : Option Nat :=
  if phy ≥ (h.slot 0).base ∧ phy < ((h.slot 0).base + (h.slot 0).size) % 2 ^ 32 then some 0
  else if phy < (h.slot 1).base ∨ phy ≥ ((h.slot 1).base + (h.slot 1).size) % 2 ^ 32 then none
  else some 1

def tridSMMFree (fuel : Nat) (h : Heaps) (midAddr : Nat) : Out Heaps Unit :=
  if midAddr = 0 then .ret () h
  else
    match ownerSlot h midAddr with
    | none => .bug
    | some k =>
      if (h.slot k).base = 0 then .ret () h
      else
        match shfree s (s.toVir (h.slot k).base) fuel h.mem (s.toVir midAddr) with
        | .bug => .bug
        | .spin => .spin
        | .ret _ m => .ret () { h with mem := m }

end

end H713.Smm
