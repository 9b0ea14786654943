import H713.Lib.Bytes
import H713.Lib.Run

/-!
# Routine.Table

The shared-memory routine table (`cpu_comm_rpc.c`): 1024 primary slots indexed by `comp_id & 0x3FF`, 200 overflow
slots behind them, 96 bytes each, with the next slot of the chain at byte 92. Every chain walk of the source is a
`while` loop without a step counter; here it carries fuel, and `none` means that it has not ended yet.
-/

namespace H713.Routine

open Bytes

def cpuCommMagic : Nat := 0xDEADBEEF

def rtPrimarySlots : Nat := 1024

def rtOverflowStart : Nat := 1024

def rtMaxIndex : Nat := 1223

def walkFuel : Nat := rtMaxIndex + 2

def eInval : Int := -22

def getCurCPUID : Nat := 0

def name (d : Buf) : Nat := rd d 0 2

def cpu (d : Buf) : Nat := rd d 2 2

def flags (d : Buf) : Nat := rd d 4 4

def compId (d : Buf) : Nat := rd d 8 4

def pid (d : Buf) : Nat := rd d 28 4

def link (d : Buf) : Int := toI32 (rd d 92 4)

structure Table where
  magic1 : Nat
  magic2 : Nat
  version : Nat
  count : Nat
  entry : Nat → Buf
  lock2 : Nat

namespace Table

def rtCompId (t : Table) (i : Nat) : Nat := compId (t.entry i)

def rtNext (t : Table) (i : Nat) : Int := link (t.entry i)

def setEntry (t : Table) (i : Nat) (d : Buf) : Table :=
  { t with entry := Function.update t.entry i d }

def rtSetNext (t : Table) (i : Nat) (n : Int) : Table :=
  t.setEntry i (wr (t.entry i) 92 4 (ofI32 n))

def clearCompId (t : Table) (i : Nat) : Table :=
  t.setEntry i (wr (t.entry i) 8 4 0)

def enter (t : Table) : Table :=
  { t with lock2 := t.lock2 + 1, version := (t.version + 1) % 2 ^ 32 }

def leave (t : Table) : Table :=
  { t with lock2 := t.lock2 - 1, version := (t.version + 1) % 2 ^ 32 }

def incCount (t : Table) : Table := { t with count := (t.count + 1) % 2 ^ 32 }

def decCount (t : Table) : Table :=
  { t with count := if t.count = 0 then 2 ^ 32 - 1 else t.count - 1 }

end Table

def hashIdx (key : Nat) : Nat := key % rtPrimarySlots

def install (t : Table) (i : Nat) (d : Buf) : Table :=
  ((t.setEntry i d).rtSetNext i (-1)).incCount

def findWalk (t : Table) (key : Nat) : Nat → Nat → Option (Option Nat)
  | 0, _ => none
  | fuel + 1, cur =>
    if cur > rtMaxIndex then some none
    else if t.rtCompId cur = key then some (some cur)
    else if t.rtNext cur < 0 then some none
    else findWalk t key fuel (t.rtNext cur).toNat

def copyOut (buf e : Buf) : Buf :=
  let b := wr buf 0 2 (rd e 0 2)
  let b := wr b 8 4 (rd e 8 4)
  let b := wr b 2 2 (rd e 2 2)
  let b := wr b 80 8 (rd e 80 8)
  let b := wr b 4 4 (rd e 4 4)
  cpy b 12 e 12 64

def findRoutineExFuel (fuel : Nat) (t : Table) (key : Nat) (buf : Buf) : Option (Int × Buf) :=
  if t.magic1 ≠ cpuCommMagic then some (1, buf)
  else if t.magic2 ≠ cpuCommMagic then some (1, buf)
  else if toI32 t.count > rtMaxIndex then some (1, buf)
  else
    match findWalk t key fuel (hashIdx key) with
    | none => none
    | some none => some (1, buf)
    | some (some i) => some (0, copyOut buf (t.entry i))

def findRoutineEx (t : Table) (key : Nat) (buf : Buf) : Option (Int × Buf) :=
  findRoutineExFuel walkFuel t key buf

inductive ChainEnd where
  | corrupt
  | stop (prev : Option Nat) (cur : Option Nat)
deriving DecidableEq, Repr

def chainEnd (t : Table) : Nat → Option Nat → Nat → Option ChainEnd
  | 0, _, _ => none
  | fuel + 1, prev, cur =>
    if t.rtCompId cur = 0 then some (.stop prev (some cur))
    else if cpu (t.entry cur) > 1 then some .corrupt
    else if t.rtNext cur < 0 then some (.stop (some cur) none)
    else if t.rtNext cur > rtMaxIndex then some .corrupt
    else chainEnd t fuel (some cur) (t.rtNext cur).toNat

def freeOverflow (t : Table) : Option Nat :=
  (List.range' rtOverflowStart (rtMaxIndex + 1 - rtOverflowStart)).find? fun i => t.rtCompId i = 0

def linkPrev (t : Table) (prev : Option Nat) (i : Nat) : Table :=
  match prev with
  | some p => t.rtSetNext p i
  | none => t

def addOverflow (t : Table) (d : Buf) (prev : Option Nat) : Out Table Int :=
  match freeOverflow t with
  | none => .ret (-2) t.leave
  | some o =>
    -- this return leaves spinlock 2 held and the version odd
    if t.rtNext o ≠ -1 then .ret eInval t
    else .ret 0 (linkPrev ((t.setEntry o d).rtSetNext o (-1)) prev o).incCount.leave

def addLocked (t : Table) (d : Buf) : Out Table Int :=
  let h := hashIdx (compId d)
  if t.rtCompId h = 0 ∧ t.rtNext h = -1 then .ret 0 (install t h d).leave
  else
    match chainEnd t walkFuel none h with
    | none => .spin
    | some .corrupt => .ret eInval t
    | some (.stop prev (some cur)) =>
      if t.rtNext cur = -1 then .ret 0 (install t cur d).leave else addOverflow t d prev
    | some (.stop prev none) => addOverflow t d prev

def addInRoutine (t : Table) (d : Buf) : Out Table Int :=
  if t.magic1 ≠ cpuCommMagic then .ret eInval t
  else if t.magic2 ≠ cpuCommMagic then .ret eInval t
  else if toI32 t.count > rtMaxIndex then .ret eInval t
  else
    match findRoutineEx t (compId d) (fun _ => 0) with
    | none => .spin
    | some (r, _) => if r = 0 then .ret 0 t else addLocked t.enter d

inductive Lookup where
  | found (i : Nat)
  | missing
  | bug
deriving DecidableEq, Repr

def removeWalk (t : Table) (key : Nat) : Nat → Nat → Option Lookup
  | 0, _ => none
  | fuel + 1, cur =>
    if t.rtCompId cur = key then some (.found cur)
    else if t.rtNext cur < 0 then some .missing
    else if t.rtNext cur > rtMaxIndex then some .bug
    else removeWalk t key fuel (t.rtNext cur).toNat

def unlink (t : Table) (i : Nat) : Table :=
  let t := t.clearCompId i
  let n := t.rtNext i
  if 0 ≤ n ∧ n ≤ rtMaxIndex then
    let t := t.setEntry i (t.entry n.toNat)
    let t := t.rtSetNext i (t.rtNext n.toNat)
    let t := t.clearCompId n.toNat
    t.rtSetNext n.toNat (-1)
  else t

def removeResult (t : Table) (i : Nat) (d : Buf) (ourCpu : Nat) : Int :=
  if name d = name (t.entry i) ∧ flags d = flags (t.entry i) ∧ cpu (t.entry i) = ourCpu then 0 else 1

def removeRoutine (t : Table) (d : Buf) (ourCpu : Nat) : Out Table Int :=
  if t.magic1 ≠ cpuCommMagic then .bug
  else if t.magic2 ≠ cpuCommMagic then .bug
  else if toI32 t.count > rtMaxIndex then .bug
  else
    let t := t.enter
    match removeWalk t (compId d) walkFuel (hashIdx (compId d)) with
    | none => .spin
    | some .bug => .bug
    | some .missing => .ret (-1) t.leave
    | some (.found i) =>
      if cpu (t.entry i) > 1 then .bug
      else
        let t := (unlink t i).decCount
        .ret (removeResult t i d ourCpu) t.leave

def cleanSlot (p : Buf → Bool) (t : Table) (i : Nat) : Table :=
  if t.rtCompId i = 0 then t
  else if p (t.entry i) then (t.clearCompId i).decCount
  else t

def cleanWhere (p : Buf → Bool) (t : Table) : Table :=
  ((List.range (rtMaxIndex + 1)).foldl (cleanSlot p) t.enter).leave

def removePidRoutines (t : Table) (pidVal : Nat) : Table :=
  cleanWhere (fun e => pid e = pidVal) t

def routineCleanupInCPUReset (t : Table) (cpuId : Nat) : Table :=
  cleanWhere (fun e => cpu e = cpuId) t

def empty : Table where
  magic1 := cpuCommMagic
  magic2 := cpuCommMagic
  version := 0
  count := 0
  entry := fun _ => wr (wr (fun _ => 0) 8 4 0) 92 4 (ofI32 (-1))
  lock2 := 0

inductive Op where
  | add (d : Buf)
  | remove (d : Buf)
  | removePid (pidVal : Nat)
  | cpuReset (cpuId : Nat)

def step (t : Table) : Op → Out Table Int
  | .add d => addInRoutine t d
  | .remove d => removeRoutine t d getCurCPUID
  | .removePid p => .ret 0 (removePidRoutines t p)
  | .cpuReset c => .ret 0 (routineCleanupInCPUReset t c)

/-- `FindRoutineEx(k)` returns 0. -/
def Findable (t : Table) (key : Nat) : Prop :=
  ∃ buf, findRoutineEx t key (fun _ => 0) = some (0, buf)

end H713.Routine
