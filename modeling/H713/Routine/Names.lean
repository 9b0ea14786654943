import Mathlib.Order.Interval.Finset.Nat
import H713.Lib.CString
import H713.Routine.Links

/-!
# Routine.Names

Routines by name. `Comm_Name2ID` goes through 1224 records of 96 bytes from the component pool on, which starts
where the routine table ends, and never reads an entry of the table.
-/

namespace H713.Routine.Names

open Bytes

def rtTableOff : Nat := 30152

def rtEntrySize : Nat := 96

def compPoolOff : Nat := 147656

structure Shared where
  table : Table
  rest : Buf

def Shared.mem (s : Shared) : Buf := fun a =>
  if rtTableOff ≤ a ∧ a < rtTableOff + rtEntrySize * (rtMaxIndex + 1) then
    s.table.entry ((a - rtTableOff) / rtEntrySize) ((a - rtTableOff) % rtEntrySize)
  else s.rest a

def record (i : Nat) : Nat := compPoolOff + 8 + i * 96

def matchesAt (mem : Buf) (nm : List Byte) (i : Nat) : Bool :=
  rd mem (record i + 8) 4 ≠ 0 && strneq mem (record i + 12) (cstr nm) 0 32

def firstRecord (mem : Buf) (nm : List Byte) : Option Nat :=
  ((List.range 1224).find? (matchesAt mem nm)).map fun i => rd mem (record i + 8) 4

def commName2ID (mem : Buf) (nm : List Byte) : Int := (firstRecord mem nm).elim (-1) toI32

def hex (n : Nat) : List Byte := (Nat.toDigits 16 n).map fun c => BitVec.ofNat 8 c.toNat

def hex3 (n : Nat) : List Byte := List.replicate (3 - (hex n).length) 0x30 ++ hex n

def notifyName (nm : List Byte) (p : Nat → Nat) : List Byte :=
  (nm ++ 0x5f :: hex (toI32 (p 11) % 2 ^ 64).toNat ++ 0x5f :: hex3 (p 12 &&& 0xfff)).take 63

def cpuCommNotify (mem : Buf) (nm : List Byte) (p : Nat → Nat) (tgid : Nat) : Option Buf :=
  if toI32 (p 0) > 10 then none
  else
    let b : Buf := fun _ => 0
    let b := wr b 40 4 (ofI32 (commName2ID mem (notifyName nm p)))
    let b := wr b 32 4 tgid
    let b := wr b 8 2 (p 0)
    let b := wr b 6 2 0
    let b := wrWords b 44 (fun i => p (i + 1)) (toI32 (p 0)).toNat
    some (wr b 6 2 (rd b 6 2 ||| 1))

/-- Slot `i` has an entry with the name at byte 12. -/
def Named (t : Table) (nm : List Byte) (i : Nat) : Prop :=
  i ≤ rtMaxIndex ∧ t.rtCompId i ≠ 0 ∧ strneq (t.entry i) 12 (cstr nm) 0 32 = true
deriving Decidable

/-- The lookup of `nm` returns the id of an entry with that name, or -1 when there is none, and a notification
under that name carries the id. -/
structure NamesRight (s : Shared) (nm : List Byte) : Prop where
  found : (∃ i, Named s.table nm i) → ∃ i, Named s.table nm i ∧
    commName2ID s.mem nm = toI32 (s.table.rtCompId i)
  absent : (¬ ∃ i, Named s.table nm i) → commName2ID s.mem nm = -1
  addressed : ∀ base p tgid msg, notifyName base p = nm → cpuCommNotify s.mem base p tgid = some msg →
    (∃ i, Named s.table nm i) → ∃ i, Named s.table nm i ∧ rd msg 40 4 = s.table.rtCompId i

/-- The first record with the name has the id of an entry with it; without a record there is no entry. The id
that reads as -1 counts for none. -/
def RecordsAgree (s : Shared) (nm : List Byte) : Prop :=
  (∀ id, firstRecord s.rest nm = some id → (∃ i, Named s.table nm i ∧ s.table.rtCompId i = id) ∨
    ((¬ ∃ i, Named s.table nm i) ∧ id = 2 ^ 32 - 1)) ∧
  (firstRecord s.rest nm = none → (∃ i, Named s.table nm i) →
    ∃ i, Named s.table nm i ∧ s.table.rtCompId i = 2 ^ 32 - 1)

section

variable {s : Shared} {nm : List Byte}

theorem mem_of_le {a : Nat} (h : compPoolOff ≤ a) : s.mem a = s.rest a := by
  have hbehind : ¬ (rtTableOff ≤ a ∧ a < rtTableOff + rtEntrySize * (rtMaxIndex + 1)) := by
    simp only [rtTableOff, rtEntrySize, rtMaxIndex, compPoolOff] at *
    omega
  exact if_neg hbehind

theorem rd_mem_record (i : Nat) {off n : Nat} : rd s.mem (record i + off) n = rd s.rest (record i + off) n := by
  refine rd_congr fun a ha _ => mem_of_le ?_
  simp only [record] at ha
  omega

theorem matchesAt_mem (i : Nat) : matchesAt s.mem nm i = matchesAt s.rest nm i := by
  have hname : strneq s.mem (record i + 12) (cstr nm) 0 32 = strneq s.rest (record i + 12) (cstr nm) 0 32 := by
    refine strneq_congr fun a ha _ => mem_of_le ?_
    simp only [record] at ha
    omega
  rw [matchesAt, matchesAt, rd_mem_record, hname]

theorem firstRecord_mem : firstRecord s.mem nm = firstRecord s.rest nm := by
  have hmatch : matchesAt s.mem nm = matchesAt s.rest nm := funext fun i => matchesAt_mem i
  simp only [firstRecord, hmatch, rd_mem_record]

theorem commName2ID_mem : commName2ID s.mem nm = (firstRecord s.rest nm).elim (-1) toI32 := by
  rw [commName2ID, firstRecord_mem]

theorem firstRecord_lt {mem : Buf} {id : Nat} (h : firstRecord mem nm = some id) : id < 2 ^ 32 := by
  obtain ⟨i, _, rfl⟩ := Option.map_eq_some_iff.mp h
  exact rd_lt _ _ _

end

theorem rtCompId_lt (t : Table) (i : Nat) : t.rtCompId i < 2 ^ 32 := rd_lt _ _ _

theorem toI32_inj {x y : Nat} (hx : x < 2 ^ 32) (hy : y < 2 ^ 32) : toI32 x = toI32 y ↔ x = y := by
  constructor
  · intro h
    rw [← ofI32_toI32 hx, h, ofI32_toI32 hy]
  · rintro rfl; rfl

theorem toI32_eq_neg_one {x : Nat} (hx : x < 2 ^ 32) : toI32 x = -1 ↔ x = 2 ^ 32 - 1 := by
  rw [← toI32_inj hx (by decide)]
  rfl

theorem rd_notify {mem : Buf} {nm : List Byte} {p : Nat → Nat} {tgid : Nat} {msg : Buf}
    (h : cpuCommNotify mem nm p tgid = some msg) : rd msg 40 4 = ofI32 (commName2ID mem (notifyName nm p)) := by
  unfold cpuCommNotify at h
  split at h
  · cases h
  · cases h
    have hlt := ofI32_lt (commName2ID mem (notifyName nm p))
    rw [rd_wr_of_disjoint (by omega), rd_wrWords_of_disjoint _ _ _ _ (by omega), rd_wr_of_disjoint (by omega),
      rd_wr_of_disjoint (by omega), rd_wr_of_disjoint (by omega), rd_wr_same]
    exact Nat.mod_eq_of_lt hlt

theorem namesRight_of {s : Shared} {nm : List Byte} (hfound : (∃ i, Named s.table nm i) → ∃ i, Named s.table nm i ∧
      commName2ID s.mem nm = toI32 (s.table.rtCompId i))
    (habsent : (¬ ∃ i, Named s.table nm i) → commName2ID s.mem nm = -1) : NamesRight s nm := by
  refine ⟨hfound, habsent, ?_⟩
  rintro base p tgid msg rfl hmsg hreg
  obtain ⟨i, hi, hid⟩ := hfound hreg
  refine ⟨i, hi, ?_⟩
  rw [rd_notify hmsg, hid, ofI32_toI32 (rtCompId_lt _ _)]

theorem namesRight_iff (s : Shared) (nm : List Byte) : NamesRight s nm ↔ RecordsAgree s nm := by
  have hresult : commName2ID s.mem nm = (firstRecord s.rest nm).elim (-1) toI32 := commName2ID_mem
  cases hrec : firstRecord s.rest nm with
  | none =>
    rw [hrec, Option.elim_none] at hresult
    have hid : ∀ i, commName2ID s.mem nm = toI32 (s.table.rtCompId i) ↔ s.table.rtCompId i = 2 ^ 32 - 1 := by
      intro i
      rw [hresult, eq_comm, toI32_eq_neg_one (rtCompId_lt _ _)]
    constructor
    · intro h
      refine ⟨fun id hsome => (by rw [hrec] at hsome; cases hsome), fun _ hreg => ?_⟩
      obtain ⟨i, hi, heq⟩ := h.found hreg
      exact ⟨i, hi, (hid i).mp heq⟩
    · intro h
      refine namesRight_of (fun hreg => ?_) fun _ => hresult
      obtain ⟨i, hi, heq⟩ := h.2 hrec hreg
      exact ⟨i, hi, (hid i).mpr heq⟩
  | some id =>
    rw [hrec, Option.elim_some] at hresult
    have hlt := firstRecord_lt hrec
    have hid : ∀ i, commName2ID s.mem nm = toI32 (s.table.rtCompId i) ↔ s.table.rtCompId i = id := by
      intro i
      rw [hresult, toI32_inj hlt (rtCompId_lt _ _), eq_comm]
    have hnone : commName2ID s.mem nm = -1 ↔ id = 2 ^ 32 - 1 := by
      rw [hresult, toI32_eq_neg_one hlt]
    constructor
    · intro h
      refine ⟨fun id' hsome => ?_, fun hno => (by rw [hrec] at hno; cases hno)⟩
      obtain rfl := Option.some.inj (hrec.symm.trans hsome)
      by_cases hreg : ∃ i, Named s.table nm i
      · obtain ⟨i, hi, heq⟩ := h.found hreg
        exact .inl ⟨i, hi, (hid i).mp heq⟩
      · exact .inr ⟨hreg, hnone.mp (h.absent hreg)⟩
    · intro h
      rcases h.1 id hrec with ⟨i, hi, heq⟩ | ⟨hno, heq⟩
      · exact namesRight_of (fun _ => ⟨i, hi, (hid i).mpr heq⟩) fun hno => absurd ⟨i, hi⟩ hno
      · exact namesRight_of (fun hreg => absurd hreg hno) fun _ => hnone.mpr heq

def planted (nm : List Byte) (id : Nat) : Buf :=
  cpy (wr (fun _ => 0) (record 0 + 8) 4 id) (record 0 + 12) (cstr nm) 0 32

theorem firstRecord_planted (nm : List Byte) {id : Nat} (hpos : 0 < id) (hlt : id < 2 ^ 32) :
    firstRecord (planted nm id) nm = some id := by
  have hword : rd (planted nm id) (record 0 + 8) 4 = id := by
    rw [planted, rd_cpy_of_disjoint (by omega), rd_wr_same]
    exact Nat.mod_eq_of_lt hlt
  have hname : strneq (planted nm id) (record 0 + 12) (cstr nm) 0 32 = true := strneq_cpy 32 0 (by omega)
  have hmatch : matchesAt (planted nm id) nm 0 = true := by
    simp only [matchesAt, hword, hname]
    simp
    omega
  have hfind : (List.range 1224).find? (matchesAt (planted nm id) nm) = some 0 := by
    rw [List.range_succ_eq_map, List.find?_cons_of_pos hmatch]
  rw [firstRecord, hfind, Option.map_some, hword]

theorem exists_unused (t : Table) : ∃ id, 0 < id ∧ id < 2 ^ 31 ∧ ∀ i ≤ rtMaxIndex, t.rtCompId i ≠ id := by
  have hcard : (slots.image t.rtCompId).card < (Finset.Icc 1 (rtMaxIndex + 2)).card := by
    refine Nat.lt_of_le_of_lt Finset.card_image_le ?_
    simp [slots]
  obtain ⟨id, hid, hno⟩ := Finset.exists_mem_notMem_of_card_lt_card hcard
  rw [Finset.mem_Icc] at hid
  refine ⟨id, hid.1, by simp only [rtMaxIndex] at hid; omega, fun i hi heq => hno ?_⟩
  exact Finset.mem_image.mpr ⟨i, mem_slots.mpr hi, heq⟩

/-- Whatever is in the table, and for every name: the lookup is right exactly when the records behind the
table agree with it, and some contents of that memory make it wrong. -/
theorem name2ID_right_iff (t : Table) (nm : List Byte) :
    (∀ rest, NamesRight ⟨t, rest⟩ nm ↔ RecordsAgree ⟨t, rest⟩ nm) ∧ ¬ ∀ rest, NamesRight ⟨t, rest⟩ nm := by
  refine ⟨fun rest => namesRight_iff _ nm, fun h => ?_⟩
  obtain ⟨id, hpos, hlt, hunused⟩ := exists_unused t
  have hrec : firstRecord (planted nm id) nm = some id := firstRecord_planted nm hpos (by omega)
  rcases ((namesRight_iff _ nm).mp (h (planted nm id))).1 id hrec with ⟨i, hi, heq⟩ | ⟨_, heq⟩
  · exact hunused i hi.1 heq
  · omega

def named (key : Nat) (nm : List Byte) : Buf := cpy (wr (fun _ => 0) 8 4 key) 12 (cstr nm) 0 32

def tv : List Byte := [0x74, 0x76]

theorem name2ID_right_iff_planted : ∃ t, Run step (fun _ _ => True) empty [.add (named 5 tv)] t ∧
    NamesRight ⟨t, planted tv 5⟩ tv := by
  refine Run.exists_of_exec_imp
    (P := fun t => Named t tv 5 ∧ t.rtCompId 5 = 5) (by decide +kernel) fun t hr hend => ?_
  obtain ⟨hnamed, hkey⟩ := hend
  have hrec : firstRecord (planted tv 5) tv = some 5 := firstRecord_planted tv (by decide) (by decide)
  refine ((name2ID_right_iff t tv).1 _).mpr ⟨fun id hid => ?_, fun hno => ?_⟩
  · obtain rfl := Option.some.inj (hrec.symm.trans hid)
    exact .inl ⟨5, hnamed, hkey⟩
  · rw [hrec] at hno
    cases hno

theorem name2ID_misses_routine : ∃ t, Run step (fun _ _ => True) empty [.add (named 5 tv)] t ∧
    Named t tv 5 ∧ (∀ i, Named t tv i → t.rtCompId i = 5) ∧
    commName2ID (Shared.mem ⟨t, fun _ => 0⟩) tv = -1 ∧ ¬ NamesRight ⟨t, fun _ => 0⟩ tv ∧
    commName2ID (Shared.mem ⟨t, planted tv 7⟩) tv = 7 ∧ ¬ NamesRight ⟨t, planted tv 7⟩ tv := by
  refine Run.exists_of_exec_imp
    (P := fun t => Named t tv 5 ∧ ∀ i ≤ rtMaxIndex, Named t tv i → t.rtCompId i = 5)
    (by decide +kernel) fun t hr hend => ?_
  obtain ⟨hnamed, hids⟩ := hend
  have honly : ∀ i, Named t tv i → t.rtCompId i = 5 := fun i hi => hids i hi.1 hi
  have hnone : firstRecord (fun _ => 0) tv = none := by decide +kernel
  have hzero : commName2ID (Shared.mem ⟨t, fun _ => 0⟩) tv = -1 := by
    rw [commName2ID, firstRecord_mem, hnone]
    rfl
  have hseven : commName2ID (Shared.mem ⟨t, planted tv 7⟩) tv = 7 := by
    rw [commName2ID_mem, firstRecord_planted tv (by decide) (by decide)]
    decide
  refine ⟨hnamed, honly, hzero, fun h => ?_, hseven, fun h => ?_⟩
  · obtain ⟨i, hi, heq⟩ := h.found ⟨5, hnamed⟩
    rw [hzero, honly i hi] at heq
    cases heq
  · obtain ⟨i, hi, heq⟩ := h.found ⟨5, hnamed⟩
    rw [hseven, honly i hi] at heq
    cases heq

end H713.Routine.Names
