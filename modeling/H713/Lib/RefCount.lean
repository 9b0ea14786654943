import Mathlib.Logic.Function.Basic

/-!
# Lib.RefCount

Objects with a reference count. A number names one object for ever, so a pointer to an object that has been freed
stays recognisable; `inc` and `put` fail on an object that is not there.
-/

namespace H713.RefCount

open Function

structure Heap (α : Type) where
  cell : Nat → Option (Nat × α)
  next : Nat

namespace Heap

variable {α : Type}

def empty : Heap α := ⟨fun _ => none, 0⟩

/-- The object has been created and not freed. -/
def Live (h : Heap α) (k : Nat) : Prop := (h.cell k).isSome
deriving Decidable

def count (h : Heap α) (k : Nat) : Nat := ((h.cell k).map Prod.fst).getD 0

def obj? (h : Heap α) (k : Nat) : Option α := (h.cell k).map Prod.snd

def alloc (h : Heap α) (a : α) : Heap α := ⟨update h.cell h.next (some (1, a)), h.next + 1⟩

def modify (h : Heap α) (k : Nat) (f : α → α) : Heap α :=
  { h with cell := update h.cell k ((h.cell k).map fun c => (c.1, f c.2)) }

def incr (h : Heap α) (k : Nat) : Heap α :=
  { h with cell := update h.cell k ((h.cell k).map fun c => (c.1 + 1, c.2)) }

def decr (h : Heap α) (k : Nat) : Heap α :=
  let o := (h.cell k).bind fun c => if c.1 ≤ 1 then none else some (c.1 - 1, c.2)
  { h with cell := update h.cell k o }

def inc (h : Heap α) (k : Nat) : Option (Heap α) := if h.Live k then some (h.incr k) else none

def put (h : Heap α) (k : Nat) : Option (Heap α × Option α) :=
  (h.cell k).map fun c => (h.decr k, if c.1 ≤ 1 then some c.2 else none)

structure WF (h : Heap α) : Prop where
  fresh : ∀ k, h.next ≤ k → h.cell k = none
  pos : ∀ k c, h.cell k = some c → 0 < c.1

theorem wf_empty : (empty : Heap α).WF := ⟨fun _ _ => rfl, fun _ _ h => by cases h⟩

variable {k : Nat}

theorem WF.count_pos {h : Heap α} (hw : h.WF) : 0 < h.count k ↔ h.Live k := by
  cases hc : h.cell k with
  | none => simp [count, Live, hc]
  | some c => simp [count, Live, hc, hw.pos k c hc]

theorem WF.lt_next {h : Heap α} (hw : h.WF) (hl : h.Live k) : k < h.next := by
  by_contra hge
  simp [Live, hw.fresh k (by omega)] at hl

theorem WF.count_alloc {h : Heap α} (hw : h.WF) (a : α) (k : Nat) :
    (h.alloc a).count k = h.count k + if k = h.next then 1 else 0 := by
  by_cases hk : k = h.next
  · subst hk
    simp [alloc, count, hw.fresh h.next (Nat.le_refl _)]
  · simp [alloc, count, hk]

@[simp] theorem count_modify (h : Heap α) (k : Nat) (f : α → α) (j : Nat) : (h.modify k f).count j = h.count j := by
  by_cases hj : j = k
  · subst hj
    cases hc : h.cell j <;> simp [modify, count, hc]
  · simp [modify, count, hj]

theorem count_incr {h : Heap α} (hl : h.Live k) (j : Nat) :
    (h.incr k).count j = h.count j + if j = k then 1 else 0 := by
  by_cases hj : j = k
  · subst hj
    obtain ⟨c, hc⟩ := Option.isSome_iff_exists.mp hl
    simp [incr, count, hc]
  · simp [incr, count, hj]

theorem count_decr (h : Heap α) (k j : Nat) : (h.decr k).count j = h.count j - if j = k then 1 else 0 := by
  by_cases hj : j = k
  · subst hj
    cases hc : h.cell j with
    | none => simp [decr, count, hc]
    | some c =>
      by_cases h1 : c.1 ≤ 1 <;> simp [decr, count, hc, h1]
  · simp [decr, count, hj]

theorem WF.decr_incr {h : Heap α} (hw : h.WF) (k : Nat) : (h.incr k).decr k = h := by
  have hcell : (h.cell k).bind (fun c => if c.1 + 1 ≤ 1 then none else some (c.1, c.2)) = h.cell k := by
    cases hc : h.cell k with
    | none => rfl
    | some c =>
      have hne : ¬ c.1 + 1 ≤ 1 := by
        have := hw.pos k c hc
        omega
      simp only [Option.bind_some, hne, if_false]
  simp only [decr, incr, update_self, Option.bind_map, Function.comp_def, Nat.add_sub_cancel,
    update_idem]
  rw [hcell, update_eq_self]

section

variable (h : Heap α)

include h

@[simp] theorem live_modify (k : Nat) (f : α → α) (j : Nat) : (h.modify k f).Live j ↔ h.Live j := by
  by_cases hj : j = k
  · subst hj
    simp [modify, Live]
  · simp [modify, Live, hj]

@[simp] theorem live_incr (k j : Nat) : (h.incr k).Live j ↔ h.Live j := by
  by_cases hj : j = k
  · subst hj
    simp [incr, Live]
  · simp [incr, Live, hj]

theorem live_alloc (a : α) (j : Nat) : (h.alloc a).Live j ↔ j = h.next ∨ h.Live j := by
  by_cases hj : j = h.next
  · subst hj
    simp [alloc, Live]
  · simp [alloc, Live, hj]

@[simp] theorem next_modify (k : Nat) (f : α → α) : (h.modify k f).next = h.next := rfl
@[simp] theorem next_incr (k : Nat) : (h.incr k).next = h.next := rfl
@[simp] theorem next_decr (k : Nat) : (h.decr k).next = h.next := rfl
@[simp] theorem next_alloc (a : α) : (h.alloc a).next = h.next + 1 := rfl

end

theorem inc_of_live {h : Heap α} (hl : h.Live k) : h.inc k = some (h.incr k) := if_pos hl

theorem put_of_two {h : Heap α} (h2 : 2 ≤ h.count k) : h.put k = some (h.decr k, none) := by
  cases hc : h.cell k with
  | none => simp [count, hc] at h2
  | some c =>
    have : ¬ c.1 ≤ 1 := by
      simp only [count, hc, Option.map_some, Option.getD_some] at h2
      omega
    simp [put, hc, this]

theorem put_of_one {h : Heap α} {a : α} (h1 : h.count k = 1) (ha : h.obj? k = some a) :
    h.put k = some (h.decr k, some a) := by
  cases hc : h.cell k with
  | none => simp [count, hc] at h1
  | some c =>
    simp only [count, hc, Option.map_some, Option.getD_some] at h1
    simp only [obj?, hc, Option.map_some, Option.some.injEq] at ha
    simp [put, hc, h1, ha]

theorem put_of_live {h : Heap α} (hl : h.Live k) : ∃ o, h.put k = some (h.decr k, o) := by
  obtain ⟨c, hc⟩ := Option.isSome_iff_exists.mp hl
  exact ⟨if c.1 ≤ 1 then some c.2 else none, by simp only [put, hc, Option.map_some]⟩

theorem put_of_not_live {h : Heap α} (hd : ¬ h.Live k) : h.put k = none := by
  have : h.cell k = none := by simpa [Live] using hd
  simp [put, this]

theorem obj?_of_not_live {h : Heap α} (hd : ¬ h.Live k) : h.obj? k = none := by
  have : h.cell k = none := by simpa [Live] using hd
  simp [obj?, this]

theorem obj?_of_live {h : Heap α} (hl : h.Live k) : ∃ a, h.obj? k = some a := by
  obtain ⟨c, hc⟩ := Option.isSome_iff_exists.mp hl
  exact ⟨c.2, by simp [obj?, hc]⟩

@[simp] theorem obj?_incr (h : Heap α) (k j : Nat) : (h.incr k).obj? j = h.obj? j := by
  by_cases hj : j = k
  · subst hj
    cases hc : h.cell j <;> simp [incr, obj?, hc]
  · simp [incr, obj?, hj]

theorem obj?_alloc (h : Heap α) (a : α) (j : Nat) :
    (h.alloc a).obj? j = if j = h.next then some a else h.obj? j := by
  by_cases hj : j = h.next <;> simp [alloc, obj?, hj]

theorem obj?_modify (h : Heap α) (k : Nat) (f : α → α) (j : Nat) :
    (h.modify k f).obj? j = if j = k then (h.obj? j).map f else h.obj? j := by
  by_cases hj : j = k
  · subst hj
    cases hc : h.cell j <;> simp [modify, obj?, hc]
  · simp [modify, obj?, hj]

theorem obj?_decr {h : Heap α} {j : Nat} {a : α} (ha : (h.decr k).obj? j = some a) : h.obj? j = some a := by
  by_cases hj : j = k
  · subst hj
    cases hc : h.cell j with
    | none => simp [decr, obj?, hc] at ha
    | some c =>
      simp only [decr, obj?, hc, update_self, Option.bind_some] at ha
      split at ha
      · cases ha
      · simpa [obj?, hc] using ha
  · simpa [decr, obj?, hj] using ha

theorem obj?_decr_of_ne (h : Heap α) {j : Nat} (hj : j ≠ k) : (h.decr k).obj? j = h.obj? j := by
  simp [decr, obj?, hj]

theorem put_eq_some {h h' : Heap α} {o : Option α} (hp : h.put k = some (h', o)) :
    h' = h.decr k ∧ h.Live k ∧ (o = none ∧ 2 ≤ h.count k ∧ h'.obj? = h.obj? ∨
      o ≠ none ∧ h.count k ≤ 1 ∧ h.obj? k = o ∧ h'.obj? k = none) := by
  obtain ⟨c, hc, heq⟩ := Option.map_eq_some_iff.mp hp
  obtain ⟨rfl, rfl⟩ := Prod.mk.inj heq
  refine ⟨rfl, by simp [Live, hc], ?_⟩
  by_cases h1 : c.1 ≤ 1
  · right
    simp [h1, obj?, hc, decr, count]
  · left
    have h2 : 2 ≤ h.count k := by
      simp only [count, hc, Option.map_some, Option.getD_some]
      omega
    refine ⟨if_neg h1, h2, funext fun j => ?_⟩
    by_cases hj : j = k
    · subst hj
      simp [obj?, hc, decr, h1]
    · exact h.obj?_decr_of_ne hj

theorem obj?_decr_of_two {h : Heap α} (h2 : 2 ≤ h.count k) : (h.decr k).obj? = h.obj? := by
  obtain ⟨-, -, ⟨-, -, hobj⟩ | ⟨hne, -⟩⟩ := put_eq_some (put_of_two h2)
  · exact hobj
  · exact absurd rfl hne

theorem obj?_decr_of_one {h : Heap α} (h1 : h.count k ≤ 1) : (h.decr k).obj? k = none := by
  cases hc : h.cell k with
  | none => simp [decr, obj?, hc]
  | some c =>
    have : c.1 ≤ 1 := by simpa [count, hc] using h1
    simp [decr, obj?, hc, this]

section

variable {h : Heap α} (hw : h.WF)

include hw

theorem WF.alloc (a : α) : (h.alloc a).WF where
  fresh := by
    intro k hk
    simp only [next_alloc] at hk
    simpa [Heap.alloc, show k ≠ h.next by omega] using hw.fresh k (by omega)
  pos := by
    intro k c hc
    by_cases hk : k = h.next
    · simp only [Heap.alloc, hk, update_self, Option.some.injEq] at hc
      simp [← hc]
    · simp only [Heap.alloc, ne_eq, hk, not_false_eq_true, update_of_ne] at hc
      exact hw.pos k c hc

theorem WF.update (k : Nat) {o : Option (Nat × α)} (hnone : h.cell k = none → o = none)
    (hpos : ∀ c, o = some c → 0 < c.1) : (Heap.mk (update h.cell k o) h.next).WF where
  fresh := by
    intro j hj
    by_cases hjk : j = k
    · subst hjk
      simpa using hnone (hw.fresh j hj)
    · simpa [hjk] using hw.fresh j hj
  pos := by
    intro j c hc
    by_cases hjk : j = k
    · subst hjk
      exact hpos c (by simpa using hc)
    · exact hw.pos j c (by simpa [hjk] using hc)

theorem WF.modify (k : Nat) (f : α → α) : (h.modify k f).WF := by
  refine hw.update k (fun hn => by simp [hn]) fun c hc => ?_
  obtain ⟨c', hc', rfl⟩ := Option.map_eq_some_iff.mp hc
  exact hw.pos k c' hc'

theorem WF.incr (k : Nat) : (h.incr k).WF := by
  refine hw.update k (fun hn => by simp [hn]) fun c hc => ?_
  obtain ⟨c', -, rfl⟩ := Option.map_eq_some_iff.mp hc
  exact Nat.succ_pos _

theorem WF.decr (k : Nat) : (h.decr k).WF := by
  refine hw.update k (fun hn => by simp [hn]) fun c hc => ?_
  obtain ⟨c', -, hc'⟩ := Option.bind_eq_some_iff.mp hc
  split at hc'
  · cases hc'
  · rw [← Option.some.inj hc']
    omega

end

end Heap

end H713.RefCount
