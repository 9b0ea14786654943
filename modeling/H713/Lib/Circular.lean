import Mathlib.Data.List.Basic

/-!
# Lib.Circular

Index arithmetic of a ring with one slot left free (`len`, `next`, `nth`), and the queue such a ring is meant to be
(`Accepts`).
-/

namespace H713.Circular

open Function

def next (cap i : Nat) : Nat := (i + 1) % cap

def len (cap rd wr : Nat) : Nat := if rd ≤ wr then wr - rd else cap - rd + wr

def nth (cap rd j : Nat) : Nat := (rd + j) % cap

variable {cap rd wr j : Nat}

theorem next_eq (h : rd < cap) : next cap rd = if rd + 1 = cap then 0 else rd + 1 := by
  simp only [next]
  split
  · rename_i he; rw [he, Nat.mod_self]
  · exact Nat.mod_eq_of_lt (by omega)

theorem next_lt (h : rd < cap) : next cap rd < cap := Nat.mod_lt _ (by omega)

theorem nth_eq (hr : rd < cap) (hj : j ≤ cap) : nth cap rd j = if rd + j < cap then rd + j else rd + j - cap := by
  simp only [nth]
  split
  · exact Nat.mod_eq_of_lt (by assumption)
  · rw [Nat.mod_eq_sub_mod (by omega), Nat.mod_eq_of_lt (by omega)]

theorem nth_lt (hr : rd < cap) : nth cap rd j < cap := Nat.mod_lt _ (by omega)

theorem nth_zero (hr : rd < cap) : nth cap rd 0 = rd := Nat.mod_eq_of_lt hr

theorem nth_next : nth cap (next cap rd) j = nth cap rd (j + 1) := by
  simp only [nth, next, Nat.mod_add_mod]
  congr 1
  omega

theorem len_lt (hr : rd < cap) (hw : wr < cap) : len cap rd wr < cap := by
  simp only [len]
  split <;> omega

theorem len_eq_zero (hr : rd < cap) : len cap rd wr = 0 ↔ rd = wr := by
  simp only [len]
  split <;> omega

theorem len_self : len cap rd rd = 0 := by simp [len]

section

variable (hr : rd < cap) (hw : wr < cap)

include hr hw

theorem full_iff : rd = next cap wr ↔ len cap rd wr = cap - 1 := by
  rw [next_eq hw]
  simp only [len]
  split <;> split <;> omega

theorem len_put (h : rd ≠ next cap wr) : len cap rd (next cap wr) = len cap rd wr + 1 := by
  rw [next_eq hw] at h ⊢
  simp only [len]
  split_ifs at h ⊢ <;> omega

theorem len_take (h : rd ≠ wr) : len cap (next cap rd) wr + 1 = len cap rd wr := by
  rw [next_eq hr]
  simp only [len]
  split_ifs <;> omega

theorem nth_len : nth cap rd (len cap rd wr) = wr := by
  rw [nth_eq hr (Nat.le_of_lt (len_lt hr hw))]
  simp only [len]
  split_ifs <;> omega

theorem nth_ne (hj : j < len cap rd wr) : nth cap rd j ≠ wr := by
  have hlt := len_lt hr hw
  rw [nth_eq hr (by omega)]
  simp only [len] at hj
  split_ifs at hj ⊢ <;> omega

end

section

variable {α : Type} {slot : Nat → α}

/-- The items from `rd` up to `wr`, in order. -/
def contents (cap : Nat) (slot : Nat → α) (rd wr : Nat) : List α :=
  (List.range (len cap rd wr)).map fun j => slot (nth cap rd j)

theorem length_contents : (contents cap slot rd wr).length = len cap rd wr := by
  simp [contents]

theorem contents_self : contents cap slot rd rd = [] := by
  simp [contents, len_self]

theorem contents_put (hr : rd < cap) (hw : wr < cap) (h : rd ≠ next cap wr) (x : α) :
    contents cap (update slot wr x) rd (next cap wr) = contents cap slot rd wr ++ [x] := by
  simp only [contents, len_put hr hw h, List.range_succ, List.map_append, List.map_singleton,
    nth_len hr hw, update_self]
  congr 1
  apply List.map_congr_left
  intro j hj
  exact update_of_ne (nth_ne hr hw (List.mem_range.mp hj)) _ _

theorem contents_take (hr : rd < cap) (hw : wr < cap) (h : rd ≠ wr) :
    contents cap slot rd wr = slot rd :: contents cap slot (next cap rd) wr := by
  simp only [contents, ← len_take hr hw h, List.range_succ_eq_map, List.map_cons, List.map_map,
    nth_zero hr, nth_next]
  rfl

def push (n : Nat) (q : List α) (x : α) : List α :=
  if q.length < n then q ++ [x] else q.tail ++ [x]

theorem push_sublist (n : Nat) (q : List α) (x : α) : (push n q x).Sublist (q ++ [x]) := by
  simp only [push]
  split
  · exact List.Sublist.refl _
  · exact (List.tail_sublist q).append (List.Sublist.refl _)

end

inductive Event (α : Type) where
  | put (x : α)
  | take (x : α)

inductive Accepts {α : Type} (n : Nat) : List (Event α) → List α → Prop where
  | nil : Accepts n [] []
  | put {tr : List (Event α)} {q : List α} {x : α} :
      Accepts n tr q → q.length < n → Accepts n (tr ++ [.put x]) (q ++ [x])
  | take {tr : List (Event α)} {q : List α} {x : α} :
      Accepts n tr (x :: q) → Accepts n (tr ++ [.take x]) q

def puts {α : Type} (tr : List (Event α)) : List α :=
  tr.filterMap fun | .put x => some x | .take _ => none

def takes {α : Type} (tr : List (Event α)) : List α :=
  tr.filterMap fun | .put _ => none | .take x => some x

theorem Accepts.fifo {α : Type} {n : Nat} {tr : List (Event α)} {q : List α} (h : Accepts n tr q) :
    puts tr = takes tr ++ q := by
  induction h with
  | nil => rfl
  | put _ _ ih | take _ ih =>
    simp only [puts, takes, List.filterMap_append] at ih ⊢
    simp [ih]

end H713.Circular
