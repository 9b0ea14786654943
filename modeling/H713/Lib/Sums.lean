import Mathlib.Algebra.BigOperators.Group.Finset.Basic
import Mathlib.Order.Interval.Finset.Nat

/-!
# Lib.Sums

Sums over finite collections as a program's counters track them. `up` and `down` are such counters, one for each
name.
-/

namespace H713.Sums

open Function

theorem sum_update {ι β : Type} [DecidableEq ι] {S : Finset ι} {i : ι} (hi : i ∈ S) (F : ι → β → Nat)
    (f : ι → β) (x : β) : ∑ j ∈ S, F j (update f i x j) + F i (f i) = ∑ j ∈ S, F j (f j) + F i x := by
  rw [← Finset.add_sum_erase S _ hi, ← Finset.add_sum_erase S (fun j => F j (f j)) hi, update_self]
  have hrest : ∑ j ∈ S.erase i, F j (update f i x j) = ∑ j ∈ S.erase i, F j (f j) :=
    Finset.sum_congr rfl fun j hj => by rw [update_of_ne (Finset.ne_of_mem_erase hj)]
  omega

section

variable {ρ : Type} [DecidableEq ρ]

def up (c : ρ → Nat) (r : ρ) : ρ → Nat := update c r (c r + 1)

def down (c : ρ → Nat) (r : ρ) : ρ → Nat := update c r (c r - 1)

theorem up_apply (c : ρ → Nat) (r x : ρ) : up c r x = c x + if x = r then 1 else 0 := by
  by_cases h : x = r
  · subst h; simp [up]
  · simp [up, h]

theorem down_apply (c : ρ → Nat) (r x : ρ) : down c r x = c x - if x = r then 1 else 0 := by
  by_cases h : x = r
  · subst h; simp [down]
  · simp [down, h]

theorem foldl_down (l : List ρ) (c : ρ → Nat) (x : ρ) : l.foldl down c x = c x - l.count x := by
  induction l generalizing c with
  | nil => simp
  | cons r l ih =>
    rw [List.foldl_cons, ih, down_apply, List.count_cons]
    by_cases h : x = r
    · subst h; simp; omega
    · have h' : ¬ r = x := fun he => h he.symm
      simp [h, h']

end

theorem perm_of_key {α β : Type} [DecidableEq β] {f : α → β} {l : List α} {b : α} (hnd : (l.map f).Nodup)
    (hb : b ∈ l) : l.Perm (b :: l.filter fun x => f x ≠ f b) := by
  obtain ⟨A, B, rfl⟩ := List.append_of_mem hb
  rw [List.map_append, List.map_cons, List.nodup_middle, List.nodup_cons, ← List.map_append] at hnd
  have hkeep : (A ++ B).filter (fun x => f x ≠ f b) = A ++ B := by
    refine List.filter_eq_self.mpr fun x hx => decide_eq_true fun heq => hnd.1 ?_
    rw [← heq]
    exact List.mem_map_of_mem hx
  have hdrop : (A ++ b :: B).filter (fun x => f x ≠ f b) = A ++ B := by
    rw [← hkeep]
    simp
  rw [hdrop]
  exact List.perm_middle

/-- Intervals between `lo` and `hi` that do not overlap. -/
theorem sum_le_of_apart {ι : Type} {S : Finset ι} (first len : ι → Nat) (lo hi : Nat)
    (hin : ∀ i ∈ S, lo ≤ first i ∧ first i + len i ≤ hi)
    (hap : ∀ i ∈ S, ∀ j ∈ S, i ≠ j → first i + len i ≤ first j ∨ first j + len j ≤ first i) :
    ∑ i ∈ S, len i ≤ hi - lo := by
  classical
  have hdisj : ∀ i ∈ S, ∀ j ∈ S, i ≠ j →
      Disjoint (Finset.Ico (first i) (first i + len i)) (Finset.Ico (first j) (first j + len j)) := by
    intro i hi j hj hij
    refine Finset.disjoint_left.mpr fun x hx hx' => ?_
    rw [Finset.mem_Ico] at hx hx'
    have := hap i hi j hj hij
    omega
  have hsub : S.biUnion (fun i => Finset.Ico (first i) (first i + len i)) ⊆ Finset.Ico lo hi := by
    refine Finset.biUnion_subset.mpr fun i hi => Finset.Ico_subset_Ico (hin i hi).1 (hin i hi).2
  calc ∑ i ∈ S, len i = ∑ i ∈ S, (Finset.Ico (first i) (first i + len i)).card :=
        Finset.sum_congr rfl fun i _ => by rw [Nat.card_Ico, Nat.add_sub_cancel_left]
    _ = (S.biUnion fun i => Finset.Ico (first i) (first i + len i)).card :=
        (Finset.card_biUnion hdisj).symm
    _ ≤ (Finset.Ico lo hi).card := Finset.card_le_card hsub
    _ = hi - lo := Nat.card_Ico lo hi

end H713.Sums
