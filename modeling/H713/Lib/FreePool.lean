import Mathlib.Data.List.Perm.Basic
import Mathlib.Data.List.Nodup

/-!
# Lib.FreePool

A pool hands out the items of a fixed list and takes them back (`Splits`). `Within` is the same for a pool that can
lose items.
-/

namespace H713.FreePool

def Splits {α : Type} (all free out : List α) : Prop := (free ++ out).Perm all

section

variable {α : Type} {all free out : List α} {x : α}

theorem Splits.take (h : Splits all (x :: free) out) : Splits all free (x :: out) :=
  List.perm_middle.trans h

section

variable (h : Splits all free out)

include h

theorem Splits.give [DecidableEq α] (hx : x ∈ out) : Splits all (free ++ [x]) (out.erase x) := by
  simp only [Splits, List.append_assoc, List.singleton_append] at h ⊢
  exact ((List.perm_cons_erase hx).symm.append_left free).trans h

theorem Splits.nodup (hall : all.Nodup) : free.Nodup ∧ out.Nodup ∧ free.Disjoint out :=
  List.nodup_append'.mp (h.nodup_iff.mpr hall)

theorem Splits.mem_iff : x ∈ all ↔ x ∈ free ∨ x ∈ out := by
  rw [← List.Perm.mem_iff h, List.mem_append]

theorem Splits.length : free.length + out.length = all.length := by
  rw [← List.length_append]
  exact List.Perm.length_eq h

theorem Splits.room (hx : x ∈ out) : free.length < all.length := by
  have h1 := h.length
  have h2 := List.length_pos_of_mem hx
  omega

end

/-- The free items and those that are out are items of `all`, each once. -/
def Within (all free out : List α) : Prop := (free ++ out).Subperm all

theorem Within.congr {out' : List α} (h : Within all free out) (p : out'.Perm out) : Within all free out' :=
  (p.append_left free).subperm_right.mpr h

theorem Within.take (h : Within all (x :: free) out) : Within all free (x :: out) :=
  List.perm_middle.subperm_right.mpr h

section

variable (h : Within all free (x :: out))

include h

theorem Within.give : Within all (free ++ [x]) out := by
  simp only [Within, List.append_assoc, List.singleton_append] at h ⊢
  exact h

theorem Within.lose : Within all free out :=
  (((List.sublist_cons_self x out).append_left free).subperm).trans h

theorem Within.room : free.length < all.length := by
  have := h.length_le
  simp only [List.length_append, List.length_cons] at this
  omega

end

theorem Within.mem (h : Within all free out) (hx : x ∈ out) : x ∈ all :=
  h.subset (List.mem_append_right free hx)

theorem Within.out_nodup (h : Within all free out) (hall : all.Nodup) : out.Nodup := by
  obtain ⟨l, hp, hs⟩ := h
  exact (List.nodup_append'.mp (hp.nodup_iff.mp (hall.sublist hs))).2.1

end

end H713.FreePool
