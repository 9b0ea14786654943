import Mathlib.Data.List.Basic

/-!
# Lib.Chunks

A list cut into pieces of `n`. `chunk n l j` is piece `j`, shorter than `n` or empty at the end of the list;
`fullChunks n l` are the pieces that are complete.
-/

namespace H713

variable {α : Type}

def chunk (n : Nat) (l : List α) (j : Nat) : List α := (l.drop (n * j)).take n

def fullChunks (n : Nat) (l : List α) : List (List α) := (List.range (l.length / n)).map (chunk n l)

theorem chunk_append {n j : Nat} {l : List α} (h : n * (j + 1) ≤ l.length) (m : List α) :
    chunk n (l ++ m) j = chunk n l j := by
  rw [Nat.mul_succ] at h
  rw [chunk, chunk, List.drop_append_of_le_length (by omega),
    List.take_append_of_le_length (by rw [List.length_drop]; omega)]

theorem map_chunk_append {n k : Nat} {l : List α} (h : n * k ≤ l.length) (m : List α) :
    (List.range k).map (chunk n (l ++ m)) = (List.range k).map (chunk n l) := by
  refine List.map_congr_left fun j hj => chunk_append ?_ m
  exact Nat.le_trans (Nat.mul_le_mul_left n (List.mem_range.mp hj)) h

theorem map_chunk_prefix {n k : Nat} (hn : 0 < n) {l : List α} (h : n * k ≤ l.length) :
    (List.range k).map (chunk n l) <+: fullChunks n l := by
  have hk : k ≤ l.length / n := (Nat.le_div_iff_mul_le hn).mpr (by rw [Nat.mul_comm]; exact h)
  refine List.IsPrefix.map _ ?_
  rw [List.prefix_iff_eq_take, List.take_range, List.length_range, Nat.min_eq_left hk]

theorem fullChunks_eq {n k : Nat} {l : List α} (h : n * k ≤ l.length) (hlt : l.length < n * (k + 1)) :
    fullChunks n l = (List.range k).map (chunk n l) := by
  rw [fullChunks, Nat.div_eq_of_lt_le (by rw [Nat.mul_comm]; exact h) (by rw [Nat.mul_comm]; exact hlt)]

theorem flatten_chunks (n k : Nat) (l : List α) : ((List.range k).map (chunk n l)).flatten = l.take (n * k) := by
  induction k with
  | zero => simp
  | succ k ih =>
    rw [List.range_succ, List.map_append, List.flatten_append, ih, Nat.mul_succ, List.take_add]
    simp [chunk]

end H713
