import Mathlib.Data.List.Basic

/-!
# Lib.Lines

Lines of a stream that end in one of two terminators, or in the pair of them: `split cr lf l` cuts `l` at every
terminator; its last part is the `rest`, the others are `complete`. A cut between the two terminators of a pair
shows as one more line, which is empty.
-/

namespace H713.Lines

inductive Thin {α : Type} : List (List α) → List (List α) → Prop where
  | last (x : List α) : Thin [x] [x]
  | cons (x : List α) {xs ys : List (List α)} : Thin xs ys → Thin (x :: xs) (x :: ys)
  | drop (x : List α) {xs ys : List (List α)} : Thin xs ys → Thin (x :: xs) (x :: [] :: ys)

namespace Thin

variable {α : Type} {xs ys : List (List α)}

theorem refl (h : xs ≠ []) : Thin xs xs := by
  induction xs with
  | nil => exact absurd rfl h
  | cons x xs ih =>
    cases xs with
    | nil => exact .last x
    | cons y ys => exact .cons x (ih (List.cons_ne_nil _ _))

theorem ne_nil (h : Thin xs ys) : xs ≠ [] ∧ ys ≠ [] := by
  cases h <;> exact ⟨List.cons_ne_nil _ _, List.cons_ne_nil _ _⟩

theorem modifyHead (h : Thin xs ys) (f : List α → List α) : Thin (xs.modifyHead f) (ys.modifyHead f) := by
  cases h with
  | last x => exact .last _
  | cons x h => exact .cons _ h
  | drop x h => exact .drop _ h

theorem getLast?_eq (h : Thin xs ys) : xs.getLast? = ys.getLast? := by
  induction h with
  | last x => rfl
  | cons x h ih => simp only [List.getLast?_cons, ih]
  | drop x h ih =>
    obtain ⟨y, hy⟩ := List.getLast?_isSome.mpr h.ne_nil.2 |> Option.isSome_iff_exists.mp
    simp only [List.getLast?_cons, ih, hy, Option.getD_some]

theorem filter_dropLast (h : Thin xs ys) {p : List α → Bool} (hp : p [] = false) :
    xs.dropLast.filter p = ys.dropLast.filter p := by
  induction h with
  | last x => rfl
  | cons x h ih =>
    obtain ⟨hx, hy⟩ := h.ne_nil
    rw [List.dropLast_cons_of_ne_nil hx, List.dropLast_cons_of_ne_nil hy, List.filter_cons, List.filter_cons, ih]
  | drop x h ih =>
    obtain ⟨hx, hy⟩ := h.ne_nil
    rw [List.dropLast_cons_of_ne_nil hx, List.dropLast_cons_of_ne_nil (List.cons_ne_nil _ _),
      List.dropLast_cons_of_ne_nil hy, List.filter_cons, List.filter_cons, List.filter_cons_of_neg (by simp [hp]), ih]

end Thin

variable {α : Type} [DecidableEq α] (cr lf : α)

def split : List α → List (List α)
  | [] => [[]]
  | [a] => if a = cr ∨ a = lf then [[], []] else [[a]]
  | a :: b :: l =>
    if a = cr ∧ b = lf then [] :: split l
    else if a = cr ∨ a = lf then [] :: split (b :: l)
    else (split (b :: l)).modifyHead (a :: ·)

/-- The lines that have ended. -/
def complete (l : List α) : List (List α) := (split cr lf l).dropLast

def rest (l : List α) : List α := (split cr lf l).getLast?.getD []

theorem split_ne_nil (l : List α) : split cr lf l ≠ [] := by
  fun_induction split cr lf l with
  | case1 => exact List.cons_ne_nil _ _
  | case2 a h => exact List.cons_ne_nil _ _
  | case3 a h => exact List.cons_ne_nil _ _
  | case4 a b l h ih => exact List.cons_ne_nil _ _
  | case5 a b l h h' ih => exact List.cons_ne_nil _ _
  | case6 a b l h h' ih => simpa using ih

theorem split_eq (l : List α) : split cr lf l = complete cr lf l ++ [rest cr lf l] := by
  rw [complete, rest, List.getLast?_eq_some_getLast (split_ne_nil cr lf l), Option.getD_some,
    List.dropLast_concat_getLast]

theorem split_cons {a : α} (ha : ¬ (a = cr ∨ a = lf)) (l : List α) :
    split cr lf (a :: l) = (split cr lf l).modifyHead (a :: ·) := by
  cases l with
  | nil => simp [split, ha]
  | cons b l =>
    have hpair : ¬ (a = cr ∧ b = lf) := fun h => ha (.inl h.1)
    rw [split, if_neg hpair, if_neg ha]

def join (xs : List (List α)) (m : List α) : List (List α) :=
  xs.dropLast ++ split cr lf (xs.getLast?.getD [] ++ m)

theorem join_cons (x : List α) {xs : List (List α)} (hx : xs ≠ []) (m : List α) :
    join cr lf (x :: xs) m = x :: join cr lf xs m := by
  rw [join, join, List.dropLast_cons_of_ne_nil hx, List.getLast?_cons, List.getLast?_eq_some_getLast hx]
  rfl

theorem join_modifyHead {a : α} (ha : ¬ (a = cr ∨ a = lf)) {xs : List (List α)} (hx : xs ≠ []) (m : List α) :
    join cr lf (xs.modifyHead (a :: ·)) m = (join cr lf xs m).modifyHead (a :: ·) := by
  cases xs with
  | nil => exact absurd rfl hx
  | cons x xs =>
    cases xs with
    | nil => exact split_cons cr lf ha (x ++ m)
    | cons y ys =>
      rw [List.modifyHead_cons, join_cons _ _ _ (List.cons_ne_nil _ _), join_cons _ _ _ (List.cons_ne_nil _ _),
        List.modifyHead_cons]

section

variable (hne : cr ≠ lf)

include hne

theorem split_lf (l : List α) : split cr lf (lf :: l) = [] :: split cr lf l := by
  cases l with
  | nil => simp [split]
  | cons b l => rw [split, if_neg (fun h => hne h.1.symm), if_pos (.inr rfl)]

theorem thin_terminator {a : α} (ha : a = cr ∨ a = lf) (m : List α) :
    Thin (split cr lf (a :: m)) ([] :: split cr lf m) := by
  cases m with
  | nil => simpa [split, ha] using Thin.cons [] (Thin.last [])
  | cons b m =>
    by_cases hpair : a = cr ∧ b = lf
    · rw [split, if_pos hpair, hpair.2, split_lf cr lf hne]
      exact .drop [] (.refl (split_ne_nil cr lf m))
    · rw [split, if_neg hpair, if_pos ha]
      exact .refl (List.cons_ne_nil _ _)

theorem thin_append (l m : List α) : Thin (split cr lf (l ++ m)) (join cr lf (split cr lf l) m) := by
  fun_induction split cr lf l with
  | case1 => exact .refl (split_ne_nil cr lf m)
  | case2 a ha => exact thin_terminator cr lf hne ha m
  | case3 a ha => exact .refl (split_ne_nil cr lf (a :: m))
  | case4 a b l hpair ih =>
    rw [join_cons cr lf [] (split_ne_nil cr lf l), List.cons_append, List.cons_append, split, if_pos hpair]
    exact .cons [] ih
  | case5 a b l hpair ha ih =>
    rw [join_cons cr lf [] (split_ne_nil cr lf (b :: l)), List.cons_append, List.cons_append, split,
      if_neg hpair, if_pos ha]
    exact .cons [] ih
  | case6 a b l hpair ha ih =>
    rw [join_modifyHead cr lf ha (split_ne_nil cr lf (b :: l)), List.cons_append, split_cons cr lf ha]
    exact ih.modifyHead _

theorem rest_append (l m : List α) : rest cr lf (l ++ m) = rest cr lf (rest cr lf l ++ m) := by
  rw [rest, (thin_append cr lf hne l m).getLast?_eq, join, List.getLast?_append_of_ne_nil _ (split_ne_nil cr lf _)]
  rfl

theorem filter_complete_append (l m : List α) {p : List α → Bool} (hp : p [] = false) :
    (complete cr lf (l ++ m)).filter p =
      (complete cr lf l).filter p ++ (complete cr lf (rest cr lf l ++ m)).filter p := by
  rw [complete, (thin_append cr lf hne l m).filter_dropLast hp, join,
    List.dropLast_append_of_ne_nil (split_ne_nil cr lf _), List.filter_append]
  rfl

theorem any_complete_append (l m : List α) {p : List α → Bool} (hp : p [] = false) :
    (complete cr lf (l ++ m)).any p = ((complete cr lf l).any p || (complete cr lf (rest cr lf l ++ m)).any p) := by
  rw [← List.any_append, Bool.eq_iff_iff, List.any_eq_true, List.any_eq_true]
  simp only [← List.mem_filter, filter_complete_append cr lf hne l m hp, List.filter_append]

end

end H713.Lines
