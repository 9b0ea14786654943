import Mathlib.Data.List.Induction
import H713.Lib.Run

/-!
# Lib.History

What the calls of a run say about its past: `Since p q h`, a call with `p` was made and no call with `q` after it,
and `streak p h`, how many of the latest entries in a row satisfy `p`.
-/

namespace H713

def Since {ι : Type} (p q : ι → Prop) (h : List ι) : Prop :=
  ∃ before i after, h = before ++ i :: after ∧ p i ∧ ∀ j ∈ after, ¬ q j

section

variable {ι : Type} {p p' q q' : ι → Prop} {h : List ι} {i : ι}

theorem not_since_nil : ¬ Since p q [] := by
  rintro ⟨before, i, after, he, -⟩
  simp at he

theorem since_concat : Since p q (h ++ [i]) ↔ p i ∨ ¬ q i ∧ Since p q h := by
  constructor
  · rintro ⟨before, j, after, he, hp, hq⟩
    -- the call with `p` is the last one, or the last one is among those after it
    rcases List.eq_nil_or_concat after with rfl | ⟨after', k, rfl⟩
    · obtain ⟨-, rfl⟩ := List.append_singleton_inj.mp he
      exact .inl hp
    · rw [List.concat_eq_append, ← List.cons_append, ← List.append_assoc] at he
      obtain ⟨rfl, rfl⟩ := List.append_singleton_inj.mp he
      simp only [List.concat_eq_append, List.mem_append, List.mem_singleton] at hq
      exact .inr ⟨hq _ (.inr rfl), before, j, after', rfl, hp, fun x hx => hq x (.inl hx)⟩
  · rintro (hp | ⟨hn, before, j, after, rfl, hp, hq⟩)
    · exact ⟨h, i, [], rfl, hp, nofun⟩
    · refine ⟨before, j, after ++ [i], by simp, hp, fun x hx => ?_⟩
      rcases List.mem_append.mp hx with hx | hx
      · exact hq x hx
      · rw [List.mem_singleton.mp hx]; exact hn

theorem since_cons : Since p q (i :: h) ↔ (p i ∧ ∀ j ∈ h, ¬ q j) ∨ Since p q h := by
  constructor
  · rintro ⟨before, j, after, he, hp, hq⟩
    cases before with
    | nil =>
      obtain ⟨rfl, rfl⟩ := List.cons.inj he
      exact .inl ⟨hp, hq⟩
    | cons k before =>
      obtain ⟨-, rfl⟩ := List.cons.inj he
      exact .inr ⟨before, j, after, rfl, hp, hq⟩
  · rintro (⟨hp, hq⟩ | ⟨before, j, after, rfl, hp, hq⟩)
    · exact ⟨[], i, h, rfl, hp, hq⟩
    · exact ⟨i :: before, j, after, rfl, hp, hq⟩

instance decidableSince (p q : ι → Prop) [DecidablePred p] [DecidablePred q] :
    (h : List ι) → Decidable (Since p q h)
  | [] => .isFalse not_since_nil
  | _ :: h =>
    have := decidableSince p q h
    decidable_of_iff' _ since_cons

theorem Since.mono (hp : ∀ i, p i → p' i) (hq : ∀ i, q' i → q i) (hs : Since p q h) : Since p' q' h := by
  obtain ⟨before, i, after, he, hi, hn⟩ := hs
  exact ⟨before, i, after, he, hp i hi, fun j hj hj' => hn j hj (hq j hj')⟩

theorem since_or : Since (fun i => p i ∨ p' i) q h ↔ Since p q h ∨ Since p' q h := by
  constructor
  · rintro ⟨before, i, after, he, hi | hi, hn⟩
    · exact .inl ⟨before, i, after, he, hi, hn⟩
    · exact .inr ⟨before, i, after, he, hi, hn⟩
  · rintro (hs | hs)
    · exact hs.mono (fun _ => .inl) fun _ => id
    · exact hs.mono (fun _ => .inr) fun _ => id

end

def streak {ι : Type} (p : ι → Prop) [DecidablePred p] (h : List ι) : Nat :=
  (h.reverse.takeWhile fun i => decide (p i)).length

section

variable {ι : Type} {p : ι → Prop} [DecidablePred p]

@[simp] theorem streak_nil : streak p [] = 0 := rfl

theorem streak_concat (h : List ι) (i : ι) : streak p (h ++ [i]) = if p i then streak p h + 1 else 0 := by
  unfold streak
  rw [List.reverse_append, List.reverse_singleton, List.singleton_append, List.takeWhile_cons]
  by_cases hi : p i <;> simp [hi]

theorem le_streak_iff {n : Nat} {h : List ι} :
    n ≤ streak p h ↔ n ≤ h.length ∧ ∀ i ∈ h.drop (h.length - n), p i := by
  induction h using List.reverseRecOn generalizing n with
  | nil => simp
  | append_singleton h i ih =>
    rw [streak_concat, List.length_append, List.length_singleton]
    cases n with
    | zero => simp
    | succ n =>
      rw [Nat.add_sub_add_right, List.drop_append_of_le_length (Nat.sub_le _ _)]
      by_cases hi : p i
      · rw [if_pos hi, Nat.add_le_add_iff_right, ih, Nat.add_le_add_iff_right]
        simp [or_imp, forall_and, hi]
      · rw [if_neg hi]
        simp [hi]

end

namespace Run

variable {σ ι α : Type} {step : σ → ι → Out σ α} {ok : σ → ι → Prop} {s s' : σ} {is : List ι}

/-- An invariant of the state and the calls made so far. -/
theorem hist {I : σ → List ι → Prop} (hstep : ∀ s h i a s', I s h → ok s i → step s i = .ret a s' → I s' (h ++ [i]))
    (hr : Run step ok s is s') {h : List ι} (h0 : I s h) : I s' (h ++ is) := by
  induction hr generalizing h with
  | nil => rwa [List.append_nil]
  | cons ho hs _ ih =>
    have h1 := ih (hstep _ _ _ _ _ h0 ho hs)
    rwa [List.append_assoc] at h1

theorem since {P : σ → Prop} {p q : ι → Prop}
    (hstep : ∀ s i a s', ok s i → step s i = .ret a s' → (P s' ↔ p i ∨ ¬ q i ∧ P s))
    (hr : Run step ok s is s') (h0 : ¬ P s) : P s' ↔ Since p q is := by
  have h := hr.hist (I := fun s h => P s ↔ Since p q h) (h := [])
    (fun s h i a s' hi ho hs => by rw [hstep s i a s' ho hs, since_concat, hi])
    (iff_of_false h0 not_since_nil)
  rwa [List.nil_append] at h

end Run
end H713
