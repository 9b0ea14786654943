import H713.Lib.Fair
import H713.Lib.Run

/-!
# Lib.Endless

Endless runs of a step relation, with rests in between: the invariant rule (`Endless.inv`) and the progress rule
(`Endless.leadsTo`).
-/

namespace H713

variable {σ ι : Type}

/-- An endless run from `first`; at each time one operation or none. -/
structure Endless (G : σ → ι → σ → Prop) (first : σ) (s : Nat → σ) (op : Nat → Option ι) : Prop where
  start : s 0 = first
  next : ∀ t, (∃ o, op t = some o ∧ G (s t) o (s (t + 1))) ∨ (op t = none ∧ s (t + 1) = s t)

namespace Endless

variable {G : σ → ι → σ → Prop} {first : σ} {s : Nat → σ} {op : Nat → Option ι}

section

variable (h : Endless G first s op)

include h

theorem map {G' : σ → ι → σ → Prop} (hG : ∀ s o s', G s o s' → G' s o s') : Endless G' first s op := by
  refine ⟨h.start, fun t => ?_⟩
  rcases h.next t with ⟨o, ho, hg⟩ | hrest
  · exact .inl ⟨o, ho, hG _ o _ hg⟩
  · exact .inr hrest

theorem inv {I : σ → Prop} (hfirst : I first) (hstep : ∀ s o s', I s → G s o s' → I s') (t : Nat) : I (s t) := by
  induction t with
  | zero => rw [h.start]; exact hfirst
  | succ t ih =>
    rcases h.next t with ⟨o, -, hg⟩ | ⟨-, hsame⟩
    · exact hstep _ o _ ih hg
    · rw [hsame]; exact ih

theorem mono {I : σ → Prop} (hinv : ∀ t, I (s t)) {f : σ → Nat} (hstep : ∀ s o s', I s → G s o s' → f s ≤ f s')
    {t m : Nat} (hle : t ≤ m) : f (s t) ≤ f (s m) := by
  induction hle with
  | refl => exact Nat.le_refl _
  | @step m _ ih =>
    refine Nat.le_trans ih ?_
    rcases h.next m with ⟨o, -, hg⟩ | ⟨-, hsame⟩
    · exact hstep _ o _ (hinv m) hg
    · exact Nat.le_of_eq (congrArg f hsame.symm)

theorem leadsTo {I : σ → Prop} (hinv : ∀ t, I (s t)) {M : σ → ι → Prop} {possible occurs : Nat → Prop}
    (hf : WeakFair possible occurs) (hoccurs : ∀ t, occurs t → ∃ o, op t = some o ∧ M (s t) o) {P Q : σ → Prop}
    (hpossible : ∀ t, I (s t) → P (s t) → possible t)
    (hframe : ∀ s o s', I s → P s → G s o s' → ¬ M s o → P s' ∨ Q s')
    (heffect : ∀ s o s', I s → P s → G s o s' → M s o → Q s') : LeadsTo (fun t => P (s t)) (fun t => Q (s t)) := by
  intro t hp
  refine hf.eventually (p := fun t => P (s t)) hp (fun m hm => ?_) (fun m hm => hpossible m (hinv m) hm) ?_
  · rcases h.next m with ⟨o, -, hg⟩ | ⟨-, hsame⟩
    · by_cases hmine : M (s m) o
      · exact .inr (heffect _ o _ (hinv m) hm hg hmine)
      · exact hframe _ o _ (hinv m) hm hg hmine
    · rw [hsame]; exact .inl hm
  · intro m hm hocc
    obtain ⟨o, ho, hmine⟩ := hoccurs m hocc
    rcases h.next m with ⟨o', ho', hg⟩ | ⟨hnone, -⟩
    · cases ho'.symm.trans ho
      exact heffect _ o _ (hinv m) hm hg hmine
    · cases hnone.symm.trans ho

end

end Endless

def states {α : Type} (step : σ → ι → Out σ α) (first : σ) (ops : List ι) (t : Nat) : σ :=
  (ops.take t).foldl (fun s o => ((step s o).state?).getD s) first

variable {α : Type} {step : σ → ι → Out σ α} {first : σ} {ops : List ι}

theorem states_of_le {t : Nat} (h : ops.length ≤ t) : states step first ops t = states step first ops ops.length := by
  rw [states, states, List.take_of_length_le h, List.take_length]

theorem states_succ {t : Nat} (ht : t < ops.length) : states step first ops (t + 1) =
      ((step (states step first ops t) ops[t]).state?).getD (states step first ops t) := by
  rw [states, List.take_succ_eq_append_getElem ht, List.foldl_append]
  rfl

theorem Endless.of_states {ok : σ → ι → Prop} (h : ∀ t (ht : t < ops.length), ok (states step first ops t) ops[t] ∧
      ((step (states step first ops t) ops[t]).state?).isSome = true) :
    Endless (fun s o s' => ok s o ∧ ∃ a, step s o = .ret a s') first (states step first ops)
      (fun t => ops[t]?) := by
  refine ⟨rfl, fun t => ?_⟩
  by_cases ht : t < ops.length
  · obtain ⟨hok, hret⟩ := h t ht
    refine .inl ⟨ops[t], List.getElem?_eq_getElem ht, hok, ?_⟩
    rw [states_succ ht]
    cases hs : step (states step first ops t) ops[t] with
    | ret a s' => exact ⟨a, rfl⟩
    | bug | spin => rw [hs] at hret; cases hret
  · have hle := Nat.not_lt.mp ht
    exact .inr ⟨List.getElem?_eq_none hle, by rw [states_of_le hle, states_of_le (Nat.le_succ_of_le hle)]⟩

theorem WeakFair.of_states {P : σ → Prop} {occurs : Nat → Prop} (h : ¬ P (states step first ops ops.length)) :
    WeakFair (fun t => P (states step first ops t)) occurs := by
  intro t hall
  have hlast : P (states step first ops (max t ops.length)) := hall _ (Nat.le_max_left _ _)
  rw [states_of_le (Nat.le_max_right _ _)] at hlast
  exact absurd hlast h

end H713
