import Mathlib.Order.Basic

/-!
# Lib.Fair

Fair infinite runs, as predicates of time: an event that stays possible from some time on happens. `LeadsTo` puts
such steps together, one after the other or down a rank.
-/

namespace H713

def WeakFair (possible occurs : Nat → Prop) : Prop :=
  ∀ n, (∀ m ≥ n, possible m) → ∃ m ≥ n, occurs m

theorem WeakFair.eventually {possible occurs p q : Nat → Prop} (hf : WeakFair possible occurs) {n : Nat}
    (hp : p n) (hnext : ∀ m, p m → p (m + 1) ∨ q (m + 1)) (hpossible : ∀ m, p m → possible m)
    (heffect : ∀ m, p m → occurs m → q (m + 1)) : ∃ m ≥ n, q m := by
  by_contra hnone
  have hnever : ∀ m ≥ n, ¬ q m := fun m hm hq => hnone ⟨m, hm, hq⟩
  have hstay : ∀ m ≥ n, p m := by
    intro m hm
    induction hm with
    | refl => exact hp
    | step hle ih => exact (hnext _ ih).resolve_right (hnever _ (Nat.le_succ_of_le hle))
  obtain ⟨m, hm, ho⟩ := hf n fun m hm => hpossible m (hstay m hm)
  exact hnever (m + 1) (Nat.le_succ_of_le hm) (heffect m (hstay m hm) ho)

def LeadsTo (p q : Nat → Prop) : Prop := ∀ n, p n → ∃ m ≥ n, q m

namespace LeadsTo

variable {p q r : Nat → Prop}

theorem trans (h : LeadsTo p q) (h' : LeadsTo q r) : LeadsTo p r := by
  intro n hp
  obtain ⟨m, hm, hq⟩ := h n hp
  obtain ⟨k, hk, hr⟩ := h' m hq
  exact ⟨k, Nat.le_trans hm hk, hr⟩

theorem of_ranked {p : Nat → Nat → Prop} (h : ∀ k, LeadsTo (p k) (fun n => q n ∨ ∃ j < k, p j n)) (k : Nat) :
    LeadsTo (p k) q := by
  induction k using Nat.strongRecOn with
  | ind k ih =>
    intro n hp
    obtain ⟨m, hm, hq | ⟨j, hj, hp'⟩⟩ := h k n hp
    · exact ⟨m, hm, hq⟩
    · obtain ⟨l, hl, hq⟩ := ih j hj m hp'
      exact ⟨l, Nat.le_trans hm hl, hq⟩

theorem of_rank (rank : Nat → Nat)
    (h : ∀ k, LeadsTo (fun n => p n ∧ rank n = k) (fun n => q n ∨ p n ∧ rank n < k)) : LeadsTo p q := by
  intro n hp
  refine of_ranked (p := fun k n => p n ∧ rank n = k) (fun k n hk => ?_) (rank n) n ⟨hp, rfl⟩
  obtain ⟨m, hm, hq | ⟨hp', hlt⟩⟩ := h k n hk
  · exact ⟨m, hm, .inl hq⟩
  · exact ⟨m, hm, .inr ⟨rank m, hlt, hp', rfl⟩⟩

end LeadsTo

end H713
