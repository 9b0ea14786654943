import H713.Lib.Run

/-!
# Lib.Triple

Pre- and postconditions of code that returns, stops in `BUG()` or never comes back (`Triple P x Q`), and what code
does to a state, whatever that state is (`Moves R x`).
-/

namespace H713

def Out.Back {σ α : Type} (o : Out σ α) (Q : σ → Prop) : Prop := o ≠ .spin ∧ ∀ a t, o = .ret a t → Q t

namespace Out

variable {σ τ α β : Type} {Q : σ → Prop} {R : τ → Prop}

theorem back_ret {a : α} {t : σ} (h : Q t) : (Out.ret a t).Back Q := by
  refine ⟨fun hf => ?_, fun b u hu => ?_⟩
  · cases hf
  · cases hu
    exact h

theorem back_bug : (Out.bug : Out σ α).Back Q := by
  refine ⟨fun hf => ?_, fun b u hu => ?_⟩
  · cases hf
  · cases hu

theorem Back.bind {o : Out σ α} {f : α → σ → Out τ β} (ho : o.Back Q) (hf : ∀ a t, Q t → (f a t).Back R) :
    (o.bind f).Back R := by
  cases o with
  | ret a t => exact hf a t (ho.2 a t rfl)
  | bug => exact back_bug
  | spin => exact absurd rfl ho.1

end Out

/-- From `P`, the call returns and leaves `Q`. -/
def Triple {σ α : Type} (P : σ → Prop) (x : σ → Out σ α) (Q : σ → Prop) : Prop := ∀ s, P s → (x s).Back Q

namespace Triple

variable {σ α β : Type} {P Q R : σ → Prop}

theorem ret {x : σ → Out σ α} (h : ∀ s, P s → ∃ a t, x s = .ret a t ∧ Q t) : Triple P x Q := by
  intro s hs
  obtain ⟨a, t, hx, ht⟩ := h s hs
  rw [hx]
  exact Out.back_ret ht

theorem bind {x : σ → Out σ α} {f : α → σ → Out σ β} (hx : Triple P x Q) (hf : ∀ a, Triple Q (f a) R) :
    Triple P (fun s => (x s).bind f) R :=
  fun s hs => (hx s hs).bind fun a => hf a

theorem ite {c : Prop} [Decidable c] {x y : σ → Out σ α} (hx : c → Triple P x Q) (hy : ¬ c → Triple P y Q) :
    Triple P (if c then x else y) Q := by
  split
  · exact hx ‹_›
  · exact hy ‹_›

end Triple

def Moves {σ α : Type} (R : σ → σ → Prop) (x : σ → Out σ α) : Prop := ∀ s a t, x s = .ret a t → R s t

namespace Moves

variable {σ α β : Type} {R : σ → σ → Prop}

theorem ret {x : σ → Out σ α} {f : σ → σ} (hx : ∀ s, ∃ a, x s = .ret a (f s)) (hf : ∀ s, R s (f s)) :
    Moves R x := by
  intro s a t ht
  obtain ⟨b, hb⟩ := hx s
  cases hb.symm.trans ht
  exact hf s

theorem bind (htrans : ∀ {s t u}, R s t → R t u → R s u) {x : σ → Out σ α} {f : α → σ → Out σ β}
    (hx : Moves R x) (hf : ∀ a, Moves R (f a)) : Moves R (fun s => (x s).bind f) := by
  intro s b u hu
  obtain ⟨a, t, ht, hau⟩ := Out.bind_eq_ret hu
  exact htrans (hx s a t ht) (hf a t b u hau)

theorem ite {c : Prop} [Decidable c] {x y : σ → Out σ α} (hx : Moves R x) (hy : Moves R y) :
    Moves R (if c then x else y) := by
  split
  · exact hx
  · exact hy

end Moves

end H713
