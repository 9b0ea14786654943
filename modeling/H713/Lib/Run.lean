import Mathlib.Data.Option.Basic

/-!
# Lib.Run

Runs of a component that is driven by calls. A call of the modelled C code returns a value and a new state, stops
the kernel in `BUG()`, or never leaves one of its loops (`Out`). `Run step ok` is a sequence of calls, each of which
returned and was made in a state that allows it (`ok`).
-/

namespace H713

inductive Out (σ α : Type) where
  | ret (a : α) (s : σ)
  | bug
  | spin

namespace Out

def state? {σ α : Type} : Out σ α → Option σ
  | ret _ s => some s
  | _ => none

def value? {σ α : Type} : Out σ α → Option α
  | ret a _ => some a
  | _ => none

instance {σ α : Type} (o : Out σ α) : Decidable (o = .bug) :=
  match o with
  | .ret _ _ => isFalse (by intro h; cases h)
  | .bug => isTrue rfl
  | .spin => isFalse (by intro h; cases h)

instance {σ α : Type} (o : Out σ α) : Decidable (o = .spin) :=
  match o with
  | .ret _ _ => isFalse (by intro h; cases h)
  | .bug => isFalse (by intro h; cases h)
  | .spin => isTrue rfl

def bind {σ τ α β : Type} : Out σ α → (α → σ → Out τ β) → Out τ β
  | ret a s, f => f a s
  | bug, _ => bug
  | spin, _ => spin

theorem bind_of_ret {σ τ α β : Type} {o : Out σ α} {a : α} {s : σ} (h : o = .ret a s)
    (f : α → σ → Out τ β) : o.bind f = f a s := by
  rw [h]
  rfl

theorem bind_eq_ret {σ τ α β : Type} {o : Out σ α} {f : α → σ → Out τ β} {b : β} {t : τ}
    (h : o.bind f = .ret b t) : ∃ a s, o = .ret a s ∧ f a s = .ret b t := by
  cases o with
  | ret a s => exact ⟨a, s, rfl, h⟩
  | bug | spin => cases h

def test {σ α : Type} (p : α → σ → Bool) : Out σ α → Bool
  | ret a s => p a s
  | _ => false

theorem exists_of_test {σ α : Type} {o : Out σ α} {P : α → σ → Prop} [∀ a s, Decidable (P a s)]
    (h : o.test (fun a s => decide (P a s)) = true) : ∃ a s, o = .ret a s ∧ P a s := by
  cases o with
  | ret a s => exact ⟨a, s, rfl, of_decide_eq_true h⟩
  | bug | spin => cases h

end Out

/-- A run of operations, each of which is `ok` where it happens and returns. -/
inductive Run {σ ι α : Type} (step : σ → ι → Out σ α) (ok : σ → ι → Prop) :
    σ → List ι → σ → Prop where
  | nil {s : σ} : Run step ok s [] s
  | cons {s s' s'' : σ} {i : ι} {is : List ι} {a : α} :
      ok s i → step s i = .ret a s' → Run step ok s' is s'' → Run step ok s (i :: is) s''

namespace Run

variable {α ι σ : Type}

theorem mono {step : σ → ι → Out σ α} {ok ok' : σ → ι → Prop} {s s' : σ} {is : List ι} (h : ∀ s i, ok s i → ok' s i)
    (hr : Run step ok s is s') : Run step ok' s is s' := by
  induction hr with
  | nil => exact .nil
  | cons ho hs _ ih => exact .cons (h _ _ ho) hs ih

theorem trans {step : σ → ι → Out σ α} {ok : σ → ι → Prop} {s s' s'' : σ} {is js : List ι} (h : Run step ok s is s')
    (h' : Run step ok s' js s'') : Run step ok s (is ++ js) s'' := by
  induction h with
  | nil => exact h'
  | cons ho hs _ ih => exact .cons ho hs (ih h')

theorem of_append {step : σ → ι → Out σ α} {ok : σ → ι → Prop} {s s'' : σ} {is js : List ι}
    (h : Run step ok s (is ++ js) s'') : ∃ s', Run step ok s is s' ∧ Run step ok s' js s'' := by
  induction is generalizing s with
  | nil => exact ⟨s, .nil, h⟩
  | cons i is ih =>
    cases h with
    | cons hok hstep hrest =>
      obtain ⟨s', h1, h2⟩ := ih hrest
      exact ⟨s', .cons hok hstep h1, h2⟩

theorem inv {step : σ → ι → Out σ α} {ok : σ → ι → Prop} {I : σ → Prop}
    (hstep : ∀ s i a s', I s → ok s i → step s i = .ret a s' → I s')
    {s s' : σ} {is : List ι} (hr : Run step ok s is s') (h : I s) : I s' := by
  induction hr with
  | nil => exact h
  | cons ho hs _ ih => exact ih (hstep _ _ _ _ h ho hs)

theorem sim {τ : Type} {step : σ → ι → Out σ α} {ok : σ → ι → Prop} {astep : τ → ι → τ} {R : σ → τ → Prop}
    (hstep : ∀ s t i a s', R s t → ok s i → step s i = .ret a s' → R s' (astep t i))
    {s s' : σ} {is : List ι} (hr : Run step ok s is s') {t : τ} (h : R s t) : R s' (is.foldl astep t) := by
  induction hr generalizing t with
  | nil => exact h
  | cons ho hs _ ih => exact ih (hstep _ _ _ _ _ h ho hs)

def exec {σ ι α : Type} (step : σ → ι → Out σ α) (ok : σ → ι → Prop) [∀ s i, Decidable (ok s i)]
    (s : σ) : List ι → Option σ
  | [] => some s
  | i :: is =>
    if ok s i then
      match step s i with
      | .ret _ s' => exec step ok s' is
      | _ => none
    else none

theorem of_exec {step : σ → ι → Out σ α} {ok : σ → ι → Prop} [∀ s i, Decidable (ok s i)] {is : List ι} :
    ∀ {s s' : σ}, exec step ok s is = some s' → Run step ok s is s' := by
  induction is with
  | nil => intro s s' h; cases h; exact .nil
  | cons i is ih =>
    intro s s' h
    simp only [exec] at h
    split at h
    · rename_i hok
      split at h
      · rename_i hs; exact .cons hok hs (ih h)
      · cases h
    · cases h

theorem exists_of_exec {step : σ → ι → Out σ α} {ok : σ → ι → Prop} [∀ s i, Decidable (ok s i)] {P : σ → Prop}
    [DecidablePred P] {s : σ} {is : List ι} (h : (exec step ok s is).any (fun s' => decide (P s')) = true) :
    ∃ s', Run step ok s is s' ∧ P s' := by
  cases hx : exec step ok s is with
  | none => rw [hx] at h; cases h
  | some s' =>
    rw [hx] at h
    exact ⟨s', of_exec hx, of_decide_eq_true h⟩

theorem exists_of_exec_imp {step : σ → ι → Out σ α} {ok : σ → ι → Prop} [∀ s i, Decidable (ok s i)] {P Q : σ → Prop}
    [DecidablePred P] {s : σ} {is : List ι} (h : (exec step ok s is).any (fun s' => decide (P s')) = true)
    (himp : ∀ s', Run step ok s is s' → P s' → Q s') : ∃ s', Run step ok s is s' ∧ Q s' := by
  obtain ⟨s', hr, hs⟩ := exists_of_exec h
  exact ⟨s', hr, himp s' hr hs⟩

end Run

def replies {σ ι ρ : Type} (step : σ → ι → ρ × σ) : σ → List ι → List ρ
  | _, [] => []
  | s, i :: is => (step s i).1 :: replies step (step s i).2 is

theorem replies_eq {σ τ ι ρ : Type} {step : σ → ι → ρ × σ} {astep : τ → ι → ρ × τ} {R : σ → τ → Prop}
    (h : ∀ s t i, R s t → (step s i).1 = (astep t i).1 ∧ R (step s i).2 (astep t i).2) :
    ∀ (is : List ι) {s : σ} {t : τ}, R s t → replies step s is = replies astep t is := by
  intro is
  induction is with
  | nil => intro s t _; rfl
  | cons i is ih =>
    intro s t hst
    obtain ⟨hreply, hnext⟩ := h s t i hst
    simp only [replies, hreply, ih hnext]

/-- The calls are ones that the abstract component allows, in the states that they lead it to. -/
def Allowed {τ ι ρ : Type} (ok : τ → ι → Prop) (astep : τ → ι → ρ × τ) : τ → List ι → Prop
  | _, [] => True
  | t, i :: is => ok t i ∧ Allowed ok astep (astep t i).2 is

def answers {σ ι ρ : Type} (step : σ → ι → Out σ ρ) : σ → List ι → Option (List ρ × σ)
  | s, [] => some ([], s)
  | s, i :: is =>
    match step s i with
    | .ret r s' => (answers step s' is).map fun x => (r :: x.1, x.2)
    | _ => none

theorem answers_cons {σ ι ρ : Type} {step : σ → ι → Out σ ρ} {s s' s'' : σ} {i : ι} {is : List ι} {r : ρ}
    {rs : List ρ} (h : step s i = .ret r s') (hs : answers step s' is = some (rs, s'')) :
    answers step s (i :: is) = some (r :: rs, s'') := by
  simp only [answers, h, hs, Option.map_some]

theorem stable_of_fuel {α : Type} {f : Nat → Option α} {n : Nat}
    (hmono : ∀ m a, f m = some a → f (m + 1) = some a) (hn : f n ≠ none) : ∃ a, ∀ m ≥ n, f m = some a := by
  obtain ⟨a, ha⟩ := Option.ne_none_iff_exists'.mp hn
  refine ⟨a, fun m hm => ?_⟩
  induction hm with
  | refl => exact ha
  | step _ ih => exact hmono _ a ih

end H713
