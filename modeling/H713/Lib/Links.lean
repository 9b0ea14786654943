import Mathlib.Data.List.Chain
import Mathlib.Data.Finset.Card
import Mathlib.Logic.Relation
import Mathlib.Logic.Function.Basic

/-!
# Lib.Links

Linked structures given by a partial successor map `next : α → Option α`: the edges, what can be reached along them,
and acyclicity. Several chains may run into one another.
-/

namespace H713.Links

open Function
open Relation

variable {α : Type} {next next' : α → Option α}

def Edge (next : α → Option α) (a b : α) : Prop := next a = some b

def Reach (next : α → Option α) : α → α → Prop := ReflTransGen (Edge next)

/-- No chain leads back to where it began. -/
def Acyclic (next : α → Option α) : Prop := ∀ a, ¬ TransGen (Edge next) a a

theorem Edge.unique {a b c : α} (h : Edge next a b) (h' : Edge next a c) : b = c :=
  Option.some.inj (h.symm.trans h')

theorem Acyclic.ne {a b : α} (h : Acyclic next) (e : Edge next a b) : a ≠ b := by
  rintro rfl
  exact h a (.single e)

theorem Acyclic.of_edges (h : Acyclic next)
    (he : ∀ a b, Edge next' a b → TransGen (Edge next) a b) : Acyclic next' := by
  intro a ha
  exact h a (TransGen.closed (fun x y hxy => he x y hxy) _ _ ha)

section

variable [DecidableEq α] {a b : α}

theorem Acyclic.extend (h : Acyclic next) (hab : a ≠ b) (hb : next b = none) :
    Acyclic (update next a (some b)) := by
  have hsink : ∀ y, ¬ Edge (update next a (some b)) b y := by
    intro y hy
    rw [Edge, update_of_ne hab.symm, hb] at hy
    cases hy
  -- a path of the new structure is an old one unless it ends in `b`
  have key : ∀ x y, TransGen (Edge (update next a (some b))) x y →
      TransGen (Edge next) x y ∨ y = b := by
    have one : ∀ x y, Edge (update next a (some b)) x y → Edge next x y ∨ y = b := by
      intro x y hxy
      by_cases hx : x = a
      · subst hx
        rw [Edge, update_self] at hxy
        exact .inr (Option.some.inj hxy).symm
      · rw [Edge, update_of_ne hx] at hxy
        exact .inl hxy
    intro x y hxy
    induction hxy with
    | single e => exact (one _ _ e).imp .single id
    | @tail y z _ e ih =>
      rcases ih with hold | rfl
      · exact (one _ _ e).imp (hold.tail ·) id
      · exact absurd e (hsink z)
  intro x hx
  rcases key x x hx with hold | rfl
  · exact h x hold
  · obtain ⟨y, hy, _⟩ := TransGen.head'_iff.mp hx
    exact hsink y hy

def bypass (next : α → Option α) (a b : α) : α → Option α :=
  update (update next a (next b)) b none

theorem bypass_edge {x y : α} (e : Edge next a b) (h : Edge (bypass next a b) x y) :
    x ≠ b ∧ ((x = a ∧ Edge next b y) ∨ (x ≠ a ∧ Edge next x y)) := by
  unfold bypass Edge at h
  by_cases hb : x = b
  · subst hb
    rw [update_self] at h
    cases h
  · rw [update_of_ne hb] at h
    refine ⟨hb, ?_⟩
    by_cases ha : x = a
    · subst ha
      rw [update_self] at h
      exact .inl ⟨rfl, h⟩
    · rw [update_of_ne ha] at h
      exact .inr ⟨ha, h⟩

theorem Acyclic.bypass (h : Acyclic next) (e : Edge next a b) : Acyclic (bypass next a b) := by
  refine h.of_edges (fun x y hxy => ?_)
  obtain ⟨_, ⟨rfl, hby⟩ | ⟨_, hold⟩⟩ := bypass_edge e hxy
  · exact .tail (.single e) hby
  · exact .single hold

theorem bypass_edge_self (hab : a ≠ b) {y : α} (h : Edge next b y) : Edge (Links.bypass next a b) a y := by
  unfold Links.bypass Edge
  rw [update_of_ne hab, update_self]
  exact h

theorem bypass_edge_of_ne {x y : α} (ha : x ≠ a) (hb : x ≠ b) (h : Edge next x y) :
    Edge (Links.bypass next a b) x y := by
  unfold Links.bypass Edge
  rw [update_of_ne hb, update_of_ne ha]
  exact h

theorem reach_bypass {x y : α} (hc : Acyclic next) (e : Edge next a b) (hx : x ≠ b)
    (honly : (∀ z, Edge next z b → z = a) ∨ next b = none) (h : Reach next x y) :
    (y ≠ b → Reach (Links.bypass next a b) x y) ∧
      ((∀ z, Edge next z b → z = a) → y = b → Reach (Links.bypass next a b) x a) := by
  have hab : a ≠ b := hc.ne e
  induction h with
  | refl => exact ⟨fun _ => .refl, fun _ h => absurd h hx⟩
  | @tail y z _ hyz ih =>
    constructor
    · intro hz
      by_cases hy : y = b
      · subst hy
        rcases honly with ho | hn
        · exact .tail (ih.2 ho rfl) (bypass_edge_self hab hyz)
        · rw [Edge, hn] at hyz; cases hyz
      · have hya : y ≠ a := by
          rintro rfl
          exact hz (hyz.unique e)
        exact .tail (ih.1 hy) (bypass_edge_of_ne hya hy hyz)
    · rintro ho rfl
      obtain rfl := ho y hyz
      exact ih.1 hab

end

theorem reach_mono {x y : α} (he : ∀ a b, Edge next a b → Edge next' a b) (h : Reach next x y) : Reach next' x y :=
  ReflTransGen.mono he _ _ h

section

variable {l : List α} (h : Acyclic next) (hl : l.IsChain (Edge next))

include h hl

theorem isChain_nodup : l.Nodup := by
  have hp : l.Pairwise (TransGen (Edge next)) := by
    rw [← List.isChain_iff_pairwise]
    exact hl.imp (fun _ _ e => .single e)
  refine hp.imp (fun {x y} hxy => ?_)
  rintro rfl
  exact h x hxy

theorem length_le_of_isChain (s : Finset α) (hs : ∀ x ∈ l, x ∈ s) : l.length ≤ s.card := by
  classical
  have hnd := isChain_nodup h hl
  rw [← List.toFinset_card_of_nodup hnd]
  exact Finset.card_le_card (fun x hx => hs x (by simpa using hx))

end

def Walks (next : α → Option α) (s : Finset α) : Nat → α → Prop
  | 0, _ => True
  | n + 1, a => a ∈ s ∧ ∃ b, Edge next a b ∧ Walks next s n b

theorem Walks.isChain {s : Finset α} : ∀ {n : Nat} {a : α}, Walks next s n a →
    ∃ l : List α, l.length = n ∧ l.IsChain (Edge next) ∧ (∀ x ∈ l, x ∈ s) ∧ ∀ x ∈ l.head?, x = a := by
  intro n
  induction n with
  | zero => intro a _; exact ⟨[], rfl, .nil, by simp, by simp⟩
  | succ n ih =>
    intro a h
    obtain ⟨ha, b, hab, hb⟩ := h
    obtain ⟨l, hlen, hl, hs, hhead⟩ := ih hb
    refine ⟨a :: l, by simp [hlen], ?_, by simpa using ⟨ha, hs⟩, by simp⟩
    rw [List.isChain_cons]
    exact ⟨fun x hx => hhead x hx ▸ hab, hl⟩

theorem Acyclic.walks_le (h : Acyclic next) {s : Finset α} {n : Nat} {a : α} (hw : Walks next s n a) :
    n ≤ s.card := by
  obtain ⟨l, hlen, hl, hs, _⟩ := hw.isChain
  exact hlen ▸ length_le_of_isChain h hl s hs

def follow (next : α → Option α) : Nat → α → List α
  | 0, _ => []
  | fuel + 1, a => a :: (next a).elim [] (follow next fuel)

theorem mem_follow_or_walks {s : Finset α} (hs : ∀ x y, Edge next x y → x ∈ s) {a b : α}
    (h : Reach next a b) : ∀ fuel, b ∈ follow next fuel a ∨ Walks next s fuel a := by
  induction h using ReflTransGen.head_induction_on with
  | refl =>
    intro fuel
    cases fuel with
    | zero => exact .inr trivial
    | succ n => exact .inl (by simp [follow])
  | @head a c hac _ ih =>
    intro fuel
    cases fuel with
    | zero => exact .inr trivial
    | succ n =>
      rcases ih n with hm | hw
      · left
        rw [Edge] at hac
        simp only [follow, hac, Option.elim_some]
        exact List.mem_cons_of_mem _ hm
      · exact .inr ⟨hs _ _ hac, c, hac, hw⟩

end H713.Links
