import H713.Fifo.Refine

/-!
# Fifo.Words

A ring whose items are 32-bit words and whose calls come in pairs with nothing in between. The memory is indexed by
whatever the user of the ring makes of a slot's address (`tr`).
-/

namespace H713.Fifo

open Function
open Circular

/-- Different slots are different places in the memory. -/
def SlotsApart (cap base : Nat) (tr : Nat → Nat) : Prop :=
  ∀ i < cap, ∀ j < cap, tr (slot 4 base i) = tr (slot 4 base j) → i = j

structure HoldsQueue (cap base : Nat) (tr : Nat → Nat) (f : Fifo) (m : Nat → Nat) (q : List Nat) :
    Prop where
  shape : Shape 4 cap base f
  length : q.length = len cap f.rd f.wr
  items : ∀ j x, q[j]? = some x → m (tr (slot 4 base (nth cap f.rd j))) = x

namespace HoldsQueue

variable {cap base : Nat} {tr : Nat → Nat} {f : Fifo} {m m' : Nat → Nat} {q : List Nat} {x : Nat}

theorem nil (hs : Shape 4 cap base f) (h : f.rd = f.wr) : HoldsQueue cap base tr f m [] :=
  ⟨hs, by rw [h, len_self]; rfl, fun j x hj => by simp at hj⟩

theorem congr (h : HoldsQueue cap base tr f m q)
    (hm : ∀ i < cap, m' (tr (slot 4 base i)) = m (tr (slot 4 base i))) : HoldsQueue cap base tr f m' q :=
  ⟨h.shape, h.length, fun j x hj => (hm _ (nth_lt h.shape.rd_lt)).trans (h.items j x hj)⟩

section

variable (hf : Fits 4 cap base)

include hf

theorem getItemRd_nil (h : HoldsQueue cap base tr f m []) : fifoGetItemRd f = 0 := by
  have h0 : len cap f.rd f.wr = 0 := h.length.symm
  rw [fifoGetItemRd_eq hf h.shape, if_pos h0]

theorem getItemRd_cons (h : HoldsQueue cap base tr f m (x :: q)) :
    fifoGetItemRd f = slot 4 base f.rd ∧ m (tr (slot 4 base f.rd)) = x := by
  have hne : len cap f.rd f.wr ≠ 0 := by
    rw [← h.length]
    simp
  have h0 := h.items 0 x rfl
  rw [nth_zero h.shape.rd_lt] at h0
  exact ⟨by rw [fifoGetItemRd_eq hf h.shape, if_neg hne], h0⟩

theorem itemRdNext (h : HoldsQueue cap base tr f m (x :: q)) : HoldsQueue cap base tr (fifoItemRdNext f).2 m q := by
  have hlen := h.length
  have hne : len cap f.rd f.wr ≠ 0 := by
    rw [← hlen]
    simp
  obtain ⟨hshape, hrd, hwr⟩ := itemRdNext_shape hf h.shape hne
  refine ⟨hshape, ?_, fun j y hj => ?_⟩
  · have ht := len_take h.shape.rd_lt h.shape.wr_lt fun he => hne ((len_eq_zero h.shape.rd_lt).mpr he)
    simp only [List.length_cons] at hlen
    rw [hrd, hwr]
    omega
  · rw [hrd, nth_next]
    exact h.items (j + 1) y hj

section

variable (h : HoldsQueue cap base tr f m q)

include h

theorem getItemWr_full (hq : q.length = cap - 1) : fifoGetItemWr f = 0 := by
  rw [fifoGetItemWr_eq hf h.shape, if_pos (h.length ▸ hq)]

theorem getItemWr_room (hq : q.length < cap - 1) : fifoGetItemWr f = slot 4 base f.wr := by
  rw [fifoGetItemWr_eq hf h.shape, if_neg (by rw [← h.length]; omega)]

theorem requestItemWr_room (hq : q.length < cap - 1) : ∃ i < cap, (fifoRequestItemWr f).1 = slot 4 base i := by
  have hr := h.shape.rd_lt
  have hw := h.shape.wr_lt
  have hne : ¬ f.rd = next cap f.wr := by
    rw [full_iff hr hw, ← h.length]
    omega
  refine ⟨next cap f.wr, next_lt hw, ?_⟩
  simp only [fifoRequestItemWr, h.shape.cap_eq, nextIndex_eq hf hw]
  rw [if_neg hne]
  split <;> exact itemAddr_eq hf h.shape (next_lt hw)

end

theorem requestItemWr (ha : SlotsApart cap base tr) (h : HoldsQueue cap base tr f m q) (hq : q.length < cap - 1) :
    HoldsQueue cap base tr (fifoRequestItemWr f).2 (update m (tr (slot 4 base f.wr)) x) (q ++ [x]) := by
  have hlen := h.length
  have hr := h.shape.rd_lt
  have hw := h.shape.wr_lt
  obtain ⟨hshape, hrd, hwr⟩ := requestItemWr_shape hf h.shape (by omega)
  have hne : f.rd ≠ next cap f.wr := by
    rw [ne_eq, full_iff hr hw]
    omega
  refine ⟨hshape, ?_, fun j y hj => ?_⟩
  · rw [hrd, hwr, len_put hr hw hne, ← hlen]
    simp
  · rw [hrd]
    by_cases hlast : j < q.length
    · rw [List.getElem?_append_left hlast] at hj
      have hslot : nth cap f.rd j ≠ f.wr := nth_ne hr hw (hlen ▸ hlast)
      rw [update_of_ne fun he => hslot (ha _ (nth_lt hr) _ hw he)]
      exact h.items j y hj
    · have hlt : j < (q ++ [x]).length := (List.getElem?_eq_some_iff.mp hj).1
      simp only [List.length_append, List.length_singleton] at hlt
      obtain rfl : j = q.length := by omega
      rw [List.getElem?_concat_length] at hj
      cases hj
      rw [hlen, nth_len hr hw, update_self]

end

end HoldsQueue

end H713.Fifo
