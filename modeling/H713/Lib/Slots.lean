import Mathlib.Data.Finset.Card

/-!
# Lib.Slots

An array of `n` slots in which each slot holds the key of at most one member of a set, and `z` when it is free.
`first` is the linear search, `used` the slots that are taken.
-/

namespace H713.Slots

open Function

variable {α β : Type}

def first [DecidableEq α] (n : Nat) (f : Nat → α) (k : α) : Option Nat :=
  (List.range n).find? fun i => f i = k

def used [DecidableEq α] (n : Nat) (f : Nat → α) (z : α) : Finset Nat :=
  (Finset.range n).filter fun i => f i ≠ z

def rewrite (n : Nat) (g : α → α) (f : Nat → α) : Nat → α :=
  (List.range n).foldl (fun f i => update f i (g (f i))) f

theorem rewrite_apply (g : α → α) (f : Nat → α) (n j : Nat) : rewrite n g f j = if j < n then g (f j) else f j := by
  induction n with
  | zero => rfl
  | succ n ih =>
    have hsplit : rewrite (n + 1) g f = update (rewrite n g f) n (g (rewrite n g f n)) := by
      simp [rewrite, List.range_succ]
    rw [hsplit]
    by_cases hj : j = n
    · subst hj
      simp only [update_self, lt_self_iff_false, if_false] at ih ⊢
      rw [ih, if_pos (Nat.lt_succ_self j)]
    · rw [update_of_ne hj, ih]
      by_cases hlt : j < n
      · rw [if_pos hlt, if_pos (by omega)]
      · rw [if_neg hlt, if_neg (by omega)]

/-- The slots other than `z` hold the keys of `S`, each once. -/
structure Holds (n : Nat) (f : Nat → α) (z : α) (key : β → α) (S : Finset β) : Prop where
  each : ∀ b ∈ S, ∃! i, i < n ∧ f i ≠ z ∧ f i = key b
  apart : ∀ b ∈ S, ∀ c ∈ S, key b = key c → b = c
  only : ∀ i < n, f i ≠ z → ∃ b ∈ S, f i = key b

section

variable [DecidableEq α] {n j : Nat} {f : Nat → α} {z k : α}

theorem first_some (h : first n f k = some j) : j < n ∧ f j = k :=
  ⟨List.mem_range.mp (List.mem_of_find?_eq_some h), by simpa using List.find?_some h⟩

theorem first_none : first n f k = none ↔ ∀ i < n, f i ≠ k := by
  simp [first]

theorem first_unique (hj : j < n) (hk : f j = k) (h : ∀ i < n, f i = k → i = j) : first n f k = some j := by
  cases hf : first n f k with
  | none => exact absurd hk (first_none.mp hf j hj)
  | some i =>
    obtain ⟨hi, hki⟩ := first_some hf
    rw [h i hi hki]

theorem mem_used {i : Nat} : i ∈ used n f z ↔ i < n ∧ f i ≠ z := by
  simp [used]

theorem card_used_le : (used n f z).card ≤ n :=
  (Finset.card_filter_le _ _).trans (Finset.card_range n).le

theorem used_fill (hj : j < n) (hk : k ≠ z) : used n (update f j k) z = insert j (used n f z) := by
  ext i
  rw [Finset.mem_insert, mem_used, mem_used]
  by_cases h : i = j
  · subst h
    simp [hj, hk]
  · simp [h]

theorem used_clear : used n (update f j z) z = (used n f z).erase j := by
  ext i
  rw [Finset.mem_erase, mem_used, mem_used]
  by_cases h : i = j
  · subst h
    simp
  · simp [h]

theorem card_used_fill (hj : j < n) (hz : f j = z) (hk : k ≠ z) :
    (used n (update f j k) z).card = (used n f z).card + 1 := by
  rw [used_fill hj hk, Finset.card_insert_of_notMem fun h => (mem_used.mp h).2 hz]

theorem card_used_clear (hj : j < n) (hz : f j ≠ z) : (used n (update f j z) z).card + 1 = (used n f z).card := by
  rw [used_clear, Finset.card_erase_add_one (mem_used.mpr ⟨hj, hz⟩)]

end

namespace Holds

variable {n j : Nat} {f : Nat → α} {z : α} {key : β → α} {S T : Finset β} {b : β}

theorem empty (h : ∀ i < n, f i = z) : Holds n f z key ∅ where
  each := fun b hb => by simp at hb
  apart := fun b hb => by simp at hb
  only := fun i hi hz => absurd (h i hi) hz

section

variable (h : Holds n f z key S)

include h

theorem slot (hb : b ∈ S) : ∃ i, i < n ∧ f i ≠ z ∧ f i = key b :=
  (h.each b hb).exists

theorem key_ne (hb : b ∈ S) : key b ≠ z := by
  obtain ⟨i, -, hz, hk⟩ := h.slot hb
  exact hk ▸ hz

theorem slot_unique (hb : b ∈ S) {i : Nat} (hi : i < n) (hj : j < n) (hki : f i = key b) (hkj : f j = key b) :
    i = j :=
  have hz := h.key_ne hb
  (h.each b hb).unique ⟨hi, hki ▸ hz, hki⟩ ⟨hj, hkj ▸ hz, hkj⟩

theorem fill [DecidableEq β] (hj : j < n) (hz : f j = z) (hk : key b ≠ z) (hnew : ∀ c ∈ S, key c ≠ key b) :
    Holds n (update f j (key b)) z key (insert b S) where
  each := by
    intro c hc
    rcases Finset.mem_insert.mp hc with rfl | hc
    · refine ⟨j, ⟨hj, by simpa using hk, by simp⟩, fun i hi => ?_⟩
      obtain ⟨hi, hzi, hki⟩ := hi
      by_contra hij
      rw [update_of_ne hij] at hzi hki
      obtain ⟨d, hd, hkd⟩ := h.only i hi hzi
      exact hnew d hd (hkd.symm.trans hki)
    · obtain ⟨i, hi, hzi, hki⟩ := h.slot hc
      have hij : i ≠ j := fun he => hzi (he ▸ hz)
      refine ⟨i, ⟨hi, by rwa [update_of_ne hij], by rwa [update_of_ne hij]⟩, ?_⟩
      rintro i' ⟨hi', -, hki'⟩
      by_cases hij' : i' = j
      · subst hij'
        rw [update_self] at hki'
        exact absurd hki'.symm (hnew c hc)
      · rw [update_of_ne hij'] at hki'
        exact h.slot_unique hc hi' hi hki' hki
  apart := by
    intro c hc d hd hcd
    rcases Finset.mem_insert.mp hc with rfl | hcS
    · rcases Finset.mem_insert.mp hd with rfl | hdS
      · rfl
      · exact absurd hcd.symm (hnew d hdS)
    · rcases Finset.mem_insert.mp hd with rfl | hdS
      · exact absurd hcd (hnew c hcS)
      · exact h.apart c hcS d hdS hcd
  only := by
    intro i hi hzi
    by_cases hij : i = j
    · subst hij
      exact ⟨b, Finset.mem_insert_self b S, update_self ..⟩
    · rw [update_of_ne hij] at hzi ⊢
      obtain ⟨c, hc, hkc⟩ := h.only i hi hzi
      exact ⟨c, Finset.mem_insert_of_mem hc, hkc⟩

theorem clear [DecidableEq β] (hj : j < n) (hb : b ∈ S) (hk : f j = key b) :
    Holds n (update f j z) z key (S.erase b) where
  each := by
    intro c hc
    obtain ⟨hcb, hc⟩ := Finset.mem_erase.mp hc
    obtain ⟨i, hi, hzi, hki⟩ := h.slot hc
    have hij : i ≠ j := by
      intro he
      exact hcb (h.apart c hc b hb (hki.symm.trans (he ▸ hk)))
    refine ⟨i, ⟨hi, by rwa [update_of_ne hij], by rwa [update_of_ne hij]⟩, ?_⟩
    rintro i' ⟨hi', hzi', hki'⟩
    have hij' : i' ≠ j := fun he => hzi' (by rw [he, update_self])
    rw [update_of_ne hij'] at hki'
    exact h.slot_unique hc hi' hi hki' hki
  apart := fun c hc d hd => h.apart c (Finset.mem_of_mem_erase hc) d (Finset.mem_of_mem_erase hd)
  only := by
    intro i hi hzi
    have hij : i ≠ j := fun he => hzi (by rw [he, update_self])
    rw [update_of_ne hij] at hzi ⊢
    obtain ⟨c, hc, hkc⟩ := h.only i hi hzi
    have hcb : c ≠ b := by
      rintro rfl
      exact hij (h.slot_unique hc hi hj hkc hk)
    exact ⟨c, Finset.mem_erase.mpr ⟨hcb, hc⟩, hkc⟩

theorem mem_of_insert [DecidableEq β] (h' : Holds n f z key (insert b S)) : b ∈ S := by
  have hb := Finset.mem_insert_self b S
  obtain ⟨i, hi, hzi, hki⟩ := h'.slot hb
  obtain ⟨c, hc, hkc⟩ := h.only i hi hzi
  rw [h'.apart b hb c (Finset.mem_insert_of_mem hc) (hki.symm.trans hkc)]
  exact hc

theorem notMem_of_erase [DecidableEq β] (h' : Holds n f z key (S.erase b)) : b ∉ S := by
  intro hb
  obtain ⟨i, hi, hzi, hki⟩ := h.slot hb
  obtain ⟨c, hc, hkc⟩ := h'.only i hi hzi
  obtain ⟨hcb, hc⟩ := Finset.mem_erase.mp hc
  exact hcb (h.apart c hc b hb (hkc.symm.trans hki))

theorem not_fill_again (hb : b ∈ S) (hj : j < n) (hz : f j = z) (hT : b ∈ T) :
    ¬ Holds n (update f j (key b)) z key T := by
  intro h'
  obtain ⟨i, hi, hzi, hki⟩ := h.slot hb
  have hij : i ≠ j := fun he => hzi (he ▸ hz)
  exact hij (h'.slot_unique hT hi hj (by rwa [update_of_ne hij])
    (update_self ..))

theorem not_clear (hb : b ∈ S) (hj : j < n) (hk : f j = key b) (hT : b ∈ T) : ¬ Holds n (update f j z) z key T := by
  intro h'
  obtain ⟨i, hi, hzi, hki⟩ := h'.slot hT
  have hij : i ≠ j := fun he => hzi (by rw [he, update_self])
  rw [update_of_ne hij] at hki
  exact hij (h.slot_unique hb hi hj hki hk)

end

end Holds

end H713.Slots
