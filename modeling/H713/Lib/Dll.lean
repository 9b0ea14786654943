import Mathlib.Data.List.Chain
import Mathlib.Data.List.Nodup
import Mathlib.Logic.Function.Basic

/-!
# Lib.Dll

Doubly linked lists given by two functions `next` and `prev`, as a program keeps them in memory.

* `Ring next prev s l` is the circular list of the nodes `l` through the sentinel `s`.
* `Stack next prev nil cell first l` starts in a head cell with content `first` and ends with `nil`; the back link of
  a node is the cell that points to it.
-/

namespace H713.Dll

open Function

variable {α : Type} {next prev next' prev' : α → α}

def Linked (next prev : α → α) (a b : α) : Prop := next a = b ∧ prev b = a

theorem isChain_congr {l : List α} (h : l.IsChain (Linked next prev))
    (hn : ∀ a ∈ l.dropLast, next' a = next a) (hp : ∀ b ∈ l.tail, prev' b = prev b) :
    l.IsChain (Linked next' prev') := by
  induction l with
  | nil => exact .nil
  | cons a l ih =>
    cases l with
    | nil => exact .singleton a
    | cons b l =>
      rw [List.isChain_cons_cons] at h ⊢
      refine ⟨⟨?_, ?_⟩, ih h.2 (fun c hc => hn c ?_) (fun c hc => hp c ?_)⟩
      · rw [hn a (by simp), h.1.1]
      · rw [hp b (by simp), h.1.2]
      · simp only [List.dropLast_cons_of_ne_nil (List.cons_ne_nil b l), List.mem_cons]
        exact .inr hc
      · exact List.mem_cons_of_mem _ hc

structure Ring (next prev : α → α) (s : α) (l : List α) : Prop where
  nodup : (s :: l).Nodup
  links : (s :: (l ++ [s])).IsChain (Linked next prev)

theorem Ring.empty {s : α} (hn : next s = s) (hp : prev s = s) : Ring next prev s [] :=
  ⟨by simp, by simp [Linked, hn, hp]⟩

theorem Ring.congr {s : α} {l : List α} (h : Ring next prev s l) (hn : ∀ a ∈ s :: l, next' a = next a)
    (hp : ∀ a ∈ s :: l, prev' a = prev a) : Ring next' prev' s l := by
  refine ⟨h.nodup, isChain_congr h.links (fun a ha => hn a ?_) (fun a ha => hp a ?_)⟩
  · have hd : (s :: (l ++ [s])).dropLast = s :: l := by
      rw [← List.cons_append, List.dropLast_concat]
    rwa [hd] at ha
  · simp only [List.tail_cons, List.mem_append, List.mem_singleton] at ha
    simp only [List.mem_cons]
    exact ha.symm

theorem exists_ends (s : α) (A B : List α) : ∃ A' a b B', s :: A = A' ++ [a] ∧ B ++ [s] = b :: B' := by
  obtain ⟨A', a, hA⟩ : ∃ A' a, s :: A = A' ++ [a] :=
    ⟨_, _, (List.dropLast_append_getLast (List.cons_ne_nil s A)).symm⟩
  cases B with
  | nil => exact ⟨A', a, s, [], hA, rfl⟩
  | cons b B => exact ⟨A', a, b, B ++ [s], hA, rfl⟩

theorem Ring.cut {s : α} {A B A' B' : List α} {a b : α} (h : Ring next prev s (A ++ B))
    (hA : s :: A = A' ++ [a]) (hB : B ++ [s] = b :: B') :
    (A' ++ [a]).IsChain (Linked next prev) ∧ Linked next prev a b ∧ (b :: B').IsChain (Linked next prev) := by
  have hl := h.links
  rw [List.append_assoc, hB, ← List.cons_append, hA, List.append_assoc, List.singleton_append,
    List.isChain_split, List.isChain_cons_cons] at hl
  exact hl

theorem Ring.of_cut {s : α} {A B A' B' : List α} {a b : α} (hd : (s :: (A ++ B)).Nodup)
    (hA : s :: A = A' ++ [a]) (hB : B ++ [s] = b :: B') (h1 : (A' ++ [a]).IsChain (Linked next prev))
    (h2 : Linked next prev a b) (h3 : (b :: B').IsChain (Linked next prev)) : Ring next prev s (A ++ B) := by
  refine ⟨hd, ?_⟩
  rw [List.append_assoc, hB, ← List.cons_append, hA, List.append_assoc, List.singleton_append,
    List.isChain_split, List.isChain_cons_cons]
  exact ⟨h1, h2, h3⟩

section

variable {s : α} {l : List α} (h : Ring next prev s l)

include h

section

variable {a : α} (ha : a ∈ s :: l)

include ha

theorem Ring.around :
    ∃ A B A' B' b, l = A ++ B ∧ s :: A = A' ++ [a] ∧ B ++ [s] = b :: B' ∧ next a = b ∧ prev b = a := by
  obtain ⟨A, B, hl, hlast⟩ : ∃ A B, l = A ++ B ∧ (s :: A).getLast (List.cons_ne_nil s A) = a := by
    rcases List.mem_cons.mp ha with rfl | hmem
    · exact ⟨[], l, rfl, rfl⟩
    · obtain ⟨A, B, rfl⟩ := List.append_of_mem hmem
      exact ⟨A ++ [a], B, by simp, by simp⟩
  subst hl
  obtain ⟨_, _, b, B', _, hB⟩ := exists_ends s A B
  have hA : s :: A = (s :: A).dropLast ++ [a] := by
    rw [← hlast, List.dropLast_append_getLast]
  obtain ⟨_, hab, _⟩ := h.cut hA hB
  exact ⟨A, B, _, B', b, rfl, hA, hB, hab.1, hab.2⟩

theorem Ring.next_mem : next a ∈ s :: l := by
  obtain ⟨A, B, A', B', b, rfl, _, hB, rfl, _⟩ := h.around ha
  have hb : next a ∈ B ++ [s] := by rw [hB]; exact List.mem_cons_self
  simp only [List.mem_append, List.mem_cons, List.not_mem_nil, or_false] at hb ⊢
  rcases hb with hb | hb
  · exact .inr (.inr hb)
  · exact .inl hb

theorem Ring.prev_next : prev (next a) = a := by
  obtain ⟨_, _, _, _, _, _, _, _, rfl, hp⟩ := h.around ha
  exact hp

theorem Ring.exists_next : ∃ b ∈ s :: l, next b = a := by
  obtain ⟨A, B, hl, hhead⟩ : ∃ A B, l = A ++ B ∧ ∃ B', B ++ [s] = a :: B' := by
    rcases List.mem_cons.mp ha with rfl | hmem
    · exact ⟨l, [], by simp, [], rfl⟩
    · obtain ⟨A, B, rfl⟩ := List.append_of_mem hmem
      exact ⟨A, a :: B, rfl, B ++ [s], rfl⟩
  obtain ⟨B', hB⟩ := hhead
  subst hl
  obtain ⟨A', b, _, _, hA, _⟩ := exists_ends s A B
  obtain ⟨_, hba, _⟩ := h.cut hA hB
  refine ⟨b, ?_, hba.1⟩
  have hb : b ∈ s :: A := by rw [hA]; simp
  simp only [List.mem_cons, List.mem_append] at hb ⊢
  rcases hb with hb | hb
  · exact .inl hb
  · exact .inr (.inl hb)

theorem Ring.prev_mem : prev a ∈ s :: l := by
  obtain ⟨b, hb, rfl⟩ := h.exists_next ha
  rwa [h.prev_next hb]

theorem Ring.next_prev : next (prev a) = a := by
  obtain ⟨b, hb, rfl⟩ := h.exists_next ha
  rw [h.prev_next hb]

end

end

theorem exists_iterate : ∀ {l : List α} {s a : α}, (s :: l).IsChain (Linked next prev) → a ∈ s :: l →
    ∃ k < (s :: l).length, next^[k] s = a := by
  intro l
  induction l with
  | nil =>
    intro s a _ ha
    exact ⟨0, Nat.one_pos, (List.mem_singleton.mp ha).symm⟩
  | cons b l ih =>
    intro s a hl ha
    rw [List.isChain_cons_cons] at hl
    rcases List.mem_cons.mp ha with rfl | ha
    · exact ⟨0, Nat.succ_pos _, rfl⟩
    · obtain ⟨k, hk, heq⟩ := ih hl.2 ha
      exact ⟨k + 1, Nat.succ_lt_succ hk, by rw [iterate_succ_apply, hl.1.1, heq]⟩

theorem Ring.iterate_next {s a : α} {l : List α} (h : Ring next prev s l) (ha : a ∈ s :: l) :
    ∃ k < (s :: l).length, next^[k] s = a := by
  have hl := h.links
  rw [← List.cons_append, List.isChain_append] at hl
  exact exists_iterate hl.1 ha

theorem iterate_isChain : ∀ {l : List α} {s : α}, (s :: l).IsChain (Linked next prev) →
    next^[l.length] s = (s :: l).getLast (List.cons_ne_nil s l) := by
  intro l
  induction l with
  | nil => exact fun _ => rfl
  | cons b l ih =>
    intro s hl
    rw [List.isChain_cons_cons] at hl
    rw [List.length_cons, iterate_succ_apply, hl.1.1, ih hl.2]
    exact (List.getLast_cons (List.cons_ne_nil b l)).symm

section

variable {s : α} {l : List α} (h : Ring next prev s l)

include h

theorem Ring.iterate_length : next^[l.length + 1] s = s := by
  have hend := iterate_isChain h.links
  rwa [List.length_append, List.length_singleton, List.getLast_cons (by simp), List.getLast_concat] at hend

theorem Ring.iterate_around {a : α} (ha : a ∈ s :: l) : next^[l.length + 1] a = a := by
  obtain ⟨k, _, rfl⟩ := h.iterate_next ha
  rw [← iterate_add_apply, Nat.add_comm, iterate_add_apply, h.iterate_length]

theorem Ring.iterate_to {a : α} (ha : a ∈ s :: l) : ∃ k ≤ l.length, next^[k + 1] a = s := by
  obtain ⟨k, hk, rfl⟩ := h.iterate_next ha
  rw [List.length_cons] at hk
  refine ⟨l.length - k, by omega, ?_⟩
  rw [← iterate_add_apply, show l.length - k + 1 + k = l.length + 1 by omega, h.iterate_length]

theorem Ring.iterate_cover {a b : α} (ha : a ∈ s :: l) (hb : b ∈ s :: l) {k : Nat} (hk : next^[k + 1] a = a) :
    ∃ i ≤ k, next^[i] a = b := by
  obtain ⟨j, _, hj⟩ := h.iterate_to ha
  obtain ⟨i, _, hi⟩ := h.iterate_next hb
  have hreach : next^[i + (j + 1)] a = b := by rw [iterate_add_apply, hj, hi]
  rw [← hreach]
  generalize i + (j + 1) = n
  clear hreach
  induction n with
  | zero => exact ⟨0, Nat.zero_le k, rfl⟩
  | succ n ih =>
    obtain ⟨i, hik, hi⟩ := ih
    rw [iterate_succ_apply', ← hi, ← iterate_succ_apply' next i a]
    rcases Nat.eq_or_lt_of_le hik with rfl | hlt
    · exact ⟨0, Nat.zero_le i, hk.symm⟩
    · exact ⟨i + 1, hlt, rfl⟩

theorem Ring.iterate_mem (k : Nat) : next^[k] s ∈ s :: l := by
  induction k with
  | zero => exact List.mem_cons_self
  | succ k ih =>
    rw [iterate_succ_apply']
    exact h.next_mem ih

theorem Ring.iterate_back {a : α} (ha : a ∈ l) : ∃ k < l.length, prev^[k + 1] a = s := by
  have hback : ∀ k, prev^[k] (next^[k] s) = s := by
    intro k
    induction k with
    | zero => rfl
    | succ k ih =>
      rw [iterate_succ_apply, iterate_succ_apply', h.prev_next (h.iterate_mem k), ih]
  obtain ⟨k, hk, heq⟩ := h.iterate_next (List.mem_cons_of_mem s ha)
  rw [List.length_cons] at hk
  cases k with
  | zero =>
    rw [iterate_zero_apply] at heq
    rw [← heq] at ha
    exact absurd ha (List.nodup_cons.mp h.nodup).1
  | succ k =>
    refine ⟨k, by omega, ?_⟩
    rw [← heq, hback]

end

theorem walk_ends {β : Type} {walk : Nat → α → Option β} {S : α → Prop} {stop : α}
    (hnext : ∀ a, S a → S (next a)) (hstop : ∀ f a, S a → next a = stop → walk (f + 1) a ≠ none)
    (hstep : ∀ f a, S a → walk f (next a) ≠ none → walk (f + 1) a ≠ none) :
    ∀ {k a fuel}, S a → next^[k + 1] a = stop → k < fuel → walk fuel a ≠ none := by
  intro k
  induction k with
  | zero =>
    intro a fuel ha hend hk
    obtain ⟨f, rfl⟩ : ∃ f, fuel = f + 1 := ⟨fuel - 1, by omega⟩
    exact hstop f a ha hend
  | succ k ih =>
    intro a fuel ha hend hk
    obtain ⟨f, rfl⟩ : ∃ f, fuel = f + 1 := ⟨fuel - 1, by omega⟩
    rw [iterate_succ_apply] at hend
    exact hstep f a ha (ih (hnext a ha) hend (by omega))

theorem Ring.pairwise {s : α} {l : List α} {R : α → α → Prop} [Trans R R R] (h : Ring next prev s l)
    (hR : ∀ a ∈ l, next a = s ∨ R a (next a)) : l.Pairwise R := by
  have hl := (List.isChain_append.mp h.links.tail).1
  refine (hl.imp_of_mem_imp fun a b ha hb hab => ?_).pairwise
  rw [← hab.1] at hb ⊢
  refine (hR a ha).resolve_left fun hs => (List.nodup_cons.mp h.nodup).1 ?_
  rwa [hs] at hb

theorem isChain_halves (next' prev' : α → α) {s : α} {A B A' B' : List α} {a b : α} (hd : (s :: (A ++ B)).Nodup)
    (hA : s :: A = A' ++ [a]) (hB : B ++ [s] = b :: B')
    (h1 : (A' ++ [a]).IsChain (Linked next prev)) (h3 : (b :: B').IsChain (Linked next prev))
    (hn : ∀ c ∈ s :: (A ++ B), c ≠ a → next' c = next c) (hp : ∀ c ∈ s :: (A ++ B), c ≠ b → prev' c = prev c) :
    (A' ++ [a]).IsChain (Linked next' prev') ∧ (b :: B').IsChain (Linked next' prev') := by
  obtain ⟨hs, hAB⟩ := List.nodup_cons.mp hd
  rw [List.mem_append, not_or] at hs
  obtain ⟨hdA, hdB, hdisj⟩ := List.nodup_append.mp hAB
  have hdA' : (A' ++ [a]).Nodup := hA ▸ List.nodup_cons.mpr ⟨hs.1, hdA⟩
  have hdB' : (b :: B').Nodup := by
    rw [← hB]
    exact List.nodup_append.mpr ⟨hdB, by simp, fun c hc d hd' hcd =>
      hs.2 (by rw [List.mem_singleton.mp hd'] at hcd; rwa [← hcd])⟩
  have htail : (A' ++ [a]).tail = A := by rw [← hA]; rfl
  have hdrop : (b :: B').dropLast = B := by rw [← hB, List.dropLast_concat]
  have hb : b ∈ B ∨ b = s := by
    have hmem : b ∈ B ++ [s] := by rw [hB]; exact List.mem_cons_self
    simpa using hmem
  have ha : a = s ∨ a ∈ A := by
    have hmem : a ∈ s :: A := by rw [hA]; simp
    simpa using hmem
  refine ⟨isChain_congr h1 (fun c hc => hn c ?_ ?_) (fun c hc => hp c ?_ ?_),
    isChain_congr h3 (fun c hc => hn c ?_ ?_) (fun c hc => hp c ?_ ?_)⟩
  · rw [List.dropLast_concat] at hc
    have hmem : c ∈ s :: A := by rw [hA]; simp [hc]
    simp only [List.mem_cons, List.mem_append] at hmem ⊢
    exact hmem.imp id .inl
  · rw [List.dropLast_concat] at hc
    rintro rfl
    exact (List.nodup_append.mp hdA').2.2 c hc c (by simp) rfl
  · rw [htail] at hc
    simp [hc]
  · rw [htail] at hc
    rintro rfl
    rcases hb with hb | rfl
    · exact hdisj c hc c hb rfl
    · exact hs.1 hc
  · rw [hdrop] at hc
    simp [hc]
  · rw [hdrop] at hc
    rintro rfl
    rcases ha with rfl | ha
    · exact hs.2 hc
    · exact hdisj c ha c hc rfl
  · have hmem : c ∈ B ++ [s] := by rw [hB]; exact List.mem_cons_of_mem _ hc
    simp only [List.mem_cons, List.mem_append, List.not_mem_nil, or_false] at hmem ⊢
    rcases hmem with hmem | rfl
    · exact .inr (.inr hmem)
    · exact .inl rfl
  · rintro rfl
    exact (List.nodup_cons.mp hdB').1 hc

section

variable {s : α} {l : List α} (h : Ring next prev s l)

include h

theorem Ring.next_ne {x : α} (hx : x ∈ l) : next x ≠ x := by
  intro heq
  have hmem : x ∈ s :: l := List.mem_cons_of_mem s hx
  obtain ⟨A, B, A', B', b, hl, hA, hB, hxb, _⟩ := h.around hmem
  have hd := h.nodup
  rw [hl, ← List.cons_append, hA] at hd
  have hb : x ∈ B ++ [s] := by rw [hB, ← hxb, heq]; exact List.mem_cons_self
  rcases List.mem_append.mp hb with hb | hb
  · exact (List.nodup_append.mp hd).2.2 x (by simp) x hb rfl
  · rw [List.mem_singleton] at hb
    exact (List.nodup_cons.mp h.nodup).1 (hb ▸ hx)

theorem Ring.prev_ne {x : α} (hx : x ∈ l) : prev x ≠ x := by
  intro heq
  have hnext := h.next_prev (List.mem_cons_of_mem s hx)
  rw [heq] at hnext
  exact h.next_ne hx hnext

theorem Ring.of_next_next (hone : next (next s) = s) : (l = [] ∨ l = [next s]) ∧ ∀ x ∈ s :: l, prev x = next x := by
  obtain ⟨hnd, hlinks⟩ := h
  cases l with
  | nil =>
    simp only [List.nil_append, List.isChain_cons_cons, Linked] at hlinks
    simp [hlinks.1.1, hlinks.1.2]
  | cons f l =>
    cases l with
    | nil =>
      simp only [List.cons_append, List.nil_append, List.isChain_cons_cons, Linked] at hlinks
      simp [hlinks.1.1, hlinks.1.2, hlinks.2.1.1, hlinks.2.1.2]
    | cons f' l =>
      simp only [List.cons_append, List.isChain_cons_cons, Linked] at hlinks
      rw [hlinks.1.1, hlinks.2.1.1] at hone
      simp [hone] at hnd

end

section

variable [DecidableEq α] {s x y : α} {l : List α}

theorem Ring.remove_mid {A B : List α} (h : Ring next prev s (A ++ x :: B)) :
    Ring (update next (prev x) (next x)) (update prev (next x) (prev x)) s (A ++ B) := by
  obtain ⟨A', a, b, B', hA, hB⟩ := exists_ends s A B
  obtain ⟨h1, hax, hxB⟩ := h.cut hA (show (x :: B) ++ [s] = x :: (B ++ [s]) from rfl)
  rw [hB, List.isChain_cons_cons] at hxB
  obtain ⟨hxb, h3⟩ := hxB
  have hd : (s :: (A ++ B)).Nodup := by
    have hd := h.nodup
    rw [← List.cons_append, List.nodup_middle] at hd
    exact (List.nodup_cons.mp hd).2
  rw [hax.2, hxb.1]
  obtain ⟨h1', h3'⟩ := isChain_halves (update next a b) (update prev b a) hd hA hB h1 h3
    (fun c _ hc => update_of_ne hc b next) (fun c _ hc => update_of_ne hc a prev)
  exact .of_cut hd hA hB h1' ⟨update_self .., update_self ..⟩ h3'

theorem Ring.remove (h : Ring next prev s l) (hx : x ∈ l) : ∃ l',
    Ring (update next (prev x) (next x)) (update prev (next x) (prev x)) s l' ∧ ∀ z, z ∈ l' ↔ z ∈ l ∧ z ≠ x := by
  obtain ⟨A, B, rfl⟩ := List.append_of_mem hx
  refine ⟨A ++ B, h.remove_mid, fun z => ?_⟩
  have hnot : x ∉ A ++ B := (List.nodup_middle.mp (List.nodup_cons.mp h.nodup).2).notMem
  constructor
  · intro hz
    refine ⟨?_, fun hzx => hnot (hzx ▸ hz)⟩
    simp only [List.mem_append, List.mem_cons] at hz ⊢
    exact hz.imp id .inr
  · rintro ⟨hz, hne⟩
    simp only [List.mem_append, List.mem_cons] at hz ⊢
    exact hz.imp id fun h => h.resolve_left hne

theorem Ring.insert_mid {A B A' : List α} (h : Ring next prev s (A ++ B)) (hA : s :: A = A' ++ [x])
    (hy : y ∉ s :: (A ++ B)) : Ring (update (update next y (next x)) x y)
      (update (update prev y x) (next x) y) s (A ++ y :: B) := by
  obtain ⟨_, _, b, B', _, hB⟩ := exists_ends s A B
  obtain ⟨h1, hab, h3⟩ := h.cut hA hB
  obtain rfl : next x = b := hab.1
  have hx : x ∈ s :: (A ++ B) := by
    rw [← List.cons_append, hA]
    simp
  have hyx : y ≠ x := fun hyx => hy (hyx ▸ hx)
  have hyb : y ≠ next x := fun hyb => hy (hyb ▸ h.next_mem hx)
  have hne : ∀ c ∈ s :: (A ++ B), c ≠ y := fun c hc hcy => hy (hcy ▸ hc)
  obtain ⟨h1', h3'⟩ := isChain_halves (update (update next y (next x)) x y)
    (update (update prev y x) (next x) y) h.nodup hA hB h1 h3
    (fun c hc hca => by rw [update_of_ne hca, update_of_ne (hne c hc)])
    (fun c hc hcb => by rw [update_of_ne hcb, update_of_ne (hne c hc)])
  have hd : (s :: (A ++ y :: B)).Nodup := by
    rw [← List.cons_append, List.nodup_middle]
    exact List.nodup_cons.mpr ⟨hy, h.nodup⟩
  refine .of_cut hd hA (show (y :: B) ++ [s] = y :: (B ++ [s]) from rfl) h1' ?_ ?_
  · exact ⟨update_self .., by rw [update_of_ne hyb, update_self]⟩
  · rw [hB, List.isChain_cons_cons]
    refine ⟨⟨?_, update_self ..⟩, h3'⟩
    rw [update_of_ne hyx, update_self]

theorem Ring.insert_after (h : Ring next prev s l) (hx : x ∈ s :: l) (hy : y ∉ s :: l) : ∃ l',
    Ring (update (update next y (next x)) x y)
      (update (update prev y x) (next x) y) s l' ∧ ∀ z, z ∈ l' ↔ z = y ∨ z ∈ l := by
  obtain ⟨A, B, A', _, _, rfl, hA, _⟩ := h.around hx
  refine ⟨A ++ y :: B, h.insert_mid hA hy, fun z => ?_⟩
  simp only [List.mem_append, List.mem_cons]
  exact or_left_comm

theorem Ring.append (h : Ring next prev s l) (hy : y ∉ s :: l) : Ring (update (update next y s) (prev s) y)
      (update (update prev y (prev s)) s y) s (l ++ [y]) := by
  have hs : s ∈ s :: l := List.mem_cons_self
  obtain ⟨A', x, hA⟩ : ∃ A' x, s :: l = A' ++ [x] :=
    ⟨_, _, (List.dropLast_append_getLast (List.cons_ne_nil s l)).symm⟩
  have h' : Ring next prev s (l ++ []) := by rwa [List.append_nil]
  obtain ⟨_, hxs, _⟩ := h'.cut hA (List.nil_append [s])
  obtain rfl : prev s = x := hxs.2
  have hins := h'.insert_mid hA (by rwa [List.append_nil])
  rwa [h.next_prev hs] at hins

theorem Ring.replace (h : Ring next prev s l) (hx : x ∈ l) (hy : y ∉ s :: l) : ∃ l',
    Ring (update (update next y (next x)) (prev x) y) (update (update prev y (prev x)) (next x) y) s l' ∧
      ∀ z, z ∈ l' ↔ z = y ∨ z ∈ l ∧ z ≠ x := by
  have hmem : x ∈ s :: l := List.mem_cons_of_mem s hx
  obtain ⟨l₁, hr, hl₁⟩ := h.remove hx
  have hprev : prev x ∈ s :: l₁ := by
    rcases List.mem_cons.mp (h.prev_mem hmem) with hs | hl
    · rw [hs]; exact List.mem_cons_self
    · exact List.mem_cons_of_mem s ((hl₁ _).mpr ⟨hl, h.prev_ne hx⟩)
  have hy₁ : y ∉ s :: l₁ := by
    intro hy'
    rcases List.mem_cons.mp hy' with hs | hl
    · exact hy (hs ▸ List.mem_cons_self)
    · exact hy (List.mem_cons_of_mem s ((hl₁ y).mp hl).1)
  obtain ⟨l₂, hr₂, hl₂⟩ := hr.insert_after hprev hy₁
  rw [update_self] at hr₂
  refine ⟨l₂, hr₂.congr (fun c _ => ?_) (fun c _ => ?_), fun z => by rw [hl₂, hl₁]⟩
  · simp only [update_apply]
    split <;> rfl
  · simp only [update_apply]
    split <;> rfl

end

def Stack (next prev : α → α) (nil : α) : α → α → List α → Prop
  | _, first, [] => first = nil
  | cell, first, b :: l => first = b ∧ prev b = cell ∧ Stack next prev nil b (next b) l

theorem Stack.congr {nil : α} : ∀ {l : List α} {cell first : α},
    Stack next prev nil cell first l → (∀ b ∈ l, next' b = next b ∧ prev' b = prev b) →
    Stack next' prev' nil cell first l := by
  intro l
  induction l with
  | nil => exact fun h _ => h
  | cons b l ih =>
    rintro cell first ⟨hf, hp, hs⟩ hag
    obtain ⟨hn, hp'⟩ := hag b List.mem_cons_self
    refine ⟨hf, hp'.trans hp, ?_⟩
    rw [hn]
    exact ih hs fun c hc => hag c (List.mem_cons_of_mem b hc)

theorem Stack.refront {nil cell cell' first : α} {l : List α} (h : Stack next prev nil cell first l) (hd : l.Nodup)
    (hhead : ∀ c ∈ l, c = first → prev' c = cell') (hn : ∀ c ∈ l, next' c = next c)
    (hp : ∀ c ∈ l, c ≠ first → prev' c = prev c) : Stack next' prev' nil cell' first l := by
  cases l with
  | nil => exact h
  | cons c l =>
    obtain ⟨hc, _, hs⟩ := h
    have hcl : c ∉ l := (List.nodup_cons.mp hd).1
    refine ⟨hc, hhead c List.mem_cons_self hc.symm, ?_⟩
    rw [hn c List.mem_cons_self]
    refine hs.congr fun d hd' => ⟨hn d (List.mem_cons_of_mem c hd'), hp d (List.mem_cons_of_mem c hd') ?_⟩
    rintro rfl
    exact hcl (hc ▸ hd')

theorem Stack.pop {nil cell first b : α} {l : List α} (h : Stack next prev nil cell first (b :: l)) (hd : l.Nodup)
    (hhead : ∀ c ∈ l, c = next b → prev' c = cell)
    (hn : ∀ c ∈ l, next' c = next c) (hp : ∀ c ∈ l, c ≠ next b → prev' c = prev c) :
    Stack next' prev' nil cell (next b) l := by
  obtain ⟨_, _, hs⟩ := h
  exact hs.refront hd hhead hn hp

theorem Stack.push {nil cell first b : α} {l : List α} (h : Stack next prev nil cell first l)
    (hd : l.Nodup) (hnb : next' b = first) (hpb : prev' b = cell) (hhead : ∀ c ∈ l, c = first → prev' c = b)
    (hn : ∀ c ∈ l, next' c = next c) (hp : ∀ c ∈ l, c ≠ first → prev' c = prev c) :
    Stack next' prev' nil cell b (b :: l) := by
  refine ⟨rfl, hpb, ?_⟩
  rw [hnb]
  exact h.refront hd hhead hn hp

end H713.Dll
