import H713.Smm.Large

/-!
# Smm.Small

The small path of `__shmalloc`: the block at the head of its class list, or a page cut up into blocks. Taking a
block counts down an entry that is the one of its own page only for the first block of a page.
-/

namespace H713.Smm

open Function
open Dll

theorem shiftRounds_le : ∀ (f v k : Nat), v < 2 ^ k → shiftRounds f v ≤ k := by
  intro f
  induction f with
  | zero => intro v k _; exact Nat.zero_le k
  | succ f ih =>
    intro v k hv
    simp only [shiftRounds]
    split
    · exact Nat.zero_le k
    · cases k with
      | zero => omega
      | succ k =>
        have := ih (v / 2) k (by rw [Nat.pow_succ] at hv; omega)
        omega

theorem lt_shiftRounds : ∀ (f v : Nat), v < 2 ^ f → v < 2 ^ shiftRounds f v := by
  intro f
  induction f with
  | zero => intro v hv; exact hv
  | succ f ih =>
    intro v hv
    simp only [shiftRounds]
    split
    · omega
    · have := ih (v / 2) (by rw [Nat.pow_succ] at hv; omega)
      rw [Nat.pow_succ]
      omega

theorem sizeClass_spec {size : Nat} (h8 : 8 ≤ size) (hle : size ≤ 2048) :
    4 ≤ sizeClass size ∧ sizeClass size ≤ 12 ∧ size ≤ 2 ^ sizeClass size := by
  have hup := shiftRounds_le 32 (size - 1) 11 (by omega)
  have hlt := lt_shiftRounds 32 (size - 1) (by omega)
  have hlow : 3 ≤ shiftRounds 32 (size - 1) := by
    by_contra hnot
    have hpow : 2 ^ shiftRounds 32 (size - 1) ≤ 2 ^ 2 := Nat.pow_le_pow_right (by omega) (by omega)
    omega
  simp only [sizeClass]
  refine ⟨by omega, by omega, ?_⟩
  rw [Nat.pow_add]
  omega

/-- A block put in front of the list of class `c`. -/
def View.push (v : View) (c cell b : Nat) : View :=
  let v' := ((v.setDat b (v.hw (2 * c + 17))).setDat (b + 4) cell).setHw (2 * c + 17) b
  if v.hw (2 * c + 17) ≠ 0 then v'.setDat (v.hw (2 * c + 17) + 4) b else v'

@[simp] theorem View.pte_push (v : View) (c cell b : Nat) : (v.push c cell b).pte = v.pte := by
  simp only [View.push]
  split <;> rfl

theorem View.push_setPte (v : View) (c cell b p j x : Nat) :
    (v.push c cell b).setPte p j x = (v.setPte p j x).push c cell b := by
  have hhw : (v.setPte p j x).hw (2 * c + 17) = v.hw (2 * c + 17) := rfl
  simp only [View.push]
  by_cases hz : v.hw (2 * c + 17) = 0
  · rw [if_neg (not_not.mpr hz), if_neg (not_not.mpr (hhw.trans hz))]
    rfl
  · rw [if_pos hz, if_pos (hhw ▸ hz)]
    rfl

theorem View.hw_push (v : View) (c cell b k : Nat) :
    (v.push c cell b).hw k = if k = 2 * c + 17 then b else v.hw k := by
  simp only [View.push]
  split <;> simp

theorem View.dat_push (v : View) (c cell b a : Nat) :
    (v.push c cell b).dat a = if v.hw (2 * c + 17) ≠ 0 ∧ a = v.hw (2 * c + 17) + 4 then b
      else if a = b + 4 then cell else if a = b then v.hw (2 * c + 17) else v.dat a := by
  simp only [View.push]
  split
  · rename_i hne
    simp [hne]
  · rename_i hz
    simp [hz]

def View.pop (v : View) (c cell b : Nat) : View :=
  (if v.dat b ≠ 0 then v.setDat (v.dat b + 4) cell else v).setHw (2 * c + 17) (v.dat b)

theorem View.hw_pop (v : View) (c cell b k : Nat) :
    (v.pop c cell b).hw k = if k = 2 * c + 17 then v.dat b else v.hw k := by
  simp only [View.pop]
  split <;> simp

theorem View.pte_pop (v : View) (c cell b : Nat) : (v.pop c cell b).pte = v.pte := by
  simp only [View.pop]
  split <;> rfl

theorem View.dat_pop (v : View) (c cell b a : Nat) :
    (v.pop c cell b).dat a = if v.dat b ≠ 0 ∧ a = v.dat b + 4 then cell else v.dat a := by
  simp only [View.pop]
  split
  · rename_i hne
    simp [hne]
  · rename_i hz
    simp [hz]

namespace Place

variable {s : Shm} {h : Place s} {v : View} {m : Mem} {g : Ghost} {p c : Nat}

theorem Core.list_cons {c : Nat} (hc : h.Core v g) (h4 : 4 ≤ c) (h11 : c ≤ 11)
    (hne : v.hw (2 * c + 17) ≠ 0) : ∃ l, g.blocks c = v.hw (2 * c + 17) :: l := by
  have hs := hc.stack c h4 h11
  cases hl : g.blocks c with
  | nil => rw [hl] at hs; exact absurd hs hne
  | cons b l =>
    rw [hl] at hs
    exact ⟨l, by rw [hs.1]⟩

variable {b : Nat} {l : List Nat}

section

variable (hc : h.Core v g)

include hc

theorem Core.words_ne {c c' b' : Nat} (hb : h.BlockAt g c b) (hb' : h.BlockAt g c' b') (hne : b ≠ b') :
    b ≠ b' + 4 ∧ b + 4 ≠ b' ∧ b + 4 ≠ b' + 4 := by
  obtain ⟨p, hf⟩ := hc.blockFacts hb
  obtain ⟨p', hf'⟩ := hc.blockFacts hb'
  have := hf.aligned
  have := hf'.aligned
  omega

theorem Core.block_pos {c : Nat} (hb : h.BlockAt g c b) : b ≠ 0 := by
  obtain ⟨q, hq⟩ := hc.blockFacts hb
  have hge := hq.ge
  have hpos := h.phy_pos
  simp only [page] at hge
  omega

theorem Core.setList {v' : View} {c : Nat} (h11 : c ≤ 11) (hpte : v'.pte = v.pte)
    (hhw : ∀ k, k ≠ 2 * c + 17 → v'.hw k = v.hw k)
    (hdat : ∀ d, d ≠ c → ∀ b ∈ g.blocks d, v'.dat b = v.dat b ∧ v'.dat (b + 4) = v.dat (b + 4))
    (hstack : Stack v'.dat (fun b => v'.dat (b + 4)) 0 (h.listHead c) (v'.hw (2 * c + 17)) l)
    (hblock : ∀ b ∈ l, h.BlockAt g c b) (hnodup : l.Nodup) :
    h.Core v' { g with blocks := update g.blocks c l } := by
  refine { hc with
    toHeader := hc.toHeader.congr fun k _ hk => hhw k (by omega),
    toLists := ⟨fun d h4' h11' => ?_, fun d b hb => ?_, fun d => ?_⟩,
    entry := fun p => by rw [hpte]; exact hc.entry p,
    sentinel := by rw [hpte]; exact hc.sentinel,
    ring := by rw [hpte]; exact hc.ring,
    hint := by rw [hhw 3 (by omega)]; exact hc.hint }
  · by_cases hd : d = c
    · subst hd
      simp only [update_self]
      exact hstack
    · simp only [update_of_ne hd]
      rw [hhw _ (by omega)]
      exact (hc.stack d h4' h11').congr (hdat d hd)
  · by_cases hd : d = c
    · subst hd
      simp only [update_self] at hb
      exact ⟨h11, hblock b hb⟩
    · simp only [update_of_ne hd] at hb
      exact hc.block d b hb
  · by_cases hd : d = c
    · subst hd
      simp only [update_self]
      exact hnodup
    · simp only [update_of_ne hd]
      exact hc.block_nodup d

theorem Core.push {c : Nat} (h4 : 4 ≤ c) (h11 : c ≤ 11) (hb : h.BlockAt g c b) (hnew : b ∉ g.blocks c) :
    h.Core (v.push c (h.listHead c) b) { g with blocks := update g.blocks c (b :: g.blocks c) } := by
  have hother : ∀ k, k ≠ 2 * c + 17 → (v.push c (h.listHead c) b).hw k = v.hw k := by
    intro k hk
    rw [View.hw_push, if_neg hk]
  have hhead : v.hw (2 * c + 17) ≠ 0 → h.BlockAt g c (v.hw (2 * c + 17)) := by
    intro hne
    obtain ⟨l, hl⟩ := hc.list_cons h4 h11 hne
    exact (hc.block c _ (by rw [hl]; exact List.mem_cons_self)).2
  -- words of free blocks keep their contents, but for the back link of the old head
  have hdat : ∀ d b', b' ∈ g.blocks d → (v.push c (h.listHead c) b).dat b' = v.dat b' ∧
      ((d = c → b' ≠ v.hw (2 * c + 17)) → (v.push c (h.listHead c) b).dat (b' + 4) = v.dat (b' + 4)) := by
    intro d b' hb'
    have hat := (hc.block d b' hb').2
    have hbb : b' ≠ b := by
      rintro rfl
      rw [hc.class_unique hat hb] at hb'
      exact hnew hb'
    obtain ⟨hw1, hw2, hw3⟩ := hc.words_ne hat hb hbb
    refine ⟨?_, fun hd => ?_⟩
    · have hold : ¬ (v.hw (2 * c + 17) ≠ 0 ∧ b' = v.hw (2 * c + 17) + 4) := by
        rintro ⟨hne, heq⟩
        exact (hc.words_ne hat (hhead hne) (by omega)).1 heq
      rw [View.dat_push, if_neg hold, if_neg hw1, if_neg hbb]
    · have hold : ¬ (v.hw (2 * c + 17) ≠ 0 ∧ b' + 4 = v.hw (2 * c + 17) + 4) := by
        rintro ⟨hne, heq⟩
        have heq' : b' = v.hw (2 * c + 17) := by omega
        exact hd (hc.class_unique hat (heq' ▸ hhead hne)) heq'
      rw [View.dat_push, if_neg hold, if_neg hw3, if_neg hw2]
  refine hc.setList h11 (View.pte_push ..) hother (fun d hd b' hb' => ?_) ?_ ?_ ?_
  · exact ⟨(hdat d b' hb').1, (hdat d b' hb').2 fun heq => absurd heq hd⟩
  · rw [View.hw_push, if_pos rfl]
    refine (hc.stack c h4 h11).push (hc.block_nodup c) ?_ ?_ (fun b' hb' heq => ?_) (fun b' hb' => ?_)
      (fun b' hb' hne => ?_)
    · have hold : ¬ (v.hw (2 * c + 17) ≠ 0 ∧ b = v.hw (2 * c + 17) + 4) := by
        rintro ⟨hne, heq⟩
        exact (hc.words_ne hb (hhead hne) (by omega)).1 heq
      rw [View.dat_push, if_neg hold, if_neg (by omega), if_pos rfl]
    · have hold : ¬ (v.hw (2 * c + 17) ≠ 0 ∧ b + 4 = v.hw (2 * c + 17) + 4) := by
        rintro ⟨hne, heq⟩
        have heq' : b = v.hw (2 * c + 17) := by omega
        obtain ⟨l, hl⟩ := hc.list_cons h4 h11 hne
        exact hnew (by rw [hl, heq']; exact List.mem_cons_self)
      rw [View.dat_push, if_neg hold, if_pos rfl]
    · have hne : v.hw (2 * c + 17) ≠ 0 := heq ▸ hc.block_pos (hc.block c b' hb').2
      rw [View.dat_push, if_pos ⟨hne, by omega⟩]
    · exact (hdat c b' hb').1
    · exact (hdat c b' hb').2 fun _ => hne
  · exact List.forall_mem_cons.mpr ⟨hb, fun b' hb' => (hc.block c b' hb').2⟩
  · exact List.nodup_cons.mpr ⟨hnew, hc.block_nodup c⟩

theorem Core.pop {c : Nat} (h4 : 4 ≤ c) (h11 : c ≤ 11) (hl : g.blocks c = b :: l) :
    h.Core (v.pop c (h.listHead c) b) { g with blocks := update g.blocks c l } := by
  have hother : ∀ k, k ≠ 2 * c + 17 → (v.pop c (h.listHead c) b).hw k = v.hw k := by
    intro k hk
    rw [View.hw_pop, if_neg hk]
  have hstack := hc.stack c h4 h11
  rw [hl] at hstack
  have hnd := hc.block_nodup c
  rw [hl] at hnd
  have hmem : ∀ b' ∈ l, b' ∈ g.blocks c := fun b' hb' => by
    rw [hl]
    exact List.mem_cons_of_mem b hb'
  have hnext : v.dat b ≠ 0 → v.dat b ∈ l := by
    intro hne
    obtain ⟨_, _, hs⟩ := hstack
    cases l with
    | nil => exact absurd hs hne
    | cons n l => rw [hs.1]; exact List.mem_cons_self
  have hdat : ∀ d b', b' ∈ g.blocks d → (v.pop c (h.listHead c) b).dat b' = v.dat b' ∧
      ((d = c → b' ≠ v.dat b) → (v.pop c (h.listHead c) b).dat (b' + 4) = v.dat (b' + 4)) := by
    intro d b' hb'
    have hat := (hc.block d b' hb').2
    refine ⟨?_, fun hd => ?_⟩
    · have hold : ¬ (v.dat b ≠ 0 ∧ b' = v.dat b + 4) := by
        rintro ⟨hne, heq⟩
        exact (hc.words_ne hat (hc.block c _ (hmem _ (hnext hne))).2 (by omega)).1 heq
      rw [View.dat_pop, if_neg hold]
    · have hold : ¬ (v.dat b ≠ 0 ∧ b' + 4 = v.dat b + 4) := by
        rintro ⟨hne, heq⟩
        have heq' : b' = v.dat b := by omega
        exact hd (hc.class_unique hat (heq' ▸ (hc.block c _ (hmem _ (hnext hne))).2)) heq'
      rw [View.dat_pop, if_neg hold]
  refine hc.setList h11 (View.pte_pop ..) hother (fun d hd b' hb' => ?_) ?_
    (fun b' hb' => (hc.block c b' (hmem b' hb')).2) (List.nodup_cons.mp hnd).2
  · exact ⟨(hdat d b' hb').1, (hdat d b' hb').2 fun heq => absurd heq hd⟩
  · rw [View.hw_pop, if_pos rfl]
    refine hstack.pop (List.nodup_cons.mp hnd).2 (fun b' hb' heq => ?_)
      (fun b' hb' => (hdat c b' (hmem b' hb')).1)
      (fun b' hb' hne => (hdat c b' (hmem b' hb')).2 fun _ => hne)
    have hne : v.dat b ≠ 0 := heq ▸ hc.block_pos (hc.block c b' (hmem b' hb')).2
    rw [View.dat_pop, if_pos ⟨hne, by omega⟩]

end

def countedPage (h : Place s) (b : Nat) : Nat := (b - h.phy + 4095) / 4096

theorem Core.st_counter (hc : h.Core (h.view m) g) {q j : Nat} (x : Nat) (hq : q < h.pageCount) (hj : 0 < j)
    (hj3 : j < 3) (hrun : q ∉ 0 :: g.runs) (hlarge : ∀ n, g.tag q ≠ .large n) :
    h.Core (h.view (st m (pteAddr (h.vir + 4096) q j) x)) g := by
  rw [← st_mod, h.view_st_pte m hq hj3 (Nat.mod_lt _ (by omega))]
  exact hc.setPte_counter _ (by omega) hrun hlarge

theorem countedPage_eq (hb : h.IsData b) :
    sub32 (s.toVir b + 4095) (h.vir + 4096) / 4096 + 1 = h.countedPage b := by
  have hend := h.vir_end
  have h2 := h.two_le_firstPage
  obtain ⟨hb1, hb2, hb3⟩ := hb
  rw [h.toVir_data ⟨hb1, hb2, hb3⟩]
  simp only [sub32, countedPage]
  omega

section

variable (hc : h.Core (h.view m) g) (hb : h.IsData b) (hq : h.countedPage b < h.pageCount)

include hc hb hq

theorem Core.countTaken {c : Nat} (hrun : h.countedPage b ∉ 0 :: g.runs)
    (hlarge : ∀ n, g.tag (h.countedPage b) ≠ .large n) :
    h.Core (h.view (countTaken s h.vir m (h.vir + 4096) c (s.toVir b))) g := by
  simp only [Smm.countTaken, hc.dataBase_eq, countedPage_eq hb]
  refine Core.subWord (Core.subWord (Core.addWord (Core.addWord ?_ _ (by simp [Counter])) _
    (by simp [Counter])) _ (by simp [Counter])) _ (by simp [Counter])
  have hfirst := hc.st_counter (sub32 (ld m (pteAddr (h.vir + 4096) (h.countedPage b) 1)) 1) hq
    (show 0 < 1 by omega) (by omega) hrun hlarge
  split
  · exact hfirst.st_counter _ hq (by omega) (by omega) hrun hlarge
  · exact hfirst

theorem Core.counts_taken {n k r f : Nat} (hcount : Counts (h.view m) n k (r + 1) (f + 2 ^ c)) :
    Counts (h.view (Smm.countTaken s h.vir m (h.vir + 4096) c (s.toVir b))) (n + 1) (k + 2 ^ c) r f := by
  obtain ⟨h41, h42, h43, h44⟩ := hcount
  simp only [Smm.countTaken, hc.dataBase_eq, countedPage_eq hb]
  have hhw : ∀ m₁ x, (h.view (if ld m₁ (pteAddr (h.vir + 4096) (h.countedPage b) 1) = 0 then
      st m₁ (pteAddr (h.vir + 4096) (h.countedPage b) 2) x else m₁)).hw = (h.view m₁).hw := by
    intro m₁ x
    split
    · exact hw_st_pte hq (by omega) x
    · rfl
  refine ⟨?_, ?_, ?_, ?_⟩ <;>
    simp (disch := omega) only [hw_addWord, hw_subWord, hhw, hw_st_pte, Nat.reduceEqDiff, if_true, if_false] <;>
    simp only [h41, h42, h43, h44, sub32] <;> omega

theorem Core.pte_countTaken {q : Nat} (hne : q ≠ h.countedPage b) (j : Nat) :
    (h.view (Smm.countTaken s h.vir m (h.vir + 4096) c (s.toVir b))).pte q j = (h.view m).pte q j := by
  simp (disch := omega) only [Smm.countTaken, hc.dataBase_eq, countedPage_eq hb, Smm.addWord, Smm.subWord,
    h.view_setWord, View.pte_setHw]
  split
  · rw [pte_st_pte hq (by omega) hne, pte_st_pte hq (by omega) hne]
  · rw [pte_st_pte hq (by omega) hne]

end

theorem Core.head_data (hc : h.Core v g) {c : Nat} (h4 : 4 ≤ c) (h11 : c ≤ 11)
    (hne : v.hw (2 * c + 17) ≠ 0) : h.IsData (v.hw (2 * c + 17)) ∧ h.IsData (v.hw (2 * c + 17) + 4) := by
  obtain ⟨l, hl⟩ := hc.list_cons h4 h11 hne
  exact hc.block_data (hc.block c _ (by rw [hl]; exact List.mem_cons_self)).2

theorem Core.next_data (hc : h.Core v g) {c : Nat} (h4 : 4 ≤ c) (h11 : c ≤ 11) (hl : g.blocks c = b :: l) :
    v.dat (b + 4) = h.listHead c ∧ (v.dat b ≠ 0 → h.IsData (v.dat b) ∧ h.IsData (v.dat b + 4)) := by
  have hs := hc.stack c h4 h11
  rw [hl] at hs
  obtain ⟨_, hprev, hs⟩ := hs
  refine ⟨hprev, fun hne => ?_⟩
  cases l with
  | nil => exact absurd hs hne
  | cons n l =>
    rw [hs.1]
    exact hc.block_data (hc.block c n (by rw [hl]; simp)).2

theorem listHead_lt {c : Nat} (hc : c ≤ 12) : h.listHead c < 2 ^ 32 := by
  have := h.phy_firstPage
  have := h.two_le_firstPage
  simp only [listHead]
  omega

theorem toVir_listHead {c : Nat} (hc : c ≤ 12) : s.toVir (h.listHead c) = h.vir + 4 * (2 * c + 17) := by
  have := h.vir_firstPage
  have := h.two_le_firstPage
  exact h.toVir_add (by omega)

theorem toPhy_listHead {c : Nat} (hc : c ≤ 12) : s.toPhy (h.vir + 4 * (2 * c + 17)) = h.listHead c := by
  have := h.phy_firstPage
  have := h.two_le_firstPage
  exact h.toPhy_add (by omega)

theorem view_unlink {c : Nat} (h11 : c ≤ 11) (hb : h.IsData b)
    (hnext : (h.view m).dat b ≠ 0 → h.IsData ((h.view m).dat b) ∧ h.IsData ((h.view m).dat b + 4)) :
    h.view (Smm.setWord h.vir (if s.smmPhy2vir (ld m (s.toVir b)) ≠ 0 then
        st m (s.smmPhy2vir (ld m (s.toVir b)) + 4) (h.listHead c) else m) (2 * c + 17) (ld m (s.toVir b))) =
      (h.view m).pop c (h.listHead c) b := by
  have hlt := h.listHead_lt (show c ≤ 12 by omega)
  rw [h.ld_dat m hb]
  by_cases hz : (h.view m).dat b = 0
  · have hvir : s.smmPhy2vir 0 = 0 := rfl
    rw [hz, hvir, if_neg (by simp), h.view_setWord m _ (by omega)]
    simp only [View.pop, hz, ne_eq, not_true_eq_false, if_false, Nat.zero_mod]
  · obtain ⟨hn, hn4⟩ := hnext hz
    have hmod : (h.view m).dat b % 2 ^ 32 = (h.view m).dat b :=
      Nat.mod_eq_of_lt (by have := hn.2.1; have := h.phy_end; omega)
    rw [h.smmPhy2vir_data hn, if_pos (h.toVir_data_pos hn), h.toVir_data_four hn hn4,
      h.view_setWord _ _ (by omega), h.view_st_dat m hn4 hlt, hmod]
    simp only [View.pop, ne_eq, hz, not_false_eq_true, if_true]

theorem ite_eq_or {α : Type} {q : Prop} [Decidable q] {x y z : α} (hy : y = x ∨ y = z) :
    (if q then x else y) = x ∨ (if q then x else y) = z := by
  split
  · exact .inl rfl
  · exact hy

theorem popBlock_cases (s : Shm) (heap : Nat) (m : Mem) (pt i head : Nat) : popBlock s heap m pt i head = (0, m) ∨
      popBlock s heap m pt i head = (head, countTaken s heap (if s.toVir (ld m (head + 4)) ≠ 0 then
          st (if s.smmPhy2vir (ld m head) ≠ 0 then st m (s.smmPhy2vir (ld m head) + 4) (ld m (head + 4)) else m)
            (s.toVir (ld m (head + 4))) (ld m head)
        else if s.smmPhy2vir (ld m head) ≠ 0 then st m (s.smmPhy2vir (ld m head) + 4) (ld m (head + 4))
        else m) pt i head) :=
  ite_eq_or (ite_eq_or (ite_eq_or (ite_eq_or (ite_eq_or (.inr rfl)))))

section

variable {c : Nat} (hc : h.Core (h.view m) g) (h4 : 4 ≤ c) (h11 : c ≤ 11) (hl : g.blocks c = b :: l)
  (hq : h.countedPage b < h.pageCount) (hrun : h.countedPage b ∉ 0 :: g.runs)

include hc h4 h11 hl hq hrun

theorem Core.sold_popped {m₁ : Mem} (hview : h.view m₁ = (h.view m).pop c (h.listHead c) b)
    (hpop : h.Core (h.view m₁) { g with blocks := update g.blocks c l }) :
    h.Sold (h.view m) (h.view (Smm.countTaken s h.vir m₁ (h.vir + 4096) c (s.toVir b))) g
      { g with blocks := update g.blocks c l } (2 ^ c) := by
  have hb := (hc.block_data (hc.block c b (by rw [hl]; exact List.mem_cons_self)).2).1
  intro N B hbook
  refine ⟨hpop.counts_taken hb hq ?_, fun p hp => ?_⟩
  · have hcount := classSum_update h4 h11 (fun _ => 1) g.blocks l
    have hbytes := classSum_update h4 h11 (fun c => 2 ^ c) g.blocks l
    rw [hl, List.length_cons] at hcount hbytes
    rw [Nat.mul_succ] at hbytes
    have hsame : Counts (h.view m₁) N B (h.chunks g) (h.freeBytes g) :=
      hbook.counts.congr fun i h41 h44 => by rw [hview, View.hw_pop, if_neg (by omega)]
    convert hsame using 1 <;> simp only [chunks, freeBytes] <;> omega
  · have hne : p ≠ h.countedPage b := fun he => hrun (he ▸ List.mem_cons_of_mem 0 hp)
    rw [hpop.pte_countTaken hb hq hne, hview, View.pte_pop]
    exact hbook.ordered p hp

theorem Core.popBlock_spec (hlarge : ∀ n, g.tag (h.countedPage b) ≠ .large n) :
    popBlock s h.vir m (h.vir + 4096) c (s.toVir b) = (0, m) ∨
      ∃ m', popBlock s h.vir m (h.vir + 4096) c (s.toVir b) = (s.toVir b, m') ∧
        h.Core (h.view m') { g with blocks := update g.blocks c l } ∧
        h.Sold (h.view m) (h.view m') g { g with blocks := update g.blocks c l } (2 ^ c) := by
  obtain ⟨hb, hb4⟩ := hc.block_data (hc.block c b (by rw [hl]; exact List.mem_cons_self)).2
  obtain ⟨hprev, hnext⟩ := hc.next_data h4 h11 hl
  have hhead := h.toVir_listHead (show c ≤ 12 by omega)
  have hpop := hc.pop h4 h11 hl
  rw [← view_unlink h11 hb hnext] at hpop
  refine (popBlock_cases s h.vir m (h.vir + 4096) c (s.toVir b)).imp_right fun hret => ⟨_, hret, ?_⟩
  rw [h.toVir_data_four hb hb4, h.ld_dat m hb4, hprev, hhead, if_pos (by omega)]
  exact ⟨hpop.countTaken hb hq hrun hlarge,
    hc.sold_popped h4 h11 hl hq hrun (view_unlink h11 hb hnext) hpop⟩

end

theorem popBlock_refused {pt c : Nat} (hb : ¬ (InBounds s h.vir m b ∧ b % 4 = 0)) :
    popBlock s h.vir m pt c b = (0, m) := by
  simp only [popBlock]
  by_cases hin : InBounds s h.vir m b
  · rw [if_neg (not_not.mpr hin), if_pos fun h4 => hb ⟨hin, h4⟩]
  · rw [if_pos hin]

theorem view_chainBlock {c : Nat} (h11 : c ≤ 11) (hb : h.IsData b) (hb4 : h.IsData (b + 4))
    (hold : (h.view m).hw (2 * c + 17) ≠ 0 →
      h.IsData ((h.view m).hw (2 * c + 17)) ∧ h.IsData ((h.view m).hw (2 * c + 17) + 4)) :
    h.view (chainBlock s h.vir c m (s.toVir b)) = (h.view m).push c (h.listHead c) b := by
  have hpe := h.phy_end
  have hlt := h.listHead_lt (show c ≤ 12 by omega)
  have hblt : b < 2 ^ 32 := by have := hb.2.1; omega
  have hold32 : (h.view m).hw (2 * c + 17) < 2 ^ 32 := by
    by_cases hz : (h.view m).hw (2 * c + 17) = 0
    · omega
    · have := (hold hz).1.2.1
      omega
  have hcell := h.toPhy_listHead (show c ≤ 12 by omega)
  have hload : ∀ m', h.view m' = (((h.view m).setDat b ((h.view m).hw (2 * c + 17))).setDat (b + 4)
      (h.listHead c)).setHw (2 * c + 17) b → ld m' (s.toVir b) = (h.view m).hw (2 * c + 17) := by
    intro m' hm'
    rw [h.ld_dat m' hb, hm']
    simp
  simp only [chainBlock, hcell, h.smmVir2phy_toVir hb, h.toVir_data_four hb hb4,
    h.word_eq m (show 2 * c + 17 < 1024 by omega)]
  have hview : h.view (Smm.setWord h.vir (st (st m (s.toVir b) ((h.view m).hw (2 * c + 17)))
      (s.toVir (b + 4)) (h.listHead c)) (2 * c + 17) b) =
      (((h.view m).setDat b ((h.view m).hw (2 * c + 17))).setDat (b + 4) (h.listHead c)).setHw
        (2 * c + 17) b := by
    rw [h.view_setWord _ _ (by omega), h.view_st_dat _ hb4 hlt, h.view_st_dat m hb hold32,
      Nat.mod_eq_of_lt hblt]
  rw [hload _ hview]
  by_cases hz : (h.view m).hw (2 * c + 17) = 0
  · rw [if_neg (not_not.mpr hz), hview, View.push, if_neg (not_not.mpr hz)]
  · obtain ⟨ho, ho4⟩ := hold hz
    rw [if_pos hz, h.toVir_data_four ho ho4, h.view_st_dat _ ho4 hblt, hview, View.push, if_pos hz]

theorem Core.chainBlocks (hc : h.Core ((h.view m).setPte p 0 c) g) (h4 : 4 ≤ c) (h11 : c ≤ 11)
    (htag : g.tag p = .small c) (hempty : ∀ b ∈ g.blocks c, b < h.page p ∨ h.page (p + 1) ≤ b) :
    ∀ k, k < 2 ^ (12 - c) → ∃ l, (∀ b ∈ l, b ∈ g.blocks c ∨ ∃ j, 0 < j ∧ j ≤ k ∧ b = h.page p + j * 2 ^ c) ∧
      l.length = (g.blocks c).length + k ∧ (∀ i, i ≠ 2 * c + 17 →
        (h.view (chainBlocks s h.vir c (h.vir + 4096 * p) m k)).hw i = (h.view m).hw i) ∧
      (h.view (chainBlocks s h.vir c (h.vir + 4096 * p) m k)).pte = (h.view m).pte ∧
      h.Core ((h.view (chainBlocks s h.vir c (h.vir + 4096 * p) m k)).setPte p 0 c)
        { g with blocks := update g.blocks c l } := by
  intro k
  induction k with
  | zero =>
    intro _
    exact ⟨g.blocks c, fun b hb => .inl hb, rfl, fun _ _ => rfl, rfl,
      by rw [update_eq_self]; exact hc⟩
  | succ k ih =>
    intro hk
    obtain ⟨l, hl, hlen, hhw, hpte, hcore⟩ := ih (by omega)
    have hat : h.BlockAt { g with blocks := update g.blocks c l } c (h.page p + (k + 1) * 2 ^ c) :=
      ⟨p, k + 1, htag, hk, rfl⟩
    obtain ⟨hb, hb4⟩ := hcore.block_data hat
    obtain ⟨q, hf⟩ := hcore.blockFacts hat
    have hend := block_end (show c ≤ 12 by omega) hk
    have hnew : h.page p + (k + 1) * 2 ^ c ∉ l := by
      intro hmem
      rcases hl _ hmem with hmem | ⟨j, _, hj, heq⟩
      · have hout := hempty _ hmem
        have hwide := hf.wide
        simp only [page] at hout
        omega
      · have hjk : (k + 1) * 2 ^ c = j * 2 ^ c := by omega
        have := Nat.eq_of_mul_eq_mul_right (Nat.two_pow_pos c) hjk
        omega
    have hvir : (h.vir + 4096 * p + (k + 1) * 2 ^ c) % 2 ^ 32 = s.toVir (h.page p + (k + 1) * 2 ^ c) := by
      have hve := h.vir_end
      have hbe := hb.2.1
      rw [h.toVir_data hb]
      simp only [page] at hbe ⊢
      rw [Nat.mod_eq_of_lt (by omega)]
      omega
    have hview : h.view (Smm.chainBlocks s h.vir c (h.vir + 4096 * p) m (k + 1)) =
        (h.view (Smm.chainBlocks s h.vir c (h.vir + 4096 * p) m k)).push c (h.listHead c)
          (h.page p + (k + 1) * 2 ^ c) := by
      simp only [Smm.chainBlocks, hvir]
      exact view_chainBlock h11 hb hb4 (hcore.head_data h4 h11)
    refine ⟨(h.page p + (k + 1) * 2 ^ c) :: l, fun b hmem => ?_, by rw [List.length_cons]; omega,
      fun i hi => ?_, by rw [hview, View.pte_push, hpte], ?_⟩
    · rcases List.mem_cons.mp hmem with rfl | hmem
      · exact .inr ⟨k + 1, by omega, le_rfl, rfl⟩
      · rcases hl b hmem with hb | ⟨j, h0, hj, hb⟩
        · exact .inl hb
        · exact .inr ⟨j, h0, by omega, hb⟩
    · rw [hview, View.hw_push, if_neg hi, hhw i hi]
    · have hpush := hcore.push h4 h11 hat (by simpa using hnew)
      simp only [update_self, update_idem] at hpush
      rw [hview, View.push_setPte]
      exact hpush

theorem Core.setPte_class (hc : h.Core v g) (hp : g.tag p = .large 1) (h4 : 4 ≤ c) (h12 : c ≤ 12) :
    h.Core (v.setPte p 0 c) { g with tag := update g.tag p (.small c) } := by
  have hsome : g.tag p ≠ .none := by rw [hp]; simp
  have hfirst := (hc.spans.range p hsome).1
  have h2 := h.two_le_firstPage
  refine hc.retag [p] rfl (fun _ _ _ => rfl)
    (hc.spans.retag hsome (show 0 < (Tag.small c).len from Nat.one_pos) (by rw [hp]; exact le_rfl))
    ?_ ?_ (fun q hq => ?_) (hc.ring.congr (fun q _ => by simp) (fun q _ => by simp)) hc.hint
  · have hp0 : p ≠ 0 := by omega
    simp [hp, hp0]
  · simp [Tag.Entry, h4, h12, hc.mem_runs, hp]
  · rw [List.mem_singleton] at hq
    exact ⟨update_of_ne hq .., Iff.rfl, by simp [hq], fun _ => by simp⟩

theorem Core.chainPage (hc : h.Core (h.view m) g) (hp : g.tag p = .large 1) (h4 : 4 ≤ c) (h12 : c ≤ 12)
    {m₁ : Mem} (hm : Smm.chainBlocks s h.vir c (h.vir + 4096 * p) (Smm.addWord h.vir m (c + 5) 1)
      (2 ^ (12 - c) - 1) = m₁) : ∃ l, (∀ b ∈ l, b ∈ g.blocks c ∨ h.page p < b ∧ b < h.page (p + 1)) ∧
      l.length = (g.blocks c).length + (2 ^ (12 - c) - 1) ∧
      (∀ i, 41 ≤ i → i ≤ 44 → (h.view m₁).hw i = (h.view m).hw i) ∧ (h.view m₁).pte = (h.view m).pte ∧
      h.Core ((h.view m₁).setPte p 0 c)
        { g with tag := update g.tag p (.small c), blocks := update g.blocks c l } := by
  have hpow : 0 < 2 ^ (12 - c) := Nat.two_pow_pos _
  have hstart := (hc.addWord (k := c + 5) 1 (by simp only [Counter]; omega)).setPte_class hp h4 h12
  have hpte₀ : (h.view (Smm.addWord h.vir m (c + 5) 1)).pte = (h.view m).pte := by
    rw [Smm.addWord, h.view_setWord m _ (by omega), View.pte_setHw]
  by_cases h11 : c ≤ 11
  · have hempty : ∀ b ∈ g.blocks c, b < h.page p ∨ h.page (p + 1) ≤ b := by
      intro b hb
      obtain ⟨q, hf⟩ := hc.blockFacts (hc.block c b hb).2
      by_contra hin
      have hqp := hf.page_eq (q := p) (by omega) (by omega)
      have htag := hf.tag
      rw [hqp, hp] at htag
      cases htag
    obtain ⟨l, hl, hlen, hhw, hpte, hcore⟩ := hstart.chainBlocks h4 h11 (update_self ..) hempty
      (2 ^ (12 - c) - 1) (by omega)
    rw [hm] at hhw hpte hcore
    refine ⟨l, fun b hb => (hl b hb).imp_right ?_, hlen, fun i h41 h44 => ?_, hpte.trans hpte₀, hcore⟩
    · rintro ⟨j, h0, hj, rfl⟩
      have hend := block_end h12 (show j < 2 ^ (12 - c) by omega)
      have hjpos : 0 < j * 2 ^ c := Nat.mul_pos h0 (Nat.two_pow_pos c)
      have hcpos := Nat.two_pow_pos c
      simp only [page]
      omega
    · rw [hhw i (by omega), hw_addWord (by omega), if_neg (by omega)]
  · obtain rfl : c = 12 := by omega
    subst hm
    refine ⟨g.blocks 12, fun b hb => .inl hb, rfl, fun i h41 h44 => ?_, hpte₀,
      by rw [update_eq_self]; exact hstart⟩
    exact (hw_addWord (by omega) 1 i).trans (if_neg (by omega))

theorem Booked.carved {v v' : View} {n k : Nat} (hp : g.tag p = .large 1) (hplt : p < h.pageCount)
    (hrun : p ∉ g.runs) (h4 : 4 ≤ c) (h12 : c ≤ 12) (hlen : l.length = (g.blocks c).length + (2 ^ (12 - c) - 1))
    (h41 : v'.hw 41 = v.hw 41) (h42 : v'.hw 42 = (sub32 (v.hw 42) 4096 + 2 ^ c) % 2 ^ 32)
    (h43 : v'.hw 43 = (sub32 (v.hw 43) 1 + 2 ^ (12 - c)) % 2 ^ 32)
    (h44 : v'.hw 44 = sub32 (v.hw 44 + 4096) (2 ^ c)) (hpte : ∀ q, q ≠ p → v'.pte q 1 = v.pte q 1)
    (hbook : h.Booked v g n (k + 4096)) :
    h.Booked v' { g with tag := update g.tag p (.small c), blocks := update g.blocks c l } n
      (k + 2 ^ c) := by
  obtain ⟨⟨c41, c42, c43, c44⟩, ho⟩ := hbook
  have hruns := h.tagSum_update hplt Tag.runs g.tag (.small c)
  have hpages := h.tagSum_update hplt Tag.freePages g.tag (.small c)
  simp only [hp, Tag.runs, Tag.freePages] at hruns hpages
  have hpow : 2 ^ (12 - c) * 2 ^ c = 4096 := by rw [← Nat.pow_add, Nat.sub_add_cancel h12]
  have hpos : 0 < 2 ^ (12 - c) := Nat.two_pow_pos _
  -- the blocks but the first one are free now
  have hclass : classSum (fun _ => 1) (update g.blocks c l) + 1 =
        classSum (fun _ => 1) g.blocks + 2 ^ (12 - c) ∧
      classSum (fun c => 2 ^ c) (update g.blocks c l) + 2 ^ c =
        classSum (fun c => 2 ^ c) g.blocks + 4096 := by
    by_cases h11 : c ≤ 11
    · have hcount := classSum_update h4 h11 (fun _ => 1) g.blocks l
      have hbytes := classSum_update h4 h11 (fun c => 2 ^ c) g.blocks l
      have hmul : 2 ^ c * l.length + 2 ^ c = 2 ^ c * (g.blocks c).length + 4096 := by
        rw [← hpow, hlen, ← Nat.mul_succ, Nat.mul_comm _ (2 ^ c), ← Nat.mul_add]
        congr 1
        omega
      omega
    · obtain rfl : c = 12 := by omega
      have hnil : ∀ w, classSum w (update g.blocks 12 l) = classSum w g.blocks := by
        intro w
        refine Finset.sum_congr rfl fun d hd => ?_
        rw [update_of_ne (by have := Finset.mem_Icc.mp hd; omega)]
      rw [hnil, hnil]
      omega
  have hle : 2 ^ c ≤ 4096 := Nat.pow_le_pow_right (by omega) h12
  constructor
  · refine ⟨?_, ?_, ?_, ?_⟩
    · omega
    · rw [h42, c42]
      simp only [sub32]
      omega
    · rw [h43, c43]
      simp only [chunks, sub32]
      omega
    · rw [h44, c44]
      simp only [freeBytes, sub32]
      omega
  · intro q hq
    have hqp : q ≠ p := fun he => hrun (he ▸ hq)
    rw [hpte q hqp]
    simp only [update_of_ne hqp]
    exact ho q hq

theorem Core.carvePage_spec (hc : h.Core (h.view m) g) (hp : g.tag p = .large 1) (h4 : 4 ≤ c) (h12 : c ≤ 12) :
    ∃ l, (∀ b ∈ l, b ∈ g.blocks c ∨ h.page p < b ∧ b < h.page (p + 1)) ∧
      h.Core (h.view (carvePage s h.vir m (h.vir + 4096) c (h.vir + 4096 * p)))
        { g with tag := update g.tag p (.small c), blocks := update g.blocks c l } ∧
      ∀ n k, h.Booked (h.view m) g n (k + 4096) →
        h.Booked (h.view (carvePage s h.vir m (h.vir + 4096) c (h.vir + 4096 * p)))
          { g with tag := update g.tag p (.small c), blocks := update g.blocks c l } n
          (k + 2 ^ c) := by
  have hsome : g.tag p ≠ .none := by rw [hp]; simp
  have hplt := hc.tag_lt hsome
  have hpc := h.pageCount_lt
  have hve := h.vir_end
  have hspan := hc.spans.range p hsome
  have hsize := (hc.top_of_tag hsome).2
  have hle := h.size_le
  have h2 := h.two_le_firstPage
  have hsub : 4096 / 2 ^ c = 2 ^ (12 - c) := by
    rw [show 4096 = 2 ^ 12 from rfl, Nat.pow_div h12 (by omega)]
  have hrun : p ∉ g.runs := fun hin => hc.not_run hsome (by rw [hp]; simp) (List.mem_cons_of_mem 0 hin)
  generalize hm : Smm.chainBlocks s h.vir c (h.vir + 4096 * p) (Smm.addWord h.vir m (c + 5) 1)
    (2 ^ (12 - c) - 1) = m₁
  obtain ⟨l, hl, hlen, hhw, hpte, hcore⟩ := hc.chainPage hp h4 h12 hm
  have hnotrun := hcore.not_run (p := p) (by simp) (by simp)
  have hdb : dataBase s h.vir m₁ = h.vir + 4096 := dataBase_of_hw hcore.base0
  have hdiv : divPage (sub32 (h.vir + 4096 * p) (h.vir + 4096)) + 1 = p := by
    simp only [Tag.len] at hspan
    rw [sub32_eq (by omega) (by omega), divPage_eq (by omega)]
    omega
  refine ⟨l, hl, ?_, fun n k hbook => ?_⟩
  · simp only [carvePage, hsub, hm, hdb, hdiv]
    refine Core.setWord (Core.setWord (Core.setWord ?_ _ (by simp [Counter])) _ (by simp [Counter])) _
      (by simp [Counter])
    rw [← h.view_st_pte _ hplt (by omega) (by omega)] at hcore
    exact (hcore.st_counter _ hplt (by omega) (by omega) hnotrun (by simp)).st_counter _ hplt (by omega)
      (by omega) hnotrun (by simp)
  · refine hbook.carved hp hplt hrun h4 h12 hlen ?_ ?_ ?_ ?_ fun q hq => ?_
    all_goals
      simp (disch := omega) only [carvePage, hsub, hm, hdb, hdiv, h.view_setWord, h.word_eq, View.hw_setHw,
        View.pte_setHw, hw_st_pte, Nat.reduceEqDiff, if_true, if_false, sub32_mod]
    · exact hhw 41 (by omega) (by omega)
    · rw [hhw 42 (by omega) (by omega)]
    · rw [hhw 43 (by omega) (by omega)]
    · rw [hhw 44 (by omega) (by omega)]
    · rw [pte_st_pte hplt (by omega) hq, pte_st_pte hplt (by omega) hq, pte_st_pte hplt (by omega) hq, hpte]

end Place

end H713.Smm
