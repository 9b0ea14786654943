import H713.Routine.Links

/-!
# Routine.Count

The entry-count word in front of the routine table, which counts the occupied slots also across cleanups.
-/

namespace H713.Routine

open Function
open Bytes Links

variable {t t' : Table} {i : Nat}

theorem rtCompId_of_update {e : Buf} (h : t'.entry = update t.entry i e) (j : Nat) :
    t'.rtCompId j = if j = i then compId e else t.rtCompId j := by
  unfold Table.rtCompId
  rw [h, update_apply]
  split <;> rfl

theorem rtCompId_placed {d : Buf} (h : t'.entry = update t.entry i (wr d 92 4 (ofI32 (-1)))) (j : Nat) :
    t'.rtCompId j = if j = i then compId d else t.rtCompId j := by
  rw [rtCompId_of_update h, compId_wr_link]

theorem rtCompId_overflowed {o : Nat} {prev : Option Nat} {d : Buf}
    (h : t'.entry = (linkPrev ((t.setEntry o d).rtSetNext o (-1)) prev o).entry) (j : Nat) :
    t'.rtCompId j = if j = o then compId d else t.rtCompId j := by
  have hput : ∀ j, ((t.setEntry o d).rtSetNext o (-1)).rtCompId j =
      if j = o then compId d else t.rtCompId j := rtCompId_placed (by simp)
  cases prev with
  | none => rw [← hput, Table.rtCompId_congr h]; rfl
  | some p =>
    rw [rtCompId_of_update (t := (t.setEntry o d).rtSetNext o (-1)) (i := p) (h.trans rfl), ← hput]
    split
    · rename_i hj; rw [compId_wr_link, hj]; rfl
    · rfl

theorem rtCompId_unlink_end (hn : ¬ (0 ≤ t.rtNext i ∧ t.rtNext i ≤ rtMaxIndex)) (h : t'.entry = (unlink t i).entry)
    (j : Nat) : t'.rtCompId j = if j = i then 0 else t.rtCompId j := by
  rw [rtCompId_of_update (h.trans (unlink_end hn)), compId_wr_key]

theorem rtCompId_unlink_succ {j : Nat} (hn : t.rtNext i = j) (hj : j ≤ rtMaxIndex) (hij : j ≠ i)
    (h : t'.entry = (unlink t i).entry) (k : Nat) :
    t'.rtCompId k = if k = j then 0 else if k = i then t.rtCompId j else t.rtCompId k := by
  unfold Table.rtCompId
  rw [h, unlink_succ hn hj hij, update_apply, update_apply]
  split
  · rw [compId_wr_link, compId_wr_key]
  split
  · exact compId_wr_link _ _
  · rfl

def occupied (t : Table) : Finset Nat := slots.filter fun i => t.rtCompId i ≠ 0

theorem mem_occupied : i ∈ occupied t ↔ i ≤ rtMaxIndex ∧ t.rtCompId i ≠ 0 := by
  rw [occupied, Finset.mem_filter, mem_slots]

theorem card_occupied_le (t : Table) : (occupied t).card ≤ rtMaxIndex + 1 := by
  have h := Finset.card_filter_le slots fun i => t.rtCompId i ≠ 0
  simpa [occupied, slots] using h

theorem occupied_congr (h : t'.entry = t.entry) : occupied t' = occupied t := by
  ext i
  rw [mem_occupied, mem_occupied, Table.rtCompId_congr h]

theorem occupied_insert {k : Nat} (hi : i ≤ rtMaxIndex) (hk : k ≠ 0)
    (h : ∀ j, t'.rtCompId j = if j = i then k else t.rtCompId j) : occupied t' = insert i (occupied t) := by
  ext j
  rw [Finset.mem_insert, mem_occupied, mem_occupied, h]
  by_cases hj : j = i <;> simp [hj, hi, hk]

theorem occupied_erase (h : ∀ j, t'.rtCompId j = if j = i then 0 else t.rtCompId j) :
    occupied t' = (occupied t).erase i := by
  ext j
  rw [Finset.mem_erase, mem_occupied, mem_occupied, h]
  by_cases hj : j = i <;> simp [hj]

theorem occupied_unlink {j : Nat} (hi : i ∈ occupied t) (hij : j ≠ i)
    (h : ∀ k, t'.rtCompId k = if k = j then 0 else if k = i then t.rtCompId j else t.rtCompId k) :
    occupied t' = (occupied t).erase (if t.rtCompId j = 0 then i else j) := by
  rw [mem_occupied] at hi
  ext k
  rw [Finset.mem_erase, mem_occupied, mem_occupied, h]
  by_cases hkj : k = j
  · subst hkj; by_cases hz : t.rtCompId k = 0 <;> simp [hz]
  · by_cases hki : k = i
    · subst hki; by_cases hz : t.rtCompId j = 0 <;> simp [hz, hkj, hi]
    · by_cases hz : t.rtCompId j = 0 <;> simp [hz, hkj, hki]

def CountOk (t : Table) : Prop := t.count = (occupied t).card

namespace CountOk

variable {t t' : Table}

section

variable (h : CountOk t)

include h

theorem congr (he : t'.entry = t.entry) (hc : t'.count = t.count) : CountOk t' := by
  rw [CountOk, hc, occupied_congr he]
  exact h

theorem insert {i : Nat} (hfree : t.rtCompId i = 0) (ho : occupied t' = Insert.insert i (occupied t))
    (hc : t'.count = (t.count + 1) % 2 ^ 32) : CountOk t' := by
  have hni : i ∉ occupied t := fun hm => (mem_occupied.mp hm).2 hfree
  have hle := card_occupied_le t
  unfold CountOk at h ⊢
  rw [ho, Finset.card_insert_of_notMem hni, hc, h]
  simp only [rtMaxIndex] at hle
  omega

theorem erase {i : Nat} (hi : i ∈ occupied t) (ho : occupied t' = (occupied t).erase i)
    (hc : t'.count = if t.count = 0 then 2 ^ 32 - 1 else t.count - 1) : CountOk t' := by
  have hpos := Finset.card_pos.mpr ⟨i, hi⟩
  unfold CountOk at h ⊢
  rw [ho, Finset.card_erase_of_mem hi, hc, h, if_neg (by omega)]

theorem add {d : Buf} {r : Int} (hk : compId d ≠ 0) (hs : addInRoutine t d = .ret r t') : CountOk t' := by
  cases add_cases hs with
  | refused _ _ he hc => exact h.congr he hc
  | present _ _ ht _ => exact ht ▸ h
  | placed i _ _ hi hfree _ _ he hc =>
    exact h.insert hfree (occupied_insert hi hk (rtCompId_placed he)) hc
  | overflowed o prev cur _ _ _ ho hfree _ _ _ he hc =>
    exact h.insert hfree (occupied_insert ho hk (rtCompId_overflowed he)) hc

theorem remove {d : Buf} {c : Nat} {r : Int} (hl : LinksOk t) (hk : compId d ≠ 0)
    (hs : removeRoutine t d c = .ret r t') : CountOk t' := by
  cases remove_cases hs with
  | missing _ he hc => exact h.congr he hc
  | removed i hi hik _ he hc =>
    have hocc : i ∈ occupied t := mem_occupied.mpr ⟨hi, hik ▸ hk⟩
    rcases hl.range i hi with hend | ⟨h0, h1⟩
    · exact h.erase hocc (occupied_erase (rtCompId_unlink_end (by omega) he)) hc
    · obtain ⟨j, hj⟩ := Int.eq_ofNat_of_zero_le h0
      have hjle : j ≤ rtMaxIndex := by omega
      have hij : j ≠ i := (hl.acyclic.ne (Table.succ_some.mpr ⟨hi, hj⟩)).symm
      refine h.erase ?_ (occupied_unlink hocc hij (rtCompId_unlink_succ hj hjle hij he)) hc
      split
      · exact hocc
      · exact mem_occupied.mpr ⟨hjle, by assumption⟩

theorem cleanSlot {p : Buf → Bool} {i : Nat} (hi : i ≤ rtMaxIndex) : CountOk (cleanSlot p t i) := by
  unfold Routine.cleanSlot
  split
  · exact h
  split
  · rename_i hocc _
    refine h.erase (mem_occupied.mpr ⟨hi, hocc⟩) (occupied_erase fun j => ?_) rfl
    rw [rtCompId_of_update (t := t) (i := i) (e := wr (t.entry i) 8 4 0) (by simp), compId_wr_key]
  · exact h

theorem cleanWhere {p : Buf → Bool} : CountOk (cleanWhere p t) := by
  have hfold : ∀ (l : List Nat) (t : Table), (∀ i ∈ l, i ≤ rtMaxIndex) → CountOk t →
      CountOk (l.foldl (Routine.cleanSlot p) t) := by
    intro l
    induction l with
    | nil => intro t _ ht; exact ht
    | cons i l ih =>
      intro t hl ht
      exact ih _ (fun j hj => hl j (by simp [hj])) (ht.cleanSlot (hl i (by simp)))
  have hle : ∀ i ∈ List.range (rtMaxIndex + 1), i ≤ rtMaxIndex := by
    intro i hi
    exact Nat.lt_succ_iff.mp (List.mem_range.mp hi)
  unfold Routine.cleanWhere
  exact (hfold _ t.enter hle (h.congr rfl rfl)).congr (Table.entry_leave _) (Table.count_leave _)

end

end CountOk

/-- Calls that name a key other than 0, which marks a free slot. -/
def NonzeroKey : Op → Prop
  | .add d => compId d ≠ 0
  | .remove d => compId d ≠ 0
  | .removePid _ => True
  | .cpuReset _ => True

instance (op : Op) : Decidable (NonzeroKey op) := by
  cases op <;> unfold NonzeroKey <;> infer_instance

theorem CountOk.step {op : Op} {r : Int} (h : CountOk t) (hl : LinksOk t) (hk : NonzeroKey op)
    (hs : step t op = .ret r t') : CountOk t' := by
  cases op with
  | add d => exact h.add hk hs
  | remove d => exact h.remove hl hk hs
  | removePid p | cpuReset c => cases hs; exact h.cleanWhere

theorem CountOk.empty : CountOk empty := by
  have ho : occupied Routine.empty = ∅ := by
    ext i
    rw [mem_occupied]
    have hz : Routine.empty.rtCompId i = 0 := (compId_wr_link _ _).trans (compId_wr_key _)
    simp [hz]
  rw [CountOk, ho]
  rfl

/-- The count word is the number of occupied slots, so it stays between 0 and 1224 also when read as
the signed number the source compares. -/
theorem count_eq_occupied {ops : List Op} {t : Table} (h : Run step (fun _ op => NonzeroKey op) empty ops t) :
    t.count = (occupied t).card ∧ 0 ≤ toI32 t.count ∧ toI32 t.count ≤ 1224 := by
  have hok : LinksOk t ∧ CountOk t :=
    h.inv (I := fun t => LinksOk t ∧ CountOk t)
      (fun _ _ _ _ hi hk hs => ⟨hi.1.step hs, hi.2.step hi.1 hk hs⟩) ⟨.empty, .empty⟩
  have hcount : t.count = (occupied t).card := hok.2
  have hle := card_occupied_le t
  simp only [rtMaxIndex] at hle
  have hI : toI32 t.count = t.count := by
    unfold toI32; rw [if_pos (by omega)]
  exact ⟨hcount, by omega, by omega⟩

theorem count_eq_occupied_chain : ∃ t, Run step (fun _ op => NonzeroKey op) empty
      [.add (descriptor 1 7 0), .add (descriptor 1025 8 0), .remove (descriptor 1 7 0)] t ∧
    t.count = 1 ∧ (occupied t).card = 1 := by
  refine Run.exists_of_exec_imp (P := fun t => t.count = 1) (by decide +kernel) ?_
  intro t hrun hc
  exact ⟨hc, (count_eq_occupied hrun).1 ▸ hc⟩

end H713.Routine
