import H713.Routine.Steps

/-!
# Routine.Links

The chain links of the routine table, over every history of calls and for arbitrary descriptors: a link is -1 or the
index of a slot, and following links never returns to a slot.
-/

namespace H713.Routine

open Function
open Bytes Links

structure LinksOk (t : Table) : Prop where
  range : ∀ i ≤ rtMaxIndex, t.rtNext i = -1 ∨ (0 ≤ t.rtNext i ∧ t.rtNext i ≤ rtMaxIndex)
  acyclic : Acyclic t.succ

namespace LinksOk

variable {t t' : Table}

theorem succ_le (h : LinksOk t) {i j : Nat} (e : Edge t.succ i j) : j ≤ rtMaxIndex := by
  obtain ⟨hi, hj⟩ := Table.succ_some.mp e
  rcases h.range i hi with hn | hn <;> omega

theorem congr (h : LinksOk t) (hn : ∀ i, t'.rtNext i = t.rtNext i) : LinksOk t' := by
  have hs : t'.succ = t.succ := by
    funext i; unfold Table.succ; rw [hn]
  exact ⟨fun i hi => hn i ▸ h.range i hi, hs ▸ h.acyclic⟩

end LinksOk

variable {t t' : Table} {i key cur : Nat}

theorem rtNext_of_update {e : Buf} (h : t'.entry = update t.entry i e) (j : Nat) :
    t'.rtNext j = if j = i then link e else t.rtNext j := by
  unfold Table.rtNext
  rw [h, update_apply]
  split <;> rfl

theorem rtNext_placed {d : Buf} (hend : t.rtNext i = -1)
    (h : t'.entry = update t.entry i (wr d 92 4 (ofI32 (-1)))) (j : Nat) : t'.rtNext j = t.rtNext j := by
  rw [rtNext_of_update h]
  split
  · rename_i hj
    rw [link_wr_link d (by decide) (by decide), hj, hend]
  · rfl

theorem rtNext_overflowed {o p : Nat} {d : Buf} (ho : o ≤ rtMaxIndex) (hend : t.rtNext o = -1)
    (h : t'.entry = (linkPrev ((t.setEntry o d).rtSetNext o (-1)) (some p) o).entry) (j : Nat) :
    t'.rtNext j = if j = p then (o : Int) else t.rtNext j := by
  have hput : ∀ j, ((t.setEntry o d).rtSetNext o (-1)).rtNext j = t.rtNext j :=
    rtNext_placed hend (d := d) (by simp)
  rw [rtNext_of_update (t := (t.setEntry o d).rtSetNext o (-1)) (i := p) (h.trans rfl), hput]
  split
  · exact link_wr_link _ (by omega) (by omega)
  · rfl

theorem rtNext_unlink_end (hn : ¬ (0 ≤ t.rtNext i ∧ t.rtNext i ≤ rtMaxIndex)) (h : t'.entry = (unlink t i).entry)
    (j : Nat) : t'.rtNext j = t.rtNext j := by
  rw [rtNext_of_update (h.trans (unlink_end hn))]
  split
  · rename_i hj; rw [link_wr_key, hj]; rfl
  · rfl

theorem rtNext_unlink_succ {j : Nat} (hn : t.rtNext i = j) (hj : j ≤ rtMaxIndex) (hij : j ≠ i)
    (hr : -1 ≤ t.rtNext j ∧ t.rtNext j ≤ rtMaxIndex) (h : t'.entry = (unlink t i).entry) (k : Nat) :
    t'.rtNext k = if k = j then -1 else if k = i then t.rtNext j else t.rtNext k := by
  unfold Table.rtNext
  rw [h, unlink_succ hn hj hij, update_apply, update_apply]
  split
  · exact link_wr_link _ (by decide) (by decide)
  split
  · exact link_wr_link _ hr.1 hr.2
  · rfl

theorem succ_overflowed {o p : Nat} (hp : p ≤ rtMaxIndex)
    (h : ∀ j, t'.rtNext j = if j = p then (o : Int) else t.rtNext j) : t'.succ = update t.succ p (some o) := by
  funext k
  unfold Table.succ
  rw [h, update_apply]
  by_cases hk : k = p <;> simp [hk, hp]

theorem succ_unlink {j : Nat} (hi : i ≤ rtMaxIndex) (hj : j ≤ rtMaxIndex)
    (h : ∀ k, t'.rtNext k = if k = j then -1 else if k = i then t.rtNext j else t.rtNext k) :
    t'.succ = bypass t.succ i j := by
  funext k
  unfold Table.succ bypass
  rw [h, update_apply, update_apply]
  by_cases hkj : k = j
  · simp [hkj]
  · by_cases hki : k = i
    · subst hki; simp [hkj, hi, hj]
    · simp [hkj, hki]

namespace LinksOk

variable {t t' : Table}

theorem add {d : Buf} {r : Int} (h : LinksOk t) (hs : addInRoutine t d = .ret r t') : LinksOk t' := by
  cases add_cases hs with
  | refused _ _ he _ => exact h.congr (Table.rtNext_congr he)
  | present _ _ ht _ => exact ht ▸ h
  | placed i _ _ _ _ hend _ he _ => exact h.congr (rtNext_placed hend he)
  | overflowed o prev cur _ _ _ ho hfree hend hstop _ he _ =>
    cases prev with
    | none => exact h.congr (rtNext_placed (d := d) hend (he.trans (by simp [linkPrev])))
    | some p =>
      obtain hp | ⟨hp, hocc, _⟩ := hstop.before p rfl
      · cases hp
      have hpo : p ≠ o := by
        rintro rfl
        exact hocc hfree
      have hn := rtNext_overflowed ho hend he
      refine ⟨fun i hi => ?_, ?_⟩
      · rw [hn]
        split
        · exact .inr ⟨by omega, by omega⟩
        · exact h.range i hi
      · rw [succ_overflowed hp hn]
        exact h.acyclic.extend hpo (Table.succ_none (by omega))

theorem remove {d : Buf} {c : Nat} {r : Int} (h : LinksOk t) (hs : removeRoutine t d c = .ret r t') :
    LinksOk t' := by
  cases remove_cases hs with
  | missing _ he _ => exact h.congr (Table.rtNext_congr he)
  | removed i hi _ _ he _ =>
    rcases h.range i hi with hend | ⟨h0, h1⟩
    · exact h.congr (rtNext_unlink_end (by omega) he)
    · obtain ⟨j, hj⟩ := Int.eq_ofNat_of_zero_le h0
      have hjle : j ≤ rtMaxIndex := by omega
      have hedge : Edge t.succ i j := Table.succ_some.mpr ⟨hi, hj⟩
      have hrange : -1 ≤ t.rtNext j ∧ t.rtNext j ≤ rtMaxIndex := by
        rcases h.range j hjle with hn | hn <;> omega
      have hn := rtNext_unlink_succ hj hjle (h.acyclic.ne hedge).symm hrange he
      refine ⟨fun k hk => ?_, ?_⟩
      · rw [hn]
        split
        · exact .inl rfl
        split
        · exact h.range j hjle
        · exact h.range k hk
      · rw [succ_unlink hi hjle hn]
        exact h.acyclic.bypass hedge

theorem cleanWhere (h : LinksOk t) (p : Buf → Bool) : LinksOk (cleanWhere p t) :=
  h.congr (rtNext_cleanWhere p t)

theorem step {op : Op} {r : Int} (h : LinksOk t) (hs : step t op = .ret r t') : LinksOk t' := by
  cases op with
  | add d => exact h.add hs
  | remove d => exact h.remove hs
  | removePid p | cpuReset c => cases hs; exact h.cleanWhere _

theorem empty : LinksOk empty := by
  have hn : ∀ i, Routine.empty.rtNext i = -1 := fun i => link_wr_link _ (by decide) (by decide)
  refine ⟨fun i _ => .inl (hn i), fun a ha => ?_⟩
  obtain ⟨b, hb, _⟩ := Relation.TransGen.head'_iff.mp ha
  rw [Edge, Table.succ_none (by rw [hn]; decide)] at hb
  cases hb

theorem run {ok : Table → Op → Prop} {ops : List Op} (h : Run Routine.step ok Routine.empty ops t) : LinksOk t :=
  h.inv (fun _ _ _ _ hi _ hs => hi.step hs) LinksOk.empty

end LinksOk

def slots : Finset Nat := Finset.range (rtMaxIndex + 1)

theorem mem_slots : i ∈ slots ↔ i ≤ rtMaxIndex := by
  rw [slots, Finset.mem_range, Nat.lt_succ_iff]

theorem edge_rtNext (hi : i ≤ rtMaxIndex) (h : ¬ t.rtNext i < 0) : Edge t.succ i (t.rtNext i).toNat :=
  Table.succ_some.mpr ⟨hi, by omega⟩

theorem findWalk_walks : ∀ {fuel cur : Nat}, findWalk t key fuel cur = none → Walks t.succ slots fuel cur := by
  intro fuel
  induction fuel with
  | zero => intro _ _; trivial
  | succ n ih =>
    intro cur h
    simp only [findWalk] at h
    split at h
    · cases h
    split at h
    · cases h
    split at h
    · cases h
    rename_i hle _ hn
    exact ⟨mem_slots.mpr (by omega), _, edge_rtNext (by omega) hn, ih h⟩

theorem chainEnd_walks : ∀ {fuel : Nat} {prev : Option Nat} {cur : Nat}, cur ≤ rtMaxIndex →
      chainEnd t fuel prev cur = none → Walks t.succ slots fuel cur := by
  intro fuel
  induction fuel with
  | zero => intro _ _ _ _; trivial
  | succ n ih =>
    intro prev cur hc h
    simp only [chainEnd] at h
    split at h
    · cases h
    split at h
    · cases h
    split at h
    · cases h
    split at h
    · cases h
    rename_i hn hle
    exact ⟨mem_slots.mpr hc, _, edge_rtNext hc hn, ih (by omega) h⟩

theorem removeWalk_walks : ∀ {fuel cur : Nat}, cur ≤ rtMaxIndex → removeWalk t key fuel cur = none →
      Walks t.succ slots fuel cur := by
  intro fuel
  induction fuel with
  | zero => intro _ _ _; trivial
  | succ n ih =>
    intro cur hc h
    simp only [removeWalk] at h
    split at h
    · cases h
    split at h
    · cases h
    split at h
    · cases h
    rename_i hn hle
    exact ⟨mem_slots.mpr hc, _, edge_rtNext hc hn, ih (by omega) h⟩

theorem LinksOk.not_walks (h : LinksOk t) {fuel : Nat} (hf : walkFuel ≤ fuel) : ¬ Walks t.succ slots fuel cur := by
  intro hw
  have hle := h.acyclic.walks_le hw
  simp only [slots, Finset.card_range, walkFuel] at hle hf
  omega

theorem findWalk_fuel {r : Option Nat} :
    ∀ {fuel cur : Nat}, findWalk t key fuel cur = some r → findWalk t key (fuel + 1) cur = some r := by
  intro fuel
  induction fuel with
  | zero => intro cur h; cases h
  | succ n ih =>
    intro cur h
    rw [findWalk] at h ⊢
    split_ifs at h ⊢ <;> first | exact h | exact ih h

theorem chainEnd_fuel {r : ChainEnd} :
    ∀ {fuel : Nat} {prev : Option Nat} {cur : Nat}, chainEnd t fuel prev cur = some r →
      chainEnd t (fuel + 1) prev cur = some r := by
  intro fuel
  induction fuel with
  | zero => intro prev cur h; cases h
  | succ n ih =>
    intro prev cur h
    rw [chainEnd] at h ⊢
    split_ifs at h ⊢ <;> first | exact h | exact ih h

theorem removeWalk_fuel {r : Lookup} :
    ∀ {fuel cur : Nat}, removeWalk t key fuel cur = some r → removeWalk t key (fuel + 1) cur = some r := by
  intro fuel
  induction fuel with
  | zero => intro cur h; cases h
  | succ n ih =>
    intro cur h
    rw [removeWalk] at h ⊢
    split_ifs at h ⊢ <;> first | exact h | exact ih h

theorem LinksOk.findWalk_total (h : LinksOk t) (key cur : Nat) :
    ∃ r, ∀ fuel ≥ walkFuel, findWalk t key fuel cur = some r :=
  stable_of_fuel (fun _ _ => findWalk_fuel) (fun hn => h.not_walks le_rfl (findWalk_walks hn))

theorem LinksOk.chainEnd_total (h : LinksOk t) (hc : cur ≤ rtMaxIndex) :
    ∃ r, ∀ fuel ≥ walkFuel, chainEnd t fuel none cur = some r :=
  stable_of_fuel (fun _ _ => chainEnd_fuel) (fun hn => h.not_walks le_rfl (chainEnd_walks hc hn))

theorem LinksOk.add_returns (hl : LinksOk t) (d : Buf) : ∃ r t', addInRoutine t d = .ret r t' := by
  have hover : ∀ prev, ∃ r t', addOverflow t.enter d prev = .ret r t' := by
    intro prev
    unfold addOverflow
    split
    · exact ⟨_, _, rfl⟩
    split
    · exact ⟨_, _, rfl⟩
    · exact ⟨_, _, rfl⟩
  have hlocked : ∃ r t', addLocked t.enter d = .ret r t' := by
    obtain ⟨e, hend⟩ := hl.chainEnd_total (hashIdx_le (compId d))
    simp only [addLocked, chainEnd_enter, hend walkFuel le_rfl]
    split
    · exact ⟨_, _, rfl⟩
    split
    · rename_i hn; cases hn
    · exact ⟨_, _, rfl⟩
    · split
      · exact ⟨_, _, rfl⟩
      · exact hover _
    · exact hover _
  unfold addInRoutine
  split
  · exact ⟨_, _, rfl⟩
  split
  · exact ⟨_, _, rfl⟩
  split
  · exact ⟨_, _, rfl⟩
  rename_i hm1 hm2 hcnt
  obtain ⟨f, hf⟩ := hl.findWalk_total (compId d) (hashIdx (compId d))
  unfold findRoutineEx findRoutineExFuel
  rw [if_neg hm1, if_neg hm2, if_neg hcnt, hf walkFuel le_rfl]
  cases f with
  | none => exact hlocked
  | some i => exact ⟨_, _, rfl⟩

theorem LinksOk.removeWalk_total (h : LinksOk t) (key : Nat) (hc : cur ≤ rtMaxIndex) :
    ∃ r, ∀ fuel ≥ walkFuel, removeWalk t key fuel cur = some r :=
  stable_of_fuel (fun _ _ => removeWalk_fuel) (fun hn => h.not_walks le_rfl (removeWalk_walks hc hn))

/-- In every table a history of calls leads to, each link is -1 or a slot index, the links form no cycle, and the
three chain walks end for every key. -/
theorem links_acyclic_walks_end {ops : List Op} {t : Table} (h : Run step (fun _ _ => True) empty ops t) :
    (∀ i ≤ rtMaxIndex, t.rtNext i = -1 ∨ (0 ≤ t.rtNext i ∧ t.rtNext i ≤ rtMaxIndex)) ∧ Acyclic t.succ ∧ ∀ key,
      (∃ r, ∀ fuel ≥ walkFuel, findWalk t key fuel (hashIdx key) = some r) ∧
      (∃ r, ∀ fuel ≥ walkFuel, chainEnd t fuel none (hashIdx key) = some r) ∧
      (∃ r, ∀ fuel ≥ walkFuel, removeWalk t key fuel (hashIdx key) = some r) := by
  have hl := LinksOk.run h
  exact ⟨hl.range, hl.acyclic, fun key => ⟨hl.findWalk_total key _, hl.chainEnd_total (hashIdx_le key),
    hl.removeWalk_total key (hashIdx_le key)⟩⟩

def descriptor (key pidVal linkWord : Nat) : Buf :=
  wr (wr (wr (fun _ => 0) 8 4 key) 28 4 pidVal) 92 4 linkWord

theorem links_acyclic_walks_end_chain : ∃ t, Run step (fun _ _ => True) empty
      [.add (descriptor 1 0 0), .add (descriptor 1025 0 1), .add (descriptor 2049 0 5000),
        .remove (descriptor 1 0 0)] t ∧ Acyclic t.succ := by
  refine Run.exists_of_exec_imp (P := fun _ => True) (by decide +kernel) ?_
  intro t hrun _
  exact (links_acyclic_walks_end hrun).2.1

end H713.Routine
