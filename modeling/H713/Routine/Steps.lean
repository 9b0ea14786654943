import H713.Lib.Links
import H713.Routine.Table

/-!
# Routine.Steps

What one call can do to the table, said once: the views of the table after each primitive write, and an inversion
lemma for `addInRoutine` (`add_cases`) and for `removeRoutine` (`remove_cases`).
-/

namespace H713.Routine

open Function (update update_idem update_of_ne update_self)
open Bytes Links

theorem compId_wr_link (e : Buf) (v : Nat) : compId (wr e 92 4 v) = compId e :=
  rd_wr_of_disjoint (by omega)

theorem link_wr_link (e : Buf) {n : Int} (h1 : -1 ≤ n) (h2 : n ≤ rtMaxIndex) : link (wr e 92 4 (ofI32 n)) = n := by
  have hlt := ofI32_lt n
  unfold link
  rw [rd_wr_same, Nat.mod_eq_of_lt (by simpa using hlt)]
  simp only [rtMaxIndex] at h2
  exact toI32_ofI32 (by omega) (by omega)

theorem compId_wr_key (e : Buf) : compId (wr e 8 4 0) = 0 := by
  unfold compId; rw [rd_wr_same]; rfl

theorem link_wr_key (e : Buf) : link (wr e 8 4 0) = link e := by
  unfold link; rw [rd_wr_of_disjoint (by omega)]

namespace Table

def succ (t : Table) (i : Nat) : Option Nat :=
  if i ≤ rtMaxIndex ∧ 0 ≤ t.rtNext i then some (t.rtNext i).toNat else none

variable {t t' : Table}

theorem succ_some {i j : Nat} : t.succ i = some j ↔ i ≤ rtMaxIndex ∧ t.rtNext i = j := by
  unfold succ
  split
  · rename_i h
    simp only [Option.some.injEq]
    omega
  · rename_i h
    simp only [reduceCtorEq, false_iff]
    omega

theorem succ_none {i : Nat} (h : t.rtNext i < 0) : t.succ i = none := by
  unfold succ
  rw [if_neg (by omega)]

@[simp] theorem entry_setEntry (t : Table) (i : Nat) (d : Buf) : (t.setEntry i d).entry = update t.entry i d := rfl
@[simp] theorem entry_rtSetNext (t : Table) (i : Nat) (n : Int) :
    (t.rtSetNext i n).entry = update t.entry i (wr (t.entry i) 92 4 (ofI32 n)) := rfl
@[simp] theorem entry_clearCompId (t : Table) (i : Nat) :
    (t.clearCompId i).entry = update t.entry i (wr (t.entry i) 8 4 0) := rfl
@[simp] theorem entry_enter (t : Table) : t.enter.entry = t.entry := rfl
@[simp] theorem entry_leave (t : Table) : t.leave.entry = t.entry := rfl
@[simp] theorem entry_incCount (t : Table) : t.incCount.entry = t.entry := rfl
@[simp] theorem entry_decCount (t : Table) : t.decCount.entry = t.entry := rfl
@[simp] theorem count_setEntry (t : Table) (i : Nat) (d : Buf) : (t.setEntry i d).count = t.count := rfl
@[simp] theorem count_rtSetNext (t : Table) (i : Nat) (n : Int) : (t.rtSetNext i n).count = t.count := rfl
@[simp] theorem count_clearCompId (t : Table) (i : Nat) : (t.clearCompId i).count = t.count := rfl
@[simp] theorem count_enter (t : Table) : t.enter.count = t.count := rfl
@[simp] theorem count_leave (t : Table) : t.leave.count = t.count := rfl
@[simp] theorem count_incCount (t : Table) : t.incCount.count = (t.count + 1) % 2 ^ 32 := rfl
@[simp] theorem count_decCount (t : Table) :
    t.decCount.count = if t.count = 0 then 2 ^ 32 - 1 else t.count - 1 := rfl

def magic (t : Table) : Nat × Nat := (t.magic1, t.magic2)

@[simp] theorem magic_setEntry (t : Table) (i : Nat) (d : Buf) : (t.setEntry i d).magic = t.magic := rfl
@[simp] theorem magic_rtSetNext (t : Table) (i : Nat) (n : Int) : (t.rtSetNext i n).magic = t.magic := rfl
@[simp] theorem magic_clearCompId (t : Table) (i : Nat) : (t.clearCompId i).magic = t.magic := rfl
@[simp] theorem magic_enter (t : Table) : t.enter.magic = t.magic := rfl
@[simp] theorem magic_leave (t : Table) : t.leave.magic = t.magic := rfl
@[simp] theorem magic_incCount (t : Table) : t.incCount.magic = t.magic := rfl
@[simp] theorem magic_decCount (t : Table) : t.decCount.magic = t.magic := rfl

theorem rtCompId_congr (h : t'.entry = t.entry) (i : Nat) : t'.rtCompId i = t.rtCompId i := by
  unfold rtCompId; rw [h]

theorem rtNext_congr (h : t'.entry = t.entry) (i : Nat) : t'.rtNext i = t.rtNext i := by
  unfold rtNext; rw [h]

theorem succ_congr (h : t'.entry = t.entry) : t'.succ = t.succ := by
  funext i; unfold succ; rw [rtNext_congr h]

end Table

theorem hashIdx_lt (k : Nat) : hashIdx k < rtOverflowStart := Nat.mod_lt _ (by decide)

theorem hashIdx_le (k : Nat) : hashIdx k ≤ rtMaxIndex := by
  have := hashIdx_lt k
  simp only [rtOverflowStart, rtMaxIndex] at *
  omega

variable {t t' : Table} {i key : Nat} {d : Buf} {r : Int}

theorem reach_succ {k : Nat} (hi : i ≤ rtMaxIndex) (hn : ¬ t.rtNext i < 0) (h : Reach t.succ (t.rtNext i).toNat k) :
    Reach t.succ i k :=
  .head (Table.succ_some.mpr ⟨hi, by omega⟩) h

theorem findWalk_found : ∀ {fuel cur : Nat}, findWalk t key fuel cur = some (some i) →
      i ≤ rtMaxIndex ∧ t.rtCompId i = key ∧ Reach t.succ cur i := by
  intro fuel
  induction fuel with
  | zero => intro cur h; simp [findWalk] at h
  | succ n ih =>
    intro cur h
    simp only [findWalk] at h
    split at h
    · cases h
    · rename_i hle
      split at h
      · rename_i hk
        cases h
        exact ⟨by omega, hk, .refl⟩
      · split at h
        · cases h
        · rename_i hn
          obtain ⟨h1, h2, h3⟩ := ih h
          exact ⟨h1, h2, reach_succ (by omega) hn h3⟩

theorem Findable.slot (h : Findable t key) :
    ∃ i ≤ rtMaxIndex, t.rtCompId i = key ∧ Reach t.succ (hashIdx key) i := by
  obtain ⟨buf, hf⟩ := h
  unfold findRoutineEx findRoutineExFuel at hf
  split at hf
  · cases hf
  split at hf
  · cases hf
  split at hf
  · cases hf
  split at hf
  · cases hf
  · cases hf
  · rename_i i hw
    obtain ⟨hi, hk, hr⟩ := findWalk_found hw
    exact ⟨i, hi, hk, hr⟩

theorem findWalk_missing : ∀ {fuel cur : Nat}, findWalk t key fuel cur = some none →
      ∀ i, Reach t.succ cur i → i ≤ rtMaxIndex → t.rtCompId i ≠ key := by
  intro fuel
  induction fuel with
  | zero => intro cur h; simp [findWalk] at h
  | succ n ih =>
    intro cur h i hr hi
    simp only [findWalk] at h
    rcases Relation.ReflTransGen.cases_head hr with rfl | ⟨j, hj, hr'⟩
    · rw [if_neg (by omega)] at h
      split at h
      · cases h
      · assumption
    · obtain ⟨hc, hjn⟩ := Table.succ_some.mp hj
      rw [if_neg (by omega)] at h
      split at h
      · cases h
      · rw [if_neg (by omega)] at h
        exact ih h i (by rw [hjn, Int.toNat_natCast]; exact hr') hi

structure StopsAt (t : Table) (start : Nat) (prev₀ prev cur : Option Nat) : Prop where
  on : ∀ c, cur = some c → c ≤ rtMaxIndex ∧ t.rtCompId c = 0 ∧ Reach t.succ start c
  before : ∀ p, prev = some p →
    prev = prev₀ ∨ (p ≤ rtMaxIndex ∧ t.rtCompId p ≠ 0 ∧ Reach t.succ start p)
  past : cur = none → ∃ p, prev = some p ∧ p ≤ rtMaxIndex ∧ t.rtCompId p ≠ 0 ∧
    t.rtNext p < 0 ∧ Reach t.succ start p

theorem chainEnd_stop {prev cur : Option Nat} :
    ∀ {fuel : Nat} {prev₀ : Option Nat} {start : Nat}, start ≤ rtMaxIndex →
      chainEnd t fuel prev₀ start = some (.stop prev cur) → StopsAt t start prev₀ prev cur := by
  intro fuel
  induction fuel with
  | zero => intro prev₀ start _ h; simp [chainEnd] at h
  | succ n ih =>
    intro prev₀ start hs h
    simp only [chainEnd] at h
    split at h
    · rename_i hz
      cases h
      exact ⟨fun c hc => by cases hc; exact ⟨hs, hz, .refl⟩, fun p _ => .inl rfl, fun hc => by cases hc⟩
    · rename_i hnz
      split at h
      · cases h
      · split at h
        · rename_i hlt
          cases h
          refine ⟨fun c hc => (by cases hc), fun p hp => ?_, fun _ => ⟨start, rfl, hs, hnz, hlt, .refl⟩⟩
          cases hp
          exact .inr ⟨hs, hnz, .refl⟩
        · rename_i hge
          split at h
          · cases h
          · rename_i hle
            have hr := ih (show (t.rtNext start).toNat ≤ rtMaxIndex by omega) h
            have hgo : ∀ k, Reach t.succ (t.rtNext start).toNat k → Reach t.succ start k :=
              fun k hk => reach_succ hs hge hk
            refine ⟨fun c hc => ?_, fun p hp => ?_, fun hc => ?_⟩
            · obtain ⟨a, b, c⟩ := hr.on c hc
              exact ⟨a, b, hgo _ c⟩
            · rcases hr.before p hp with he | ⟨a, b, c⟩
              · rw [he] at hp
                cases hp
                exact .inr ⟨hs, hnz, .refl⟩
              · exact .inr ⟨a, b, hgo _ c⟩
            · obtain ⟨p, e, a, b, c, d⟩ := hr.past hc
              exact ⟨p, e, a, b, c, hgo _ d⟩

theorem removeWalk_found : ∀ {fuel cur : Nat}, cur ≤ rtMaxIndex → removeWalk t key fuel cur = some (.found i) →
      i ≤ rtMaxIndex ∧ t.rtCompId i = key ∧ Reach t.succ cur i := by
  intro fuel
  induction fuel with
  | zero => intro cur _ h; simp [removeWalk] at h
  | succ n ih =>
    intro cur hc h
    simp only [removeWalk] at h
    split at h
    · rename_i hk; cases h; exact ⟨hc, hk, .refl⟩
    · split at h
      · cases h
      · rename_i hge
        split at h
        · cases h
        · rename_i hle
          obtain ⟨h1, h2, h3⟩ := ih (by omega) h
          exact ⟨h1, h2, reach_succ hc hge h3⟩

theorem removeWalk_missing : ∀ {fuel cur : Nat}, cur ≤ rtMaxIndex → removeWalk t key fuel cur = some .missing →
      ∀ i, Reach t.succ cur i → t.rtCompId i ≠ key := by
  intro fuel
  induction fuel with
  | zero => intro cur _ h; simp [removeWalk] at h
  | succ n ih =>
    intro cur hc h i hr
    simp only [removeWalk] at h
    split at h
    · cases h
    · rename_i hk
      rcases Relation.ReflTransGen.cases_head hr with rfl | ⟨j, hj, hr'⟩
      · exact hk
      · obtain ⟨_, hjn⟩ := Table.succ_some.mp hj
        rw [if_neg (by omega)] at h
        split at h
        · cases h
        · exact ih (by omega) h i (by rw [hjn, Int.toNat_natCast]; exact hr')

theorem freeOverflow_some {o : Nat} (h : freeOverflow t = some o) :
    rtOverflowStart ≤ o ∧ o ≤ rtMaxIndex ∧ t.rtCompId o = 0 := by
  have h1 := List.find?_some h
  have h2 := List.mem_of_find?_eq_some h
  rw [List.mem_range'_1] at h2
  simp only [rtOverflowStart, rtMaxIndex] at *
  exact ⟨by omega, by omega, by simpa using h1⟩

inductive Refusal (t : Table) (d : Buf) : Prop where
  | magic (h : t.magic1 ≠ cpuCommMagic ∨ t.magic2 ≠ cpuCommMagic)
  | full (h : toI32 t.count > rtMaxIndex)
  | corrupt (h : chainEnd t walkFuel none (hashIdx (compId d)) = some .corrupt)
  | noSlot (habs : findWalk t (compId d) walkFuel (hashIdx (compId d)) = some none)
      (hocc : ¬ (t.rtCompId (hashIdx (compId d)) = 0 ∧ t.rtNext (hashIdx (compId d)) = -1))
      (h : freeOverflow t = none)
  | dirtySlot (o : Nat) (ho : freeOverflow t = some o) (h : t.rtNext o ≠ -1)

inductive AddOutcome (t : Table) (d : Buf) (r : Int) (t' : Table) : Prop where
  | refused (hr : r ≠ 0) (why : Refusal t d) (he : t'.entry = t.entry) (hc : t'.count = t.count)
  | present (i : Nat) (hr : r = 0) (ht : t' = t)
      (hi : findWalk t (compId d) walkFuel (hashIdx (compId d)) = some (some i))
  | placed (i : Nat) (hr : r = 0)
      (habs : findWalk t (compId d) walkFuel (hashIdx (compId d)) = some none)
      (hi : i ≤ rtMaxIndex) (hfree : t.rtCompId i = 0) (hend : t.rtNext i = -1)
      (hreach : Reach t.succ (hashIdx (compId d)) i)
      (he : t'.entry = update t.entry i (wr d 92 4 (ofI32 (-1))))
      (hc : t'.count = (t.count + 1) % 2 ^ 32)
  | overflowed (o : Nat) (prev cur : Option Nat) (hr : r = 0)
      (habs : findWalk t (compId d) walkFuel (hashIdx (compId d)) = some none)
      (hlo : rtOverflowStart ≤ o) (hi : o ≤ rtMaxIndex) (hfree : t.rtCompId o = 0)
      (hend : t.rtNext o = -1)
      (hstop : StopsAt t (hashIdx (compId d)) none prev cur)
      (hcur : ∀ c, cur = some c → t.rtNext c ≠ -1)
      (he : t'.entry = (linkPrev ((t.setEntry o d).rtSetNext o (-1)) prev o).entry)
      (hc : t'.count = (t.count + 1) % 2 ^ 32)

theorem entry_install (t : Table) (i : Nat) (d : Buf) :
    (install t i d).leave.entry = update t.entry i (wr d 92 4 (ofI32 (-1))) := by
  simp [install]

theorem linkPrev_enter (t : Table) (o : Nat) (d : Buf) (prev : Option Nat) :
    (linkPrev ((t.enter.setEntry o d).rtSetNext o (-1)) prev o).entry =
      (linkPrev ((t.setEntry o d).rtSetNext o (-1)) prev o).entry := by
  cases prev <;> simp [linkPrev]

theorem count_linkPrev (t : Table) (prev : Option Nat) (o : Nat) : (linkPrev t prev o).count = t.count := by
  cases prev <;> rfl

theorem chainEnd_enter (t : Table) :
    ∀ fuel prev cur, chainEnd t.enter fuel prev cur = chainEnd t fuel prev cur := by
  intro fuel
  induction fuel with
  | zero => intro prev cur; rfl
  | succ n ih => intro prev cur; simp only [chainEnd, ih]; rfl

theorem addOverflow_cases {prev cur : Option Nat}
    (habs : findWalk t (compId d) walkFuel (hashIdx (compId d)) = some none)
    (hstop : StopsAt t (hashIdx (compId d)) none prev cur) (hcur : ∀ c, cur = some c → t.rtNext c ≠ -1)
    (hocc : ¬ (t.rtCompId (hashIdx (compId d)) = 0 ∧ t.rtNext (hashIdx (compId d)) = -1))
    (h : addOverflow t.enter d prev = .ret r t') : AddOutcome t d r t' := by
  unfold addOverflow at h
  split at h
  · rename_i hnone; cases h; exact .refused (by decide) (.noSlot habs hocc hnone) rfl rfl
  · rename_i o ho
    obtain ⟨hlo, hi, hfree⟩ := freeOverflow_some ho
    split at h
    · rename_i hlink; cases h; exact .refused (by decide) (.dirtySlot o ho hlink) rfl rfl
    · rename_i hend
      cases h
      refine .overflowed o prev cur rfl habs hlo hi hfree (not_not.mp hend) hstop hcur ?_ ?_
      · exact linkPrev_enter t o d prev
      · simp [count_linkPrev]

theorem addLocked_cases (habs : findWalk t (compId d) walkFuel (hashIdx (compId d)) = some none)
    (h : addLocked t.enter d = .ret r t') : AddOutcome t d r t' := by
  simp only [addLocked, chainEnd_enter] at h
  split at h
  · rename_i hfree
    cases h
    exact .placed _ rfl habs (hashIdx_le _) hfree.1 hfree.2 .refl (entry_install t _ d) rfl
  · rename_i hocc
    split at h
    · cases h
    · rename_i hbad; cases h; exact .refused (by decide) (.corrupt hbad) rfl rfl
    · rename_i prev cur hend
      have hstop := chainEnd_stop (hashIdx_le _) hend
      obtain ⟨hle, hz, hr⟩ := hstop.on cur rfl
      split at h
      · rename_i hlast
        cases h
        exact .placed cur rfl habs hle hz hlast hr (entry_install t _ d) rfl
      · rename_i hlast
        exact addOverflow_cases habs hstop (fun c hc => by cases hc; exact hlast) hocc h
    · rename_i prev hend
      exact addOverflow_cases habs (chainEnd_stop (hashIdx_le _) hend) (fun c hc => by cases hc) hocc h

theorem add_cases (h : addInRoutine t d = .ret r t') : AddOutcome t d r t' := by
  unfold addInRoutine at h
  split at h
  · rename_i hm; cases h; exact .refused (by decide) (.magic (.inl hm)) rfl rfl
  split at h
  · rename_i hm; cases h; exact .refused (by decide) (.magic (.inr hm)) rfl rfl
  split at h
  · rename_i hfull; cases h; exact .refused (by decide) (.full hfull) rfl rfl
  rename_i hm1 hm2 hcnt
  unfold findRoutineEx findRoutineExFuel at h
  rw [if_neg hm1, if_neg hm2, if_neg hcnt] at h
  cases hw : findWalk t (compId d) walkFuel (hashIdx (compId d)) with
  | none => rw [hw] at h; cases h
  | some found =>
    cases found with
    | some i =>
      simp only [hw] at h
      cases h
      exact .present i rfl rfl hw
    | none =>
      simp only [hw] at h
      rw [if_neg (by decide)] at h
      exact addLocked_cases hw h
theorem unlink_end (h : ¬ (0 ≤ t.rtNext i ∧ t.rtNext i ≤ rtMaxIndex)) :
    (unlink t i).entry = update t.entry i (wr (t.entry i) 8 4 0) := by
  have hn : (t.clearCompId i).rtNext i = t.rtNext i := by
    simp [Table.rtNext, link_wr_key]
  simp only [unlink, hn]
  rw [if_neg h]
  rfl

theorem unlink_succ {j : Nat} (hn : t.rtNext i = j) (hj : j ≤ rtMaxIndex) (hij : j ≠ i) : (unlink t i).entry =
      update (update t.entry i (wr (t.entry j) 92 4 (ofI32 (t.rtNext j)))) j
        (wr (wr (t.entry j) 8 4 0) 92 4 (ofI32 (-1))) := by
  have hn' : (t.clearCompId i).rtNext i = j := by
    rw [← hn]; simp [Table.rtNext, link_wr_key]
  simp only [unlink, hn']
  rw [if_pos (by omega)]
  simp only [Int.toNat_natCast, Table.entry_rtSetNext, Table.entry_clearCompId, Table.entry_setEntry,
    Table.rtNext, update_self, update_of_ne hij, update_idem]

theorem unlink_enter (t : Table) (i : Nat) : (unlink t.enter i).entry = (unlink t i).entry := by
  have hn : (t.enter.clearCompId i).rtNext i = (t.clearCompId i).rtNext i := rfl
  simp only [unlink, hn]
  split <;> rfl

theorem count_unlink (t : Table) (i : Nat) : (unlink t i).count = t.count := by
  simp only [unlink]
  split <;> rfl

inductive RemoveOutcome (t : Table) (d : Buf) (t' : Table) : Prop where
  | missing (hw : removeWalk t (compId d) walkFuel (hashIdx (compId d)) = some .missing)
      (he : t'.entry = t.entry) (hc : t'.count = t.count)
  | removed (i : Nat) (hi : i ≤ rtMaxIndex) (hk : t.rtCompId i = compId d)
      (hreach : Reach t.succ (hashIdx (compId d)) i)
      (he : t'.entry = (unlink t i).entry)
      (hc : t'.count = if t.count = 0 then 2 ^ 32 - 1 else t.count - 1)

theorem removeWalk_enter (t : Table) (key : Nat) :
    ∀ fuel cur, removeWalk t.enter key fuel cur = removeWalk t key fuel cur := by
  intro fuel
  induction fuel with
  | zero => intro cur; rfl
  | succ n ih => intro cur; simp only [removeWalk, ih]; rfl

theorem remove_cases {c : Nat} (h : removeRoutine t d c = .ret r t') : RemoveOutcome t d t' := by
  unfold removeRoutine at h
  split at h
  · cases h
  split at h
  · cases h
  split at h
  · cases h
  simp only [removeWalk_enter] at h
  split at h
  · cases h
  · cases h
  · rename_i hw
    cases h
    exact .missing hw rfl rfl
  · rename_i i hw
    obtain ⟨hi, hk, hr⟩ := removeWalk_found (hashIdx_le _) hw
    split at h
    · cases h
    · cases h
      refine .removed i hi hk hr ?_ ?_
      · rw [Table.entry_leave, Table.entry_decCount, unlink_enter]
      · simp [count_unlink]

def Picked (p : Buf → Bool) (t : Table) (i : Nat) : Prop := t.rtCompId i ≠ 0 ∧ p (t.entry i) = true
deriving Decidable

theorem entry_cleanSlot (p : Buf → Bool) (t : Table) (i : Nat) : (cleanSlot p t i).entry =
      if Picked p t i then update t.entry i (wr (t.entry i) 8 4 0) else t.entry := by
  unfold cleanSlot Picked
  by_cases hz : t.rtCompId i = 0 <;> by_cases hp : p (t.entry i) = true <;> simp [hz, hp]

theorem entry_foldl_cleanSlot (p : Buf → Bool) (j : Nat) :
    ∀ (l : List Nat) (t : Table), (l.foldl (cleanSlot p) t).entry j =
      if j ∈ l ∧ Picked p t j then wr (t.entry j) 8 4 0 else t.entry j := by
  intro l
  induction l with
  | nil => intro t; simp
  | cons i l ih =>
    intro t
    rw [List.foldl_cons, ih]
    have hval : (cleanSlot p t i).entry j =
        if j = i ∧ Picked p t j then wr (t.entry j) 8 4 0 else t.entry j := by
      rw [entry_cleanSlot]
      by_cases hji : j = i
      · subst hji; split <;> simp_all
      · split <;> simp [hji]
    by_cases hji : j = i ∧ Picked p t j
    · -- freed by this turn, so no later turn picks the slot
      have hgone : ¬ Picked p (cleanSlot p t i) j := by
        unfold Picked Table.rtCompId
        rw [hval, if_pos hji, compId_wr_key]
        simp
      rw [if_neg (fun h => hgone h.2), hval, if_pos hji, if_pos ⟨by simp [hji.1], hji.2⟩]
    · rw [if_neg hji] at hval
      have hsame : Picked p (cleanSlot p t i) j ↔ Picked p t j := by
        unfold Picked Table.rtCompId; rw [hval]
      have hiff : (j ∈ l ∧ Picked p (cleanSlot p t i) j) ↔ (j ∈ i :: l ∧ Picked p t j) := by
        rw [hsame, List.mem_cons]
        exact ⟨fun h => ⟨.inr h.1, h.2⟩, fun h => ⟨h.1.resolve_left fun e => hji ⟨e, h.2⟩, h.2⟩⟩
      simp only [hval, hiff]

theorem entry_cleanWhere (p : Buf → Bool) (t : Table) (j : Nat) : (cleanWhere p t).entry j =
    if j ≤ rtMaxIndex ∧ Picked p t j then wr (t.entry j) 8 4 0 else t.entry j := by
  unfold cleanWhere
  rw [Table.entry_leave, entry_foldl_cleanSlot]
  simp only [List.mem_range, Nat.lt_succ_iff]
  rfl

theorem rtCompId_cleanWhere (p : Buf → Bool) (t : Table) (j : Nat) : (cleanWhere p t).rtCompId j =
    if j ≤ rtMaxIndex ∧ Picked p t j then 0 else t.rtCompId j := by
  unfold Table.rtCompId
  rw [entry_cleanWhere]
  split
  · exact compId_wr_key _
  · rfl

theorem rtNext_cleanWhere (p : Buf → Bool) (t : Table) (j : Nat) : (cleanWhere p t).rtNext j = t.rtNext j := by
  unfold Table.rtNext
  rw [entry_cleanWhere]
  split
  · exact link_wr_key _
  · rfl

theorem succ_cleanWhere (p : Buf → Bool) (t : Table) : (cleanWhere p t).succ = t.succ := by
  funext j
  unfold Table.succ
  rw [rtNext_cleanWhere]

end H713.Routine
