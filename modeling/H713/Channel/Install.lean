import H713.Channel.Pool
import H713.Routine.Steps

/-!
# Channel.Install

`CPUComm_InstallRoutine` and `CPUComm_UnInstallRoutine`: the routine table and the channel pool together, with the
pairs of component id and thread that are installed.
-/

namespace H713.Channel

open Function
open Bytes Routine Slots Socket

def pair (d : Buf) : Nat × Nat := (compId d, flags d)

def key (x : Nat × Nat) : Nat := channelId x.1 x.2

def cpuCommInstallRoutine (t : Table) (p : Words) (d : Buf) : Out (Table × Words) Int :=
  (addInRoutine t d).bind fun r t =>
    if r ≠ 0 then .ret (-1) (t, p)
    else
      match commQueryChannel p (queryId (compId d) (flags d)) with
      | some _ => .ret 0 (t, p)
      | none =>
        let a := commAddNewChannel p (compId d) (flags d)
        .ret a.1 (t, a.2)

def cpuCommUnInstallRoutine (t : Table) (p : Words) (d : Buf) : Out (Table × Words) Int :=
  (removeRoutine t d getCurCPUID).bind fun r t =>
    let p := if r = 0 then (commRemoveChannel p (compId d) (flags d)).2 else p
    .ret (if r < 0 then r else 0) (t, p)

structure State where
  table : Table
  pool : Words
  installed : Finset (Nat × Nat)

def init (t : Table) (a : Nat) : State := ⟨t, initial a, ∅⟩

inductive Op where
  | install (d : Buf)
  | uninstall (d : Buf)

def step (s : State) : Op → Out State Int
  | .install d =>
    (cpuCommInstallRoutine s.table s.pool d).bind fun r c =>
      .ret r ⟨c.1, c.2, if r = 0 then insert (pair d) s.installed else s.installed⟩
  | .uninstall d =>
    (cpuCommUnInstallRoutine s.table s.pool d).bind fun r c =>
      .ret r ⟨c.1, c.2, if r = 0 then s.installed.erase (pair d) else s.installed⟩

/-- One channel for each installed pair, and the count is the number of slots in use. -/
structure State.Right (s : State) : Prop where
  holds : Holds channelSlotCount (slotId s.pool) 0 key s.installed
  count : s.pool 0 = (used channelSlotCount (slotId s.pool) 0).card

/-- An uninstall leaves the channels of the other pairs where they are. -/
def KeepsOthers (s : State) (op : Op) (s' : State) : Prop :=
  match op with
  | .install _ => True
  | .uninstall d => ∀ y ∈ s.installed, y ≠ pair d →
      ∀ i < channelSlotCount, slotId s.pool i = key y → slotId s'.pool i = key y

def Queried (p : Words) (d : Buf) : Prop :=
  ∃ i < channelSlotCount, slotId p i = queryId (compId d) (flags d)

instance (p : Words) (d : Buf) : Decidable (Queried p d) :=
  inferInstanceAs (Decidable (∃ i < channelSlotCount, slotId p i = queryId (compId d) (flags d)))

def Stored (p : Words) (d : Buf) : Prop :=
  ∃ i < channelSlotCount, slotId p i = key (pair d)

instance (p : Words) (d : Buf) : Decidable (Stored p d) :=
  inferInstanceAs (Decidable (∃ i < channelSlotCount, slotId p i = key (pair d)))

def behind (t : Table) (i : Nat) : Buf :=
  if 0 ≤ t.rtNext i ∧ t.rtNext i ≤ rtMaxIndex then t.entry (t.rtNext i).toNat else t.entry i

def owned (t : Table) (d : Buf) : Bool :=
  match removeWalk t (compId d) walkFuel (hashIdx (compId d)) with
  | some (.found i) =>
    name d = name (behind t i) ∧ flags d = flags (behind t i) ∧ cpu (behind t i) = getCurCPUID
  | _ => false

/-- An install has a key of its own and finds the query, an uninstall the owner, as the history has it. -/
def Fits (s : State) : Op → Prop
  | .install d =>
    if pair d ∈ s.installed then Queried s.pool d
    else ¬ Queried s.pool d ∧ key (pair d) ≠ 0 ∧ ∀ y ∈ s.installed, key y ≠ key (pair d)
  | .uninstall d =>
    if pair d ∈ s.installed then owned s.table d = true
    else owned s.table d = false ∨ ¬ Stored s.pool d

instance (s : State) : DecidablePred (Fits s) := fun op => by
  cases op <;> unfold Fits <;> infer_instance

def owner (e : Buf) : Nat × Nat × Nat := (name e, flags e, cpu e)

theorem owner_wr_link (e : Buf) (v : Nat) : owner (wr e 92 4 v) = owner e := by
  simp (disch := omega) only [owner, name, flags, cpu, rd_wr_of_disjoint]

theorem owner_wr_key (e : Buf) (v : Nat) : owner (wr e 8 4 v) = owner e := by
  simp (disch := omega) only [owner, name, flags, cpu, rd_wr_of_disjoint]

theorem owner_setEntry (t : Table) (i j : Nat) {e : Buf} (h : owner e = owner (t.entry i)) :
    owner ((t.setEntry i e).entry j) = owner (t.entry j) := by
  by_cases hj : j = i
  · subst hj
    simpa [Table.setEntry] using h
  · simp [Table.setEntry, hj]

theorem owner_rtSetNext (t : Table) (i j : Nat) (n : Int) : owner ((t.rtSetNext i n).entry j) = owner (t.entry j) :=
  owner_setEntry t i j (owner_wr_link ..)

theorem owner_clearCompId (t : Table) (i j : Nat) : owner ((t.clearCompId i).entry j) = owner (t.entry j) :=
  owner_setEntry t i j (owner_wr_key ..)

theorem owner_unlink (t : Table) (i : Nat) : owner ((unlink t i).entry i) = owner (behind t i) := by
  have hn : (t.clearCompId i).rtNext i = t.rtNext i := by
    simp [Table.rtNext, link_wr_key]
  simp only [unlink, behind, hn]
  split
  · rw [owner_rtSetNext, owner_clearCompId, owner_rtSetNext]
    simp only [Table.setEntry, update_self]
    exact owner_clearCompId ..
  · exact owner_clearCompId ..

variable {d : Buf} {r : Int} {s s' : State}

theorem removeResult_eq_zero {t : Table} {i : Nat} {e : Buf} (h : owner (t.entry i) = owner e) :
    removeResult t i d getCurCPUID =
      if name d = name e ∧ flags d = flags e ∧ cpu e = getCurCPUID then 0 else 1 := by
  simp only [owner, Prod.mk.injEq] at h
  obtain ⟨hn, hf, hc⟩ := h
  simp only [removeResult, hn, hf, hc]

theorem removeRoutine_value {t t' : Table} (h : removeRoutine t d getCurCPUID = .ret r t') :
    r = -1 ∨ r = if owned t d = true then 0 else 1 := by
  unfold removeRoutine at h
  split at h
  · cases h
  split at h
  · cases h
  split at h
  · cases h
  simp only [removeWalk_enter] at h
  split at h
  · cases h
  · cases h
  · cases h
    exact .inl rfl
  · rename_i i hw
    split at h
    · cases h
    · cases h
      right
      have ho : owner ((unlink t.enter i).decCount.entry i) = owner (behind t i) := by
        rw [Table.entry_decCount, unlink_enter, owner_unlink]
      rw [removeResult_eq_zero ho]
      simp only [owned, hw, decide_eq_true_eq]

section

variable {t t' : Table} {p p' : Words} {d : Buf} {r : Int}

theorem query_some {i : Nat} (h : commQueryChannel p (queryId (compId d) (flags d)) = some i) : Queried p d :=
  ⟨i, first_some h⟩

theorem query_none (h : commQueryChannel p (queryId (compId d) (flags d)) = none) : ¬ Queried p d := by
  rintro ⟨i, hi, hid⟩
  exact first_none.mp h i hi hid

theorem install_cases (h : cpuCommInstallRoutine t p d = .ret r (t', p')) :
    (r ≠ 0 ∧ p' = p) ∨ (r = 0 ∧ Queried p d ∧ p' = p) ∨
      (r = 0 ∧ ¬ Queried p d ∧ ∃ j < channelSlotCount, slotId p j = 0 ∧
        slotId p' = update (slotId p) j (key (pair d)) ∧ p' 0 = (p 0 + 1) % 2 ^ 32) := by
  obtain ⟨r₁, t₁, -, h⟩ := Out.bind_eq_ret h
  split at h
  · cases h
    exact .inl ⟨by decide, rfl⟩
  split at h
  · rename_i hq
    cases h
    exact .inr (.inl ⟨rfl, query_some hq, rfl⟩)
  · rename_i hq
    cases hf : first channelSlotCount (slotId p) 0 with
    | none =>
      rw [commAddNewChannel_none _ _ hf] at h
      cases h
      exact .inl ⟨show eNoMem ≠ 0 by decide, rfl⟩
    | some j =>
      obtain ⟨hj, hz⟩ := first_some hf
      obtain ⟨p₁, hp, hid, hc⟩ := commAddNewChannel_some (compId d) (flags d) hf
      rw [hp] at h
      cases h
      exact .inr (.inr ⟨rfl, query_none hq, j, hj, hz, hid, hc⟩)

theorem uninstall_cases (h : cpuCommUnInstallRoutine t p d = .ret r (t', p')) :
    (r ≠ 0 ∧ p' = p) ∨ (r = 0 ∧ owned t d = false ∧ p' = p) ∨ (r = 0 ∧ owned t d = true ∧ ¬ Stored p d ∧ p' = p) ∨
      (r = 0 ∧ owned t d = true ∧ ∃ j < channelSlotCount, slotId p j = key (pair d) ∧
        slotId p' = update (slotId p) j 0 ∧ p' 0 = (p 0 + (2 ^ 32 - 1)) % 2 ^ 32) := by
  obtain ⟨r₁, t₁, hrem, h⟩ := Out.bind_eq_ret h
  rcases removeRoutine_value hrem with rfl | rfl
  · cases h
    exact .inl ⟨by decide, rfl⟩
  by_cases ho : owned t d = true
  · rw [if_pos ho] at h
    cases hf : first channelSlotCount (slotId p) (channelId (compId d) (flags d)) with
    | none =>
      simp only [commRemoveChannel_none _ _ hf] at h
      cases h
      refine .inr (.inr (.inl ⟨rfl, ho, ?_, rfl⟩))
      rintro ⟨i, hi, hid⟩
      exact first_none.mp hf i hi hid
    | some j =>
      obtain ⟨hj, hz⟩ := first_some hf
      obtain ⟨p₁, hp, hid, hc⟩ := commRemoveChannel_some _ _ hf
      simp only [hp] at h
      cases h
      exact .inr (.inr (.inr ⟨rfl, ho, j, hj, hz, hid, hc⟩))
  · rw [if_neg ho] at h
    cases h
    exact .inr (.inl ⟨rfl, Bool.eq_false_iff.mpr ho, rfl⟩)

end

namespace State

variable {s : State} {t : Table} {p : Words} {d : Buf} {j : Nat}

theorem card_lt (f : Nat → Nat) : (used channelSlotCount f 0).card < 2 ^ 32 - 1 :=
  lt_of_le_of_lt card_used_le (by decide)

section

variable (h : s.Right)

include h

theorem Right.congr {S : Finset (Nat × Nat)} (hS : S = s.installed) : Right ⟨t, s.pool, S⟩ := by
  subst hS
  exact ⟨h.holds, h.count⟩

theorem Right.found_iff : Right ⟨t, s.pool, insert (pair d) s.installed⟩ ↔ pair d ∈ s.installed :=
  ⟨fun h' => h.holds.mem_of_insert h'.holds, fun hm => h.congr (Finset.insert_eq_self.mpr hm)⟩

theorem Right.added_iff (hj : j < channelSlotCount) (hz : slotId s.pool j = 0)
    (hid : slotId p = update (slotId s.pool) j (key (pair d))) (hc : p 0 = (s.pool 0 + 1) % 2 ^ 32) :
    Right ⟨t, p, insert (pair d) s.installed⟩ ↔
      pair d ∉ s.installed ∧ key (pair d) ≠ 0 ∧ ∀ y ∈ s.installed, key y ≠ key (pair d) := by
  have hself := Finset.mem_insert_self (pair d) s.installed
  constructor
  · intro h'
    have hh := h'.holds
    have hnew : pair d ∉ s.installed := by
      intro hm
      simp only [hid] at hh
      exact h.holds.not_fill_again hm hj hz hself hh
    refine ⟨hnew, hh.key_ne hself, fun y hy he => hnew ?_⟩
    rw [← hh.apart y (Finset.mem_insert_of_mem hy) _ hself he]
    exact hy
  · rintro ⟨-, hk, hnew⟩
    refine ⟨?_, ?_⟩
    · simp only [hid]
      exact h.holds.fill hj hz hk hnew
    · have hlt := card_lt (slotId s.pool)
      simp only [hid]
      rw [card_used_fill hj hz hk, hc, h.count, Nat.mod_eq_of_lt (by omega)]

theorem Right.left_iff : Right ⟨t, s.pool, s.installed.erase (pair d)⟩ ↔ pair d ∉ s.installed :=
  ⟨fun h' => h.holds.notMem_of_erase h'.holds, fun hm => h.congr (Finset.erase_eq_of_notMem hm)⟩

theorem Right.removed_iff (hj : j < channelSlotCount) (hk : slotId s.pool j = key (pair d))
    (hid : slotId p = update (slotId s.pool) j 0)
    (hc : p 0 = (s.pool 0 + (2 ^ 32 - 1)) % 2 ^ 32) :
    Right ⟨t, p, s.installed.erase (pair d)⟩ ↔ pair d ∈ s.installed := by
  have hlt := card_lt (slotId s.pool)
  constructor
  · intro h'
    by_contra hm
    by_cases hz : slotId s.pool j = 0
    · -- a free slot was found: nothing changes but the count
      have hsame : update (slotId s.pool) j 0 = slotId s.pool := by
        rw [← hz, update_eq_self]
      have hcount := h'.count
      simp only [hid, hsame, hc, h.count] at hcount
      omega
    · obtain ⟨y, hy, hky⟩ := h.holds.only j hj hz
      have hne : y ≠ pair d := by
        rintro rfl
        exact hm hy
      have hh := h'.holds
      simp only [hid] at hh
      exact h.holds.not_clear hy hj hky (Finset.mem_erase.mpr ⟨hne, hy⟩) hh
  · intro hm
    have hz : slotId s.pool j ≠ 0 := hk ▸ h.holds.key_ne hm
    refine ⟨?_, ?_⟩
    · simp only [hid]
      exact h.holds.clear hj hm hk
    · have hcard := card_used_clear hj hz
      simp only [hid]
      rw [hc, h.count]
      omega

theorem Right.others (hm : pair d ∈ s.installed) (hk : slotId s.pool j = key (pair d))
    (hid : slotId p = update (slotId s.pool) j 0) :
    ∀ y ∈ s.installed, y ≠ pair d → ∀ i < channelSlotCount, slotId s.pool i = key y → slotId p i = key y := by
  intro y hy hne i _ hi
  have hij : i ≠ j := by
    rintro rfl
    exact hne (h.holds.apart y hy _ hm (hi.symm.trans hk))
  rw [hid, update_of_ne hij, hi]

end

end State

theorem install_right_iff (h : s.Right) (hs : step s (.install d) = .ret r s') :
    s'.Right ↔ (r = 0 → Fits s (.install d)) := by
  obtain ⟨r₁, ⟨t, p⟩, hi, hs⟩ := Out.bind_eq_ret hs
  cases hs
  rcases install_cases hi with ⟨hr, rfl⟩ | ⟨rfl, hq, rfl⟩ | ⟨rfl, hq, j, hj, hz, hid, hc⟩
  · simp only [if_neg hr]
    exact ⟨fun _ h0 => absurd h0 hr, fun _ => h.congr rfl⟩
  · simp only [if_pos, Fits, forall_const]
    rw [h.found_iff]
    grind
  · simp only [if_pos, Fits, forall_const]
    rw [h.added_iff hj hz hid hc]
    grind

theorem uninstall_right_iff (h : s.Right) (hs : step s (.uninstall d) = .ret r s') :
    s'.Right ∧ KeepsOthers s (.uninstall d) s' ↔ (r = 0 → Fits s (.uninstall d)) := by
  obtain ⟨r₁, ⟨t, p⟩, hi, hs⟩ := Out.bind_eq_ret hs
  cases hs
  have hstay : KeepsOthers s (.uninstall d) ⟨t, s.pool, s.installed.erase (pair d)⟩ :=
    fun y _ _ i _ hy => hy
  rcases uninstall_cases hi with
    ⟨hr, rfl⟩ | ⟨rfl, ho, rfl⟩ | ⟨rfl, ho, hst, rfl⟩ | ⟨rfl, ho, j, hj, hk, hid, hc⟩
  · simp only [if_neg hr]
    exact ⟨fun _ h0 => absurd h0 hr, fun _ => ⟨h.congr rfl, fun y _ _ i _ hy => hy⟩⟩
  · simp only [if_pos, Fits, forall_const, and_iff_left hstay]
    rw [h.left_iff]
    grind
  · simp only [if_pos, Fits, forall_const, and_iff_left hstay]
    rw [h.left_iff]
    have hn : pair d ∉ s.installed := by
      intro hm
      obtain ⟨i, hi, -, hki⟩ := h.holds.slot hm
      exact hst ⟨i, hi, hki⟩
    grind
  · simp only [if_pos, Fits, forall_const]
    have hst : Stored s.pool d := ⟨j, hj, hk⟩
    rw [h.removed_iff hj hk hid hc]
    constructor
    · rintro ⟨hm, -⟩
      simp [hm, ho]
    · intro hf
      have hm : pair d ∈ s.installed := by
        by_contra hm
        simp [hm, ho, hst] at hf
      exact ⟨hm, h.others hm hk hid⟩

theorem step_right_iff {op : Op} (h : s.Right) (hs : step s op = .ret r s') :
    s'.Right ∧ KeepsOthers s op s' ↔ (r = 0 → Fits s op) := by
  cases op with
  | install d => exact (and_iff_left trivial).trans (install_right_iff h hs)
  | uninstall d => exact uninstall_right_iff h hs

theorem init_right (t : Table) (a : Nat) : (init t a).Right where
  holds := .empty fun i _ => initial_free a i
  count := by
    have h : used channelSlotCount (slotId (initial a)) 0 = ∅ := by
      simp [used, initial_free]
    simp only [init, initial_count, h, Finset.card_empty]

/-- After every sequence of calls that fit, the pool holds exactly one channel for each installed pair and its count
is right; the next call keeps this exactly when it fails or fits. -/
theorem one_channel_each {t : Table} {a : Nat} {ops : List Op} {s : State} (hr : Run step Fits (init t a) ops s) :
    s.Right ∧ ∀ op r s', step s op = .ret r s' → (s'.Right ∧ KeepsOthers s op s' ↔ (r = 0 → Fits s op)) := by
  have h : s.Right := hr.inv (fun s i r s' h hf hs => ((step_right_iff h hs).mpr fun _ => hf).1)
    (init_right t a)
  exact ⟨h, fun op r s' hs => step_right_iff h hs⟩

def descriptor (compId thread : Nat) : Buf := wr (wr (fun _ => 0) 4 4 thread) 8 4 compId

theorem one_channel_each_two : ∃ s, Run step Fits (init Routine.empty 0)
    [.install (descriptor 5 7), .install (descriptor 6 7), .uninstall (descriptor 5 7)] s ∧
      s.installed = {(6, 7)} ∧ s.Right := by
  refine Run.exists_of_exec_imp (P := fun s => s.installed = {(6, 7)}) (by decide +kernel) fun s hr hi => ?_
  exact ⟨hi, (one_channel_each hr).1⟩

theorem uninstall_removes_other : ∃ s, Run step (fun _ _ => True) (init Routine.empty 0)
    [.install (descriptor 1 1), .install (descriptor 17 1), .uninstall (descriptor 17 1)] s ∧
      s.installed = {(1, 1)} ∧ (∀ i < channelSlotCount, slotId s.pool i ≠ key (1, 1)) ∧ ¬ s.Right := by
  refine Run.exists_of_exec_imp
    (P := fun s => s.installed = {(1, 1)} ∧ ∀ i < channelSlotCount, slotId s.pool i ≠ key (1, 1))
    (by decide +kernel) fun s hr hend => ?_
  obtain ⟨hi, hn⟩ := hend
  refine ⟨hi, hn, fun h => ?_⟩
  obtain ⟨i, hlt, -, hk⟩ := h.holds.slot (b := (1, 1)) (by rw [hi]; exact Finset.mem_singleton_self _)
  exact hn i hlt hk

def Small (x : Nat × Nat) : Prop := x.1 < 16 ∧ x.2 < 2 ^ 28 ∧ x ≠ (0, 0)

theorem Small.key_eq {x : Nat × Nat} (h : Small x) : key x = x.2 * 16 + x.1 := by
  obtain ⟨h1, h2, -⟩ := h
  have hor := Nat.shiftLeft_add_eq_or_of_lt (i := 4) h1 x.2
  rw [Nat.shiftLeft_eq] at hor
  rw [key, channelId, Nat.mod_eq_of_lt (by omega), Nat.mod_eq_of_lt (by omega), Nat.or_comm]
  exact hor.symm

theorem Small.queryId_eq {x : Nat × Nat} (h : Small x) : queryId x.1 x.2 = key x := by
  rw [key, queryId, channelId, Nat.mod_eq_of_lt h.1,
    Nat.mod_eq_of_lt (h.1.trans (show (16 : Nat) < 2 ^ 16 by decide))]

theorem State.Right.fits_install (h : s.Right) (hd : Small (pair d)) (hs : ∀ y ∈ s.installed, Small y) :
    Fits s (.install d) := by
  have hq : queryId (compId d) (flags d) = key (pair d) := hd.queryId_eq
  have hk : key (pair d) ≠ 0 := by
    have hne := hd.2.2
    rw [hd.key_eq]
    intro h0
    exact hne (Prod.ext (by omega) (by omega))
  simp only [Fits, Queried, hq]
  split
  · rename_i hm
    obtain ⟨i, hi, -, hki⟩ := h.holds.slot hm
    exact ⟨i, hi, hki⟩
  · rename_i hm
    have hnew : ∀ y ∈ s.installed, key y ≠ key (pair d) := by
      intro y hy he
      have hy' := hs y hy
      have h1 := hy'.1
      have h2 := hd.1
      rw [hy'.key_eq, hd.key_eq] at he
      have : y = pair d := Prod.ext (by omega) (by omega)
      exact hm (this ▸ hy)
    refine ⟨?_, hk, hnew⟩
    rintro ⟨i, hi, hid⟩
    obtain ⟨y, hy, hyk⟩ := h.holds.only i hi (hid ▸ hk)
    exact hnew y hy (hyk.symm.trans hid)

end H713.Channel
