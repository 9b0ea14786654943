import Mathlib.Algebra.BigOperators.Group.Finset.Basic
import Mathlib.Data.Multiset.Basic
import H713.Routine.Registry

/-!
# Routine.Remove

What `RemoveRoutine` reports, in every table a history of calls with arbitrary descriptors leads to. The result is
computed from the slot after the successor has been copied into it.
-/

namespace H713.Routine

open Function
open Bytes Links

def Registered (t : Table) (key : Nat) : Prop := key ≠ 0 ∧ Holds t key
deriving Decidable

def verdict (e d : Buf) (ourCpu : Nat) : Int :=
  if name d = name e ∧ flags d = flags e ∧ cpu e = ourCpu then 0 else 1

def entries (t : Table) : Multiset Buf := ∑ i ∈ occupied t, {body (t.entry i)}

def RemovesRight (t : Table) (d : Buf) : Prop :=
  ∃ r t', removeRoutine t d getCurCPUID = .ret r t' ∧
    (r = -1 ∧ t'.entry = t.entry ∧ t'.count = t.count ↔ ¬ Registered t (compId d)) ∧
    (Registered t (compId d) → ∃ i ≤ rtMaxIndex, t.rtCompId i = compId d ∧
      entries t = {body (t.entry i)} + entries t' ∧ t'.count = t.decCount.count ∧
      r = verdict (t.entry i) d getCurCPUID)

def firstOnChain (t : Table) (key : Nat) : Option Nat :=
  (chainFrom t (hashIdx key)).find? fun i => t.rtCompId i = key

/-- The count lets the call through, and the slot found is not free, its cpu exists and its successor gets
the same verdict; or no slot has the key. -/
def RemoveSound (t : Table) (d : Buf) : Prop :=
  ¬ toI32 t.count > rtMaxIndex ∧
  match firstOnChain t (compId d) with
  | some i => compId d ≠ 0 ∧ cpu (t.entry i) ≤ 1 ∧
      ∀ j ∈ t.succ i, verdict (t.entry j) d getCurCPUID = verdict (t.entry i) d getCurCPUID
  | none => ¬ Registered t (compId d)

variable {t : Table}

theorem removeWalk_follow (h : LinksOk t) (key : Nat) : ∀ {fuel cur : Nat} {l : Lookup},
    cur ≤ rtMaxIndex → removeWalk t key fuel cur = some l →
      l = ((follow t.succ fuel cur).find? fun i => t.rtCompId i = key).elim .missing .found := by
  intro fuel
  induction fuel with
  | zero => intro cur l _ hw; cases hw
  | succ n ih =>
    intro cur l hc hw
    simp only [removeWalk] at hw
    simp only [follow]
    split at hw
    · rename_i hkey
      cases hw
      rw [List.find?_cons_of_pos (by simpa using hkey)]
      rfl
    rename_i hkey
    rw [List.find?_cons_of_neg (by simpa using hkey)]
    split at hw
    · rename_i hend
      cases hw
      rw [Table.succ_none hend]
      rfl
    rename_i hgoes
    rw [edge_rtNext hc hgoes, Option.elim_some]
    split at hw
    · rename_i hbig
      rcases h.range cur hc with hn | hn <;> omega
    · exact ih (by omega) hw

theorem removeWalk_eq (h : LinksOk t) (key : Nat) :
    removeWalk t key walkFuel (hashIdx key) = some ((firstOnChain t key).elim .missing .found) := by
  obtain ⟨l, hl⟩ := h.removeWalk_total key (hashIdx_le key)
  have hw := hl walkFuel le_rfl
  rw [hw, removeWalk_follow h key (hashIdx_le key) hw]
  rfl

theorem firstOnChain_some (h : LinksOk t) {key i : Nat} (hi : firstOnChain t key = some i) :
    i ≤ rtMaxIndex ∧ t.rtCompId i = key := by
  have hmem := List.mem_of_find?_eq_some hi
  exact ⟨h.le_of_mem_follow (hashIdx_le key) hmem, by simpa using List.find?_some hi⟩

section

variable {t t' : Table} {i : Nat}

theorem entries_eq_cons (h : i ∈ occupied t) :
    entries t = {body (t.entry i)} + ∑ k ∈ (occupied t).erase i, {body (t.entry k)} :=
  (Finset.add_sum_erase _ _ h).symm

theorem entries_unlink (hl : LinksOk t) (hi : i ∈ occupied t) (he : t'.entry = (unlink t i).entry) :
    entries t = {body (t.entry i)} + entries t' := by
  have hle : i ≤ rtMaxIndex := (mem_occupied.mp hi).1
  suffices hrest : ∑ k ∈ (occupied t).erase i, {body (t.entry k)} = entries t' by
    rw [entries_eq_cons hi, hrest]
  rcases hl.range i hle with hend | ⟨hn0, hn1⟩
  · have hn : ¬ (0 ≤ t.rtNext i ∧ t.rtNext i ≤ rtMaxIndex) := by omega
    rw [entries, occupied_erase (rtCompId_unlink_end hn he)]
    refine Finset.sum_congr rfl fun k hk => ?_
    rw [he, unlink_end hn, update_of_ne (Finset.ne_of_mem_erase hk)]
  · obtain ⟨j, hj⟩ := Int.eq_ofNat_of_zero_le hn0
    have hjle : j ≤ rtMaxIndex := by omega
    have hij : j ≠ i := (hl.acyclic.ne (Table.succ_some.mpr ⟨hle, hj⟩)).symm
    have hbody : ∀ k, k ≠ j → body (t'.entry k) = if k = i then body (t.entry j) else body (t.entry k) :=
      fun k hk => body_unlink_succ hj hjle hij he hk
    rw [entries, occupied_unlink hi hij (rtCompId_unlink_succ hj hjle hij he)]
    by_cases hz : t.rtCompId j = 0
    · -- the successor was empty: its slot and the removed one are both free now
      rw [if_pos hz]
      refine Finset.sum_congr rfl fun k hk => ?_
      have hki := Finset.ne_of_mem_erase hk
      have hkj : k ≠ j := by
        rintro rfl
        exact (mem_occupied.mp (Finset.mem_of_mem_erase hk)).2 hz
      rw [hbody k hkj, if_neg hki]
    · -- the successor's entry is in the removed slot now
      rw [if_neg hz]
      have hjmem : j ∈ (occupied t).erase i := Finset.mem_erase.mpr ⟨hij, mem_occupied.mpr ⟨hjle, hz⟩⟩
      have himem : i ∈ (occupied t).erase j := Finset.mem_erase.mpr ⟨hij.symm, hi⟩
      have hothers : ∑ k ∈ ((occupied t).erase j).erase i, ({body (t'.entry k)} : Multiset Buf) =
          ∑ k ∈ ((occupied t).erase j).erase i, {body (t.entry k)} := by
        refine Finset.sum_congr rfl fun k hk => ?_
        have hkj := Finset.ne_of_mem_erase (Finset.mem_of_mem_erase hk)
        rw [hbody k hkj, if_neg (Finset.ne_of_mem_erase hk)]
      rw [← Finset.add_sum_erase _ _ hjmem, ← Finset.add_sum_erase _ _ himem, hbody i hij.symm, if_pos rfl,
        hothers, Finset.erase_right_comm]

theorem verdict_congr {e e' : Buf} (h : ∀ off n, off + n ≤ 8 → rd e off n = rd e' off n) (d : Buf) (c : Nat) :
    verdict e d c = verdict e' d c := by
  have hname : name e = name e' := h 0 2 (by decide)
  have hflags : flags e = flags e' := h 4 4 (by decide)
  have hcpu : cpu e = cpu e' := h 2 2 (by decide)
  simp only [verdict, hname, hflags, hcpu]

theorem verdict_wr (e d : Buf) {off n v : Nat} (h : 8 ≤ off) (c : Nat) :
    verdict (wr e off n v) d c = verdict e d c :=
  verdict_congr (fun _ _ _ => rd_wr_of_disjoint (by omega)) d c

theorem verdict_body (e d : Buf) (c : Nat) : verdict (body e) d c = verdict e d c :=
  verdict_congr (fun _ _ _ => rd_body e (by omega)) d c

theorem removeResult_eq (hl : LinksOk t) (hi : i ≤ rtMaxIndex) (he : t'.entry = (unlink t i).entry) (d : Buf)
    (c : Nat) : removeResult t' i d c = verdict (t.entry ((t.succ i).getD i)) d c := by
  have hsame : removeResult t' i d c = verdict (t'.entry i) d c := rfl
  rw [hsame, he]
  rcases hl.range i hi with hend | ⟨hn0, hn1⟩
  · rw [unlink_end (by omega), update_self, verdict_wr _ _ (by decide), Table.succ_none (by omega)]
    rfl
  · obtain ⟨j, hj⟩ := Int.eq_ofNat_of_zero_le hn0
    have hedge : t.succ i = some j := Table.succ_some.mpr ⟨hi, hj⟩
    have hij : j ≠ i := (hl.acyclic.ne hedge).symm
    rw [unlink_succ hj (by omega) hij, update_of_ne hij.symm, update_self,
      verdict_wr _ _ (by decide), hedge]
    rfl

end

section

variable {t : Table} {d : Buf} {c : Nat}

section

variable (hl : LinksOk t) (hm : t.magic = (cpuCommMagic, cpuCommMagic)) (hcount : ¬ toI32 t.count > rtMaxIndex)

include hl hm hcount

theorem removeRoutine_eq : removeRoutine t d c =
      match firstOnChain t (compId d) with
      | none => .ret (-1) t.enter.leave
      | some i =>
        if cpu (t.entry i) > 1 then .bug
        else .ret (removeResult (unlink t.enter i).decCount i d c) (unlink t.enter i).decCount.leave := by
  have hm1 : t.magic1 = cpuCommMagic := congrArg Prod.fst hm
  have hm2 : t.magic2 = cpuCommMagic := congrArg Prod.snd hm
  unfold removeRoutine
  rw [if_neg (not_not.mpr hm1), if_neg (not_not.mpr hm2), if_neg hcount]
  simp only [removeWalk_enter, removeWalk_eq hl]
  cases firstOnChain t (compId d) <;> rfl

theorem remove_found {i : Nat} (hf : firstOnChain t (compId d) = some i) (hcpu : cpu (t.entry i) ≤ 1) :
    ∃ t', removeRoutine t d c = .ret (verdict (t.entry ((t.succ i).getD i)) d c) t' ∧
      t'.entry = (unlink t i).entry ∧ t'.count = t.decCount.count := by
  have he : (unlink t.enter i).decCount.entry = (unlink t i).entry := by
    rw [Table.entry_decCount, unlink_enter]
  refine ⟨(unlink t.enter i).decCount.leave, ?_, (Table.entry_leave _).trans he, by simp [count_unlink]⟩
  rw [removeRoutine_eq hl hm hcount, hf, ← removeResult_eq hl (firstOnChain_some hl hf).1 he]
  exact if_neg (Nat.not_lt.mpr hcpu)

end

end

theorem verdict_ne (e d : Buf) (c : Nat) : verdict e d c ≠ -1 := by
  unfold verdict
  split <;> decide

theorem removesRight_iff (hl : LinksOk t) (hm : t.magic = (cpuCommMagic, cpuCommMagic)) (d : Buf) :
    RemovesRight t d ↔ RemoveSound t d := by
  by_cases hcount : toI32 t.count > rtMaxIndex
  · refine iff_of_false ?_ fun h => h.1 hcount
    rintro ⟨r, t', hs, _⟩
    unfold removeRoutine at hs
    rw [if_pos hcount] at hs
    split_ifs at hs
  cases hf : firstOnChain t (compId d) with
  | none =>
    -- -1, which is right if no entry has the key
    have hs : removeRoutine t d getCurCPUID = .ret (-1) t.enter.leave := by
      rw [removeRoutine_eq hl hm hcount, hf]
    simp only [RemoveSound, hf, hcount, not_false_eq_true, true_and]
    constructor
    · rintro ⟨r, t', hs', hiff, _⟩
      cases hs.symm.trans hs'
      exact hiff.mp ⟨rfl, rfl, rfl⟩
    · intro hreg
      exact ⟨_, _, hs, ⟨fun _ => hreg, fun _ => ⟨rfl, rfl, rfl⟩⟩, fun h => absurd h hreg⟩
  | some i =>
    obtain ⟨hi, hik⟩ := firstOnChain_some hl hf
    simp only [RemoveSound, hf, hcount, not_false_eq_true, true_and]
    by_cases hcpu : cpu (t.entry i) ≤ 1
    swap
    · refine iff_of_false ?_ fun h => hcpu h.2.1
      rintro ⟨r, t', hs, _⟩
      rw [removeRoutine_eq hl hm hcount, hf] at hs
      simp only [if_pos (Nat.not_le.mp hcpu)] at hs
      cases hs
    obtain ⟨t', hs, he, hc⟩ := remove_found hl hm hcount (c := getCurCPUID) hf hcpu
    by_cases h0 : compId d = 0
    · -- a free slot was taken for the entry
      refine iff_of_false ?_ fun h => h.1 h0
      rintro ⟨r, t'', hs', hiff, _⟩
      cases hs.symm.trans hs'
      exact verdict_ne _ _ _ (hiff.mpr fun h => h.1 h0).1
    have hreg : Registered t (compId d) := ⟨h0, i, hi, hik⟩
    have hgone := entries_unlink hl (mem_occupied.mpr ⟨hi, hik ▸ h0⟩) he
    have hanswer : verdict (t.entry ((t.succ i).getD i)) d getCurCPUID = verdict (t.entry i) d getCurCPUID ↔
        ∀ j ∈ t.succ i, verdict (t.entry j) d getCurCPUID = verdict (t.entry i) d getCurCPUID := by
      cases t.succ i <;> simp
    simp only [h0, hcpu, not_false_eq_true, ne_eq, true_and, ← hanswer]
    constructor
    · rintro ⟨r, t'', hs', _, hright⟩
      cases hs.symm.trans hs'
      obtain ⟨i', _, _, hgone', _, hr⟩ := hright hreg
      have hsame : body (t.entry i) = body (t.entry i') :=
        Multiset.singleton_inj.mp (add_right_cancel (hgone.symm.trans hgone'))
      rw [hr, ← verdict_body, ← hsame, verdict_body]
    · intro hr
      exact ⟨_, t', hs, ⟨fun h => absurd h.1 (verdict_ne _ _ _), fun h => absurd hreg h⟩,
        fun _ => ⟨i, hi, hik, hgone, hc, hr⟩⟩

theorem magic_run {ok : Table → Op → Prop} {ops : List Op} (h : Run step ok empty ops t) :
    t.magic = (cpuCommMagic, cpuCommMagic) := by
  refine h.inv (I := fun t => t.magic = (cpuCommMagic, cpuCommMagic)) (fun s op r s' hi _ hs => ?_) rfl
  cases op with
  | add d => exact (magic_add hs).trans hi
  | remove d => exact (magic_remove hs).trans hi
  | removePid p | cpuReset c => cases hs; exact (magic_cleanWhere _ s).trans hi

/-- In every table a history of calls with arbitrary descriptors leads to, and for every descriptor,
`RemoveRoutine` does what it is for exactly when `RemoveSound` holds. -/
theorem remove_right_iff {ops : List Op} {t : Table} (h : Run step (fun _ _ => True) empty ops t) (d : Buf) :
    RemovesRight t d ↔ RemoveSound t d :=
  removesRight_iff (LinksOk.run h) (magic_run h) d

instance (t : Table) (d : Buf) : Decidable (RemoveSound t d) := by
  unfold RemoveSound; repeat' split
  all_goals infer_instance

def flagged (key flagsWord : Nat) : Buf := wr (wr (fun _ => 0) 8 4 key) 4 4 flagsWord

theorem remove_right_iff_same_flags : ∃ t,
    Run step (fun _ _ => True) empty [.add (flagged 1 7), .add (flagged 1025 7)] t ∧
    RemovesRight t (flagged 1 7) := by
  refine Run.exists_of_exec_imp (P := fun t => RemoveSound t (flagged 1 7)) (by decide +kernel) fun t hr hsound => ?_
  exact (remove_right_iff hr _).mpr hsound

theorem remove_answers_for_successor_and_removes_key_zero :
    (∃ t, Run step (fun _ _ => True) empty [.add (flagged 1 7), .add (flagged 1025 8)] t ∧
      verdict (t.entry 1) (flagged 1 7) getCurCPUID = 0 ∧
      (removeRoutine t (flagged 1 7) getCurCPUID).value? = some 1 ∧ ¬ RemovesRight t (flagged 1 7)) ∧
    (removeRoutine empty (flagged 0 0) getCurCPUID).value? = some 0 ∧
    (removeRoutine empty (flagged 0 0) getCurCPUID).state?.map Table.count = some (2 ^ 32 - 1) ∧
    ¬ RemovesRight empty (flagged 0 0) := by
  have hrun : ∃ t, Run step (fun _ _ => True) empty [.add (flagged 1 7), .add (flagged 1025 8)] t ∧
      verdict (t.entry 1) (flagged 1 7) getCurCPUID = 0 ∧
      (removeRoutine t (flagged 1 7) getCurCPUID).value? = some 1 ∧ ¬ RemoveSound t (flagged 1 7) :=
    Run.exists_of_exec (by decide +kernel)
  obtain ⟨t, hr, hown, hvalue, hsound⟩ := hrun
  refine ⟨⟨t, hr, hown, hvalue, ?_⟩, by decide +kernel, by decide +kernel, ?_⟩
  · rwa [removesRight_iff (LinksOk.run hr) (magic_run hr)]
  · rw [removesRight_iff LinksOk.empty rfl]
    decide +kernel

end H713.Routine
