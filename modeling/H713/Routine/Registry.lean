import H713.Routine.Chains

/-!
# Routine.Registry

What the routine table is for: a finite map from keys to descriptors (`Registry`). `RemoveRoutine` of the last slot
of a chain leaves the slot before it pointing at the freed one, which another bucket can take.
-/

namespace H713.Routine

open Function
open Bytes Links

abbrev Registry := Nat → Option Buf

namespace Registry

def call (m : Registry) : Op → Registry
  | .add d => if (m (compId d)).isSome then m else update m (compId d) (some d)
  | .remove d => update m (compId d) none
  | .removePid p => fun k => (m k).filter fun d => pid d ≠ p
  | .cpuReset c => fun k => (m k).filter fun d => cpu d ≠ c

def calls (ops : List Op) : Registry := ops.foldl call fun _ => none

end Registry

/-- `FindRoutineEx` reads the map: it returns, with 0 exactly for the keys of the map, and hands out
the fields of the descriptor. -/
def Behaves (t : Table) (m : Registry) : Prop :=
  ∀ k, k ≠ 0 → ∀ buf, ∃ r out, findRoutineEx t k buf = some (r, out) ∧ (r = 0 ↔ (m k).isSome) ∧
    ∀ d, m k = some d → ∀ b, (b < 76 ∨ (80 ≤ b ∧ b < 88)) → out b = d b

theorem copyOut_apply (buf e : Buf) {b : Nat} (h : b < 76 ∨ (80 ≤ b ∧ b < 88)) : copyOut buf e b = e b := by
  have hcpy : ∀ (dst : Buf) (off n : Nat),
      cpy dst off e off n b = if off ≤ b ∧ b < off + n then e b else dst b := by
    intro dst off n
    unfold cpy
    split
    · congr 1; omega
    · rfl
  simp only [copyOut, wr_rd, hcpy]
  split_ifs <;> first | rfl | omega

structure Represents (t : Table) (m : Registry) : Prop where
  entry : ∀ i ≤ rtMaxIndex, t.rtCompId i ≠ 0 → ∃ d, m (t.rtCompId i) = some d ∧ body (t.entry i) = body d
  slot : ∀ k, k ≠ 0 → (m k).isSome → Holds t k

variable {t : Table}

theorem Represents.behaves {m : Registry} (h : Represents t m) (hc : ChainsOk t) (hh : HeaderOk t) :
    Behaves t m := by
  intro k hk buf
  by_cases hs : Holds t k
  · obtain ⟨i, hi, hik⟩ := hs
    obtain ⟨d, hm, hb⟩ := h.entry i hi (hik ▸ hk)
    rw [hik] at hm
    refine ⟨0, _, hc.find_of_slot hh hi hik hk buf, by simp [hm], fun d' hd' b hbyte => ?_⟩
    rw [hm] at hd'
    cases hd'
    rw [← copyOut_body, hb, copyOut_body, copyOut_apply buf d hbyte]
  · have hnone : m k = none := by
      cases hm : m k with
      | none => rfl
      | some d => exact absurd (h.slot k hk (by simp [hm])) hs
    refine ⟨1, buf, hc.find_of_no_slot hh (fun i hi hik => hs ⟨i, hi, hik⟩) buf, by simp [hnone], ?_⟩
    intro d hd
    rw [hnone] at hd
    cases hd

namespace Represents

variable {t t' : Table} {m : Registry}

theorem empty : Represents empty fun _ => none :=
  ⟨fun i _ h => absurd ((compId_wr_link _ _).trans (compId_wr_key _)) h, fun _ _ h => absurd h (by simp)⟩

section

variable (h : Represents t m)

include h

theorem insert {i : Nat} {d : Buf} (hi : i ≤ rtMaxIndex) (hfree : t.rtCompId i = 0)
    (hnew : ∀ j ≤ rtMaxIndex, t.rtCompId j ≠ compId d)
    (hkey : ∀ j, t'.rtCompId j = if j = i then compId d else t.rtCompId j)
    (hbody : ∀ j, body (t'.entry j) = if j = i then body d else body (t.entry j)) :
    Represents t' (update m (compId d) (some d)) := by
  refine ⟨fun j hj hocc => ?_, fun k hk hm => ?_⟩
  · rw [hkey] at hocc ⊢
    rw [hbody]
    by_cases hji : j = i
    · simp only [if_pos hji, update_self]
      exact ⟨d, rfl, rfl⟩
    · rw [if_neg hji] at hocc
      simp only [if_neg hji, update_of_ne (hnew j hj)]
      exact h.entry j hj hocc
  · by_cases hkd : k = compId d
    · exact ⟨i, hi, by rw [hkey, if_pos rfl, hkd]⟩
    · rw [update_of_ne hkd] at hm
      obtain ⟨j, hj, hjk⟩ := h.slot k hk hm
      have hji : j ≠ i := by
        rintro rfl
        exact hk (hjk ▸ hfree)
      exact ⟨j, hj, by rw [hkey, if_neg hji, hjk]⟩

theorem add {d : Buf} {t' : Table} (hc : ChainsOk t) (h0 : compId d ≠ 0) (hs : addInRoutine t d = .ret 0 t') :
    Represents t' (m.call (.add d)) := by
  have hnone : findWalk t (compId d) walkFuel (hashIdx (compId d)) = some none →
      ¬ (m (compId d)).isSome := by
    intro habs hsome
    obtain ⟨i, hi, hik⟩ := h.slot _ h0 hsome
    exact hc.absent h0 habs i hi hik
  simp only [Registry.call]
  cases add_cases hs with
  | refused hr _ _ _ => exact absurd rfl hr
  | present i _ ht hw =>
    obtain ⟨hi, hik, _⟩ := findWalk_found hw
    obtain ⟨d', hm, _⟩ := h.entry i hi (hik ▸ h0)
    rw [hik] at hm
    rw [if_pos (by simp [hm]), ht]
    exact h
  | placed i _ habs hi hfree _ _ he _ =>
    rw [if_neg (hnone habs)]
    exact h.insert hi hfree (hc.absent h0 habs) (rtCompId_placed he) (body_placed he)
  | overflowed o prev cur _ habs _ ho hfree _ _ _ he _ =>
    rw [if_neg (hnone habs)]
    exact h.insert ho hfree (hc.absent h0 habs) (rtCompId_overflowed he) (body_overflowed he)

theorem erase {key : Nat} (hold : ∀ k ≤ rtMaxIndex, t'.rtCompId k ≠ 0 → t'.rtCompId k ≠ key ∧ ∃ j ≤ rtMaxIndex,
      t'.rtCompId k = t.rtCompId j ∧ body (t'.entry k) = body (t.entry j))
    (hkept : ∀ k, k ≠ 0 → k ≠ key → Holds t k → Holds t' k) : Represents t' (update m key none) := by
  refine ⟨fun k hk hocc => ?_, fun k hk hm => ?_⟩
  · obtain ⟨hne, j, hj, hkj, hb⟩ := hold k hk hocc
    rw [update_of_ne hne, hb, hkj]
    exact h.entry j hj (hkj ▸ hocc)
  · by_cases hkk : k = key
    · rw [hkk, update_self] at hm
      cases hm
    · rw [update_of_ne hkk] at hm
      exact hkept k hk hkk (h.slot k hk hm)

theorem remove {d : Buf} {c : Nat} {r : Int} (hc : ChainsOk t) (h0 : compId d ≠ 0)
    (hs : removeRoutine t d c = .ret r t') : Represents t' (m.call (.remove d)) := by
  simp only [Registry.call]
  cases remove_cases hs with
  | missing hw he _ =>
    have hno : ∀ i ≤ rtMaxIndex, t.rtCompId i ≠ compId d := by
      intro i hi hik
      exact removeWalk_missing (hashIdx_le _) hw i (hik ▸ hc.home i hi (hik ▸ h0)) hik
    have hk := Table.rtCompId_congr he
    refine h.erase (fun k hk' hocc => ⟨hk k ▸ hno k hk', k, hk', hk k, by rw [he]⟩) ?_
    rintro k _ _ ⟨i, hi, hik⟩
    exact ⟨i, hi, (hk i).trans hik⟩
  | removed i hi hik _ he _ =>
    have honly : ∀ k ≤ rtMaxIndex, k ≠ i → t.rtCompId k ≠ compId d := by
      intro k hk hki hkd
      exact hki (hc.unique k hk i hi (hkd ▸ h0) (hkd.trans hik.symm))
    rcases hc.range i hi with hend | ⟨hn0, hn1⟩
    · have hn : ¬ (0 ≤ t.rtNext i ∧ t.rtNext i ≤ rtMaxIndex) := by omega
      have hkey := rtCompId_unlink_end hn he
      refine h.erase (fun k hk hocc => ?_) ?_
      · have hki : k ≠ i := by
          rintro rfl
          exact hocc (by rw [hkey, if_pos rfl])
        rw [hkey, if_neg hki]
        exact ⟨honly k hk hki, k, hk, rfl, by rw [he, unlink_end hn, update_of_ne hki]⟩
      · rintro k _ hkd ⟨j, hj, hjk⟩
        have hji : j ≠ i := by
          rintro rfl
          exact hkd (hjk.symm.trans hik)
        exact ⟨j, hj, by rw [hkey, if_neg hji, hjk]⟩
    · obtain ⟨j, hj⟩ := Int.eq_ofNat_of_zero_le hn0
      have hjle : j ≤ rtMaxIndex := by omega
      have hij : j ≠ i := (hc.acyclic.ne (Table.succ_some.mpr ⟨hi, hj⟩)).symm
      have hkey := rtCompId_unlink_succ hj hjle hij he
      refine h.erase (fun k hk hocc => ?_) ?_
      · have hkj : k ≠ j := by
          rintro rfl
          exact hocc (by rw [hkey, if_pos rfl])
        rw [hkey, if_neg hkj, body_unlink_succ hj hjle hij he hkj]
        by_cases hki : k = i
        · simp only [if_pos hki]
          exact ⟨honly j hjle hij, j, hjle, rfl, rfl⟩
        · simp only [if_neg hki]
          exact ⟨honly k hk hki, k, hk, rfl, rfl⟩
      · rintro k _ hkd ⟨l, hl, hlk⟩
        have hli : l ≠ i := by
          rintro rfl
          exact hkd (hlk.symm.trans hik)
        by_cases hlj : l = j
        · subst hlj
          exact ⟨i, hi, by rw [hkey, if_neg (Ne.symm hij), if_pos rfl, hlk]⟩
        · exact ⟨l, hl, by rw [hkey, if_neg hlj, if_neg hli, hlk]⟩

theorem cleanWhere {p : Buf → Bool} (hp : ∀ e, p (body e) = p e) :
    Represents (cleanWhere p t) fun k => (m k).filter fun d => !p d := by
  refine ⟨fun i hi hocc => ?_, fun k hk hm => ?_⟩
  · rw [rtCompId_cleanWhere] at hocc ⊢
    rw [entry_cleanWhere]
    split at hocc
    · exact absurd rfl hocc
    rename_i hstay
    obtain ⟨d, hd, hb⟩ := h.entry i hi hocc
    have hpd : p d = false := by
      rw [← hp, ← hb, hp]
      exact Bool.eq_false_iff.mpr fun hpick => hstay ⟨hi, hocc, hpick⟩
    simp only [if_neg hstay, hd, Option.filter_some, hpd]
    exact ⟨d, rfl, hb⟩
  · obtain ⟨d, hd⟩ := Option.isSome_iff_exists.mp hm
    obtain ⟨hmk, hpd⟩ := Option.filter_eq_some_iff.mp hd
    obtain ⟨i, hi, hik⟩ := h.slot k hk (by simp [hmk])
    refine ⟨i, hi, ?_⟩
    rw [rtCompId_cleanWhere, if_neg, hik]
    rintro ⟨_, hocc, hpick⟩
    obtain ⟨d', hd', hb⟩ := h.entry i hi hocc
    rw [hik, hmk] at hd'
    cases hd'
    rw [← hp, hb, hp] at hpick
    simp [hpick] at hpd

end

end Represents

def EndsOk (t : Table) : Prop := ∀ i ≤ rtMaxIndex, t.rtCompId i = 0 → t.rtNext i = -1

/-- There is room for `AddInRoutine(d)`: its bucket or some overflow slot is free, and not the last
free slot of the table. -/
def Room (t : Table) (d : Buf) : Prop :=
  (t.count < rtMaxIndex ∧ (t.rtCompId (hashIdx (compId d)) = 0 ∨
    ∃ o ≤ rtMaxIndex, rtOverflowStart ≤ o ∧ t.rtCompId o = 0)) ∨ Holds t (compId d)
deriving Decidable

theorem chainEnd_corrupt : ∀ {fuel : Nat} {prev : Option Nat} {cur : Nat},
    cur ≤ rtMaxIndex → chainEnd t fuel prev cur = some .corrupt →
      ∃ c ≤ rtMaxIndex, t.rtCompId c ≠ 0 ∧ (cpu (t.entry c) > 1 ∨ t.rtNext c > rtMaxIndex) := by
  intro fuel
  induction fuel with
  | zero => intro prev cur _ h; cases h
  | succ n ih =>
    intro prev cur hc h
    simp only [chainEnd] at h
    split at h
    · cases h
    rename_i hocc
    split at h
    · rename_i hcpu; exact ⟨cur, hc, hocc, .inl hcpu⟩
    split at h
    · cases h
    split at h
    · rename_i hbig; exact ⟨cur, hc, hocc, .inr hbig⟩
    · rename_i hle; exact ih (by omega) h

theorem freeOverflow_none (h : freeOverflow t = none) {o : Nat} (hlo : rtOverflowStart ≤ o) (ho : o ≤ rtMaxIndex) :
    t.rtCompId o ≠ 0 := by
  have hno := List.find?_eq_none.mp h o
  rw [List.mem_range'_1] at hno
  simp only [rtOverflowStart, rtMaxIndex] at *
  simpa using hno (by omega)

theorem add_eq_zero {t' : Table} {d : Buf} {r : Int} (hc : ChainsOk t) (hh : HeaderOk t) (he : EndsOk t)
    (h0 : compId d ≠ 0) (hroom : Room t d) (hs : addInRoutine t d = .ret r t') : r = 0 := by
  cases add_cases hs with
  | present _ hr _ _ | placed _ hr | overflowed _ _ _ hr => exact hr
  | refused _ why _ _ =>
    exfalso
    cases why with
    | magic hm => exact hm.elim (fun h => h hh.magic1) (fun h => h hh.magic2)
    | full hfull => exact hh.count_le hfull
    | corrupt hbad =>
      obtain ⟨c, hle, hocc, hcpu | hbig⟩ := chainEnd_corrupt (hashIdx_le _) hbad
      · exact absurd hcpu (by have := hc.cpu_le c hle hocc; omega)
      · rcases hc.range c hle with hn | hn <;> omega
    | noSlot habs hocc hnone =>
      rcases hroom with ⟨_, hfree | ⟨o, ho, hlo, hz⟩⟩ | ⟨i, hi, hik⟩
      · exact hocc ⟨hfree, he _ (hashIdx_le _) hfree⟩
      · exact freeOverflow_none hnone hlo ho hz
      · exact hc.absent h0 habs i hi hik
    | dirtySlot o ho hlink =>
      obtain ⟨_, hle, hz⟩ := freeOverflow_some ho
      exact hlink (he o hle hz)

theorem removeWalk_not_bug (hl : LinksOk t) (key : Nat) :
    ∀ fuel cur, cur ≤ rtMaxIndex → removeWalk t key fuel cur ≠ some .bug := by
  intro fuel
  induction fuel with
  | zero => intro cur _ h; cases h
  | succ n ih =>
    intro cur hc h
    simp only [removeWalk] at h
    split at h
    · cases h
    split at h
    · cases h
    split at h
    · rcases hl.range cur hc with hn | hn <;> omega
    · exact ih _ (by omega) h

theorem remove_returns (hc : ChainsOk t) (hh : HeaderOk t) {d : Buf} (h0 : compId d ≠ 0) (c : Nat) :
    ∃ r t', removeRoutine t d c = .ret r t' := by
  obtain ⟨l, hw⟩ := hc.removeWalk_total (compId d) (hashIdx_le (compId d))
  have hwalk := hw walkFuel le_rfl
  unfold removeRoutine
  rw [if_neg (not_not.mpr hh.magic1), if_neg (not_not.mpr hh.magic2), if_neg hh.count_le]
  simp only [removeWalk_enter, hwalk]
  cases l with
  | bug => exact absurd hwalk (removeWalk_not_bug hc.toLinksOk _ _ _ (hashIdx_le _))
  | missing => exact ⟨_, _, rfl⟩
  | found i =>
    obtain ⟨hi, hik, _⟩ := removeWalk_found (hashIdx_le _) hwalk
    have hcpu : ¬ cpu (t.enter.entry i) > 1 := Nat.not_lt.mpr (hc.cpu_le i hi (hik ▸ h0))
    simp only [if_neg hcpu]
    exact ⟨_, _, rfl⟩

namespace EndsOk

variable {t t' : Table}

theorem add {d : Buf} {r : Int} (h : EndsOk t) (h0 : compId d ≠ 0)
    (hs : addInRoutine t d = .ret r t') : EndsOk t' := by
  cases add_cases hs with
  | refused _ _ he _ =>
    intro i hi hz
    rw [Table.rtCompId_congr he] at hz
    rw [Table.rtNext_congr he]
    exact h i hi hz
  | present _ _ ht _ => exact ht ▸ h
  | placed i _ _ _ _ hend _ he _ =>
    intro k hk hz
    rw [rtCompId_placed he] at hz
    split at hz
    · exact absurd hz h0
    · rw [rtNext_placed hend he]; exact h k hk hz
  | overflowed o prev cur _ _ _ ho _ hend hstop _ he _ =>
    intro k hk hz
    rw [rtCompId_overflowed he] at hz
    split at hz
    · exact absurd hz h0
    cases prev with
    | none => rw [rtNext_placed (d := d) hend (he.trans (by simp [linkPrev]))]; exact h k hk hz
    | some p =>
      obtain hp | ⟨_, hocc, _⟩ := hstop.before p rfl
      · cases hp
      rw [rtNext_overflowed ho hend he, if_neg]
      · exact h k hk hz
      · rintro rfl
        exact hocc hz

theorem remove {d : Buf} {c : Nat} {r : Int} (h : EndsOk t) (hl : LinksOk t)
    (hs : removeRoutine t d c = .ret r t') : EndsOk t' := by
  cases remove_cases hs with
  | missing _ he _ =>
    intro i hi hz
    rw [Table.rtCompId_congr he] at hz
    rw [Table.rtNext_congr he]
    exact h i hi hz
  | removed i hi _ _ he _ =>
    intro k hk hz
    rcases hl.range i hi with hend | ⟨h0, h1⟩
    · have hn : ¬ (0 ≤ t.rtNext i ∧ t.rtNext i ≤ rtMaxIndex) := by omega
      rw [rtCompId_unlink_end hn he] at hz
      rw [rtNext_unlink_end hn he]
      split at hz
      · rename_i hki; rw [hki]; exact hend
      · exact h k hk hz
    · obtain ⟨j, hj⟩ := Int.eq_ofNat_of_zero_le h0
      have hjle : j ≤ rtMaxIndex := by omega
      have hij : j ≠ i := (hl.acyclic.ne (Table.succ_some.mpr ⟨hi, hj⟩)).symm
      have hrange : -1 ≤ t.rtNext j ∧ t.rtNext j ≤ rtMaxIndex := by
        rcases hl.range j hjle with hn | hn <;> omega
      rw [rtCompId_unlink_succ hj hjle hij he] at hz
      rw [rtNext_unlink_succ hj hjle hij hrange he]
      split_ifs at hz ⊢
      · rfl
      · exact h j hjle hz
      · exact h k hk hz

theorem empty : EndsOk empty := fun _ _ _ => link_wr_link _ (by decide) (by decide)

end EndsOk

/-- The calls a user of the map makes: keys other than 0, a cpu that exists, room left. -/
def RegistryCall (t : Table) : Op → Prop
  | .add d => compId d ≠ 0 ∧ cpu d ≤ 1 ∧ Room t d
  | .remove d => compId d ≠ 0
  | _ => False

/-- A removal does not empty a slot whose successor is an entry that other slots point at as well. -/
def OwnSuccessor (t : Table) : Op → Prop
  | .remove d => ∀ i ≤ rtMaxIndex, t.rtCompId i = compId d → ∀ j ∈ t.succ i,
      (∀ z ≤ rtMaxIndex, t.succ z = some j → z = i) ∨ t.rtCompId j = 0
  | _ => True

structure MapOk (t : Table) (m : Registry) : Prop where
  chains : ChainsOk t
  header : HeaderOk t
  ends : EndsOk t
  represents : Represents t m

namespace MapOk

variable {t t' : Table} {m : Registry}

theorem addFits {d : Buf} (h : MapOk t m) (hcall : RegistryCall t (.add d)) : AddFits t d := by
  refine ⟨hcall.1, hcall.2.1, hcall.2.2.symm.imp_right fun hroom => ⟨hroom.1, fun c hc hz => ?_⟩⟩
  exact h.ends c (h.chains.le_of_mem_follow (hashIdx_le _) hc) hz

theorem removeFits {d : Buf} (h : MapOk t m) (hcall : RegistryCall t (.remove d))
    (hown : OwnSuccessor t (.remove d)) : RemoveFits t d := by
  refine ⟨hcall, fun i hi hik j hj => (hown i hi hik j hj).imp_right fun hz => ⟨hz, ?_⟩⟩
  exact h.ends j (h.chains.succ_le hj) hz

theorem step {op : Op} {r : Int} (h : MapOk t m) (hcall : RegistryCall t op) (hown : OwnSuccessor t op)
    (hs : step t op = .ret r t') : MapOk t' (m.call op) := by
  cases op with
  | add d =>
    have hfit := h.addFits hcall
    obtain rfl := add_eq_zero h.chains h.header h.ends hcall.1 hcall.2.2 hs
    exact ⟨h.chains.add hfit hs, h.header.add h.chains hfit hs, h.ends.add hcall.1 hs,
      h.represents.add h.chains hcall.1 hs⟩
  | remove d =>
    exact ⟨h.chains.remove (h.removeFits hcall hown) hs, h.header.remove h.chains hcall hs,
      h.ends.remove h.chains.toLinksOk hs, h.represents.remove h.chains hcall hs⟩
  | removePid p | cpuReset c => exact hcall.elim

theorem returns {op : Op} (h : MapOk t m) (hcall : RegistryCall t op) : ∃ r t', Routine.step t op = .ret r t' := by
  cases op with
  | add d => exact h.chains.toLinksOk.add_returns d
  | remove d => exact remove_returns h.chains h.header hcall _
  | removePid p | cpuReset c => exact ⟨_, _, rfl⟩

end MapOk

/-- In a history of additions and removals in which every removed slot's successor is its own, the
table is the map at every point, and the next call returns. -/
theorem registry_of_ownSuccessor {ops : List Op} {t : Table}
    (h : Run step (fun t op => RegistryCall t op ∧ OwnSuccessor t op) empty ops t) :
    Behaves t (Registry.calls ops) ∧ ∀ op, RegistryCall t op → ∃ r t', step t op = .ret r t' := by
  have hok : MapOk t (Registry.calls ops) :=
    h.sim (fun _ _ _ _ _ hm hc hs => hm.step hc.1 hc.2 hs) ⟨.empty, .empty, .empty, .empty⟩
  exact ⟨hok.represents.behaves hok.chains hok.header, fun _ => hok.returns⟩

instance (t : Table) : ∀ op, Decidable (RegistryCall t op)
  | .add _ | .remove _ | .removePid _ | .cpuReset _ => by unfold RegistryCall; infer_instance

instance (t : Table) : ∀ op, Decidable (OwnSuccessor t op)
  | .add _ | .remove _ | .removePid _ | .cpuReset _ => by unfold OwnSuccessor; infer_instance

theorem registry_of_ownSuccessor_chain : ∃ t, Run step (fun t op => RegistryCall t op ∧ OwnSuccessor t op) empty
      [.add (descriptor 1 7 0), .add (descriptor 1025 8 0), .remove (descriptor 1 7 0)] t ∧
    Behaves t (Registry.calls
      [.add (descriptor 1 7 0), .add (descriptor 1025 8 0), .remove (descriptor 1 7 0)]) := by
  refine Run.exists_of_exec_imp (P := fun _ => True) (by decide +kernel) ?_
  intro t hrun _
  exact (registry_of_ownSuccessor hrun).1

def foreignOps : List Op :=
  [.add (descriptor 1 0 0), .add (descriptor 1025 0 0), .remove (descriptor 1025 0 0),
    .add (descriptor 2 0 0), .add (descriptor 1026 0 0), .remove (descriptor 1 0 0)]

theorem remove_loses_foreign_key :
    ¬ ∀ ops t, Run step RegistryCall empty ops t → Behaves t (Registry.calls ops) := by
  intro h
  have hfind : ((Run.exec step RegistryCall empty foreignOps).bind fun t =>
      findRoutineEx t 1026 fun _ => 0).map Prod.fst = some 1 := by decide +kernel
  obtain ⟨⟨r, out⟩, hbind, hr⟩ := Option.map_eq_some_iff.mp hfind
  obtain ⟨t, ht, hout⟩ := Option.bind_eq_some_iff.mp hbind
  obtain ⟨r', out', hf, hiff, _⟩ := h foreignOps t (Run.of_exec ht) 1026 (by decide) fun _ => 0
  rw [hout] at hf
  cases hf
  have hadded : (Registry.calls foreignOps 1026).isSome := by decide +kernel
  have hzero := hiff.mpr hadded
  simp only at hr
  omega

end H713.Routine
