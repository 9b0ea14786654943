import H713.Routine.Chains

/-!
# Routine.Errors

What `AddInRoutine` leaves behind on each of its returns. Three error returns lie between `comm_SpinLock(2)` and
`comm_SpinUnLock(2, 0)`; one of them cannot happen, since links stay in the table (`LinksOk`).
-/

namespace H713.Routine

open Bytes Links

def walked (t : Table) : Nat → Nat → List Nat
  | 0, _ => []
  | fuel + 1, cur =>
    if t.rtCompId cur = 0 then [cur]
    else
      match t.succ cur with
      | some j => cur :: walked t fuel j
      | none => [cur]

def chainOf (t : Table) (d : Buf) : List Nat := walked t walkFuel (hashIdx (compId d))

/-- The key is there, or the count stops the call before the lock; or every cpu on the way is 0 or 1, and
a free slot on it, or else the overflow slot, has no link. -/
def AddClean (t : Table) (d : Buf) : Prop :=
  toI32 t.count > rtMaxIndex ∨
  (∃ i, findWalk t (compId d) walkFuel (hashIdx (compId d)) = some (some i)) ∨
  ((∀ i ∈ chainOf t d, t.rtCompId i ≠ 0 → cpu (t.entry i) ≤ 1) ∧
    ((∃ i ∈ chainOf t d, t.rtCompId i = 0 ∧ t.rtNext i = -1) ∨
      ∀ o, freeOverflow t = some o → t.rtNext o = -1))

/-- What a return of `AddInRoutine` with code `r` should leave. -/
structure CleanReturn (t : Table) (r : Int) (t' : Table) : Prop where
  lock : t'.lock2 ≤ t.lock2
  version : t'.version % 2 = 0
  entries : r ≠ 0 → t'.entry = t.entry
  count : r ≠ 0 → t'.count = t.count

variable {t t' : Table} {r : Int} {d : Buf}

theorem chainEnd_corrupt_iff (hl : LinksOk t) {r : ChainEnd} :
    ∀ {fuel : Nat} {prev : Option Nat} {cur : Nat}, cur ≤ rtMaxIndex → chainEnd t fuel prev cur = some r →
      (r = .corrupt ↔ ∃ i ∈ walked t fuel cur, t.rtCompId i ≠ 0 ∧ 1 < cpu (t.entry i)) := by
  intro fuel
  induction fuel with
  | zero => intro prev cur _ h; cases h
  | succ n ih =>
    intro prev cur hc h
    simp only [chainEnd] at h
    simp only [walked]
    split at h
    · rename_i hz
      cases h
      simp [hz]
    · rename_i hocc
      rw [if_neg hocc]
      split at h
      · rename_i hcpu
        cases h
        cases t.succ cur <;> simp [hocc, hcpu]
      · rename_i hcpu
        split at h
        · rename_i hneg
          cases h
          simp [Table.succ_none hneg, hcpu]
        · rename_i hge
          have hle : t.rtNext cur ≤ rtMaxIndex := by
            rcases hl.range cur hc with hend | ⟨-, hle⟩
            · omega
            · exact hle
          rw [if_neg (by omega)] at h
          have hsucc : t.succ cur = some (t.rtNext cur).toNat := edge_rtNext hc hge
          have hrest := ih (by omega) h
          simp only [hsucc, List.exists_mem_cons_iff, hcpu, and_false, false_or]
          exact hrest

theorem chainEnd_free_iff {p c : Option Nat} : ∀ {fuel : Nat} {prev : Option Nat} {cur : Nat}, cur ≤ rtMaxIndex →
      chainEnd t fuel prev cur = some (.stop p c) →
      ∀ i, (i ∈ walked t fuel cur ∧ t.rtCompId i = 0) ↔ c = some i := by
  intro fuel
  induction fuel with
  | zero => intro prev cur _ h; cases h
  | succ n ih =>
    intro prev cur hc h i
    simp only [chainEnd] at h
    simp only [walked]
    split at h
    · rename_i hz
      cases h
      rw [if_pos hz, List.mem_singleton]
      constructor
      · rintro ⟨rfl, -⟩; rfl
      · rintro ⟨⟩; exact ⟨rfl, hz⟩
    · rename_i hocc
      rw [if_neg hocc]
      split at h
      · cases h
      split at h
      · rename_i hneg
        cases h
        rw [Table.succ_none hneg]
        constructor
        · rintro ⟨hi, hz⟩
          rw [List.mem_singleton.mp hi] at hz
          exact absurd hz hocc
        · intro hn; cases hn
      · rename_i hge
        split at h
        · cases h
        · rename_i hle
          have hsucc : t.succ cur = some (t.rtNext cur).toNat := edge_rtNext hc hge
          rw [← ih (by omega) h i, hsucc]
          constructor
          · rintro ⟨hi, hz⟩
            rcases List.mem_cons.mp hi with rfl | hi
            · exact absurd hz hocc
            · exact ⟨hi, hz⟩
          · rintro ⟨hi, hz⟩
            exact ⟨List.mem_cons_of_mem _ hi, hz⟩

theorem cleanReturn_leave (hv : t.version % 2 = 0) (hlock : t'.lock2 = t.enter.lock2)
    (hver : t'.version = t.enter.version)
    (hkeep : r ≠ 0 → t'.entry = t.entry ∧ t'.count = t.count) : CleanReturn t r t'.leave where
  lock := by simp [Table.leave, hlock, Table.enter]
  version := by
    simp only [Table.leave, hver, Table.enter]
    omega
  entries hr := (hkeep hr).1
  count hr := (hkeep hr).2

theorem not_cleanReturn_enter : ¬ CleanReturn t r t.enter := by
  intro h
  have hlock := h.lock
  simp [Table.enter] at hlock

theorem cleanReturn_self (hv : t.version % 2 = 0) : CleanReturn t r t :=
  ⟨le_refl _, hv, fun _ => rfl, fun _ => rfl⟩

theorem lock2_linkPrev (t : Table) (prev : Option Nat) (o : Nat) : (linkPrev t prev o).lock2 = t.lock2 := by
  cases prev <;> rfl

theorem version_linkPrev (t : Table) (prev : Option Nat) (o : Nat) : (linkPrev t prev o).version = t.version := by
  cases prev <;> rfl

theorem addOverflow_clean_iff {prev : Option Nat} (hv : t.version % 2 = 0)
    (h : addOverflow t.enter d prev = .ret r t') :
    CleanReturn t r t' ↔ ∀ o, freeOverflow t = some o → t.rtNext o = -1 := by
  unfold addOverflow at h
  split at h
  · rename_i hnone
    cases h
    refine iff_of_true (cleanReturn_leave hv rfl rfl fun _ => ⟨rfl, rfl⟩) fun o ho => ?_
    exact absurd (hnone.symm.trans ho) (by simp)
  · rename_i o ho
    have hone : ∀ o', freeOverflow t = some o' → o' = o := fun o' ho' =>
      Option.some.inj (ho'.symm.trans ho)
    split at h
    · rename_i hlink
      cases h
      exact iff_of_false not_cleanReturn_enter fun hall => hlink (hall o ho)
    · rename_i hend
      cases h
      refine iff_of_true (cleanReturn_leave hv ?_ ?_ fun hr => absurd rfl hr) fun o' ho' => ?_
      · exact lock2_linkPrev _ _ _
      · exact version_linkPrev _ _ _
      · rw [hone o' ho']
        exact not_not.mp hend

theorem addLocked_clean_iff (hl : LinksOk t) (hv : t.version % 2 = 0) (h : addLocked t.enter d = .ret r t') :
    CleanReturn t r t' ↔ (∀ i ∈ chainOf t d, t.rtCompId i ≠ 0 → cpu (t.entry i) ≤ 1) ∧
      ((∃ i ∈ chainOf t d, t.rtCompId i = 0 ∧ t.rtNext i = -1) ∨
        ∀ o, freeOverflow t = some o → t.rtNext o = -1) := by
  have hbad : ∀ {c}, chainEnd t walkFuel none (hashIdx (compId d)) = some c →
      (c ≠ .corrupt ↔ ∀ i ∈ chainOf t d, t.rtCompId i ≠ 0 → cpu (t.entry i) ≤ 1) := by
    intro c hc
    rw [Ne, chainEnd_corrupt_iff hl (hashIdx_le _) hc]
    simp only [chainOf, not_exists, not_and, Nat.not_lt]
  have hover : ∀ {prev c}, chainEnd t walkFuel none (hashIdx (compId d)) = some (.stop prev c) →
      (∀ i, c = some i → t.rtNext i ≠ -1) → ¬ ∃ i ∈ chainOf t d, t.rtCompId i = 0 ∧ t.rtNext i = -1 := by
    rintro prev c hc hlast ⟨i, hi, hz, hend⟩
    exact hlast i ((chainEnd_free_iff (hashIdx_le _) hc i).mp ⟨hi, hz⟩) hend
  simp only [addLocked, chainEnd_enter] at h
  split at h
  · rename_i hfirst
    cases h
    have hfree : t.rtCompId (hashIdx (compId d)) = 0 ∧ t.rtNext (hashIdx (compId d)) = -1 := hfirst
    have hslot : chainOf t d = [hashIdx (compId d)] := by
      unfold chainOf walkFuel
      rw [walked, if_pos hfree.1]
    refine iff_of_true (cleanReturn_leave hv rfl rfl fun hr => absurd rfl hr) ⟨?_, .inl ?_⟩
    · intro i hi hocc
      rw [hslot, List.mem_singleton] at hi
      exact absurd (hi ▸ hfree.1) hocc
    · exact ⟨_, by rw [hslot]; exact List.mem_singleton.mpr rfl, hfree⟩
  · split at h
    · cases h
    · rename_i hend
      cases h
      exact iff_of_false not_cleanReturn_enter fun hok => (hbad hend).mpr hok.1 rfl
    · rename_i prev cur hend
      have hgood := (hbad hend).mp (by intro hc; cases hc)
      have hslot := (chainEnd_free_iff (hashIdx_le _) hend cur).mpr rfl
      split at h
      · rename_i hlast
        cases h
        exact iff_of_true (cleanReturn_leave hv rfl rfl fun hr => absurd rfl hr)
          ⟨hgood, .inl ⟨cur, hslot.1, hslot.2, hlast⟩⟩
      · rename_i hlast
        have hno := hover hend fun i hi => by cases hi; exact hlast
        rw [addOverflow_clean_iff hv h, and_iff_right hgood, or_iff_right hno]
    · rename_i prev hend
      have hgood := (hbad hend).mp (by intro hc; cases hc)
      have hno := hover hend fun i hi => by cases hi
      rw [addOverflow_clean_iff hv h, and_iff_right hgood, or_iff_right hno]

theorem addInRoutine_clean_iff (hl : LinksOk t) (hm : t.magic = (cpuCommMagic, cpuCommMagic))
    (hv : t.version % 2 = 0) (h : addInRoutine t d = .ret r t') : CleanReturn t r t' ↔ AddClean t d := by
  have hm1 : t.magic1 = cpuCommMagic := congrArg Prod.fst hm
  have hm2 : t.magic2 = cpuCommMagic := congrArg Prod.snd hm
  unfold addInRoutine at h
  rw [if_neg (not_not.mpr hm1), if_neg (not_not.mpr hm2)] at h
  split at h
  · rename_i hfull
    cases h
    exact iff_of_true (cleanReturn_self hv) (.inl hfull)
  · rename_i hcount
    unfold findRoutineEx findRoutineExFuel at h
    rw [if_neg (not_not.mpr hm1), if_neg (not_not.mpr hm2), if_neg hcount] at h
    cases hw : findWalk t (compId d) walkFuel (hashIdx (compId d)) with
    | none => rw [hw] at h; cases h
    | some found =>
      cases found with
      | some i =>
        simp only [hw] at h
        cases h
        exact iff_of_true (cleanReturn_self hv) (.inr (.inl ⟨i, hw⟩))
      | none =>
        simp only [hw] at h
        rw [if_neg (by decide)] at h
        have habsent : ¬ ∃ i, findWalk t (compId d) walkFuel (hashIdx (compId d)) = some (some i) := by
          rintro ⟨i, hi⟩
          cases hw.symm.trans hi
        rw [addLocked_clean_iff hl hv h, AddClean, or_iff_right hcount, or_iff_right habsent]

def guard (t : Table) : Nat × Nat := (t.lock2, t.version)

theorem guard_unlink (t : Table) (i : Nat) : guard (unlink t i) = guard t := by
  simp only [unlink]
  split <;> rfl

theorem guard_decCount (t : Table) : guard t.decCount = guard t := rfl

theorem guard_cleanSlot (p : Buf → Bool) (t : Table) (i : Nat) : guard (cleanSlot p t i) = guard t := by
  unfold cleanSlot
  split_ifs <;> rfl

theorem guard_leave (h : guard t' = guard t.enter) :
    t'.leave.lock2 = t.lock2 ∧ t'.leave.version % 2 = t.version % 2 := by
  have hlock : t'.lock2 = t.lock2 + 1 := congrArg Prod.fst h
  have hver : t'.version = (t.version + 1) % 2 ^ 32 := congrArg Prod.snd h
  simp only [Table.leave, hlock, hver]
  omega

theorem cleanWhere_guard (p : Buf → Bool) (t : Table) :
    (cleanWhere p t).lock2 = t.lock2 ∧ (cleanWhere p t).version % 2 = t.version % 2 := by
  have hfold : ∀ (l : List Nat) (t : Table), guard (l.foldl (cleanSlot p) t) = guard t := by
    intro l
    induction l with
    | nil => intro t; rfl
    | cons i l ih => intro t; rw [List.foldl_cons, ih, guard_cleanSlot]
  exact guard_leave (hfold _ _)

theorem removeRoutine_guard {c : Nat} (h : removeRoutine t d c = .ret r t') :
    t'.lock2 = t.lock2 ∧ t'.version % 2 = t.version % 2 := by
  unfold removeRoutine at h
  split at h
  · cases h
  split at h
  · cases h
  split at h
  · cases h
  dsimp only at h
  split at h
  · cases h
  · cases h
  · cases h; exact guard_leave rfl
  · split at h
    · cases h
    · cases h
      exact guard_leave ((guard_decCount _).trans (guard_unlink t.enter _))

/-- Insertions that return cleanly; all other calls. -/
def CleanCall (t : Table) : Op → Prop
  | .add d => AddClean t d
  | _ => True

structure Quiet (t : Table) : Prop extends LinksOk t where
  magic : t.magic = (cpuCommMagic, cpuCommMagic)
  lock : t.lock2 = 0
  version : t.version % 2 = 0

namespace Quiet

variable {t t' : Table}

theorem step {op : Op} {r : Int} (h : Quiet t) (hok : CleanCall t op) (hs : step t op = .ret r t') : Quiet t' := by
  have hlinks := h.toLinksOk.step hs
  cases op with
  | add d =>
    have hret := (addInRoutine_clean_iff h.toLinksOk h.magic h.version hs).mpr hok
    exact ⟨hlinks, (magic_add hs).trans h.magic, Nat.le_zero.mp (h.lock ▸ hret.lock), hret.version⟩
  | remove d =>
    obtain ⟨hlock, hver⟩ := removeRoutine_guard hs
    exact ⟨hlinks, (magic_remove hs).trans h.magic, hlock.trans h.lock, hver.trans h.version⟩
  | removePid p =>
    cases hs
    obtain ⟨hlock, hver⟩ := cleanWhere_guard (fun e => pid e = p) t
    exact ⟨hlinks, (magic_cleanWhere _ t).trans h.magic, hlock.trans h.lock, hver.trans h.version⟩
  | cpuReset c =>
    cases hs
    obtain ⟨hlock, hver⟩ := cleanWhere_guard (fun e => cpu e = c) t
    exact ⟨hlinks, (magic_cleanWhere _ t).trans h.magic, hlock.trans h.lock, hver.trans h.version⟩

theorem run {ops : List Op} (h : Run Routine.step CleanCall empty ops t) : Quiet t :=
  h.inv (fun _ _ _ _ hi hok hs => hi.step hok hs) ⟨.empty, rfl, rfl, rfl⟩

end Quiet

/-- In every history whose insertions are `AddClean`, spinlock 2 is free and the version even after every call; from
there `AddInRoutine` returns cleanly exactly when the descriptor is `AddClean`. -/
theorem add_returns_cleanly_iff {ops : List Op} {t : Table} (h : Run step CleanCall empty ops t) :
    t.lock2 = 0 ∧ t.version % 2 = 0 ∧
    ∀ d, ∃ r t', addInRoutine t d = .ret r t' ∧ (CleanReturn t r t' ↔ AddClean t d) := by
  have hq := Quiet.run h
  refine ⟨hq.lock, hq.version, fun d => ?_⟩
  obtain ⟨r, t', hs⟩ := hq.toLinksOk.add_returns d
  exact ⟨r, t', hs, addInRoutine_clean_iff hq.toLinksOk hq.magic hq.version hs⟩

def decidableFound (x : Option (Option Nat)) : Decidable (∃ i, x = some (some i)) :=
  match x with
  | some (some i) => isTrue ⟨i, rfl⟩
  | some none => isFalse (by rintro ⟨i, hi⟩; cases hi)
  | none => isFalse (by rintro ⟨i, hi⟩; cases hi)

def decidableOverflow (x : Option Nat) (p : Nat → Prop) [DecidablePred p] : Decidable (∀ i, x = some i → p i) :=
  match x with
  | some i => decidable_of_iff (p i) ⟨fun h j hj => Option.some.inj hj ▸ h, fun h => h i rfl⟩
  | none => isTrue (by intro i hi; cases hi)

instance (t : Table) (d : Buf) : Decidable (AddClean t d) :=
  letI := decidableFound (findWalk t (compId d) walkFuel (hashIdx (compId d)))
  letI := decidableOverflow (freeOverflow t) (fun o => t.rtNext o = -1)
  inferInstanceAs (Decidable (_ ∨ _ ∨ _))

instance (t : Table) : ∀ op, Decidable (CleanCall t op)
  | .add _ | .remove _ | .removePid _ | .cpuReset _ => by unfold CleanCall; infer_instance

def descriptorOn (key cpuId : Nat) : Buf := wr (wr (fun _ => 0) 8 4 key) 2 2 cpuId

theorem add_returns_cleanly_iff_buckets : ∃ t,
    Run step CleanCall empty [.add (descriptorOn 1 0), .add (descriptorOn 1025 1),
      .add (descriptorOn 2 5), .remove (descriptorOn 1 0)] t ∧
    t.lock2 = 0 ∧ t.version % 2 = 0 ∧ AddClean t (descriptorOn 2049 1) ∧ ¬ AddClean t (descriptorOn 1026 1) ∧
    ∃ r t', addInRoutine t (descriptorOn 1026 1) = .ret r t' ∧ ¬ CleanReturn t r t' := by
  refine Run.exists_of_exec_imp
    (P := fun t => AddClean t (descriptorOn 2049 1) ∧ ¬ AddClean t (descriptorOn 1026 1))
    (by decide +kernel) fun t hr hend => ?_
  obtain ⟨hgood, hbad⟩ := hend
  obtain ⟨hlock, hver, hadd⟩ := add_returns_cleanly_iff hr
  obtain ⟨r, t', hs, hiff⟩ := hadd (descriptorOn 1026 1)
  exact ⟨hlock, hver, hgood, hbad, r, t', hs, fun hc => hbad (hiff.mp hc)⟩

theorem add_keeps_spinlock : ¬ ∀ ops t d r t', Run step (fun _ _ => True) empty ops t →
    addInRoutine t d = .ret r t' → CleanReturn t r t' := by
  intro h
  have hrun : ∃ t, Run step (fun _ _ => True) empty [.add (descriptorOn 2 5)] t ∧
      (addInRoutine t (descriptorOn 1026 1)).state?.any (fun t' => t.lock2 < t'.lock2) = true :=
    Run.exists_of_exec (by decide +kernel)
  obtain ⟨t, hr, hheld⟩ := hrun
  cases hs : addInRoutine t (descriptorOn 1026 1) with
  | ret r t' =>
    rw [hs] at hheld
    exact absurd (h _ t _ r t' hr hs).lock (Nat.not_le.mpr (of_decide_eq_true hheld))
  | bug | spin => rw [hs] at hheld; cases hheld

end H713.Routine
