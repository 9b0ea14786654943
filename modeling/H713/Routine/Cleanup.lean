import H713.Routine.Registry

/-!
# Routine.Cleanup

The bulk cleanups `RemovePidRoutines` and `RoutineCleanupInCPUReset`, and insertions after them. A cleanup frees
slots where they stand and leaves the links, so chains may run through empty slots from then on.
-/

namespace H713.Routine

open Bytes Links

/-- The calls under which cleanups are used: keys other than 0, a cpu that exists. -/
def CleanupCall : Op → Prop
  | .add d => compId d ≠ 0 ∧ cpu d ≤ 1
  | .remove d => compId d ≠ 0
  | _ => True

/-- Calls that keep every entry on the chain of its bucket. -/
def Fits (t : Table) : Op → Prop
  | .add d => AddFits t d
  | .remove d => RemoveFits t d
  | _ => True

structure TableOk (t : Table) : Prop where
  chains : ChainsOk t
  header : HeaderOk t

namespace TableOk

variable {t t' : Table}

theorem step {op : Op} {r : Int} (h : TableOk t) (hfit : Fits t op) (hs : step t op = .ret r t') : TableOk t' := by
  cases op with
  | add d => exact ⟨h.chains.add hfit hs, h.header.add h.chains hfit hs⟩
  | remove d => exact ⟨h.chains.remove hfit hs, h.header.remove h.chains hfit.1 hs⟩
  | removePid p | cpuReset c => cases hs; exact ⟨h.chains.cleanWhere _, h.header.cleanWhere _⟩

theorem run {ops : List Op} (h : Run Routine.step Fits empty ops t) : TableOk t :=
  h.inv (fun _ _ _ _ hi hfit hs => hi.step hfit hs) ⟨.empty, .empty⟩

end TableOk

variable {t : Table}

def Inserts (t : Table) : Op → Prop
  | .add d => (addInRoutine t d).value? = some 0
  | _ => True

/-- The table is the map also across cleanups, in every history of fitting calls whose insertions
return 0. -/
theorem registry_of_fits {ops : List Op} {t : Table}
    (h : Run step (fun t op => Fits t op ∧ Inserts t op) empty ops t) : Behaves t (Registry.calls ops) := by
  have hok : TableOk t ∧ Represents t (Registry.calls ops) := by
    refine h.sim (R := fun t m => TableOk t ∧ Represents t m) ?_ ⟨⟨.empty, .empty⟩, .empty⟩
    rintro s m op r s' ⟨hs, hm⟩ ⟨hfit, hzero⟩ hstep
    refine ⟨hs.step hfit hstep, ?_⟩
    cases op with
    | add d =>
      have hret : addInRoutine s d = .ret r s' := hstep
      rw [Inserts, hret] at hzero
      cases hzero
      exact hm.add hs.chains hfit.1 hstep
    | remove d => exact hm.remove hs.chains hfit.1 hstep
    | removePid p =>
      cases hstep
      simpa [Registry.call, removePidRoutines] using
        hm.cleanWhere (p := fun e => pid e = p) fun e => by rw [pid_body]
    | cpuReset c =>
      cases hstep
      simpa [Registry.call, routineCleanupInCPUReset] using
        hm.cleanWhere (p := fun e => cpu e = c) fun e => by rw [cpu_body]
  exact hok.2.behaves hok.1.chains hok.1.header

theorem pid_copyOut (buf e : Buf) : pid (copyOut buf e) = pid e :=
  rd_congr fun _ _ _ => copyOut_apply buf e (.inl (by omega))

theorem cpu_copyOut (buf e : Buf) : cpu (copyOut buf e) = cpu e :=
  rd_congr fun _ _ _ => copyOut_apply buf e (.inl (by omega))

theorem findable_cleanWhere (h : TableOk t) {p : Buf → Bool} (hp : ∀ buf e, p (copyOut buf e) = p e) {k : Nat}
    (hk : k ≠ 0) : Findable (cleanWhere p t) k ↔
      ∃ out, findRoutineEx t k (fun _ => 0) = some (0, out) ∧ p out = false := by
  rw [(h.chains.cleanWhere p).findable_iff (h.header.cleanWhere p) hk]
  constructor
  · rintro ⟨i, hi, hik⟩
    rw [rtCompId_cleanWhere] at hik
    split at hik
    · exact absurd hik.symm hk
    rename_i hstay
    refine ⟨_, h.chains.find_of_slot h.header hi hik hk _, ?_⟩
    rw [hp]
    exact Bool.eq_false_iff.mpr fun hpick => hstay ⟨hi, hik ▸ hk, hpick⟩
  · rintro ⟨out, hfind, hout⟩
    obtain ⟨i, hi, hik⟩ := (h.chains.findable_iff h.header hk).mp ⟨out, hfind⟩
    rw [h.chains.find_of_slot h.header hi hik hk] at hfind
    cases hfind
    rw [hp] at hout
    refine ⟨i, hi, ?_⟩
    rw [rtCompId_cleanWhere, if_neg, hik]
    rintro ⟨_, _, hpick⟩
    rw [hout] at hpick
    cases hpick

theorem holds_add {t' : Table} {d : Buf} (hs : addInRoutine t d = .ret 0 t') :
    Holds t' (compId d) ∧ ∀ k, k ≠ 0 → Holds t k → Holds t' k := by
  have hinsert : ∀ i ≤ rtMaxIndex, t.rtCompId i = 0 →
      (∀ j, t'.rtCompId j = if j = i then compId d else t.rtCompId j) →
      Holds t' (compId d) ∧ ∀ k, k ≠ 0 → Holds t k → Holds t' k := by
    intro i hi hfree hkey
    refine ⟨⟨i, hi, by rw [hkey, if_pos rfl]⟩, ?_⟩
    rintro k hk ⟨j, hj, hjk⟩
    have hji : j ≠ i := by
      rintro rfl
      exact hk (hjk ▸ hfree)
    exact ⟨j, hj, by rw [hkey, if_neg hji, hjk]⟩
  cases add_cases hs with
  | refused hr _ _ _ => exact absurd rfl hr
  | present i _ ht hw =>
    obtain ⟨hi, hik, _⟩ := findWalk_found hw
    exact ⟨⟨i, hi, by rw [ht]; exact hik⟩, fun k _ hk => by rw [ht]; exact hk⟩
  | placed i _ _ hi hfree _ _ he _ => exact hinsert i hi hfree (rtCompId_placed he)
  | overflowed o _ _ _ _ _ ho hfree _ _ _ he _ => exact hinsert o ho hfree (rtCompId_overflowed he)

/-- After a cleanup exactly the keys with that pid (cpu) are gone, and an insertion that returns 0 is found
and keeps the others. -/
def CleanupLaw (t : Table) (adds : Buf → Prop) : Prop :=
  (∀ p k, k ≠ 0 → (Findable (removePidRoutines t p) k ↔
    ∃ out, findRoutineEx t k (fun _ => 0) = some (0, out) ∧ pid out ≠ p)) ∧
  (∀ c k, k ≠ 0 → (Findable (routineCleanupInCPUReset t c) k ↔
    ∃ out, findRoutineEx t k (fun _ => 0) = some (0, out) ∧ cpu out ≠ c)) ∧
  (∀ d t', adds d → addInRoutine t d = .ret 0 t' →
    Findable t' (compId d) ∧ ∀ k, k ≠ 0 → Findable t k → Findable t' k)

/-- In every history whose insertions and removals fit the chains, a cleanup takes out exactly the entries it is
asked to, and an insertion that returns 0 can be looked up and hides no other key. -/
theorem cleanup_of_fits {ops : List Op} {t : Table} (h : Run step Fits empty ops t) : CleanupLaw t (AddFits t) := by
  have ht := TableOk.run h
  refine ⟨fun p k hk => ?_, fun c k hk => ?_, fun d t' hfit hs => ?_⟩
  · refine (findable_cleanWhere ht (fun buf e => by rw [pid_copyOut]) hk).trans ?_
    simp only [decide_eq_false_iff_not, ne_eq]
  · refine (findable_cleanWhere ht (fun buf e => by rw [cpu_copyOut]) hk).trans ?_
    simp only [decide_eq_false_iff_not, ne_eq]
  · have ht' : TableOk t' := ht.step (show Fits t (.add d) from hfit) hs
    obtain ⟨hnew, hkeep⟩ := holds_add hs
    refine ⟨(ht'.chains.findable_iff ht'.header hfit.1).mpr hnew, fun k hk hf => ?_⟩
    exact (ht'.chains.findable_iff ht'.header hk).mpr
      (hkeep k hk ((ht.chains.findable_iff ht.header hk).mp hf))

instance (t : Table) : ∀ op, Decidable (Fits t op)
  | .add _ | .remove _ | .removePid _ | .cpuReset _ => by unfold Fits; infer_instance

instance : ∀ op, Decidable (CleanupCall op)
  | .add _ | .remove _ | .removePid _ | .cpuReset _ => by unfold CleanupCall; infer_instance

theorem cleanup_of_fits_chain : ∃ t,
    Run step Fits empty [.add (descriptor 1 7 0), .add (descriptor 1025 8 0), .removePid 7] t ∧
    CleanupLaw t (AddFits t) := by
  obtain ⟨t, ht, -⟩ : ∃ t, Run step Fits empty [.add (descriptor 1 7 0), .add (descriptor 1025 8 0)] t ∧ True :=
    Run.exists_of_exec (by decide +kernel)
  have hrun := ht.trans (.cons (i := Op.removePid 7) (by trivial) rfl .nil)
  exact ⟨_, hrun, cleanup_of_fits hrun⟩

instance (t : Table) : ∀ op, Decidable (Inserts t op)
  | .add _ | .remove _ | .removePid _ | .cpuReset _ => by unfold Inserts; infer_instance

theorem registry_of_fits_cleaned : ∃ t, Run step (fun t op => Fits t op ∧ Inserts t op) empty
      [.add (descriptor 1 7 0), .add (descriptor 1025 8 0), .removePid 7] t ∧
    Behaves t (Registry.calls [.add (descriptor 1 7 0), .add (descriptor 1025 8 0), .removePid 7]) := by
  obtain ⟨t, ht, -⟩ : ∃ t, Run step (fun t op => Fits t op ∧ Inserts t op) empty
      [.add (descriptor 1 7 0), .add (descriptor 1025 8 0)] t ∧ True := Run.exists_of_exec (by decide +kernel)
  have hrun := ht.trans (.cons (i := Op.removePid 7) (by trivial) rfl .nil)
  exact ⟨_, hrun, registry_of_fits hrun⟩

theorem add_unlinked {d : Buf} {o : Nat} (h : TableOk t) (hnew : ∀ i ≤ rtMaxIndex, t.rtCompId i ≠ compId d)
    (hempty : t.rtCompId (hashIdx (compId d)) = 0) (hlink : t.rtNext (hashIdx (compId d)) ≠ -1)
    (ho : freeOverflow t = some o) (hend : t.rtNext o = -1) (hfar : ¬ Reach t.succ (hashIdx (compId d)) o) :
    ∃ t', addInRoutine t d = .ret 0 t' ∧ ¬ Findable t' (compId d) := by
  have hstop : chainEnd t walkFuel none (hashIdx (compId d)) =
      some (.stop none (some (hashIdx (compId d)))) := by
    rw [walkFuel, chainEnd, if_pos hempty]
  have hadd : addInRoutine t d = .ret 0 ((t.enter.setEntry o d).rtSetNext o (-1)).incCount.leave := by
    unfold addInRoutine
    rw [if_neg (not_not.mpr h.header.magic1), if_neg (not_not.mpr h.header.magic2),
      if_neg h.header.count_le, h.chains.find_of_no_slot h.header hnew]
    simp only [if_neg (show ¬ ((1 : Int) = 0) by decide), addLocked, chainEnd_enter, hstop]
    have hlink' : ¬ t.enter.rtNext (hashIdx (compId d)) = -1 := hlink
    rw [if_neg (fun hc => hlink hc.2), if_neg hlink']
    have ho' : freeOverflow t.enter = some o := ho
    simp only [addOverflow, ho', linkPrev]
    have hend' : t.enter.rtNext o = -1 := hend
    rw [if_neg (not_not.mpr hend')]
  refine ⟨_, hadd, ?_⟩
  generalize ht' : ((t.enter.setEntry o d).rtSetNext o (-1)).incCount.leave = t'
  have he : t'.entry = Function.update t.entry o (wr d 92 4 (ofI32 (-1))) := by
    rw [← ht']; simp
  have hsucc : t'.succ = t.succ := by
    funext k; unfold Table.succ; rw [rtNext_placed hend he]
  intro hf
  obtain ⟨i, hi, hik, hr⟩ := hf.slot
  rw [hsucc] at hr
  have hio : i ≠ o := by
    rintro rfl
    exact hfar hr
  rw [rtCompId_placed he, if_neg hio] at hik
  exact hnew i hi hik

theorem freeOverflow_second (h : t.rtCompId 1024 ≠ 0) (h' : t.rtCompId 1025 = 0) : freeOverflow t = some 1025 := by
  unfold freeOverflow
  rw [rtMaxIndex, rtOverflowStart, List.range'_succ, List.find?_cons_of_neg (by simpa using h),
    List.range'_succ, List.find?_cons_of_pos (by simpa using h')]

def PairInBucket (t : Table) : Prop :=
  (∀ i ≤ rtMaxIndex, t.rtCompId i ≠ 2049) ∧ Picked (fun e => pid e = 7) t 1 ∧ t.rtNext 1 ≠ -1 ∧
    ¬ Picked (fun e => pid e = 7) t 1024 ∧ t.rtCompId 1024 ≠ 0 ∧ t.rtCompId 1025 = 0 ∧
    t.rtNext 1025 = -1 ∧ 1025 ∉ chainFrom t 1
deriving Decidable

theorem cleanup_loses_addition : ¬ ∀ ops t, Run step (fun _ op => CleanupCall op) empty ops t →
    CleanupLaw t fun d => CleanupCall (.add d) := by
  intro h
  have hex : (Run.exec step (fun t op => Fits t op ∧ CleanupCall op) empty
      [.add (descriptor 1 7 0), .add (descriptor 1025 8 0)]).any fun t => decide (PairInBucket t) := by
    decide +kernel
  obtain ⟨t, ht, hpair⟩ := (Option.any_eq_true _ _).mp hex
  obtain ⟨hno, hpick, hnext, hstay, hocc, hfree, hend, hfar⟩ := of_decide_eq_true hpair
  have hrun := Run.of_exec ht
  have hclean : TableOk (removePidRoutines t 7) :=
    (TableOk.run (hrun.mono fun _ _ hc => hc.1)).step
      (show Fits t (.removePid 7) from trivial) rfl
  have hkey := rtCompId_cleanWhere (fun e => pid e = 7) t
  have hkeep : ∀ i, t.rtCompId i = 0 → (removePidRoutines t 7).rtCompId i = 0 := by
    intro i hz
    rw [removePidRoutines, hkey]
    split
    · rfl
    · exact hz
  have hover : freeOverflow (removePidRoutines t 7) = some 1025 := by
    refine freeOverflow_second ?_ (hkeep 1025 hfree)
    rw [removePidRoutines, hkey, if_neg fun hc => hstay hc.2]
    exact hocc
  obtain ⟨t', hadd, hlost⟩ := add_unlinked (d := descriptor 2049 9 0) hclean (by
      intro i hi
      rw [removePidRoutines, hkey]
      split
      · decide
      · exact hno i hi)
    (by rw [removePidRoutines, hkey]; exact if_pos ⟨by decide, hpick⟩)
    (by rw [removePidRoutines, rtNext_cleanWhere]; exact hnext) hover
    (by rw [removePidRoutines, rtNext_cleanWhere]; exact hend)
    (by
      rw [removePidRoutines, succ_cleanWhere]
      intro hr
      exact hfar ((LinksOk.run hrun).mem_chainFrom hr))
  have hrun' : Run step (fun _ op => CleanupCall op) empty
      ([.add (descriptor 1 7 0), .add (descriptor 1025 8 0)] ++ [.removePid 7])
      (removePidRoutines t 7) := (hrun.mono fun _ _ hc => hc.2).trans (.cons trivial rfl .nil)
  exact hlost ((h _ _ hrun').2.2 _ _ (by decide) hadd).1

end H713.Routine
