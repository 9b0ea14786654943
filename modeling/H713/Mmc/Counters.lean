import H713.Mmc.Retry

/-!
# Mmc.Counters

The retry counters between requests. Every end of a request clears them but one: the stop of a CMD53 whose budget is
used up.
-/

namespace H713.Mmc

/-- Outside of the retries of a request the counters are zero. -/
def Fresh (p : Phase) (b : Books) : Prop := p.retried = none → ∀ fifo, b.used fifo = 0

namespace Fresh

theorem move {a : Actor} {p p' : Phase} {b b' : Books} (hm : Move a p b p' b')
    (ha : ∀ m m', a = .irq → p = .flight m true → p' ≠ .waitStop m') (h : Fresh p b) : Fresh p' b' := by
  cases hm with
  | stay | refuse _ | takeStop | stopped | done => exact h
  | start _ | giveUp _ =>
    intro _ fifo
    simpa using h rfl fifo
  | complete | watchdog | fail =>
    intro _ fifo
    exact Books.used_clear fifo
  | @stop m r _ _ =>
    cases r with
    | true => exact absurd rfl (ha m m rfl rfl)
    | false =>
      intro _ fifo
      simpa using h rfl fifo
  | retry _ _ _ | take | reissue | remap _ => rintro ⟨⟩

end Fresh

/-- An interrupt that ends a CMD53 with an error finds retries of that class left. -/
def WithinBudget (s : Sys) : Op → Prop
  | .irq mskInt _ => ∀ m ∈ s.host.mrq, m.data → m.opcode = ioRwExtended → s.host.endErr mskInt ≠ 0 →
      s.host.retryUsed (isFifoErr (s.host.endErr mskInt)) < retryLimit (isFifoErr (s.host.endErr mskInt))
  | _ => True

instance (s : Sys) : ∀ op, Decidable (WithinBudget s op)
  | .request _ | .irq _ _ | .expire | .timeout | .thread _ | .done _ => by unfold WithinBudget; infer_instance

namespace Inv

variable {s : Sys} {p : Phase}

theorem not_stopped {m m' : Mrq} {mskInt idmaInt : UInt32} (h : Inv s (.flight m true))
    (hw : WithinBudget s (.irq mskInt idmaInt)) (hr : Represents (s.irq mskInt idmaInt) p) : p ≠ .waitStop m' := by
  rintro rfl
  have hstop := hr.manualStop
  obtain ⟨hdata, hop⟩ := h.cmd53 m rfl
  obtain ⟨-, h', -⟩ | ⟨-, h', -⟩ | ⟨-, -, -, h', -⟩ | ⟨herr, -, hnot, -, -⟩ := h.repr.irq_flight mskInt idmaInt
  · cases hstop.symm.trans h'.manualStop
  · cases hstop.symm.trans h'.manualStop
  · cases hstop.symm.trans h'.manualStop
  · exact hnot ⟨hop, hw m h.repr.mrq hdata hop herr⟩

theorem fresh_step (h : Inv s p) (hf : Fresh p s.books) {o : Op} {s' : Sys} (hp : Possible s o)
    (hw : WithinBudget s o) (hs : Mmc.step s o = .ret () s') : ∃ p', Inv s' p' ∧ Fresh p' s'.books := by
  obtain ⟨t, p', ht, h', hm⟩ := h.step hp
  cases ht.symm.trans hs
  refine ⟨p', h', hf.move hm fun m m' ha hflight => ?_⟩
  cases o with
  | irq mskInt idmaInt =>
    cases hs
    subst hflight
    exact h.not_stopped hw h'.repr
  | _ => cases ha

theorem exhausted {mskInt idmaInt : UInt32} (h : Inv s p) (hw : ¬ WithinBudget s (.irq mskInt idmaInt)) :
    ∃ m fifo, Represents (s.irq mskInt idmaInt) (.waitStop m) ∧
      (s.irq mskInt idmaInt).books.used fifo = retryLimit fifo := by
  simp only [WithinBudget, not_forall] at hw
  obtain ⟨m, hmrq, hdata, hop, herr, hlt⟩ := hw
  obtain ⟨r, rfl⟩ : ∃ r, p = .flight m r := by
    have := h.repr.mrq.symm.trans hmrq
    cases p <;> simp_all [Phase.mrq]
  obtain ⟨h0, -, -⟩ | ⟨hno, -, -⟩ | ⟨-, -, ⟨-, hyes⟩, -, -⟩ | ⟨-, -, -, h', hb⟩ :=
    h.repr.irq_flight mskInt idmaInt
  · exact absurd h0 herr
  · exact absurd ⟨herr, hdata⟩ hno
  · exact absurd hyes hlt
  · refine ⟨m, isFifoErr (s.host.endErr mskInt), h', ?_⟩
    have hle := h.budget.used (isFifoErr (s.host.endErr mskInt))
    rw [hb, Books.used_unmap]
    exact le_antisymm hle (not_lt.mp hlt)

end Inv

theorem stop_run {s : Sys} {m : Mrq} (h : Represents s (.waitStop m)) (env : Sys.RetryEnv) :
    ∃ s', Run step Possible s [.thread env, .thread env, .done m] s' ∧ s'.outstanding = none ∧
      s'.books.used = s.books.used := by
  have e₁ : step s (.thread env) = .ret () ({ s with wake := false } : Sys).threadStart := by
    simp only [step, h.thread, Phase.thread]
  obtain ⟨h₁, hb₁⟩ := h.start_stop
  generalize ({ s with wake := false } : Sys).threadStart = s₁ at e₁ h₁ hb₁
  have e₂ : step s₁ (.thread env) = .ret () (s₁.threadStop m) := by
    simp only [step, h₁.thread, Phase.thread]
  obtain ⟨h₂, hb₂⟩ := h₁.stop
  generalize s₁.threadStop m = s₂ at e₂ h₂ hb₂
  have hwoken : s₁.thread ≠ .idle := by
    rw [h₁.thread]
    rintro ⟨⟩
  have hdue : m ∈ s₂.doing := by
    rw [h₂.doing]
    exact List.mem_singleton.mpr rfl
  have hused : s₂.books.used = s.books.used := congrArg Books.used (hb₂.trans hb₁)
  exact ⟨_, .cons (.inr h.wake) e₁ (.cons (.inl hwoken) e₂ (.cons hdue rfl .nil)), rfl, hused⟩

/-- As long as no CMD53 fails with its budget used up, every request starts with both counters at zero; after one
that does, the next can start with the counters as they were. -/
theorem counters_fresh {ops : List Op} {s : Sys}
    (hr : Run step (fun s o => Possible s o ∧ WithinBudget s o) Sys.init ops s) :
    (∀ r, Possible s (.request r) → s.host.retryCnt = 0 ∧ s.host.fifoRetryCnt = 0) ∧
    ∀ o, ¬ WithinBudget s o → ∃ m env s', Run step Possible s [o, .thread env, .thread env, .done m] s' ∧
      (∀ r, Possible s' (.request r)) ∧ ¬ (s'.host.retryCnt = 0 ∧ s'.host.fifoRetryCnt = 0) := by
  obtain ⟨p, h, hf⟩ : ∃ p, Inv s p ∧ Fresh p s.books := by
    refine hr.inv (I := fun s => ∃ p, Inv s p ∧ Fresh p s.books) ?_ ⟨.idle, .init, fun _ fifo => ?_⟩
    · rintro s o a s' ⟨p, h, hf⟩ ⟨hp, hw⟩ hs
      exact h.fresh_step hf hp hw hs
    · cases fifo <;> rfl
  refine ⟨fun r hp => ?_, fun o hw => ?_⟩
  · have hcur := h.repr.outstanding.symm.trans hp
    have hidle : p.retried = none := by
      cases p <;> simp_all [Phase.cur, Phase.retried]
    exact ⟨hf hidle false, hf hidle true⟩
  · cases o with
    | irq mskInt idmaInt =>
      obtain ⟨m, fifo, hstop, hfull⟩ := h.exhausted hw
      obtain ⟨s', hrun, hnone, hused⟩ := stop_run hstop ⟨true, true, true⟩
      refine ⟨m, ⟨true, true, true⟩, s', .cons trivial rfl hrun, fun _ => hnone, ?_⟩
      rintro ⟨hphase, hfifo⟩
      rw [← hused] at hfull
      cases fifo
      · cases hphase.symm.trans hfull
      · cases hfifo.symm.trans hfull
    | _ => exact absurd trivial hw

theorem counters_fresh_retried : ∃ s, Run step (fun s o => Possible s o ∧ WithinBudget s o) Sys.init
      (read53 :: .irq 0x80 0 :: retryOps ++ .irq 0x800 0 :: retryOps ++
        [.irq 0x8 receiveInterrupt, .done ⟨0, 0x40, ioRwExtended, true, false⟩]) s ∧
    s.outstanding = none ∧ s.host.retryCnt = 0 ∧ s.host.fifoRetryCnt = 0 := by
  refine Run.exists_of_exec_imp (P := fun s => s.outstanding = none) (by decide +kernel) fun s hr hs => ?_
  exact ⟨hs, (counters_fresh hr).1 ⟨0, 0, false, false, false, true, true⟩ hs⟩

theorem exhausted_counter_kept : ∃ s, Run step Possible Sys.init
      (read53 :: (List.replicate 7 (.irq 0x80 0 :: retryOps)).flatten ++
        [.irq 0x80 0, .thread ⟨true, true, true⟩, .thread ⟨true, true, true⟩,
          .done ⟨0, 0x40, ioRwExtended, true, false⟩, read53]) s ∧
    s.host.mrq = some ⟨1, 0x40, ioRwExtended, true, false⟩ ∧ s.host.retryCnt = 7 :=
  Run.exists_of_exec (by decide +kernel)

end H713.Mmc
