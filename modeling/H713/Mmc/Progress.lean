import H713.Lib.Endless
import H713.Mmc.Retry

/-!
# Mmc.Progress

Every request comes back, in an endless run in which neither the thread nor the timer nor a due `mmc_request_done`
is put off for ever, and a request that no watchdog looks after gets its interrupt.
-/

namespace H713.Mmc

def Sys.Ends (s : Sys) (mskInt idmaInt : UInt32) : Prop :=
  let h := (s.collect mskInt idmaInt).host
  ¬ (h.intSum &&& respTimeout ≠ 0 ∧ h.intSum &&& commandDone = 0) ∧
    (h.intSum &&& errorBit ≠ 0 ∨ h.intSum &&& doneBit ≠ 0 ∧ ¬ h.waitDma)
deriving Decidable

/-- An endless run that is fair to everybody a request depends on. -/
structure Trace (s : Nat → Sys) (op : Nat → Option Op) : Prop extends
    Endless (fun s o s' => Possible s o ∧ ∃ u, step s o = .ret u s') Sys.init s op where
  thread_fair : WeakFair (fun t => (s t).thread ≠ .idle ∨ (s t).wake = true)
    (fun t => ∃ env, op t = some (.thread env))
  done_fair : WeakFair (fun t => (s t).doing ≠ []) (fun t => ∃ m, op t = some (.done m))
  expire_fair : WeakFair (fun t => (s t).host.timer = true) (fun t => op t = some .expire)
  timeout_fair : WeakFair (fun t => 0 < (s t).callbacks) (fun t => op t = some .timeout)
  irq_fair : WeakFair (fun t => (s t).host.mrq ≠ none ∧ (s t).host.retryTimerMrq = none)
    (fun t => ∃ mskInt idmaInt, op t = some (.irq mskInt idmaInt) ∧ (s t).Ends mskInt idmaInt)

def Books.left (b : Books) : Nat := retryLimit false - b.used false + (retryLimit true - b.used true)

def rank : Phase → Books → Nat
  | .idle, _ | .returning _, _ => 0
  | .stopping _, _ => 1
  | .waitStop _, _ => 2
  | .waitRetry _ _, b => 8 * b.left + 4
  | .flight _ _, b => 8 * b.left + 5
  | .reissuing _ _, b => 8 * b.left + 6
  | .retrying _ _ _, b => 8 * b.left + 7

theorem Books.left_count {b : Books} {fifo : Bool} (h : b.used fifo < retryLimit fifo) :
    (b.count fifo).left + 1 = b.left := by
  cases fifo <;> simp only [Books.left, Books.used_count] <;> simp <;> omega

section

variable {a : Actor} {p p' : Phase} {b b' : Books} (h : Move a p b p' b')

include h

theorem Move.advance {m : Mrq} (hb : Budget p b) (hcur : p.cur = some m) :
    (p' = p ∧ b' = b ∧ (a = .irq ∨ a = .timer)) ∨
      m.id ∈ b'.log.completed ∨ (p'.cur = some m ∧ rank p' b' < rank p b) := by
  cases h with
  | stay ha => exact .inl ⟨rfl, rfl, ha⟩
  | start | refuse | giveUp => cases hcur
  | done =>
    cases hcur
    exact .inr (.inl (by simp [Books.complete]))
  | take =>
    have := Books.left_count hb.place
    refine .inr (.inr ⟨hcur, ?_⟩)
    simp only [rank]
    omega
  | _ => exact .inr (.inr ⟨hcur, by simp [rank, Books.left]⟩)

theorem Move.completed : b.log.completed <+: b'.log.completed := by
  cases h with
  | done => exact List.prefix_append _ _
  | remap _ => exact List.prefix_rfl
  | _ => simp [Books.issue]

end

def Nearer (m : Mrq) (k : Nat) (s : Sys) : Prop :=
  m.id ∈ s.log.completed ∨ ∃ j < k, ∃ p, Inv s p ∧ p.cur = some m ∧ rank p s.books = j

section

variable {s s' : Sys} {p : Phase} {m : Mrq} {o : Op}

theorem Inv.advance (h : Inv s p) (hcur : p.cur = some m) (hp : Possible s o) (hs : Mmc.step s o = .ret () s') :
    (Inv s' p ∧ s'.books = s.books ∧ (o.actor = .irq ∨ o.actor = .timer)) ∨ Nearer m (rank p s.books) s' := by
  obtain ⟨t, p', ht, h', hm⟩ := h.step hp
  cases ht.symm.trans hs
  obtain ⟨rfl, hb, ha⟩ | hdone | ⟨hcur', hlt⟩ := hm.advance h.budget hcur
  · exact .inl ⟨h', hb, ha⟩
  · exact .inr (.inl hdone)
  · exact .inr (.inr ⟨_, hlt, p', h', hcur', rfl⟩)

theorem mrq_finalizeRequest : (s.finalizeRequest m).host.mrq = none := by
  unfold Sys.finalizeRequest
  exact iteInduction (motive := fun s : Sys => s.host.mrq = none) (fun _ => rfl) (fun _ => rfl)

theorem irq_eq {mskInt idmaInt : UInt32} (hm : s.host.mrq = some m) : s.irq mskInt idmaInt =
      if s.Ends mskInt idmaInt then (s.collect mskInt idmaInt).finalizeRequest m else s.collect mskInt idmaInt := by
  simp only [Sys.irq, hm]
  by_cases he : s.Ends mskInt idmaInt
  · rw [if_pos he, if_neg he.1]
    split
    · rfl
    · rename_i herr
      rw [if_pos (he.2.resolve_left herr)]
  · rw [if_neg he]
    split_ifs with hwait herr hdone
    · rfl
    · exact absurd ⟨hwait, .inl herr⟩ he
    · exact absurd ⟨hwait, .inr hdone⟩ he
    · rfl

theorem irq_of_mrq {mskInt idmaInt : UInt32} (hm : s.host.mrq = some m)
    (hm' : (s.irq mskInt idmaInt).host.mrq = some m) : s.irq mskInt idmaInt = s.collect mskInt idmaInt := by
  rw [irq_eq hm] at hm' ⊢
  split_ifs at hm' ⊢
  · rw [mrq_finalizeRequest] at hm'
    cases hm'
  · rfl

theorem Inv.retryTimer_timeout (h : Inv s p) : s.retryTimeout.host.retryTimerMrq = none := by
  cases p with
  | flight m r =>
    cases r with
    | false =>
      rw [h.repr.timeout_first]
      exact h.repr.retryTimer
    | true => exact h.repr.timeout_reissued.1.retryTimer
  | _ =>
    rw [(h.repr.irq_of_none rfl 0 0).2]
    exact h.repr.retryTimer

/-- A request with a watchdog has it pending or its callback on the way. -/
def Watched (s : Sys) : Prop := s.host.retryTimerMrq ≠ none → s.host.timer = true ∨ 0 < s.callbacks

theorem Move.reissued {a : Actor} {b b' : Books} (h : Move a p b (.flight m true) b') :
    p = .flight m true ∧ (a = .irq ∨ a = .timer) ∨ (∃ fifo, p = .reissuing m fifo) ∧ a = .thread := by
  cases h with
  | stay ha => exact .inl ⟨rfl, ha⟩
  | reissue => exact .inr ⟨⟨_, rfl⟩, rfl⟩

theorem Watched.step (h : Inv s p) (hw : Watched s) (hp : Possible s o) (hs : step s o = .ret () s') :
    Watched s' := by
  obtain ⟨t, p', ht, h', hm⟩ := h.step hp
  cases ht.symm.trans hs
  intro hne
  obtain ⟨m, rfl⟩ : ∃ m, p' = .flight m true := by
    rw [h'.repr.retryTimer] at hne
    cases p' with
    | flight m r =>
      cases r with
      | false => exact absurd rfl hne
      | true => exact ⟨m, rfl⟩
    | _ => exact absurd rfl hne
  cases o with
  | request _ | done _ => obtain ⟨-, hor⟩ | ⟨-, hor⟩ := hm.reissued <;> simp [Op.actor] at hor
  | irq mskInt idmaInt =>
    obtain ⟨rfl, -⟩ | ⟨-, hor⟩ := hm.reissued
    · cases hs
      rw [irq_of_mrq h.repr.mrq h'.repr.mrq]
      refine hw ?_
      simp [h.repr.retryTimer, Phase.retryTimer]
    · cases hor
  | expire =>
    cases hs
    exact .inr (Nat.succ_pos _)
  | timeout =>
    cases hs
    exact absurd h.retryTimer_timeout hne
  | thread env =>
    obtain ⟨-, hor⟩ | ⟨⟨fifo, rfl⟩, -⟩ := hm.reissued
    · simp [Op.actor] at hor
    · have hth : s.thread = .reissue m fifo := h.repr.thread
      simp only [Mmc.step, hth] at hs
      cases hs
      exact .inl rfl

end

namespace Trace

variable {s : Nat → Sys} {op : Nat → Option Op} {p : Phase} {m : Mrq} {k : Nat}

def Kept (s : Sys) : Prop := (∃ p, Inv s p) ∧ Watched s

theorem kept (h : Trace s op) (t : Nat) : Kept (s t) := by
  refine h.toEndless.inv (I := Kept) ⟨⟨.idle, .init⟩, fun hne => absurd rfl hne⟩ ?_ t
  rintro s o s' ⟨⟨p, hi⟩, hw⟩ ⟨hp, ⟨⟩, hs⟩
  obtain ⟨t, p', ht, h', -⟩ := hi.step hp
  cases ht.symm.trans hs
  exact ⟨⟨p', h'⟩, hw.step hi hp hs⟩

def At (p : Phase) (k : Nat) (s : Sys) : Prop := Inv s p ∧ rank p s.books = k

section

variable (h : Trace s op)

include h

theorem by_step (hcur : p.cur = some m) {C : Sys → Prop} {M : Sys → Op → Prop} {possible occurs : Nat → Prop}
    (hf : WeakFair possible occurs) (hoccurs : ∀ t, occurs t → ∃ o, op t = some o ∧ M (s t) o)
    (hpossible : ∀ t, Inv (s t) p → Watched (s t) → C (s t) → possible t)
    (hkeep : ∀ s o s', Inv s p → Inv s' p → o.actor = .irq ∨ o.actor = .timer → step s o = .ret () s' → ¬ M s o →
      C s → C s') (heffect : ∀ s o s', Inv s p → Possible s o → step s o = .ret () s' → M s o → Inv s' p →
      ¬ (o.actor = .irq ∨ o.actor = .timer)) :
    LeadsTo (fun t => At p k (s t) ∧ C (s t)) (fun t => Nearer m k (s t)) := by
  refine h.toEndless.leadsTo h.kept hf hoccurs (P := fun s => At p k s ∧ C s) (Q := Nearer m k) ?_ ?_ ?_
  · rintro t ⟨-, hw⟩ ⟨⟨hi, -⟩, hc⟩
    exact hpossible t hi hw hc
  · rintro s o s' - ⟨⟨hi, rfl⟩, hc⟩ ⟨hp, ⟨⟩, hs⟩ hm
    obtain ⟨hi', hb, ha⟩ | hnear := hi.advance hcur hp hs
    · exact .inl ⟨⟨hi', by rw [hb]⟩, hkeep s o s' hi hi' ha hs hm hc⟩
    · exact .inr hnear
  · rintro s o s' - ⟨⟨hi, rfl⟩, -⟩ ⟨hp, ⟨⟩, hs⟩ hm
    obtain ⟨hi', -, ha⟩ | hnear := hi.advance hcur hp hs
    · exact absurd ha (heffect s o s' hi hp hs hm hi')
    · exact hnear

theorem by_actor (hcur : p.cur = some m) {a : Actor} (ha : ¬ (a = .irq ∨ a = .timer)) {possible occurs : Nat → Prop}
    (hf : WeakFair possible occurs)
    (hoccurs : ∀ t, occurs t → ∃ o, op t = some o ∧ o.actor = a) (hpossible : ∀ t, Inv (s t) p → possible t) :
    LeadsTo (fun t => At p k (s t)) (fun t => Nearer m k (s t)) := by
  intro t hat
  refine h.by_step hcur (C := fun _ => True) hf hoccurs (M := fun _ o => o.actor = a) ?_ ?_ ?_ t ⟨hat, trivial⟩
  · exact fun t hi _ _ => hpossible t hi
  · exact fun _ _ _ _ _ _ _ _ _ => trivial
  · rintro s o s' - - - rfl -
    exact ha

theorem by_thread (hcur : p.cur = some m) (hth : p.thread ≠ .idle ∨ p.wake = true) :
    LeadsTo (fun t => At p k (s t)) (fun t => Nearer m k (s t)) := by
  refine h.by_actor hcur (a := .thread) (by decide) h.thread_fair ?_ fun t hi => ?_
  · rintro t ⟨env, ho⟩
    exact ⟨_, ho, rfl⟩
  · rw [hi.repr.thread, hi.repr.wake]
    exact hth

theorem by_done : LeadsTo (fun t => At (.returning m) k (s t)) (fun t => Nearer m k (s t)) := by
  refine h.by_actor rfl (a := .core) (by decide) h.done_fair ?_ fun t hi => ?_
  · rintro t ⟨m, ho⟩
    exact ⟨_, ho, rfl⟩
  · rw [hi.repr.doing]
    exact List.cons_ne_nil _ _

theorem by_irq : LeadsTo (fun t => At (.flight m false) k (s t)) (fun t => Nearer m k (s t)) := by
  intro t hat
  refine h.by_step rfl (C := fun _ => True) h.irq_fair
    (M := fun s o => ∃ mskInt idmaInt, o = .irq mskInt idmaInt ∧ s.Ends mskInt idmaInt) ?_ ?_ ?_ ?_ t ⟨hat, trivial⟩
  · rintro t ⟨mskInt, idmaInt, ho, he⟩
    exact ⟨_, ho, mskInt, idmaInt, rfl, he⟩
  · intro t hi _ _
    rw [hi.repr.mrq, hi.repr.retryTimer]
    exact ⟨Option.some_ne_none m, rfl⟩
  · exact fun _ _ _ _ _ _ _ _ _ => trivial
  · rintro s _ _ hi - hs ⟨mskInt, idmaInt, rfl, he⟩ hi' -
    cases hs
    have hmrq := hi'.repr.mrq
    rw [irq_eq hi.repr.mrq, if_pos he, mrq_finalizeRequest] at hmrq
    cases hmrq

theorem by_timeout : LeadsTo (fun t => At (.flight m true) k (s t) ∧ 0 < (s t).callbacks)
    (fun t => Nearer m k (s t)) := by
  refine h.by_step rfl (C := fun s => 0 < s.callbacks) h.timeout_fair (M := fun _ o => o = .timeout) ?_ ?_ ?_ ?_
  · exact fun t ho => ⟨_, ho, rfl⟩
  · exact fun t _ _ hc => hc
  · rintro s o s' hi hi' ha hs hne hc
    cases o with
    | irq mskInt idmaInt =>
      cases hs
      rw [irq_of_mrq hi.repr.mrq hi'.repr.mrq]
      exact hc
    | expire =>
      cases hs
      exact Nat.succ_pos _
    | timeout => exact absurd rfl hne
    | request _ | thread _ | done _ => simp [Op.actor] at ha
  · rintro s _ _ hi - hs rfl hi' -
    cases hs
    have htimer := hi.retryTimer_timeout.symm.trans hi'.repr.retryTimer
    cases htimer

theorem by_watchdog : LeadsTo (fun t => At (.flight m true) k (s t)) (fun t => Nearer m k (s t)) := by
  have hexpires : LeadsTo (fun t => At (.flight m true) k (s t) ∧ (s t).callbacks = 0)
      (fun t => Nearer m k (s t) ∨ At (.flight m true) k (s t) ∧ 0 < (s t).callbacks) := by
    refine h.toEndless.leadsTo h.kept h.expire_fair (fun t ho => ⟨_, ho, rfl⟩) (M := fun _ o => o = .expire)
      (P := fun s => At (.flight m true) k s ∧ s.callbacks = 0)
      (Q := fun s => Nearer m k s ∨ At (.flight m true) k s ∧ 0 < s.callbacks) ?_ ?_ ?_
    · rintro t ⟨-, hw⟩ ⟨⟨hi, -⟩, hc⟩
      have hne : (s t).host.retryTimerMrq ≠ none := by simp [hi.repr.retryTimer, Phase.retryTimer]
      exact (hw hne).resolve_right (by omega)
    · rintro s o s' - ⟨⟨hi, rfl⟩, -⟩ ⟨hp, ⟨⟩, hs⟩ -
      obtain ⟨hi', hb, -⟩ | hnear := hi.advance rfl hp hs
      · obtain hc | hc := Nat.eq_zero_or_pos s'.callbacks
        · exact .inl ⟨⟨hi', by rw [hb]⟩, hc⟩
        · exact .inr (.inr ⟨⟨hi', by rw [hb]⟩, hc⟩)
      · exact .inr (.inl hnear)
    · rintro s _ s' - ⟨⟨hi, rfl⟩, -⟩ ⟨hp, ⟨⟩, hs⟩ rfl
      obtain ⟨hi', hb, -⟩ | hnear := hi.advance rfl hp hs
      · cases hs
        exact .inr ⟨⟨hi', by rw [hb]⟩, Nat.succ_pos _⟩
      · exact .inl hnear
  intro t hat
  obtain hc | hc := Nat.eq_zero_or_pos (s t).callbacks
  · obtain ⟨n, hn, hnear | hat'⟩ := hexpires t ⟨hat, hc⟩
    · exact ⟨n, hn, hnear⟩
    · obtain ⟨l, hl, hnear⟩ := h.by_timeout n hat'
      exact ⟨l, Nat.le_trans hn hl, hnear⟩
  · exact h.by_timeout t ⟨hat, hc⟩

theorem nearer (hcur : p.cur = some m) : LeadsTo (fun t => At p k (s t)) (fun t => Nearer m k (s t)) := by
  cases p with
  | idle => cases hcur
  | flight m' r =>
    cases hcur
    cases r with
    | false => exact h.by_irq
    | true => exact h.by_watchdog
  | returning m' =>
    cases hcur
    exact h.by_done
  | waitRetry _ _ | waitStop _ => exact h.by_thread hcur (.inr rfl)
  | retrying _ _ _ | reissuing _ _ | stopping _ => exact h.by_thread hcur (.inl (by simp [Phase.thread]))

theorem returns {t : Nat} (hm : (s t).outstanding = some m) : ∃ n ≥ t, m.id ∈ (s n).log.completed := by
  obtain ⟨⟨p, hi⟩, -⟩ := h.kept t
  refine LeadsTo.of_ranked (p := fun k t => ∃ p, Inv (s t) p ∧ p.cur = some m ∧ rank p (s t).books = k)
    (fun k t => ?_) _ t ⟨p, hi, hi.repr.outstanding.symm.trans hm, rfl⟩
  rintro ⟨p, hi, hcur, hk⟩
  exact h.nearer hcur t ⟨hi, hk⟩

theorem count_mono (i : Nat) {t n : Nat} (hle : t ≤ n) :
    (s t).log.completed.count i ≤ (s n).log.completed.count i := by
  refine h.toEndless.mono h.kept (f := fun s => s.log.completed.count i) ?_ hle
  rintro s o s' ⟨⟨p, hi⟩, -⟩ ⟨hp, ⟨⟩, hs⟩
  obtain ⟨t, p', ht, -, hm⟩ := hi.step hp
  cases ht.symm.trans hs
  exact hm.completed.count_le i

end

end Trace

/-- In every run every request that is not out has come back exactly once, within the budgets of re-issues, and the
request that is out is not lost; in every endless fair run it comes back, once and for all. -/
theorem requests_return : (∀ ops s, Run step Possible Sys.init ops s → (∀ i, s.log.completed.count i =
        if i < s.log.issued ∧ s.outstanding.map Mrq.id ≠ some i then 1 else 0) ∧
      (∀ m, s.outstanding = some m → s.host.mrq = some m ∨ (s.thread ≠ .idle ∨ s.wake) ∨ m ∈ s.doing) ∧
      (∀ i, s.log.phaseReissues i ≤ 7 ∧ s.log.fifoReissues i ≤ 15) ∧
      (∀ m idx, s.thread = .retry m false idx → idx < phaseTable.length) ∧
      (∀ o, Possible s o → ∃ s', step s o = .ret () s') ∧
      ∀ s', Possible s .timeout → step s .timeout = .ret () s' → s'.doing ≠ s.doing →
        ∃ m, s.host.mrq = some m ∧ s.outstanding = some m ∧
          0 < s.log.phaseReissues m.id + s.log.fifoReissues m.id ∧ s'.doing = s.doing ++ [m]) ∧
    ∀ s op, Trace s op → ∀ t m, (s t).outstanding = some m →
      ∃ n ≥ t, ∀ l ≥ n, (s l).log.completed.count m.id = 1 := by
  refine ⟨fun ops s hr => ?_, fun s op h t m hm => ?_⟩
  · obtain ⟨p, h⟩ := inv_of_run hr
    refine ⟨h.count, fun m => h.somewhere, fun i => ?_, fun m idx ht => ?_, fun o hp => ?_, ?_⟩
    · exact ⟨h.budget.reissues false i, h.budget.reissues true i⟩
    · have hth := h.repr.thread.symm.trans ht
      cases p with
      | retrying m' fifo idx' =>
        cases hth
        exact h.budget.place
      | _ => cases hth
    · obtain ⟨s', -, hs, -⟩ := h.step hp
      exact ⟨s', hs⟩
    · rintro s' - ⟨⟩ hne
      obtain ⟨m, fifo, hmrq, hout, hpos, hdoing⟩ := h.watchdog hne
      refine ⟨m, hmrq, hout, ?_, hdoing⟩
      cases fifo
      · exact Nat.add_pos_left hpos _
      · exact Nat.add_pos_right _ hpos
  · obtain ⟨n, hn, hmem⟩ := h.returns hm
    refine ⟨n, hn, fun l hl => ?_⟩
    have hpos := List.count_pos_iff.mpr hmem
    have hle := h.count_mono m.id hl
    obtain ⟨⟨p, hi⟩, -⟩ := h.kept l
    have hcount := hi.count m.id
    split at hcount <;> omega

def watchdogOps : List Op := read53 :: .irq 0x80 0 :: retryOps ++ .irq 0x800 0 :: retryOps ++
  [.expire, .timeout, .done ⟨0, 0x40, ioRwExtended, true, false⟩]

theorem requests_return_watchdog : (∃ s, Run step Possible Sys.init (watchdogOps ++ [read53]) s ∧
      (s.log.phaseReissues 0 = 1 ∧ s.log.fifoReissues 0 = 1) ∧ s.log.completed.count 0 =
        (if 0 < s.log.issued ∧ s.outstanding.map Mrq.id ≠ some 0 then 1 else 0)) ∧
    ∃ s op, Trace s op ∧ (s 1).outstanding.map Mrq.id = some 0 ∧ ∃ n, ∀ l ≥ n, (s l).log.completed.count 0 = 1 := by
  refine ⟨Run.exists_of_exec_imp
    (P := fun s => s.log.phaseReissues 0 = 1 ∧ s.log.fifoReissues 0 = 1) (by decide +kernel) fun s hr hs => ?_, ?_⟩
  · exact ⟨hs, (requests_return.1 _ s hr).1 0⟩
  · have ht : Trace (states step Sys.init watchdogOps) (fun t => watchdogOps[t]?) := by
      refine ⟨Endless.of_states (by decide +kernel), ?_, ?_, ?_, ?_, ?_⟩
      · exact WeakFair.of_states (P := fun s : Sys => s.thread ≠ .idle ∨ s.wake = true) (by decide +kernel)
      · exact WeakFair.of_states (P := fun s : Sys => s.doing ≠ []) (by decide +kernel)
      · exact WeakFair.of_states (P := fun s : Sys => s.host.timer = true) (by decide +kernel)
      · exact WeakFair.of_states (P := fun s : Sys => 0 < s.callbacks) (by decide +kernel)
      · exact WeakFair.of_states (P := fun s : Sys => s.host.mrq ≠ none ∧ s.host.retryTimerMrq = none)
          (by decide +kernel)
    obtain ⟨n, -, hn⟩ := requests_return.2 _ _ ht 1 ⟨0, 0x40, ioRwExtended, true, false⟩ (by decide +kernel)
    exact ⟨_, _, ht, by decide +kernel, n, hn⟩

end H713.Mmc
