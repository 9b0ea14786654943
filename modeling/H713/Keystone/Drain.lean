import H713.Lib.Endless
import H713.Keystone.Queue

/-!
# Keystone.Drain

Every accepted command is executed, in an endless run that fits, puts neither the worker nor a caller off for ever,
and may rest in between.
-/

namespace H713.Keystone.Queue

/-- An endless run in which the worker and every caller are scheduled fairly. -/
structure Trace {n : Nat} (s : Nat → State n) (op : Nat → Option (Op n)) : Prop extends
    Endless (fun s o s' => (Possible s o ∧ QueueFits s o) ∧ ∃ u, step s o = .ret u s') (Queue.start n) s op where
  worker_fair : WeakFair (fun t => Possible (s t) .worker) (fun t => op t = some .worker)
  caller_fair : ∀ c, WeakFair (fun t => (s t).callers c ≠ .away) (fun t => ∃ a, op t = some (.caller c a))

section

variable {n : Nat} {s s' : State n} {op : Op n}

theorem Goes.worker_frame (h : Goes s op s') (hop : op ≠ .worker) :
    s'.worker = s.worker ∧ s'.executed = s.executed ∧ (s.pending = true → s'.pending = true) ∧
      (s.cmdQueue ≠ [] → s'.cmdQueue ≠ []) := by
  cases h with
  | added => exact ⟨rfl, rfl, id, fun _ => by simp⟩
  | queued => exact ⟨rfl, rfl, fun _ => rfl, id⟩
  | called | onward | saw | flagged => exact ⟨rfl, rfl, id, id⟩
  | started | emptied | took | ran | cleared => exact absurd rfl hop

theorem Goes.worker_eq (h : Goes s .worker s') : s' = s.workerStep ∧ (s.worker = .idle → s.pending = true) := by
  cases h with
  | started hw hp => exact ⟨by simp [State.workerStep, hw, hp], fun _ => hp⟩
  | emptied hw hq | took dir rest hw hq =>
    exact ⟨by simp [State.workerStep, hw, hq], fun hw' => by rw [hw] at hw'; cases hw'⟩
  | ran dir hw | cleared hw => exact ⟨by simp [State.workerStep, hw], fun hw' => by rw [hw] at hw'; cases hw'⟩

theorem Goes.accepted_le (h : Goes s op s') : s.accepted.length ≤ s'.accepted.length := by
  cases h <;> simp [State.goto]

theorem Goes.caller_frame (h : Goes s op s') {c : Fin n} (hop : ∀ a, op ≠ .caller c a)
    (hin : s.callers c ≠ .away) : s'.callers c = s.callers c := by
  have hmove : ∀ {c' : Fin n} {p : Phase}, c ≠ c' → (s.goto c' p).callers c = s.callers c := fun hne => by
    simp [State.goto, Function.update_of_ne hne]
  cases h with
  | called c' _ _ _ hc => exact hmove (by rintro rfl; exact hin hc)
  | onward c' a | added c' a | saw c' a | flagged c' a | queued c' a => exact hmove (by rintro rfl; exact hop a rfl)
  | started | emptied | took | ran | cleared => rfl

end

namespace Trace

variable {n : Nat} {s : Nat → State n} {op : Nat → Option (Op n)}

theorem goes (h : Trace s op) : Endless (fun s o s' => Goes s o s' ∧ QueueFits s o) (Queue.start n) s op :=
  h.toEndless.map fun _ _ _ ⟨⟨hp, hfit⟩, _, hs⟩ => ⟨goes_of_step hp hs, hfit⟩

theorem queueOk (h : Trace s op) : ∀ t, QueueOk (s t) :=
  h.goes.inv (queueOk_start n) fun _ _ _ hok ⟨hg, hfit⟩ => hg.queueOk hok hfit

theorem by_worker (h : Trace s op) {P Q : State n → Prop} (hpossible : ∀ s, P s → Possible s .worker)
    (hframe : ∀ s o s', P s → Goes s o s' → o ≠ .worker → P s') (heffect : ∀ s s', P s → Goes s .worker s' → Q s') :
    LeadsTo (fun t => P (s t)) (fun t => Q (s t)) := by
  refine h.goes.leadsTo h.queueOk h.worker_fair (fun t ht => ⟨.worker, ht, rfl⟩) (M := fun _ o => o = .worker)
    (P := P) (Q := Q) (fun t _ hp => hpossible _ hp) ?_ ?_
  · exact fun s o s' _ hp hg hop => .inl (hframe s o s' hp hg.1 hop)
  · rintro s o s' - hp hg rfl
    exact heffect s s' hp hg.1

theorem by_caller (h : Trace s op) (c : Fin n) {P Q : State n → Prop} (hin : ∀ s, P s → s.callers c ≠ .away)
    (hframe : ∀ s o s', P s → Goes s o s' → (∀ a, o ≠ .caller c a) → P s' ∨ Q s')
    (heffect : ∀ s a s', QueueOk s → P s → Goes s (.caller c a) s' → Q s') :
    LeadsTo (fun t => P (s t)) (fun t => Q (s t)) := by
  refine h.goes.leadsTo h.queueOk (h.caller_fair c) (fun t ⟨a, ha⟩ => ⟨.caller c a, ha, a, rfl⟩)
    (M := fun _ o => ∃ a, o = .caller c a) (P := P) (Q := Q) (fun t _ hp => hin _ hp) ?_ ?_
  · exact fun s o s' _ hp hg hop => hframe s o s' hp hg.1 fun a ha => hop ⟨a, ha⟩
  · rintro s o s' hok hp hg ⟨a, rfl⟩
    exact heffect s a s' hok hp hg.1

end Trace

structure At {n : Nat} (w : Worker) (k : Nat) (s : State n) : Prop where
  worker : s.worker = w
  executed : s.executed.length = k
  waiting : s.cmdQueue ≠ []

theorem At.frame {n : Nat} {w : Worker} {k : Nat} {s s' : State n} {op : Op n} (h : At w k s)
    (hg : Goes s op s') (hop : op ≠ .worker) : At w k s' := by
  obtain ⟨hw, he, -, hq⟩ := hg.worker_frame hop
  exact ⟨hw.trans h.worker, he ▸ h.executed, hq h.waiting⟩

namespace Trace

variable {n : Nat} {s : Nat → State n} {op : Nat → Option (Op n)} {k : Nat}

theorem busy_leadsTo (h : Trace s op) :
    LeadsTo (fun t => (∃ dir, (s t).worker = .busy dir) ∧ (s t).executed.length = k)
      (fun t => k < (s t).executed.length) := by
  refine h.by_worker (P := fun s => (∃ dir, s.worker = .busy dir) ∧ s.executed.length = k)
    (Q := fun s => k < s.executed.length) ?_ ?_ ?_
  · rintro s ⟨⟨dir, hw⟩, -⟩
    exact .inl (by rw [hw]; simp)
  · rintro s o s' ⟨⟨dir, hw⟩, hk⟩ hg hop
    obtain ⟨hw', he, -, -⟩ := hg.worker_frame hop
    exact ⟨⟨dir, hw'.trans hw⟩, he ▸ hk⟩
  · rintro s s' ⟨⟨dir, hw⟩, hk⟩ hg
    obtain ⟨rfl, -⟩ := hg.worker_eq
    simp [State.workerStep, hw, hk]

theorem loop_leadsTo (h : Trace s op) : LeadsTo (fun t => At .loop k (s t)) (fun t => k < (s t).executed.length) := by
  refine LeadsTo.trans (h.by_worker (P := At .loop k)
    (Q := fun s => (∃ dir, s.worker = .busy dir) ∧ s.executed.length = k) ?_ ?_ ?_) h.busy_leadsTo
  · exact fun s hp => .inl (by rw [hp.worker]; simp)
  · exact fun s o s' hp hg hop => hp.frame hg hop
  · rintro s s' hp hg
    obtain ⟨rfl, -⟩ := hg.worker_eq
    obtain ⟨dir, rest, hq⟩ := List.exists_cons_of_ne_nil hp.waiting
    exact ⟨⟨dir, by simp [State.workerStep, hp.worker, hq]⟩, by simp [State.workerStep, hp.worker, hq, hp.executed]⟩

theorem pending_leadsTo (h : Trace s op) :
    LeadsTo (fun t => At .idle k (s t) ∧ (s t).pending = true) (fun t => k < (s t).executed.length) := by
  refine LeadsTo.trans (h.by_worker (P := fun s => At .idle k s ∧ s.pending = true) (Q := At .loop k) ?_ ?_ ?_)
    h.loop_leadsTo
  · exact fun s hp => .inr hp.2
  · intro s o s' hp hg hop
    exact ⟨hp.1.frame hg hop, (hg.worker_frame hop).2.2.1 hp.2⟩
  · rintro s s' ⟨hp, hpending⟩ hg
    obtain ⟨rfl, -⟩ := hg.worker_eq
    have hstep : s.workerStep = { s with pending := false, worker := .loop } := by
      simp [State.workerStep, hp.worker, hpending]
    rw [hstep]
    exact ⟨rfl, hp.executed, hp.waiting⟩

end Trace

structure Unqueued {n : Nat} (k : Nat) (s : State n) : Prop extends At .idle k s where
  notPending : s.pending = false

theorem Unqueued.frame {n : Nat} {k : Nat} {s s' : State n} {op : Op n} (h : Unqueued k s) (hg : Goes s op s') :
    Unqueued k s' ∨ (At .idle k s' ∧ s'.pending = true) := by
  have hop : op ≠ .worker := by
    rintro rfl
    exact absurd (hg.worker_eq.2 h.worker) (by simp [h.notPending])
  have hat := h.toAt.frame hg hop
  cases hp : s'.pending with
  | false => exact .inl ⟨hat, hp⟩
  | true => exact .inr ⟨hat, rfl⟩

namespace Trace

variable {n : Nat} {s : Nat → State n} {op : Nat → Option (Op n)} {k : Nat}

section

variable (h : Trace s op)

include h

theorem queue_leadsTo (c : Fin n) : LeadsTo (fun t => Unqueued k (s t) ∧ (s t).callers c = .queue)
      (fun t => At .idle k (s t) ∧ (s t).pending = true) := by
  refine h.by_caller c (P := fun s => Unqueued k s ∧ s.callers c = .queue)
    (Q := fun s => At .idle k s ∧ s.pending = true) ?_ ?_ ?_
  · rintro s ⟨-, hc⟩
    rw [hc]
    simp
  · rintro s o s' ⟨hu, hc⟩ hg hop
    have hc' := (hg.caller_frame hop (by rw [hc]; simp)).trans hc
    exact (hu.frame hg).imp_left fun hu' => ⟨hu', hc'⟩
  · rintro s a s' - ⟨hu, hc⟩ hg
    have hat := hu.toAt.frame hg (by simp)
    cases hg with
    | queued => exact ⟨hat, rfl⟩
    | onward _ _ _ hon _ => exact absurd hc hon.fromQueue
    | added _ _ _ _ hc' _ | saw _ _ hc' _ | flagged _ _ hc' => rw [hc] at hc'; cases hc'

theorem active_leadsTo (c : Fin n) : LeadsTo (fun t => Unqueued k (s t) ∧ Active ((s t).callers c))
      (fun t => (At .idle k (s t) ∧ (s t).pending = true) ∨
        Unqueued k (s t) ∧ ∃ c', (s t).callers c' = .queue) := by
  refine LeadsTo.of_rank (fun t => rank ((s t).callers c)) fun r => ?_
  let P := fun s : State n => (Unqueued k s ∧ Active (s.callers c)) ∧ rank (s.callers c) = r
  let Q := fun s : State n => ((At .idle k s ∧ s.pending = true) ∨ Unqueued k s ∧ ∃ c', s.callers c' = .queue) ∨
    (Unqueued k s ∧ Active (s.callers c)) ∧ rank (s.callers c) < r
  refine h.by_caller c (P := P) (Q := Q) ?_ ?_ ?_
  · rintro s ⟨⟨-, hact⟩, -⟩ haway
    rw [haway] at hact
    exact hact
  · rintro s o s' ⟨⟨hu, hact⟩, hr⟩ hg hop
    have hc := hg.caller_frame hop (by rintro haway; rw [haway] at hact; exact hact)
    rcases hu.frame hg with hu' | hdone
    · exact .inl ⟨⟨hu', by rw [hc]; exact hact⟩, by rw [hc]; exact hr⟩
    · exact .inr (.inl (.inl hdone))
  · rintro s a s' hok ⟨⟨hu, hact⟩, hr⟩ hg
    rcases hu.frame hg with hu' | hdone
    · cases hg with
      | onward _ _ p' hon _ =>
        exact .inr ⟨⟨hu', by rw [goto_self]; exact hon.active hact⟩, by rw [goto_self, ← hr]; exact hon.lower⟩
      | added _ _ dir left hc _ =>
        have hlow := rank_loopHead dir left
        have hself := goto_self (s := s) (c := c) (p := loopHead dir left)
        rw [hc] at hr
        exact .inr ⟨⟨hu', hself.symm ▸ active_loopHead dir left⟩,
          Nat.lt_of_le_of_lt (hself.symm ▸ hlow) (by rw [← hr]; simp only [rank]; omega)⟩
      | saw _ _ hc hrun =>
        -- the flag it has seen is that of a caller about to queue the work
        rcases hok.running hrun with hp | hw | ⟨c', hc'⟩
        · rw [hu.notPending] at hp; cases hp
        · exact absurd hu.worker hw
        · have hne : c' ≠ c := by rintro rfl; rw [hc] at hc'; cases hc'
          exact .inl (.inr ⟨hu', c', by simp only [State.goto, Function.update_of_ne hne, hc']⟩)
      | flagged _ _ hc => exact .inl (.inr ⟨hu', c, goto_self⟩)
      | queued _ _ hc => have := hu'.notPending; cases this
    · exact .inl (.inl hdone)

theorem idle_leadsTo : LeadsTo (fun t => At .idle k (s t)) (fun t => k < (s t).executed.length) := by
  refine LeadsTo.trans (q := fun t => At .idle k (s t) ∧ (s t).pending = true) (fun t hat => ?_) h.pending_leadsTo
  cases hp : (s t).pending with
  | true => exact ⟨t, Nat.le_refl t, hat, hp⟩
  | false =>
    rcases (h.queueOk t).served hat.waiting with hp' | hw | ⟨c, hc⟩
    · rw [hp] at hp'; cases hp'
    · exact absurd hat.worker hw
    · obtain ⟨m, hm, hdone | ⟨hu, c', hc'⟩⟩ := h.active_leadsTo c t ⟨⟨hat, hp⟩, hc⟩
      · exact ⟨m, hm, hdone⟩
      · obtain ⟨l, hl, hdone⟩ := h.queue_leadsTo c' m ⟨hu, hc'⟩
        exact ⟨l, Nat.le_trans hm hl, hdone⟩

theorem clear_leadsTo : LeadsTo (fun t => At .clear k (s t)) (fun t => k < (s t).executed.length) := by
  refine LeadsTo.trans (h.by_worker (P := At .clear k) (Q := At .idle k) ?_ ?_ ?_) h.idle_leadsTo
  · exact fun s hp => .inl (by rw [hp.worker]; simp)
  · exact fun s o s' hp hg hop => hp.frame hg hop
  · rintro s s' hp hg
    obtain ⟨rfl, -⟩ := hg.worker_eq
    have hstep : s.workerStep = { s with workRunning := false, worker := .idle } := by
      simp [State.workerStep, hp.worker]
    rw [hstep]
    exact ⟨rfl, hp.executed, hp.waiting⟩

theorem one_more : LeadsTo (fun t => (s t).executed.length = k ∧ k < (s t).accepted.length)
      (fun t => k < (s t).executed.length) := by
  rintro t ⟨hk, hlt⟩
  have horder := congrArg List.length (h.queueOk t).order
  rw [List.length_append, List.length_append] at horder
  have hat : ∀ {w}, (s t).worker = w → (∀ dir, w ≠ .busy dir) → At w k (s t) := by
    intro w hw hnb
    refine ⟨hw, hk, fun hq => ?_⟩
    have hnone : inHand (s t) = [] := by
      unfold inHand
      rw [hw]
      cases w with
      | busy dir => exact absurd rfl (hnb dir)
      | idle | loop | clear => rfl
    rw [hnone, hq] at horder
    simp only [List.length_nil] at horder
    omega
  cases hw : (s t).worker with
  | idle => exact h.idle_leadsTo t (hat hw (by simp))
  | loop => exact h.loop_leadsTo t (hat hw (by simp))
  | busy dir => exact h.busy_leadsTo t ⟨⟨dir, hw⟩, hk⟩
  | clear => exact h.clear_leadsTo t (hat hw (by simp))

theorem executed_all (i : Nat) :
    LeadsTo (fun t => i < (s t).accepted.length) (fun t => i < (s t).executed.length) := by
  refine LeadsTo.of_rank (fun t => i - (s t).executed.length) fun r => ?_
  rintro t ⟨hin, hr⟩
  by_cases hdone : i < (s t).executed.length
  · exact ⟨t, Nat.le_refl t, .inl hdone⟩
  · obtain ⟨m, hm, hmore⟩ := h.one_more t ⟨rfl, by omega⟩
    have hin' := Nat.lt_of_lt_of_le hin
      (h.goes.mono h.queueOk (f := fun s => s.accepted.length) (fun _ _ _ _ hg => hg.1.accepted_le) hm)
    refine ⟨m, hm, ?_⟩
    by_cases hdone' : i < (s m).executed.length
    · exact .inl hdone'
    · exact .inr ⟨hin', by omega⟩

end

end Trace

/-- For any number of callers: in every run that fits, `queue_len` is right and at most `QUEUE_MAX_LEN`, and a
command on the list is attended to; the next step leaves it so exactly when it fits. In every endless fair run that
fits each accepted command is executed, in order. -/
theorem queue_attended_iff (n : Nat) :
    (∀ ops s, Run step (fun s op => Possible s op ∧ QueueFits s op) (start n) ops s →
      QueueLaw s ∧ ∀ op u s', Possible s op → step s op = .ret u s' →
        ((s'.cmdQueue.length ≤ queueMaxLen ∧ Served s') ↔ QueueFits s op)) ∧
    ∀ s op, Trace (n := n) s op → ∀ t i, i < (s t).accepted.length →
      ∃ m ≥ t, i < (s m).executed.length ∧ (s m).executed <+: (s m).accepted := by
  constructor
  · intro ops s hr
    have hok := QueueOk.run hr
    exact ⟨hok.law, fun op u s' hp hs => (goes_of_step hp hs).served_iff hok.toBooks hok.le hok.served⟩
  · intro s op h t i hi
    obtain ⟨m, hm, hlt⟩ := h.executed_all i t hi
    refine ⟨m, hm, hlt, ?_⟩
    rw [(h.queueOk m).order, List.append_assoc]
    exact List.prefix_append _ _

instance {n : Nat} (s : State n) (op : Op n) : Decidable (Possible s op) := by
  cases op <;> unfold Possible <;> infer_instance

instance {n : Nat} (s : State n) (op : Op n) : Decidable (QueueFits s op) :=
  match op with
  | .call _ _ _ _ => isTrue trivial
  | .worker => inferInstanceAs (Decidable (s.worker = .clear →
      s.cmdQueue = [] ∨ s.pending = true ∨ ∃ c, Active (s.callers c)))
  | .caller c answer =>
    match hc : s.callers c with
    | .add _ _ => decidable_of_iff (answer = true → s.cmdQueue.length < queueMaxLen)
        ⟨fun h _ _ _ => h, fun h => h _ _ hc⟩
    | .away | .edges _ _ _ | .limit _ _ | .single _ _ | .room _ _ | .test | .set | .queue =>
      isTrue fun _ _ h => absurd (hc.symm.trans h) (by simp)

def wholeCall {n : Nat} (c : Fin n) (dir : Dir) : List (Op n) :=
  [.call c dir 1 false, .caller c false, .caller c false, .caller c true, .caller c false, .caller c false,
    .caller c false]

def wholeWork (n : Nat) : List (Op n) := [.worker, .worker, .worker, .worker, .worker]

theorem queue_attended_iff_two_callers : ∃ s op, Trace (n := 2) s op ∧ ∃ m, 1 < (s m).executed.length := by
  let ops : List (Op 2) := wholeCall 0 .up ++ wholeWork 2 ++ wholeCall 1 .dn ++ wholeWork 2
  have ht : Trace (states step (start 2) ops) (fun t => ops[t]?) := by
    refine ⟨Endless.of_states (by decide +kernel), ?_, fun c => ?_⟩
    · exact WeakFair.of_states (P := fun s : State 2 => Possible s .worker) (by decide +kernel)
    · exact WeakFair.of_states (P := fun s : State 2 => s.callers c ≠ .away) (by revert c; decide +kernel)
  obtain ⟨m, -, hm, -⟩ := (queue_attended_iff 2).2 _ _ ht 20 1 (by decide +kernel)
  exact ⟨_, _, ht, m, hm⟩

def lostWakeup {n : Nat} (c c' : Fin n) : List (Op n) :=
  wholeCall c .up ++ [.worker, .worker, .worker, .worker, .call c' .dn 1 false, .caller c' false,
    .caller c' false, .caller c' true, .caller c' false, .worker]

def adds {n : Nat} (c : Fin n) (k : Nat) : List (Op n) :=
  [.call c .up k false, .caller c false] ++ (List.replicate k [.caller c false, .caller c true]).flatten

def overfull {n : Nat} (c c' : Fin n) : List (Op n) :=
  adds c 18 ++ [.caller c false, .caller c false, .caller c false] ++
  adds c 18 ++ [.caller c false] ++ adds c 18 ++ [.caller c false] ++ adds c 9 ++ [.caller c false] ++
  [.call c .up 1 false, .caller c false, .call c' .up 1 false, .caller c' false, .caller c false,
    .caller c' false, .caller c true, .caller c' true]

theorem queue_loses_wakeup_and_overflows :
    (∃ s, Run step Possible (start 2) (lostWakeup 0 1) s ∧ (∀ c, s.callers c = .away) ∧ s.cmdQueue = [.dn] ∧
      s.pending = false ∧ s.worker = .idle) ∧
    ∃ s, Run step Possible (start 2) (overfull 0 1) s ∧ s.cmdQueue.length = 65 :=
  ⟨Run.exists_of_exec (by decide +kernel), Run.exists_of_exec (by decide +kernel)⟩

end H713.Keystone.Queue
