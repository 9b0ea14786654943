import Mathlib.Logic.Function.Basic
import H713.Lib.Run
import H713.Lib.Fair

/-!
# Cedrus.Stop

The halt of the video engine in `cedrus_stop_streaming`, one step for each call it makes. Engine and watchdog belong
to the device: the context that stops cancels and resets them whoever's job is running.
-/

namespace H713.Cedrus

inductive StopPc where
  | idle
  | cancelled
  | ve3
deriving DecidableEq

structure Job where
  ctx : Nat
  number : Nat
deriving DecidableEq

structure Dev where
  running : Option Job
  engine : Bool
  watchdog : Bool
  stopReset : Bool
  rstcVe3 : Bool
  pc : Nat → StopPc
  started : Nat
  finished : List Job

inductive Event where
  | run (ctx : Nat)
  | irq
  | watchdog
  | stop (ctx : Nat) (output : Bool)
  | reset (ctx : Nat)
  | setStopReset (b : Bool)
deriving DecidableEq

namespace Dev

def start (d : Dev) (ctx : Nat) : Dev :=
  { d with running := some ⟨ctx, d.started⟩, engine := true, watchdog := true, started := d.started + 1 }

def finish (d : Dev) : Dev :=
  { d with running := none, engine := false, finished := d.finished ++ d.running.toList }

def stopStreaming (d : Dev) (ctx : Nat) (output : Bool) : Dev :=
  if output ∧ d.stopReset then
    { d with watchdog := false, pc := Function.update d.pc ctx .cancelled }
  else d

def reset (d : Dev) (ctx : Nat) : Dev :=
  let next := if d.pc ctx = .cancelled ∧ d.rstcVe3 then StopPc.ve3 else .idle
  { d with engine := false, pc := Function.update d.pc ctx next }

end Dev

def after (d : Dev) : Event → Dev
  | .run ctx => d.start ctx
  | .irq => { d.finish with watchdog := false }
  | .watchdog => { d.finish with watchdog := false }
  | .stop ctx output => d.stopStreaming ctx output
  | .reset ctx => d.reset ctx
  | .setStopReset b => { d with stopReset := b }

def Possible (d : Dev) : Event → Prop
  | .run _ => d.running = none
  | .irq => d.running ≠ none ∧ d.engine
  | .watchdog => d.watchdog
  | .stop ctx _ => d.pc ctx = .idle
  | .reset ctx => d.pc ctx ≠ .idle
  | .setStopReset _ => True

def step (d : Dev) (e : Event) : Out Dev Unit := .ret () (after d e)

/-- The running job has the engine or the watchdog. -/
def Served (d : Dev) : Prop := d.running ≠ none → d.engine ∨ d.watchdog
deriving Decidable

/-- A stop that resets finds the engine of the running job on, and a reset its watchdog armed. -/
def Fits (d : Dev) : Event → Prop
  | .stop _ output => output → d.stopReset → d.running ≠ none → d.engine
  | .reset _ => d.running ≠ none → d.watchdog
  | _ => True

instance (d : Dev) : DecidablePred (Possible d) := fun e => by
  cases e <;> unfold Possible <;> infer_instance

instance (d : Dev) : DecidablePred (Fits d) := fun e => by
  cases e <;> unfold Fits <;> infer_instance

theorem served_iff {d : Dev} (h : Served d) (e : Event) : Served (after d e) ↔ Fits d e := by
  cases e with
  | run ctx => simp [Served, after, Dev.start, Fits]
  | irq | watchdog => simp [Served, after, Dev.finish, Fits]
  | stop ctx output =>
    by_cases hh : output ∧ d.stopReset
    · simp [Served, after, Dev.stopStreaming, Fits, hh]
    · have hsame : after d (.stop ctx output) = d := if_neg hh
      rw [hsame]
      exact iff_of_true h fun ho hr => absurd ⟨ho, hr⟩ hh
  | reset ctx => simp [Served, after, Dev.reset, Fits]
  | setStopReset b => simpa [Served, after, Fits] using h

theorem run_served {d d' : Dev} {es : List Event} (h : Served d)
    (hr : Run step (fun d e => Possible d e ∧ Fits d e) d es d') : Served d' := by
  refine hr.inv ?_ h
  rintro d e ⟨⟩ d' h ⟨-, hf⟩ hs
  cases hs
  exact (served_iff h e).mpr hf

/-- An endless run, whose interrupt and watchdog are not put off for ever. -/
structure Trace (d : Nat → Dev) (e : Nat → Event) : Prop where
  possible : ∀ n, Possible (d n) (e n)
  fits : ∀ n, Fits (d n) (e n)
  next : ∀ n, d (n + 1) = after (d n) (e n)
  irq_fair : WeakFair (fun n => Possible (d n) .irq) (fun n => e n = .irq)
  watchdog_fair : WeakFair (fun n => Possible (d n) .watchdog) (fun n => e n = .watchdog)

theorem after_running {d : Dev} {j : Job} {e : Event} (hp : Possible d e) (hf : Fits d e)
    (hj : d.running = some j) : j ∈ (after d e).finished ∨ (after d e).running = some j ∧
      (d.engine → (after d e).engine ∨ (after d e).watchdog) ∧
      (¬ d.engine → d.watchdog → ¬ (after d e).engine ∧ (after d e).watchdog) := by
  cases e with
  | run ctx => cases hj.symm.trans hp
  | irq | watchdog => simp [after, Dev.finish, hj]
  | stop ctx output =>
    right
    by_cases hh : output ∧ d.stopReset
    · have hen : d.engine := hf hh.1 hh.2 (by simp [hj])
      simp [after, Dev.stopStreaming, hh, hj, hen]
    · have hsame : after d (.stop ctx output) = d := if_neg hh
      rw [hsame]
      exact ⟨hj, Or.inl, fun hn hw => ⟨hn, hw⟩⟩
  | reset ctx =>
    right
    have hw : d.watchdog := hf (by simp [hj])
    simp [after, Dev.reset, hj, hw]
  | setStopReset b => exact .inr ⟨hj, Or.inl, fun hn hw => ⟨hn, hw⟩⟩

theorem after_irq_finished {d : Dev} {j : Job} (hj : d.running = some j) :
    j ∈ (after d .irq).finished ∧ j ∈ (after d .watchdog).finished := by
  simp [after, Dev.finish, hj]

namespace Trace

variable {d : Nat → Dev} {e : Nat → Event} {j : Job} {n : Nat}

section

variable (h : Trace d e) (hj : (d n).running = some j)

include h hj

theorem running_next : j ∈ (d (n + 1)).finished ∨ (d (n + 1)).running = some j ∧
      ((d n).engine → (d (n + 1)).engine ∨ (d (n + 1)).watchdog) ∧
      (¬ (d n).engine → (d n).watchdog → ¬ (d (n + 1)).engine ∧ (d (n + 1)).watchdog) := by
  rw [h.next n]
  exact after_running (h.possible n) (h.fits n) hj

theorem finished_by_watchdog (hn : ¬ (d n).engine) (hw : (d n).watchdog) : ∃ m ≥ n, j ∈ (d m).finished := by
  let halted := fun m => (d m).running = some j ∧ ¬ (d m).engine ∧ (d m).watchdog
  refine h.watchdog_fair.eventually (p := halted) ⟨hj, hn, hw⟩ ?_ ?_ ?_
  · rintro m ⟨hj, hn, hw⟩
    obtain hfin | ⟨hj', -, hkeep⟩ := h.running_next hj
    · exact .inr hfin
    · exact .inl ⟨hj', hkeep hn hw⟩
  · exact fun m hm => hm.2.2
  · intro m hm hev
    rw [h.next m, hev]
    exact (after_irq_finished hm.1).2

theorem finished_or_halted (hen : (d n).engine) :
    ∃ m ≥ n, j ∈ (d m).finished ∨ (d m).running = some j ∧ ¬ (d m).engine ∧ (d m).watchdog := by
  let runs := fun m => (d m).running = some j ∧ (d m).engine
  refine h.irq_fair.eventually (p := runs) ⟨hj, hen⟩ ?_ ?_ ?_
  · rintro m ⟨hj, hen⟩
    obtain hfin | ⟨hj', hkeep, -⟩ := h.running_next hj
    · exact .inr (.inl hfin)
    · by_cases hen' : (d (m + 1)).engine
      · exact .inl ⟨hj', hen'⟩
      · exact .inr (.inr ⟨hj', hen', (hkeep hen).resolve_left hen'⟩)
  · exact fun m hm => ⟨by simp [hm.1], hm.2⟩
  · intro m hm hev
    rw [h.next m, hev]
    exact .inl (after_irq_finished hm.1).1

end

theorem served (h : Trace d e) (h0 : Served (d 0)) (n : Nat) : Served (d n) := by
  induction n with
  | zero => exact h0
  | succ n ih =>
    rw [h.next n]
    exact (served_iff ih (e n)).mpr (h.fits n)

theorem finished (h : Trace d e) (h0 : Served (d 0)) (hj : (d n).running = some j) :
    ∃ m ≥ n, j ∈ (d m).finished := by
  by_cases hen : (d n).engine
  · obtain ⟨m, hm, hfin | ⟨hj', hn, hw⟩⟩ := h.finished_or_halted hj hen
    · exact ⟨m, hm, hfin⟩
    · obtain ⟨k, hk, hfin⟩ := h.finished_by_watchdog hj' hn hw
      exact ⟨k, Nat.le_trans hm hk, hfin⟩
  · have hw := (h.served h0 n (by simp [hj])).resolve_left hen
    exact h.finished_by_watchdog hj hen hw

end Trace

/-- In every run whose stops fit, the running job is served, and the next event keeps that exactly when it fits; in
every endless fair run of this kind each job is finished. -/
theorem jobs_finish {d : Dev} (h : d.running = none) :
    (∀ es d', Run step (fun d e => Possible d e ∧ Fits d e) d es d' →
      Served d' ∧ ∀ e, Served (after d' e) ↔ Fits d' e) ∧ ∀ dev ev, dev 0 = d → Trace dev ev →
      ∀ n j, (dev n).running = some j → ∃ m ≥ n, j ∈ (dev m).finished := by
  have h0 : Served d := fun hne => absurd h hne
  constructor
  · intro es d' hr
    have hs := run_served h0 hr
    exact ⟨hs, served_iff hs⟩
  · rintro dev ev rfl ht n j hj
    exact ht.finished h0 hj

def idle : Dev := ⟨none, false, false, true, false, fun _ => .idle, 0, []⟩

def turnEvent (n : Nat) : Event := if n % 2 = 0 then .run 1 else .irq

def turn : Nat → Dev
  | 0 => idle
  | n + 1 => after (turn n) (turnEvent n)

theorem turn_possible (n : Nat) : Possible (turn n) (turnEvent n) := by
  -- between two events the device has no job or one with the engine, in turns
  have hturn : ∀ n, if n % 2 = 0 then (turn n).running = none
      else (turn n).running ≠ none ∧ (turn n).engine := by
    intro n
    induction n with
    | zero => rfl
    | succ n ih =>
      by_cases hn : n % 2 = 0
      · have hodd : (n + 1) % 2 ≠ 0 := by omega
        simp [turn, turnEvent, hn, hodd, after, Dev.start]
      · have heven : (n + 1) % 2 = 0 := by omega
        simp [turn, turnEvent, hn, heven, after, Dev.finish]
  have h := hturn n
  unfold turnEvent
  split at h
  · rename_i hn
    rw [if_pos hn]
    exact h
  · rename_i hn
    rw [if_neg hn]
    exact h

theorem turn_trace : Trace turn turnEvent where
  possible := turn_possible
  fits n := by
    unfold turnEvent
    split <;> trivial
  next _ := rfl
  irq_fair n _ := ⟨2 * n + 1, by omega, by simp [turnEvent]⟩
  watchdog_fair n hw := by
    -- after an interrupt the watchdog is not pending
    have hoff : ¬ (turn (2 * n + 2)).watchdog := by
      have hev : turnEvent (2 * n + 1) = .irq := by simp [turnEvent]
      simp [turn, hev, after]
    exact absurd (hw (2 * n + 2) (by omega)) hoff

theorem jobs_finish_turn :
    (∃ d, Run step (fun d e => Possible d e ∧ Fits d e) idle [.run 1, .irq, .stop 1 true, .run 0, .reset 1] d ∧
      d.running ≠ none ∧ Served d) ∧ ∃ m ≥ 1, (⟨1, 0⟩ : Job) ∈ (turn m).finished := by
  constructor
  · have hrun : ∃ d, Run step (fun d e => Possible d e ∧ Fits d e) idle
        [.run 1, .irq, .stop 1 true, .run 0, .reset 1] d ∧ d.running ≠ none :=
      Run.exists_of_exec (by decide +kernel)
    obtain ⟨d, hr, hj⟩ := hrun
    exact ⟨d, hr, hj, ((jobs_finish (d := idle) rfl).1 _ _ hr).1⟩
  · exact (jobs_finish (d := idle) rfl).2 turn turnEvent rfl turn_trace 1 ⟨1, 0⟩ rfl

theorem other_job_lost : ∃ d, Run step Possible idle [.run 1, .stop 0 true, .reset 0] d ∧
      d.running = some ⟨1, 0⟩ ∧ ¬ Served d ∧ ¬ Possible d .irq ∧ ¬ Possible d .watchdog :=
  Run.exists_of_exec (by decide +kernel)

end H713.Cedrus
