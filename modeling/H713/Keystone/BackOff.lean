import H713.Keystone.Code

/-!
# Keystone.BackOff

The back-off loop of a move command. It counts the micro-steps back, from the fifth on only those that leave the
limit switch active.
-/

namespace H713.Keystone

def turns (raw : Nat → Levels) (j n : Nat) : List Op := (List.range' j n).map fun k => .backOff (raw k)

def pressed (l : Limiters) (dir : Dir) (raw : Nat → Levels) (n : Nat) : Nat :=
  (List.range n).countP fun k => 4 ≤ k ∧ limiterStatus l (raw k) (some dir)

def loopCount (l : Limiters) (dir : Dir) (raw : Nat → Levels) (n : Nat) : Nat := min n 4 + pressed l dir raw n

section

variable {m m' : Motor} {dir : Dir} {raw : Nat → Levels} {n : Nat}

theorem pressed_succ (l : Limiters) (dir : Dir) (raw : Nat → Levels) (n : Nat) : pressed l dir raw (n + 1) =
    pressed l dir raw n + if 4 ≤ n ∧ limiterStatus l (raw n) (some dir) then 1 else 0 := by
  simp [pressed, List.range_succ, List.countP_cons]

theorem pressed_zero (l : Limiters) (dir : Dir) (raw : Nat → Levels) (hn : n ≤ 4) : pressed l dir raw n = 0 := by
  induction n with
  | zero => rfl
  | succ n ih => rw [pressed_succ, ih (by omega), if_neg (by omega)]

theorem pressed_add (l : Limiters) (dir : Dir) (raw : Nat → Levels) (n k : Nat) :
    pressed l dir raw n ≤ pressed l dir raw (n + k) := by
  induction k with
  | zero => exact Nat.le_refl _
  | succ k ih =>
    rw [← Nat.add_assoc, pressed_succ]
    omega

theorem backOffNext_loopCount (m : Motor) (dir : Dir) (raw : Nat → Levels) (n : Nat) :
    m.backOffNext dir (loopCount m.lim dir raw n) (raw n) = loopCount m.lim dir raw (n + 1) := by
  unfold Motor.backOffNext loopCount
  rw [pressed_succ]
  by_cases hn : 4 ≤ n
  · cases hact : limiterStatus m.lim (raw n) (some dir) with
    | true | false => simp [hn]; omega
  · have hzero := pressed_zero m.lim dir raw (show n ≤ 4 by omega)
    rw [hzero, if_neg (by omega), if_neg (by omega)]
    omega

structure Backing (m : Motor) (dir : Dir) (raw : Nat → Levels) (n : Nat) (m' : Motor) : Prop where
  lim : m'.lim = m.lim
  backStep : m'.backStep = m.backStep
  pc : m'.pc = .backOff dir (loopCount m.lim dir raw n)

theorem Backing.possible (h : Backing m dir raw n m') : Possible m' (.backOff (raw n)) := ⟨dir, _, h.pc⟩

theorem Backing.turn (h : Backing m dir raw n m') : ∃ m'', step m' (.backOff (raw n)) = .ret () m'' ∧
    if loopCount m.lim dir raw (n + 1) < m.backStep then Backing m dir raw (n + 1) m'' else m''.pc = .idle := by
  have hnext : (m'.mstep dir.other .backOff (raw n)).backOffNext dir (loopCount m.lim dir raw n) (raw n) =
      loopCount m.lim dir raw (n + 1) := by
    rw [← backOffNext_loopCount]
    simp only [Motor.backOffNext, Motor.mstep, h.lim]
  refine ⟨_, by simp only [step, h.pc]; rfl, ?_⟩
  unfold Motor.backOffTurn
  dsimp only
  rw [hnext, show (m'.mstep dir.other .backOff (raw n)).backStep = m.backStep from h.backStep]
  split
  · exact ⟨h.lim, rfl, rfl⟩
  · rfl

theorem Backing.stays {j : Nat} {m'' : Motor} (hall : ∀ k, loopCount m.lim dir raw k < m.backStep)
    (h : Backing m dir raw j m') (hr : Run step Possible m' (turns raw j n) m'') : Backing m dir raw (j + n) m'' := by
  induction n generalizing j m' with
  | zero =>
    cases hr
    exact h
  | succ n ih =>
    obtain ⟨m₁, hstep, hnext⟩ := h.turn
    rw [if_pos (hall _)] at hnext
    cases hr with
    | cons _ hs hrest =>
      cases hstep.symm.trans hs
      rw [show j + (n + 1) = j + 1 + n by omega]
      exact ih hnext hrest

theorem Backing.ends {j d : Nat} (h : Backing m dir raw j m')
    (hd : m.backStep ≤ loopCount m.lim dir raw (j + d + 1)) :
    ∃ n m'', Run step Possible m' (turns raw j n) m'' ∧ m''.pc = .idle := by
  induction d generalizing j m' with
  | zero =>
    obtain ⟨m₁, hstep, hnext⟩ := h.turn
    rw [if_neg (by simpa using hd)] at hnext
    exact ⟨1, m₁, .cons h.possible hstep .nil, hnext⟩
  | succ d ih =>
    obtain ⟨m₁, hstep, hnext⟩ := h.turn
    split at hnext
    · obtain ⟨n, m₂, hr, hidle⟩ := ih hnext (by rwa [show j + 1 + d + 1 = j + (d + 1) + 1 by omega])
      exact ⟨n + 1, m₂, .cons h.possible hstep hr, hidle⟩
    · exact ⟨1, m₁, .cons h.possible hstep .nil, hnext⟩

theorem backing_start {raw₀ : Levels} (hidle : m.pc = .idle) (hloop : (m.runControl dir raw₀).pc ≠ .idle)
    (raw : Nat → Levels) : Backing m dir raw 0 (m.runControl dir raw₀) := by
  have hgo := goes_runControl dir raw₀ hidle
  generalize m.runControl dir raw₀ = m₁ at hgo hloop ⊢
  cases hgo with
  | refused => exact absurd hidle hloop
  | moved | touched => exact absurd rfl hloop
  | backs => exact ⟨rfl, rfl, rfl⟩

end

/-- The back-off loop of a command ends exactly when the switch of its direction is active often enough from the fifth
micro-step back on: `back_step` less four times. -/
theorem back_off_ends_iff {m : Motor} {dir : Dir} {raw₀ : Levels} (hidle : m.pc = .idle)
    (hloop : (m.runControl dir raw₀).pc ≠ .idle) (raw : Nat → Levels) :
    (∃ n m', Run step Possible (m.runControl dir raw₀) (turns raw 0 n) m' ∧ m'.pc = .idle) ↔
      ∃ n, m.backStep ≤ 4 + pressed m.lim dir raw n := by
  have hstart := backing_start hidle hloop raw
  refine ⟨fun ⟨n, m', hr, hend⟩ => ?_, fun ⟨n, hn⟩ => ?_⟩
  · by_contra hnot
    have hall : ∀ k, loopCount m.lim dir raw k < m.backStep := by
      intro k
      have hk := not_exists.mp hnot k
      unfold loopCount
      omega
    have hpc := (hstart.stays hall hr).pc
    rw [hend] at hpc
    cases hpc
  · refine hstart.ends (d := n + 3) ?_
    have hmono := pressed_add m.lim dir raw n 4
    rw [loopCount, show 0 + (n + 3) + 1 = n + 4 by omega]
    omega

def releasedAfter (k : Nat) : Nat → Levels := fun n pin => if pin = 10 then some (if n < k then 0 else 1) else some 1

def upSwitch : Limiters := ⟨2, 10, 11, 0⟩

theorem back_off_ends_fifth : ∃ n m', Run step Possible ((probed upSwitch).runControl .up (releasedAfter 1 0))
    (turns (releasedAfter 5) 0 n) m' ∧ m'.pc = .idle :=
  (back_off_ends_iff rfl (by decide) _).mpr ⟨5, by decide⟩

theorem back_off_never_ends : ((probed upSwitch).runControl .up (releasedAfter 1 0)).pc ≠ .idle ∧
    ¬ ∃ n m', Run step Possible ((probed upSwitch).runControl .up (releasedAfter 1 0))
      (turns (releasedAfter 2) 0 n) m' ∧ m'.pc = .idle := by
  have hloop : ((probed upSwitch).runControl .up (releasedAfter 1 0)).pc ≠ .idle := by decide
  have hzero : ∀ n, pressed (probed upSwitch).lim .up (releasedAfter 2) n = 0 := by
    intro n
    induction n with
    | zero => rfl
    | succ n ih =>
      rw [pressed_succ, ih, if_neg]
      rintro ⟨h4, hact⟩
      simp [probed, upSwitch, limiterStatus, pinActive, releasedAfter, show ¬ n < 2 by omega] at hact
  refine ⟨hloop, fun ⟨n, m', hr, hend⟩ => ?_⟩
  have hall : ∀ k, loopCount (probed upSwitch).lim .up (releasedAfter 2) k < (probed upSwitch).backStep := by
    intro k
    rw [loopCount, hzero]
    show ((min k 4 + 0 : Nat) : Int) < 5
    omega
  have hpc := ((backing_start rfl hloop (releasedAfter 2)).stays hall hr).pc
  rw [hend] at hpc
  cases hpc

end H713.Keystone
