import H713.Keystone.Code

/-!
# Keystone.Tables

The step tables of the keystone motor. A micro-step reads `step_num` anew on every turn, and the sysfs file takes
any value up to `MAX_STEPS`, whatever the tables hold. A write may come between any two turns.
-/

namespace H713.Keystone.Tables

open Bytes

def maxPhases : Int := 8

def maxSteps : Int := 32

def eInval : Int := -22

def eNomem : Int := -12

structure Dt where
  motorPhaseNum : Option UInt32
  motorStepNum : Option UInt32
  motorPhaseUdelay : Option UInt32
  motorStepMdelay : Option UInt32
  motorType : Option UInt32
  motorCycle : Option UInt32
  allocOk : Bool
  gpioError : Option Int

inductive Loop where
  | outer (dir : Dir) (i : Nat)
  | inner (dir : Dir) (i j : Nat)
deriving DecidableEq, Repr

structure Motor where
  phaseNum : Int
  stepNum : Int
  motorType : Nat
  motorCycle : Nat
  cwLen : Nat
  ccwLen : Nat
  running : Option Loop
  reads : List (Dir × Nat)

def kcalloc (n : Int) (ok : Bool) : Option Nat :=
  if n < 0 ∨ ok = false then none else some n.toNat

def motorParseDt (dt : Dt) : Except Int Motor :=
  match dt.motorPhaseNum with
  | none => .error eInval
  | some phases =>
    let phaseNum := toI32 phases.toNat
    if phaseNum = 0 ∨ phaseNum > maxPhases then .error eInval
    else
      match dt.motorStepNum with
      | none => .error eInval
      | some steps =>
        let stepNum := toI32 steps.toNat
        if stepNum = 0 ∨ stepNum > maxSteps then .error eInval
        else if dt.motorPhaseUdelay = none then .error eInval
        else if dt.motorStepMdelay = none then .error eInval
        else
          let motorCycle := (dt.motorCycle.getD 1).toNat
          let motorCycle := if motorCycle = 0 then 1 else motorCycle
          match kcalloc phaseNum dt.allocOk, kcalloc stepNum dt.allocOk, kcalloc stepNum dt.allocOk with
          | some _, some cwLen, some ccwLen =>
            match dt.gpioError with
            | some err => .error err
            | none =>
              .ok { phaseNum := phaseNum, stepNum := stepNum, motorType := (dt.motorType.getD 0).toNat,
                    motorCycle := motorCycle, cwLen := cwLen, ccwLen := ccwLen, running := none, reads := [] }
          | _, _, _ => .error eNomem

namespace Motor

def bipolar (m : Motor) : Bool := m.motorType = 1 ∧ m.phaseNum ≥ 2

def len (m : Motor) : Dir → Nat
  | .up => m.ccwLen
  | .dn => m.cwLen

def mstepStart (m : Motor) (dir : Dir) : Motor :=
  if m.bipolar then m else { m with running := some (.outer dir 0) }

def turn (m : Motor) : Motor :=
  match m.running with
  | none => m
  | some (.outer dir i) =>
    if i < m.motorCycle then { m with running := some (.inner dir i 0) } else { m with running := none }
  | some (.inner dir i j) =>
    if (j : Int) < m.stepNum then
      { m with running := some (.inner dir i (j + 1)), reads := (dir, j) :: m.reads }
    else { m with running := some (.outer dir (i + 1)) }

def stepNumStore (m : Motor) (val : Int) : Motor :=
  if val > 0 ∧ val ≤ maxSteps then { m with stepNum := val } else m

def cycleStore (m : Motor) (val : UInt32) : Motor :=
  if val.toNat > 0 then { m with motorCycle := val.toNat } else m

end Motor

inductive Op where
  | mstep (dir : Dir)
  | turn
  | stepNumStore (val : Int)
  | cycleStore (val : UInt32)

/-- Micro-steps run one after the other on the driver's workqueue. -/
def Possible (m : Motor) : Op → Prop
  | .mstep _ => m.running = none
  | .turn => m.running ≠ none
  | _ => True

def step (m : Motor) : Op → Out Motor Unit
  | .mstep dir => .ret () (m.mstepStart dir)
  | .turn => .ret () m.turn
  | .stepNumStore val => .ret () (m.stepNumStore val)
  | .cycleStore val => .ret () (m.cycleStore val)

/-- No read of a phase table is behind its end. -/
def InBounds (m : Motor) : Prop := ∀ r ∈ m.reads, r.2 < m.len r.1
deriving Decidable

/-- A write the driver takes is not above the length of the tables, if they are used at all. -/
def StoreFits (m : Motor) : Op → Prop
  | .stepNumStore val =>
    val > 0 ∧ val ≤ maxSteps → m.bipolar = true ∨ (val ≤ m.cwLen ∧ val ≤ m.ccwLen)
  | _ => True

structure Inside (m : Motor) : Prop where
  steps : m.bipolar = true ∨ (m.stepNum ≤ m.cwLen ∧ m.stepNum ≤ m.ccwLen)
  reads : InBounds m
  idle : m.bipolar = true → m.running = none
  cycle : 0 < m.motorCycle

theorem Inside.probe {dt : Dt} {m : Motor} (h : motorParseDt dt = .ok m) : Inside m ∧ m.running = none := by
  unfold motorParseDt kcalloc at h
  split at h
  · cases h
  dsimp only at h
  split at h
  · cases h
  split at h
  · cases h
  split at h
  · cases h
  rename_i hsteps
  split at h
  · cases h
  split at h
  · cases h
  split at h
  · rename_i phase cw ccw _ hcw hccw
    split at h
    · cases h
    · cases h
      split at hcw
      · cases hcw
      · rename_i hpos
        cases hcw
        rw [if_neg hpos] at hccw
        cases hccw
        refine ⟨⟨.inr ?_, (by intro r hr; cases hr), fun _ => rfl, ?_⟩, rfl⟩
        · dsimp only
          omega
        · dsimp only
          split <;> omega
  · cases h

theorem Inside.step {m m' : Motor} {op : Op} {u : Unit} (h : Inside m) (hfit : StoreFits m op)
    (hp : Possible m op) (hs : step m op = .ret u m') : Inside m' := by
  cases op with
  | mstep dir =>
    cases hs
    unfold Motor.mstepStart
    split
    · exact h
    · rename_i hb
      exact ⟨h.steps, h.reads, fun hb' => absurd hb' hb, h.cycle⟩
  | turn =>
    cases hs
    have hnb : ¬ m.bipolar = true := fun hb => hp (h.idle hb)
    have hlen := h.steps.resolve_left hnb
    unfold Motor.turn
    split
    · exact h
    · split <;> exact ⟨h.steps, h.reads, fun hb => absurd hb hnb, h.cycle⟩
    · rename_i dir i j _
      split
      · rename_i hj
        refine ⟨h.steps, ?_, fun hb => absurd hb hnb, h.cycle⟩
        intro r hr
        rcases List.mem_cons.mp hr with rfl | hr
        · cases dir <;> simp only [Motor.len] <;> omega
        · exact h.reads r hr
      · exact ⟨h.steps, h.reads, fun hb => absurd hb hnb, h.cycle⟩
  | stepNumStore val =>
    cases hs
    unfold Motor.stepNumStore
    split
    · rename_i hval
      exact ⟨hfit hval, h.reads, h.idle, h.cycle⟩
    · exact h
  | cycleStore val =>
    cases hs
    unfold Motor.cycleStore
    split
    · rename_i hval
      exact ⟨h.steps, h.reads, h.idle, hval⟩
    · exact h

theorem Inside.run {dt : Dt} {m₀ m : Motor} {ops : List Op} (hp : motorParseDt dt = .ok m₀)
    (hr : Run Tables.step (fun m op => Possible m op ∧ StoreFits m op) m₀ ops m) : Inside m :=
  hr.inv (fun _ _ _ _ hi hok hs => hi.step hok.2 hok.1 hs) (Inside.probe hp).1

def ReadOnly : Op → Prop
  | .stepNumStore _ => False
  | .cycleStore _ => False
  | _ => True

theorem run_inner {m : Motor} {dir : Dir} {i : Nat} (hrun : m.running = some (.inner dir i 0)) :
    ∀ n : Nat, (n : Int) ≤ m.stepNum →
      ∃ m', Run Tables.step (fun m op => Possible m op ∧ ReadOnly op) m (List.replicate n .turn) m' ∧
        m'.running = some (.inner dir i n) ∧ m'.stepNum = m.stepNum ∧ m'.len dir = m.len dir := by
  intro n
  induction n with
  | zero => intro _; exact ⟨m, .nil, hrun, rfl, rfl⟩
  | succ n ih =>
    intro hle
    obtain ⟨m', hr, hpc, hsteps, hlen⟩ := ih (by omega)
    have hturn : m'.turn =
        { m' with running := some (.inner dir i (n + 1)), reads := (dir, n) :: m'.reads } := by
      simp only [Motor.turn, hpc]
      rw [if_pos (by omega)]
    refine ⟨m'.turn, ?_, by rw [hturn], by rw [hturn]; exact hsteps, ?_⟩
    · rw [List.replicate_succ']
      exact hr.trans (.cons ⟨by rw [Possible, hpc]; simp, trivial⟩ rfl .nil)
    · rw [hturn, ← hlen]
      cases dir <;> rfl

theorem reads_behind {m : Motor} {dir : Dir} (hidle : m.running = none) (hnb : m.bipolar = false)
    (hcycle : 0 < m.motorCycle) (hlong : (m.len dir : Int) < m.stepNum) :
    ∃ ops m', Run Tables.step (fun m op => Possible m op ∧ ReadOnly op) m ops m' ∧ ¬ InBounds m' := by
  have hstart : m.mstepStart dir = { m with running := some (.outer dir 0) } := by
    unfold Motor.mstepStart
    rw [hnb, if_neg (by decide)]
  have henter : (m.mstepStart dir).turn = { m with running := some (.inner dir 0 0) } := by
    simp only [Motor.turn, hstart]
    rw [if_pos hcycle]
  have hpc : (m.mstepStart dir).turn.running = some (.inner dir 0 0) := by rw [henter]
  have hsame : (m.mstepStart dir).turn.stepNum = m.stepNum ∧ (m.mstepStart dir).turn.len dir = m.len dir := by
    rw [henter]
    cases dir <;> exact ⟨rfl, rfl⟩
  obtain ⟨m', hr, hrun, hsteps, hlen⟩ := run_inner hpc (m.len dir) (by omega)
  have hread : m'.turn =
      { m' with running := some (.inner dir 0 (m.len dir + 1)), reads := (dir, m.len dir) :: m'.reads } := by
    simp only [Motor.turn, hrun]
    rw [if_pos (by omega)]
  refine ⟨.mstep dir :: .turn :: (List.replicate (m.len dir) .turn ++ [.turn]), m'.turn, ?_, ?_⟩
  · refine .cons ⟨hidle, trivial⟩ rfl (.cons ⟨by rw [Possible, hstart]; simp, trivial⟩ rfl (hr.trans ?_))
    exact .cons ⟨by rw [Possible, hrun]; simp, trivial⟩ rfl .nil
  · intro hb
    have hlt := hb (dir, m.len dir) (by rw [hread]; exact List.mem_cons_self)
    have heq : m'.turn.len dir = m.len dir := by
      rw [hread, ← hsame.2, ← hlen]
      cases dir <;> rfl
    rw [heq] at hlt
    exact lt_irrefl _ hlt

/-- For every order of micro-steps and sysfs writes in which the accepted `step_num` writes fit the tables, all
reads are inside; after the next `step_num` write they stay so exactly when it fits. -/
theorem table_reads_iff {dt : Dt} {m₀ m : Motor} {ops : List Op} (hp : motorParseDt dt = .ok m₀)
    (hr : Run step (fun m op => Possible m op ∧ StoreFits m op) m₀ ops m) :
    InBounds m ∧ ∀ val, m.running = none →
      ((∀ ops' m', Run step (fun m op => Possible m op ∧ ReadOnly op) (m.stepNumStore val) ops' m' →
        InBounds m') ↔ StoreFits m (.stepNumStore val)) := by
  have hi := Inside.run hp hr
  refine ⟨hi.reads, fun val hidle => ⟨fun hall => ?_, fun hfit ops' m' hr' => ?_⟩⟩
  · intro hval
    have hstore : m.stepNumStore val = { m with stepNum := val } := if_pos hval
    rw [hstore] at hall
    by_contra hno
    rw [not_or, Bool.not_eq_true] at hno
    obtain ⟨hnb, hlong⟩ := hno
    have hdir : ∃ dir, (m.len dir : Int) < val := by
      by_cases hcw : val ≤ m.cwLen
      · exact ⟨.up, Int.not_le.mp fun hccw => hlong ⟨hcw, hccw⟩⟩
      · exact ⟨.dn, Int.not_le.mp hcw⟩
    obtain ⟨dir, hdir⟩ := hdir
    have hlong' : (({ m with stepNum := val } : Motor).len dir : Int) < val := by cases dir <;> exact hdir
    obtain ⟨ops', m', hr', hout⟩ := reads_behind (m := { m with stepNum := val }) hidle hnb hi.cycle hlong'
    exact hout (hall ops' m' hr')
  · have hi' : Inside (m.stepNumStore val) := hi.step hfit trivial rfl
    refine (hr'.inv (I := Inside) (fun s op a s' hs hok hstep => hs.step ?_ hok.1 hstep) hi').reads
    cases op with
    | mstep dir | turn => trivial
    | stepNumStore v | cycleStore v => exact absurd hok.2 id

instance (m : Motor) (op : Op) : Decidable (Possible m op) := by
  cases op <;> unfold Possible <;> infer_instance

instance (m : Motor) (op : Op) : Decidable (StoreFits m op) := by
  cases op <;> unfold StoreFits <;> infer_instance

def fourSteps : Dt where
  motorPhaseNum := some 4
  motorStepNum := some 4
  motorPhaseUdelay := some 1
  motorStepMdelay := some 1
  motorType := none
  motorCycle := none
  allocOk := true
  gpioError := none

def fourStepMotor : Motor where
  phaseNum := 4
  stepNum := 4
  motorType := 0
  motorCycle := 1
  cwLen := 4
  ccwLen := 4
  running := none
  reads := []

theorem motorParseDt_fourSteps : motorParseDt fourSteps = .ok fourStepMotor := by
  rfl

theorem table_reads_iff_shortened : ∃ m, Run step (fun m op => Possible m op ∧ StoreFits m op) fourStepMotor
      [.mstep .dn, .turn, .turn, .turn, .stepNumStore 3, .turn, .turn, .turn] m ∧
    m.reads = [(.dn, 2), (.dn, 1), (.dn, 0)] ∧ InBounds m := by
  refine Run.exists_of_exec_imp
    (P := fun m => m.reads = [(.dn, 2), (.dn, 1), (.dn, 0)]) (by decide +kernel) fun m hr hreads => ?_
  exact ⟨hreads, (table_reads_iff motorParseDt_fourSteps hr).1⟩

theorem step_num_write_reads_behind_table : ¬ ∀ (dt : Dt) (m₀ m : Motor) (ops : List Op),
    motorParseDt dt = .ok m₀ → Run step Possible m₀ ops m → InBounds m := by
  intro h
  have hrun : ∃ m, Run step Possible fourStepMotor
      [.stepNumStore 5, .mstep .up, .turn, .turn, .turn, .turn, .turn, .turn] m ∧ ¬ InBounds m :=
    Run.exists_of_exec (by decide +kernel)
  obtain ⟨m, hr, hout⟩ := hrun
  exact hout (h fourSteps fourStepMotor m _ motorParseDt_fourSteps hr)

end H713.Keystone.Tables
