import H713.Lib.Bytes
import H713.Lib.History

/-!
# Board.Code

The HY310 board manager (`hy310-board-mgr.c`): fans, NTC table, polling work and cooling device. The work and
`set_cur_state` hold the driver's mutex, so each is one step; `pwm_apply_might_sleep` is taken to succeed.
-/

namespace H713.Board

open Bytes

def ntcWarnCycles : Nat := 30

def ntcPoweroffCycles : Nat := 50

structure PwmState where
  period : Nat
  dutyCycle : Nat
  inversed : Bool
  enabled : Bool
deriving DecidableEq, Repr

structure Fan where
  pwm : Option PwmState
  periodNs : Nat
  dutyPct : Nat
  dutyArray : List Nat
  valid : Bool
  modes : valid = true → dutyArray ≠ []

namespace Fan

def numModes (fan : Fan) : Nat := fan.dutyArray.length

def pwmState (periodNs dutyPct : Nat) : PwmState :=
  if dutyPct = 0 then { period := periodNs, dutyCycle := 0, inversed := false, enabled := false }
  else { period := periodNs, dutyCycle := periodNs * dutyPct / 100, inversed := false, enabled := true }

def pwmApply (fan : Fan) : Fan :=
  { fan with pwm := fan.pwm.map fun _ => pwmState fan.periodNs fan.dutyPct }

def setFanDuty (fan : Fan) (dutyPct : Nat) : Fan :=
  pwmApply { fan with dutyPct := if dutyPct > 100 then 100 else dutyPct }

def modeDuty (fan : Fan) (mode : Nat) : Nat :=
  if mode < fan.numModes then fan.dutyArray.getD mode 0 else fan.dutyArray.getD (fan.numModes - 1) 0

def RunsAt (fan : Fan) (pct : Nat) : Prop :=
  fan.dutyPct = pct ∧ ∀ st ∈ fan.pwm, st = pwmState fan.periodNs pct
deriving Decidable

end Fan

structure Entry where
  tempDc : UInt32
  tableAdc : UInt32
deriving DecidableEq, Repr

def Entry.temp (e : Entry) : Int := toI32 e.tempDc.toNat

def Entry.adc (e : Entry) : Nat := e.tableAdc.toNat

structure BoardMgr where
  fans : List Fan
  currentMode : Nat
  ntcTable : List Entry
  enabled : Bool
  tempC : Int
  warnCycles : Nat
  poweroffCycles : Nat
  tempPoweroffC : Int
  tempWarnC : Int
  off : Bool

def updateAllFanDuties (priv : BoardMgr) : BoardMgr :=
  { priv with fans := priv.fans.map fun fan =>
      if fan.valid then fan.setFanDuty (fan.modeDuty priv.currentMode) else fan }

def setAllFansFull (priv : BoardMgr) : BoardMgr :=
  { priv with fans := priv.fans.map fun fan => if fan.valid then fan.setFanDuty 100 else fan }

def ntcAdcToTemp (ntcTable : List Entry) (adcVal : Int) : Int :=
  match ntcTable.find? fun e => e.adc ≤ ofI32 adcVal with
  | some e => e.temp
  | none => 0

def warnCheck (priv : BoardMgr) : BoardMgr :=
  if priv.tempC > priv.tempWarnC then
    let priv := { priv with warnCycles := (priv.warnCycles + 1) % 2 ^ 32 }
    if priv.warnCycles ≥ ntcWarnCycles then setAllFansFull priv else priv
  else { priv with warnCycles := 0 }

def poweroffCheck (priv : BoardMgr) : BoardMgr :=
  if priv.tempC > priv.tempPoweroffC then
    let priv := { priv with poweroffCycles := (priv.poweroffCycles + 1) % 2 ^ 32 }
    if priv.poweroffCycles ≥ ntcPoweroffCycles then { priv with off := true } else priv
  else { priv with poweroffCycles := 0 }

def ntcWorkFn (priv : BoardMgr) (adcVal : Int) : BoardMgr :=
  if ¬ priv.enabled then priv
  else if adcVal < 0 then priv
  else poweroffCheck (warnCheck { priv with tempC := ntcAdcToTemp priv.ntcTable adcVal })

def getMaxState (priv : BoardMgr) : Nat :=
  let max := priv.fans.foldl (fun max fan => if fan.valid ∧ fan.numModes > max then fan.numModes else max) 0
  if max > 0 then max - 1 else 0

def setCurState (priv : BoardMgr) (state : Nat) : BoardMgr :=
  let state := if state > getMaxState priv then getMaxState priv else state
  updateAllFanDuties { priv with currentMode := state % 2 ^ 32 }

structure Config where
  fans : List Fan
  ntcTable : List Entry
  enabled : Bool
  tempPoweroffC : Int
  tempWarnC : Int

def probe (cfg : Config) : BoardMgr :=
  updateAllFanDuties
    { fans := cfg.fans, currentMode := 0, ntcTable := cfg.ntcTable, enabled := cfg.enabled, tempC := 0,
      warnCycles := 0, poweroffCycles := 0, tempPoweroffC := cfg.tempPoweroffC,
      tempWarnC := cfg.tempWarnC, off := false }

inductive Op where
  | poll (adcVal : Int)
  | setCurState (state : Nat)

def step (priv : BoardMgr) : Op → Out BoardMgr Unit
  | .poll adcVal => .ret () (ntcWorkFn priv adcVal)
  | .setCurState state => .ret () (setCurState priv state)

/-- The ADC read returns an `int`, and the work does not reschedule itself after the power-off. -/
def Allowed (priv : BoardMgr) : Op → Prop
  | .poll adcVal => priv.off = false ∧ adcVal < 2 ^ 31
  | .setCurState _ => True

instance (priv : BoardMgr) (op : Op) : Decidable (Allowed priv op) := by
  cases op <;> unfold Allowed <;> infer_instance

structure History where
  samples : List Int
  forced : Bool

namespace History

def temps (cfg : Config) (h : History) : List Int := h.samples.map (ntcAdcToTemp cfg.ntcTable)

def hotPolls (cfg : Config) (h : History) : Nat := streak (· > cfg.tempWarnC) (h.temps cfg)

def sample (h : History) (adcVal : Int) : History := { h with samples := h.samples ++ [adcVal] }

def step (cfg : Config) (h : History) : Op → History
  | .poll adcVal =>
    if cfg.enabled ∧ 0 ≤ adcVal then
      { samples := h.samples ++ [adcVal],
        forced := h.forced || decide (ntcWarnCycles ≤ (h.sample adcVal).hotPolls cfg % 2 ^ 32) }
    else h
  | .setCurState _ => { h with forced := false }

def of (cfg : Config) (ops : List Op) : History := ops.foldl (step cfg) { samples := [], forced := false }

end History

namespace Fan

@[simp] theorem modeDuty_setFanDuty (fan : Fan) (pct mode : Nat) :
    (fan.setFanDuty pct).modeDuty mode = fan.modeDuty mode := rfl

@[simp] theorem valid_setFanDuty (fan : Fan) (pct : Nat) : (fan.setFanDuty pct).valid = fan.valid := rfl

theorem runsAt_setFanDuty (fan : Fan) (pct : Nat) : (fan.setFanDuty pct).RunsAt (min pct 100) := by
  have hcap : (if pct > 100 then 100 else pct) = min pct 100 := by
    split <;> omega
  refine ⟨hcap, fun st hst => ?_⟩
  simp only [setFanDuty, pwmApply, hcap, Option.mem_def, Option.map_eq_some_iff] at hst ⊢
  obtain ⟨-, -, rfl⟩ := hst
  rfl

theorem RunsAt.unique {fan : Fan} {p q : Nat} (h : fan.RunsAt p) (h' : fan.RunsAt q) : p = q :=
  h.1.symm.trans h'.1

end Fan

def EachFan (P : Fan → Prop) (priv : BoardMgr) : Prop := ∀ fan ∈ priv.fans, fan.valid = true → P fan

variable {priv priv' : BoardMgr}

theorem eachFan_map {P : Fan → Prop} {pct : Fan → Nat}
    (hfans : priv'.fans = priv.fans.map fun fan => if fan.valid then fan.setFanDuty (pct fan) else fan) :
    EachFan P priv' ↔ EachFan (fun fan => P (fan.setFanDuty (pct fan))) priv := by
  unfold EachFan
  rw [hfans, List.forall_mem_map]
  refine forall₂_congr fun fan _ => ?_
  by_cases hv : fan.valid = true <;> simp [hv]

inductive WarnGoes (priv : BoardMgr) : BoardMgr → Prop where
  | full (hot : priv.tempC > priv.tempWarnC) (h : ntcWarnCycles ≤ (priv.warnCycles + 1) % 2 ^ 32) :
      WarnGoes priv (setAllFansFull { priv with warnCycles := (priv.warnCycles + 1) % 2 ^ 32 })
  | hot (hot : priv.tempC > priv.tempWarnC) (h : (priv.warnCycles + 1) % 2 ^ 32 < ntcWarnCycles) :
      WarnGoes priv { priv with warnCycles := (priv.warnCycles + 1) % 2 ^ 32 }
  | cool (cool : priv.tempC ≤ priv.tempWarnC) : WarnGoes priv { priv with warnCycles := 0 }

theorem warnCheck_goes (priv : BoardMgr) : WarnGoes priv (warnCheck priv) := by
  simp only [warnCheck]
  split
  · rename_i hot
    split
    · rename_i h; exact .full hot h
    · rename_i h; exact .hot hot (Nat.not_le.mp h)
  · rename_i cool; exact .cool (Int.not_lt.mp cool)

inductive PoweroffGoes (priv : BoardMgr) : BoardMgr → Prop where
  | off (hot : priv.tempC > priv.tempPoweroffC) :
      PoweroffGoes priv { priv with poweroffCycles := (priv.poweroffCycles + 1) % 2 ^ 32, off := true }
  | hot (hot : priv.tempC > priv.tempPoweroffC) (h : (priv.poweroffCycles + 1) % 2 ^ 32 < ntcPoweroffCycles) :
      PoweroffGoes priv { priv with poweroffCycles := (priv.poweroffCycles + 1) % 2 ^ 32 }
  | cool (cool : priv.tempC ≤ priv.tempPoweroffC) : PoweroffGoes priv { priv with poweroffCycles := 0 }

theorem poweroffCheck_goes (priv : BoardMgr) : PoweroffGoes priv (poweroffCheck priv) := by
  simp only [poweroffCheck]
  split
  · rename_i hot
    split
    · exact .off hot
    · rename_i h; exact .hot hot (Nat.not_le.mp h)
  · rename_i cool; exact .cool (Int.not_lt.mp cool)

theorem WarnGoes.frame (h : WarnGoes priv priv') :
    ∃ fans cycles, priv' = { priv with fans := fans, warnCycles := cycles } := by
  cases h <;> exact ⟨_, _, rfl⟩

theorem PoweroffGoes.frame (h : PoweroffGoes priv priv') :
    ∃ cycles off, priv' = { priv with poweroffCycles := cycles, off := off } := by
  cases h <;> exact ⟨_, _, rfl⟩

theorem ntcWorkFn_skip {adcVal : Int} (h : ¬ (priv.enabled = true ∧ 0 ≤ adcVal)) :
    ntcWorkFn priv adcVal = priv := by
  unfold ntcWorkFn
  split
  · rfl
  split
  · rfl
  · rename_i he hn
    exact absurd ⟨not_not.mp he, Int.not_lt.mp hn⟩ h

theorem ntcWorkFn_goes {adcVal : Int} (he : priv.enabled = true) (hn : 0 ≤ adcVal) :
    ∃ priv₁, WarnGoes { priv with tempC := ntcAdcToTemp priv.ntcTable adcVal } priv₁ ∧
      PoweroffGoes priv₁ (ntcWorkFn priv adcVal) := by
  unfold ntcWorkFn
  rw [if_neg (not_not.mpr he), if_neg (Int.not_lt.mpr hn)]
  exact ⟨_, warnCheck_goes _, poweroffCheck_goes _⟩

structure Configured (cfg : Config) (priv : BoardMgr) : Prop where
  table : priv.ntcTable = cfg.ntcTable
  enabled : priv.enabled = cfg.enabled
  poweroff : priv.tempPoweroffC = cfg.tempPoweroffC
  warn : priv.tempWarnC = cfg.tempWarnC

theorem Configured.ntcWorkFn {cfg : Config} (h : Configured cfg priv) (adcVal : Int) :
    Configured cfg (ntcWorkFn priv adcVal) := by
  by_cases hread : priv.enabled = true ∧ 0 ≤ adcVal
  · obtain ⟨priv₁, hwarn, hoff⟩ := ntcWorkFn_goes hread.1 hread.2
    obtain ⟨cycles, off, hp⟩ := hoff.frame
    obtain ⟨fans, warn, rfl⟩ := hwarn.frame
    rw [hp]
    exact ⟨h.table, h.enabled, h.poweroff, h.warn⟩
  · rw [ntcWorkFn_skip hread]
    exact h

theorem Configured.setCurState {cfg : Config} (h : Configured cfg priv) (state : Nat) :
    Configured cfg (setCurState priv state) :=
  ⟨h.table, h.enabled, h.poweroff, h.warn⟩

theorem configured_probe (cfg : Config) : Configured cfg (probe cfg) := ⟨rfl, rfl, rfl, rfl⟩

namespace History

variable {cfg : Config} {h : History} {adcVal : Int}

theorem step_skip (hs : ¬ (cfg.enabled = true ∧ 0 ≤ adcVal)) : h.step cfg (.poll adcVal) = h := if_neg hs

theorem samples_step (hs : cfg.enabled = true ∧ 0 ≤ adcVal) :
    (h.step cfg (.poll adcVal)).samples = h.samples ++ [adcVal] := by
  simp only [step, if_pos hs]

theorem temps_step (hs : cfg.enabled = true ∧ 0 ≤ adcVal) :
    (h.step cfg (.poll adcVal)).temps cfg = h.temps cfg ++ [ntcAdcToTemp cfg.ntcTable adcVal] := by
  unfold temps
  rw [samples_step hs, List.map_append, List.map_singleton]

end History

end H713.Board
