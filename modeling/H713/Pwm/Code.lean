import H713.Lib.Field
import Mathlib.Logic.Function.Basic

/-!
# Pwm.Code

`sun8i_pwm_get_state` and `sun8i_pwm_apply` over the registers of the block. A channel counts a clock that is
divided twice, by a power of two for the pair of channels (`PCCR`) and by a prescaler of its own (`CTL`).
-/

namespace H713.Pwm

def pccr (pair : Nat) : Nat := 0x020 + pair * 4
def clkGate : Nat := 0x040
def enable : Nat := 0x080
def ctl (ch : Nat) : Nat := 0x100 + ch * 0x20
def period (ch : Nat) : Nat := 0x104 + ch * 0x20

def clkSrcHosc : Nat := 0
def clkSrcApb : Nat := 1
def maxCycles : Nat := 0xFFFF
def nsecPerSec : Nat := 1000000000

abbrev Regs := Nat → BitVec 32

def Regs.writel (r : Regs) (val : BitVec 32) (offset : Nat) : Regs := Function.update r offset val

/-- The rates `clk_get_rate` gives for the two source clocks; `apb` is optional. -/
structure Chip where
  hosc : Nat
  apb : Option Nat

def Chip.rate? (chip : Chip) (src : Nat) : Option Nat :=
  if src = clkSrcHosc then some chip.hosc else if src = clkSrcApb then chip.apb else none

inductive Polarity where
  | normal
  | inversed
  deriving DecidableEq

structure PwmState where
  period : Nat
  dutyCycle : Nat
  polarity : Polarity
  enabled : Bool
  deriving DecidableEq

def divU64 (dividend divisor : Nat) : Option Nat :=
  if divisor % 2 ^ 32 = 0 then none else some (dividend / (divisor % 2 ^ 32))

def Chip.pairRate (chip : Chip) (clkSrc divM : Nat) : Nat :=
  let rate := if clkSrc = clkSrcApb then chip.apb.getD chip.hosc else chip.hosc
  (if rate = 0 then 24000000 else rate) >>> divM

def clkSrc (ch : Fin 8) (r : Regs) : Nat := (fieldGet 8 7 (r (pccr (ch / 2)))).toNat
def divM (ch : Fin 8) (r : Regs) : Nat := (fieldGet 3 0 (r (pccr (ch / 2)))).toNat
def prescaler (ch : Fin 8) (r : Regs) : Nat := (fieldGet 7 0 (r (ctl ch))).toNat
def entireCycles (ch : Fin 8) (r : Regs) : Nat := (fieldGet 31 16 (r (period ch))).toNat + 1
def activeField (ch : Fin 8) (r : Regs) : Nat := (fieldGet 15 0 (r (period ch))).toNat

def times (clkRate : Nat) (ch : Fin 8) (r : Regs) : Option (Nat × Nat) := do
  let clkRate ← divU64 clkRate (prescaler ch r + 1)
  let period ← divU64 (entireCycles ch r * nsecPerSec) clkRate
  let dutyCycle ← divU64 (activeField ch r * nsecPerSec) clkRate
  return (period, dutyCycle)

def getState (chip : Chip) (ch : Fin 8) (r : Regs) : Option PwmState :=
  (times (chip.pairRate (clkSrc ch r) (divM ch r)) ch r).map fun t => {
    period := t.1
    dutyCycle := t.2
    polarity := if (r (ctl ch)).getLsbD 8 then .normal else .inversed
    enabled := (r enable).getLsbD ch }

def cycles (dividedRate periodNs prescaler : Nat) : Nat :=
  (divU64 (dividedRate * periodNs % 2 ^ 64) (nsecPerSec * (prescaler + 1))).getD 0

structure Best where
  cycles : Nat
  src : Nat
  m : Nat
  prescaler : Nat
  deriving DecidableEq

def firstFit (dividedRate periodNs : Nat) : (n prescaler : Nat) → Option (Nat × Nat)
  | 0, _ => none
  | n + 1, prescaler =>
    let c := cycles dividedRate periodNs prescaler
    if c = 0 then none
    else if c > maxCycles then firstFit dividedRate periodNs n (prescaler + 1)
    else some (prescaler, c)

def Best.take (best : Best) (src m : Nat) : Option (Nat × Nat) → Best
  | none => best
  | some (prescaler, c) => if c > best.cycles then ⟨c, src, m, prescaler⟩ else best

def tryDividers (rate periodNs src : Nat) : (n m : Nat) → Best → Best
  | 0, _, best => best
  | n + 1, m, best =>
    let dividedRate := rate >>> m
    if dividedRate = 0 then best
    else tryDividers rate periodNs src n (m + 1) (best.take src m (firstFit dividedRate periodNs 256 0))

def trySource (chip : Chip) (periodNs : Nat) (best : Best) (src : Nat) : Best :=
  match chip.rate? src with
  | none => best
  | some rate => if rate = 0 then best else tryDividers rate periodNs src 9 0 best

def search (chip : Chip) (periodNs : Nat) : Best :=
  [clkSrcHosc, clkSrcApb].foldl (trySource chip periodNs) ⟨0, clkSrcHosc, 0, 0⟩

def findClock (chip : Chip) (periodNs : Nat) : Option Best :=
  if periodNs = 0 then none
  else if (search chip periodNs).cycles = 0 then none
  else some (search chip periodNs)

def activeCycles (entireCycles dutyCycle period : Nat) : Option Nat :=
  if dutyCycle ≥ period then some entireCycles
  else if dutyCycle = 0 then some 0
  else (divU64 (entireCycles * dutyCycle % 2 ^ 64) period).map (· % 2 ^ 32)

def pccrVal (old : BitVec 32) (clkSrc divM : Nat) : BitVec 32 :=
  old &&& ~~~(genmask 8 7 ||| genmask 3 0) ||| (fieldPrep 8 7 (.ofNat 32 clkSrc) ||| fieldPrep 3 0 (.ofNat 32 divM))

def periodVal (entireCycles activeCycles : Nat) : BitVec 32 :=
  fieldPrep 31 16 (.ofNat 32 (entireCycles - 1)) ||| fieldPrep 15 0 (.ofNat 32 activeCycles)

def ctlVal (old : BitVec 32) (prescaler : Nat) (polarity : Polarity) : BitVec 32 :=
  let val := old &&& ~~~(genmask 7 0 ||| .twoPow 32 8) ||| fieldPrep 7 0 (.ofNat 32 prescaler)
  match polarity with
  | .normal => val ||| .twoPow 32 8
  | .inversed => val

def program (ch : Fin 8) (best : Best) (active : Nat) (polarity : Polarity) (r : Regs) : Regs :=
  let r := r.writel (pccrVal (r (pccr (ch / 2))) best.src best.m) (pccr (ch / 2))
  let r := r.writel (r clkGate ||| .twoPow 32 ch) clkGate
  let r := r.writel (periodVal best.cycles active) (period ch)
  let r := r.writel (ctlVal (r (ctl ch)) best.prescaler polarity) (ctl ch)
  r.writel (r enable ||| .twoPow 32 ch) enable

def apply (chip : Chip) (ch : Fin 8) (state : PwmState) (r : Regs) : Option (Int × Regs) :=
  if ¬ state.enabled then
    let r := r.writel (r enable &&& ~~~ .twoPow 32 ch) enable
    some (0, r.writel (r clkGate &&& ~~~ .twoPow 32 ch) clkGate)
  else
    match findClock chip state.period with
    | none => some (-22, r)
    | some best =>
      (activeCycles best.cycles state.dutyCycle state.period).map fun active =>
        (0, program ch best active state.polarity r)

section

variable {old : BitVec 32} {n a : Nat}

theorem clkSrc_pccrVal (hn : n < 4) : (fieldGet 8 7 (pccrVal old n a)).toNat = n := by
  refine Field.toNat_get (by decide) (by decide) hn fun i h1 h2 => ?_
  have h3 : ¬ i ≤ 3 := by omega
  simp [pccrVal, Field.getLsbD_genmask, Field.getLsbD_prep, h1, h2, h3]

theorem divM_pccrVal (ha : a < 16) : (fieldGet 3 0 (pccrVal old n a)).toNat = a := by
  refine Field.toNat_get (by decide) (by decide) ha fun i _ h2 => ?_
  have h7 : ¬ 7 ≤ i := by omega
  simp [pccrVal, Field.getLsbD_genmask, Field.getLsbD_prep, h2, h7]

theorem entire_periodVal (hn : n - 1 < 2 ^ 16) : (fieldGet 31 16 (periodVal n a)).toNat = n - 1 := by
  refine Field.toNat_get (by decide) (by decide) hn fun i h1 h2 => ?_
  have h15 : ¬ i ≤ 15 := by omega
  simp [periodVal, Field.getLsbD_prep, h1, h2, h15]

theorem active_periodVal : (fieldGet 15 0 (periodVal n a)).toNat = a % 2 ^ 16 := by
  refine Field.toNat_get (by decide) (by decide) (Nat.mod_lt _ (by decide)) fun i _ h2 => ?_
  have h16 : ¬ 16 ≤ i := by omega
  have hmod : (a % 65536).testBit i = a.testBit i := by
    rw [Nat.testBit_mod_two_pow a 16 i, decide_eq_true (by omega), Bool.true_and]
  simp [periodVal, Field.getLsbD_prep, h2, h16, BitVec.getLsbD_ofNat, hmod]

theorem prescaler_lt (ch : Fin 8) (r : Regs) : prescaler ch r < 2 ^ 8 := by
  rw [prescaler, fieldGet, BitVec.toNat_ushiftRight, Nat.shiftRight_zero, BitVec.toNat_and]
  exact Nat.and_lt_two_pow _ (by decide)

theorem prescaler_ctlVal (hn : n < 2 ^ 8) (pol : Polarity) : (fieldGet 7 0 (ctlVal old n pol)).toNat = n := by
  refine Field.toNat_get (by decide) (by decide) hn fun i _ h2 => ?_
  have h8 : ¬ 8 = i := by omega
  cases pol with
  | normal => simp [ctlVal, Field.getLsbD_genmask, Field.getLsbD_prep, h2, h8]
  | inversed => simp [ctlVal, Field.getLsbD_genmask, Field.getLsbD_prep, h2]

theorem actHigh_ctlVal (old : BitVec 32) (n : Nat) (pol : Polarity) :
    (ctlVal old n pol).getLsbD 8 = decide (pol = .normal) := by
  cases pol with
  | normal => simp [ctlVal]
  | inversed =>
    simp only [ctlVal, BitVec.getLsbD_or, BitVec.getLsbD_and, BitVec.getLsbD_not, BitVec.getLsbD_twoPow,
      Field.getLsbD_prep (show 7 < 32 by decide)]
    simp

end

end H713.Pwm
