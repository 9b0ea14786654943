import H713.Lib.Field
import H713.Mmc.Code

/-!
# Mmc.Registers

The bus and timing registers across a CMD53 retry, which resets the controller. `BusRegs.setIos` is how a bus is
configured; what the patches leave as it is in it, the width and the DDR bit, is the kernel's driver.
-/

namespace H713.Mmc

structure BusRegs where
  gctrl : BitVec 32
  clkcr : BitVec 32
  width : BitVec 32
  ntsr : BitVec 32
  clkMode : BitVec 32
  thld : BitVec 32
  dsClk : BitVec 32
  drvDl : BitVec 32
  sampDl : BitVec 32
  dsDl : BitVec 32

def bit (i : Nat) : BitVec 32 := .twoPow 32 i

def cardClockOn : BitVec 32 := bit 16
def lowPowerOn : BitVec 32 := bit 17
def maskData0 : BitVec 32 := bit 31

def dmaReset : BitVec 32 := bit 2
def interruptEnable : BitVec 32 := bit 4
def dmaEnable : BitVec 32 := bit 5
def ddrMode : BitVec 32 := bit 10
def accessDoneDirect : BitVec 32 := bit 30

def BusRegs.ddr (r : BusRegs) : Bool := r.gctrl.getLsbD 10

def samplePhases : BitVec 32 := genmask 5 4 ||| genmask 9 8
def drvCmdEn : BitVec 32 := bit 16
def drvDatEn : BitVec 32 := bit 17

def BusRegs.setPhases (r : BusRegs) (cmd dat : Nat) : BusRegs :=
  { r with ntsr := (r.ntsr &&& ~~~ samplePhases) ||| fieldPrep 5 4 (.ofNat 32 cmd) ||| fieldPrep 9 8 (.ofNat 32 dat) }

inductive Timing where
  | legacy | mmcHs | sdHs | uhsSdr12 | uhsSdr25 | uhsSdr50 | uhsSdr104 | uhsDdr50 | mmcDdr52 | mmcHs200 | mmcHs400
deriving DecidableEq

inductive BusWidth where
  | one | four | eight
deriving DecidableEq

structure Ios where
  rate : Nat
  busWidth : BusWidth
  timing : Timing

def Ios.delays (ios : Ios) : Bool × Nat × Nat :=
  if ios.rate ≤ 26000000 ∧ ios.timing = .uhsSdr25 then (true, 1, 0)
  else if ios.rate > 26000000 ∧ ios.rate ≤ 52000000 then
    if ios.busWidth = .four ∧ ios.timing = .uhsDdr50 then (false, 2, 2) else (true, 1, 1)
  else if ios.rate > 52000000 ∧ ios.rate ≤ 104000000 then (true, 1, 1)
  else if ios.rate > 104000000 then (false, 1, 1)
  else (false, 0, 0)

def BusRegs.setV5p3xDelays (r : BusRegs) (ios : Ios) : BusRegs :=
  let (datDrv, cmd, dat) := ios.delays
  let r := { r with
    drvDl := (r.drvDl &&& ~~~ (drvCmdEn ||| drvDatEn)) ||| drvCmdEn ||| (if datDrv then drvDatEn else 0) }
  { r.setPhases cmd dat with sampDl := 0x2000, dsDl := 0x2000 }

def BusRegs.setHs400 (r : BusRegs) (ios : Ios) : BusRegs :=
  if ios.timing = .mmcHs400 then
    { r with dsClk := r.dsClk ||| bit 31, clkMode := (r.clkMode &&& ~~~ 0xf) ||| 6, dsDl := 0x84 }
  else { r with dsClk := r.dsClk &&& ~~~ bit 31, clkMode := (r.clkMode &&& ~~~ 0xf) ||| 3 }

def BusRegs.oclkOnoff (r : BusRegs) (on ok : Bool) : BusRegs :=
  let clkcr := (r.clkcr &&& ~~~ (cardClockOn ||| lowPowerOn ||| maskData0)) ||| (if on then cardClockOn else 0) |||
    maskData0
  { r with clkcr := if ok then clkcr &&& ~~~ maskData0 else clkcr }

def BusRegs.clkSetRate (r : BusRegs) (ios : Ios) : BusRegs :=
  ((r.setV5p3xDelays ios).setHs400 ios).oclkOnoff true true

def BusRegs.setBusWidth (r : BusRegs) : BusWidth → BusRegs
  | .one => { r with width := 0 }
  | .four => { r with width := 1 }
  | .eight => { r with width := 2 }

def BusRegs.setClk (r : BusRegs) (ios : Ios) : BusRegs :=
  let gctrl :=
    if ios.timing = .uhsDdr50 ∨ ios.timing = .mmcDdr52 then r.gctrl ||| ddrMode else r.gctrl &&& ~~~ ddrMode
  { r with gctrl := gctrl }.clkSetRate ios

def BusRegs.setIos (r : BusRegs) (ios : Ios) : BusRegs := (r.setBusWidth ios.busWidth).setClk ios

def BusRegs.restore (r' r : BusRegs) : BusRegs :=
  { r' with
    ntsr := r.ntsr, drvDl := r.drvDl, sampDl := r.sampDl, dsDl := r.dsDl, thld := r.thld
    gctrl := (r'.gctrl ||| interruptEnable) &&& ~~~ accessDoneDirect }

def BusRegs.rotate (r' : BusRegs) (idx : Nat) : BusRegs :=
  let row := phaseTable.getD idx (0, 0, 0)
  { r'.setPhases row.1 row.2.1 with
    drvDl := (r'.drvDl &&& ~~~ drvDatEn) ||| (if row.2.2 ≠ 0 then drvDatEn else 0) }

def BusRegs.rearm (r' r : BusRegs) (fifo : Bool) (idx : Nat) (map : Bool) : BusRegs :=
  let r' := r'.restore r
  let r' := if fifo then r' else r'.rotate idx
  if ¬ map then r' else { r' with gctrl := r'.gctrl ||| dmaEnable ||| dmaReset }

def BusRegs.retry (r reset : BusRegs) (hasReset : Bool) (env : Sys.RetryEnv) (fifo : Bool) (idx : Nat) : BusRegs :=
  if idx ≥ retryLimit fifo then r
  else
    let r' := if hasReset then reset else r
    if ¬ env.clk then r'
    else
      let r' := { r' with clkcr := r.clkcr &&& ~~~ cardClockOn, width := r.width }
      let r' := r'.oclkOnoff (r.clkcr.getLsbD 16) env.oclk
      if ¬ env.oclk then r' else r'.rearm r fifo idx env.map

/-- The registers are as before; a retry for the phases may change these. -/
structure Kept (fifo : Bool) (r r' : BusRegs) : Prop where
  clkcr : r'.clkcr = r.clkcr
  width : r'.width = r.width
  clkMode : r'.clkMode = r.clkMode
  thld : r'.thld = r.thld
  dsClk : r'.dsClk = r.dsClk
  sampDl : r'.sampDl = r.sampDl
  dsDl : r'.dsDl = r.dsDl
  ddr : r'.ddr = r.ddr
  ntsr : if fifo then r'.ntsr = r.ntsr else r'.ntsr &&& ~~~ samplePhases = r.ntsr &&& ~~~ samplePhases
  drvDl : if fifo then r'.drvDl = r.drvDl else r'.drvDl &&& ~~~ drvDatEn = r.drvDl &&& ~~~ drvDatEn

theorem Kept.refl (fifo : Bool) (r : BusRegs) : Kept fifo r r := by
  constructor <;> cases fifo <;> rfl

/-- The card clock runs, and no update of it is under way. -/
structure BusRegs.Running (r : BusRegs) : Prop where
  on : r.clkcr.getLsbD 16 = true
  awake : r.clkcr.getLsbD 17 = false
  unmasked : r.clkcr.getLsbD 31 = false

theorem running_oclkOnoff (r : BusRegs) : (r.oclkOnoff true true).Running := by
  constructor <;> simp [BusRegs.oclkOnoff, cardClockOn, lowPowerOn, maskData0, bit]

theorem running_setIos (r : BusRegs) (ios : Ios) : (r.setIos ios).Running := running_oclkOnoff _

/-- A retry that fails before the reset, or that loses nothing by it. -/
def Survives (reset : BusRegs) (hasReset : Bool) (env : Sys.RetryEnv) (fifo : Bool) (idx : Nat)
    (r : BusRegs) : Prop :=
  retryLimit fifo ≤ idx ∨ (env.clk = false ∧ hasReset = false) ∨
    (env.clk ∧ env.oclk ∧ (hasReset → reset.clkMode = r.clkMode ∧ reset.dsClk = r.dsClk ∧ reset.ddr = r.ddr))

theorem oclkOnoff_restores {r r' : BusRegs} (hr : r.Running) (h : r'.clkcr = r.clkcr &&& ~~~ cardClockOn) :
    (r'.oclkOnoff (r.clkcr.getLsbD 16) true).clkcr = r.clkcr := by
  obtain ⟨-, h17, h31⟩ := hr
  refine BitVec.eq_of_getLsbD_eq fun i hi => ?_
  simp only [BusRegs.oclkOnoff, h, cardClockOn, lowPowerOn, maskData0, bit, if_true]
  by_cases h16 : i = 16
  · subst h16
    cases r.clkcr.getLsbD 16 <;> simp
  · by_cases hlow : i = 17 ∨ i = 31
    · rcases hlow with rfl | rfl
      · cases r.clkcr.getLsbD 16 <;> simpa using h17
      · cases r.clkcr.getLsbD 16 <;> simpa using h31
    · cases r.clkcr.getLsbD 16 <;> simp [BitVec.getLsbD_twoPow] <;> grind

theorem oclkOnoff_masked (r : BusRegs) (on : Bool) : (r.oclkOnoff on false).clkcr.getLsbD 31 = true := by
  simp [BusRegs.oclkOnoff, maskData0, bit]

theorem setPhases_outside (r : BusRegs) (cmd dat : Nat) :
    (r.setPhases cmd dat).ntsr &&& ~~~ samplePhases = r.ntsr &&& ~~~ samplePhases := by
  refine BitVec.eq_of_getLsbD_eq fun i hi => ?_
  simp only [BusRegs.setPhases, samplePhases, BitVec.getLsbD_and, BitVec.getLsbD_or, BitVec.getLsbD_not,
    Field.getLsbD_genmask (show 5 < 32 by decide), Field.getLsbD_genmask (show 9 < 32 by decide),
    Field.getLsbD_prep (show 5 < 32 by decide), Field.getLsbD_prep (show 9 < 32 by decide)]
  grind

theorem drvDl_outside (x : BitVec 32) (on : Prop) [Decidable on] :
    ((x &&& ~~~ drvDatEn) ||| (if on then drvDatEn else 0)) &&& ~~~ drvDatEn = x &&& ~~~ drvDatEn := by
  refine BitVec.eq_of_getLsbD_eq fun i hi => ?_
  split
  · simp [drvDatEn, bit, BitVec.getLsbD_twoPow]
    grind
  · simp

theorem ddr_rearm (r' r : BusRegs) (fifo : Bool) (idx : Nat) (map : Bool) :
    (r'.rearm r fifo idx map).ddr = r'.ddr := by
  cases fifo <;> cases map <;>
    simp [BusRegs.rearm, BusRegs.restore, BusRegs.rotate, BusRegs.setPhases, BusRegs.ddr, interruptEnable,
      accessDoneDirect, dmaEnable, dmaReset, bit]

theorem rearm_kept_iff {r' r : BusRegs} (hclkcr : r'.clkcr = r.clkcr) (hwidth : r'.width = r.width) (fifo : Bool)
    (idx : Nat) (map : Bool) :
    Kept fifo r (r'.rearm r fifo idx map) ↔ r'.clkMode = r.clkMode ∧ r'.dsClk = r.dsClk ∧ r'.ddr = r.ddr := by
  have hmode : (r'.rearm r fifo idx map).clkMode = r'.clkMode := by cases fifo <;> cases map <;> rfl
  have hds : (r'.rearm r fifo idx map).dsClk = r'.dsClk := by cases fifo <;> cases map <;> rfl
  refine ⟨fun hk => ⟨hmode ▸ hk.clkMode, hds ▸ hk.dsClk, ddr_rearm r' r fifo idx map ▸ hk.ddr⟩,
    fun ⟨h1, h2, h3⟩ => ?_⟩
  refine ⟨?_, ?_, hmode.trans h1, ?_, hds.trans h2, ?_, ?_, (ddr_rearm r' r fifo idx map).trans h3, ?_, ?_⟩
  · rw [← hclkcr]
    cases fifo <;> cases map <;> rfl
  · rw [← hwidth]
    cases fifo <;> cases map <;> rfl
  · cases fifo <;> cases map <;> rfl
  · cases fifo <;> cases map <;> rfl
  · cases fifo <;> cases map <;> rfl
  · cases fifo with
    | true => cases map <;> rfl
    | false => cases map <;> exact setPhases_outside (r'.restore r) _ _
  · cases fifo with
    | true => cases map <;> rfl
    | false => cases map <;> exact drvDl_outside r.drvDl _

/-- The retry keeps the bus state exactly when it survives the reset, which stops the card clock. -/
theorem retry_kept_iff {r reset : BusRegs} (hr : r.Running) (hoff : reset.clkcr.getLsbD 16 = false)
    (hasReset : Bool) (env : Sys.RetryEnv) (fifo : Bool) (idx : Nat) :
    Kept fifo r (r.retry reset hasReset env fifo idx) ↔ Survives reset hasReset env fifo idx r := by
  obtain ⟨clk, oclk, map⟩ := env
  by_cases hidx : idx ≥ retryLimit fifo
  · rw [BusRegs.retry, if_pos hidx]
    exact iff_of_true (.refl fifo r) (.inl hidx)
  cases clk with
  | false =>
    have hret : r.retry reset hasReset ⟨false, oclk, map⟩ fifo idx = if hasReset then reset else r := by
      rw [BusRegs.retry, if_neg hidx]
      simp
    rw [hret]
    cases hasReset with
    | false => exact iff_of_true (.refl fifo r) (.inr (.inl ⟨rfl, rfl⟩))
    | true =>
      -- the card clock is off, and nothing is restored
      refine iff_of_false (fun hk => ?_) (by simp [Survives, hidx])
      have hon := hr.on
      rw [← hk.clkcr, if_pos rfl, hoff] at hon
      cases hon
  | true =>
    cases oclk with
    | false =>
      refine iff_of_false (fun hk => ?_) ?_
      · have hmask := hk.clkcr
        rw [BusRegs.retry, if_neg hidx] at hmask
        simp only [not_true, if_false, Bool.false_eq_true, not_false_iff, if_true] at hmask
        have hbit := congrArg (fun x => x.getLsbD 31) hmask
        simp only [oclkOnoff_masked, hr.unmasked] at hbit
        cases hbit
      · simp [Survives, hidx]
    | true =>
      rw [BusRegs.retry, if_neg hidx]
      simp only [not_true, if_false]
      rw [rearm_kept_iff ?_ ?_]
      rotate_left
      · exact oclkOnoff_restores hr rfl
      · rfl
      cases hasReset with
      | false => exact iff_of_true ⟨rfl, rfl, rfl⟩ (.inr (.inr ⟨rfl, rfl, fun h => by cases h⟩))
      | true => simp [Survives, hidx, BusRegs.oclkOnoff, BusRegs.ddr]

def zeros : BusRegs := ⟨0, 0, 0, 0, 0, 0, 0, 0, 0, 0⟩

def configured (timing : Timing) : BusRegs := zeros.setIos ⟨50000000, .four, timing⟩

def allOk : Sys.RetryEnv := ⟨true, true, true⟩

theorem ddr_retry (r reset : BusRegs) : (r.retry reset true allOk true 0).ddr = reset.ddr := by
  rw [BusRegs.retry, if_neg (by decide)]
  simp only [allOk, not_true, if_false, if_true, ddr_rearm]
  rfl

theorem retry_kept_sdr : Kept true (configured .uhsSdr104)
    ((configured .uhsSdr104).retry { zeros with clkMode := 3 } true allOk true 0) :=
  (retry_kept_iff (running_setIos _ _) rfl _ _ _ _).mpr (.inr (.inr ⟨rfl, rfl, fun _ => ⟨rfl, rfl, rfl⟩⟩))

theorem retry_loses_ddr : ¬ ∃ reset : BusRegs, ∀ timing ∈ [Timing.uhsSdr104, .uhsDdr50],
    ((configured timing).retry reset true allOk true 0).ddr = (configured timing).ddr := by
  rintro ⟨reset, h⟩
  have hsdr := (ddr_retry _ reset).symm.trans (h .uhsSdr104 (by simp))
  have hddr := (ddr_retry _ reset).symm.trans (h .uhsDdr50 (by simp))
  exact absurd (hsdr.symm.trans hddr) (by decide)

end H713.Mmc
