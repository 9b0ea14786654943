import H713.Pwm.Clock

/-!
# Pwm.State

What `sun8i_pwm_apply` does to what `sun8i_pwm_get_state` reports. The two channels of a pair share a source clock
and its divider, and both conversions round down.
-/

namespace H713.Pwm

open Function

section

variable {ch : Fin 8} {b : Best} {active : Nat} {pol : Polarity} {r : Regs}

theorem program_pccr {k : Nat} (hk : k < 4) : program ch b active pol r (pccr k) =
    if k = ch / 2 then pccrVal (r (pccr k)) b.src b.m else r (pccr k) := by
  have hch := ch.isLt
  simp only [program, Regs.writel, update_apply, enable, ctl, period, clkGate, pccr]
  grind

theorem program_ctl (o : Fin 8) : program ch b active pol r (ctl o) =
    if o = ch then ctlVal (r (ctl o)) b.prescaler pol else r (ctl o) := by
  have ho := o.isLt
  have hch := ch.isLt
  simp only [program, Regs.writel, update_apply, enable, ctl, period, clkGate, pccr, Fin.ext_iff]
  grind

theorem program_period (o : Fin 8) : program ch b active pol r (period o) =
    if o = ch then periodVal b.cycles active else r (period o) := by
  have ho := o.isLt
  have hch := ch.isLt
  simp only [program, Regs.writel, update_apply, enable, ctl, period, clkGate, pccr, Fin.ext_iff]
  grind

theorem program_enable : program ch b active pol r enable = r enable ||| .twoPow 32 ch := by
  have hch := ch.isLt
  simp only [program, Regs.writel, update_apply, enable, ctl, period, clkGate, pccr]
  grind

end

variable {chip : Chip} {P : Nat} {b : Best}

section

variable (ch : Fin 8) (pol : Polarity) (r : Regs)

include ch pol r

theorem apply_none {D : Nat} (h : findClock chip P = none) : apply chip ch ⟨P, D, pol, true⟩ r = some (-22, r) := by
  simp only [apply, not_true, if_false, h]

theorem apply_some {D : Nat} (h : findClock chip P = some b) :
    apply chip ch ⟨P, D, pol, true⟩ r =
      (activeCycles b.cycles D P).map fun active => (0, program ch b active pol r) := by
  simp only [apply, not_true, if_false, h]

theorem apply_found {D : Nat} (h : findClock chip P = some b) (hD : D ≤ P) (hP : P < 2 ^ 32) :
    apply chip ch ⟨P, D, pol, true⟩ r = some (0, program ch b (b.cycles * D / P) pol r) := by
  obtain ⟨h0, hw⟩ := findClock_eq_some_iff.mp h
  rw [apply_some ch pol r h, activeCycles_eq hw.fits.range.2 hD (Nat.pos_of_ne_zero h0) hP]
  rfl

end

def partner (ch : Fin 8) : Fin 8 := ⟨if ch.val % 2 = 0 then ch.val + 1 else ch.val - 1, by split <;> omega⟩

def clockAt (clkRate : Nat) (ch : Fin 8) (r : Regs) : Nat := clkRate / (prescaler ch r + 1) % 2 ^ 32

def clock (chip : Chip) (ch : Fin 8) (r : Regs) : Nat := clockAt (chip.pairRate (clkSrc ch r) (divM ch r)) ch r

def SameClock (ch : Fin 8) (r : Regs) (c c' : Nat) : Prop :=
  c' = c ∨ (c ≠ 0 ∧ c' ≠ 0 ∧ entireCycles ch r * nsecPerSec / c' = entireCycles ch r * nsecPerSec / c ∧
    activeField ch r * nsecPerSec / c' = activeField ch r * nsecPerSec / c)

/-- The source and divider that are best for the request leave the clock of the other channel of the pair. -/
def Undisturbed (chip : Chip) (ch : Fin 8) (state : PwmState) (r : Regs) : Prop :=
  state.enabled → state.period ≠ 0 → ∀ b, Wins chip state.period b →
    SameClock (partner ch) r (clock chip (partner ch) r) (clockAt (chip.pairRate b.src b.m) (partner ch) r)

section

variable {chip : Chip} {ch o : Fin 8} {r r' : Regs}

theorem partner_div (ch : Fin 8) : (partner ch : Nat) / 2 = ch / 2 := by
  simp only [partner]
  split <;> omega

theorem partner_ne (ch : Fin 8) : partner ch ≠ ch := by
  simp only [partner, ne_eq, Fin.ext_iff]
  split <;> omega

theorem eq_partner (hne : o ≠ ch) (h : (o : Nat) / 2 = ch / 2) : o = partner ch := by
  simp only [partner, ne_eq, Fin.ext_iff] at hne ⊢
  split <;> omega

theorem times_eq (clkRate : Nat) (ch : Fin 8) (r : Regs) : times clkRate ch r = if clockAt clkRate ch r = 0 then none
    else some (entireCycles ch r * nsecPerSec / clockAt clkRate ch r,
      activeField ch r * nsecPerSec / clockAt clkRate ch r) := by
  have hp := prescaler_lt ch r
  have hdiv : divU64 clkRate (prescaler ch r + 1) = some (clkRate / (prescaler ch r + 1)) := by
    rw [divU64, Nat.mod_eq_of_lt (by omega), if_neg (by omega)]
  have hquot : ∀ x, divU64 x (clkRate / (prescaler ch r + 1)) =
      if clockAt clkRate ch r = 0 then none else some (x / clockAt clkRate ch r) := fun _ => rfl
  by_cases h0 : clockAt clkRate ch r = 0 <;> simp [times, hdiv, hquot, h0]

theorem times_eq_iff {x x' : Nat} :
    times x' o r = times x o r ↔ SameClock o r (clockAt x o r) (clockAt x' o r) := by
  rw [times_eq, times_eq, SameClock]
  by_cases h0 : clockAt x o r = 0
  · by_cases h0' : clockAt x' o r = 0 <;> simp [h0, h0']
  · by_cases h0' : clockAt x' o r = 0
    · simp [h0, h0', Ne.symm h0]
    · simp only [if_neg h0, if_neg h0', Option.some.injEq, Prod.mk.injEq]
      refine ⟨fun h => .inr ⟨h0, h0', h⟩, ?_⟩
      rintro (h | ⟨-, -, h⟩)
      · rw [h]
        exact ⟨rfl, rfl⟩
      · exact h

theorem getState_eq_iff (hctl : r' (ctl o) = r (ctl o)) (hperiod : r' (period o) = r (period o))
    (hen : (r' enable).getLsbD o = (r enable).getLsbD o) : getState chip o r' = getState chip o r ↔
      SameClock o r (clock chip o r) (clockAt (chip.pairRate (clkSrc o r') (divM o r')) o r) := by
  have htimes : ∀ rate, times rate o r' = times rate o r := by
    intro rate
    simp only [times, prescaler, entireCycles, activeField, hctl, hperiod]
  rw [clock, ← times_eq_iff, getState, getState, hctl, hen, htimes]
  refine ⟨fun h => Option.map_injective ?_ h, fun h => by rw [h]⟩
  intro t t' h
  exact Prod.ext (congrArg PwmState.period h) (congrArg PwmState.dutyCycle h)

theorem program_other (b : Best) (active : Nat) (pol : Polarity) (hne : o ≠ ch) :
    program ch b active pol r (ctl o) = r (ctl o) ∧ program ch b active pol r (period o) = r (period o) ∧
      (program ch b active pol r enable).getLsbD o = (r enable).getLsbD o := by
  have hval : (ch : Nat) ≠ o := fun h => hne (Fin.ext h.symm)
  rw [program_ctl, if_neg hne, program_period, if_neg hne, program_enable]
  simp [hval]

end

/-- A request leaves the reports of all other channels as they were exactly when the source and divider that are best
for it leave the clock of the other channel of its pair. -/
theorem reports_kept_iff {chip : Chip} {ch : Fin 8} {state : PwmState} {r r' : Regs} {ret : Int}
    (h : apply chip ch state r = some (ret, r')) :
    (∀ o ≠ ch, getState chip o r' = getState chip o r) ↔ Undisturbed chip ch state r := by
  unfold apply at h
  split at h
  · rename_i hoff
    cases h
    refine iff_of_true (fun o hne => ?_) fun hen => absurd hen hoff
    have hval : (ch : Nat) ≠ o := fun h => hne (Fin.ext h.symm)
    have ho := o.isLt
    refine (getState_eq_iff ?_ ?_ ?_).mpr (.inl ?_)
    all_goals
      simp only [clock, clkSrc, divM, Regs.writel, update_apply, ctl, period, pccr, clkGate, enable]
      grind
  · rename_i hon
    simp only [not_not] at hon
    cases hfind : findClock chip state.period with
    | none =>
      simp only [hfind] at h
      cases h
      refine iff_of_true (fun _ _ => rfl) fun _ h0 b hb => ?_
      cases hfind.symm.trans (findClock_eq_some_iff.mpr ⟨h0, hb⟩)
    | some b =>
      simp only [hfind, Option.map_eq_some_iff] at h
      obtain ⟨active, -, he⟩ := h
      cases he
      obtain ⟨h0, hw⟩ := findClock_eq_some_iff.mp hfind
      have hsrc := hw.fits.src_le
      have hm := hw.fits.m
      have hpair : ∀ o : Fin 8, (o : Nat) / 2 = ch / 2 →
          clkSrc o (program ch b active state.polarity r) = b.src ∧
            divM o (program ch b active state.polarity r) = b.m := by
        intro o ho
        rw [clkSrc, divM, program_pccr (by omega), if_pos ho]
        exact ⟨clkSrc_pccrVal (by omega), divM_pccrVal (by omega)⟩
      refine ⟨fun hall _ _ b' hb' => ?_, fun hu o hne => ?_⟩
      · cases hb'.unique hw
        obtain ⟨hctl, hperiod, hen⟩ := program_other (r := r) b active state.polarity (partner_ne ch)
        have hrep := (getState_eq_iff hctl hperiod hen).mp (hall _ (partner_ne ch))
        rwa [(hpair _ (partner_div ch)).1, (hpair _ (partner_div ch)).2] at hrep
      · obtain ⟨hctl, hperiod, hen⟩ := program_other (r := r) b active state.polarity hne
        refine (getState_eq_iff hctl hperiod hen).mpr ?_
        by_cases ho : (o : Nat) / 2 = ch / 2
        · rw [(hpair o ho).1, (hpair o ho).2, eq_partner hne ho]
          exact hu hon h0 b hw
        · rw [clkSrc, divM, program_pccr (by omega), if_neg ho]
          exact .inl rfl

def oscOnly : Chip := ⟨24000000, none⟩

def oneRuns : Regs := Regs.writel (Regs.writel (fun _ => 0) (periodVal 24000 12000) (period 1)) 2 enable

theorem reports_kept_same_clock : ∃ ret r', apply oscOnly ⟨0, by decide⟩ ⟨1000000, 250000, .normal, true⟩ oneRuns =
    some (ret, r') ∧ ∀ o : Fin 8, o ≠ ⟨0, by decide⟩ → getState oscOnly o r' = getState oscOnly o oneRuns := by
  have hfind : findClock oscOnly 1000000 = some ⟨24000, clkSrcHosc, 0, 0⟩ := by decide +kernel
  have happly := apply_found (D := 250000) ⟨0, by decide⟩ .normal oneRuns hfind (by decide)
    (by decide)
  refine ⟨_, _, happly, (reports_kept_iff happly).mpr fun _ h0 b hb => .inl ?_⟩
  cases hfind.symm.trans (findClock_eq_some_iff.mpr ⟨h0, hb⟩)
  decide +kernel

theorem report_moved : ∃ ret r', apply oscOnly ⟨0, by decide⟩ ⟨20000000, 250000, .normal, true⟩ oneRuns =
      some (ret, r') ∧ getState oscOnly ⟨1, by decide⟩ oneRuns = some ⟨1000000, 500000, .inversed, true⟩ ∧
    getState oscOnly ⟨1, by decide⟩ r' = some ⟨2000000, 1000000, .inversed, true⟩ := by
  have hfind : findClock oscOnly 20000000 = some ⟨60000, clkSrcHosc, 1, 3⟩ := by decide +kernel
  exact ⟨_, _, apply_found _ _ _ hfind (by decide) (by decide), by decide +kernel, by decide +kernel⟩

def fields (ch : Fin 8) (r : Regs) : Nat × Nat × Nat × Nat × Nat × Bool :=
  (clkSrc ch r, divM ch r, prescaler ch r, entireCycles ch r, activeField ch r, (r (ctl ch)).getLsbD 8)

/-- A state is read back, and applied again it leaves the fields. -/
def Stable (chip : Chip) (ch : Fin 8) (r : Regs) : Prop :=
  ∃ state ret r', getState chip ch r = some state ∧ apply chip ch state r = some (ret, r') ∧
    fields ch r' = fields ch r

def selected (ch : Fin 8) (r : Regs) : Best := ⟨entireCycles ch r, clkSrc ch r, divM ch r, prescaler ch r⟩

def DutyIs (E A D P : Nat) : Prop :=
  if P ≤ D then A = E else if D = 0 then A = 0
  else P % 2 ^ 32 ≠ 0 ∧ E * D / (P % 2 ^ 32) % 2 ^ 16 = A

def periodNs (chip : Chip) (ch : Fin 8) (r : Regs) : Nat := entireCycles ch r * nsecPerSec / clock chip ch r
def dutyNs (chip : Chip) (ch : Fin 8) (r : Regs) : Nat := activeField ch r * nsecPerSec / clock chip ch r

/-- The channel has a clock, and for the period that its cycles take nothing fits, or its own configuration
is the first best and the duty cycle is that of the registers. -/
def Again (chip : Chip) (ch : Fin 8) (r : Regs) : Prop :=
  clock chip ch r ≠ 0 ∧ ((periodNs chip ch r = 0 ∨ ∀ b, ¬ Fits chip (periodNs chip ch r) b) ∨
    Wins chip (periodNs chip ch r) (selected ch r) ∧
      DutyIs (entireCycles ch r) (activeField ch r) (dutyNs chip ch r) (periodNs chip ch r))

section

variable {ch : Fin 8} {r : Regs} {pol : Polarity} {A D : Nat}

theorem fields_program (ch : Fin 8) (pol : Polarity) (r : Regs) (active : Nat) (hb : Fits chip P b) :
    fields ch (program ch b active pol r) =
      (b.src, b.m, b.prescaler, b.cycles, active % 2 ^ 16, decide (pol = .normal)) := by
  obtain ⟨hpos, hcycles⟩ := hb.range
  have hsrc := hb.src_le
  have hm := hb.m
  have hp := hb.prescaler
  simp only [maxCycles] at hcycles
  rw [fields, clkSrc, divM, prescaler, entireCycles, activeField, program_pccr (by omega), if_pos rfl, program_ctl,
    if_pos rfl, program_period, if_pos rfl, clkSrc_pccrVal (by omega), divM_pccrVal (by omega),
    prescaler_ctlVal (by omega), entire_periodVal (by omega), active_periodVal, actHigh_ctlVal,
    Nat.sub_add_cancel hpos]

structure Programmed (chip : Chip) (ch : Fin 8) (r : Regs) (b : Best) (A : Nat) (pol : Polarity) : Prop where
  fields : fields ch r = (b.src, b.m, b.prescaler, b.cycles, A, decide (pol = .normal))
  enabled : (r enable).getLsbD ch = true

theorem Programmed.selected (h : Programmed chip ch r b A pol) : selected ch r = b := by
  have hf := h.fields
  simp only [Pwm.fields, Prod.mk.injEq] at hf
  obtain ⟨h1, h2, h3, h4, -⟩ := hf
  rw [Pwm.selected, h1, h2, h3, h4]

theorem programmed (ch : Fin 8) (pol : Polarity) (r : Regs) (active : Nat) (hb : Fits chip P b) :
    Programmed chip ch (program ch b active pol r) b (active % 2 ^ 16) pol := by
  refine ⟨fields_program ch pol r active hb, ?_⟩
  rw [program_enable]
  simp
  omega

theorem Programmed.getState_eq (h : Programmed chip ch r b A pol) : getState chip ch r =
    if clock chip ch r = 0 then none else some ⟨periodNs chip ch r, dutyNs chip ch r, pol, true⟩ := by
  have hf := h.fields
  simp only [Pwm.fields, Prod.mk.injEq] at hf
  rw [getState, times_eq, ← clock, ← periodNs, ← dutyNs, hf.2.2.2.2.2, h.enabled]
  by_cases hc : clock chip ch r = 0 <;> cases pol <;> simp [hc]

theorem dutyIs_iff {E : Nat} (hE : E ≤ maxCycles) (hD : D < 2 ^ 47) :
    (∃ active, activeCycles E D P = some active ∧ active % 2 ^ 16 = A) ↔ DutyIs E A D P := by
  simp only [maxCycles] at hE
  unfold activeCycles DutyIs
  split
  · simp only [Option.some.injEq, exists_eq_left', Nat.mod_eq_of_lt (show E < 2 ^ 16 by omega), eq_comm]
  · split
    · simp [eq_comm]
    · have hlt : E * D < 2 ^ 64 := by
        calc E * D ≤ 65535 * 2 ^ 47 := Nat.mul_le_mul hE hD.le
          _ < 2 ^ 64 := by decide
      rw [divU64, Nat.mod_eq_of_lt hlt]
      generalize P % 2 ^ 32 = d
      by_cases h0 : d = 0
      · simp [h0]
      · rw [if_neg h0, and_iff_right h0, Option.map_some]
        simp only [Option.some.injEq, exists_eq_left']
        rw [Nat.mod_mod_of_dvd _ (show 2 ^ 16 ∣ 2 ^ 32 by decide)]

theorem dutyNs_lt (h : activeField ch r < 2 ^ 16) : dutyNs chip ch r < 2 ^ 47 := by
  have hle : dutyNs chip ch r ≤ activeField ch r * nsecPerSec := Nat.div_le_self ..
  simp only [nsecPerSec] at hle
  omega

theorem Programmed.stable_iff (h : Programmed chip ch r b A pol) (hb : b.cycles ≤ maxCycles) (hA : A < 2 ^ 16) :
    Stable chip ch r ↔ Again chip ch r := by
  have hf := h.fields
  simp only [Pwm.fields, Prod.mk.injEq] at hf
  obtain ⟨-, -, -, hE, hA', -⟩ := hf
  have hstate := h.getState_eq
  by_cases hc : clock chip ch r = 0
  · refine iff_of_false ?_ fun hagain => hagain.1 hc
    rintro ⟨state, -, -, hstate', -⟩
    rw [hstate, if_pos hc] at hstate'
    cases hstate'
  rw [if_neg hc] at hstate
  have hD : dutyNs chip ch r < 2 ^ 47 := dutyNs_lt (hA'.symm ▸ hA)
  rw [Again, and_iff_right hc, h.selected, hE, hA']
  generalize dutyNs chip ch r = D at hD hstate
  generalize periodNs chip ch r = Q at hstate
  have hstable : Stable chip ch r ↔
      ∃ ret r', apply chip ch ⟨Q, D, pol, true⟩ r = some (ret, r') ∧ Pwm.fields ch r' = Pwm.fields ch r := by
    constructor
    · rintro ⟨state, ret, r', hstate', happly, hsame⟩
      cases hstate.symm.trans hstate'
      exact ⟨ret, r', happly, hsame⟩
    · rintro ⟨ret, r', happly, hsame⟩
      exact ⟨_, ret, r', hstate, happly, hsame⟩
  rw [hstable]
  cases hfind : findClock chip Q with
  | none =>
    have hnone := findClock_eq_none_iff.mp hfind
    exact iff_of_true ⟨-22, r, apply_none ch pol r hfind, rfl⟩ (.inl hnone)
  | some b' =>
    obtain ⟨h0, hw⟩ := findClock_eq_some_iff.mp hfind
    have hnot : ¬ (Q = 0 ∨ ∀ b, ¬ Fits chip Q b) := by
      rintro (hQ | hnone)
      · exact h0 hQ
      · exact hnone b' hw.fits
    rw [or_iff_right hnot, ← dutyIs_iff hb hD, apply_some ch pol r hfind]
    simp only [Option.map_eq_some_iff, Prod.mk.injEq]
    constructor
    · rintro ⟨-, -, ⟨active, hactive, -, rfl⟩, hsame⟩
      rw [fields_program ch pol r active hw.fits, h.fields] at hsame
      simp only [Prod.mk.injEq] at hsame
      obtain ⟨h1, h2, h3, h4, h5, -⟩ := hsame
      obtain rfl : b' = b := by
        cases b
        cases b'
        simp_all
      exact ⟨hw, active, hactive, h5⟩
    · rintro ⟨hwb, active, hactive, rfl⟩
      cases hw.unique hwb
      exact ⟨0, _, ⟨active, hactive, rfl, rfl⟩, by rw [fields_program ch pol r active hw.fits, h.fields]⟩

/-- No source has to be divided for the period. -/
def Undivided (chip : Chip) (periodNs : Nat) : Prop :=
  ∀ src rate, chip.rate? src = some rate → rate * periodNs < 65536 * nsecPerSec

/-- Period and duty cycle in the registers are whole nanoseconds. -/
def WholeTimes (chip : Chip) (ch : Fin 8) (r : Regs) : Prop :=
  clock chip ch r ∣ entireCycles ch r * nsecPerSec ∧ clock chip ch r ∣ activeField ch r * nsecPerSec

/-- No source has a cycle in the period read back. -/
def Short (chip : Chip) (ch : Fin 8) (r : Regs) : Prop :=
  ∀ src rate, chip.rate? src = some rate → rate * periodNs chip ch r < nsecPerSec

theorem fits_undivided (hx : Undivided chip P) : Fits chip P b ↔ b.m ≤ 8 ∧ b.prescaler = 0 ∧ 0 < b.cycles ∧
    ∃ rate, chip.rate? b.src = some rate ∧ b.cycles = (rate >>> b.m) * P / nsecPerSec := by
  have hplain : ∀ {src rate}, chip.rate? src = some rate → ∀ m,
      cycles (rate >>> m) P 0 = (rate >>> m) * P / nsecPerSec ∧ (rate >>> m) * P / nsecPerSec ≤ maxCycles := by
    intro src rate hr m
    have hlt : (rate >>> m) * P < 65536 * nsecPerSec :=
      Nat.lt_of_le_of_lt (Nat.mul_le_mul_right _ (by rw [Nat.shiftRight_eq_div_pow]; exact Nat.div_le_self ..))
        (hx src rate hr)
    refine ⟨?_, Nat.le_of_lt_succ (Nat.div_lt_of_lt_mul (Nat.mul_comm 65536 nsecPerSec ▸ hlt))⟩
    rw [cycles_le _ P 0 (by decide) (by simp only [nsecPerSec] at hlt ⊢; omega), Nat.zero_add, Nat.mul_one]
  constructor
  · rintro ⟨hm, -, ⟨hpos, -⟩, rate, hr, hc, hbefore⟩
    obtain ⟨hcycles, hle⟩ := hplain hr b.m
    have hp : b.prescaler = 0 := by
      by_contra hp
      have := hbefore 0 (Nat.pos_of_ne_zero hp)
      omega
    exact ⟨hm, hp, hpos, rate, hr, by rw [hc, hp, hcycles]⟩
  · rintro ⟨hm, hp, hpos, rate, hr, hc⟩
    obtain ⟨hcycles, hle⟩ := hplain hr b.m
    exact ⟨hm, by omega, ⟨hpos, by omega⟩, rate, hr, by rw [hp, hcycles, hc], fun j hj => by omega⟩

theorem Wins.undivided (hw : Wins chip P b) (hx : Undivided chip P) : b.m = 0 ∧ b.prescaler = 0 ∧
    ∃ rate, chip.rate? b.src = some rate ∧ b.cycles = rate * P / nsecPerSec := by
  obtain ⟨-, hp, hpos, rate, hr, hc⟩ := (fits_undivided hx).mp hw.fits
  have hle : b.cycles ≤ rate * P / nsecPerSec := by
    rw [hc, Nat.shiftRight_eq_div_pow]
    exact Nat.div_le_div_right (Nat.mul_le_mul_right _ (Nat.div_le_self ..))
  have hm : b.m = 0 := by
    by_contra hm
    have hfits : Fits chip P ⟨rate * P / nsecPerSec, b.src, 0, 0⟩ :=
      (fits_undivided hx).mpr ⟨Nat.zero_le 8, rfl, Nat.lt_of_lt_of_le hpos hle, rate, hr, rfl⟩
    have := hw.first _ hfits (.inr ⟨rfl, Nat.pos_of_ne_zero hm⟩)
    simp only at this
    omega
  rw [hm, Nat.shiftRight_zero] at hc
  exact ⟨hm, hp, rate, hr, hc⟩

theorem Wins.again {Q rate : Nat} (hw : Wins chip P b) (hx : Undivided chip P) (hQ : Q ≤ P)
    (hr : chip.rate? b.src = some rate) : Wins chip Q b ↔ rate * Q / nsecPerSec = b.cycles := by
  have hxQ : Undivided chip Q :=
    fun src rate hr => Nat.lt_of_le_of_lt (Nat.mul_le_mul_left rate hQ) (hx src rate hr)
  obtain ⟨hm, hp, -⟩ := hw.undivided hx
  constructor
  · intro hwQ
    obtain ⟨-, -, rate', hr', hc⟩ := hwQ.undivided hxQ
    cases hr.symm.trans hr'
    exact hc.symm
  · intro hc
    -- whatever fits now had at least as many cycles in the longer period
    have hlonger : ∀ a, Fits chip Q a →
        ∃ a', Fits chip P a' ∧ a.cycles ≤ a'.cycles ∧ a'.src = a.src ∧ a'.m = a.m := by
      intro a ha
      obtain ⟨hm, -, hpos, rate, hr, hc⟩ := (fits_undivided hxQ).mp ha
      have hle : a.cycles ≤ (rate >>> a.m) * P / nsecPerSec := by
        rw [hc]
        exact Nat.div_le_div_right (Nat.mul_le_mul_left _ hQ)
      exact ⟨⟨(rate >>> a.m) * P / nsecPerSec, a.src, a.m, 0⟩,
        (fits_undivided hx).mpr ⟨hm, rfl, Nat.lt_of_lt_of_le hpos hle, rate, hr, rfl⟩, hle, rfl, rfl⟩
    refine ⟨(fits_undivided hxQ).mpr ⟨by omega, hp, hw.fits.range.1, rate, hr, by rw [hm, Nat.shiftRight_zero, hc]⟩,
      fun a ha => ?_, fun a ha hbefore => ?_⟩
    · obtain ⟨a', ha', hle, -⟩ := hlonger a ha
      exact hle.trans (hw.most a' ha')
    · obtain ⟨a', ha', hle, hsrc, hm'⟩ := hlonger a ha
      rw [Best.Before, ← hsrc, ← hm'] at hbefore
      exact Nat.lt_of_le_of_lt hle (hw.first a' ha' hbefore)

theorem whole_again {E f : Nat} : f * (E * nsecPerSec / f) / nsecPerSec = E ↔ f ∣ E * nsecPerSec := by
  have hn : 0 < nsecPerSec := by decide
  refine ⟨fun h => ?_, fun h => by rw [Nat.mul_div_cancel' h, Nat.mul_div_cancel _ hn]⟩
  have hle : E * nsecPerSec ≤ f * (E * nsecPerSec / f) := by
    rw [← Nat.le_div_iff_mul_le hn, h]
  exact ⟨E * nsecPerSec / f, Nat.le_antisymm hle (Nat.mul_div_le ..)⟩

theorem active_again {E A f : Nat} (hE : 0 < E) (hf : 0 < f) (h : f ∣ E * nsecPerSec) :
    E * (A * nsecPerSec / f) / (E * nsecPerSec / f) = f * (A * nsecPerSec / f) / nsecPerSec := by
  rw [← Nat.mul_div_mul_left _ _ hf, Nat.mul_div_cancel' h, Nat.mul_left_comm,
    Nat.mul_div_mul_left _ _ hE]

theorem dutyIs_whole {E A f : Nat} (hE : 0 < E) (hmax : E ≤ maxCycles) (hAE : A ≤ E) (hf : 0 < f)
    (h : f ∣ E * nsecPerSec) (hP : E * nsecPerSec / f < 2 ^ 32) :
    DutyIs E A (A * nsecPerSec / f) (E * nsecPerSec / f) ↔ f ∣ A * nsecPerSec := by
  have hn : 0 < nsecPerSec := by decide
  have hle : A * nsecPerSec / f ≤ E * nsecPerSec / f := Nat.div_le_div_right (Nat.mul_le_mul_right _ hAE)
  have hactive := active_again (A := A) hE hf h
  rw [← whole_again]
  unfold DutyIs
  by_cases hfull : E * nsecPerSec / f ≤ A * nsecPerSec / f
  · have heq := Nat.le_antisymm hle hfull
    rw [if_pos hfull, heq, whole_again.mpr h]
    exact eq_comm
  rw [if_neg hfull]
  by_cases hzero : A * nsecPerSec / f = 0
  · rw [if_pos hzero, hzero, Nat.mul_zero, Nat.zero_div]
    exact eq_comm
  · have hbound := active_le E hle
    simp only [maxCycles] at hmax
    have hne : E * nsecPerSec / f ≠ 0 := by
      intro h0
      rw [h0] at hfull
      exact hfull (Nat.zero_le _)
    rw [if_neg hzero, Nat.mod_eq_of_lt hP, and_iff_right hne,
      Nat.mod_eq_of_lt (Nat.lt_of_le_of_lt hbound (by omega)), hactive]

theorem Programmed.again_iff (h : Programmed chip ch r b A pol) (hw : Wins chip P b) (hx : Undivided chip P)
    (hlt : ∀ src rate, chip.rate? src = some rate → rate < 2 ^ 32) (hP : P < 2 ^ 32) (hAE : A ≤ b.cycles) :
    Again chip ch r ↔ WholeTimes chip ch r ∨ Short chip ch r := by
  obtain ⟨hm, hp, rate, hr, hc⟩ := hw.undivided hx
  have hf := h.fields
  simp only [Pwm.fields, Prod.mk.injEq] at hf
  obtain ⟨h1, h2, h3, hE, hA, -⟩ := hf
  have hpos := hw.fits.range.1
  have h0 : 0 < rate := by
    refine Nat.pos_of_ne_zero ?_
    rintro rfl
    simp at hc
    omega
  have hclock : clock chip ch r = rate := by
    have hrate : chip.pairRate (clkSrc ch r) (divM ch r) = rate := by
      rw [h1, h2, hm, Chip.pairRate, Nat.shiftRight_zero]
      unfold Chip.rate? at hr
      grind [clkSrcHosc, clkSrcApb]
    rw [clock, clockAt, hrate, h3, hp, Nat.zero_add, Nat.div_one, Nat.mod_eq_of_lt (hlt _ _ hr)]
  have hQ : b.cycles * nsecPerSec / rate ≤ P :=
    Nat.div_le_of_le_mul (by rw [hc]; exact Nat.div_mul_le_self ..)
  have hxQ : Undivided chip (b.cycles * nsecPerSec / rate) :=
    fun src rate hr => Nat.lt_of_le_of_lt (Nat.mul_le_mul_left rate hQ) (hx src rate hr)
  have hshort : Short chip ch r ↔ periodNs chip ch r = 0 ∨ ∀ b, ¬ Fits chip (periodNs chip ch r) b := by
    rw [Short, periodNs, hE, hclock]
    generalize b.cycles * nsecPerSec / rate = Q at hxQ
    constructor
    · intro hs
      refine .inr fun a ha => ?_
      obtain ⟨-, -, hpos, rate, hr, hc⟩ := (fits_undivided hxQ).mp ha
      have hle : (rate >>> a.m) * Q ≤ rate * Q :=
        Nat.mul_le_mul_right _ (by rw [Nat.shiftRight_eq_div_pow]; exact Nat.div_le_self ..)
      rw [Nat.div_eq_of_lt (Nat.lt_of_le_of_lt hle (hs a.src rate hr))] at hc
      omega
    · rintro hnone src rate hr
      by_contra hge
      have hcycle := (Nat.one_le_div_iff (show 0 < nsecPerSec by decide)).mpr (Nat.le_of_not_lt hge)
      refine hnone.resolve_left ?_ ⟨rate * Q / nsecPerSec, src, 0, 0⟩
        ((fits_undivided hxQ).mpr ⟨Nat.zero_le 8, rfl, hcycle, rate, hr, rfl⟩)
      rintro rfl
      simp [nsecPerSec] at hge
  rw [Again, and_iff_right (by omega), ← hshort, or_comm]
  refine or_congr ?_ Iff.rfl
  rw [h.selected, WholeTimes, periodNs, dutyNs, hE, hA, hclock, hw.again hx hQ hr, whole_again]
  exact and_congr_right fun hdiv => dutyIs_whole hpos hw.fits.range.2 hAE h0 hdiv (Nat.lt_of_le_of_lt hQ hP)

end

end H713.Pwm
