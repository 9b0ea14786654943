import Mathlib.Data.List.Pairwise
import H713.Board.Code

/-!
# Board.Ntc

The conversion of an ADC reading to degrees, and the power-off after `NTC_POWEROFF_CYCLES` hot readings in a row. A
reading below the last entry of the table, the hottest one, matches no entry and is converted to 0 degrees.
-/

namespace H713.Board

open Bytes

/-- ADC values strictly descending, temperatures ascending. -/
def Sorted (ntcTable : List Entry) : Prop :=
  ntcTable.Pairwise fun e e' => e'.adc < e.adc ∧ e.temp ≤ e'.temp

section

variable {ntcTable : List Entry} {x y : Int}

theorem ofI32_of_nonneg (h0 : 0 ≤ x) (h1 : x < 2 ^ 31) : (ofI32 x : Int) = x := by
  simp only [ofI32]
  omega

theorem Sorted.temp_le (hs : Sorted ntcTable) {e e' : Entry} (he : e ∈ ntcTable) (he' : e' ∈ ntcTable)
    (hle : e'.adc ≤ e.adc) : e.temp ≤ e'.temp := by
  have hup : ntcTable.Pairwise fun e e' => e'.adc ≤ e.adc → e.temp ≤ e'.temp := hs.imp fun h _ => h.2
  have hdown : ntcTable.Pairwise (flip fun e e' => e'.adc ≤ e.adc → e.temp ≤ e'.temp) :=
    hs.imp fun h hle => absurd hle (Nat.not_le.mpr h.1)
  exact hup.forall_of_forall_of_flip (fun _ _ _ => le_rfl) hdown he he' hle

theorem Sorted.last (hs : Sorted ntcTable) (hne : ntcTable ≠ []) {e : Entry} (he : e ∈ ntcTable) :
    (ntcTable.getLast hne).adc ≤ e.adc := by
  have hsplit := List.dropLast_concat_getLast hne
  unfold Sorted at hs
  rw [← hsplit, List.pairwise_append] at hs
  rw [← hsplit, List.mem_append, List.mem_singleton] at he
  rcases he with he | rfl
  · exact (hs.2.2 e he _ (List.mem_singleton.mpr rfl)).1.le
  · exact le_rfl

inductive Converts (ntcTable : List Entry) (x : Int) : Prop where
  | entry (e : Entry) (he : e ∈ ntcTable) (hle : (e.adc : Int) ≤ x)
      (hfirst : ∀ e' ∈ ntcTable, (e'.adc : Int) ≤ x → e'.adc ≤ e.adc)
      (hval : ntcAdcToTemp ntcTable x = e.temp)
  | below (hlt : ∀ e ∈ ntcTable, x < e.adc) (hval : ntcAdcToTemp ntcTable x = 0)

theorem converts (hs : Sorted ntcTable) (h0 : 0 ≤ x) (h1 : x < 2 ^ 31) : Converts ntcTable x := by
  have hx := ofI32_of_nonneg h0 h1
  cases hf : ntcTable.find? (fun e => e.adc ≤ ofI32 x) with
  | none =>
    refine .below (fun e he => ?_) (by simp only [ntcAdcToTemp, hf])
    have hn := List.find?_eq_none.mp hf e he
    simp only [decide_eq_true_eq] at hn
    omega
  | some e =>
    obtain ⟨hp, before, after, hsplit, hbefore⟩ := List.find?_eq_some_iff_append.mp hf
    simp only [decide_eq_true_eq] at hp
    refine .entry e (List.mem_of_find?_eq_some hf) (by omega) (fun e' he' hle => ?_)
      (by simp only [ntcAdcToTemp, hf])
    unfold Sorted at hs
    rw [hsplit, List.pairwise_append, List.pairwise_cons] at hs
    rw [hsplit, List.mem_append, List.mem_cons] at he'
    rcases he' with he' | rfl | he'
    · -- the entries in front of the match lie above the reading
      have hn := hbefore e' he'
      simp only [Bool.not_eq_true', decide_eq_false_iff_not] at hn
      omega
    · exact le_rfl
    · exact (hs.2.1.1 e' he').1.le

theorem temp_le_of_le_adc (hs : Sorted ntcTable) (h0 : 0 ≤ x) (h1 : x < 2 ^ 31) {e : Entry}
    (he : e ∈ ntcTable) (hle : x ≤ e.adc) :
    e.temp ≤ ntcAdcToTemp ntcTable x ∨ (∀ e ∈ ntcTable, x < e.adc) ∧ ntcAdcToTemp ntcTable x = 0 := by
  cases converts hs h0 h1 with
  | below hlt hval => exact .inr ⟨hlt, hval⟩
  | entry e' he' hle' _ hval => exact .inl (hval ▸ hs.temp_le he he' (by omega))

theorem ntcAdcToTemp_zero (hs : Sorted ntcTable) (hne : ntcTable ≠ [])
    (hadc : (ntcTable.getLast hne).adc ≠ 0) : ntcAdcToTemp ntcTable 0 = 0 := by
  cases converts hs (le_refl 0) (by decide) with
  | below _ hval => exact hval
  | entry e he hle _ _ => have := hs.last hne he; omega

/-- The conversion never rises with the ADC value on the readings below `n`. -/
def AntitoneBelow (ntcTable : List Entry) (n : Nat) : Prop :=
  ∀ x y : Int, 0 ≤ x → x ≤ y → y < n → ntcAdcToTemp ntcTable y ≤ ntcAdcToTemp ntcTable x

theorem antitone_iff (hs : Sorted ntcTable) (hne : ntcTable ≠ []) {n : Nat} (hn : n ≤ 2 ^ 31) :
    AntitoneBelow ntcTable n ↔ (ntcTable.getLast hne).adc = 0 ∨ (ntcTable.getLast hne).temp ≤ 0 ∨
      n ≤ (ntcTable.getLast hne).adc := by
  have hmem := List.getLast_mem hne
  constructor
  · intro hanti
    by_contra hcon
    rw [not_or, not_or, Int.not_le, Nat.not_le] at hcon
    obtain ⟨hadc, htemp, hin⟩ := hcon
    have hzero := ntcAdcToTemp_zero hs hne hadc
    have hlast : ntcAdcToTemp ntcTable (ntcTable.getLast hne).adc = (ntcTable.getLast hne).temp := by
      cases converts hs (x := (ntcTable.getLast hne).adc) (by omega) (by omega) with
      | below hlt _ => exact absurd (hlt _ hmem) (lt_irrefl _)
      | entry e he hle hfirst hval =>
        have hle' := hs.last hne he
        have htop := hfirst _ hmem (le_refl _)
        exact hval.trans (le_antisymm (hs.temp_le he hmem hle') (hs.temp_le hmem he (by omega)))
    have hle := hanti 0 (ntcTable.getLast hne).adc (le_refl 0) (by omega) (by omega)
    rw [hzero, hlast] at hle
    omega
  · intro hcond x y h0 hxy hyn
    cases converts hs (x := y) (by omega) (by omega) with
    | below hlt hval =>
      cases converts hs (x := x) h0 (by omega) with
      | below _ hval' => rw [hval, hval']
      | entry e he hle _ _ => have := hlt e he; omega
    | entry e he hle hfirst hval =>
      rw [hval]
      cases converts hs (x := x) h0 (by omega) with
      | entry e' he' hle' _ hval' => exact hval' ▸ hs.temp_le he he' (hfirst e' he' (by omega))
      | below hlt hval' =>
        rw [hval']
        have hlast := hlt _ hmem
        have hlow := hs.last hne he
        rcases hcond with hz | hcold | hout
        · omega
        · exact (hs.temp_le he hmem hlow).trans hcold
        · omega

end

structure Counts (cfg : Config) (priv : BoardMgr) (h : History) : Prop extends Configured cfg priv where
  cycles : priv.off = false → priv.poweroffCycles = streak (· > cfg.tempPoweroffC) (h.temps cfg)
  few : priv.off = false → priv.poweroffCycles < ntcPoweroffCycles
  range : ∀ x ∈ h.samples, 0 ≤ x ∧ x < 2 ^ 31

namespace Counts

variable {cfg : Config} {priv : BoardMgr} {h : History}

theorem poll (hc : Counts cfg priv h) {adcVal : Int} (hon : priv.off = false) (hint : adcVal < 2 ^ 31) :
    Counts cfg (ntcWorkFn priv adcVal) (h.step cfg (.poll adcVal)) := by
  have hconf := hc.toConfigured.ntcWorkFn adcVal
  by_cases hread : cfg.enabled = true ∧ 0 ≤ adcVal
  · have htemps := History.temps_step (h := h) hread
    have hcycles := hc.cycles hon
    have hfew := hc.few hon
    rw [← hc.enabled] at hread
    have hsamples : ∀ x ∈ (h.step cfg (.poll adcVal)).samples, 0 ≤ x ∧ x < 2 ^ 31 := by
      rw [History.samples_step (hc.enabled ▸ hread)]
      intro x hx
      rcases List.mem_append.mp hx with hx | hx
      · exact hc.range x hx
      · rw [List.mem_singleton.mp hx]
        exact ⟨hread.2, hint⟩
    obtain ⟨priv₁, hwarn, hgoes⟩ := ntcWorkFn_goes hread.1 hread.2
    obtain ⟨fans, warn, rfl⟩ := hwarn.frame
    rw [hc.table] at hgoes
    generalize ntcWorkFn priv adcVal = priv' at hconf hgoes
    have hstreak := streak_concat (p := (· > cfg.tempPoweroffC)) (h.temps cfg)
      (ntcAdcToTemp cfg.ntcTable adcVal)
    rw [← htemps] at hstreak
    cases hgoes with
    | off _ => exact ⟨hconf, fun hoff => (by cases hoff), fun hoff => (by cases hoff), hsamples⟩
    | hot hot hlt =>
      rw [if_pos (hc.poweroff ▸ hot)] at hstreak
      refine ⟨hconf, fun _ => ?_, fun _ => hlt, hsamples⟩
      simp only [ntcPoweroffCycles] at hfew hlt
      rw [hstreak]
      dsimp only
      omega
    | cool cool =>
      rw [if_neg (Int.not_lt.mpr (hc.poweroff ▸ cool))] at hstreak
      exact ⟨hconf, fun _ => hstreak.symm, fun _ => Nat.zero_lt_succ _, hsamples⟩
  · rw [History.step_skip hread, ntcWorkFn_skip (hc.enabled ▸ hread)]
    exact hc

theorem setCurState (hc : Counts cfg priv h) (state : Nat) :
    Counts cfg (setCurState priv state) (h.step cfg (.setCurState state)) :=
  ⟨hc.toConfigured.setCurState state, hc.cycles, hc.few, hc.range⟩

theorem run {ops : List Op} (hr : Run step Allowed (probe cfg) ops priv) :
    Counts cfg priv (History.of cfg ops) := by
  refine hr.sim (R := Counts cfg) (fun s t i a s' hR hok hs => ?_) ?_
  · cases i with
    | poll adcVal => cases hs; exact hR.poll hok.1 hok.2
    | setCurState state => cases hs; exact hR.setCurState state
  · exact ⟨configured_probe cfg, fun _ => rfl, fun _ => Nat.zero_lt_succ _, by intro x hx; cases hx⟩

end Counts

/-- When the last `NTC_POWEROFF_CYCLES` readings lie at or below the entry of a temperature above the
threshold, the power-off has been requested. -/
def PowerOffLaw (cfg : Config) : Prop :=
  ∀ ops priv, Run step Allowed (probe cfg) ops priv → ∀ e ∈ cfg.ntcTable, cfg.tempPoweroffC < e.temp →
    ntcPoweroffCycles ≤ (History.of cfg ops).samples.length →
    (∀ x ∈ (History.of cfg ops).samples.drop ((History.of cfg ops).samples.length - ntcPoweroffCycles),
      x ≤ e.adc) → priv.off = true

variable {cfg : Config}

theorem run_cold {adcVal : Int} (hint : adcVal < 2 ^ 31)
    (hcold : ntcAdcToTemp cfg.ntcTable adcVal ≤ cfg.tempPoweroffC) :
    ∀ (n : Nat) {priv : BoardMgr}, Configured cfg priv → priv.off = false →
      ∃ priv', Run step Allowed priv (List.replicate n (.poll adcVal)) priv' ∧ priv'.off = false := by
  intro n
  induction n with
  | zero => intro priv _ hon; exact ⟨priv, .nil, hon⟩
  | succ n ih =>
    intro priv hc hon
    have hon' : (ntcWorkFn priv adcVal).off = false := by
      by_cases hread : priv.enabled = true ∧ 0 ≤ adcVal
      · obtain ⟨priv₁, hwarn, hgoes⟩ := ntcWorkFn_goes hread.1 hread.2
        obtain ⟨fans, warn, rfl⟩ := hwarn.frame
        rw [← hc.table, ← hc.poweroff] at hcold
        generalize ntcWorkFn priv adcVal = priv' at hgoes
        cases hgoes with
        | off hot => exact absurd hcold (Int.not_le.mpr hot)
        | hot hot _ => exact absurd hcold (Int.not_le.mpr hot)
        | cool _ => exact hon
      · rw [ntcWorkFn_skip hread]
        exact hon
    obtain ⟨priv', hr, hoff⟩ := ih (hc.ntcWorkFn adcVal) hon'
    exact ⟨priv', .cons ⟨hon, hint⟩ rfl hr, hoff⟩

theorem samples_replicate {adcVal : Int} (hread : cfg.enabled = true ∧ 0 ≤ adcVal) (n : Nat) :
    ∀ h : History, ((List.replicate n (Op.poll adcVal)).foldl (History.step cfg) h).samples =
      h.samples ++ List.replicate n adcVal := by
  induction n with
  | zero => intro h; simp
  | succ n ih =>
    intro h
    rw [List.replicate_succ, List.foldl_cons, ih, History.samples_step hread, List.append_assoc,
      List.singleton_append, List.replicate_succ]

theorem powerOffLaw_iff (hs : Sorted cfg.ntcTable) (hne : cfg.ntcTable ≠ []) (hen : cfg.enabled = true) :
    PowerOffLaw cfg ↔ (cfg.ntcTable.getLast hne).adc = 0 ∨ cfg.tempPoweroffC < 0 ∨
      ∀ e ∈ cfg.ntcTable, e.temp ≤ cfg.tempPoweroffC := by
  constructor
  · intro hlaw
    by_contra hcon
    rw [not_or, not_or] at hcon
    obtain ⟨hadc, hthr, hhot⟩ := hcon
    rw [not_forall] at hhot
    obtain ⟨e, hhot⟩ := hhot
    rw [Classical.not_imp, Int.not_le] at hhot
    have hzero := ntcAdcToTemp_zero hs hne hadc
    obtain ⟨priv, hr, hon⟩ := run_cold (by decide)
      (hzero.le.trans (Int.not_lt.mp hthr)) ntcPoweroffCycles (configured_probe cfg) rfl
    have hsamples := samples_replicate ⟨hen, le_refl 0⟩ ntcPoweroffCycles
      { samples := [], forced := false }
    rw [List.nil_append] at hsamples
    have hoff := hlaw _ priv hr e hhot.1 hhot.2 (by rw [History.of, hsamples, List.length_replicate])
      (fun x hx => by
        rw [History.of, hsamples] at hx
        rw [(List.mem_replicate.mp (List.mem_of_mem_drop hx)).2]
        exact Int.natCast_nonneg _)
    rw [hon] at hoff
    cases hoff
  · intro hcond ops priv hr e he hhot hlen hlow
    have hc := Counts.run hr
    by_contra hon
    rw [Bool.not_eq_true] at hon
    -- every one of the last readings is converted to more than the threshold
    have hlast : ntcPoweroffCycles ≤ streak (· > cfg.tempPoweroffC) ((History.of cfg ops).temps cfg) := by
      rw [le_streak_iff, History.temps, List.length_map, ← List.map_drop]
      refine ⟨hlen, List.forall_mem_map.mpr fun x hx => ?_⟩
      obtain ⟨h0, h1⟩ := hc.range x (List.mem_of_mem_drop hx)
      rcases temp_le_of_le_adc hs h0 h1 he (hlow x hx) with hle | ⟨hbelow, hval⟩
      · omega
      · have hlt := hbelow _ (List.getLast_mem hne)
        rcases hcond with hz | hneg | hnone
        · omega
        · omega
        · have := hnone e he; omega
    have hcycles := hc.cycles hon
    have hfew := hc.few hon
    omega

/-- For every non-empty sorted table: when the conversion is antitone on the ADC readings below `n`, and when the
enabled work requests the power-off after `NTC_POWEROFF_CYCLES` readings at or below an entry hotter than the
threshold. -/
theorem ntc_antitone_and_poweroff_iff {cfg : Config} (hs : Sorted cfg.ntcTable) (hne : cfg.ntcTable ≠ [])
    (hen : cfg.enabled = true) : (∀ n ≤ 2 ^ 31, AntitoneBelow cfg.ntcTable n ↔ (cfg.ntcTable.getLast hne).adc = 0 ∨
      (cfg.ntcTable.getLast hne).temp ≤ 0 ∨ n ≤ (cfg.ntcTable.getLast hne).adc) ∧
    (PowerOffLaw cfg ↔ (cfg.ntcTable.getLast hne).adc = 0 ∨ cfg.tempPoweroffC < 0 ∨
      ∀ e ∈ cfg.ntcTable, e.temp ≤ cfg.tempPoweroffC) :=
  ⟨fun _ hn => antitone_iff hs hne hn, powerOffLaw_iff hs hne hen⟩

def twoEntries (lastAdc : UInt32) : Config where
  fans := []
  ntcTable := [{ tempDc := 25, tableAdc := 100 }, { tempDc := 80, tableAdc := lastAdc }]
  enabled := true
  tempPoweroffC := 60
  tempWarnC := 55

theorem sorted_twoEntries {lastAdc : UInt32} (h : lastAdc < 100) : Sorted (twoEntries lastAdc).ntcTable := by
  have hlt : lastAdc.toNat < 100 := h
  simp only [Sorted, twoEntries, List.pairwise_cons, List.mem_singleton, forall_eq]
  have htemp : toI32 (25 : UInt32).toNat ≤ toI32 (80 : UInt32).toNat := by decide
  refine ⟨⟨hlt, htemp⟩, ?_, .nil⟩
  intro e he
  cases he

theorem ntc_antitone_and_poweroff_iff_full_table : Sorted (twoEntries 0).ntcTable ∧
    AntitoneBelow (twoEntries 0).ntcTable 4096 ∧ PowerOffLaw (twoEntries 0) := by
  have hs : Sorted (twoEntries 0).ntcTable := sorted_twoEntries (by decide)
  obtain ⟨hanti, hoff⟩ := ntc_antitone_and_poweroff_iff hs (by decide) rfl
  exact ⟨hs, (hanti 4096 (by decide)).mpr (.inl rfl), hoff.mpr (.inl rfl)⟩

theorem ntc_below_table_reads_cold : Sorted (twoEntries 20).ntcTable ∧ (twoEntries 20).ntcTable ≠ [] ∧
    (twoEntries 20).enabled = true ∧ ¬ AntitoneBelow (twoEntries 20).ntcTable 4096 ∧
    ¬ PowerOffLaw (twoEntries 20) := by
  have hs : Sorted (twoEntries 20).ntcTable := sorted_twoEntries (by decide)
  refine ⟨hs, by decide, rfl, fun hanti => ?_, fun hoff => ?_⟩
  · exact absurd (hanti 0 20 (by decide) (by decide) (by decide)) (by decide)
  · exact absurd ((powerOffLaw_iff hs (by decide) rfl).mp hoff) (by decide)

end H713.Board
