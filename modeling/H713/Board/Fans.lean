import H713.Board.Code

/-!
# Board.Fans

What the fans run at. A poll that ends a row of `NTC_WARN_CYCLES` hot readings sets every valid fan to 100 percent,
and a cool reading does not take that back.
-/

namespace H713.Board

def duty (h : History) (mode : Nat) (fan : Fan) : Nat :=
  if h.forced = true then 100 else min (fan.modeDuty mode) 100

structure Follows (cfg : Config) (priv : BoardMgr) (h : History) : Prop extends Configured cfg priv where
  warnCycles : priv.warnCycles = h.hotPolls cfg % 2 ^ 32
  fans : EachFan (fun fan => fan.RunsAt (duty h priv.currentMode fan)) priv

theorem eachFan_full (priv : BoardMgr) : EachFan (fun fan => fan.RunsAt 100) (setAllFansFull priv) :=
  (eachFan_map rfl).mpr fun fan _ _ => fan.runsAt_setFanDuty 100

theorem eachFan_update (priv : BoardMgr) :
    EachFan (fun fan => fan.RunsAt (min (fan.modeDuty priv.currentMode) 100)) (updateAllFanDuties priv) :=
  (eachFan_map rfl).mpr fun fan _ _ => fan.runsAt_setFanDuty _

variable {cfg : Config} {h : History}

theorem History.hotPolls_step {adcVal : Int} (hread : cfg.enabled = true ∧ 0 ≤ adcVal) :
    (h.step cfg (.poll adcVal)).hotPolls cfg =
      if ntcAdcToTemp cfg.ntcTable adcVal > cfg.tempWarnC then h.hotPolls cfg + 1 else 0 := by
  unfold hotPolls
  rw [temps_step hread, streak_concat]

theorem History.forced_step {adcVal : Int} (hread : cfg.enabled = true ∧ 0 ≤ adcVal) :
    (h.step cfg (.poll adcVal)).forced = true ↔
      h.forced = true ∨ ntcWarnCycles ≤ (h.step cfg (.poll adcVal)).hotPolls cfg % 2 ^ 32 := by
  simp only [step, if_pos hread, Bool.or_eq_true, decide_eq_true_eq]
  rfl

namespace Follows

variable {cfg : Config} {priv : BoardMgr} {h : History}

theorem poll (hf : Follows cfg priv h) (adcVal : Int) :
    Follows cfg (ntcWorkFn priv adcVal) (h.step cfg (.poll adcVal)) := by
  have hconf := hf.toConfigured.ntcWorkFn adcVal
  by_cases hread : cfg.enabled = true ∧ 0 ≤ adcVal
  · have hhot := History.hotPolls_step (h := h) hread
    have hforced := History.forced_step (h := h) hread
    have hwarn := hf.warnCycles
    have hcycles : (priv.warnCycles + 1) % 2 ^ 32 = (h.hotPolls cfg + 1) % 2 ^ 32 := by omega
    obtain ⟨priv₁, hgoes, hoff⟩ := ntcWorkFn_goes (hf.enabled.trans hread.1) hread.2
    obtain ⟨cycles, off, hp⟩ := hoff.frame
    rw [hf.table] at hgoes
    rw [hp] at hconf ⊢
    cases hgoes with
    | full hot hfull =>
      rw [if_pos (hf.warn ▸ hot)] at hhot
      rw [hhot, ← hcycles] at hforced
      refine ⟨hconf, hcycles.trans (by rw [hhot]), ?_⟩
      simp only [duty, hforced.mpr (.inr hfull), if_true]
      exact eachFan_full _
    | hot hot hfew =>
      rw [if_pos (hf.warn ▸ hot)] at hhot
      rw [hhot, ← hcycles] at hforced
      refine ⟨hconf, hcycles.trans (by rw [hhot]), ?_⟩
      simp only [duty, hforced.trans (or_iff_left (Nat.not_le.mpr hfew))]
      exact hf.fans
    | cool cool =>
      rw [if_neg (Int.not_lt.mpr (hf.warn ▸ cool))] at hhot
      rw [hhot] at hforced
      refine ⟨hconf, (by rw [hhot]; rfl), ?_⟩
      simp only [duty, hforced.trans (or_iff_left (by decide))]
      exact hf.fans
  · rw [History.step_skip hread, ntcWorkFn_skip (hf.enabled ▸ hread)]
    exact hf

theorem setCurState (hf : Follows cfg priv h) (state : Nat) :
    Follows cfg (setCurState priv state) (h.step cfg (.setCurState state)) :=
  ⟨hf.toConfigured.setCurState state, hf.warnCycles, eachFan_update _⟩

theorem run {ops : List Op} (hr : Run step Allowed (probe cfg) ops priv) :
    Follows cfg priv (History.of cfg ops) := by
  refine hr.sim (R := Follows cfg) (fun s t i a s' hR hok hs => ?_) ?_
  · cases i with
    | poll adcVal => cases hs; exact hR.poll adcVal
    | setCurState state => cases hs; exact hR.setCurState state
  · exact ⟨configured_probe cfg, rfl, eachFan_update _⟩

end Follows

/-- What the fans should run at after a successful poll, `h` being the history that ends with it. -/
structure FansFollow (cfg : Config) (priv : BoardMgr) (h : History) : Prop where
  full : ntcWarnCycles ≤ (h.temps cfg).length →
    (∀ t ∈ (h.temps cfg).drop ((h.temps cfg).length - ntcWarnCycles), t > cfg.tempWarnC) →
    EachFan (fun fan => fan.RunsAt 100) priv
  mode : (∀ t ∈ (h.temps cfg).getLast?, t ≤ cfg.tempWarnC) →
    EachFan (fun fan => fan.RunsAt (fan.modeDuty priv.currentMode)) priv

/-- A hot poll: the counter has not just wrapped, or the fans run at full speed. A cool one: no duty is
above 100 percent, and no poll has forced the fans since the mode was set, unless its duty is 100. -/
def PollFits (cfg : Config) (priv : BoardMgr) (h : History) (adcVal : Int) : Prop :=
  if ntcAdcToTemp cfg.ntcTable adcVal > cfg.tempWarnC then
    ntcWarnCycles ≤ h.hotPolls cfg + 1 →
      ntcWarnCycles ≤ (h.hotPolls cfg + 1) % 2 ^ 32 ∨ h.forced = true ∨
        EachFan (fun fan => 100 ≤ fan.modeDuty priv.currentMode) priv
  else
    EachFan (fun fan => fan.modeDuty priv.currentMode ≤ 100 ∧
      (h.forced = true → fan.modeDuty priv.currentMode = 100)) priv

theorem Fan.RunsAt.iff_eq {fan : Fan} {p q : Nat} (h : fan.RunsAt p) : fan.RunsAt q ↔ p = q :=
  ⟨fun h' => h.unique h', fun he => he ▸ h⟩

theorem eachFan_congr {P Q : Fan → Prop} {priv : BoardMgr}
    (h : ∀ fan ∈ priv.fans, fan.valid = true → (P fan ↔ Q fan)) : EachFan P priv ↔ EachFan Q priv :=
  forall₃_congr h

theorem eachFan_ntcWorkFn {P : Nat → Prop} (priv : BoardMgr) (adcVal : Int) :
    EachFan (fun fan => P (fan.modeDuty (ntcWorkFn priv adcVal).currentMode)) (ntcWorkFn priv adcVal) ↔
      EachFan (fun fan => P (fan.modeDuty priv.currentMode)) priv := by
  by_cases hread : priv.enabled = true ∧ 0 ≤ adcVal
  · obtain ⟨priv₁, hgoes, hoff⟩ := ntcWorkFn_goes hread.1 hread.2
    obtain ⟨cycles, off, hp⟩ := hoff.frame
    rw [hp]
    cases hgoes with
    | full _ _ => exact eachFan_map rfl
    | hot _ _ | cool _ => rfl
  · rw [ntcWorkFn_skip hread]

theorem Follows.fansFollow_iff {priv : BoardMgr} (hf : Follows cfg priv h) {t : Int}
    (hlast : (h.temps cfg).getLast? = some t) : FansFollow cfg priv h ↔ (ntcWarnCycles ≤ h.hotPolls cfg →
        h.forced = true ∨ EachFan (fun fan => 100 ≤ fan.modeDuty priv.currentMode) priv) ∧
      (t ≤ cfg.tempWarnC → EachFan (fun fan => fan.modeDuty priv.currentMode ≤ 100 ∧
        (h.forced = true → fan.modeDuty priv.currentMode = 100)) priv) := by
  have hfull : EachFan (fun fan => fan.RunsAt 100) priv ↔
      h.forced = true ∨ EachFan (fun fan => 100 ≤ fan.modeDuty priv.currentMode) priv := by
    rw [eachFan_congr fun fan hm hv => (hf.fans fan hm hv).iff_eq]
    by_cases hforced : h.forced = true
    · simp [EachFan, duty, hforced]
    · simp only [EachFan, duty, hforced, if_false, Bool.false_eq_true, false_or]
      exact forall₃_congr fun fan _ _ => by omega
  have hmode : EachFan (fun fan => fan.RunsAt (fan.modeDuty priv.currentMode)) priv ↔
      EachFan (fun fan => fan.modeDuty priv.currentMode ≤ 100 ∧
        (h.forced = true → fan.modeDuty priv.currentMode = 100)) priv := by
    rw [eachFan_congr fun fan hm hv => (hf.fans fan hm hv).iff_eq]
    refine forall₃_congr fun fan _ _ => ?_
    by_cases hforced : h.forced = true
    · simp only [duty, hforced, if_true, forall_const]
      omega
    · simp only [duty, hforced, Bool.false_eq_true, if_false, false_imp_iff, and_true]
      omega
  rw [← hfull, ← hmode, History.hotPolls, le_streak_iff]
  constructor
  · intro hl
    exact ⟨fun hall => hl.full hall.1 hall.2, fun hcool => hl.mode (by rw [hlast]; simpa using hcool)⟩
  · rintro ⟨h1, h2⟩
    exact ⟨fun hlen hall => h1 ⟨hlen, hall⟩, fun hcool => h2 (hcool t hlast)⟩

/-- After every history, with the NTC enabled and a successful read: right after the next poll the fans run at what
the readings and the mode ask for exactly when `PollFits` holds. -/
theorem fans_follow_iff {cfg : Config} (hen : cfg.enabled = true) {ops : List Op} {priv : BoardMgr}
    (hr : Run step Allowed (probe cfg) ops priv) {adcVal : Int} (hread : 0 ≤ adcVal) :
    FansFollow cfg (ntcWorkFn priv adcVal) (History.of cfg (ops ++ [.poll adcVal])) ↔
      PollFits cfg priv (History.of cfg ops) adcVal := by
  have hf := Follows.run hr
  have hof : History.of cfg (ops ++ [.poll adcVal]) = (History.of cfg ops).step cfg (.poll adcVal) := by
    rw [History.of, List.foldl_append]
    rfl
  rw [hof]
  generalize History.of cfg ops = h at hf
  have hhot := History.hotPolls_step (h := h) ⟨hen, hread⟩
  have hforced := History.forced_step (h := h) ⟨hen, hread⟩
  have hlast : ((h.step cfg (.poll adcVal)).temps cfg).getLast? = some (ntcAdcToTemp cfg.ntcTable adcVal) := by
    rw [History.temps_step ⟨hen, hread⟩, List.getLast?_concat]
  rw [(hf.poll adcVal).fansFollow_iff hlast, eachFan_ntcWorkFn (P := fun d => 100 ≤ d),
    eachFan_ntcWorkFn (P := fun d => d ≤ 100 ∧ ((h.step cfg (.poll adcVal)).forced = true → d = 100)),
    PollFits]
  by_cases hot : ntcAdcToTemp cfg.ntcTable adcVal > cfg.tempWarnC
  · rw [if_pos hot] at hhot
    rw [if_pos hot, and_iff_left fun hcool => absurd hot (Int.not_lt.mpr hcool), hforced, hhot]
    refine imp_congr_right fun _ => ?_
    rw [or_assoc]
    exact or_left_comm
  · rw [if_neg hot] at hhot
    rw [hhot] at hforced
    have hsame : (h.step cfg (.poll adcVal)).forced = true ↔ h.forced = true :=
      hforced.trans (or_iff_left (by decide))
    rw [if_neg hot, hhot, and_iff_right fun hle => absurd hle (by decide), hsame]
    exact forall_prop_of_true (Int.not_lt.mp hot)

instance (P : Fan → Prop) [DecidablePred P] (priv : BoardMgr) : Decidable (EachFan P priv) := by
  unfold EachFan; infer_instance

def oneFan : Config where
  fans := [{ pwm := some { period := 40000, dutyCycle := 0, inversed := false, enabled := false },
             periodNs := 40000, dutyPct := 0, dutyArray := [40], valid := true, modes := by decide }]
  ntcTable := [{ tempDc := 20, tableAdc := 100 }, { tempDc := 80, tableAdc := 0 }]
  enabled := true
  tempPoweroffC := 90
  tempWarnC := 55

def hotPoll : Op := .poll 50

theorem fans_follow_iff_mode_set_again : ∃ priv,
    Run step Allowed (probe oneFan) (List.replicate 30 hotPoll ++ [.setCurState 0]) priv ∧
    FansFollow oneFan (ntcWorkFn priv 100)
      (History.of oneFan (List.replicate 30 hotPoll ++ [.setCurState 0] ++ [.poll 100])) := by
  refine Run.exists_of_exec_imp
    (P := fun priv => EachFan (fun fan => fan.modeDuty priv.currentMode ≤ 100 ∧
      ((History.of oneFan (List.replicate 30 hotPoll ++ [.setCurState 0])).forced = true →
        fan.modeDuty priv.currentMode = 100)) priv)
    (by decide +kernel) fun priv hr hfit => ?_
  exact (fans_follow_iff rfl hr (by decide)).mpr hfit

theorem fans_stay_full_when_cool : ¬ ∀ (cfg : Config) (ops : List Op) (priv : BoardMgr) (adcVal : Int),
    cfg.enabled = true → Run step Allowed (probe cfg) ops priv → 0 ≤ adcVal → priv.off = false →
    FansFollow cfg (ntcWorkFn priv adcVal) (History.of cfg (ops ++ [.poll adcVal])) := by
  intro h
  have hrun : ∃ priv, Run step Allowed (probe oneFan) (List.replicate 30 hotPoll) priv ∧
      priv.off = false ∧ ¬ EachFan (fun fan => fan.RunsAt (fan.modeDuty (ntcWorkFn priv 100).currentMode))
        (ntcWorkFn priv 100) := Run.exists_of_exec (by decide +kernel)
  obtain ⟨priv, hr, hon, hnot⟩ := hrun
  have hlast : ((History.of oneFan (List.replicate 30 hotPoll ++ [.poll 100])).temps oneFan).getLast? =
      some 20 := by decide +kernel
  refine hnot ((h oneFan _ priv 100 rfl hr (by decide) hon).mode fun t ht => ?_)
  rw [hlast, Option.mem_some_iff] at ht
  rw [← ht]
  decide

end H713.Board
