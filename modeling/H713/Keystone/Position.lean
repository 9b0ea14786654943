import H713.Keystone.Edge

/-!
# Keystone.Position

`step_cur` against the micro-steps the motor really executed. Those of a back-off and of homing are not counted.
-/

namespace H713.Keystone

open Bytes

/-- The range of an `int`. -/
def InInt (x : Int) : Prop := -2 ^ 31 ≤ x ∧ x < 2 ^ 31
deriving Decidable

theorem toI32_ofI32_eq_iff (x : Int) : toI32 (ofI32 x) = x ↔ InInt x := by
  refine ⟨fun h => ?_, fun h => toI32_ofI32 h.1 h.2⟩
  have hlt := ofI32_lt x
  rw [← h]
  generalize ofI32 x = n at hlt
  unfold InInt toI32
  split <;> omega

/-- With no command and no homing run under way the position is right. -/
def Positioned (m : Motor) : Prop := m.pc = .idle → m.stepCur = m.setTo + m.net

/-- A command that steps stays in the range or backs off, a back-off does not end, and homing ends with
as many micro-steps up as down. -/
def PositionFits (m : Motor) : Op → Prop
  | .command dir raw =>
    (m.edge dir = true ∧ m.noLimit = false) ∨
    (m.noLimit = false ∧ limiterStatus m.lim raw (some dir) = true ∧ m.backStep > 0) ∨
    InInt (m.stepCur + dir.sign)
  | .backOff raw =>
    match m.pc with
    | .backOff dir i => m.backOffNext dir i raw < m.backStep
    | _ => True
  | .homing raw =>
    match m.pc with
    | .homingUp _ => limiterStatus m.lim raw none = true → m.own + Dir.up.sign = 0
    | .homingDn i => limiterStatus m.lim raw none = true ∨ homingDnMax ≤ i + 1 → m.own + Dir.dn.sign = 0
    | _ => True
  | _ => True

structure Tracks (m : Motor) : Prop where
  idle : m.pc = .idle → m.stepCur = m.setTo + m.net
  busy : m.pc ≠ .idle → m.stepCur + m.own = m.setTo + m.net
  back : ∀ dir i, m.pc = .backOff dir i → dir.sign * m.own ≤ 1
  range : InInt m.stepCur

namespace Motor

variable (m : Motor) (dir : Dir)

@[simp] theorem stepCur_finish : (m.finish dir).stepCur = toI32 (ofI32 (m.stepCur + dir.sign)) := by
  cases dir <;> rfl

@[simp] theorem setTo_finish : (m.finish dir).setTo = m.setTo := by
  cases dir <;> rfl

@[simp] theorem net_finish : (m.finish dir).net = m.net := by
  cases dir <;> rfl

@[simp] theorem stepCur_setEdge (v : Bool) : (m.setEdge dir v).stepCur = m.stepCur := by
  cases dir <;> rfl

@[simp] theorem setTo_setEdge (v : Bool) : (m.setEdge dir v).setTo = m.setTo := by
  cases dir <;> rfl

@[simp] theorem net_setEdge (v : Bool) : (m.setEdge dir v).net = m.net := by
  cases dir <;> rfl

end Motor

theorem inInt_wrap (x : Int) : InInt (toI32 (ofI32 x)) := by
  have hlt := ofI32_lt x
  generalize ofI32 x = n at hlt
  unfold InInt toI32
  split <;> omega

theorem Tracks.of_idle {m : Motor} (hpc : m.pc = .idle) (hpos : m.stepCur = m.setTo + m.net)
    (hr : InInt m.stepCur) : Tracks m :=
  ⟨fun _ => hpos, fun hb => absurd hpc hb, fun d i h => (by rw [hpc] at h; cases h), hr⟩

theorem Tracks.busyAt {m : Motor} {pc : Pc} (ht : Tracks m) (hpc : m.pc = pc) (hne : pc ≠ .idle) :
    m.stepCur + m.own = m.setTo + m.net :=
  ht.busy (by rw [hpc]; exact hne)

section

variable {m m' : Motor} {op : Op}

theorem positioned_finish {p : Motor} {dir : Dir} (hpos : p.stepCur + dir.sign = p.setTo + p.net) :
    Positioned (p.finish dir) ↔ InInt (p.stepCur + dir.sign) := by
  rw [← toI32_ofI32_eq_iff, Positioned, Motor.stepCur_finish, Motor.setTo_finish, Motor.net_finish, ← hpos]
  simp

theorem positionFits_command {dir : Dir} {raw : Levels} (hgo : m.edge dir = false ∨ m.noLimit = true)
    (hend : m.noLimit = true ∨ limiterStatus m.lim raw (some dir) = false ∨ m.backStep ≤ 0) :
    PositionFits m (.command dir raw) ↔ InInt (m.stepCur + dir.sign) := by
  have hrun : ¬ (m.edge dir = true ∧ m.noLimit = false) := by
    rintro ⟨he, hn⟩
    rcases hgo with h | h
    · rw [he] at h; cases h
    · rw [hn] at h; cases h
  have hstay : ¬ (m.noLimit = false ∧ limiterStatus m.lim raw (some dir) = true ∧ m.backStep > 0) := by
    rintro ⟨hn, ha, hb⟩
    rcases hend with h | h | h
    · rw [hn] at h; cases h
    · rw [ha] at h; cases h
    · omega
  simp only [PositionFits]
  rw [or_iff_right hrun, or_iff_right hstay]

theorem Goes.tracks (h : Goes m op m') (ht : Tracks m) (hfit : PositionFits m op) : Tracks m' := by
  have hfinish : ∀ {p : Motor} {dir : Dir}, p.stepCur + dir.sign = p.setTo + p.net →
      InInt (p.stepCur + dir.sign) → Tracks (p.finish dir) := fun {p dir} hpos hin =>
    .of_idle (p.pc_finish dir) ((positioned_finish hpos).mpr hin (p.pc_finish dir))
      (p.stepCur_finish dir ▸ inInt_wrap _)
  cases h with
  | refused | homed => exact ht
  | moved dir raw hpc hgo hfree =>
    rw [positionFits_command hgo (hfree.imp_right .inl)] at hfit
    have hpos := ht.idle hpc
    exact hfinish (by simp only [Motor.mstep]; omega) hfit
  | touched dir raw hpc hedge _ _ hback =>
    rw [positionFits_command (.inl hedge) (.inr (.inr hback))] at hfit
    have hpos := ht.idle hpc
    exact hfinish (by simp only [Motor.stepCur_setEdge, Motor.setTo_setEdge, Motor.net_setEdge, Motor.mstep]; omega)
      (by rw [Motor.stepCur_setEdge]; exact hfit)
  | backs dir raw hpc _ _ _ _ =>
    have hpos := ht.idle hpc
    refine ⟨fun hc => (by cases hc), fun _ => ?_, fun d i hd => ?_, ht.range⟩
    · simp only [Motor.mstep]
      omega
    · cases hd
      cases dir <;> simp only [Motor.mstep, Dir.sign] <;> decide
  | backing dir i raw hpc _ =>
    have hpos := ht.busyAt hpc (by simp)
    have hback := ht.back dir i hpc
    refine ⟨fun hc => (by cases hc), fun _ => ?_, fun d i hd => ?_, ht.range⟩
    · simp only [Motor.mstep]
      omega
    · cases hd
      cases dir <;> simp only [Motor.mstep, Dir.other, Dir.sign] at hback ⊢ <;> omega
  | backed dir i raw hpc hlast =>
    simp only [PositionFits, hpc] at hfit
    omega
  | homes raw hpc =>
    have hpos := ht.idle hpc
    exact ⟨fun hc => (by cases hc), fun _ => (by dsimp only; omega), fun d i hd => (by cases hd), ht.range⟩
  | upFound i raw hpc hact =>
    have hpos := ht.busyAt hpc (by simp)
    simp only [PositionFits, hpc, hact, forall_const] at hfit
    exact .of_idle rfl (by simp only [Motor.mstep]; omega) ht.range
  | upOn i raw pc' hpc _ hpc' =>
    have hpos := ht.busyAt hpc (by simp)
    have hbusy : m.stepCur + (m.own + Dir.up.sign) = m.setTo + (m.net + Dir.up.sign) := by omega
    rcases hpc' with ⟨j, rfl⟩ | rfl <;>
      exact ⟨fun hc => (by cases hc), fun _ => hbusy, fun d i hd => (by cases hd), ht.range⟩
  | dnFound i raw hpc hact =>
    have hpos := ht.busyAt hpc (by simp)
    simp only [PositionFits, hpc, hact, true_or, forall_const] at hfit
    exact .of_idle rfl (by simp only [Motor.mstep]; omega) ht.range
  | dnOn i raw hpc _ _ =>
    have hpos := ht.busyAt hpc (by simp)
    exact ⟨fun hc => (by cases hc), fun _ => (by simp only [Motor.mstep]; omega), fun d i hd => (by cases hd),
      ht.range⟩
  | notFound i raw hpc _ hlast =>
    have hpos := ht.busyAt hpc (by simp)
    simp only [PositionFits, hpc, hlast, or_true, forall_const] at hfit
    exact .of_idle rfl (by simp only [Motor.mstep]; omega) ht.range
  | positioned val =>
    refine ⟨fun _ => (by simp [Motor.setPosition]), fun _ => (by simp [Motor.setPosition]), fun d i _ => ?_, ?_⟩
    · simp [Motor.setPosition]
    · simp only [Motor.setPosition, InInt]
      omega
  | backStepSet | noLimitSet | edgesCleared => exact { ht with }

theorem Goes.fits_of_positioned (h : Goes m op m') (ht : Tracks m) (hlo : InInt (m.stepCur - 1))
    (hhi : InInt (m.stepCur + 1)) (hpos' : Positioned m') : PositionFits m op := by
  have hin : ∀ dir : Dir, InInt (m.stepCur + dir.sign) := by
    intro dir
    cases dir
    · exact hhi
    · exact hlo
  cases h with
  | refused dir raw _ hedge hlim => exact .inl ⟨hedge, hlim⟩
  | moved dir | touched dir => exact .inr (.inr (hin dir))
  | backs dir raw _ _ hlim hact hback => exact .inr (.inl ⟨hlim, hact, hback⟩)
  | backing dir i raw hpc hmore => simpa only [PositionFits, hpc] using hmore
  | backed dir i raw hpc hlast =>
    have hpos := ht.busyAt hpc (by simp)
    have hback := ht.back dir i hpc
    have hend := hpos' (Motor.pc_finish _ _)
    rw [Motor.stepCur_finish, Motor.stepCur_setEdge] at hend
    rw [show toI32 (ofI32 ((m.mstep dir.other .backOff raw).stepCur + dir.sign)) = m.stepCur + dir.sign from
      toI32_ofI32 (hin dir).1 (hin dir).2] at hend
    simp only [Motor.setTo_finish, Motor.net_finish, Motor.setTo_setEdge, Motor.net_setEdge,
      Motor.mstep] at hend
    exfalso
    cases dir <;> simp only [Dir.sign, Dir.other] at hback hend <;> omega
  | homed | homes | positioned | backStepSet | noLimitSet | edgesCleared => trivial
  | upFound i raw hpc hact =>
    have hpos := ht.busyAt hpc (by simp)
    have hend : m.stepCur = m.setTo + (m.net + Dir.up.sign) := hpos' rfl
    simp only [PositionFits, hpc]
    intro _
    omega
  | upOn i raw pc' hpc hact _ => simp [PositionFits, hpc, hact]
  | dnFound i raw hpc hact | notFound i raw hpc hact hlast =>
    have hpos := ht.busyAt hpc (by simp)
    have hend : m.stepCur = m.setTo + (m.net + Dir.dn.sign) := hpos' rfl
    simp only [PositionFits, hpc]
    intro _
    omega
  | dnOn i raw hpc hact hmore =>
    simp only [PositionFits, hpc, hact]
    rintro (hc | hc)
    · cases hc
    · omega

end

theorem Tracks.run {lim : Limiters} {ops : List Op} {m : Motor}
    (hr : Run step (fun m op => Possible m op ∧ PositionFits m op) (probed lim) ops m) : Tracks m :=
  hr.inv (fun _ _ _ _ hi hok hs => (goes_of_step hok.1 hs).tracks hi hok.2)
    (.of_idle rfl rfl (show InInt 0 by decide))

/-- In every run whose steps meet `PositionFits`, `step_cur` is right whenever the driver is idle; the next step
keeps it right if it meets `PositionFits`, and, inside the range of an `int`, only then. -/
theorem position_iff {lim : Limiters} {ops : List Op} {m : Motor}
    (hr : Run step (fun m op => Possible m op ∧ PositionFits m op) (probed lim) ops m) :
    Positioned m ∧ ∀ op u m', Possible m op → step m op = .ret u m' → (PositionFits m op → Positioned m') ∧
      (InInt (m.stepCur - 1) → InInt (m.stepCur + 1) → Positioned m' → PositionFits m op) := by
  have ht := Tracks.run hr
  refine ⟨ht.idle, fun op u m' hp hs => ?_⟩
  have hg := goes_of_step hp hs
  exact ⟨fun hfit => (hg.tracks ht hfit).idle, fun hlo hhi hpos => hg.fits_of_positioned ht hlo hhi hpos⟩

instance (m : Motor) : ∀ op, Decidable (PositionFits m op)
  | .command _ _ | .home _ | .setPosition _ | .setBackStep _ | .setNoLimit _ | .clearEdges => by
    unfold PositionFits; infer_instance
  | .backOff _ | .homing _ => by
    unfold PositionFits
    exact match m.pc with
      | .idle | .backOff _ _ | .homingUp _ | .homingDn _ => inferInstance

theorem position_iff_homed : ∃ m, Run step (fun m op => Possible m op ∧ PositionFits m op) (probed upDown)
      ([.home free] ++ List.replicate 199 (.homing free) ++ [.homing atUp, .setPosition 700, .command .dn free,
        .command .dn free, .command .up free]) m ∧ m.log.length = 203 ∧ m.stepCur = 699 ∧ Positioned m := by
  refine Run.exists_of_exec_imp
    (P := fun m => m.log.length = 203 ∧ m.stepCur = 699) (by decide +kernel) fun m hr hend => ?_
  obtain ⟨hlen, hcur⟩ := hend
  exact ⟨hlen, hcur, (position_iff hr).1⟩

theorem position_lost_in_back_off_and_homing :
    (∃ m, Run step Possible (probed upDown) [.command .up atUp, .backOff atUp, .backOff atUp, .backOff atUp,
      .backOff atUp, .backOff atUp] m ∧ m.pc = .idle ∧ m.stepCur = 1 ∧ m.setTo + m.net = -4) ∧
    ∃ m, Run step Possible (probed upDown) [.home free, .homing atUp] m ∧ m.pc = .idle ∧
      m.stepCur = 0 ∧ m.setTo + m.net = 1 :=
  ⟨Run.exists_of_exec (by decide +kernel), Run.exists_of_exec (by decide +kernel)⟩

end H713.Keystone
