import H713.Keystone.Code

/-!
# Keystone.Edge

Overtravel protection with two limit switches. A command is refused by the edge flag of its direction; the end of a
back-off and the end of homing do not always leave that flag right.
-/

namespace H713.Keystone

/-- In the log, newest first, a micro-step of a command follows one in the same direction that left that
limiter active. -/
def Overtravels : List Mstep → Prop
  | e' :: e :: older =>
    (e'.kind = .command ∧ e.dir = e'.dir ∧ e.atLimit = true) ∨ Overtravels (e :: older)
  | _ => False

theorem overtravels_cons {e' : Mstep} {log : List Mstep} : Overtravels (e' :: log) ↔
    (∃ e ∈ log.head?, e'.kind = .command ∧ e.dir = e'.dir ∧ e.atLimit = true) ∨ Overtravels log := by
  cases log with
  | nil | cons e older => simp [Overtravels]

/-- Nobody switches the limit check off or clears the edge flags by hand. -/
def Watched : Op → Prop
  | .setNoLimit v => v = false
  | .clearEdges => False
  | _ => True

/-- An idle driver knows when it is at a limit. -/
def Safe (m : Motor) : Prop :=
  m.pc = .idle → ∀ e ∈ m.log.head?, e.atLimit = true → m.edge e.dir = true

/-- A back-off does not end on the other limiter, and a homing run that ends on its own has set the edge
flag. -/
def EdgeFits (m : Motor) : Op → Prop
  | .backOff raw =>
    match m.pc with
    | .backOff dir i =>
      m.backOffNext dir i raw < m.backStep ∨ limiterStatus m.lim raw (some dir.other) = false
    | _ => True
  | .homing raw =>
    match m.pc with
    | .homingUp _ =>
      limiterStatus m.lim raw none = true → limiterStatus m.lim raw (some .up) = true → m.edgeUp = true
    | .homingDn i =>
      limiterStatus m.lim raw none = true ∨ homingDnMax ≤ i + 1 →
        limiterStatus m.lim raw (some .dn) = true → m.edgeDn = true
    | _ => True
  | _ => True

namespace Motor

variable (m : Motor) (dir : Dir)

@[simp] theorem log_finish : (m.finish dir).log = m.log := by
  cases dir <;> rfl

@[simp] theorem pc_finish : (m.finish dir).pc = .idle := by
  cases dir <;> rfl

@[simp] theorem edge_finish_same : (m.finish dir).edge dir = m.edge dir := by
  cases dir <;> rfl

@[simp] theorem edge_finish_other : (m.finish dir).edge dir.other = false := by
  cases dir <;> rfl

@[simp] theorem noLimit_finish : (m.finish dir).noLimit = m.noLimit := by
  cases dir <;> rfl

@[simp] theorem log_setEdge (v : Bool) : (m.setEdge dir v).log = m.log := by
  cases dir <;> rfl

@[simp] theorem noLimit_setEdge (v : Bool) : (m.setEdge dir v).noLimit = m.noLimit := by
  cases dir <;> rfl

end Motor

section

variable {m m' : Motor} {op : Op}

theorem Goes.noLimit (h : Goes m op m') (hw : Watched op) (hlim : m.noLimit = false) : m'.noLimit = false := by
  cases h with
  | noLimitSet v => exact hw
  | _ => simpa [Motor.mstep, Motor.setPosition] using hlim

theorem Goes.log (h : Goes m op m') (hlim : m.noLimit = false) : m'.log = m.log ∨ ∃ e, m'.log = e :: m.log ∧
      (e.kind = .command → m.pc = .idle ∧ m.edge e.dir = false) := by
  cases h with
  | moved dir raw hpc hgo _ =>
    refine .inr ⟨_, Motor.log_finish _ _, fun _ => ⟨hpc, ?_⟩⟩
    exact hgo.resolve_right (by rw [hlim]; decide)
  | touched dir raw hpc hedge _ _ _ =>
    exact .inr ⟨_, (Motor.log_finish _ _).trans (Motor.log_setEdge _ _ _), fun _ => ⟨hpc, hedge⟩⟩
  | backs dir raw hpc hedge _ _ _ => exact .inr ⟨_, rfl, fun _ => ⟨hpc, hedge⟩⟩
  | backed dir i raw _ _ =>
    exact .inr ⟨_, (Motor.log_finish _ _).trans (Motor.log_setEdge _ _ _), fun hk => (by cases hk)⟩
  | backing | upFound | upOn | dnFound | dnOn | notFound => exact .inr ⟨_, rfl, fun hk => (by cases hk)⟩
  | _ => exact .inl rfl

theorem Goes.not_overtravels (h : Goes m op m') (hlim : m.noLimit = false) (hsafe : Safe m)
    (hlog : ¬ Overtravels m.log) : ¬ Overtravels m'.log := by
  rcases h.log hlim with hl | ⟨e', hl, hcmd⟩
  · rwa [hl]
  · rw [hl, overtravels_cons, not_or]
    refine ⟨?_, hlog⟩
    rintro ⟨e, he, hk, hdir, hat⟩
    obtain ⟨hpc, hedge⟩ := hcmd hk
    rw [← hdir, hsafe hpc e he hat] at hedge
    cases hedge

theorem safe_cons {e : Mstep} {log : List Mstep} (hlog : m.log = e :: log) :
    Safe m ↔ (m.pc = .idle → e.atLimit = true → m.edge e.dir = true) := by
  simp [Safe, hlog]

theorem Goes.safe_iff (h : Goes m op m') (hlim : m.noLimit = false) (hw : Watched op) (hsafe : Safe m) :
    Safe m' ↔ EdgeFits m op := by
  have hbusy : ∀ {p : Motor}, p.pc ≠ .idle → Safe p := fun hp hpc => absurd hpc hp
  cases h with
  | refused | homed | positioned | backStepSet | noLimitSet => exact iff_of_true hsafe trivial
  | moved dir raw hpc hgo hfree =>
    have hoff := hfree.resolve_left (by rw [hlim]; decide)
    refine iff_of_true ((safe_cons (Motor.log_finish _ _)).mpr fun _ hat => ?_) trivial
    exact absurd (hoff.symm.trans hat) (by decide)
  | touched dir raw hpc hedge _ hact _ =>
    refine iff_of_true ((safe_cons ((Motor.log_finish _ _).trans (Motor.log_setEdge _ _ _))).mpr
      fun _ _ => ?_) trivial
    rw [Motor.edge_finish_same, Motor.edge_setEdge_same]
  | backs | homes => exact iff_of_true (hbusy (by intro hc; cases hc)) trivial
  | backing dir i raw hpc hmore =>
    refine iff_of_true (hbusy (by intro hc; cases hc)) ?_
    simp only [EdgeFits, hpc]
    exact .inl hmore
  | backed dir i raw hpc hlast =>
    rw [safe_cons ((Motor.log_finish _ _).trans (Motor.log_setEdge _ _ _))]
    simp only [EdgeFits, hpc, or_iff_right (Int.not_lt.mpr hlast), Motor.edge_finish_other, Motor.pc_finish]
    simp
  | upFound i raw hpc hact | dnFound i raw hpc hact =>
    rw [safe_cons rfl]
    simp [EdgeFits, hpc, hact, Motor.edge, Motor.mstep]
  | upOn i raw pc' hpc hact hpc' =>
    refine iff_of_true (hbusy ?_) ?_
    · rcases hpc' with ⟨j, rfl⟩ | rfl <;> intro hc <;> cases hc
    · simp [EdgeFits, hpc, hact]
  | dnOn i raw hpc hact hmore =>
    refine iff_of_true (hbusy (by intro hc; cases hc)) ?_
    simp only [EdgeFits, hpc, hact]
    rintro (hc | hc)
    · cases hc
    · omega
  | notFound i raw hpc hact hlast =>
    rw [safe_cons rfl]
    simp [EdgeFits, hpc, hlast, Motor.edge, Motor.mstep]
  | edgesCleared => exact absurd hw id

theorem safe_iff_next {m : Motor} (hlim : m.noLimit = false) (hlog : ¬ Overtravels m.log) :
    Safe m ↔ ∀ dir raw, m.pc = .idle → ¬ Overtravels (m.runControl dir raw).log := by
  constructor
  · intro hsafe dir raw hpc
    exact (goes_runControl dir raw hpc).not_overtravels hlim hsafe hlog
  · intro hnext hpc e he hat
    by_contra hedge
    rw [Bool.not_eq_true] at hedge
    have hlog' : ∃ e', (m.runControl e.dir fun _ => none).log = e' :: m.log ∧ e'.kind = .command ∧
        e'.dir = e.dir := by
      generalize hr : m.runControl e.dir (fun _ => none) = m'
      have hg := goes_runControl e.dir (fun _ => none) hpc
      rw [hr] at hg
      cases hg with
      | refused _ _ _ hset _ => rw [hedge] at hset; cases hset
      | moved => exact ⟨_, Motor.log_finish _ _, rfl, rfl⟩
      | touched => exact ⟨_, (Motor.log_finish _ _).trans (Motor.log_setEdge _ _ _), rfl, rfl⟩
      | backs => exact ⟨_, rfl, rfl, rfl⟩
    obtain ⟨e', hl, hk, hd⟩ := hlog'
    exact hnext e.dir (fun _ => none) hpc (hl ▸ overtravels_cons.mpr (.inl ⟨e, he, hk, hd.symm, hat⟩))

end

structure Protected (m : Motor) : Prop where
  noLimit : m.noLimit = false
  safe : Safe m
  log : ¬ Overtravels m.log

theorem Protected.step {m m' : Motor} {op : Op} {u : Unit} (h : Protected m)
    (hok : (Possible m op ∧ Watched op) ∧ EdgeFits m op) (hs : step m op = .ret u m') : Protected m' := by
  have hg := goes_of_step hok.1.1 hs
  exact ⟨hg.noLimit hok.1.2 h.noLimit, (hg.safe_iff h.noLimit hok.1.2 h.safe).mpr hok.2,
    hg.not_overtravels h.noLimit h.safe h.log⟩

theorem Protected.run {lim : Limiters} {ops : List Op} {m : Motor}
    (hr : Run Keystone.step (fun m op => (Possible m op ∧ Watched op) ∧ EdgeFits m op) (probed lim) ops m) :
    Protected m :=
  hr.inv (fun _ _ _ _ hi hok hs => hi.step hok hs)
    ⟨rfl, (by intro _ e he; cases he), (by intro hc; exact hc)⟩

/-- In every run whose micro-steps meet `EdgeFits`, with the limit check on, no command overtravels; and after the
next step no command will exactly when that step meets `EdgeFits`. -/
theorem no_overtravel_iff {lim : Limiters} {ops : List Op} {m : Motor}
    (hr : Run step (fun m op => (Possible m op ∧ Watched op) ∧ EdgeFits m op) (probed lim) ops m) :
    ¬ Overtravels m.log ∧ ∀ op u m', Possible m op → Watched op → step m op = .ret u m' →
      ((∀ dir raw, m'.pc = .idle → ¬ Overtravels (m'.runControl dir raw).log) ↔ EdgeFits m op) := by
  have h := Protected.run hr
  refine ⟨h.log, fun op u m' hp hw hs => ?_⟩
  have hg := goes_of_step hp hs
  rw [← hg.safe_iff h.noLimit hw h.safe]
  exact (safe_iff_next (hg.noLimit hw h.noLimit) (hg.not_overtravels h.noLimit h.safe h.log)).symm

instance (m : Motor) (op : Op) : Decidable (Possible m op) :=
  match op with
  | .command _ _ => inferInstanceAs (Decidable (m.pc = .idle))
  | .home _ => inferInstanceAs (Decidable (m.pc = .idle))
  | .backOff _ =>
    match hpc : m.pc with
    | .backOff dir i => isTrue ⟨dir, i, hpc⟩
    | .idle => isFalse (by rintro ⟨d, j, h⟩; rw [hpc] at h; cases h)
    | .homingUp _ => isFalse (by rintro ⟨d, j, h⟩; rw [hpc] at h; cases h)
    | .homingDn _ => isFalse (by rintro ⟨d, j, h⟩; rw [hpc] at h; cases h)
  | .homing _ =>
    match hpc : m.pc with
    | .homingUp i => isTrue (.inl ⟨i, hpc⟩)
    | .homingDn i => isTrue (.inr ⟨i, hpc⟩)
    | .idle => isFalse (by rintro (⟨j, h⟩ | ⟨j, h⟩) <;> rw [hpc] at h <;> cases h)
    | .backOff _ _ => isFalse (by rintro (⟨j, h⟩ | ⟨j, h⟩) <;> rw [hpc] at h <;> cases h)
  | .setPosition _ => isTrue trivial
  | .setBackStep _ => isTrue trivial
  | .setNoLimit _ => isTrue trivial
  | .clearEdges => isTrue trivial

instance (op : Op) : Decidable (Watched op) := by
  cases op <;> unfold Watched <;> infer_instance

instance (m : Motor) (op : Op) : Decidable (EdgeFits m op) := by
  unfold EdgeFits; repeat' split
  all_goals infer_instance

instance decidableOvertravels : (log : List Mstep) → Decidable (Overtravels log)
  | [] => isFalse id
  | [_] => isFalse id
  | e' :: e :: older =>
    have := decidableOvertravels (e :: older)
    inferInstanceAs (Decidable ((e'.kind = .command ∧ e.dir = e'.dir ∧ e.atLimit = true) ∨
      Overtravels (e :: older)))

def upDown : Limiters where
  limiterNum := 2
  upPin := 10
  dnPin := 11
  activeLevel := 0

def free : Levels := fun _ => some 1

def atUp : Levels := fun pin => if pin = 10 then some 0 else some 1

def atBoth : Levels := fun _ => some 0

theorem no_overtravel_iff_back_off : ∃ m,
    Run step (fun m op => (Possible m op ∧ Watched op) ∧ EdgeFits m op) (probed upDown)
      [.command .up free, .command .up atUp, .backOff atUp, .backOff atUp, .backOff atUp, .backOff atUp,
        .backOff atUp, .command .up atUp, .command .dn free] m ∧ m.log.length = 8 ∧ ¬ Overtravels m.log := by
  refine Run.exists_of_exec_imp (P := fun m => m.log.length = 8) (by decide +kernel) fun m hr hlen => ?_
  exact ⟨hlen, (no_overtravel_iff hr).1⟩

theorem overtravel_after_homing_and_after_back_off : upDown.limiterNum = 2 ∧
    (∃ m, Run step (fun m op => Possible m op ∧ Watched op) (probed upDown)
      [.home free, .homing atUp, .command .up atUp] m ∧ Overtravels m.log) ∧
    ∃ m, Run step (fun m op => Possible m op ∧ Watched op) (probed upDown)
      [.command .up atUp, .backOff atUp, .backOff atUp, .backOff atUp, .backOff atUp, .backOff atBoth,
        .command .dn atBoth] m ∧ Overtravels m.log :=
  ⟨rfl, Run.exists_of_exec (by decide +kernel), Run.exists_of_exec (by decide +kernel)⟩

end H713.Keystone
