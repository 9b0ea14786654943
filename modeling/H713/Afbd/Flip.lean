import Mathlib.Data.UInt
import H713.Lib.Run

/-!
# Afbd.Flip

Page flips of the AFBD scanout driver. Every register write of an update and of the interrupt handler is a step, and
a vsync, at which the hardware takes the source over, can come between any two.
-/

namespace H713.Afbd

structure Source where
  addr : UInt32
  flip : Nat

structure Regs where
  irqStatus : Bool
  irqEnable : Bool
  ctrl : UInt32
  ready : Bool
  status : UInt32
  stride : UInt32
  src : Source
  scan : Source

structure Fb where
  addr : UInt64
  pitch : UInt32

inductive UpdatePc where
  | src
  | status
  | ctrl
  | ready
  | event
deriving DecidableEq

structure Update where
  flip : Nat
  fb : Option Fb
  event : Bool
  pc : UpdatePc
  ready : Option Nat

inductive IrqPc where
  | idle
  | seen
  | acked
deriving DecidableEq

structure Event where
  flip : Nat
  ready : Option Nat
deriving DecidableEq

structure Delivery where
  event : Event
  vsyncs : Nat
  scan : Nat
deriving DecidableEq

structure Sys where
  regs : Regs
  stride : UInt32
  vblankOn : Bool
  vsyncs : Nat
  flips : Nat
  update : Option Update
  irq : IrqPc
  armed : List Event
  delivered : List Delivery

def Sys.vsync (s : Sys) : Sys :=
  { s with
    vsyncs := s.vsyncs + 1
    regs := { s.regs with
      irqStatus := true
      ready := false
      status := if s.regs.ready then s.regs.status ||| 2 else s.regs.status
      scan := if s.regs.ready then s.regs.src else s.regs.scan } }

def Sys.deliver (s : Sys) (es : List Event) : Sys :=
  { s with delivered := s.delivered ++ es.map fun e => ⟨e, s.vsyncs, s.regs.scan.flip⟩ }

def Sys.advance (s : Sys) (u : Update) : Sys :=
  match u.pc with
  | .src =>
    match u.fb with
    | none => { s with update := some { u with pc := .event } }
    | some fb =>
      { s with
        regs := { s.regs with
          stride := if fb.pitch ≠ s.stride then fb.pitch else s.regs.stride
          src := ⟨fb.addr.toUInt32, u.flip⟩ }
        stride := fb.pitch
        update := some { u with pc := .status } }
  | .status =>
    -- the bits that are read are written back to clear them
    { s with regs := { s.regs with status := 0 }, update := some { u with pc := .ctrl } }
  | .ctrl =>
    { s with regs := { s.regs with ctrl := s.regs.ctrl ||| 1 }, update := some { u with pc := .ready } }
  | .ready =>
    { s with
      regs := { s.regs with ready := true }
      update := some { u with pc := .event, ready := some s.vsyncs } }
  | .event =>
    let s := { s with update := none }
    if ¬ u.event then s
    -- drm_crtc_vblank_get enables the interrupt, or fails
    else if s.vblankOn then
      { s with regs := { s.regs with irqEnable := true }, armed := s.armed ++ [⟨u.flip, u.ready⟩] }
    else s.deliver [⟨u.flip, u.ready⟩]

def Sys.handleIrq (s : Sys) : Sys :=
  match s.irq with
  | .idle => if s.regs.irqStatus then { s with irq := .seen } else s
  | .seen => { s with regs := { s.regs with irqStatus := false }, irq := .acked }
  | .acked =>
    let s := { s with irq := .idle }
    if s.regs.irqEnable then { s.deliver s.armed with armed := [] } else s

inductive Op where
  | vsync
  | commit (fb : Option Fb) (event : Bool)
  | update
  | irq
  | vblankOn
  | vblankOff
  | vblankIdle

def after (s : Sys) : Op → Sys
  | .vsync => s.vsync
  | .commit fb event =>
    { s with flips := s.flips + 1, update := some ⟨s.flips + 1, fb, event, .src, none⟩ }
  | .update =>
    match s.update with
    | none => s
    | some u => s.advance u
  | .irq => s.handleIrq
  | .vblankOn => { s with vblankOn := true }
  | .vblankOff => { s with vblankOn := false, regs := { s.regs with irqEnable := false } }
  | .vblankIdle => { s with regs := { s.regs with irqEnable := false } }

def step (s : Sys) (o : Op) : Out Sys Unit := .ret () (after s o)

/-- The core runs one commit of a CRTC after the other, and stops its vblanks when no event is armed. -/
def Possible (s : Sys) : Op → Prop
  | .commit _ _ => s.update = none
  | .vblankOff => s.update = none ∧ s.armed = []
  | .vblankIdle => s.armed = []
  | _ => True

/-- There has been a vsync since READY, so that this flip or a later one is scanned out. -/
def Timely (dl : Delivery) : Prop :=
  ∀ r, dl.event.ready = some r → r < dl.vsyncs ∧ dl.event.flip ≤ dl.scan

def Sys.Pending (s : Sys) : Prop := s.regs.irqStatus ∨ s.irq ≠ .idle
deriving Decidable

def Update.Arms (u : Update) : Prop := u.pc = .event ∧ u.event
deriving Decidable

/-- An event is armed with no vsync pending and vblanks on, or a vsync after READY. -/
def Fits (s : Sys) : Op → Prop
  | .update => ∀ u ∈ s.update, u.Arms → ∀ r ∈ u.ready, s.Pending ∨ ¬ s.vblankOn → r < s.vsyncs
  | _ => True

instance (s : Sys) : DecidablePred (Possible s) := fun o => by
  cases o <;> unfold Possible <;> infer_instance

instance (s : Sys) : DecidablePred (Fits s) := fun o => by
  cases o <;> unfold Fits <;> infer_instance

def Sys.Latches (s : Sys) (flip : Nat) (ready : Option Nat) : Prop :=
  ∀ r, ready = some r → r ≤ s.vsyncs ∧ flip ≤ s.regs.src.flip ∧ (r = s.vsyncs → s.regs.ready) ∧
    (r < s.vsyncs → flip ≤ s.regs.scan.flip)

structure Inv (s : Sys) : Prop where
  src : s.regs.src.flip ≤ s.flips
  number : ∀ u, s.update = some u → u.flip = s.flips
  written : ∀ u, s.update = some u → u.pc = .status ∨ u.pc = .ctrl ∨ u.pc = .ready →
    u.flip ≤ s.regs.src.flip
  update : ∀ u, s.update = some u → s.Latches u.flip u.ready
  armed : ∀ e ∈ s.armed, s.Latches e.flip e.ready
  late : ∀ e ∈ s.armed, ∀ r, e.ready = some r → s.Pending → r < s.vsyncs
  timely : ∀ dl ∈ s.delivered, Timely dl

variable {s : Sys} {e : Event}

section

variable {flip : Nat} {ready : Option Nat} (h : s.Latches flip ready)

include h

theorem Sys.Latches.mono {t : Sys} (hv : t.vsyncs = s.vsyncs) (hsrc : s.regs.src.flip ≤ t.regs.src.flip)
    (hready : s.regs.ready → t.regs.ready) (hscan : t.regs.scan = s.regs.scan) : t.Latches flip ready := by
  intro r hr
  obtain ⟨hle, hflip, hwait, hdone⟩ := h r hr
  rw [hv, hscan]
  exact ⟨hle, by omega, fun he => hready (hwait he), hdone⟩

theorem Sys.Latches.vsync : s.vsync.Latches flip ready := by
  intro r hr
  obtain ⟨hle, hflip, hwait, hdone⟩ := h r hr
  refine ⟨Nat.le_succ_of_le hle, hflip, ?_, ?_⟩
  · intro he
    simp only [Sys.vsync] at he
    omega
  · intro _
    simp only [Sys.vsync]
    split
    · exact hflip
    · rename_i hn
      exact hdone (Nat.lt_of_le_of_ne hle fun he => hn (hwait he))

end

theorem Sys.Latches.timely (h : s.Latches e.flip e.ready) (hlate : ∀ r, e.ready = some r → r < s.vsyncs) :
    Timely ⟨e, s.vsyncs, s.regs.scan.flip⟩ :=
  fun r hr => ⟨hlate r hr, (h r hr).2.2.2 (hlate r hr)⟩

namespace Inv

variable {s : Sys}

section

variable (h : Inv s)

include h

theorem vsync : Inv s.vsync where
  src := h.src
  number := h.number
  written := h.written
  update u hu := (h.update u hu).vsync
  armed e he := (h.armed e he).vsync
  late e he r hr _ := Nat.lt_succ_of_le ((h.armed e he) r hr).1
  timely := h.timely

theorem commit (fb : Option Fb) (event : Bool) : Inv (after s (.commit fb event)) where
  src := Nat.le_succ_of_le h.src
  number u hu := by cases hu; rfl
  written u hu hpc := by cases hu; simp at hpc
  update u hu := by cases hu; intro r hr; cases hr
  armed e he := (h.armed e he).mono rfl (Nat.le_refl _) id rfl
  late := h.late
  timely := h.timely

theorem deliver {es : List Event} (hes : ∀ e ∈ es, s.Latches e.flip e.ready)
    (hlate : ∀ e ∈ es, ∀ r, e.ready = some r → r < s.vsyncs) : Inv (s.deliver es) where
  src := h.src
  number := h.number
  written := h.written
  update := h.update
  armed := h.armed
  late := h.late
  timely dl hdl := by
    simp only [Sys.deliver, List.mem_append, List.mem_map] at hdl
    obtain hold | ⟨e, he, rfl⟩ := hdl
    · exact h.timely dl hold
    · exact (hes e he).timely (hlate e he)

theorem handleIrq : Inv s.handleIrq := by
  unfold Sys.handleIrq
  split
  · rename_i hidle
    split
    · rename_i hst
      exact { h with late := fun e he r hr _ => h.late e he r hr (.inl hst) }
    · exact h
  · rename_i hseen
    exact { h with
      update := fun u hu => (h.update u hu).mono rfl (Nat.le_refl _) id rfl
      armed := fun e he => (h.armed e he).mono rfl (Nat.le_refl _) id rfl
      late := fun e he r hr _ => h.late e he r hr (.inr (by simp [hseen])) }
  · rename_i hacked
    have hlate : ∀ e ∈ s.armed, ∀ r, e.ready = some r → r < s.vsyncs :=
      fun e he r hr => h.late e he r hr (.inr (by simp [hacked]))
    have hidle : Inv { s with irq := .idle } := { h with late := fun e he r hr _ => hlate e he r hr }
    dsimp only
    split
    · have hd := hidle.deliver h.armed hlate
      exact { hd with
        armed := fun e he => by cases he
        late := fun e he => by cases he }
    · exact hidle

theorem replace {t : Sys} {u : Update} (hnumber : u.flip = s.flips)
    (hwritten : u.pc = .status ∨ u.pc = .ctrl ∨ u.pc = .ready → u.flip ≤ t.regs.src.flip)
    (hlatches : t.Latches u.flip u.ready) (hsrc : s.regs.src.flip ≤ t.regs.src.flip)
    (hsrc' : t.regs.src.flip ≤ s.flips) (hready : s.regs.ready → t.regs.ready)
    (hrest : t = { s with regs := t.regs, stride := t.stride, update := some u })
    (hscan : t.regs.scan = s.regs.scan) (hstatus : t.regs.irqStatus = s.regs.irqStatus) : Inv t := by
  have hv : t.vsyncs = s.vsyncs := by rw [hrest]
  have hup : t.update = some u := by rw [hrest]
  have harmed : t.armed = s.armed := by rw [hrest]
  have hirq : t.irq = s.irq := by rw [hrest]
  have hflips : t.flips = s.flips := by rw [hrest]
  refine ⟨by omega, ?_, ?_, ?_, ?_, ?_, ?_⟩
  · intro w hw
    cases hup.symm.trans hw
    rw [hflips, hnumber]
  · intro w hw
    cases hup.symm.trans hw
    exact hwritten
  · intro w hw
    cases hup.symm.trans hw
    exact hlatches
  · rw [harmed]
    exact fun e he => (h.armed e he).mono hv hsrc hready hscan
  · rw [harmed, hv]
    intro e he r hr hp
    refine h.late e he r hr ?_
    simpa only [Sys.Pending, hstatus, hirq] using hp
  · have hdel : t.delivered = s.delivered := by rw [hrest]
    rw [hdel]
    exact h.timely

theorem event {u : Update} (hu : s.update = some u) (hpc : u.pc = .event) (hf : Fits s .update) :
    Inv (s.advance u) := by
  have hnone : Inv { s with update := none } :=
    { h with
      number := fun w hw => by cases hw
      written := fun w hw => by cases hw
      update := fun w hw => by cases hw }
  unfold Sys.advance
  rw [hpc]
  dsimp only
  split
  · exact hnone
  · rename_i hev
    have harms : u.Arms := ⟨hpc, by simpa using hev⟩
    split
    · exact { hnone with
        armed := fun e he => by
          rcases List.mem_append.mp he with hold | hnew
          · exact h.armed e hold
          · cases List.mem_singleton.mp hnew
            exact h.update u hu
        late := fun e he r hr hp => by
          rcases List.mem_append.mp he with hold | hnew
          · exact h.late e hold r hr hp
          · cases List.mem_singleton.mp hnew
            exact hf u hu harms r hr (.inl hp) }
    · rename_i hoff
      refine hnone.deliver ?_ ?_
      · intro e he
        cases List.mem_singleton.mp he
        exact h.update u hu
      · intro e he r hr
        cases List.mem_singleton.mp he
        exact hf u hu harms r hr (.inr hoff)

theorem advance {u : Update} (hu : s.update = some u) (hf : Fits s .update) : Inv (s.advance u) := by
  have hnum := h.number u hu
  have hsrc := h.src
  have hlat := h.update u hu
  have hwr := h.written u hu
  cases hpc : u.pc with
  | src =>
    unfold Sys.advance
    rw [hpc]
    dsimp only
    split
    · exact h.replace (u := { u with pc := .event }) hnum (by simp) hlat (Nat.le_refl _) hsrc id rfl rfl rfl
    · refine h.replace (u := { u with pc := .status }) hnum (fun _ => Nat.le_refl _) ?_ (by simp; omega)
        (by simp; omega) id rfl rfl rfl
      exact hlat.mono rfl (by simp; omega) id rfl
  | status =>
    unfold Sys.advance
    rw [hpc]
    exact h.replace (u := { u with pc := .ctrl }) hnum (fun _ => hwr (.inl hpc))
      (hlat.mono rfl (Nat.le_refl _) id rfl) (Nat.le_refl _) hsrc id rfl rfl rfl
  | ctrl =>
    unfold Sys.advance
    rw [hpc]
    exact h.replace (u := { u with pc := .ready }) hnum (fun _ => hwr (.inr (.inl hpc)))
      (hlat.mono rfl (Nat.le_refl _) id rfl) (Nat.le_refl _) hsrc id rfl rfl rfl
  | ready =>
    unfold Sys.advance
    rw [hpc]
    refine h.replace (u := { u with pc := .event, ready := some s.vsyncs }) hnum (by simp) ?_
      (Nat.le_refl _) hsrc (fun _ => rfl) rfl rfl rfl
    -- the flip waits for the next vsync from here on
    intro r hr
    cases hr
    exact ⟨Nat.le_refl _, hwr (.inr (.inr hpc)), fun _ => rfl, fun hlt => absurd hlt (Nat.lt_irrefl _)⟩
  | event => exact h.event hu hpc hf

theorem after {o : Op} (hp : Possible s o) (hf : Fits s o) : Inv (Afbd.after s o) := by
  cases o with
  | vsync => exact h.vsync
  | commit fb event => exact h.commit fb event
  | update =>
    simp only [Afbd.after]
    split
    · exact h
    · rename_i u hu
      exact h.advance hu hf
  | irq => exact h.handleIrq
  | vblankOn => exact { h with }
  | vblankOff | vblankIdle =>
    exact { h with
      update := fun u hu => (h.update u hu).mono rfl (Nat.le_refl _) id rfl
      armed := fun e he => (h.armed e he).mono rfl (Nat.le_refl _) id rfl }

end

end Inv

theorem acked_delivers (hirq : s.irq = .acked) (hen : s.regs.irqEnable) (he : e ∈ s.armed) :
    ∃ ops s', Run step Possible s ops s' ∧ (⟨e, s.vsyncs, s.regs.scan.flip⟩ : Delivery) ∈ s'.delivered := by
  refine ⟨[.irq], _, .cons trivial rfl .nil, ?_⟩
  simp [after, Sys.handleIrq, hirq, hen, Sys.deliver, he]

theorem seen_delivers (hirq : s.irq = .seen) (hen : s.regs.irqEnable) (he : e ∈ s.armed) :
    ∃ ops s', Run step Possible s ops s' ∧ (⟨e, s.vsyncs, s.regs.scan.flip⟩ : Delivery) ∈ s'.delivered := by
  have hstep : step s .irq =
      .ret () { s with regs := { s.regs with irqStatus := false }, irq := .acked } := by
    simp [step, after, Sys.handleIrq, hirq]
  obtain ⟨ops, s', hr, hd⟩ :=
    acked_delivers (s := { s with regs := { s.regs with irqStatus := false }, irq := .acked }) rfl hen he
  exact ⟨.irq :: ops, s', .cons trivial hstep hr, hd⟩

theorem pending_delivers (hp : s.Pending) (hen : s.regs.irqEnable) (he : e ∈ s.armed) :
    ∃ ops s', Run step Possible s ops s' ∧ (⟨e, s.vsyncs, s.regs.scan.flip⟩ : Delivery) ∈ s'.delivered := by
  cases hirq : s.irq with
  | idle =>
    have hst : s.regs.irqStatus := hp.resolve_right (by simp [hirq])
    have hstep : step s .irq = .ret () { s with irq := .seen } := by
      simp [step, after, Sys.handleIrq, hirq, hst]
    obtain ⟨ops, s', hr, hd⟩ := seen_delivers (s := { s with irq := .seen }) rfl hen he
    exact ⟨.irq :: ops, s', .cons trivial hstep hr, hd⟩
  | seen => exact seen_delivers hirq hen he
  | acked => exact acked_delivers hirq hen he

theorem early_of_not_fits (h : Inv s) (hf : ¬ Fits s .update) :
    ∃ ops s', Run step Possible s (.update :: ops) s' ∧ ∃ dl ∈ s'.delivered, ¬ Timely dl := by
  simp only [Fits, not_forall] at hf
  obtain ⟨u, hu, ⟨hpc, hev⟩, r, hr, hcond, hnot⟩ := hf
  have hle := ((h.update u hu) r hr).1
  have hearly : ¬ Timely ⟨⟨u.flip, u.ready⟩, s.vsyncs, s.regs.scan.flip⟩ := by
    intro ht
    exact hnot (ht r hr).1
  have hafter : after s .update = s.advance u := by
    rw [Option.mem_def] at hu
    simp [after, hu]
  by_cases hon : s.vblankOn
  · have hp : s.Pending := hcond.resolve_right (by simp [hon])
    have hadv : s.advance u =
        { s with
          update := none
          regs := { s.regs with irqEnable := true }
          armed := s.armed ++ [⟨u.flip, u.ready⟩] } := by
      simp [Sys.advance, hpc, hev, hon]
    have hp' : (s.advance u).Pending := by rw [hadv]; exact hp
    obtain ⟨ops, s', hrun, hdel⟩ :=
      pending_delivers (e := ⟨u.flip, u.ready⟩) hp' (by rw [hadv]) (by simp [hadv])
    rw [hadv] at hdel
    exact ⟨ops, s', .cons trivial (by rw [step, hafter]) hrun, _, hdel, hearly⟩
  · have hadv : s.advance u = Sys.deliver { s with update := none } [⟨u.flip, u.ready⟩] := by
      simp [Sys.advance, hpc, hev, hon]
    refine ⟨[], _, .cons trivial rfl .nil, ⟨⟨u.flip, u.ready⟩, s.vsyncs, s.regs.scan.flip⟩, ?_, hearly⟩
    rw [hafter, hadv]
    simp [Sys.deliver]

/-- A driver that has not flipped yet, whatever the registers hold. -/
structure Start (s : Sys) : Prop where
  src : s.regs.src.flip ≤ s.flips
  update : s.update = none
  armed : s.armed = []
  delivered : s.delivered = []

theorem Start.inv (h : Start s) : Inv s where
  src := h.src
  number u hu := by cases h.update.symm.trans hu
  written u hu := by cases h.update.symm.trans hu
  update u hu := by cases h.update.symm.trans hu
  armed e he := by rw [h.armed] at he; cases he
  late e he := by rw [h.armed] at he; cases he
  timely dl hdl := by rw [h.delivered] at hdl; cases hdl

/-- Events come after a vsync since their READY write in every run whose updates fit; the event of an update that
does not fit can be delivered too early. -/
theorem events_timely {s s' : Sys} {ops : List Op} (h : Start s)
    (hr : Run step (fun s o => Possible s o ∧ Fits s o) s ops s') :
    (∀ dl ∈ s'.delivered, Timely dl) ∧ (¬ Fits s' .update → ∃ ops s'', Run step Possible s' (.update :: ops) s'' ∧
        ∃ dl ∈ s''.delivered, ¬ Timely dl) := by
  have hinv : Inv s' := by
    refine hr.inv (I := Inv) ?_ h.inv
    rintro s o ⟨⟩ s' hi ⟨hp, hf⟩ hs
    cases hs
    exact hi.after hp hf
  exact ⟨hinv.timely, early_of_not_fits hinv⟩

def booted : Sys where
  regs := ⟨true, false, 0, false, 0, 5120, ⟨0x6c100000, 0⟩, ⟨0x6c100000, 0⟩⟩
  stride := 5120
  vblankOn := true
  vsyncs := 1
  flips := 0
  update := none
  irq := .idle
  armed := []
  delivered := []

def flipOps : List Op :=
  [.commit (some ⟨0x6d000000, 5120⟩) true, .update, .update, .update, .update, .update]

theorem events_timely_booted : ∃ s, Run step (fun s o => Possible s o ∧ Fits s o) booted
        ([.irq, .irq, .irq] ++ flipOps ++ [.vsync, .irq, .irq, .irq]) s ∧
      s.delivered = [⟨⟨1, some 1⟩, 2, 1⟩] ∧ ∀ dl ∈ s.delivered, Timely dl := by
  refine Run.exists_of_exec_imp
    (P := fun s => s.delivered = [⟨⟨1, some 1⟩, 2, 1⟩]) (by decide +kernel) fun s hr hd => ?_
  exact ⟨hd, (events_timely ⟨Nat.le_refl _, rfl, rfl, rfl⟩ hr).1⟩

theorem stale_vsync_delivers : ∃ s, Run step Possible booted (flipOps ++ [.irq, .irq, .irq]) s ∧
      s.delivered = [⟨⟨1, some 1⟩, 1, 0⟩] ∧ s.regs.scan.flip = 0 ∧ s.regs.ready :=
  Run.exists_of_exec (by decide +kernel)

def asked (p : Nat × List Nat) : Op → Nat × List Nat
  | .commit _ event => (p.1 + 1, p.2 ++ if event then [p.1 + 1] else [])
  | _ => p

def Sys.events (s : Sys) : List Nat :=
  s.delivered.map (·.event.flip) ++ s.armed.map (·.flip) ++
    s.update.elim [] fun u => if u.event then [u.flip] else []

structure Once (s : Sys) (p : Nat × List Nat) : Prop where
  flips : s.flips = p.1
  events : s.events = p.2
  enabled : s.armed ≠ [] → s.regs.irqEnable
  off : ¬ s.vblankOn → s.armed = []

variable {p : Nat × List Nat}

theorem Once.advance (h : Once s p) {u : Update} (hu : s.update = some u) : Once (s.advance u) p := by
  obtain ⟨hflips, hevents, henabled, hoff⟩ := h
  rw [Sys.events, hu] at hevents
  unfold Sys.advance
  split
  · split <;> exact ⟨hflips, hevents, henabled, hoff⟩
  · exact ⟨hflips, hevents, henabled, hoff⟩
  · exact ⟨hflips, hevents, henabled, hoff⟩
  · exact ⟨hflips, hevents, henabled, hoff⟩
  · dsimp only
    split
    · rename_i hev
      exact ⟨hflips, by simpa [Sys.events, hev] using hevents, henabled, hoff⟩
    rename_i hev
    rw [not_not] at hev
    split
    · rename_i hon
      exact ⟨hflips, by simpa [Sys.events, hev] using hevents, fun _ => rfl, fun hn => absurd hon hn⟩
    · rename_i hn
      have harmed := hoff hn
      exact ⟨hflips, by simpa [Sys.events, Sys.deliver, hev, harmed] using hevents, henabled, hoff⟩

theorem Once.after (h : Once s p) {o : Op} (hp : Possible s o) : Once (after s o) (asked p o) := by
  obtain ⟨hflips, hevents, henabled, hoff⟩ := id h
  cases o with
  | vsync => exact ⟨hflips, hevents, henabled, hoff⟩
  | commit fb event =>
    rw [Sys.events, show s.update = none from hp] at hevents
    refine ⟨congrArg (· + 1) hflips, ?_, henabled, hoff⟩
    simp only [Option.elim_none, List.append_nil] at hevents
    simp only [asked, Sys.events, Afbd.after, Option.elim_some, hevents, hflips]
  | update =>
    simp only [Afbd.after]
    split
    · exact h
    · rename_i u hu
      exact h.advance hu
  | irq =>
    simp only [Afbd.after, Sys.handleIrq]
    split
    · split <;> exact ⟨hflips, hevents, henabled, hoff⟩
    · exact ⟨hflips, hevents, henabled, hoff⟩
    · split
      · refine ⟨hflips, ?_, fun hne => absurd rfl hne, fun _ => rfl⟩
        simpa [Sys.events, Sys.deliver, Function.comp_def, asked] using hevents
      · exact ⟨hflips, hevents, henabled, hoff⟩
  | vblankOn => exact ⟨hflips, hevents, henabled, fun hn => absurd rfl hn⟩
  | vblankOff => exact ⟨hflips, hevents, fun hne => absurd hp.2 hne, fun _ => hp.2⟩
  | vblankIdle => exact ⟨hflips, hevents, fun hne => absurd hp hne, hoff⟩

/-- Events are delivered once each and in the order of their commits, and none is left out: the next vblank interrupt
delivers all that are armed. -/
theorem events_once {s s' : Sys} {ops : List Op} (h : Start s) (hr : Run step Possible s ops s') :
    s'.events = (ops.foldl asked (s.flips, [])).2 ∧
    (s'.irq = .idle → (after (after (after (after s' .vsync) .irq) .irq) .irq).armed = []) := by
  have honce : Once s' (ops.foldl asked (s.flips, [])) := by
    refine hr.sim (R := Once) (fun s p o _ s' hs hp hstep => ?_)
      ⟨rfl, ?_, fun hne => absurd h.armed hne, fun _ => h.armed⟩
    · cases hstep
      exact hs.after hp
    · simp [Sys.events, h.delivered, h.armed, h.update]
  refine ⟨honce.events, fun hidle => ?_⟩
  simp only [after, Sys.vsync, Sys.handleIrq, hidle, if_true]
  split
  · rfl
  · rename_i hen
    exact not_not.mp fun hne => hen (honce.enabled hne)

theorem events_once_two : ∃ s, Run step Possible booted (flipOps ++ flipOps ++ [.vsync, .irq, .irq, .irq]) s ∧
    s.events = [1, 2] ∧ s.delivered.map (·.event.flip) = [1, 2] := by
  refine Run.exists_of_exec_imp (P := fun s => s.delivered.map (·.event.flip) = [1, 2]) (by decide +kernel)
    fun s hr hd => ⟨(events_once ⟨Nat.le_refl _, rfl, rfl, rfl⟩ hr).1, hd⟩

end H713.Afbd
