import H713.Lib.Bytes
import H713.Lib.Run

/-!
# Keystone.Code

The keystone motor (`hy310-keystone-motor.c`): limit switches, move commands with back-off, and homing, one
micro-step at a time; `Pc` says where the driver is, and what the switches read is an argument of the step. `log`,
`setTo`, `net` and `own` are kept besides; no code reads them.
-/

namespace H713.Keystone

open Bytes

def defaultBackStep : Int := 5

def homingUpMax : Nat := 100

def homingDnMax : Nat := 250

inductive Dir where
  | up
  | dn
deriving DecidableEq, Repr

namespace Dir

def other : Dir → Dir
  | up => dn
  | dn => up

def sign : Dir → Int
  | up => 1
  | dn => -1

end Dir

structure Limiters where
  limiterNum : Nat
  upPin : Nat
  dnPin : Nat
  activeLevel : Int
deriving DecidableEq, Repr

abbrev Levels := Nat → Option Int

def pinActive (l : Limiters) (raw : Levels) (pin : Nat) : Bool :=
  match raw pin with
  | none => false
  | some val => val = l.activeLevel

def limiterStatus (l : Limiters) (raw : Levels) (dir : Option Dir) : Bool :=
  if l.limiterNum = 0 then false
  else if l.limiterNum = 1 then
    let pin := if l.upPin ≠ 0 then l.upPin else l.dnPin
    if pin = 0 then false else pinActive l raw pin
  else
    match dir with
    | some .up => if l.upPin = 0 then true else pinActive l raw l.upPin
    | some .dn => if l.dnPin = 0 then true else pinActive l raw l.dnPin
    | none => if l.upPin = 0 then false else pinActive l raw l.upPin

inductive Kind where
  | command
  | backOff
  | homing
deriving DecidableEq, Repr

structure Mstep where
  dir : Dir
  kind : Kind
  atLimit : Bool
deriving DecidableEq, Repr

inductive Pc where
  | idle
  | backOff (dir : Dir) (i : Int)
  | homingUp (i : Nat)
  | homingDn (i : Nat)
deriving DecidableEq, Repr

structure Motor where
  lim : Limiters
  stepCur : Int
  edgeUp : Bool
  edgeDn : Bool
  lastDir : Bool
  stepInc : Nat
  backStep : Int
  noLimit : Bool
  pc : Pc
  log : List Mstep
  setTo : Int
  net : Int
  own : Int

namespace Motor

def edge (m : Motor) : Dir → Bool
  | .up => m.edgeUp
  | .dn => m.edgeDn

def setEdge (m : Motor) (dir : Dir) (v : Bool) : Motor :=
  match dir with
  | .up => { m with edgeUp := v }
  | .dn => { m with edgeDn := v }

def mstep (m : Motor) (dir : Dir) (kind : Kind) (raw : Levels) : Motor :=
  { m with log := { dir := dir, kind := kind, atLimit := limiterStatus m.lim raw (some dir) } :: m.log,
           net := m.net + dir.sign, own := m.own + dir.sign }

def finish (m : Motor) (dir : Dir) : Motor :=
  let m := { m with
    lastDir := (match dir with | .up => m.edgeUp | .dn => !m.edgeDn),
    stepCur := toI32 (ofI32 (m.stepCur + dir.sign)) }
  let m := m.setEdge dir.other false
  { m with stepInc := if m.stepInc < 10 then m.stepInc + 1 else 0, pc := .idle }

def runControl (m : Motor) (dir : Dir) (raw : Levels) : Motor :=
  if m.edge dir ∧ ¬ m.noLimit then m
  else
    let m := ({ m with own := 0 } : Motor).mstep dir .command raw
    if ¬ m.noLimit ∧ limiterStatus m.lim raw (some dir) then
      if m.backStep > 0 then { m with pc := .backOff dir 0 } else (m.setEdge dir true).finish dir
    else m.finish dir

def backOffNext (m : Motor) (dir : Dir) (i : Int) (raw : Levels) : Int :=
  (if ¬ limiterStatus m.lim raw (some dir) ∧ i > 3 then i - 1 else i) + 1

def backOffTurn (m : Motor) (dir : Dir) (i : Int) (raw : Levels) : Motor :=
  let m := m.mstep dir.other .backOff raw
  if m.backOffNext dir i raw < m.backStep then { m with pc := .backOff dir (m.backOffNext dir i raw) }
  else (m.setEdge dir true).finish dir

def homingStart (m : Motor) (raw : Levels) : Motor :=
  if m.lim.limiterNum < 1 then m
  else if limiterStatus m.lim raw none then m
  else { m with pc := .homingUp 0, own := 0 }

def homingUpTurn (m : Motor) (i : Nat) (raw : Levels) : Motor :=
  let m := m.mstep .up .homing raw
  if limiterStatus m.lim raw none then { m with edgeDn := true, pc := .idle }
  else if i + 1 < homingUpMax then { m with pc := .homingUp (i + 1) }
  else { m with pc := .homingDn 0 }

def homingDnTurn (m : Motor) (i : Nat) (raw : Levels) : Motor :=
  let m := m.mstep .dn .homing raw
  if limiterStatus m.lim raw none then { m with edgeUp := true, pc := .idle }
  else if i + 1 < homingDnMax then { m with pc := .homingDn (i + 1) }
  else { m with pc := .idle }

def setPosition (m : Motor) (val : Nat) : Motor :=
  { m with stepCur := val % 2 ^ 16, setTo := val % 2 ^ 16, net := 0, own := 0 }

end Motor

def probed (lim : Limiters) : Motor where
  lim := lim
  stepCur := 0
  edgeUp := false
  edgeDn := false
  lastDir := false
  stepInc := 0
  backStep := defaultBackStep
  noLimit := false
  pc := .idle
  log := []
  setTo := 0
  net := 0
  own := 0

inductive Op where
  | command (dir : Dir) (raw : Levels)
  | backOff (raw : Levels)
  | home (raw : Levels)
  | homing (raw : Levels)
  | setPosition (val : Nat)
  | setBackStep (val : Int)
  | setNoLimit (v : Bool)
  | clearEdges

/-- What the workqueue and the loops let happen in a state. -/
def Possible (m : Motor) : Op → Prop
  | .command _ _ => m.pc = .idle
  | .home _ => m.pc = .idle
  | .backOff _ => ∃ dir i, m.pc = .backOff dir i
  | .homing _ => (∃ i, m.pc = .homingUp i) ∨ ∃ i, m.pc = .homingDn i
  | _ => True

def step (m : Motor) : Op → Out Motor Unit
  | .command dir raw => .ret () (m.runControl dir raw)
  | .backOff raw =>
    match m.pc with
    | .backOff dir i => .ret () (m.backOffTurn dir i raw)
    | _ => .ret () m
  | .home raw => .ret () (m.homingStart raw)
  | .homing raw =>
    match m.pc with
    | .homingUp i => .ret () (m.homingUpTurn i raw)
    | .homingDn i => .ret () (m.homingDnTurn i raw)
    | _ => .ret () m
  | .setPosition val => .ret () (m.setPosition val)
  | .setBackStep val => .ret () (if val ≥ 0 then { m with backStep := val } else m)
  | .setNoLimit v => .ret () { m with noLimit := v }
  | .clearEdges => .ret () { m with edgeUp := false, edgeDn := false }

section

variable (m : Motor)

@[simp] theorem Motor.edge_setEdge_same (dir : Dir) (v : Bool) : (m.setEdge dir v).edge dir = v := by
  cases dir <;> rfl

end

/-- A step of the driver, one constructor for each way it can go. -/
inductive Goes (m : Motor) : Op → Motor → Prop where
  | refused (dir : Dir) (raw : Levels) (hpc : m.pc = .idle) (hedge : m.edge dir = true)
      (hlim : m.noLimit = false) : Goes m (.command dir raw) m
  | moved (dir : Dir) (raw : Levels) (hpc : m.pc = .idle) (hgo : m.edge dir = false ∨ m.noLimit = true)
      (hfree : m.noLimit = true ∨ limiterStatus m.lim raw (some dir) = false) :
      Goes m (.command dir raw) ((({ m with own := 0 } : Motor).mstep dir .command raw).finish dir)
  | touched (dir : Dir) (raw : Levels) (hpc : m.pc = .idle) (hedge : m.edge dir = false)
      (hlim : m.noLimit = false) (hact : limiterStatus m.lim raw (some dir) = true) (hback : m.backStep ≤ 0) :
      Goes m (.command dir raw)
        (((({ m with own := 0 } : Motor).mstep dir .command raw).setEdge dir true).finish dir)
  | backs (dir : Dir) (raw : Levels) (hpc : m.pc = .idle) (hedge : m.edge dir = false)
      (hlim : m.noLimit = false) (hact : limiterStatus m.lim raw (some dir) = true) (hback : m.backStep > 0) :
      Goes m (.command dir raw)
        { ({ m with own := 0 } : Motor).mstep dir .command raw with pc := .backOff dir 0 }
  | backing (dir : Dir) (i : Int) (raw : Levels) (hpc : m.pc = .backOff dir i)
      (hmore : m.backOffNext dir i raw < m.backStep) :
      Goes m (.backOff raw)
        { m.mstep dir.other .backOff raw with pc := .backOff dir (m.backOffNext dir i raw) }
  | backed (dir : Dir) (i : Int) (raw : Levels) (hpc : m.pc = .backOff dir i)
      (hlast : m.backStep ≤ m.backOffNext dir i raw) :
      Goes m (.backOff raw) (((m.mstep dir.other .backOff raw).setEdge dir true).finish dir)
  | homed (raw : Levels) (hpc : m.pc = .idle) : Goes m (.home raw) m
  | homes (raw : Levels) (hpc : m.pc = .idle) : Goes m (.home raw) { m with pc := .homingUp 0, own := 0 }
  | upFound (i : Nat) (raw : Levels) (hpc : m.pc = .homingUp i)
      (hact : limiterStatus m.lim raw none = true) :
      Goes m (.homing raw) { m.mstep .up .homing raw with edgeDn := true, pc := .idle }
  | upOn (i : Nat) (raw : Levels) (pc' : Pc) (hpc : m.pc = .homingUp i)
      (hact : limiterStatus m.lim raw none = false) (hpc' : (∃ j, pc' = .homingUp j) ∨ pc' = .homingDn 0) :
      Goes m (.homing raw) { m.mstep .up .homing raw with pc := pc' }
  | dnFound (i : Nat) (raw : Levels) (hpc : m.pc = .homingDn i)
      (hact : limiterStatus m.lim raw none = true) :
      Goes m (.homing raw) { m.mstep .dn .homing raw with edgeUp := true, pc := .idle }
  | dnOn (i : Nat) (raw : Levels) (hpc : m.pc = .homingDn i)
      (hact : limiterStatus m.lim raw none = false) (hmore : i + 1 < homingDnMax) :
      Goes m (.homing raw) { m.mstep .dn .homing raw with pc := .homingDn (i + 1) }
  | notFound (i : Nat) (raw : Levels) (hpc : m.pc = .homingDn i)
      (hact : limiterStatus m.lim raw none = false) (hlast : homingDnMax ≤ i + 1) :
      Goes m (.homing raw) { m.mstep .dn .homing raw with pc := .idle }
  | positioned (val : Nat) : Goes m (.setPosition val) (m.setPosition val)
  | backStepSet (val : Int) (b : Int) : Goes m (.setBackStep val) { m with backStep := b }
  | noLimitSet (v : Bool) : Goes m (.setNoLimit v) { m with noLimit := v }
  | edgesCleared : Goes m .clearEdges { m with edgeUp := false, edgeDn := false }

theorem goes_runControl {m : Motor} (dir : Dir) (raw : Levels) (hpc : m.pc = .idle) :
    Goes m (.command dir raw) (m.runControl dir raw) := by
  unfold Motor.runControl
  split
  · rename_i h
    exact .refused dir raw hpc h.1 (Bool.not_eq_true _ ▸ h.2)
  · rename_i h
    have hgo : m.edge dir = false ∨ m.noLimit = true := by
      by_cases hn : m.noLimit = true
      · exact .inr hn
      · exact .inl (Bool.not_eq_true _ ▸ fun he => h ⟨he, hn⟩)
    dsimp only
    split
    · rename_i hact
      have hlim : m.noLimit = false := Bool.not_eq_true _ ▸ hact.1
      have hedge : m.edge dir = false := hgo.resolve_right (by rw [hlim]; decide)
      split
      · rename_i hback; exact .backs dir raw hpc hedge hlim hact.2 hback
      · rename_i hback; exact .touched dir raw hpc hedge hlim hact.2 (Int.not_lt.mp hback)
    · rename_i hact
      refine .moved dir raw hpc hgo ?_
      by_cases hn : m.noLimit = true
      · exact .inl hn
      · exact .inr (Bool.not_eq_true _ ▸ fun ha => hact ⟨hn, ha⟩)

theorem goes_of_step {m m' : Motor} {op : Op} {u : Unit} (hp : Possible m op) (hs : step m op = .ret u m') :
    Goes m op m' := by
  cases op with
  | command dir raw => cases hs; exact goes_runControl dir raw hp
  | backOff raw =>
    obtain ⟨dir, i, hpc⟩ := hp
    simp only [step, hpc] at hs
    cases hs
    unfold Motor.backOffTurn
    dsimp only
    split
    · rename_i hmore; exact .backing dir i raw hpc hmore
    · rename_i hlast; exact .backed dir i raw hpc (Int.not_lt.mp hlast)
  | home raw =>
    cases hs
    unfold Motor.homingStart
    split
    · exact .homed raw hp
    split
    · exact .homed raw hp
    · exact .homes raw hp
  | homing raw =>
    rcases hp with ⟨i, hpc⟩ | ⟨i, hpc⟩
    · simp only [step, hpc] at hs
      cases hs
      unfold Motor.homingUpTurn
      dsimp only
      split
      · rename_i hact; exact .upFound i raw hpc hact
      · rename_i hact
        split
        · exact .upOn i raw _ hpc (Bool.not_eq_true _ ▸ hact) (.inl ⟨_, rfl⟩)
        · exact .upOn i raw _ hpc (Bool.not_eq_true _ ▸ hact) (.inr rfl)
    · simp only [step, hpc] at hs
      cases hs
      unfold Motor.homingDnTurn
      dsimp only
      split
      · rename_i hact; exact .dnFound i raw hpc hact
      · rename_i hact
        split
        · rename_i hmore; exact .dnOn i raw hpc (Bool.not_eq_true _ ▸ hact) hmore
        · rename_i hlast
          exact .notFound i raw hpc (Bool.not_eq_true _ ▸ hact) (Nat.not_lt.mp hlast)
  | setPosition val => cases hs; exact .positioned val
  | setBackStep val => cases hs; split <;> exact .backStepSet val _
  | setNoLimit v => cases hs; exact .noLimitSet v
  | clearEdges => cases hs; exact .edgesCleared

end H713.Keystone
