import Mathlib.Data.Fintype.Basic
import H713.Keystone.Code

/-!
# Keystone.Queue

The command queue of the keystone motor: any number of callers of `motor_run_up_dn` and the worker. The list and
`queue_len` are changed under `queue_lock`; the tests for room and of `work_running`, and its writes, are not. Every
locked section, test and write is a step.
-/

namespace H713.Keystone.Queue

open Function

def queueMaxLen : Nat := 64

def moveClampMax : Int := 18

inductive Phase where
  | away
  | edges (dir : Dir) (n : Nat) (fullLimit : Bool)
  | limit (dir : Dir) (n : Nat)
  | single (dir : Dir) (n : Nat)
  | room (dir : Dir) (left : Nat)
  | add (dir : Dir) (left : Nat)
  | test
  | set
  | queue
deriving DecidableEq, Repr

inductive Worker where
  | idle
  | loop
  | busy (dir : Dir)
  | clear
deriving DecidableEq, Repr

structure State (n : Nat) where
  cmdQueue : List Dir
  queueLen : Int
  workRunning : Bool
  pending : Bool
  worker : Worker
  callers : Fin n → Phase
  accepted : List Dir
  executed : List Dir

def start (n : Nat) : State n where
  cmdQueue := []
  queueLen := 0
  workRunning := false
  pending := false
  worker := .idle
  callers := fun _ => .away
  accepted := []
  executed := []

def clampSteps (steps : Int) : Nat :=
  if steps ≤ 0 then 1 else if steps > moveClampMax then moveClampMax.toNat else steps.toNat

def loopHead (dir : Dir) : Nat → Phase
  | 0 => .test
  | left + 1 => .room dir left

namespace State

variable {n : Nat}

def goto (s : State n) (c : Fin n) (p : Phase) : State n :=
  { s with callers := update s.callers c p }

def callerStep (s : State n) (c : Fin n) (answer : Bool) : State n :=
  match s.callers c with
  | .away => s
  | .edges dir k fullLimit =>
    if answer then s.goto c .away
    else if fullLimit then s.goto c (.limit dir k)
    else s.goto c (loopHead dir k)
  | .limit dir k => if s.queueLen > 3 then s.goto c .away else s.goto c (.single dir k)
  | .single dir k => s.goto c (loopHead dir (if s.queueLen = 3 then 1 else k))
  | .room dir left => if s.queueLen ≥ queueMaxLen then s.goto c .test else s.goto c (.add dir left)
  | .add dir left =>
    if answer then
      { s.goto c (loopHead dir left) with
        cmdQueue := s.cmdQueue ++ [dir], queueLen := s.queueLen + 1, accepted := s.accepted ++ [dir] }
    else s.goto c .test
  | .test => if s.workRunning then s.goto c .away else s.goto c .set
  | .set => { s.goto c .queue with workRunning := true }
  | .queue => { s.goto c .away with pending := true }

def workerStep (s : State n) : State n :=
  match s.worker with
  | .idle => if s.pending then { s with pending := false, worker := .loop } else s
  | .loop =>
    match s.cmdQueue with
    | [] => { s with worker := .clear }
    | dir :: rest => { s with cmdQueue := rest, queueLen := s.queueLen - 1, worker := .busy dir }
  | .busy dir => { s with executed := s.executed ++ [dir], worker := .loop }
  | .clear => { s with workRunning := false, worker := .idle }

end State

inductive Op (n : Nat) where
  | call (c : Fin n) (dir : Dir) (steps : Int) (fullLimit : Bool)
  | caller (c : Fin n) (answer : Bool)
  | worker

/-- A caller is in one call at a time; the worker runs on its own or when it is queued. -/
def Possible {n : Nat} (s : State n) : Op n → Prop
  | .call c _ _ _ => s.callers c = .away
  | .caller c _ => s.callers c ≠ .away
  | .worker => s.worker ≠ .idle ∨ s.pending = true

def step {n : Nat} (s : State n) : Op n → Out (State n) Unit
  | .call c dir steps fullLimit => .ret () (s.goto c (.edges dir (clampSteps steps) fullLimit))
  | .caller c answer => .ret () (s.callerStep c answer)
  | .worker => .ret () s.workerStep

def Active : Phase → Prop
  | .away => False
  | .edges _ _ _ => False
  | .limit _ _ => False
  | _ => True

instance (p : Phase) : Decidable (Active p) := by
  cases p <;> unfold Active <;> infer_instance

def rank : Phase → Nat
  | .away => 0
  | .queue => 1
  | .set => 2
  | .test => 3
  | .add _ left => 2 * left + 5
  | .room _ left => 2 * left + 6
  | .single _ k => 2 * k + 7
  | .limit _ k => 2 * k + 8
  | .edges _ k _ => 2 * k + 9

theorem rank_loopHead (dir : Dir) (k : Nat) : rank (loopHead dir k) ≤ 2 * k + 4 := by
  cases k with
  | zero => exact Nat.le_succ 3
  | succ k => simp only [loopHead, rank]; omega

theorem active_loopHead (dir : Dir) (k : Nat) : Active (loopHead dir k) := by
  cases k <;> trivial

theorem loopHead_ne_queue (dir : Dir) (k : Nat) : loopHead dir k ≠ .queue := by
  cases k <;> intro h <;> cases h

structure Onward (p p' : Phase) : Prop where
  active : Active p → Active p'
  fromQueue : p ≠ .queue
  toQueue : p' ≠ .queue
  lower : rank p' < rank p

inductive Goes {n : Nat} (s : State n) : Op n → State n → Prop where
  | called (c : Fin n) (dir : Dir) (steps : Int) (fullLimit : Bool) (hc : s.callers c = .away) :
      Goes s (.call c dir steps fullLimit) (s.goto c (.edges dir (clampSteps steps) fullLimit))
  | onward (c : Fin n) (answer : Bool) (p' : Phase) (h : Onward (s.callers c) p')
      (hfail : ∀ dir left, s.callers c = .add dir left → answer = false) :
      Goes s (.caller c answer) (s.goto c p')
  | added (c : Fin n) (answer : Bool) (dir : Dir) (left : Nat) (hc : s.callers c = .add dir left)
      (hok : answer = true) :
      Goes s (.caller c answer) { s.goto c (loopHead dir left) with
        cmdQueue := s.cmdQueue ++ [dir], queueLen := s.queueLen + 1, accepted := s.accepted ++ [dir] }
  | saw (c : Fin n) (answer : Bool) (hc : s.callers c = .test) (hrun : s.workRunning = true) :
      Goes s (.caller c answer) (s.goto c .away)
  | flagged (c : Fin n) (answer : Bool) (hc : s.callers c = .set) :
      Goes s (.caller c answer) { s.goto c .queue with workRunning := true }
  | queued (c : Fin n) (answer : Bool) (hc : s.callers c = .queue) :
      Goes s (.caller c answer) { s.goto c .away with pending := true }
  | started (hw : s.worker = .idle) (hp : s.pending = true) :
      Goes s .worker { s with pending := false, worker := .loop }
  | emptied (hw : s.worker = .loop) (hq : s.cmdQueue = []) : Goes s .worker { s with worker := .clear }
  | took (dir : Dir) (rest : List Dir) (hw : s.worker = .loop) (hq : s.cmdQueue = dir :: rest) :
      Goes s .worker { s with cmdQueue := rest, queueLen := s.queueLen - 1, worker := .busy dir }
  | ran (dir : Dir) (hw : s.worker = .busy dir) :
      Goes s .worker { s with executed := s.executed ++ [dir], worker := .loop }
  | cleared (hw : s.worker = .clear) : Goes s .worker { s with workRunning := false, worker := .idle }

variable {n : Nat}

theorem goes_of_step {s s' : State n} {op : Op n} {u : Unit} (hp : Possible s op) (hs : step s op = .ret u s') :
    Goes s op s' := by
  cases op with
  | call c dir steps fullLimit => cases hs; exact .called c dir steps fullLimit hp
  | caller c answer =>
    cases hs
    simp only [State.callerStep]
    have honward : ∀ {p p'}, s.callers c = p → (Active p → Active p') → p ≠ .queue → p' ≠ .queue →
        rank p' < rank p → (∀ dir left, p ≠ .add dir left) → Goes s (.caller c answer) (s.goto c p') :=
      fun hc ha h1 h2 hr h3 => .onward c answer _ (hc ▸ ⟨ha, h1, h2, hr⟩) fun d l hadd =>
        absurd (hc.symm.trans hadd) (h3 d l)
    cases hc : s.callers c with
    | away => exact absurd hc hp
    | edges dir k fullLimit =>
      dsimp only
      split
      · exact honward hc id (by simp) (by simp) (by simp [rank]) (by simp)
      split
      · exact honward hc False.elim (by simp) (by simp) (by simp [rank]) (by simp)
      · refine honward hc False.elim (by simp) (loopHead_ne_queue _ _) ?_ (by simp)
        refine Nat.lt_of_le_of_lt (rank_loopHead dir k) ?_
        simp only [rank]
        omega
    | limit dir k =>
      dsimp only
      split
      · exact honward hc id (by simp) (by simp) (by simp [rank]) (by simp)
      · exact honward hc False.elim (by simp) (by simp) (by simp [rank]) (by simp)
    | single dir k =>
      refine honward hc (fun _ => active_loopHead _ _) (by simp) (loopHead_ne_queue _ _) ?_ (by simp)
      refine Nat.lt_of_le_of_lt (rank_loopHead dir _) ?_
      simp only [rank]
      split <;> omega
    | room dir left =>
      dsimp only
      split
      · exact honward hc (fun _ => trivial) (by simp) (by simp) (by simp only [rank]; omega) (by simp)
      · exact honward hc (fun _ => trivial) (by simp) (by simp) (by simp [rank]) (by simp)
    | add dir left =>
      dsimp only
      split
      · rename_i hok; exact .added c answer dir left hc hok
      · rename_i hok
        refine .onward c answer .test (hc ▸ ⟨fun _ => trivial, by simp, by simp, ?_⟩) fun _ _ _ => ?_
        · simp only [rank]; omega
        · exact Bool.not_eq_true _ ▸ hok
    | test =>
      dsimp only
      split
      · rename_i hrun; exact .saw c answer hc hrun
      · exact honward hc (fun _ => trivial) (by simp) (by simp) (by simp [rank]) (by simp)
    | set => exact .flagged c answer hc
    | queue => exact .queued c answer hc
  | worker =>
    cases hs
    simp only [State.workerStep]
    cases hw : s.worker with
    | idle =>
      have hpend : s.pending = true := hp.resolve_left (not_not.mpr hw)
      dsimp only
      rw [if_pos hpend]
      exact .started hw hpend
    | loop =>
      dsimp only
      split
      · rename_i hq; exact .emptied hw hq
      · rename_i dir rest hq; exact .took dir rest hw hq
    | busy dir => exact .ran dir hw
    | clear => exact .cleared hw

/-- There is room for a command added; when the worker clears the flag, the list is empty or someone has yet
to look. -/
def QueueFits {n : Nat} (s : State n) : Op n → Prop
  | .caller c answer => ∀ dir left, s.callers c = .add dir left → answer = true → s.cmdQueue.length < queueMaxLen
  | .worker => s.worker = .clear → s.cmdQueue = [] ∨ s.pending = true ∨ ∃ c, Active (s.callers c)
  | _ => True

/-- Nothing is on the list without somebody to see to it. -/
def Served {n : Nat} (s : State n) : Prop :=
  s.cmdQueue ≠ [] → s.pending = true ∨ s.worker ≠ .idle ∨ ∃ c, Active (s.callers c)

def inHand {n : Nat} (s : State n) : List Dir :=
  match s.worker with
  | .busy dir => [dir]
  | _ => []

structure Books {n : Nat} (s : State n) : Prop where
  len : s.queueLen = s.cmdQueue.length
  order : s.accepted = s.executed ++ inHand s ++ s.cmdQueue
  running : s.workRunning = true → s.pending = true ∨ s.worker ≠ .idle ∨ ∃ c, s.callers c = .queue

section

variable {n : Nat} {s s' : State n} {op : Op n}

theorem exists_goto {P : Phase → Prop} {c : Fin n} {p : Phase} (h : ∃ c', P (s.callers c'))
    (hmove : P (s.callers c) → P p) : ∃ c', P ((s.goto c p).callers c') := by
  obtain ⟨c', hc'⟩ := h
  by_cases heq : c' = c
  · subst heq
    exact ⟨c', by simpa [State.goto] using hmove hc'⟩
  · exact ⟨c', by simpa [State.goto, update_of_ne heq] using hc'⟩

theorem goto_self {c : Fin n} {p : Phase} : (s.goto c p).callers c = p := by
  simp [State.goto]

theorem Goes.books (h : Goes s op s') (hb : Books s) : Books s' := by
  have hkeep : ∀ {c : Fin n} {p : Phase}, s.callers c ≠ .queue → s.workRunning = true →
      s.pending = true ∨ s.worker ≠ .idle ∨ ∃ c', (s.goto c p).callers c' = .queue := fun hne hr =>
    (hb.running hr).imp_right (.imp_right fun hex => exists_goto (P := (· = .queue)) hex fun h => absurd h hne)
  cases h with
  | called c dir steps fullLimit hc | saw c answer hc _ => exact ⟨hb.len, hb.order, hkeep (by rw [hc]; simp)⟩
  | onward c answer p' hon _ => exact ⟨hb.len, hb.order, hkeep hon.fromQueue⟩
  | added c answer dir left hc _ =>
    refine ⟨?_, ?_, hkeep (by rw [hc]; simp)⟩
    · simp [hb.len]
    · simp only [hb.order, inHand, State.goto, List.append_assoc]
  | flagged c answer hc => exact ⟨hb.len, hb.order, fun _ => .inr (.inr ⟨c, goto_self⟩)⟩
  | queued c answer hc => exact ⟨hb.len, hb.order, fun _ => .inl rfl⟩
  | started hw _ | emptied hw _ =>
    refine ⟨hb.len, ?_, fun _ => .inr (.inl (by simp))⟩
    simpa only [inHand, hw] using hb.order
  | took dir rest hw hq =>
    have hlen := hb.len
    have horder := hb.order
    rw [hq] at hlen horder
    refine ⟨?_, ?_, fun _ => .inr (.inl (by simp))⟩
    · simp only [List.length_cons] at hlen ⊢
      omega
    · simpa [inHand, hw] using horder
  | ran dir hw =>
    refine ⟨hb.len, ?_, fun _ => .inr (.inl (by simp))⟩
    simpa [inHand, hw] using hb.order
  | cleared hw =>
    refine ⟨hb.len, ?_, fun hr => (by cases hr)⟩
    simpa only [inHand, hw] using hb.order

theorem Goes.served_iff (h : Goes s op s') (hb : Books s) (hlen : s.cmdQueue.length ≤ queueMaxLen)
    (hs : Served s) : (s'.cmdQueue.length ≤ queueMaxLen ∧ Served s') ↔ QueueFits s op := by
  have hkeep : ∀ {c : Fin n} {p : Phase}, (Active (s.callers c) → Active p) → s.cmdQueue ≠ [] →
      s.pending = true ∨ s.worker ≠ .idle ∨ ∃ c', Active ((s.goto c p).callers c') := fun ha hne =>
    (hs hne).imp_right (.imp_right fun hex => exists_goto hex ha)
  have hnot : ∀ {c : Fin n} {answer : Bool}, (∀ dir left, s.callers c ≠ .add dir left) →
      QueueFits s (.caller c answer) := fun hne dir left hc => absurd hc (hne dir left)
  cases h with
  | called c dir steps fullLimit hc =>
    exact iff_of_true ⟨hlen, hkeep (by rw [hc]; exact False.elim)⟩ trivial
  | onward c answer p' hon hfail =>
    refine iff_of_true ⟨hlen, hkeep hon.active⟩ fun dir left hc hok => ?_
    rw [hfail dir left hc] at hok
    cases hok
  | added c answer dir left hc hok =>
    have hact : Served { s.goto c (loopHead dir left) with
        cmdQueue := s.cmdQueue ++ [dir], queueLen := s.queueLen + 1, accepted := s.accepted ++ [dir] } :=
      fun _ => .inr (.inr ⟨c, (goto_self (s := s)).symm ▸ active_loopHead dir left⟩)
    rw [and_iff_left hact]
    simp only [QueueFits, List.length_append, List.length_singleton]
    constructor
    · intro hle _ _ _ _; omega
    · intro hfit; have := hfit dir left hc hok; omega
  | saw c answer hc hrun =>
    refine iff_of_true ⟨hlen, fun hne => ?_⟩ (hnot (by simp [hc]))
    -- the flag it has seen belongs to somebody else
    refine (hb.running hrun).imp_right (.imp_right fun ⟨c', hc'⟩ => ?_)
    have hne : c' ≠ c := by
      rintro rfl
      rw [hc] at hc'
      cases hc'
    refine ⟨c', ?_⟩
    simp only [State.goto, update_of_ne hne, hc']
    trivial
  | flagged c answer hc =>
    exact iff_of_true ⟨hlen, fun _ => .inr (.inr ⟨c, (goto_self (s := s)).symm ▸ trivial⟩)⟩ (hnot (by simp [hc]))
  | queued c answer hc => exact iff_of_true ⟨hlen, fun _ => .inl rfl⟩ (hnot (by simp [hc]))
  | started hw _ | emptied hw _ | ran _ hw =>
    exact iff_of_true ⟨hlen, fun _ => .inr (.inl (by simp))⟩ (by intro hc; rw [hw] at hc; cases hc)
  | took dir rest hw hq =>
    refine iff_of_true ⟨?_, fun _ => .inr (.inl (by simp))⟩ (by intro hc; rw [hw] at hc; cases hc)
    rw [hq, List.length_cons] at hlen
    dsimp only
    omega
  | cleared hw =>
    rw [and_iff_right hlen]
    simp only [Served, QueueFits, hw, ne_eq, not_true_eq_false, false_or, forall_const]
    exact or_iff_not_imp_left.symm

end

structure QueueOk {n : Nat} (s : State n) : Prop extends Books s where
  le : s.cmdQueue.length ≤ queueMaxLen
  served : Served s

theorem Goes.queueOk {s s' : State n} {op : Op n} (h : Goes s op s') (hok : QueueOk s) (hfit : QueueFits s op) :
    QueueOk s' := by
  obtain ⟨hle, hserved⟩ := (h.served_iff hok.toBooks hok.le hok.served).mpr hfit
  exact ⟨h.books hok.toBooks, hle, hserved⟩

theorem queueOk_start (n : Nat) : QueueOk (start n) :=
  ⟨⟨rfl, rfl, fun h => (by cases h)⟩, Nat.zero_le _, fun h => absurd rfl h⟩

theorem QueueOk.run {s : State n} {ops : List (Op n)}
    (hr : Run step (fun s op => Possible s op ∧ QueueFits s op) (start n) ops s) : QueueOk s :=
  hr.inv (fun _ _ _ _ hi hok hs => (goes_of_step hok.1 hs).queueOk hi hok.2) (queueOk_start n)

structure QueueLaw {n : Nat} (s : State n) : Prop where
  len : s.queueLen = s.cmdQueue.length
  le : s.cmdQueue.length ≤ queueMaxLen
  attended : (∀ c, s.callers c = .away) → s.cmdQueue ≠ [] → s.pending = true ∨ s.worker ≠ .idle

theorem QueueOk.law {s : State n} (h : QueueOk s) : QueueLaw s := by
  refine ⟨h.len, h.le, fun haway hne => ?_⟩
  rcases h.served hne with hp | hw | ⟨c, hc⟩
  · exact .inl hp
  · exact .inr hw
  · rw [haway c] at hc
    exact absurd hc id

end H713.Keystone.Queue
