import Mathlib.Algebra.BigOperators.Group.List.Basic
import H713.Proto.Mutex
import H713.Socket.Init

/-!
# Socket.Sems

The four semaphores that `SendComm2CPUEx` (in each direction), `ReleaseWaitComm` and `Comm_ReleaseFreeCall` take on
entry, in any interleaving. What the functions do to the other words of the sockets is arbitrary.
-/

namespace H713.Socket

open Function
open Proto

inductive Dir where
  | call
  | ret
  deriving DecidableEq, Repr

inductive Op where
  | send (d : Dir)
  | releaseWait
  | releaseFreeCall
  deriving DecidableEq, Repr

def Op.sem : Op → Nat
  | .send .call => 8 / 4
  | .send .ret => 1036 / 4
  | .releaseWait => 30
  | .releaseFreeCall => 234

def semWords : List Nat := [Op.send .call, .send .ret, .releaseWait, .releaseFreeCall].map Op.sem

def ackWord (d : Dir) : Nat := (Op.send d).sem + 16 / 4

inductive Task where
  | sending (cpu : Nat) (d : Dir)
  | waitsAck (cpu : Nat) (d : Dir) (wait : Option Nat)
  | timedOut (cpu waitEntry : Nat)
  | releasing (cpu waitEntry : Nat) (fromSend : Bool)
  | releasingCall (remote : Nat)
  deriving DecidableEq, Repr

structure Socks where
  word : Nat → Words
  tasks : List Task

namespace Socks

def set (s : Socks) (cpu k v : Nat) : Socks :=
  { s with word := update s.word cpu (update (s.word cpu) k v) }

def move (s : Socks) (t t' : Option Task) : Socks :=
  { s with tasks := t'.toList ++ t.elim s.tasks s.tasks.erase }

def count (s : Socks) (cpu : Nat) (op : Op) : Nat := s.word cpu op.sem

def down (s : Socks) (cpu : Nat) (op : Op) (signal : Bool) (t t' : Option Task) : Out Socks Unit :=
  match semDown (s.count cpu op) signal with
  | none => .spin
  | some n => .ret () ((s.set cpu op.sem n).move t t')

def up (s : Socks) (cpu : Nat) (op : Op) : Socks := s.set cpu op.sem (semUp (s.count cpu op))

end Socks

inductive Act where
  | send (cpu : Nat) (d : Dir) (signal : Bool)
  | leave (cpu : Nat) (d : Dir)
  | dispatch (cpu : Nat) (d : Dir) (wait : Option Nat)
  | wake (cpu : Nat) (d : Dir) (wait : Option Nat) (w : Wake)
  | releaseOwn (cpu waitEntry : Nat) (signal : Bool)
  | releaseWait (cpu waitEntry : Nat) (signal : Bool)
  | released (cpu waitEntry : Nat) (fromSend : Bool)
  | releaseFreeCall (remote : Nat) (signal : Bool)
  | releasedFreeCall (remote : Nat)
  | store (cpu k v : Nat)
  deriving DecidableEq, Repr

def afterAck (s : Socks) (cpu : Nat) (d : Dir) (wait : Option Nat) (r : Int) : Socks :=
  match d, wait with
  | .call, some x =>
    if r = 0 then (s.up cpu (.send d)).move (some (.waitsAck cpu d wait)) none
    else s.move (some (.waitsAck cpu d wait)) (some (.timedOut cpu x))
  | _, _ => (s.up cpu (.send d)).move (some (.waitsAck cpu d wait)) none

def step (s : Socks) : Act → Out Socks Unit
  | .send cpu d signal =>
    match semDownInterruptible (s.count cpu (.send d)) signal with
    | none => .spin
    | some (r, n) =>
      .ret () (if r = 0 then (s.set cpu (Op.send d).sem n).move none (some (.sending cpu d)) else s)
  | .leave cpu d => .ret () ((s.up cpu (.send d)).move (some (.sending cpu d)) none)
  | .dispatch cpu d wait => .ret () (s.move (some (.sending cpu d)) (some (.waitsAck cpu d wait)))
  | .wake cpu d wait w =>
    match semDownTimeout (s.word cpu (ackWord d)) w with
    | none => .spin
    | some (r, n) => .ret () (afterAck (s.set cpu (ackWord d) n) cpu d wait r)
  | .releaseOwn cpu x signal =>
    s.down cpu .releaseWait signal (some (.timedOut cpu x)) (some (.releasing cpu x true))
  | .releaseWait cpu x signal =>
    s.down cpu .releaseWait signal none (some (.releasing cpu x false))
  | .released cpu x fromSend =>
    let s := s.up cpu .releaseWait
    .ret () ((if fromSend then s.up cpu (.send .call) else s).move
      (some (.releasing cpu x fromSend)) none)
  | .releaseFreeCall remote signal =>
    s.down remote .releaseFreeCall signal none (some (.releasingCall remote))
  | .releasedFreeCall remote =>
    .ret () ((s.up remote .releaseFreeCall).move (some (.releasingCall remote)) none)
  | .store cpu k v => .ret () (s.set cpu k v)

/-- A task goes on that is there, and no other code stores to the semaphores. -/
def Enabled (s : Socks) : Act → Prop
  | .send _ _ _ | .releaseWait _ _ _ | .releaseFreeCall _ _ => True
  | .leave cpu d | .dispatch cpu d _ => .sending cpu d ∈ s.tasks
  | .wake cpu d wait _ => .waitsAck cpu d wait ∈ s.tasks
  | .releaseOwn cpu x _ => .timedOut cpu x ∈ s.tasks
  | .released cpu x fromSend => .releasing cpu x fromSend ∈ s.tasks
  | .releasedFreeCall remote => .releasingCall remote ∈ s.tasks
  | .store _ k _ => k ∉ semWords

instance (s : Socks) (a : Act) : Decidable (Enabled s a) := by
  cases a <;> unfold Enabled <;> infer_instance

def one (c : Nat) (o : Op) (cpu : Nat) (op : Op) : Nat := if c = cpu ∧ o = op then 1 else 0

def Task.holds (cpu : Nat) (op : Op) : Task → Nat
  | .sending c d | .waitsAck c d _ => one c (.send d) cpu op
  | .timedOut c _ => one c (.send .call) cpu op
  | .releasing c _ fromSend =>
    one c .releaseWait cpu op + if fromSend then one c (.send .call) cpu op else 0
  | .releasingCall r => one r .releaseFreeCall cpu op

def Socks.taken (s : Socks) (cpu : Nat) (op : Op) : Nat := (s.tasks.map (Task.holds cpu op)).sum

/-- The counters stay 32-bit words, and with the tasks they add up as before. -/
structure Kept (s s' : Socks) : Prop where
  word : ∀ cpu op, s.count cpu op < 2 ^ 32 → s'.count cpu op < 2 ^ 32
  total : ∀ cpu op, (s'.count cpu op + s'.taken cpu op) % 2 ^ 32 =
    (s.count cpu op + s.taken cpu op) % 2 ^ 32

def heldBy (cpu : Nat) (op : Op) (t : Option Task) : Nat := t.elim 0 (Task.holds cpu op)

section

variable {s s' : Socks} {cpu c k n : Nat} {op o : Op} {d : Dir} {t t' : Option Task}

theorem sem_inj : o.sem = op.sem ↔ o = op := by
  constructor
  · intro h
    rcases o with d | _ | _ <;> rcases op with d' | _ | _ <;> (try cases d) <;> (try cases d') <;>
      first | rfl | cases h
  · rintro rfl; rfl

theorem sem_mem : op.sem ∈ semWords := by
  rcases op with d | _ | _ <;> (try cases d) <;> decide

theorem ackWord_ne : ackWord d ≠ op.sem := by
  rcases op with d' | _ | _ <;> (try cases d') <;> cases d <;> decide

theorem count_set_sem (n : Nat) : (s.set c o.sem n).count cpu op =
    if c = cpu ∧ o = op then n else s.count cpu op := by
  simp only [Socks.count, Socks.set]
  by_cases hc : cpu = c
  · subst hc
    rw [update_self]
    by_cases ho : o = op
    · subst ho
      rw [update_self, if_pos ⟨rfl, rfl⟩]
    · rw [update_of_ne fun h => ho (sem_inj.mp h.symm), if_neg fun h => ho h.2]
  · rw [update_of_ne hc, if_neg fun h => hc h.1.symm]

theorem count_set_other (h : k ≠ op.sem) : (s.set c k n).count cpu op = s.count cpu op := by
  simp only [Socks.count, Socks.set]
  by_cases hc : cpu = c
  · subst hc
    rw [update_self, update_of_ne h.symm]
  · rw [update_of_ne hc]

theorem count_down (cpu : Nat) (op : Op) (hn : (n + 1) % 2 ^ 32 = s.count c o % 2 ^ 32) :
    ((s.set c o.sem n).count cpu op + one c o cpu op) % 2 ^ 32 = s.count cpu op % 2 ^ 32 := by
  rw [count_set_sem, one]
  split
  · rename_i h
    obtain ⟨rfl, rfl⟩ := h
    exact hn
  · rw [Nat.add_zero]

theorem count_up (s : Socks) (c : Nat) (o : Op) (cpu : Nat) (op : Op) : (s.up c o).count cpu op % 2 ^ 32 =
    (s.count cpu op + one c o cpu op) % 2 ^ 32 := by
  rw [Socks.up, count_set_sem, one]
  split
  · rename_i h
    obtain ⟨rfl, rfl⟩ := h
    exact Nat.mod_mod ..
  · rw [Nat.add_zero]

theorem count_up_lt (h : s.count cpu op < 2 ^ 32) : (s.up c o).count cpu op < 2 ^ 32 := by
  rw [Socks.up, count_set_sem]
  split
  · exact Nat.mod_lt _ (by decide)
  · exact h

theorem taken_move (t' : Option Task) (cpu : Nat) (op : Op) (ht : ∀ x, t = some x → x ∈ s.tasks) :
    (s.move t t').taken cpu op + heldBy cpu op t = s.taken cpu op + heldBy cpu op t' := by
  have hnew : (t'.toList.map (Task.holds cpu op)).sum = heldBy cpu op t' := by
    cases t' <;> simp [heldBy]
  have hold : ((t.elim s.tasks s.tasks.erase).map (Task.holds cpu op)).sum + heldBy cpu op t =
      s.taken cpu op := by
    cases t with
    | none => rfl
    | some x =>
      have h := List.sum_map_erase (Task.holds cpu op) (ht x rfl)
      simp only [Option.elim, heldBy, Socks.taken]
      omega
  simp only [Socks.taken, Socks.move, List.map_append, List.sum_append] at hold ⊢
  omega

theorem Kept.move (ht : ∀ x, t = some x → x ∈ s.tasks) (htasks : s'.tasks = s.tasks)
    (hw : ∀ cpu op, s.count cpu op < 2 ^ 32 → s'.count cpu op < 2 ^ 32)
    (h : ∀ cpu op, (s'.count cpu op + heldBy cpu op t') % 2 ^ 32 =
      (s.count cpu op + heldBy cpu op t) % 2 ^ 32) : Kept s (s'.move t t') := by
  refine ⟨hw, fun cpu op => ?_⟩
  have h1 := taken_move (s := s') t' cpu op (fun x hx => htasks ▸ ht x hx)
  have h2 : s'.taken cpu op = s.taken cpu op := by
    rw [Socks.taken, htasks, Socks.taken]
  have h3 := h cpu op
  have h4 : (s'.move t t').count cpu op = s'.count cpu op := rfl
  omega

theorem semDown_mod {signal : Bool} {m : Nat} (h : semDown n signal = some m) :
    (m + 1) % 2 ^ 32 = n % 2 ^ 32 ∧ (n < 2 ^ 32 → m < 2 ^ 32) := by
  simp only [semDown] at h
  split at h
  · cases h
    exact ⟨by rw [Nat.sub_add_cancel ‹_›], fun hn => by omega⟩
  · split at h
    · cases h
      have h0 : n = 0 := by omega
      subst h0
      exact ⟨by decide, fun _ => by decide⟩
    · cases h

section

variable (ht : ∀ x, t = some x → x ∈ s.tasks)
  (hheld : ∀ cpu op, heldBy cpu op t' = heldBy cpu op t + one c o cpu op)

include ht hheld

theorem Kept.taken (hmod : (n + 1) % 2 ^ 32 = s.count c o % 2 ^ 32) (hlt : s.count c o < 2 ^ 32 → n < 2 ^ 32) :
    Kept s ((s.set c o.sem n).move t t') := by
  refine Kept.move ht rfl (fun cpu op hw => ?_) fun cpu op => ?_
  · rw [count_set_sem]
    split
    · rename_i he
      obtain ⟨rfl, rfl⟩ := he
      exact hlt hw
    · exact hw
  · have h1 := count_down cpu op hmod
    rw [hheld cpu op]
    omega

theorem Kept.down {signal : Bool} {r : Unit} (h : s.down c o signal t t' = .ret r s') : Kept s s' := by
  simp only [Socks.down] at h
  split at h
  · cases h
  · rename_i n hn
    cases h
    obtain ⟨hmod, hlt⟩ := semDown_mod hn
    exact Kept.taken ht hheld hmod hlt

end

theorem Kept.refl : Kept s s := ⟨fun _ _ h => h, fun _ _ => rfl⟩

theorem Kept.afterAck {wait : Option Nat} {r : Int} (hs : s'.tasks = s.tasks)
    (hc : ∀ cpu op, s'.count cpu op = s.count cpu op) (hm : .waitsAck c d wait ∈ s.tasks) :
    Kept s (afterAck s' c d wait r) := by
  have hm' : ∀ x, some (Task.waitsAck c d wait) = some x → x ∈ s.tasks := by
    rintro x ⟨⟩
    exact hm
  have hup : Kept s ((s'.up c (.send d)).move (some (.waitsAck c d wait)) none) := by
    refine Kept.move hm' hs (fun cpu op hw => count_up_lt (hc cpu op ▸ hw)) fun cpu op => ?_
    have h1 := count_up s' c (.send d) cpu op
    rw [hc] at h1
    exact h1
  unfold Socket.afterAck
  split
  · split
    · exact hup
    · exact Kept.move hm' hs (fun cpu op hw => hc cpu op ▸ hw) fun cpu op => by rw [hc]; rfl
  · exact hup

theorem total_step {a : Act} {r : Unit} (hok : Enabled s a) (h : step s a = .ret r s') : Kept s s' := by
  cases a with
  | send cpu d signal =>
    simp only [step] at h
    split at h
    · cases h
    · rename_i r n hn
      cases h
      obtain ⟨hr, hm⟩ | ⟨hr, -⟩ := Sem.semDownInterruptible_sum (s := ⟨s.count cpu (.send d), []⟩) hn
      · rw [if_pos hr]
        exact Kept.taken (fun _ hx => nomatch hx) (fun _ _ => (Nat.zero_add _).symm)
          (congrArg (· % 2 ^ 32) hm) fun hw => by simp only at hm; omega
      · rw [if_neg hr]
        exact Kept.refl
  | leave _ _ | releasedFreeCall _ =>
    cases h
    refine Kept.move ?_ rfl (fun cpu op hw => count_up_lt hw) fun cpu op => count_up ..
    rintro x ⟨⟩
    exact hok
  | dispatch cpu d wait =>
    cases h
    refine Kept.move ?_ rfl (fun cpu op hw => hw) fun cpu op => rfl
    rintro x ⟨⟩
    exact hok
  | wake cpu d wait w =>
    simp only [step] at h
    split at h
    · cases h
    · cases h
      exact Kept.afterAck rfl (fun cpu op => count_set_other ackWord_ne) hok
  | releaseOwn cpu x signal =>
    refine Kept.down ?_ (fun cpu op => ?_) h
    · rintro x ⟨⟩
      exact hok
    · simp only [heldBy, Option.elim, Task.holds, if_true]
      omega
  | releaseWait _ _ _ | releaseFreeCall _ _ =>
    refine Kept.down (t := none) (fun _ hx => nomatch hx) (fun cpu op => ?_) h
    simp [heldBy, Task.holds]
  | released c x fromSend =>
    cases h
    refine Kept.move ?_ ?_ (fun cpu op hw => ?_) fun cpu op => ?_
    · rintro x ⟨⟩
      exact hok
    · cases fromSend <;> rfl
    · cases fromSend
      · exact count_up_lt hw
      · exact count_up_lt (count_up_lt hw)
    · have h1 := count_up s c .releaseWait cpu op
      cases fromSend with
      | false => exact h1
      | true =>
        have h2 := count_up (s.up c .releaseWait) c (.send .call) cpu op
        simp only [heldBy, Option.elim, Task.holds, if_true]
        omega
  | store cpu k v =>
    cases h
    have hc : ∀ c op, (s.set cpu k v).count c op = s.count c op :=
      fun c op => count_set_other fun he => hok (he ▸ sem_mem)
    exact ⟨fun c op hw => hc c op ▸ hw, fun c op => by rw [hc]; rfl⟩

def initCount (op : Op) : Nat := if op = .send .call then 1 else 0

structure Balanced (s : Socks) : Prop where
  word : ∀ cpu ≤ 1, ∀ op, s.count cpu op < 2 ^ 32
  total : ∀ cpu ≤ 1, ∀ op, (s.count cpu op + s.taken cpu op) % 2 ^ 32 = initCount op

theorem Balanced.step {a : Act} {r : Unit} (h : Balanced s) (hok : Enabled s a)
    (hs : step s a = .ret r s') : Balanced s' := by
  have hk := total_step hok hs
  exact ⟨fun cpu hc op => hk.word cpu op (h.word cpu hc op),
    fun cpu hc op => (hk.total cpu op).trans (h.total cpu hc op)⟩

theorem Balanced.at_rest (h : Balanced s) (hq : s.tasks = []) (hc : cpu ≤ 1) : s.count cpu op = initCount op := by
  have h1 := h.total cpu hc op
  have h2 : s.taken cpu op = 0 := by rw [Socks.taken, hq]; rfl
  have h3 := h.word cpu hc op
  omega

end

def initSocks (a : Nat) (w : Nat → Words) : Option Socks :=
  (initCommSeqMem a 0 (w 0)).bind fun w₀ =>
    (initCommSeqMem (a + 4992) 1 (w 1)).map fun w₁ => ⟨fun cpu => if cpu = 0 then w₀ else w₁, []⟩

theorem initSocks_balanced {a : Nat} (h₀ : Low a) (h₁ : Low (a + 4992)) (w : Nat → Words) :
    ∃ s, initSocks a w = some s ∧ s.tasks = [] ∧ Balanced s := by
  obtain ⟨w₀, hw₀, -, hs₀⟩ := initCommSeqMem_holds h₀ (Nat.zero_le 1) (w 0)
  obtain ⟨w₁, hw₁, -, hs₁⟩ := initCommSeqMem_holds h₁ (Nat.le_refl 1) (w 1)
  have hcount : ∀ (v : Words), v 2 = 1 ∧ v 30 = 0 ∧ v 234 = 0 ∧ v 259 = 0 →
      ∀ op : Op, v op.sem = initCount op := by
    rintro v ⟨h2, h30, h234, h259⟩ op
    rcases op with d | _ | _
    · cases d <;> assumption
    · exact h30
    · exact h234
  have hall : ∀ cpu ≤ 1, ∀ op : Op, (if cpu = 0 then w₀ else w₁) op.sem = initCount op := by
    intro cpu _ op
    split
    · exact hcount w₀ hs₀ op
    · exact hcount w₁ hs₁ op
  have hlt : ∀ op, initCount op < 2 ^ 32 := by
    intro op
    simp only [initCount]
    split <;> decide
  refine ⟨⟨fun cpu => if cpu = 0 then w₀ else w₁, []⟩,
    by simp only [initSocks, hw₀, hw₁, Option.bind_some, Option.map_some], rfl,
    fun cpu hc op => ?_, fun cpu hc op => ?_⟩
  · simp only [Socks.count, hall cpu hc op, hlt op]
  · simp only [Socks.count, hall cpu hc op, Socks.taken, List.map_nil, List.sum_nil, Nat.add_zero,
      Nat.mod_eq_of_lt (hlt op)]

def Op.alone (cpu waitEntry : Nat) : Op → Act
  | .send d => .send cpu d false
  | .releaseWait => .releaseWait cpu waitEntry false
  | .releaseFreeCall => .releaseFreeCall cpu false

theorem down_returns {s : Socks} {cpu : Nat} {op : Op} {t t' : Option Task} :
    (∃ s', s.down cpu op false t t' = .ret () s') ↔ 1 ≤ s.count cpu op := by
  simp only [Socks.down, semDown]
  by_cases h : 0 < s.count cpu op
  · simp only [if_pos h, Out.ret.injEq, true_and, exists_eq', true_iff]
    exact h
  · simp only [if_neg h, Bool.false_eq_true, if_false, reduceCtorEq, exists_false, false_iff]
    exact h

theorem alone_returns (s : Socks) (cpu x : Nat) (op : Op) :
    (∃ s', step s (op.alone cpu x) = .ret () s') ↔ 1 ≤ s.count cpu op := by
  cases op with
  | send d =>
    simp only [Op.alone, step, semDownInterruptible]
    by_cases h : 0 < s.count cpu (.send d)
    · simp only [if_pos h, if_true, Out.ret.injEq, true_and, exists_eq', true_iff]
      exact h
    · simp only [if_neg h, Bool.false_eq_true, if_false, reduceCtorEq, exists_false, false_iff]
      exact h
  | releaseWait | releaseFreeCall => exact down_returns

/-- When no operation is in progress, the semaphore of a call's send is 1 and each other one is 0:
`SendComm2CPUEx` in the return direction, `ReleaseWaitComm` and `Comm_ReleaseFreeCall` wait for
ever. -/
theorem semaphores_at_rest {a : Nat} (h₀ : Low a) (h₁ : Low (a + 4992)) (w : Nat → Words) :
    ∃ s₀, initSocks a w = some s₀ ∧
      ∀ acts s, Run step Enabled s₀ acts s → s.tasks = [] → ∀ cpu ≤ 1, ∀ (op : Op) (x : Nat),
        (1 ≤ s.count cpu op ↔ op = .send .call) ∧
        ((∃ s', step s (op.alone cpu x) = .ret () s') ↔ op = .send .call) := by
  obtain ⟨s₀, hs₀, -, hb₀⟩ := initSocks_balanced h₀ h₁ w
  refine ⟨s₀, hs₀, fun acts s hr hq cpu hc op x => ?_⟩
  have hb := hr.inv (fun _ _ _ _ hi hok hs => hi.step hok hs) hb₀
  have hcount : 1 ≤ s.count cpu op ↔ op = .send .call := by
    rw [hb.at_rest hq hc, initCount]
    split <;> simp [*]
  exact ⟨hcount, (alone_returns s cpu x op).trans hcount⟩

def callTimesOut : List Act :=
  [.send 1 .call false, .dispatch 1 .call (some 77), .wake 1 .call (some 77) .timeout,
    .releaseOwn 1 77 true, .store 1 53 77, .released 1 77 true]

theorem semaphores_at_rest_callTimesOut :
    ∃ s₀ s, initSocks 4096 (fun _ _ => 0) = some s₀ ∧ Run step Enabled s₀ callTimesOut s ∧
      s.tasks = [] ∧ (1 ≤ s.count 1 (.send .call)) ∧ ¬ 1 ≤ s.count 1 .releaseWait := by
  obtain ⟨s₀, hs₀, hall⟩ :=
    semaphores_at_rest (a := 4096) ⟨by decide, by decide⟩ ⟨by decide, by decide⟩ (fun _ _ => 0)
  have hx : (initSocks 4096 (fun _ _ => 0)).any (fun s =>
      (Run.exec step Enabled s callTimesOut).any fun s' => decide (s'.tasks = [])) = true := by
    decide +kernel
  rw [hs₀] at hx
  obtain ⟨s, hr, hq⟩ := Run.exists_of_exec hx
  refine ⟨s₀, s, hs₀, hr, hq, ?_, ?_⟩
  · exact (hall _ s hr hq 1 (by decide) (.send .call) 0).1.mpr rfl
  · exact fun h => absurd ((hall _ s hr hq 1 (by decide) .releaseWait 0).1.mp h) (by decide)

theorem releases_blocked_after_init : ∃ s, initSocks 4096 (fun _ _ => 0) = some s ∧ s.tasks = [] ∧
      ∀ op ∈ [Op.send .ret, .releaseWait, .releaseFreeCall],
        s.count 0 op = 0 ∧ ¬ ∃ s', step s (op.alone 0 (ptr 4096 73)) = .ret () s' := by
  obtain ⟨s, hs, hq, hb⟩ :=
    initSocks_balanced (a := 4096) ⟨by decide, by decide⟩ ⟨by decide, by decide⟩ (fun _ _ => 0)
  refine ⟨s, hs, hq, fun op hop => ?_⟩
  have hne : initCount op = 0 := by
    simp only [List.mem_cons, List.not_mem_nil, or_false] at hop
    rcases hop with rfl | rfl | rfl <;> rfl
  have hc : s.count 0 op = 0 := (hb.at_rest hq (Nat.zero_le 1)).trans hne
  refine ⟨hc, ?_⟩
  rw [alone_returns, hc]
  decide

end H713.Socket
