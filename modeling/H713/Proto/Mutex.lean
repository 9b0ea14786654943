import H713.Proto.Send

/-!
# Proto.Mutex

The counter of `cpu_comm_sem_*` as a lock: every order of downs, ups, signals and timeouts by any number of tasks.
`semDown` takes a counter that is 0 when a signal ends its wait.
-/

namespace H713.Proto

def eTime : Int := -62

inductive Wake where
  | nothing
  | signal
  | timeout
  deriving DecidableEq, Repr

def semDownInterruptible (count : Nat) (signal : Bool) : Option (Int × Nat) :=
  if 0 < count then some (0, count - 1)
  else if signal then some (eRestartSys, count)
  else none

def semDownTimeout (count : Nat) (wake : Wake) : Option (Int × Nat) :=
  if 0 < count then some (0, count - 1)
  else
    match wake with
    | .timeout => some (eTime, count)
    | .signal => some (eRestartSys, count)
    | .nothing => none

structure Sem where
  count : Nat
  inside : List Nat
  deriving DecidableEq, Repr

inductive SemOp where
  | down (task : Nat) (signal : Bool)
  | downInterruptible (task : Nat) (signal : Bool)
  | downTimeout (task : Nat) (wake : Wake)
  | up (task : Nat)
  deriving DecidableEq, Repr

def Sem.downed (s : Sem) (task : Nat) : Option (Int × Nat) → Out Sem Int
  | none => .spin
  | some (r, n) => .ret r ⟨n, if r = 0 then task :: s.inside else s.inside⟩

def semStep (s : Sem) : SemOp → Out Sem Int
  | .down t signal => s.downed t ((semDown s.count signal).map fun n => (0, n))
  | .downInterruptible t signal => s.downed t (semDownInterruptible s.count signal)
  | .downTimeout t wake => s.downed t (semDownTimeout s.count wake)
  | .up t => .ret 0 ⟨semUp s.count, s.inside.erase t⟩

/-- A task ups only what it downed. -/
def OwnUp (s : Sem) : SemOp → Prop
  | .up t => t ∈ s.inside
  | _ => True

/-- No `cpu_comm_sem_down` is ended by a signal while the counter is 0. -/
def Calm (s : Sem) (op : SemOp) : Prop :=
  OwnUp s op ∧ ∀ t, op = .down t true → 0 < s.count

instance (s : Sem) (op : SemOp) : Decidable (OwnUp s op) := by
  cases op <;> unfold OwnUp <;> infer_instance

instance (s : Sem) (op : SemOp) : Decidable (Calm s op) :=
  match op with
  | .down t true =>
    decidable_of_iff (0 < s.count) ⟨fun h => ⟨trivial, fun _ _ => h⟩, fun h => h.2 t rfl⟩
  | .down _ false => .isTrue ⟨trivial, nofun⟩
  | .downInterruptible _ _ | .downTimeout _ _ => .isTrue ⟨trivial, nofun⟩
  | .up t => decidable_of_iff (t ∈ s.inside) ⟨fun h => ⟨h, nofun⟩, fun h => h.1⟩

namespace Sem

variable {n : Nat} {s s' : Sem} {r : Int} {t : Nat}

theorem downed_sum {res : Option (Int × Nat)}
    (hres : ∀ v m, res = some (v, m) → (v = 0 ∧ m + 1 = s.count) ∨ (v ≠ 0 ∧ m = s.count))
    (h : s.downed t res = .ret r s') : s'.count + s'.inside.length = s.count + s.inside.length := by
  cases res with
  | none => cases h
  | some vm =>
    obtain ⟨v, m⟩ := vm
    obtain ⟨rfl, rfl⟩ := Out.ret.inj h
    obtain ⟨hv, hm⟩ | ⟨hv, hm⟩ := hres v m rfl
    · simp only [if_pos hv, List.length_cons]; omega
    · rw [if_neg hv, hm]

variable {v : Int} {m : Nat}

theorem semDown_sum {signal : Bool} (hc : signal = true → 0 < s.count)
    (h : (semDown s.count signal).map (fun n => ((0 : Int), n)) = some (v, m)) : v = 0 ∧ m + 1 = s.count := by
  simp only [semDown] at h
  split at h
  · cases h; exact ⟨rfl, by omega⟩
  · rename_i h0
    split at h
    · rename_i hs; exact absurd (hc hs) h0
    · cases h

theorem semDownInterruptible_sum {signal : Bool} (h : semDownInterruptible s.count signal = some (v, m)) :
    (v = 0 ∧ m + 1 = s.count) ∨ (v ≠ 0 ∧ m = s.count) := by
  simp only [semDownInterruptible] at h
  split at h
  · cases h; exact .inl ⟨rfl, by omega⟩
  · split at h
    · cases h; exact .inr ⟨by decide, rfl⟩
    · cases h

theorem semDownTimeout_sum {wake : Wake} (h : semDownTimeout s.count wake = some (v, m)) :
    (v = 0 ∧ m + 1 = s.count) ∨ (v ≠ 0 ∧ m = s.count) := by
  simp only [semDownTimeout] at h
  split at h
  · cases h; exact .inl ⟨rfl, by omega⟩
  · cases wake with
    | timeout | signal => cases h; exact .inr ⟨by decide, rfl⟩
    | nothing => cases h

theorem step_sum {op : SemOp} (hn : n < 2 ^ 32) (hi : s.count + s.inside.length = n)
    (hc : Calm s op) (h : semStep s op = .ret r s') : s'.count + s'.inside.length = n := by
  cases op with
  | down t signal =>
    refine (downed_sum (fun v m hm => .inl (semDown_sum (fun hs => ?_) hm)) h).trans hi
    exact hc.2 t (by rw [hs])
  | downInterruptible t signal =>
    exact (downed_sum (fun v m => semDownInterruptible_sum) h).trans hi
  | downTimeout t wake => exact (downed_sum (fun v m => semDownTimeout_sum) h).trans hi
  | up t =>
    cases h
    have hm : t ∈ s.inside := hc.1
    have hl := List.length_pos_of_mem hm
    have hs : (s.count + 1) % 2 ^ 32 = s.count + 1 := Nat.mod_eq_of_lt (by omega)
    simp only [semUp, List.length_erase_of_mem hm, hs]
    omega

theorem conserved {ops : List SemOp} (hn : n < 2 ^ 32) (hr : Run semStep Calm ⟨n, []⟩ ops s) :
    s.count + s.inside.length = n :=
  hr.inv (fun _ _ _ _ hi hc hs => step_sum hn hi hc hs) rfl

end Sem

/-- Without such a signal the counter stays between 0 and 1 and one task is inside at most. -/
theorem semaphore_excludes {ops : List SemOp} {s : Sem} (hr : Run semStep Calm ⟨1, []⟩ ops s) :
    s.count ≤ 1 ∧ s.inside.length ≤ 1 := by
  have h := Sem.conserved (by decide) hr
  omega

theorem semaphore_excludes_timeout :
    ∃ s, Run semStep Calm ⟨1, []⟩ [.down 1 true, .downTimeout 2 .timeout, .up 1, .down 2 false] s ∧
      s.count ≤ 1 ∧ s.inside.length ≤ 1 := by
  refine Run.exists_of_exec_imp (P := fun _ => True) (by decide) fun s hx _ => ?_
  exact semaphore_excludes hx

theorem semaphore_wraps : ∃ s, Run semStep OwnUp ⟨1, []⟩ [.down 1 false, .down 2 true] s ∧
      s.count = 2 ^ 32 - 1 ∧ s.inside = [2, 1] :=
  Run.exists_of_exec (by decide)

end H713.Proto
