import H713.Lib.Slots
import H713.Lock.Code

/-!
# Lock.Cleanup

The locks of a CPU that is reset. `commSpinLockCleanUpInCPUReset` frees the entries whose owner byte names the CPU,
which it does inside a call and on a requested id only. The calls are those of `Lock.Code`, made by either CPU.
-/

namespace H713.Lock
def Cpu.other : Cpu → Cpu
  | .arm => .mips
  | .mips => .arm

namespace Cleanup

open Function
open Bytes

def forceRelease (e : Entry) : Entry := { e with owner := free, refCount := 0, threadId := noThread }

def commSpinLockCleanUpInCPUReset (t : Locks) (cpuId : Nat) : Locks :=
  Slots.rewrite (maxId + 1) (fun e => if e.owner = cpuId % 2 ^ 8 then forceRelease e else e) t

structure World where
  locks : Locks
  held : Cpu → Nat → Nat

namespace World

def got (w : World) (c : Cpu) (id : Nat) (l : Locks) : World :=
  ⟨l, update w.held c (update (w.held c) id (w.held c id + 1))⟩

def gave (w : World) (c : Cpu) (id : Nat) (l : Locks) : World :=
  ⟨l, update w.held c (update (w.held c) id (w.held c id - 1))⟩

def start (l : Locks) : World := ⟨l, fun _ _ => 0⟩

end World

inductive Op where
  | lock (c : Cpu) (id tgid : Nat)
  | lockMutex (c : Cpu) (id tgid : Nat)
  | tryLock (c : Cpu) (id tgid : Nat)
  | unlock (c : Cpu) (id : Nat)
  | request (c : Cpu)
  | release (id : Nat)
  deriving DecidableEq, Repr

def step (w : World) : Op → Out World Int
  | .lock c id tgid => (spinLock w.locks id 2 tgid c).bind fun _ l => .ret 0 (w.got c id l)
  | .lockMutex c id tgid => (spinLock w.locks id 1 tgid c).bind fun _ l => .ret 0 (w.got c id l)
  | .tryLock c id tgid =>
    (spinLock w.locks id 0 tgid c).bind fun r l =>
      if r ≠ 0 then .ret 1 (w.got c id l) else .ret 0 ⟨l, w.held⟩
  | .unlock c id => (commSpinUnLock w.locks id c).bind fun _ l => .ret 0 (w.gave c id l)
  | .request c => (commReqestSpinLock w.locks c).bind fun id l => .ret id ⟨l, w.held⟩
  | .release id => (commReleaseSpinLock w.locks id).bind fun r l => .ret r ⟨l, w.held⟩

/-- Nothing that `c` has taken is still held, and what the other CPU has taken is as it was. -/
structure CleanedUp (c : Cpu) (w : World) : Prop where
  freed : ∀ id ≤ maxId, 0 < w.held c id → (commSpinLockCleanUpInCPUReset w.locks (getCurCPUID c) id).refCount = 0
  kept : ∀ id ≤ maxId, 0 < w.held c.other id →
    (commSpinLockCleanUpInCPUReset w.locks (getCurCPUID c) id).threadId = (w.locks id).threadId ∧
    (commSpinLockCleanUpInCPUReset w.locks (getCurCPUID c) id).refCount = (w.locks id).refCount

def NamesNoHolder (e : Entry) : Prop := e.owner ≠ free → e.refCount = 0 ∧ e.threadId = noThread

theorem NamesNoHolder.of_free {e : Entry} (h : e.owner = free) : NamesNoHolder e :=
  fun hn => absurd h hn

def Inv (t : Locks) : Prop := ∀ id ≤ maxId, NamesNoHolder (t id)

section

variable {c : Cpu} {t t' : Locks} {id mode tgid : Nat}

theorem Inv.update {e : Entry} (hi : Inv t) (he : NamesNoHolder e) : Inv (update t id e) := by
  intro j hj
  by_cases hji : j = id
  · subst hji
    rwa [update_self]
  · rw [update_of_ne hji]
    exact hi j hj

theorem Inv.spinLock {r : Nat} (hi : Inv t) (h : spinLock t id mode tgid c = .ret r t') : Inv t' := by
  obtain ⟨-, -, rfl⟩ | ⟨-, -, -, rfl⟩ | ⟨-, -, rfl⟩ := spinLock_ret h <;> exact hi.update (.of_free rfl)

theorem Inv.unlock (hi : Inv t) (h : commSpinUnLock t id c = .ret () t') : Inv t' := by
  obtain ⟨-, rfl⟩ | ⟨-, -, rfl⟩ := commSpinUnLock_ret h <;> exact hi.update (.of_free rfl)

theorem Inv.request (hi : Inv t) (h : commReqestSpinLock t c = .ret id t') : Inv t' := by
  obtain rfl | ⟨-, href, hthread, rfl⟩ := commReqestSpinLock_ret h
  · exact hi
  · exact hi.update fun _ => ⟨href, hthread⟩

theorem Inv.release {r : Int} (hi : Inv t) (h : commReleaseSpinLock t id = .ret r t') : Inv t' := by
  simp only [commReleaseSpinLock] at h
  split at h
  · cases h
  split at h
  · cases h
    exact hi
  · cases h
    exact hi.update (.of_free rfl)

end

theorem Inv.step {w w' : World} {op : Op} {r : Int} (hi : Inv w.locks) (h : step w op = .ret r w') :
    Inv w'.locks := by
  cases op with
  | lock c id tgid | lockMutex c id tgid =>
    obtain ⟨_, l, hl, he⟩ := Out.bind_eq_ret h
    cases he
    exact hi.spinLock hl
  | tryLock c id tgid =>
    obtain ⟨v, l, hl, he⟩ := Out.bind_eq_ret h
    split at he <;> cases he <;> exact hi.spinLock hl
  | unlock c id =>
    obtain ⟨_, l, hl, he⟩ := Out.bind_eq_ret h
    cases he
    exact hi.unlock hl
  | request c =>
    obtain ⟨_, l, hl, he⟩ := Out.bind_eq_ret h
    cases he
    exact hi.request hl
  | release id =>
    obtain ⟨_, l, hl, he⟩ := Out.bind_eq_ret h
    cases he
    exact hi.release hl

section

variable {hw : Int} {t l : Locks} (h : commInitSpinLock hw t = .ret 0 l)

include h

theorem inv_init : Inv l := by
  intro id hid
  rw [commInitSpinLock_entries h]
  simp only [maxId] at hid
  simp only [if_pos (show id < 12 by omega)]
  exact .of_free rfl

theorem run_inv {ops : List Op} {w : World} (hr : Run step (fun _ _ => True) (World.start l) ops w) : Inv w.locks :=
  Run.inv (I := fun w => Inv w.locks) (fun _ _ _ _ hi _ hs => hi.step hs) hr (inv_init h)

end

theorem forceRelease_holder {e : Entry} (h : NamesNoHolder e) (hn : e.owner ≠ free) :
    (forceRelease e).threadId = e.threadId ∧ (forceRelease e).refCount = e.refCount := by
  obtain ⟨href, hthread⟩ := h hn
  exact ⟨hthread.symm, href.symm⟩

theorem cleanup_holder {t : Locks} (hi : Inv t) (c : Cpu) {id : Nat} (hid : id ≤ maxId) :
    (commSpinLockCleanUpInCPUReset t (getCurCPUID c) id).threadId = (t id).threadId ∧
    (commSpinLockCleanUpInCPUReset t (getCurCPUID c) id).refCount = (t id).refCount := by
  have hc : getCurCPUID c % 2 ^ 8 ≠ free := by cases c <;> decide
  rw [commSpinLockCleanUpInCPUReset, Slots.rewrite_apply, if_pos (Nat.lt_succ_of_le hid)]
  split
  · rename_i howner
    exact forceRelease_holder (hi id hid) (howner ▸ hc)
  · exact ⟨rfl, rfl⟩

/-- After every run the cleanup for `c` does what it is for exactly when `c` holds nothing. -/
theorem cleanup_right_iff {hw : Int} {t l : Locks} (h : commInitSpinLock hw t = .ret 0 l) {ops : List Op}
    {w : World} (hr : Run step (fun _ _ => True) (World.start l) ops w) (c : Cpu) :
    CleanedUp c w ↔ ∀ id ≤ maxId, 0 < w.held c id → (w.locks id).refCount = 0 := by
  have hi := run_inv h hr
  constructor
  · intro hcl id hid hheld
    rw [← (cleanup_holder hi c hid).2]
    exact hcl.freed id hid hheld
  · intro hfree
    refine ⟨fun id hid hheld => ?_, fun id hid _ => cleanup_holder hi c hid⟩
    rw [(cleanup_holder hi c hid).2]
    exact hfree id hid hheld

def idleMips : List Op :=
  [.request .mips, .lock .mips 3 40, .unlock .mips 3, .lock .arm 4 70]

theorem cleanup_right_iff_idle : ∃ w, Run step (fun _ _ => True) (World.start freshLocks) idleMips w ∧
    CleanedUp .mips w ∧ (commSpinLockCleanUpInCPUReset w.locks 1 4).refCount = 1 := by
  refine Run.exists_of_exec_imp
    (P := fun w => (∀ id ≤ maxId, 0 < w.held .mips id → (w.locks id).refCount = 0) ∧
      (commSpinLockCleanUpInCPUReset w.locks 1 4).refCount = 1)
    (by decide) fun w hr hend => ?_
  obtain ⟨hfree, harm⟩ := hend
  exact ⟨(cleanup_right_iff freshLocks_init hr .mips).mpr hfree, harm⟩

theorem cleanup_leaves_lock_held : ∃ w, Run step (fun _ _ => True) (World.start freshLocks) [.lock .mips 3 40] w ∧
      0 < w.held .mips 3 ∧ commSpinLockCleanUpInCPUReset w.locks 1 3 = ⟨free, free, 0, free, 1, 40⟩ ∧
      ¬ CleanedUp .mips w := by
  refine Run.exists_of_exec_imp
    (P := fun w => 0 < w.held .mips 3 ∧ commSpinLockCleanUpInCPUReset w.locks 1 3 = ⟨free, free, 0, free, 1, 40⟩)
    (by decide) fun w hr hend => ?_
  obtain ⟨hheld, hentry⟩ := hend
  refine ⟨hheld, hentry, fun hcl => ?_⟩
  have h0 := hcl.freed 3 (by decide) hheld
  rw [show getCurCPUID .mips = 1 from rfl, hentry] at h0
  cases h0

end Cleanup
end H713.Lock
