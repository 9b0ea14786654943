import H713.Lock.Code

/-!
# Lock.Hold

Who holds one lock, over every sequence of calls. `Sys` is the lock table with the locks that each process has got
and not yet undone; `commSpinUnLock` takes a level off whoever asks.
-/

namespace H713.Lock

open Function
open Bytes

inductive Call where
  | lock (tgid : Nat)
  | lockMutex (tgid : Nat)
  | tryLock (tgid : Nat)
  | unlock (tgid : Nat)
  deriving DecidableEq, Repr

def Call.tgid : Call → Nat
  | .lock t | .lockMutex t | .tryLock t | .unlock t => t

structure Sys where
  locks : Locks
  held : Nat → Nat

def Sys.got (s : Sys) (t : Nat) (l : Locks) : Sys := ⟨l, update s.held t (s.held t + 1)⟩

def Sys.gave (s : Sys) (t : Nat) (l : Locks) : Sys := ⟨l, update s.held t (s.held t - 1)⟩

/-- The thread has taken the lock more often than it has returned it. -/
def Holds (s : Sys) (t : Nat) : Prop := 0 < s.held t
deriving Decidable

def callStep (id : Nat) (s : Sys) : Call → Out Sys Nat
  | .lock t => (commSpinLock s.locks id t).bind fun _ l => .ret 1 (s.got t l)
  | .lockMutex t => (commSpinLockMutex s.locks id t).bind fun _ l => .ret 1 (s.got t l)
  | .tryLock t =>
    (commTrySpinLock s.locks id t).bind fun r l => .ret r (if r = 0 then ⟨l, s.held⟩ else s.got t l)
  | .unlock t => (commSpinUnLock s.locks id).bind fun _ l => .ret 0 (s.gave t l)

/-- A process unlocks what it holds or what nobody holds, and 255 is nobody's thread group. -/
def Fair (id : Nat) (s : Sys) : Call → Prop
  | .unlock t => Holds s t ∨ (s.locks id).refCount = 0
  | .lock t | .lockMutex t | .tryLock t =>
    ((s.locks id).refCount = 0 → t ≠ noThread) ∧ s.held t + 1 < 2 ^ 31

instance (id : Nat) (s : Sys) (c : Call) : Decidable (Fair id s c) := by
  cases c <;> unfold Fair <;> infer_instance

section

variable {id r : Nat} {s s' : Sys}

inductive Locked (id t : Nat) (s s' : Sys) : Prop where
  | fresh (h : (s.locks id).threadId = noThread)
      (e : s' = s.got t (update s.locks id
        (leaveCritical (addRef { s.locks id with threadId := t }))))
  | again (hn : (s.locks id).threadId ≠ noThread) (h : (s.locks id).threadId = t)
      (e : s' = s.got t (update s.locks id (leaveCritical (addRef (s.locks id)))))
  | failed (e : s' = ⟨update s.locks id (leaveCritical (s.locks id)), s.held⟩)

theorem locked_of_block {mode t : Nat} (hm : mode ≠ 0)
    (h : ((spinLock s.locks id mode t).bind fun _ l => Out.ret () l).bind
      (fun _ l => .ret 1 (s.got t l)) = .ret r s') : Locked id t s s' := by
  obtain ⟨_, l, hl, he⟩ := Out.bind_eq_ret h
  obtain ⟨v, l', hv, hw⟩ := Out.bind_eq_ret hl
  cases hw
  cases he
  obtain ⟨-, h1, rfl⟩ | ⟨-, h1, h2, rfl⟩ | ⟨-, h0, -⟩ := spinLock_ret hv
  · exact .fresh h1 rfl
  · exact .again h1 h2 rfl
  · exact absurd h0 hm

theorem locked_of_try {t : Nat} (h : callStep id s (.tryLock t) = .ret r s') : Locked id t s s' := by
  obtain ⟨w, l, hl, he⟩ := Out.bind_eq_ret h
  obtain ⟨v, l', hv, hw⟩ := Out.bind_eq_ret hl
  cases hw
  cases he
  obtain ⟨rfl, h1, rfl⟩ | ⟨rfl, h1, h2, rfl⟩ | ⟨rfl, -, rfl⟩ := spinLock_ret hv
  · exact .fresh h1 rfl
  · exact .again h1 h2 rfl
  · exact .failed rfl

theorem unlock_cases {t : Nat} (h : callStep id s (.unlock t) = .ret r s') : (toI32 (s.locks id).refCount ≤ 0 ∧
      s' = s.gave t (update s.locks id (leaveCritical (s.locks id)))) ∨ (0 < toI32 (s.locks id).refCount ∧
      s' = s.gave t (update s.locks id (unlockEntry (s.locks id)))) := by
  obtain ⟨_, l, hl, he⟩ := Out.bind_eq_ret h
  cases he
  obtain ⟨h0, rfl⟩ | ⟨h0, -, rfl⟩ := commSpinUnLock_ret hl
  · exact .inl ⟨h0, rfl⟩
  · exact .inr ⟨h0, rfl⟩

end

structure Idle (e : Entry) (held : Nat → Nat) : Prop where
  ref : e.refCount = 0
  thread : e.threadId = noThread
  none : ∀ t, held t = 0

structure Busy (e : Entry) (held : Nat → Nat) (t : Nat) : Prop where
  ref : e.refCount = held t
  thread : e.threadId = t
  real : t ≠ noThread
  pos : 0 < held t
  depth : held t < 2 ^ 31
  others : ∀ u, u ≠ t → held u = 0

theorem Busy.toI32_pos {e : Entry} {held : Nat → Nat} {t : Nat} (h : Busy e held t) : 0 < toI32 e.refCount := by
  have h1 := h.pos
  simp only [toI32, h.ref, if_pos h.depth]
  omega

structure Inv (id : Nat) (s : Sys) : Prop where
  mutex : (s.locks id).mutex = 0
  owner : (s.locks id).owner = free
  who : Idle (s.locks id) s.held ∨ ∃ t, Busy (s.locks id) s.held t

section

variable {id r t : Nat} {s s' : Sys}

theorem Inv.holder (hi : Inv id s) (h : Holds s t) : Busy (s.locks id) s.held t := by
  obtain hn | ⟨u, hb⟩ := hi.who
  · exact absurd (hn.none t) (Nat.pos_iff_ne_zero.mp h)
  · by_cases hu : t = u
    · exact hu ▸ hb
    · exact absurd (hb.others t hu) (Nat.pos_iff_ne_zero.mp h)

theorem Inv.idle (hi : Inv id s) (h : (s.locks id).refCount = 0) : Idle (s.locks id) s.held := by
  obtain hn | ⟨u, hb⟩ := hi.who
  · exact hn
  · have h1 := hb.ref
    have h2 := hb.pos
    omega

theorem Inv.locked (hi : Inv id s) (hl : Locked id t s s')
    (hf : ((s.locks id).refCount = 0 → t ≠ noThread) ∧ s.held t + 1 < 2 ^ 31) : Inv id s' := by
  cases hl with
  | fresh h e =>
    subst e
    have hn : Idle (s.locks id) s.held := by
      obtain hn | ⟨u, hb⟩ := hi.who
      · exact hn
      · exact absurd (hb.thread.symm.trans h) hb.real
    refine ⟨by simpa [Sys.got, leaveCritical, addRef] using hi.mutex, by simp [Sys.got, leaveCritical],
      .inr ⟨t, ?_, ?_, hf.1 hn.ref, ?_, ?_, fun u hu => ?_⟩⟩
    · simp [Sys.got, leaveCritical, addRef, hn.ref, hn.none t]
    · simp [Sys.got, leaveCritical, addRef]
    · simp [Sys.got]
    · simpa [Sys.got] using hf.2
    · simpa [Sys.got, hu] using hn.none u
  | again hn h e =>
    subst e
    have hb : Busy (s.locks id) s.held t := by
      obtain hi' | ⟨u, hb⟩ := hi.who
      · exact absurd hi'.thread hn
      · have hu : u = t := hb.thread.symm.trans h
        exact hu ▸ hb
    refine ⟨by simpa [Sys.got, leaveCritical, addRef] using hi.mutex, by simp [Sys.got, leaveCritical],
      .inr ⟨t, ?_, ?_, hb.real, ?_, ?_, fun u hu => ?_⟩⟩
    · have hd := hf.2
      simp only [Sys.got, leaveCritical, addRef, update_self, hb.ref]
      exact Nat.mod_eq_of_lt (by omega)
    · simpa [Sys.got, leaveCritical, addRef] using h
    · simp [Sys.got]
    · simpa [Sys.got] using hf.2
    · simpa [Sys.got, hu] using hb.others u hu
  | failed e =>
    subst e
    have he : leaveCritical (s.locks id) = s.locks id := by simp only [leaveCritical, ← hi.owner]
    rw [he, update_eq_self]
    exact hi

theorem unlockEntry_eq {e : Entry} (h : 0 < e.refCount) : unlockEntry e =
      if e.refCount = 1 then { e with refCount := 0, owner := free, threadId := noThread }
      else { e with refCount := e.refCount - 1, owner := free } := by
  have h0 : ¬ e.refCount = 0 := by omega
  by_cases h1 : e.refCount = 1
  · simp [unlockEntry, dropRef, leaveCritical, h1]
  · have h2 : ¬ e.refCount - 1 = 0 := by omega
    simp [unlockEntry, dropRef, leaveCritical, h0, h1, h2]

theorem Inv.unlocked_idle (hi : Inv id s) (h : (s.locks id).refCount = 0)
    (hs : callStep id s (.unlock t) = .ret r s') : s' = s := by
  have hn := hi.idle h
  have h0 : toI32 (s.locks id).refCount = 0 := by rw [h]; rfl
  obtain ⟨-, rfl⟩ | ⟨hp, -⟩ := unlock_cases hs
  · have he : leaveCritical (s.locks id) = s.locks id := by simp only [leaveCritical, ← hi.owner]
    have ht : s.held t - 1 = s.held t := by rw [hn.none t]
    simp only [Sys.gave, he, ht, update_eq_self]
  · omega

theorem Inv.unlocked (hi : Inv id s) (hh : Holds s t) (hs : callStep id s (.unlock t) = .ret r s') : Inv id s' := by
  have hb := hi.holder hh
  have h1 := hb.ref
  have h2 := hb.pos
  have h3 := hb.depth
  obtain ⟨h0, -⟩ | ⟨-, rfl⟩ := unlock_cases hs
  · exact absurd h0 (Int.not_le.mpr hb.toI32_pos)
  rw [unlockEntry_eq (by omega)]
  split
  · rename_i hl
    refine ⟨by simpa [Sys.gave] using hi.mutex, by simp [Sys.gave],
      .inl ⟨by simp [Sys.gave], by simp [Sys.gave], fun u => ?_⟩⟩
    by_cases hu : u = t
    · subst hu; simp only [Sys.gave, update_self]; omega
    · simpa [Sys.gave, hu] using hb.others u hu
  · rename_i hl
    refine ⟨by simpa [Sys.gave] using hi.mutex, by simp [Sys.gave],
      .inr ⟨t, ?_, ?_, hb.real, ?_, ?_, fun u hu => ?_⟩⟩
    · simpa [Sys.gave] using by omega
    · simpa [Sys.gave] using hb.thread
    · simp only [Sys.gave, update_self]; omega
    · simp only [Sys.gave, update_self]; omega
    · simpa [Sys.gave, hu] using hb.others u hu

theorem Inv.step {c : Call} (hi : Inv id s) (hf : Fair id s c) (hs : callStep id s c = .ret r s') : Inv id s' := by
  cases c with
  | lock t => exact hi.locked (locked_of_block (by decide : 2 ≠ 0) hs) hf
  | lockMutex t => exact hi.locked (locked_of_block (by decide : 1 ≠ 0) hs) hf
  | tryLock t => exact hi.locked (locked_of_try hs) hf
  | unlock t =>
    by_cases hh : Holds s t
    · exact hi.unlocked hh hs
    · obtain h | h := hf
      · exact absurd h hh
      · rw [hi.unlocked_idle h hs]; exact hi

theorem Inv.init {hw : Int} {t₀ l₀ : Locks} (hid : id ≤ maxId)
    (h : commInitSpinLock hw t₀ = .ret 0 l₀) : Inv id ⟨l₀, fun _ => 0⟩ := by
  have hl : l₀ id = initEntry := by
    rw [commInitSpinLock_entries h]
    exact if_pos (by simp only [maxId] at hid; omega)
  refine ⟨?_, ?_, .inl ⟨?_, ?_, fun _ => rfl⟩⟩ <;> simp only [hl, initEntry]

theorem Inv.unlock_stranger (hi : Inv id s) (hid : id ≤ maxId) :
    callStep id s (.unlock t) = .ret 0 s ↔ ∀ u, ¬ Holds s u := by
  constructor
  · intro hs u hu
    have hb := hi.holder hu
    have h1 := hb.ref
    have h2 := hb.pos
    obtain ⟨h0, -⟩ | ⟨-, he⟩ := unlock_cases hs
    · exact absurd h0 (Int.not_le.mpr hb.toI32_pos)
    have hr : (s.locks id).refCount = (unlockEntry (s.locks id)).refCount := by
      conv_lhs => rw [he]
      simp only [Sys.gave, update_self]
    rw [unlockEntry_eq (by omega)] at hr
    split at hr <;> simp only at hr <;> omega
  · intro hn
    have hi' : Idle (s.locks id) s.held := by
      obtain h | ⟨u, hb⟩ := hi.who
      · exact h
      · exact absurd hb.pos (hn u)
    have hc : commSpinUnLock s.locks id =
        .ret () (update s.locks id (leaveCritical (s.locks id))) := by
      have h0 : toI32 (enterCritical (s.locks id)).refCount ≤ 0 := by
        simp only [enterCritical, hi'.ref]; decide
      simp only [commSpinUnLock, if_neg (Nat.not_lt.mpr hid), if_pos h0]
      rfl
    have hs : callStep id s (.unlock t) = .ret 0 (s.gave t (update s.locks id
        (leaveCritical (s.locks id)))) := by
      simp only [callStep, hc, Out.bind]
    rw [hs, hi.unlocked_idle hi'.ref hs]

end

/-- When unlocks come from the holder, the lock has one holder and the entry counts its locks. -/
theorem lock_has_one_holder {id : Nat} (hid : id ≤ maxId) {hw : Int} {t₀ l₀ : Locks}
    (h₀ : commInitSpinLock hw t₀ = .ret 0 l₀) {calls : List Call} {s : Sys}
    (hr : Run (callStep id) (Fair id) ⟨l₀, fun _ => 0⟩ calls s) :
    (∀ t u, Holds s t → Holds s u → t = u) ∧ (∀ t, Holds s t → (s.locks id).refCount = s.held t) ∧
    ((∀ t, ¬ Holds s t) → (s.locks id).refCount = 0) ∧
    ∀ t, ¬ Holds s t → (callStep id s (.unlock t) = .ret 0 s ↔ ∀ u, ¬ Holds s u) := by
  have hi : Inv id s := hr.inv (fun _ _ _ _ h hf hs => h.step hf hs) (Inv.init hid h₀)
  refine ⟨fun t u ht hu => ?_, fun t ht => (hi.holder ht).ref, fun hn => ?_,
    fun _ _ => hi.unlock_stranger hid⟩
  · exact (hi.holder ht).thread.symm.trans (hi.holder hu).thread
  · obtain h | ⟨u, hb⟩ := hi.who
    · exact h.ref
    · exact absurd hb.pos (hn u)

def twoLevels : List Call := [.lock 7, .lockMutex 7, .tryLock 9, .unlock 7]

theorem lock_has_one_holder_twoLevels :
    ∃ s, Run (callStep 3) (Fair 3) ⟨freshLocks, fun _ => 0⟩ twoLevels s ∧ Holds s 7 ∧
      (∀ t u, Holds s t → Holds s u → t = u) ∧ (s.locks 3).refCount = s.held 7 := by
  refine Run.exists_of_exec_imp (P := fun s => Holds s 7) (by decide) fun s hx h7 => ?_
  have h := lock_has_one_holder (by decide) freshLocks_init hx
  exact ⟨h7, h.1, h.2.1 7 h7⟩

theorem unlock_by_stranger : ∃ s, Run (callStep 3) (fun _ c => 0 < c.tgid) ⟨freshLocks, fun _ => 0⟩
      [.lock 7, .unlock 9, .lock 9] s ∧ Holds s 7 ∧ Holds s 9 :=
  Run.exists_of_exec (by decide)

end H713.Lock
