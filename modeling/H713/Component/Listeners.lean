import H713.Lib.Slots
import H713.Component.Count

/-!
# Component.Listeners

The listeners of a component: 16 slots of 48 bytes, free when the callback id is 0. The requests to add and to
remove a listener have the event mask at different bytes, so a mask can be added and not be named again. The
requests can be read from and written to user memory.
-/

namespace H713.Component

open Function
open Bytes Lock

def maxListeners : Nat := 16

def listenerAt (i j : Nat) : Nat := 816 * i + 56 + 48 * j

def callbackId (b : Buf) (i j : Nat) : Nat := rd b (listenerAt i j + 8) 8
def eventMask (b : Buf) (i j : Nat) : Nat := rd b (listenerAt i j + 16) 4
def ownerTgid (b : Buf) (i j : Nat) : Nat := rd b (listenerAt i j + 40) 4
def changeCounter (b : Buf) (i : Nat) : Nat := rd b (816 * i + 52) 4

structure Key where
  id : Nat
  mask : Nat
  tgid : Nat
  deriving DecidableEq, Repr

def keyAt (b : Buf) (i j : Nat) : Key := ⟨callbackId b i j, eventMask b i j, ownerTgid b i j⟩

def findListener (b : Buf) (i : Nat) (k : Key) : Option Nat := Slots.first maxListeners (keyAt b i) k

def findFreeListener (b : Buf) (i : Nat) : Option Nat := Slots.first maxListeners (callbackId b i) 0

def underLock (s : Fd) (compSpin tgid : Nat) (r : Int × Buf) : Out Fd Int :=
  (commSpinLockMutex s.locks compSpin tgid).bind fun _ l =>
  (commSpinUnLock l compSpin).bind fun _ l => .ret r.1 { s with pool := r.2, locks := l }

def addKey (u : Buf) (tgid : Nat) : Key := ⟨rd u 8 8, rd u 16 4, tgid⟩

def fillListener (b u : Buf) (i j tgid : Nat) : Buf :=
  let a := listenerAt i j
  let b := wr b a 4 (rd u 4 4)
  let b := wr b (a + 4) 4 (rd u 0 4)
  let b := wr b (a + 8) 8 (rd u 8 8)
  let b := wr b (a + 16) 4 (rd u 16 4)
  let b := wr b (a + 24) 8 (rd u 24 8)
  let b := wr b (a + 32) 8 (rd u 32 8)
  let b := wr b (a + 40) 4 tgid
  let b := wr b (816 * i + 48) 4 (listenerCount b i + 1)
  wr b (816 * i + 52) 4 (changeCounter b i + 1)

def addBody (b u : Buf) (i tgid : Nat) : Int × Buf :=
  match findListener b i (addKey u tgid) with
  | some _ => (-17, b)
  | none =>
    match findFreeListener b i with
    | none => (-28, b)
    | some j => (0, fillListener b u i j tgid)

def addListener (s : Fd) (tgid : Nat) (u : Buf) : Out Fd Int :=
  let compIdx := rd u 0 4
  if maxSlots ≤ compIdx then .bug
  else if maxListeners ≤ listenerCount s.pool compIdx then .ret (-28) s
  else underLock s (lockId s.pool compIdx) tgid (addBody s.pool u compIdx tgid)

def removeKey (u : Buf) (tgid : Nat) : Key := ⟨rd u 4 8, rd u 8 4, tgid⟩

def clearListener (b : Buf) (i j : Nat) : Buf :=
  let a := listenerAt i j
  let b := wr b (816 * i + 52) 4 (changeCounter b i + 1)
  let b := wr b a 4 0
  let b := wr b (a + 8) 8 0
  let b := wr b (a + 16) 4 0
  let b := wr b (a + 24) 8 0
  let b := wr b (a + 32) 8 0
  let b := wr b (a + 40) 4 0
  let b := wr b (816 * i + 48) 4 (pred32 (listenerCount b i))
  wr b (816 * i + 52) 4 (changeCounter b i + 1)

def removeBody (b u : Buf) (i tgid : Nat) : Int × Buf :=
  match findListener b i (removeKey u tgid) with
  | some j => (0, clearListener b i j)
  | none => (-2, b)

def removeListener (s : Fd) (tgid : Nat) (u : Buf) : Out Fd Int :=
  let compIdx := rd u 0 4
  if maxSlots ≤ compIdx then .bug
  else underLock s (lockId s.pool compIdx) tgid (removeBody s.pool u compIdx tgid)

section

variable {i j : Nat}

def Touches (i j p : Nat) : Prop :=
  listenerAt i j ≤ p ∧ p < listenerAt i j + 48 ∨ 816 * i + 48 ≤ p ∧ p < 816 * i + 56

theorem fillListener_frame (b u : Buf) (tgid : Nat) {p : Nat} (h : ¬ Touches i j p) :
    fillListener b u i j tgid p = b p := by
  simp only [Touches, listenerAt] at h
  simp (disch := omega) only [fillListener, listenerAt, wr_of_not_mem]

theorem clearListener_frame (b : Buf) {p : Nat} (h : ¬ Touches i j p) : clearListener b i j p = b p := by
  simp only [Touches, listenerAt] at h
  simp (disch := omega) only [clearListener, listenerAt, wr_of_not_mem]

theorem keyAt_of_frame {b b' : Buf} (h : ∀ p, ¬ Touches i j p → b' p = b p) {k : Nat} (hk : k ≠ j) :
    keyAt b' i k = keyAt b i k := by
  have hread : ∀ o n, o + n ≤ 48 → rd b' (listenerAt i k + o) n = rd b (listenerAt i k + o) n := by
    intro o n hn
    refine rd_congr fun p h1 h2 => h p ?_
    simp only [Touches, listenerAt] at *
    omega
  simp only [keyAt, callbackId, eventMask, ownerTgid, hread 8 8 (by omega), hread 16 4 (by omega),
    hread 40 4 (by omega)]

theorem lockId_of_frame {b b' : Buf} (h : ∀ p, ¬ Touches i j p → b' p = b p) : lockId b' i = lockId b i := by
  refine rd_congr fun p h1 h2 => h p ?_
  simp only [Touches, listenerAt]
  omega

theorem keyAt_fill (b u : Buf) {tgid : Nat} (ht : tgid < 2 ^ 32) :
    keyAt (fillListener b u i j tgid) i = update (keyAt b i) j (addKey u tgid) := by
  funext k
  by_cases hk : k = j
  · subst hk
    have hlow : 816 * i + 56 ≤ listenerAt i k := by simp only [listenerAt]; omega
    have hid : rd u 8 8 % 256 ^ 8 = rd u 8 8 := Nat.mod_eq_of_lt (rd_lt u 8 8)
    have hmask : rd u 16 4 % 256 ^ 4 = rd u 16 4 := Nat.mod_eq_of_lt (rd_lt u 16 4)
    have htgid : tgid % 256 ^ 4 = tgid := Nat.mod_eq_of_lt ht
    rw [update_self]
    simp (disch := omega) only [keyAt, callbackId, eventMask, ownerTgid, fillListener, addKey,
      rd_wr_of_disjoint, rd_wr_same, hid, hmask, htgid]
  · rw [update_of_ne hk]
    exact keyAt_of_frame (fun p => fillListener_frame b u tgid) hk

theorem keyAt_clear (b : Buf) : keyAt (clearListener b i j) i = update (keyAt b i) j ⟨0, 0, 0⟩ := by
  funext k
  by_cases hk : k = j
  · subst hk
    have hlow : 816 * i + 56 ≤ listenerAt i k := by simp only [listenerAt]; omega
    rw [update_self]
    simp (disch := omega) only [keyAt, callbackId, eventMask, ownerTgid, clearListener,
      rd_wr_of_disjoint, rd_wr_same, Nat.zero_mod]
  · rw [update_of_ne hk]
    exact keyAt_of_frame (fun p => clearListener_frame b) hk

theorem listenerCount_fill (b u : Buf) (tgid : Nat) :
    listenerCount (fillListener b u i j tgid) i = (listenerCount b i + 1) % 256 ^ 4 := by
  have hlow : 816 * i + 56 ≤ listenerAt i j := by simp only [listenerAt]; omega
  simp (disch := omega) only [listenerCount, fillListener, rd_wr_of_disjoint, rd_wr_same]

theorem listenerCount_clear (b : Buf) : listenerCount (clearListener b i j) i = pred32 (listenerCount b i) := by
  have hlow : 816 * i + 56 ≤ listenerAt i j := by simp only [listenerAt]; omega
  have hlt : pred32 (rd b (816 * i + 48) 4) < 256 ^ 4 := pred32_lt (rd_lt _ _ _)
  simp (disch := omega) only [listenerCount, clearListener, rd_wr_of_disjoint, rd_wr_same]
  exact Nat.mod_eq_of_lt hlt

end

section

variable {s s' : Fd} {id tgid : Nat} {r : Int × Buf} {v : Int}

def Unheld (e : Entry) : Prop := e.refCount = 0 ∧ e.threadId = noThread
deriving Decidable

theorem underLock_returns (hid : id ≤ maxId) (h : Unheld (s.locks id)) (ht : tgid ≠ noThread) :
    ∃ l, underLock s id tgid r = .ret r.1 { s with pool := r.2, locks := l } := by
  have href : ¬ toI32 (s.locks id).refCount < 0 := by rw [h.1]; decide
  have hlock : commSpinLockMutex s.locks id tgid =
      .ret () (update s.locks id (leaveCritical (addRef { s.locks id with threadId := tgid }))) := by
    simp only [commSpinLockMutex, spinLock, spinRound_eq, if_neg (Nat.not_lt.mpr hid), if_neg href, if_pos h.2]
    rfl
  rw [underLock, Out.bind_of_ret hlock, commSpinUnLock, if_neg (Nat.not_lt.mpr hid)]
  simp only [update_self, enterCritical, leaveCritical, addRef, h.1]
  rw [if_neg (by decide), if_neg (by decide), if_neg ht]
  exact ⟨_, rfl⟩

theorem underLock_ret (h : Unheld (s.locks id)) (hr : underLock s id tgid r = .ret v s') :
    v = r.1 ∧ s'.pool = r.2 ∧ Unheld (s'.locks id) ∧ tgid ≠ noThread := by
  obtain ⟨_, l, hl, hr⟩ := Out.bind_eq_ret hr
  obtain ⟨_, l', hl', hr⟩ := Out.bind_eq_ret hr
  cases hr
  obtain ⟨w, l'', hw, he⟩ := Out.bind_eq_ret hl
  cases he
  obtain ⟨-, -, rfl⟩ | ⟨-, hn, -⟩ | ⟨-, hm, -⟩ := spinLock_ret hw
  · obtain ⟨h0, -⟩ | ⟨-, hn, rfl⟩ := commSpinUnLock_ret hl'
    · simp [leaveCritical, addRef, h.1, toI32] at h0
    · simp only [update_self, leaveCritical, addRef] at hn
      refine ⟨rfl, rfl, ?_, hn⟩
      simp [Unheld, unlockEntry, dropRef, leaveCritical, addRef, h.1]
  · exact absurd h.2 hn
  · cases hm

end

section

variable {s s' : Fd} {u : Buf} {i tgid : Nat} {r : Int}

structure Added (s s' : Fd) (u : Buf) (i tgid : Nat) (j : Nat) : Prop where
  slot : j < maxListeners
  free : callbackId s.pool i j = 0
  new : ∀ k < maxListeners, keyAt s.pool i k ≠ addKey u tgid
  room : listenerCount s.pool i < maxListeners
  process : tgid ≠ noThread
  pool : s'.pool = fillListener s.pool u i j tgid

theorem addListener_ret (hu : rd u 0 4 = i) (hl : Unheld (s.locks (lockId s.pool i)))
    (h : addListener s tgid u = .ret r s') : Unheld (s'.locks (lockId s.pool i)) ∧
      ((r ≠ 0 ∧ s'.pool = s.pool) ∨ (r = 0 ∧ ∃ j, Added s s' u i tgid j)) := by
  subst hu
  simp only [addListener] at h
  split at h
  · cases h
  split at h
  · cases h
    exact ⟨hl, .inl ⟨by decide, rfl⟩⟩
  rename_i hroom
  obtain ⟨hr, hpool, hl', hp⟩ := underLock_ret hl h
  refine ⟨hl', ?_⟩
  rw [hr]
  simp only [addBody] at hpool ⊢
  cases hf : findListener s.pool (rd u 0 4) (addKey u tgid) with
  | some k =>
    rw [hf] at hpool
    exact .inl ⟨show (-17 : Int) ≠ 0 by decide, hpool⟩
  | none =>
    rw [hf] at hpool
    cases hj : findFreeListener s.pool (rd u 0 4) with
    | none =>
      rw [hj] at hpool
      exact .inl ⟨show (-28 : Int) ≠ 0 by decide, hpool⟩
    | some j =>
      rw [hj] at hpool
      obtain ⟨hlt, hfree⟩ := Slots.first_some hj
      exact .inr ⟨rfl, j, hlt, hfree, Slots.first_none.mp hf, Nat.not_le.mp hroom, hp, hpool⟩

theorem removeListener_ret (hu : rd u 0 4 = i) (hl : Unheld (s.locks (lockId s.pool i)))
    (h : removeListener s tgid u = .ret r s') : Unheld (s'.locks (lockId s.pool i)) ∧ ((r ≠ 0 ∧ s'.pool = s.pool) ∨
        (r = 0 ∧ ∃ j < maxListeners, keyAt s.pool i j = removeKey u tgid ∧
          s'.pool = clearListener s.pool i j)) := by
  subst hu
  simp only [removeListener] at h
  split at h
  · cases h
  obtain ⟨hr, hpool, hl', -⟩ := underLock_ret hl h
  refine ⟨hl', ?_⟩
  rw [hr]
  simp only [removeBody] at hpool ⊢
  cases hf : findListener s.pool (rd u 0 4) (removeKey u tgid) with
  | none =>
    rw [hf] at hpool
    exact .inl ⟨show (-2 : Int) ≠ 0 by decide, hpool⟩
  | some j =>
    rw [hf] at hpool
    obtain ⟨hlt, hkey⟩ := Slots.first_some hf
    exact .inr ⟨rfl, j, hlt, hkey, hpool⟩

theorem removeListener_some {j : Nat} (hu : rd u 0 4 = i) (hi : i < maxSlots)
    (hid : lockId s.pool i ≤ maxId) (hl : Unheld (s.locks (lockId s.pool i))) (ht : tgid ≠ noThread)
    (hf : findListener s.pool i (removeKey u tgid) = some j) :
    ∃ l, removeListener s tgid u = .ret 0 { s with pool := clearListener s.pool i j, locks := l } := by
  subst hu
  obtain ⟨l, hret⟩ := underLock_returns (r := removeBody s.pool u (rd u 0 4) tgid) hid hl ht
  refine ⟨l, ?_⟩
  simp only [removeListener, if_neg (Nat.not_le.mpr hi)]
  rw [hret, removeBody, hf]

end

inductive ListenerOp where
  | add (tgid : Nat) (u : Buf)
  | remove (tgid : Nat) (u : Buf)

namespace ListenerOp

def comp : ListenerOp → Nat
  | add _ u | remove _ u => rd u 0 4

def tgid : ListenerOp → Nat
  | add t _ | remove t _ => t

def key : ListenerOp → Key
  | add t u => addKey u t
  | remove t u => removeKey u t

/-- A request of a process for the component `i`. -/
def On (i : Nat) (op : ListenerOp) : Prop := op.comp = i ∧ op.tgid < 2 ^ 32
deriving Decidable

end ListenerOp

structure Listening where
  fd : Fd
  live : Finset Key

def listenerStep (s : Listening) : ListenerOp → Out Listening Int
  | .add t u => (addListener s.fd t u).bind fun r fd =>
    .ret r ⟨fd, if r = 0 then insert (addKey u t) s.live else s.live⟩
  | .remove t u => (removeListener s.fd t u).bind fun r fd =>
    .ret r ⟨fd, if r = 0 then s.live.erase (removeKey u t) else s.live⟩

def occupied (b : Buf) (i : Nat) : Finset Nat := Slots.used maxListeners (callbackId b i) 0

def Carries (i : Nat) (u : Buf) (k : Key) : Prop := rd u 0 4 = i ∧ rd u 4 8 = k.id ∧ rd u 8 4 = k.mask

def RemovesOnly (i : Nat) (s : Fd) (k : Key) (u : Buf) : Prop :=
  ∃ s', removeListener s k.tgid u = .ret 0 s' ∧ ∃ j < maxListeners, keyAt s.pool i j = k ∧
    callbackId s'.pool i j = 0 ∧
    ∀ l < maxListeners, l ≠ j → ∀ o < 48, s'.pool (listenerAt i l + o) = s.pool (listenerAt i l + o)

/-- The listeners of slot `i` are counted, differ, and each can be removed alone. -/
structure ListenersRight (i : Nat) (s : Listening) : Prop where
  count : listenerCount s.fd.pool i = (occupied s.fd.pool i).card
  apart : ∀ j ∈ occupied s.fd.pool i, ∀ l ∈ occupied s.fd.pool i,
    keyAt s.fd.pool i j = keyAt s.fd.pool i l → j = l
  removable : ∀ k ∈ s.live, (∃ u, Carries i u k) ∧ ∀ u, Carries i u k → RemovesOnly i s.fd k u

def Key.Nameable (k : Key) : Prop := k.id ≠ 0 ∧ k.mask = k.id / 2 ^ 32
deriving Decidable

/-- A call that succeeds is for a listener that can be named. -/
def Sound (s : Listening) (op : ListenerOp) : Prop :=
  (listenerStep s op).value? = some 0 → op.key.Nameable
deriving Decidable

variable {i : Nat} {k : Key}

theorem carries_iff_nameable (hi : i < maxSlots) (hk : k.id < 2 ^ 64) :
    (∃ u, Carries i u k) ↔ k.mask = k.id / 2 ^ 32 := by
  constructor
  · rintro ⟨u, -, hid, hmask⟩
    rw [← hid, ← hmask]
    exact (rd_div u 4 4 4).symm
  · intro hmask
    have hid : k.id % 256 ^ 8 = k.id := Nat.mod_eq_of_lt hk
    simp only [maxSlots] at hi
    refine ⟨wr (wr (fun _ => 0) 0 4 i) 4 8 k.id, ?_, ?_, ?_⟩
    · rw [rd_wr_of_disjoint (by omega), rd_wr_same]
      omega
    · rw [rd_wr_same, hid]
    · have hhigh := rd_div (wr (wr (fun _ => 0) 0 4 i) 4 8 k.id) 4 4 4
      rw [rd_wr_same, hid] at hhigh
      exact hhigh.symm.trans hmask.symm

def Key.inSlot (k : Key) : Option Key := if k.id = 0 then none else some k

def slotKey (b : Buf) (i j : Nat) : Option Key := (keyAt b i j).inSlot

theorem Key.inSlot_of_ne (h : k.id ≠ 0) : k.inSlot = some k := if_neg h

theorem Key.inSlot_eq_some {l : Key} (h : k.inSlot = some l) : k = l ∧ l.id ≠ 0 := by
  simp only [inSlot] at h
  split at h
  · cases h
  · rename_i hid
    cases h
    exact ⟨rfl, hid⟩

theorem Key.inSlot_eq_none : k.inSlot = none ↔ k.id = 0 := by
  simp [inSlot]

section

variable {b b' : Buf} {i j : Nat} {k : Key}

section

variable (h : keyAt b' i = update (keyAt b i) j k)

include h

theorem slotKey_update : slotKey b' i = update (slotKey b i) j k.inSlot := by
  funext l
  simp only [slotKey, h]
  by_cases hl : l = j
  · subst hl
    rw [update_self, update_self]
  · rw [update_of_ne hl, update_of_ne hl]
    rfl

theorem callbackId_update : callbackId b' i = update (callbackId b i) j k.id := by
  funext l
  have hl : callbackId b' i l = (update (keyAt b i) j k l).id := by rw [← h]; rfl
  rw [hl]
  by_cases hlj : l = j
  · subst hlj
    rw [update_self, update_self]
  · rw [update_of_ne hlj, update_of_ne hlj]
    rfl

theorem card_occupied_same (hj : callbackId b i j = 0) (hk : k.id = 0) : occupied b' i = occupied b i := by
  have he : callbackId b' i = callbackId b i := by
    rw [callbackId_update h, hk, ← hj, update_eq_self]
  simp only [occupied, he]

end

theorem card_occupied_le (b : Buf) (i : Nat) : (occupied b i).card ≤ 16 := Slots.card_used_le

end

structure ListenersInv (i : Nat) (s : Listening) : Prop where
  holds : Slots.Holds maxListeners (slotKey s.fd.pool i) none some s.live
  count : listenerCount s.fd.pool i = (occupied s.fd.pool i).card
  nameable : ∀ k ∈ s.live, k.mask = k.id / 2 ^ 32
  process : ∀ k ∈ s.live, k.tgid ≠ noThread
  lock : lockId s.fd.pool i ≤ maxId
  unheld : Unheld (s.fd.locks (lockId s.fd.pool i))

namespace ListenersInv

variable {i : Nat} {s s' : Listening} {k : Key}

theorem slot (h : ListenersInv i s) (hk : k ∈ s.live) : k.id ≠ 0 ∧ k.id < 2 ^ 64 ∧
    ∃ j < maxListeners, keyAt s.fd.pool i j = k ∧ ∀ l < maxListeners, keyAt s.fd.pool i l = k → l = j := by
  obtain ⟨j, hj, -, hslot⟩ := h.holds.slot hk
  obtain ⟨hkey, hid⟩ := Key.inSlot_eq_some hslot
  have hlt : (keyAt s.fd.pool i j).id < 256 ^ 8 := rd_lt _ _ _
  rw [hkey] at hlt
  refine ⟨hid, hlt, j, hj, hkey, fun l hl hl' => ?_⟩
  exact h.holds.slot_unique hk hl hj (by rw [slotKey, hl', Key.inSlot_of_ne hid]) hslot

theorem removable (hi : i < maxSlots) (h : ListenersInv i s) (hk : k ∈ s.live) {u : Buf}
    (hu : Carries i u k) : RemovesOnly i s.fd k u := by
  obtain ⟨-, -, j, hj, hkey, honly⟩ := h.slot hk
  obtain ⟨hcomp, hid, hmask⟩ := hu
  have hrk : removeKey u k.tgid = k := by
    rw [removeKey, hid, hmask]
  have hf : findListener s.fd.pool i (removeKey u k.tgid) = some j := by
    rw [hrk]
    exact Slots.first_unique hj hkey honly
  obtain ⟨l, hret⟩ := removeListener_some hcomp hi h.lock h.unheld (h.process k hk) hf
  have hclear := congrFun (callbackId_update (keyAt_clear (i := i) (j := j) s.fd.pool)) j
  rw [update_self] at hclear
  refine ⟨_, hret, j, hj, hkey, hclear, fun l _ hl o ho => ?_⟩
  apply clearListener_frame
  simp only [Touches, listenerAt]
  omega

theorem right (hi : i < maxSlots) (h : ListenersInv i s) : ListenersRight i s where
  count := h.count
  apart := by
    intro j hj l hl hkey
    obtain ⟨hj, hid⟩ := Slots.mem_used.mp hj
    obtain ⟨hl, -⟩ := Slots.mem_used.mp hl
    have hne : (keyAt s.fd.pool i j).id ≠ 0 := hid
    have hslot : slotKey s.fd.pool i j = some (keyAt s.fd.pool i j) := Key.inSlot_of_ne hne
    obtain ⟨k, hk, hjk⟩ := h.holds.only j hj (by rw [hslot]; exact Option.some_ne_none _)
    refine h.holds.slot_unique hk hj hl hjk ?_
    rw [slotKey, ← hkey]
    exact hjk
  removable := by
    intro k hk
    obtain ⟨-, hlt, -⟩ := h.slot hk
    exact ⟨(carries_iff_nameable hi hlt).mpr (h.nameable k hk), fun u hu => h.removable hi hk hu⟩

theorem of_same (h : ListenersInv i s) (hp : s'.fd.pool = s.fd.pool) (hlive : s'.live = s.live)
    (hl : Unheld (s'.fd.locks (lockId s.fd.pool i))) : ListenersInv i s' := by
  constructor
  · rw [hp, hlive]; exact h.holds
  · rw [hp]; exact h.count
  · rw [hlive]; exact h.nameable
  · rw [hlive]; exact h.process
  · rw [hp]; exact h.lock
  · rw [hp]; exact hl

theorem add {t j : Nat} {u : Buf} (h : ListenersInv i s) (hadd : Added s.fd s'.fd u i t j) (ht : t < 2 ^ 32)
    (hk : (addKey u t).Nameable) (hlive : s'.live = insert (addKey u t) s.live)
    (hl : Unheld (s'.fd.locks (lockId s.fd.pool i))) : ListenersInv i s' := by
  have hkeys : keyAt s'.fd.pool i = update (keyAt s.fd.pool i) j (addKey u t) := by
    rw [hadd.pool, keyAt_fill _ _ ht]
  have hlock : lockId s'.fd.pool i = lockId s.fd.pool i := by
    rw [hadd.pool]
    exact lockId_of_frame fun p => fillListener_frame _ _ _
  have hnew : ∀ c ∈ s.live, some c ≠ some (addKey u t) := by
    intro c hc he
    obtain ⟨-, -, l, hl, hkey, -⟩ := h.slot hc
    exact hadd.new l hl (hkey.trans (Option.some.inj he))
  constructor
  · rw [slotKey_update hkeys, Key.inSlot_of_ne hk.1, hlive]
    exact h.holds.fill hadd.slot (Key.inSlot_eq_none.mpr hadd.free) (Option.some_ne_none _) hnew
  · have hroom := hadd.room
    have hcard : (occupied s'.fd.pool i).card = (occupied s.fd.pool i).card + 1 := by
      rw [occupied, callbackId_update hkeys]
      exact Slots.card_used_fill hadd.slot hadd.free hk.1
    rw [hadd.pool, listenerCount_fill, ← hadd.pool, hcard, h.count]
    rw [h.count, maxListeners] at hroom
    omega
  · rw [hlive]
    intro c hc
    obtain rfl | hc := Finset.mem_insert.mp hc
    · exact hk.2
    · exact h.nameable c hc
  · rw [hlive]
    intro c hc
    obtain rfl | hc := Finset.mem_insert.mp hc
    · exact hadd.process
    · exact h.process c hc
  · rw [hlock]; exact h.lock
  · rw [hlock]; exact hl

theorem remove {j : Nat} (h : ListenersInv i s) (hj : j < maxListeners) (hkey : keyAt s.fd.pool i j = k)
    (hk : k.id ≠ 0) (hp : s'.fd.pool = clearListener s.fd.pool i j) (hlive : s'.live = s.live.erase k)
    (hl : Unheld (s'.fd.locks (lockId s.fd.pool i))) : ListenersInv i s' := by
  have hkeys : keyAt s'.fd.pool i = update (keyAt s.fd.pool i) j ⟨0, 0, 0⟩ := by
    rw [hp, keyAt_clear]
  have hlock : lockId s'.fd.pool i = lockId s.fd.pool i := by
    rw [hp]
    exact lockId_of_frame fun p => clearListener_frame _
  have hslot : slotKey s.fd.pool i j = some k := by
    rw [slotKey, hkey, Key.inSlot_of_ne hk]
  have hmem : k ∈ s.live := by
    obtain ⟨c, hc, hjc⟩ := h.holds.only j hj (by rw [hslot]; exact Option.some_ne_none _)
    rw [hslot] at hjc
    rw [Option.some.inj hjc]
    exact hc
  constructor
  · rw [slotKey_update hkeys, hlive]
    exact h.holds.clear hj hmem hslot
  · have hid : callbackId s.fd.pool i j ≠ 0 := by
      rw [← hkey] at hk
      exact hk
    have hcard : (occupied s'.fd.pool i).card + 1 = (occupied s.fd.pool i).card := by
      rw [occupied, callbackId_update hkeys]
      exact Slots.card_used_clear hj hid
    rw [hp, listenerCount_clear, ← hp, h.count, pred32, if_neg (by omega)]
    omega
  · rw [hlive]
    exact fun c hc => h.nameable c (Finset.mem_of_mem_erase hc)
  · rw [hlive]
    exact fun c hc => h.process c (Finset.mem_of_mem_erase hc)
  · rw [hlock]; exact h.lock
  · rw [hlock]; exact hl

end ListenersInv

section

variable {i : Nat} {s s' : Listening} {op : ListenerOp} {r : Int}

theorem sound_of_ret (h : listenerStep s op = .ret r s') : Sound s op ↔ (r = 0 → op.key.Nameable) := by
  rw [Sound, h, Out.value?, Option.some.injEq]

section

variable (hi : ListenersInv i s)

include hi

theorem listenerStep_cases (hon : op.On i) (h : listenerStep s op = .ret r s') :
    Unheld (s'.fd.locks (lockId s.fd.pool i)) ∧ ((r ≠ 0 ∧ s'.fd.pool = s.fd.pool ∧ s'.live = s.live) ∨
       (r = 0 ∧ ∃ t u j, op = .add t u ∧ Added s.fd s'.fd u i t j ∧ s'.live = insert op.key s.live) ∨
       (r = 0 ∧ ∃ t u, op = .remove t u ∧ ∃ j < maxListeners, keyAt s.fd.pool i j = op.key ∧
          s'.fd.pool = clearListener s.fd.pool i j ∧ s'.live = s.live.erase op.key)) := by
  cases op with
  | add t u =>
    obtain ⟨v, fd, hv, he⟩ := Out.bind_eq_ret h
    cases he
    obtain ⟨hl, ⟨hne, hp⟩ | ⟨h0, j, hadd⟩⟩ := addListener_ret hon.1 hi.unheld hv
    · exact ⟨hl, .inl ⟨hne, hp, if_neg hne⟩⟩
    · exact ⟨hl, .inr (.inl ⟨h0, t, u, j, rfl, hadd, if_pos h0⟩)⟩
  | remove t u =>
    obtain ⟨v, fd, hv, he⟩ := Out.bind_eq_ret h
    cases he
    obtain ⟨hl, ⟨hne, hp⟩ | ⟨h0, j, hj, hkey, hp⟩⟩ := removeListener_ret hon.1 hi.unheld hv
    · exact ⟨hl, .inl ⟨hne, hp, if_neg hne⟩⟩
    · exact ⟨hl, .inr (.inr ⟨h0, t, u, rfl, j, hj, hkey, hp, if_pos h0⟩)⟩

theorem ListenersInv.step (hon : op.On i) (hs : Sound s op) (h : listenerStep s op = .ret r s') :
    ListenersInv i s' := by
  have hname := (sound_of_ret h).mp hs
  obtain ⟨hl, ⟨-, hp, hlive⟩ | ⟨h0, t, u, j, rfl, hadd, hlive⟩ |
    ⟨h0, t, u, rfl, j, hj, hkey, hp, hlive⟩⟩ := listenerStep_cases hi hon h
  · exact hi.of_same hp hlive hl
  · exact hi.add hadd hon.2 (hname h0) hlive hl
  · exact hi.remove hj hkey (hname h0).1 hp hlive hl

theorem ListenersInv.not_right_add {t j : Nat} {u : Buf} (hlt : i < maxSlots) (ht : t < 2 ^ 32)
    (hadd : Added s.fd s'.fd u i t j) (hlive : s'.live = insert (addKey u t) s.live)
    (hk : ¬ (addKey u t).Nameable) : ¬ ListenersRight i s' := by
  intro hright
  have hid : (addKey u t).id < 2 ^ 64 := rd_lt u 8 8
  by_cases h0 : (addKey u t).id = 0
  · have hkeys : keyAt s'.fd.pool i = update (keyAt s.fd.pool i) j (addKey u t) := by
      rw [hadd.pool, keyAt_fill _ _ ht]
    have hcount := hright.count
    have hle := card_occupied_le s.fd.pool i
    rw [card_occupied_same hkeys hadd.free h0, hadd.pool, listenerCount_fill, hi.count] at hcount
    omega
  · have hmem : addKey u t ∈ s'.live := hlive ▸ Finset.mem_insert_self _ _
    have hmask := (carries_iff_nameable hlt hid).mp (hright.removable _ hmem).1
    exact hk ⟨h0, hmask⟩

theorem ListenersInv.not_right_remove {j : Nat} {k : Key} (hkey : keyAt s.fd.pool i j = k)
    (hp : s'.fd.pool = clearListener s.fd.pool i j) (hk : k.id = 0) :
    ¬ ListenersRight i s' := by
  intro hright
  have hfree : callbackId s.fd.pool i j = 0 := by
    rw [← hkey] at hk
    exact hk
  have hkeys : keyAt s'.fd.pool i = update (keyAt s.fd.pool i) j ⟨0, 0, 0⟩ := by
    rw [hp, keyAt_clear]
  have hcount := hright.count
  have hle := card_occupied_le s.fd.pool i
  rw [card_occupied_same hkeys hfree rfl, hp, listenerCount_clear, hi.count, pred32] at hcount
  split at hcount <;> omega

end

theorem removeKey_nameable {u : Buf} {t : Nat} (h : ¬ (removeKey u t).Nameable) : (removeKey u t).id = 0 := by
  by_contra h0
  exact h ⟨h0, (rd_div u 4 4 4).symm⟩

theorem ListenersInv.right_iff (hi : ListenersInv i s) (hlt : i < maxSlots) (hon : op.On i)
    (h : listenerStep s op = .ret r s') : ListenersRight i s' ↔ Sound s op := by
  constructor
  · intro hright
    rw [sound_of_ret h]
    intro h0
    by_contra hk
    obtain ⟨-, ⟨hne, -⟩ | ⟨-, t, u, j, rfl, hadd, hlive⟩ | ⟨-, t, u, rfl, j, -, hkey, hp, -⟩⟩ :=
      listenerStep_cases hi hon h
    · exact hne h0
    · exact hi.not_right_add hlt hon.2 hadd hlive hk hright
    · exact hi.not_right_remove hkey hp (removeKey_nameable hk) hright
  · intro hs
    exact (hi.step hon hs h).right hlt

end

/-- A component without listeners whose lock nobody holds. -/
structure NoListeners (i : Nat) (s : Fd) : Prop where
  free : ∀ j < maxListeners, callbackId s.pool i j = 0
  count : listenerCount s.pool i = 0
  lock : lockId s.pool i ≤ maxId
  unheld : Unheld (s.locks (lockId s.pool i))

theorem NoListeners.inv {s : Fd} (h : NoListeners i s) : ListenersInv i ⟨s, ∅⟩ where
  holds := .empty fun j hj => Key.inSlot_eq_none.mpr (h.free j hj)
  count := by
    have hnone : occupied s.pool i = ∅ := by
      ext j
      simp only [occupied, Slots.mem_used, Finset.notMem_empty, iff_false, not_and, not_not]
      exact h.free j
    rw [hnone, h.count, Finset.card_empty]
  nameable := fun k hk => absurd hk (Finset.notMem_empty k)
  process := fun k hk => absurd hk (Finset.notMem_empty k)
  lock := h.lock
  unheld := h.unheld

theorem callbackId_initComponents {j : Nat} (hlt : j < maxListeners) (b : Buf) (k : Nat) :
    callbackId (initComponents b k) i j = callbackId b i j := by
  have hj : j < 16 := hlt
  induction k with
  | zero => rfl
  | succ k ih =>
    rw [← ih]
    simp only [callbackId, listenerAt, initComponents, initComponent]
    rw [initSentinels_between 16 fun m hm => by omega, rd_wr_of_disjoint (by omega),
      rd_wr_of_disjoint (by omega), rd_wr_of_disjoint (by omega)]

theorem noListeners_init {s s' : Fd} (h : initComponentPool s = .ret () s') (h0 : Unheld (s.locks 0))
    (hi : i < maxSlots) : NoListeners i s' := by
  have hinv := Inv.init h
  have hlock : lockId s'.pool i = 0 := hinv.lock i hi
  have hlt := hi
  simp only [maxSlots] at hlt
  obtain ⟨r, l, hl, he⟩ := Out.bind_eq_ret h
  simp only at he
  split at he
  · cases he
  cases he
  refine ⟨fun j hj => ?_, ?_, by rw [hlock]; exact Nat.zero_le _, ?_⟩
  · simp only
    rw [callbackId_initComponents hj]
    simp only [maxListeners] at hj
    simp only [callbackId, listenerAt]
    rw [rd_wr_of_disjoint (by omega), rd_wr_of_disjoint (by omega)]
    exact rd_wr_zero (Nat.zero_le _) (by simp only [maxSlots]; omega)
  · exact initComponentPool_cleared h (by omega) (by omega) (by omega) fun j hj => by
      simp only [maxSlots] at hj
      simp only [Apart]; omega
  · rw [hlock]
    obtain rfl | ⟨hr, -, -, rfl⟩ := commReqestSpinLock_ret hl
    · exact h0
    · have hne : 0 ≠ r := fun h => absurd (h ▸ hr) (by decide)
      simp only [update_of_ne hne]
      exact h0

/-- In every history of successful calls for listeners that can be named the listeners are right, and the
next call leaves them right exactly when it is such a call too. -/
theorem listeners_right_iff {i : Nat} (hlt : i < maxSlots) {fd : Fd} (h₀ : NoListeners i fd)
    {ops : List ListenerOp} {s : Listening}
    (hr : Run listenerStep (fun s op => op.On i ∧ Sound s op) ⟨fd, ∅⟩ ops s) :
    ListenersRight i s ∧ ∀ op r s', op.On i → listenerStep s op = .ret r s' →
      (ListenersRight i s' ↔ Sound s op) := by
  have hinv : ListenersInv i s :=
    Run.inv (fun _ _ _ _ hi hok hs => hi.step hok.1 hok.2 hs) hr h₀.inv
  exact ⟨hinv.right hlt, fun op r s' hon hs => hinv.right_iff hlt hon hs⟩

def request (ws : List Nat) : Buf := fun i => BitVec.ofNat 8 (ws.getD (i / 4) 0 / 256 ^ (i % 4))

def addNameable : ListenerOp := .add 7 (request [3, 0, 5, 2, 2])

def addTwoRemoveOne : List ListenerOp :=
  [addNameable, .add 8 (request [3, 0, 9, 4, 4]), .remove 7 (request [3, 5, 2])]

theorem listeners_right_iff_nameable : (∃ fd, initComponentPool blank = .ret () fd ∧ NoListeners 3 fd) ∧
    ∃ s, NoListeners 3 blank ∧ Run listenerStep (fun s op => op.On 3 ∧ Sound s op) ⟨blank, ∅⟩ addTwoRemoveOne s ∧
      ListenersRight 3 s ∧ listenerCount s.fd.pool 3 = 1 ∧ keyAt s.fd.pool 3 1 = ⟨0x400000009, 4, 8⟩ := by
  obtain ⟨_, fd, hinit, -⟩ := Out.exists_of_test (o := initComponentPool blank) (P := fun _ _ => True)
    (by decide +kernel)
  have h₀ : NoListeners 3 blank := ⟨by decide, by decide, by decide, by decide⟩
  obtain ⟨s, hr, hend⟩ : ∃ s, Run listenerStep (fun s op => op.On 3 ∧ Sound s op) ⟨blank, ∅⟩ addTwoRemoveOne s ∧
      listenerCount s.fd.pool 3 = 1 ∧ keyAt s.fd.pool 3 1 = ⟨0x400000009, 4, 8⟩ :=
    Run.exists_of_exec (by decide +kernel)
  exact ⟨⟨fd, hinit, noListeners_init hinit (by decide) (by decide)⟩,
    s, h₀, hr, (listeners_right_iff (by decide) h₀ hr).1, hend⟩

def addMask : ListenerOp := .add 7 (request [3, 0, 5, 2, 1])

def addZero : ListenerOp := .add 7 (request [3, 0, 0, 0, 1])

theorem listener_stays_and_zero_counts :
    (∃ s, Run listenerStep (fun _ _ => True) ⟨blank, ∅⟩ [addMask] s ∧ ⟨0x200000005, 1, 7⟩ ∈ s.live ∧
      (∀ u fd, rd u 0 4 = 3 → removeListener s.fd 7 u ≠ .ret 0 fd) ∧ ¬ ListenersRight 3 s) ∧
    ∃ s, Run listenerStep (fun _ _ => True) ⟨blank, ∅⟩ [addZero] s ∧ listenerCount s.fd.pool 3 = 1 ∧
      occupied s.fd.pool 3 = ∅ ∧ ¬ ListenersRight 3 s := by
  constructor
  · have hrun : ∃ s, Run listenerStep (fun _ _ => True) ⟨blank, ∅⟩ [addMask] s ∧
        ⟨0x200000005, 1, 7⟩ ∈ s.live ∧ Unheld (s.fd.locks (lockId s.fd.pool 3)) ∧
        ∀ j < maxListeners, keyAt s.fd.pool 3 j = if j = 0 then ⟨0x200000005, 1, 7⟩ else ⟨0, 0, 0⟩ :=
      Run.exists_of_exec (by decide +kernel)
    obtain ⟨s, hr, hlive, hlock, hkeys⟩ := hrun
    refine ⟨s, hr, hlive, fun u fd hu hret => ?_, fun hright => ?_⟩
    · obtain ⟨-, ⟨hne, -⟩ | ⟨-, j, hj, hkey, -⟩⟩ := removeListener_ret hu hlock hret
      · exact hne rfl
      · rw [hkeys j hj] at hkey
        split at hkey
        · obtain ⟨hid, hmask, -⟩ := Key.mk.inj hkey
          have hhigh := rd_div u 4 4 4
          rw [← hid, ← hmask] at hhigh
          exact absurd hhigh (by decide)
        · obtain ⟨-, -, htgid⟩ := Key.mk.inj hkey
          cases htgid
    · have hcarries := (hright.removable _ hlive).1
      rw [carries_iff_nameable (by decide) (by decide)] at hcarries
      exact absurd hcarries (by decide)
  · have hrun : ∃ s, Run listenerStep (fun _ _ => True) ⟨blank, ∅⟩ [addZero] s ∧
        listenerCount s.fd.pool 3 = 1 ∧ occupied s.fd.pool 3 = ∅ := Run.exists_of_exec (by decide +kernel)
    obtain ⟨s, hr, hcount, hnone⟩ := hrun
    refine ⟨s, hr, hcount, hnone, fun hright => ?_⟩
    have hc := hright.count
    rw [hcount, hnone] at hc
    cases hc

end H713.Component
