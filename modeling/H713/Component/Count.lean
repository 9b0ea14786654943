import H713.Component.Pool

/-!
# Component.Count

What the component pool counts, over every sequence of requests. `Sys` is the pool with the uses of each slot
(creates and attaches minus detaches) and the locks that were requested.
-/

namespace H713.Component

open Function
open Bytes Lock

structure Writes (b b' : Buf) (attach registered : Nat → Nat) (free : Nat) : Prop where
  attach : ∀ j < maxSlots, attachCount b' j = attach j
  registered : ∀ j < maxSlots, registeredFlag b' j = registered j
  lock : ∀ j < maxSlots, lockId b' j = lockId b j
  listeners : ∀ j < maxSlots, listenerCount b' j = listenerCount b j
  free : freeSlotCount b' = free

section

variable {b : Buf} {i slot : Nat}

theorem pred32_add (n k : Nat) : (pred32 n + (k + 1)) % 2 ^ 32 = (n + k) % 2 ^ 32 := by
  simp only [pred32]
  split <;> omega

theorem create_writes (hs : slot < maxSlots) (b name : Buf) (f : Nat) :
    Writes b (takeSlot (fillSlot b slot name f)) (update (attachCount b) slot 1)
      (update (registeredFlag b) slot 1) (pred32 (freeSlotCount b)) := by
  simp only [maxSlots] at hs
  refine ⟨fun j hj => ?_, fun j hj => ?_, fun j hj => ?_, fun j hj => ?_, ?_⟩
  all_goals try simp only [maxSlots] at hj
  · by_cases h : j = slot
    · subst h
      simp (disch := omega) [takeSlot, fillSlot, attachCount, rd_wr_of_disjoint, rd_wr_same]
    · simp (disch := omega) [takeSlot, fillSlot, attachCount, rd_wr_of_disjoint,
        rd_strncpy_of_disjoint]
  · by_cases h : j = slot
    · subst h
      simp (disch := omega) [takeSlot, fillSlot, registeredFlag, rd_wr_of_disjoint, rd_wr_same]
    · simp (disch := omega) [takeSlot, fillSlot, registeredFlag, rd_wr_of_disjoint,
        rd_strncpy_of_disjoint]
  · simp (disch := omega) only [takeSlot, fillSlot, lockId, rd_wr_of_disjoint,
      rd_strncpy_of_disjoint]
  · simp (disch := omega) only [takeSlot, fillSlot, listenerCount, rd_wr_of_disjoint,
      rd_strncpy_of_disjoint]
  · have h : freeSlotCount (fillSlot b slot name f) = freeSlotCount b := by
      simp (disch := omega) only [fillSlot, freeSlotCount, rd_wr_of_disjoint, rd_strncpy_of_disjoint]
    rw [takeSlot, h, freeSlotCount, rd_wr_same]
    exact Nat.mod_eq_of_lt (pred32_lt (rd_lt b _ 4))

theorem attach_writes (hi : i < maxSlots) (b : Buf) (v : Nat) :
    Writes b (wr b (816 * i + 8) 1 v) (update (attachCount b) i (v % 256))
      (registeredFlag b) (freeSlotCount b) := by
  simp only [maxSlots] at hi
  refine ⟨fun j hj => ?_, fun j hj => ?_, fun j hj => ?_, fun j hj => ?_, ?_⟩
  all_goals try simp only [maxSlots] at hj
  · by_cases h : j = i
    · subst h
      simp [attachCount, rd_wr_same]
    · simp (disch := omega) [attachCount, rd_wr_of_disjoint]
  · simp (disch := omega) only [registeredFlag, rd_wr_of_disjoint]
  · simp (disch := omega) only [lockId, rd_wr_of_disjoint]
  · simp (disch := omega) only [listenerCount, rd_wr_of_disjoint]
  · simp (disch := omega) only [freeSlotCount, rd_wr_of_disjoint]

theorem clear_writes (hi : i < maxSlots) (b : Buf) :
    Writes b (clearSlot b i) (attachCount b) (update (registeredFlag b) i 0) ((freeSlotCount b + 1) % 256 ^ 4) := by
  simp only [maxSlots] at hi
  refine ⟨fun j hj => ?_, fun j hj => ?_, fun j hj => ?_, fun j hj => ?_, ?_⟩
  all_goals try simp only [maxSlots] at hj
  · simp (disch := omega) only [clearSlot, attachCount, rd_wr_of_disjoint]
  · by_cases h : j = i
    · subst h
      simp (disch := omega) [clearSlot, registeredFlag, rd_wr_of_disjoint, rd_wr_same]
    · simp (disch := omega) [clearSlot, registeredFlag, rd_wr_of_disjoint]
  · simp (disch := omega) only [clearSlot, lockId, rd_wr_of_disjoint]
  · simp (disch := omega) only [clearSlot, listenerCount, rd_wr_of_disjoint]
  · simp (disch := omega) only [clearSlot, freeSlotCount, rd_wr_of_disjoint, rd_wr_same]

theorem release_writes (s : Fd) : Writes s.pool (releaseBuffer s).pool (attachCount s.pool) (registeredFlag s.pool)
      (freeSlotCount s.pool) := by
  simp only [releaseBuffer]
  split
  · refine ⟨fun j hj => ?_, fun j hj => ?_, fun j hj => ?_, fun j hj => ?_, ?_⟩
    all_goals try simp only [maxSlots] at hj
    · simp (disch := omega) only [attachCount, rd_wr_of_disjoint]
    · simp (disch := omega) only [registeredFlag, rd_wr_of_disjoint]
    · simp (disch := omega) only [lockId, rd_wr_of_disjoint]
    · simp (disch := omega) only [listenerCount, rd_wr_of_disjoint]
    · simp (disch := omega) only [freeSlotCount, rd_wr_of_disjoint]
  · exact ⟨fun _ _ => rfl, fun _ _ => rfl, fun _ _ => rfl, fun _ _ => rfl, rfl⟩

end

def slotsWith (registered : Nat → Nat) : Finset Nat :=
  (Finset.range maxSlots).filter fun i => registered i ≠ 0

def registeredSlots (b : Buf) : Finset Nat := slotsWith (registeredFlag b)

structure Inv (b : Buf) : Prop where
  lock : ∀ i < maxSlots, lockId b i = 0
  listeners : ∀ i < maxSlots, listenerCount b i = 0
  inUse : ∀ i < maxSlots, attachCount b i ≠ 0 → registeredFlag b i ≠ 0
  free : (freeSlotCount b + (registeredSlots b).card) % 2 ^ 32 = 0

variable {f : Nat → Nat} {i n off : Nat} {b : Buf}

theorem slotsWith_congr {g : Nat → Nat} (h : ∀ i < maxSlots, f i = g i) : slotsWith f = slotsWith g := by
  refine Finset.filter_congr fun i hi => ?_
  rw [h i (Finset.mem_range.mp hi)]

theorem slotsWith_set {v : Nat} (hi : i < maxSlots) (hv : v ≠ 0) (h0 : f i = 0) :
    (slotsWith (update f i v)).card = (slotsWith f).card + 1 := by
  have he : slotsWith (update f i v) = insert i (slotsWith f) := by
    ext j
    by_cases h : j = i
    · subst h; simp [slotsWith, hi, hv]
    · simp [slotsWith, h]
  rw [he, Finset.card_insert_of_notMem (by simp [slotsWith, h0])]

theorem slotsWith_clear (hi : i < maxSlots) (h0 : f i ≠ 0) :
    (slotsWith (update f i 0)).card + 1 = (slotsWith f).card := by
  have he : slotsWith (update f i 0) = (slotsWith f).erase i := by
    ext j
    by_cases h : j = i
    · subst h; simp [slotsWith]
    · simp [slotsWith, h]
  rw [he, Finset.card_erase_add_one (by simp [slotsWith, hi, h0])]

namespace Inv

variable {b b' : Buf} {attach registered : Nat → Nat} {free i slot : Nat}

theorem writes (hi : Inv b) (h : Writes b b' attach registered free)
    (huse : ∀ j < maxSlots, attach j ≠ 0 → registered j ≠ 0)
    (hfree : (free + (slotsWith registered).card) % 2 ^ 32 = 0) : Inv b' := by
  refine ⟨fun j hj => (h.lock j hj).trans (hi.lock j hj),
    fun j hj => (h.listeners j hj).trans (hi.listeners j hj), fun j hj => ?_, ?_⟩
  · rw [h.attach j hj, h.registered j hj]
    exact huse j hj
  · rw [h.free, registeredSlots, slotsWith_congr h.registered]
    exact hfree

section

variable (hi : Inv b) (hs : slot < maxSlots)

include hi hs

theorem create (hf : registeredFlag b slot = 0) (name : Buf) (f : Nat) :
    Inv (takeSlot (fillSlot b slot name f)) := by
  refine hi.writes (create_writes hs b name f) (fun j hj => ?_) ?_
  · by_cases h : j = slot
    · subst h; simp
    · simpa [h] using hi.inUse j hj
  · rw [slotsWith_set hs (by decide) hf, pred32_add]
    exact hi.free

theorem attached (hr : registeredFlag b slot ≠ 0) (v : Nat) : Inv (wr b (816 * slot + 8) 1 v) := by
  refine hi.writes (attach_writes hs b v) (fun j hj => ?_) hi.free
  by_cases h : j = slot
  · subst h; exact fun _ => hr
  · simpa [h] using hi.inUse j hj

theorem clear (hr : registeredFlag b slot ≠ 0) (ha : attachCount b slot = 0) : Inv (clearSlot b slot) := by
  refine hi.writes (clear_writes hs b) (fun j hj => ?_) ?_
  · by_cases h : j = slot
    · subst h; simp [ha]
    · simpa [h] using hi.inUse j hj
  · have h1 := hi.free
    have h2 := slotsWith_clear hs hr
    simp only [registeredSlots] at h1
    omega

end

theorem releaseBuffer {s : Fd} (hi : Inv s.pool) : Inv (releaseBuffer s).pool :=
  hi.writes (release_writes s) hi.inUse hi.free

end Inv

theorem initSentinels_between {comp : Nat} :
    ∀ k, (∀ m < k, off + n ≤ comp + 48 * m + 72 ∨ comp + 48 * m + 76 ≤ off) →
      rd (initSentinels b comp k) off n = rd b off n := by
  intro k
  induction k with
  | zero => intro _; rfl
  | succ k ih =>
    intro h
    have hk := h k (Nat.lt_succ_self k)
    simp only [initSentinels]
    rw [rd_wr_of_disjoint (by omega), ih fun m hm => h m (Nat.lt_succ_of_lt hm)]

theorem initSentinels_frame {comp : Nat} (k : Nat) (h : off + n ≤ comp + 72 ∨ comp + 48 * k + 28 ≤ off) :
    rd (initSentinels b comp k) off n = rd b off n :=
  initSentinels_between k fun m hm => by omega

def Apart (i off n : Nat) : Prop :=
  (off + n ≤ 816 * i + 10 ∨ 816 * i + 11 ≤ off) ∧ (off + n ≤ 816 * i + 24 ∨ 816 * i + 30 ≤ off) ∧
  (off + n ≤ 816 * i + 88 ∨ 816 * i + 812 ≤ off)

theorem initComponent_frame (h : Apart i off n) : rd (initComponent b i) off n = rd b off n := by
  simp only [Apart] at h
  simp only [initComponent]
  rw [initSentinels_frame 16 (by omega), rd_wr_of_disjoint (by omega), rd_wr_of_disjoint (by omega),
    rd_wr_of_disjoint (by omega)]

theorem initComponents_frame : ∀ k, (∀ i < k, Apart i off n) → rd (initComponents b k) off n = rd b off n := by
  intro k
  induction k with
  | zero => intro _; rfl
  | succ k ih =>
    intro h
    simp only [initComponents]
    rw [initComponent_frame (h k (by omega)), ih fun i hi => h i (by omega)]

theorem initComponentPool_cleared {s s' : Fd} (h : initComponentPool s = .ret () s') (h0 : 4 ≤ off)
    (h1 : off + n ≤ 32656) (h2 : off + n ≤ 8160 ∨ 8164 ≤ off)
    (ha : ∀ i < maxSlots, Apart i off n) : rd s'.pool off n = 0 := by
  obtain ⟨r, l, -, he⟩ := Out.bind_eq_ret h
  simp only at he
  split at he
  · cases he
  cases he
  rw [initComponents_frame _ ha, rd_wr_of_disjoint (by omega), rd_wr_of_disjoint (by omega)]
  exact rd_wr_zero (Nat.zero_le _) (by simp only [maxSlots]; omega)

theorem Inv.init {s s' : Fd} (h : initComponentPool s = .ret () s') : Inv s'.pool := by
  have hzero : ∀ i < maxSlots, lockId s'.pool i = 0 ∧ listenerCount s'.pool i = 0 ∧ registeredFlag s'.pool i = 0 ∧
      attachCount s'.pool i = 0 := by
    intro i hi
    simp only [maxSlots] at hi
    refine ⟨?_, ?_, ?_, ?_⟩ <;>
      exact initComponentPool_cleared h (by omega) (by omega) (by omega) fun j _ => by simp only [Apart]; omega
  have hreg : ∀ i < maxSlots, registeredFlag s'.pool i = 0 := fun i hi => (hzero i hi).2.2.1
  refine ⟨fun i hi => ?_, fun i hi => ?_, fun i hi ha => ?_, ?_⟩
  · exact (hzero i hi).1
  · exact (hzero i hi).2.1
  · exact absurd (hzero i hi).2.2.2 ha
  · have hf : freeSlotCount s'.pool = 0 :=
      initComponentPool_cleared h (by omega) (by omega) (by omega) fun j hj => by
        simp only [Apart]; simp only [maxSlots] at hj; omega
    have hc : registeredSlots s'.pool = ∅ := by
      rw [registeredSlots, slotsWith_congr hreg]
      simp [slotsWith]
    rw [hf, hc]
    rfl

section

variable {s s' : Fd} {t r : Nat} {name : Buf}

theorem findName_mem {b : Buf} {i : Nat} (h : findName b name = some i) :
    i < maxSlots ∧ registeredFlag b i ≠ 0 := by
  have h1 := List.find?_some h
  have h2 := List.mem_of_find?_eq_some h
  simp only [decide_eq_true_eq] at h1
  exact ⟨List.mem_range.mp h2, h1.1⟩

theorem findFree_mem {b : Buf} {i : Nat} (h : findFree b = some i) :
    i < maxSlots ∧ attachCount b i = 0 ∧ registeredFlag b i = 0 := by
  have h1 := List.find?_some h
  have h2 := List.mem_of_find?_eq_some h
  simp only [decide_eq_true_eq] at h1
  exact ⟨List.mem_range.mp h2, h1⟩

theorem createComponent_ret {f : Nat} (hl : ∀ i < maxSlots, lockId s.pool i = 0)
    (h : createComponent s t name f = .ret r s') : (r = 2 ^ 32 - 1 ∧ s'.pool = s.pool) ∨
    (r < maxSlots ∧ attachCount s.pool r = 0 ∧ registeredFlag s.pool r = 0 ∧
      s'.pool = takeSlot (fillSlot s.pool r name f)) := by
  obtain ⟨_, l, -, h⟩ := Out.bind_eq_ret h
  have hfail : (commSpinUnLock l (poolLock s.pool)).bind
      (fun _ l => Out.ret (2 ^ 32 - 1) { s with locks := l }) = .ret r s' →
      r = 2 ^ 32 - 1 ∧ s'.pool = s.pool := by
    intro hu
    obtain ⟨_, l', -, he⟩ := Out.bind_eq_ret hu
    cases he
    exact ⟨rfl, rfl⟩
  split at h
  · exact .inl (hfail h)
  split at h
  · exact .inl (hfail h)
  rename_i slot hslot
  obtain ⟨hs, ha, hr⟩ := findFree_mem hslot
  -- the lock id is 0 and not 255, so none is requested
  have hlock : lockId (fillSlot s.pool slot name f) slot ≠ 255 := by
    have he : lockId (fillSlot s.pool slot name f) slot = lockId s.pool slot := by
      simp (disch := omega) only [fillSlot, lockId, rd_wr_of_disjoint, rd_strncpy_of_disjoint]
    rw [he, hl slot hs]
    decide
  obtain ⟨b, l1, hb, h⟩ := Out.bind_eq_ret h
  rw [assignLock, if_neg hlock] at hb
  cases hb
  obtain ⟨_, l2, -, he⟩ := Out.bind_eq_ret h
  cases he
  exact .inr ⟨hs, ha, hr, rfl⟩

theorem attachComponent_ret {timeoutMs : Nat} (h : attachComponent s t name timeoutMs = .ret r s') :
    (r = 2 ^ 32 - 1 ∧ s'.pool = s.pool) ∨
    (r < maxSlots ∧ registeredFlag s.pool r ≠ 0 ∧ s'.pool = bumpAttach s.pool r) := by
  obtain ⟨_, l, -, h⟩ := Out.bind_eq_ret h
  split at h
  · rename_i i hi
    obtain ⟨hs, hr⟩ := findName_mem hi
    obtain ⟨_, l1, -, h⟩ := Out.bind_eq_ret h
    obtain ⟨_, l2, -, h⟩ := Out.bind_eq_ret h
    obtain ⟨_, l3, -, h⟩ := Out.bind_eq_ret h
    cases h
    exact .inr ⟨hs, hr, rfl⟩
  · obtain ⟨_, l1, -, h⟩ := Out.bind_eq_ret h
    split at h
    · cases h
    · cases h
      exact .inl ⟨rfl, rfl⟩

theorem detachComponent_ret {i : Nat} (h : detachComponent s t i = .ret r s') :
    i < maxSlots ∧ attachCount s.pool i ≠ 0 ∧ s'.pool = if attachCount (dropAttach s.pool i) i = 0 ∧
        listenerCount (dropAttach s.pool i) i = 0 then
      (releaseBuffer { s with pool := clearSlot (dropAttach s.pool i) i }).pool
    else dropAttach s.pool i := by
  simp only [detachComponent] at h
  split at h
  · cases h
  split at h
  · cases h
  split at h
  · cases h
  rename_i hi ha _
  obtain ⟨_, l1, -, h⟩ := Out.bind_eq_ret h
  obtain ⟨_, l2, -, h⟩ := Out.bind_eq_ret h
  obtain ⟨_, l3, -, h⟩ := Out.bind_eq_ret h
  obtain ⟨_, l4, -, h⟩ := Out.bind_eq_ret h
  cases h
  refine ⟨Nat.not_le.mp hi, ha, ?_⟩
  split <;> rfl

end

inductive FdOp where
  | create (tgid : Nat) (name : Buf) (compFlags : Nat)
  | attach (tgid : Nat) (name : Buf) (timeoutMs : Nat)
  | detach (tgid compIdx : Nat)

structure Sys where
  fd : Fd
  uses : Nat → Nat
  requested : List (Nat × Nat)

def Sys.bump (s : Sys) (r : Nat) : Nat → Nat :=
  if r < maxSlots then update s.uses r (s.uses r + 1) else s.uses

def fdStep (s : Sys) : FdOp → Out Sys Nat
  | .create t name f =>
    (createComponent s.fd t name f).bind fun r fd =>
      .ret r ⟨fd, s.bump r,
        if r < maxSlots ∧ lockId s.fd.pool r = 255 then (r, lockId fd.pool r) :: s.requested
        else s.requested⟩
  | .attach t name timeoutMs =>
    (attachComponent s.fd t name timeoutMs).bind fun r fd => .ret r ⟨fd, s.bump r, s.requested⟩
  | .detach t i =>
    (detachComponent s.fd t i).bind fun r fd =>
      .ret r ⟨fd, update s.uses i (s.uses i - 1), s.requested⟩

/-- Clients detach only what they created or attached. -/
def OwnDetach (s : Sys) : FdOp → Prop
  | .detach _ i => 0 < s.uses i
  | .create _ _ _ | .attach _ _ _ => True

instance (s : Sys) (op : FdOp) : Decidable (OwnDetach s op) := by
  cases op <;> unfold OwnDetach <;> infer_instance

/-- The counts and locks of the pool as they should be. -/
structure Right (s : Sys) : Prop where
  attach : ∀ i < maxSlots, attachCount s.fd.pool i = s.uses i
  registered : ∀ i < maxSlots, registeredFlag s.fd.pool i ≠ 0 ↔ 0 < s.uses i
  free : freeSlotCount s.fd.pool = maxSlots - (registeredSlots s.fd.pool).card
  lock : ∀ i ∈ registeredSlots s.fd.pool, lockId s.fd.pool i ≤ maxId ∧
    (i, lockId s.fd.pool i) ∈ s.requested ∧
    ∀ j ∈ registeredSlots s.fd.pool, lockId s.fd.pool j = lockId s.fd.pool i → j = i

theorem step_inv {s s' : Sys} {op : FdOp} {r : Nat} (hi : Inv s.fd.pool ∧ s.requested = [])
    (h : fdStep s op = .ret r s') : Inv s'.fd.pool ∧ s'.requested = [] := by
  obtain ⟨hi, hq⟩ := hi
  cases op with
  | create t name f =>
    obtain ⟨v, fd, hc, he⟩ := Out.bind_eq_ret h
    obtain ⟨rfl, rfl⟩ := Out.ret.inj he
    have hn : ¬ (v < maxSlots ∧ lockId s.fd.pool v = 255) := by
      rintro ⟨hv, hl⟩
      rw [hi.lock v hv] at hl
      cases hl
    rw [if_neg hn]
    refine ⟨?_, hq⟩
    obtain ⟨-, hp⟩ | ⟨hs, -, hr, hp⟩ := createComponent_ret hi.lock hc
    · exact hp ▸ hi
    · exact hp ▸ hi.create hs hr name f
  | attach t name timeoutMs =>
    obtain ⟨v, fd, hc, he⟩ := Out.bind_eq_ret h
    obtain ⟨rfl, rfl⟩ := Out.ret.inj he
    refine ⟨?_, hq⟩
    obtain ⟨-, hp⟩ | ⟨hs, hr, hp⟩ := attachComponent_ret hc
    · exact hp ▸ hi
    · exact hp ▸ hi.attached hs hr _
  | detach t i =>
    obtain ⟨v, fd, hc, he⟩ := Out.bind_eq_ret h
    obtain ⟨rfl, rfl⟩ := Out.ret.inj he
    refine ⟨?_, hq⟩
    obtain ⟨hs, ha, hp⟩ := detachComponent_ret hc
    have hr := hi.inUse i hs ha
    have hd : Inv (dropAttach s.fd.pool i) := hi.attached hs hr _
    have hr' : registeredFlag (dropAttach s.fd.pool i) i ≠ 0 := by
      rw [dropAttach, (attach_writes hs s.fd.pool _).registered i hs]
      exact hr
    rw [hp]
    split
    · rename_i hlast
      exact (hd.clear hs hr' hlast.1).releaseBuffer
    · exact hd

theorem run_inv {s₀ fd : Fd} (h₀ : initComponentPool s₀ = .ret () fd) {ops : List FdOp} {s : Sys}
    (hr : Run fdStep OwnDetach ⟨fd, fun _ => 0, []⟩ ops s) : Inv s.fd.pool ∧ s.requested = [] :=
  hr.inv (I := fun s => Inv s.fd.pool ∧ s.requested = [])
    (fun _ _ _ _ hi _ hs => step_inv hi hs) ⟨Inv.init h₀, rfl⟩

/-- The count of free slots is wrong and no component has a lock of its own, after any requests. -/
theorem component_pool_never_right {s₀ fd : Fd} (h₀ : initComponentPool s₀ = .ret () fd)
    {ops : List FdOp} {s : Sys} (hr : Run fdStep OwnDetach ⟨fd, fun _ => 0, []⟩ ops s) : ¬ Right s ∧
    (freeSlotCount s.fd.pool + (registeredSlots s.fd.pool).card) % 2 ^ 32 = 0 ∧
    freeSlotCount s.fd.pool ≠ maxSlots - (registeredSlots s.fd.pool).card ∧
    ∀ i < maxSlots, lockId s.fd.pool i = 0 ∧ (i, lockId s.fd.pool i) ∉ s.requested := by
  obtain ⟨hi, hq⟩ := run_inv h₀ hr
  have hcard : (registeredSlots s.fd.pool).card ≤ maxSlots := by
    have h := Finset.card_filter_le (Finset.range maxSlots) fun i => registeredFlag s.fd.pool i ≠ 0
    rwa [Finset.card_range] at h
  have hfree : freeSlotCount s.fd.pool ≠ maxSlots - (registeredSlots s.fd.pool).card := by
    have h := hi.free
    simp only [maxSlots] at hcard ⊢
    omega
  refine ⟨fun hright => hfree hright.free, hi.free, hfree, fun i hlt => ⟨hi.lock i hlt, ?_⟩⟩
  rw [hq]
  exact List.not_mem_nil

def blank : Fd := ⟨fun _ => 0, freshLocks, []⟩

def twoNames : List FdOp := [.create 7 (fun _ => 65) 0, .create 8 (fun _ => 66) 0]

theorem twoNames_run : ∃ fd s, initComponentPool blank = .ret () fd ∧
      Run fdStep OwnDetach ⟨fd, fun _ => 0, []⟩ twoNames s ∧
      registeredFlag s.fd.pool 0 = 1 ∧ registeredFlag s.fd.pool 1 = 1 := by
  obtain ⟨_, fd, hi, hx⟩ := Out.exists_of_test (o := initComponentPool blank) (P := fun _ fd =>
    ((Run.exec fdStep OwnDetach ⟨fd, fun _ => 0, []⟩ twoNames).any fun s => decide
      (registeredFlag s.fd.pool 0 = 1 ∧ registeredFlag s.fd.pool 1 = 1)) = true) (by decide +kernel)
  obtain ⟨s, hr, h0, h1⟩ := Run.exists_of_exec hx
  exact ⟨fd, s, hi, hr, h0, h1⟩

theorem component_pool_never_right_twoNames : ∃ fd s, initComponentPool blank = .ret () fd ∧
      Run fdStep OwnDetach ⟨fd, fun _ => 0, []⟩ twoNames s ∧ ¬ Right s := by
  obtain ⟨fd, s, hi, hr, -⟩ := twoNames_run
  exact ⟨fd, s, hi, hr, (component_pool_never_right hi hr).1⟩

theorem two_components_one_lock : ∃ fd s, initComponentPool blank = .ret () fd ∧
      Run fdStep OwnDetach ⟨fd, fun _ => 0, []⟩ twoNames s ∧
      (0 ∈ registeredSlots s.fd.pool ∧ 1 ∈ registeredSlots s.fd.pool ∧
        lockId s.fd.pool 0 = lockId s.fd.pool 1) ∧ ¬ Right s := by
  obtain ⟨fd, s, hi, hr, h0, h1⟩ := twoNames_run
  have hinv := run_inv hi hr
  have hm0 : 0 ∈ registeredSlots s.fd.pool := by simp [registeredSlots, slotsWith, maxSlots, h0]
  have hm1 : 1 ∈ registeredSlots s.fd.pool := by simp [registeredSlots, slotsWith, maxSlots, h1]
  have hl : lockId s.fd.pool 0 = lockId s.fd.pool 1 := by
    rw [hinv.1.lock 0 (by decide), hinv.1.lock 1 (by decide)]
  exact ⟨fd, s, hi, hr, ⟨hm0, hm1, hl⟩,
    fun hright => absurd ((hright.lock 0 hm0).2.2 1 hm1 hl.symm) (by decide)⟩

end H713.Component
