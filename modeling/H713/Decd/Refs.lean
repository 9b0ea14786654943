import H713.Decd.Steps

/-!
# Decd.Refs

Who holds a reference to a frame. `Dev.held` counts the places the manager keeps pointers in that will be put; `Core
l loc` says that every frame is counted at least as often as it is held, where `loc` is what the running code has in
hand. With `l = false` nothing has been lost: the counts are exact.
-/

namespace H713.Decd

open RefCount

/-- The code may follow the pointer, after its test for `NULL`. -/
def Ptr.Usable (heap : Heap VideoFrame) : Ptr → Prop
  | null => True
  | one => False
  | frame k => heap.Live k

instance (heap : Heap VideoFrame) (p : Ptr) : Decidable (p.Usable heap) := by
  cases p <;> unfold Ptr.Usable <;> infer_instance

@[simp] theorem Ptr.usable_null (heap : Heap VideoFrame) : Ptr.null.Usable heap := trivial

@[simp] theorem Ptr.not_usable_one (heap : Heap VideoFrame) : ¬ Ptr.one.Usable heap := id

@[simp] theorem Ptr.usable_frame (heap : Heap VideoFrame) (k : Nat) : (Ptr.frame k).Usable heap ↔ heap.Live k := .rfl

def Ptr.refs (p : Ptr) (k : Nat) : Nat := if p = .frame k then 1 else 0

@[simp] theorem Ptr.refs_null (k : Nat) : Ptr.null.refs k = 0 := rfl

theorem Ptr.refs_frame (j k : Nat) : (Ptr.frame j).refs k = if k = j then 1 else 0 := by
  simp only [refs, Ptr.frame.injEq, eq_comm]

def Worker.ptr : Worker → Ptr
  | .put vf | .last vf => vf
  | _ => .null

def Worker.refs (w : Worker) (k : Nat) : Nat := w.ptr.refs k

def DecFrameQueue.extra (q : DecFrameQueue) (k : Nat) : Nat := if q.interlace = 0 then 0 else (q.slots 0).refs k

def Dev.held (d : Dev) (k : Nat) : Nat :=
  d.m.readyList.count k + (d.q.slots 0).refs k + d.q.extra k +
    d.q.lastReleased.refs k + d.q.releaseFifo.items.count (.frame k) + d.lastFrame.refs k +
    d.m.interlacePair0.refs k + d.m.interlacePair1.refs k + d.m.recycleFifo.items.count (.frame k) +
    d.q.shutdownHold.refs k

def Dev.ptrs (d : Dev) : List Ptr :=
  [d.q.slots 0, d.q.lastReleased, d.lastFrame, d.m.interlacePair0, d.m.interlacePair1, d.q.shutdownHold] ++
    d.q.releaseFifo.items ++ d.m.recycleFifo.items

theorem mem_ptrs {d : Dev} {p : Ptr} : p ∈ d.ptrs ↔
    (p = d.q.slots 0 ∨ p = d.q.lastReleased ∨ p = d.lastFrame ∨ p = d.m.interlacePair0 ∨
      p = d.m.interlacePair1 ∨ p = d.q.shutdownHold) ∨ p ∈ d.q.releaseFifo.items ∨ p ∈ d.m.recycleFifo.items := by
  simp only [Dev.ptrs, List.mem_append, List.mem_cons, List.not_mem_nil, or_false, or_assoc]

structure Core (l : Bool) (loc : Nat → Nat) (d : Dev) : Prop where
  wf : d.heap.WF
  bal : ∀ k, d.held k + loc k ≤ d.heap.count k ∧ (l = false → d.held k + loc k = d.heap.count k)
  real : ∀ p ∈ d.ptrs, p ≠ .one
  same : ∀ i, d.q.slots i = d.q.slots 0
  pair : d.m.interlacePair1 ≠ .null → d.m.interlacePair0 ≠ .null

def addRef (loc : Nat → Nat) (p : Ptr) : Nat → Nat := fun k => loc k + p.refs k

theorem count_push (f : Kfifo) (p : Ptr) (k : Nat) :
    (f.push p).items.count (.frame k) ≤ f.items.count (.frame k) + p.refs k ∧
      (f.items.length < f.size → (f.push p).items.count (.frame k) = f.items.count (.frame k) + p.refs k) := by
  by_cases hroom : f.items.length < f.size
  · have hone : [p].count (Ptr.frame k) = p.refs k := by
      simp only [Ptr.refs, List.count_singleton, beq_iff_eq]
    simp [Kfifo.push, hroom, List.count_append, hone]
  · simp [Kfifo.push, hroom]

theorem mem_push {f : Kfifo} {p q : Ptr} (h : q ∈ (f.push p).items) : q ∈ f.items ∨ q = p := by
  simp only [Kfifo.push] at h
  split at h
  · simpa using h
  · exact .inl h

section

variable (q : DecFrameQueue) (p : Ptr)

include q p

@[simp] theorem deferRelease_slots : (deferRelease q p).slots = q.slots := rfl

@[simp] theorem deferRelease_interlace : (deferRelease q p).interlace = q.interlace := rfl

@[simp] theorem deferRelease_shutdownHold : (deferRelease q p).shutdownHold = q.shutdownHold := rfl

@[simp] theorem deferRelease_lastReleased : (deferRelease q p).lastReleased = p := rfl

end

theorem mem_deferRelease {q : DecFrameQueue} {p r : Ptr} (h : r ∈ (deferRelease q p).releaseFifo.items) :
    r ∈ q.releaseFifo.items ∨ r = q.lastReleased := by
  simp only [deferRelease] at h
  split at h
  · exact mem_push h
  · exact .inl h

/-- There is room for what `dec_frame_defer_release` pushes. -/
def Room (q : DecFrameQueue) : Prop :=
  q.lastReleased = .null ∨ q.releaseFifo.items.length < q.releaseFifo.size
deriving Decidable

theorem count_deferRelease (q : DecFrameQueue) (p : Ptr) (k : Nat) :
    (deferRelease q p).lastReleased.refs k + (deferRelease q p).releaseFifo.items.count (.frame k) ≤
        q.lastReleased.refs k + q.releaseFifo.items.count (.frame k) + p.refs k ∧
      (Room q → (deferRelease q p).lastReleased.refs k + (deferRelease q p).releaseFifo.items.count (.frame k) =
        q.lastReleased.refs k + q.releaseFifo.items.count (.frame k) + p.refs k) := by
  have hpush := count_push q.releaseFifo q.lastReleased k
  by_cases hlast : q.lastReleased = .null
  · simp only [deferRelease, hlast, ne_eq, not_true_eq_false, if_false, Ptr.refs_null]
    omega
  · simp only [deferRelease, ne_eq, hlast, not_false_eq_true, if_true, Room, false_or]
    exact ⟨by omega, fun hroom => by have := hpush.2 hroom; omega⟩

def showQ (q : DecFrameQueue) (k : Nat) : DecFrameQueue :=
  { deferRelease q (q.slots 3) with slots := fun _ => .frame k, softRepeatCount := 0, dirty := 1 }

def shown (d : Dev) (k : Nat) : Dev := { d with heap := d.heap.incr k, q := showQ d.q k }

namespace Core

variable {l : Bool} {loc loc' : Nat → Nat} {d : Dev} {k : Nat}

theorem live (h : Core l loc d) {k : Nat} (hk : 0 < d.held k + loc k) : d.heap.Live k :=
  h.wf.count_pos.mp (hk.trans_le (h.bal k).1)

theorem live_ready (h : Core l loc d) {k : Nat} (hk : k ∈ d.m.readyList) : d.heap.Live k := by
  have := List.count_pos_iff.mpr hk
  exact h.live (by simp only [Dev.held]; omega)

theorem held_pos (hk : .frame k ∈ d.ptrs) : 0 < d.held k := by
  have hone : (Ptr.frame k).refs k = 1 := by simp [Ptr.refs]
  rcases mem_ptrs.mp hk with (hk | hk | hk | hk | hk | hk) | hk | hk
  all_goals first
    | have hpos := List.count_pos_iff.mpr hk
      simp only [Dev.held]
      omega
    | simp only [Dev.held, ← hk, hone]
      omega

theorem live_of_mem (h : Core l loc d) (hk : .frame k ∈ d.ptrs) : d.heap.Live k := by
  have := held_pos hk
  exact h.live (by omega)

theorem held_refs (h : Core l loc d) (hk : .frame k ∈ d.refs) : 0 < d.held k := by
  have hcases : k ∈ d.m.readyList ∨ .frame k ∈ d.ptrs := by
    simp only [Dev.refs, h.same 1, h.same 2, h.same 3, List.mem_append, List.mem_map, List.mem_cons,
      List.not_mem_nil, or_false, Ptr.frame.injEq, exists_eq_right] at hk
    rw [mem_ptrs]
    tauto
  rcases hcases with hk | hk
  · have := List.count_pos_iff.mpr hk
    simp only [Dev.held]
    omega
  · exact held_pos hk

theorem live_loc (h : Core l (addRef loc (.frame k)) d) : d.heap.Live k := by
  refine h.live ?_
  simp only [addRef, Ptr.refs, if_true]
  omega

theorem ptr_cases (h : Core l loc d) {p : Ptr} (hp : p ∈ d.ptrs) :
    p = .null ∨ ∃ k, p = .frame k ∧ d.heap.Live k := by
  cases p with
  | null => exact .inl rfl
  | one => exact absurd rfl (h.real _ hp)
  | frame k => exact .inr ⟨k, rfl, h.live_of_mem hp⟩

theorem usable (h : Core l loc d) (i : Fin 4) : (d.q.slots i).Usable d.heap := by
  rw [h.same i]
  rcases h.ptr_cases (p := d.q.slots 0) (by simp [mem_ptrs]) with hnull | ⟨k, hk, hl⟩
  · rw [hnull]
    trivial
  · rw [hk]
    exact hl

theorem weaken (h : Core l loc d) : Core true loc d :=
  ⟨h.wf, fun k => ⟨(h.bal k).1, fun hf => by cases hf⟩, h.real, h.same, h.pair⟩

theorem of_held (h : Core l loc d) {d' : Dev} (hheap : d'.heap = d.heap)
    (hheld : ∀ k, d'.held k + loc' k ≤ d.held k + loc k ∧
      (l = false → d'.held k + loc' k = d.held k + loc k)) (hreal : ∀ p ∈ d'.ptrs, p ≠ .one)
    (hsame : ∀ i, d'.q.slots i = d'.q.slots 0)
    (hpair : d'.m.interlacePair1 ≠ .null → d'.m.interlacePair0 ≠ .null) : Core l loc' d' where
  wf := hheap ▸ h.wf
  bal := by
    intro k
    have hb := h.bal k
    have hk := hheld k
    rw [hheap]
    exact ⟨hk.1.trans hb.1, fun hf => (hk.2 hf).trans (hb.2 hf)⟩
  real := hreal
  same := hsame
  pair := hpair

theorem inc (h : Core l loc d) {k : Nat} (hl : d.heap.Live k) :
    Core l (addRef loc (.frame k)) { d with heap := d.heap.incr k } where
  wf := h.wf.incr k
  bal := by
    intro j
    have hb := h.bal j
    have hheld : Dev.held { d with heap := d.heap.incr k } j = d.held j := rfl
    simp only [hheld, Heap.count_incr hl, addRef, Ptr.refs_frame]
    exact ⟨by omega, fun hf => by have := hb.2 hf; omega⟩
  real := h.real
  same := h.same
  pair := h.pair

theorem put (h : Core l (addRef loc (.frame k)) d) (log : List (Nat × List Ptr)) :
    Core l loc { d with heap := d.heap.decr k, released := log } where
  wf := h.wf.decr k
  bal := by
    intro j
    have hb := h.bal j
    have hheld : Dev.held { d with heap := d.heap.decr k, released := log } j = d.held j := rfl
    simp only [addRef, Ptr.refs_frame] at hb
    simp only [hheld, Heap.count_decr]
    exact ⟨by omega, fun hf => by have := hb.2 hf; omega⟩
  real := h.real
  same := h.same
  pair := h.pair

theorem videoFramePut_spec {p : Ptr} (h : Core l (addRef loc p) d) (hp : p ≠ .one) : ∃ heap log,
    videoFramePut p d = .ret () { d with heap := heap, released := log } ∧
      Core l loc { d with heap := heap, released := log } := by
  cases p with
  | null => exact ⟨d.heap, d.released, rfl, h⟩
  | one => exact absurd rfl hp
  | frame k =>
    obtain ⟨log, hlog⟩ := videoFramePut_live h.live_loc
    exact ⟨_, log, hlog, h.put log⟩

theorem enqueue_spec (h : Core l loc d) (hl : d.heap.Live k) (hfields : d.q.interlace = 0)
    (hdirty : d.q.dirty = 0) (hroom : l = true ∨ Room d.q) :
    decFrameQueueEnqueue (.frame k) d = .ret 0 (shown d k) ∧ Core l loc (shown d k) := by
  have hinc := h.inc hl
  refine ⟨?_, hinc.of_held rfl ?_ ?_ ?_ h.pair⟩
  · simp [decFrameQueueEnqueue, decFrameDeferRelease, hdirty, refcountInc_live, hl, shown, showQ]
  · intro j
    have hdefer := count_deferRelease d.q (d.q.slots 3) j
    rw [h.same 3] at hdefer
    simp only [Dev.held, shown, showQ, addRef, DecFrameQueue.extra, deferRelease_interlace,
      deferRelease_shutdownHold, hfields, h.same 3, if_true]
    refine ⟨by omega, fun hf => ?_⟩
    have := hdefer.2 (hroom.resolve_left (by simp [hf]))
    omega
  · intro p hp
    have hreal := h.real
    simp only [mem_ptrs, shown, showQ, h.same 3, deferRelease_lastReleased, deferRelease_shutdownHold] at hp hreal
    grind [mem_deferRelease]
  · intro i
    rfl

def turn (d : Dev) : Ptr := if d.q.softRepeatCount &&& 1 = 0 then d.m.interlacePair0 else d.m.interlacePair1

theorem turn_live (h : Core l loc d) (hpair : d.m.interlacePair1 ≠ .null) :
    ∃ k, turn d = .frame k ∧ d.heap.Live k := by
  have hmem : turn d ∈ d.ptrs := by
    simp only [turn]
    split <;> simp [mem_ptrs]
  have hne : turn d ≠ .null := by
    simp only [turn]
    split
    · exact h.pair hpair
    · exact hpair
  exact (h.ptr_cases hmem).resolve_left hne

theorem pop_pair (h : Core l loc d) (hlock : d.readyLock = false)
    (hpair : d.m.type = 1 ∧ d.m.interlacePair1 ≠ .null) :
    ∃ k, turn d = .frame k ∧ d.heap.Live k ∧ decFramePop d = .ret (.frame k)
      { d with heap := d.heap.incr k, q := { d.q with softRepeatCount := d.q.softRepeatCount + 1 } } := by
  obtain ⟨k, hturn, hl⟩ := h.turn_live hpair.2
  refine ⟨k, hturn, hl, ?_⟩
  have hturn' := hturn
  simp only [turn] at hturn'
  simpa [decFramePop, lockReady_free hlock, popReady, hpair, hturn', refcountInc_live, hl] using hlock

theorem pop_none (hlock : d.readyLock = false) (hpair : ¬ (d.m.type = 1 ∧ d.m.interlacePair1 ≠ .null))
    (hready : d.m.readyList = []) : decFramePop d = .ret .null d := by
  have heq : { d with readyLock := false } = d := by rw [← hlock]
  simpa [decFramePop, lockReady_free hlock, popReady, hpair, hready] using heq

theorem took (h : Core l loc d) {rest : List Nat} (hready : d.m.readyList = k :: rest) (count : UInt32) :
    Core l (addRef loc (.frame k)) { d with m := { d.m with readyList := rest, readyCount := count } } := by
  refine h.of_held rfl (fun j => ?_) h.real h.same h.pair
  have hcount : d.m.readyList.count j = rest.count j + (Ptr.frame k).refs j := by
    simp [hready, List.count_cons, Ptr.refs]
  simp only [Dev.held, addRef]
  exact ⟨by omega, fun _ => by omega⟩

theorem pop_ready (h : Core l loc d) (hlock : d.readyLock = false)
    (hpair : ¬ (d.m.type = 1 ∧ d.m.interlacePair1 ≠ .null)) {rest : List Nat}
    (hready : d.m.readyList = k :: rest) : decFramePop d = .ret (.frame k)
      { d with m := { d.m with readyList := rest, readyCount := d.m.readyCount - 1 } } := by
  have hl : ∀ j ∈ k :: rest.take 1, d.heap.Live j := by
    intro j hj
    refine h.live_ready ?_
    rw [hready]
    rcases List.mem_cons.mp hj with rfl | hj
    · exact List.mem_cons_self
    · exact List.mem_cons_of_mem _ (List.mem_of_mem_take hj)
  have htouch : touch (k :: rest.take 1) { d with readyLock := true } = .ret () { d with readyLock := true } :=
    touch_live hl
  simpa [decFramePop, lockReady_free hlock, popReady, hpair, hready, htouch] using hlock

end Core

end H713.Decd
