import H713.Decd.Path

/-!
# Decd.Effects

What the interrupt, the tasklet and the calls do to a manager whose pointers are good (`Core`): one equation for
each way through the code.
-/

namespace H713.Decd

open Function
open RefCount M

namespace Core

variable {l : Bool} {loc : Nat → Nat} {d : Dev} {k : Nat}

theorem recycle_empty (h : d.m.recycleFifo.items = []) : decFrameRecycle d = .ret () { d with work := true } := by
  simp [decFrameRecycle, h, recycleAll, queueWork]

theorem recycle_spins (hlock : d.queueLock = true) (hrec : d.m.recycleFifo.items ≠ [])
    (hnull : ∀ p ∈ d.m.recycleFifo.items, p ≠ .null) : decFrameRecycle d = .spin := by
  cases hitems : d.m.recycleFifo.items with
  | nil => exact absurd hitems hrec
  | cons p ps =>
    have hp : p ≠ .null := hnull p (by simp [hitems])
    have hspin : ∀ m, lockQueue { d with m := m } = .spin := by
      intro m
      simp [lockQueue, hlock]
    simp [decFrameRecycle, hitems, recycleAll, hp, hspin, Out.bind]

theorem readSlots_eq (ps : List Ptr) : readSlots ps d = if ∀ p ∈ ps, p.Usable d.heap then .ret () d else .bug := by
  induction ps with
  | nil => rfl
  | cons p ps ih =>
    simp only [List.forall_mem_cons]
    cases p with
    | null => simpa [readSlots] using ih
    | one => simp [readSlots, deref, Ptr.frame?, Out.bind]
    | frame k =>
      by_cases hl : d.heap.Live k
      · obtain ⟨vf, hvf⟩ := Heap.obj?_of_live hl
        simpa [readSlots, deref_obj hvf, hl] using ih
      · simp [readSlots, deref, Ptr.frame?, Heap.obj?_of_not_live hl, hl, Out.bind]

theorem sync_eq : decFrameQueueSync d = if ∀ i, (d.q.slots i).Usable d.heap
    then .ret () { d with q := { d.q with dirty := 0, repeatPending := 0 } } else .bug := by
  have hread := readSlots_eq (d := { d with q := { d.q with dirty := 0 } })
    [d.q.slots 0, d.q.slots 1, d.q.slots 2, d.q.slots 3]
  simp only [decFrameQueueSync, bind_apply, modifyQ_apply, get_apply, bind_ret, hread]
  by_cases hu : ∀ i, (d.q.slots i).Usable d.heap
  · rw [if_pos (by simp [hu]), if_pos hu]
    rfl
  · have hall : ¬ ∀ p ∈ [d.q.slots 0, d.q.slots 1, d.q.slots 2, d.q.slots 3], p.Usable d.heap := by
      intro h
      exact hu fun i => h _ (by match i with | 0 | 1 | 2 | 3 => simp)
    rw [if_neg hall, if_neg hu]
    rfl

def ticked (m : DecFrameManager) : DecFrameManager :=
  { m with
    refreshScheduled := m.refreshScheduled || m.state &&& ~~~2 ≠ 0
    irqCount := m.irqCount + 1 }

theorem vsync_clean (hlock : d.queueLock = false) (hdirty : d.q.dirty = 0) :
    decVsyncProcess d = .ret () { d with m := ticked d.m } := by
  simpa [decVsyncProcess, lockQueue_free hlock, hdirty, ticked] using hlock

section

variable (hu : ∀ i, (d.q.slots i).Usable d.heap) (hlock : d.queueLock = false) (hdirty : d.q.dirty ≠ 0)

include hu hlock hdirty

theorem vsync_shows (hrec : d.m.recycleFifo.items = []) : decVsyncProcess d = .ret ()
      { d with q := { d.q with dirty := 0, repeatPending := 0 }, m := ticked d.m, work := true } := by
  have hsync := sync_eq (d := { d with queueLock := true })
  rw [if_pos hu] at hsync
  have hrecycle := recycle_empty
    (d := { d with q := { d.q with dirty := 0, repeatPending := 0 }, queueLock := true }) hrec
  simpa [decVsyncProcess, lockQueue_free hlock, hdirty, hsync, hrecycle, ticked] using hlock

theorem vsync_spins (hrec : d.m.recycleFifo.items ≠ []) (hnull : ∀ p ∈ d.m.recycleFifo.items, p ≠ .null) :
    decVsyncProcess d = .spin := by
  have hsync := sync_eq (d := { d with queueLock := true })
  rw [if_pos hu] at hsync
  have hrecycle := recycle_spins
    (d := { d with q := { d.q with dirty := 0, repeatPending := 0 }, queueLock := true }) rfl hrec hnull
  simp [decVsyncProcess, lockQueue_free hlock, hdirty, hsync, hrecycle, Out.bind]

end

theorem vsync_bugs (hu : ¬ ∀ i, (d.q.slots i).Usable d.heap) (hlock : d.queueLock = false) (hdirty : d.q.dirty ≠ 0) :
    decVsyncProcess d = .bug := by
  have hsync := sync_eq (d := { d with queueLock := true })
  rw [if_neg hu] at hsync
  simp [decVsyncProcess, lockQueue_free hlock, hdirty, hsync, Out.bind]

theorem shift_same {s : Fin 4 → Ptr} (h : ∀ i, s i = s 0) : ![s 0, s 1, s 1, s 2] = s := by
  funext i
  match i with
  | 0 => rfl
  | 1 => rfl
  | 2 => exact (h 1).trans (h 2).symm
  | 3 => exact (h 2).trans (h 3).symm

def repeated (d : Dev) (heap : Heap VideoFrame) : Dev :=
  { d with
    heap := heap
    q := { deferRelease d.q (d.q.slots 3) with dirty := 1, softRepeatCount := d.q.softRepeatCount + 1 } }

theorem repeat_spec (h : Core l loc d) (hfields : d.q.interlace = 0) (hroom : l = true ∨ Room d.q) :
    ∃ heap, decFrameQueueRepeat d = .ret () (repeated d heap) ∧ (heap = d.heap ∨ ∃ k, heap = d.heap.incr k) ∧
      Core l loc (repeated d heap) := by
  have hshift := shift_same h.same
  have hreal : ∀ p ∈ (repeated d d.heap).ptrs, p ≠ .one := by
    intro p hp
    have hreal := h.real
    simp only [mem_ptrs, repeated, h.same 3, deferRelease_lastReleased, deferRelease_shutdownHold,
      deferRelease_slots] at hp hreal
    grind [mem_deferRelease]
  have hcount : ∀ j, (repeated d d.heap).held j ≤ d.held j + (d.q.slots 0).refs j ∧
      (l = false → (repeated d d.heap).held j = d.held j + (d.q.slots 0).refs j) := by
    intro j
    have hdefer := count_deferRelease d.q (d.q.slots 3) j
    rw [h.same 3] at hdefer
    simp only [Dev.held, repeated, DecFrameQueue.extra, deferRelease_interlace, deferRelease_shutdownHold,
      deferRelease_slots, hfields, h.same 3, if_true]
    refine ⟨by omega, fun hf => ?_⟩
    have := hdefer.2 (hroom.resolve_left (by simp [hf]))
    omega
  rcases h.ptr_cases (p := d.q.slots 0) (by simp [mem_ptrs]) with hnull | ⟨k, hk, hl⟩
  · refine ⟨d.heap, ?_, .inl rfl, h.of_held rfl (fun j => ?_) hreal h.same h.pair⟩
    · rw [hnull] at hshift
      simpa [decFrameQueueRepeat, decFrameDeferRelease, hfields, hnull, repeated] using ⟨hshift, rfl⟩
    · have := hcount j
      simp only [hnull, Ptr.refs_null] at this
      exact ⟨by omega, fun hf => by have := this.2 hf; omega⟩
  · have hinc := h.inc hl
    refine ⟨d.heap.incr k, ?_, .inr ⟨k, rfl⟩, hinc.of_held rfl (fun j => ?_) hreal h.same h.pair⟩
    · rw [hk] at hshift
      simpa [decFrameQueueRepeat, decFrameDeferRelease, hfields, hk, repeated, refcountInc_live, hl] using
        ⟨hshift, rfl⟩
    · have := hcount j
      have hheld : (repeated d (d.heap.incr k)).held j = (repeated d d.heap).held j := rfl
      have hheld' : Dev.held { d with heap := d.heap.incr k } j = d.held j := rfl
      simp only [hk] at this
      simp only [hheld, hheld', addRef]
      exact ⟨by omega, fun hf => by have := this.2 hf; omega⟩

def advanced (d : Dev) (k : Nat) (rest : List Nat) : Dev :=
  { d with
    q := showQ d.q k
    m := { d.m with readyList := rest, readyCount := d.m.readyCount - 1, forceInterlace := 0 } }

theorem frame_ready (h : Core l loc d) (hlock : d.readyLock = false)
    (hpair : ¬ (d.m.type = 1 ∧ d.m.interlacePair1 ≠ .null)) {rest : List Nat} (hready : d.m.readyList = k :: rest)
    (hfields : d.q.interlace = 0) (hdirty : d.q.dirty = 0) (hroom : l = true ∨ Room d.q) :
    refreshFrame d = .ret () (advanced d k rest) ∧ Core l loc (advanced d k rest) := by
  have hl : d.heap.Live k := h.live_ready (by simp [hready])
  have hpop := h.pop_ready hlock hpair hready
  have hcore := h.took hready (d.m.readyCount - 1)
  obtain ⟨henq, hshown⟩ := hcore.enqueue_spec hl hfields hdirty hroom
  have hput := hshown.put d.released
  simp only [shown, h.wf.decr_incr k] at hput
  refine ⟨?_, { hput with }⟩
  simp [refreshFrame, hpop, henq, shown, videoFramePut_incr h.wf hl, advanced]

def turned (d : Dev) (k : Nat) : Dev :=
  { d with heap := d.heap.incr k, q := showQ d.q k, m := { d.m with forceInterlace := 0 } }

theorem frame_turn (h : Core l loc d) (hlock : d.readyLock = false)
    (hpair : d.m.type = 1 ∧ d.m.interlacePair1 ≠ .null)
    (hfields : d.q.interlace = 0) (hdirty : d.q.dirty = 0) (hroom : l = true ∨ Room d.q) :
    ∃ k, refreshFrame d = .ret () (turned d k) ∧ Core l loc (turned d k) := by
  obtain ⟨k, -, hl, hpop⟩ := h.pop_pair hlock hpair
  have hinc := h.inc hl
  have hcore : Core l (addRef loc (.frame k))
      { d with heap := d.heap.incr k, q := { d.q with softRepeatCount := d.q.softRepeatCount + 1 } } :=
    { hinc with }
  obtain ⟨henq, hshown⟩ := hcore.enqueue_spec ((Heap.live_incr _ _ _).mpr hl) hfields hdirty hroom
  have hput := hshown.put d.released
  simp only [shown, hinc.wf.decr_incr k] at hput
  refine ⟨k, ?_, { hput with }⟩
  simp [refreshFrame, hpop, henq, shown, videoFramePut_incr hinc.wf ((Heap.live_incr _ _ _).mpr hl), turned]
  rfl

theorem frame_none (h : Core l loc d) (hlock : d.readyLock = false)
    (hpair : ¬ (d.m.type = 1 ∧ d.m.interlacePair1 ≠ .null)) (hready : d.m.readyList = [])
    (hfields : d.q.interlace = 0) (hroom : l = true ∨ Room d.q) :
    ∃ heap, refreshFrame d = .ret () { repeated d heap with m := { d.m with forceInterlace := 1 } } ∧
      (heap = d.heap ∨ ∃ k, heap = d.heap.incr k) ∧
      Core l loc { repeated d heap with m := { d.m with forceInterlace := 1 } } := by
  obtain ⟨heap, hrepeat, hheap, hcore⟩ := h.repeat_spec hfields hroom
  refine ⟨heap, ?_, hheap, { hcore with }⟩
  simp [refreshFrame, pop_none hlock hpair hready, hrepeat, repeated]

def flipped (d : Dev) (k : Nat) : Dev :=
  { d with
    heap := d.heap.incr k
    q := showQ { d.q with toggle := d.q.toggle ^^^ 1, fieldPattern := d.q.fieldPattern <<< 1 } k }

theorem pair_spec (h : Core l loc d) (hpair : d.m.interlacePair0 ≠ .null ∧ d.m.interlacePair1 ≠ .null)
    (hfields : d.q.interlace = 0) (hdirty : d.q.dirty = 0) (hroom : l = true ∨ Room d.q) :
    ∃ k, refreshPair d = .ret () (flipped d k) ∧ Core l loc (flipped d k) := by
  have hfield : ∃ k, (if d.q.toggle ^^^ 1 ≠ 0 then d.m.interlacePair1 else d.m.interlacePair0) = .frame k ∧
      d.heap.Live k := by
    split
    · exact (h.ptr_cases (by simp [mem_ptrs])).resolve_left hpair.2
    · exact (h.ptr_cases (by simp [mem_ptrs])).resolve_left hpair.1
  obtain ⟨k, hk, hl⟩ := hfield
  have hcore : Core l loc
      { d with q := { d.q with toggle := d.q.toggle ^^^ 1, fieldPattern := d.q.fieldPattern <<< 1 } } :=
    { h with }
  obtain ⟨henq, hshown⟩ := hcore.enqueue_spec hl hfields hdirty hroom
  refine ⟨k, ?_, hshown⟩
  simp only [refreshPair, bind_apply, get_apply, bind_ret, ite_apply, hpair, ne_eq, not_false_eq_true, and_self,
    if_true, modifyQ_apply, hk, henq]
  rfl

theorem no_pair (hpair : ¬ (d.m.interlacePair0 ≠ .null ∧ d.m.interlacePair1 ≠ .null)) :
    refreshPair d = .ret () d := by
  simp only [refreshPair, bind_apply, get_apply, bind_ret, ite_apply, if_neg hpair, pure_apply]

theorem field_spec (htoggle : d.q.toggle = 0) (hreq : d.q.hwRepeatReq = 0) :
    refreshFields d = .ret () { d with q := { d.q with toggle := 1 } } := by
  simp [refreshFields, htoggle, hreq]

variable {p r : Ptr} {e : Dev}

theorem second_spec (htoggle : d.q.toggle ≠ 0) (hready : d.m.readyList ≠ []) (hreq : d.q.hwRepeatReq = 0)
    (hpop : decFramePop { d with q := { d.q with toggle := 0 } } = .ret p e) :
    ∃ d', refreshFields d = .ret () d' ∧ d'.q.lastReleased = d.q.interlaceHold := by
  have hempty : ¬ (d.m.readyList = [] ∧ d.q.repeatBudget ≤ 4) := fun h => hready h.1
  simp only [refreshFields, bind_apply, get_apply, bind_ret, ite_apply, if_neg htoggle, if_neg hempty,
    if_neg (not_not.mpr hreq), if_pos hready, modifyQ_apply, hpop, decFrameDeferRelease, modifyM_apply]
  exact ⟨_, rfl, rfl⟩

def closingFields (d : Dev) : Dev :=
  { d with
    m := { d.m with state := 4 }
    q := { d.q with repeatMode := 0, softRepeatCount := 0, repeatBudget := 0, dirty := 1 } }

theorem stopping_three_fields (hstate : d.m.state = 3) (hfields : d.q.interlace ≠ 0) :
    refreshStopping d = .ret () (closingFields d) := by
  simp [refreshStopping, hstate, hfields, closingFields]

theorem stopping_three_frames (hstate : d.m.state = 3) (hfields : d.q.interlace = 0) :
    refreshStopping d = .ret () { d with m := { d.m with state := 2 } } := by
  simp [refreshStopping, hstate, hfields]

theorem stopping_off (h3 : d.m.state ≠ 3) (h4 : d.m.state ≠ 4) (h5 : d.m.state ≠ 5) :
    refreshStopping d = .ret () d := by
  simp [refreshStopping, h3, h4, h5]

def closing (d : Dev) : Dev :=
  { d with
    m := { d.m with state := 5 }
    q := { deferRelease d.q (d.q.slots 0) with
      shutdownHold := d.q.slots 0
      slots := fun _ => .null
      toggle := 0, fieldPattern := 0, repeatCurrent := 0, repeatMode := 0, repeatPending := 0
      hwRepeat := 0, hwRepeatPrev := 0, hwRepeatReq := 0, dirty := 1
      interlaceBottom := .null, interlaceTop := .null, interlaceHold := .null
      softRepeatCount := 0, repeatBudget := 0 } }

theorem stopping_four (h : Core true loc d) (hstate : d.m.state = 4) (hfields : d.q.interlace ≠ 0)
    (hhold : d.q.shutdownHold = .null) : refreshStopping d = .ret () (closing d) ∧ Core true loc (closing d) := by
  have hslot : (if d.q.slots 0 = .null then d.q.slots 1 else d.q.slots 0) = d.q.slots 0 := by
    rw [h.same 1, ite_self]
  refine ⟨?_, h.of_held rfl (fun j => ?_) ?_ (fun i => rfl) h.pair⟩
  · simpa [refreshStopping, hstate, decFrameDeferRelease, hslot, closing] using ⟨rfl, rfl⟩
  · have hdefer := count_deferRelease d.q (d.q.slots 0) j
    simp only [Dev.held, closing, DecFrameQueue.extra, deferRelease_interlace, hfields, hhold, if_false,
      Ptr.refs_null]
    exact ⟨by omega, fun hf => by cases hf⟩
  · intro p hp
    have hreal := h.real
    simp only [mem_ptrs, closing, deferRelease_lastReleased] at hp hreal
    grind [mem_deferRelease]

theorem stopping_four_any (hstate : d.m.state = 4) : ∃ q,
    refreshStopping d = .ret () { d with m := { d.m with state := 5 }, q := q } ∧
      q.shutdownCounter = d.q.shutdownCounter ∧ q.slots = fun _ => .null := by
  simp only [refreshStopping, bind_apply, get_apply, bind_ret, ite_apply, hstate, decFrameDeferRelease, modifyQ_apply,
    modifyM_apply]
  exact ⟨_, rfl, rfl, rfl⟩

theorem repeatCtrl_off {q : DecFrameQueue} (hreq : q.hwRepeatReq = 0) : ∃ hw,
    (decFrameQueueHardwareRepeatCtrl q 0).2 = { q with hwRepeat := hw } := by
  simp only [decFrameQueueHardwareRepeatCtrl]
  split
  · exact ⟨q.hwRepeat, rfl⟩
  · refine ⟨0, ?_⟩
    simp [← hreq]

def closed (d : Dev) (hw : UInt32) : Dev :=
  { d with
    m := { d.m with state := 0 }
    q := { deferRelease (deferRelease d.q d.q.shutdownHold) .null with
      shutdownHold := .null
      slots := update d.q.slots 0 .null
      hwRepeat := hw }
    work := true }

def emptied (q : DecFrameQueue) : DecFrameQueue :=
  { deferRelease (deferRelease q q.shutdownHold) .null with
    shutdownHold := .null
    slots := update q.slots 0 .null }

theorem stopping_five_eq (hstate : d.m.state = 5) (hslots : d.q.slots 0 = .null) :
    refreshStopping d = decFrameRecycle { d with
      m := { d.m with state := 0 }
      q := (decFrameQueueHardwareRepeatCtrl (emptied d.q) 0).2 } := by
  simp [refreshStopping, hstate, decFrameDeferRelease, hslots, emptied]

theorem stopping_five (h : Core true loc d) (hstate : d.m.state = 5) (hslots : d.q.slots 0 = .null)
    (hreq : d.q.hwRepeatReq = 0) (hrec : d.m.recycleFifo.items = []) : ∃ hw,
    refreshStopping d = .ret () (closed d hw) ∧ Core true loc (closed d hw) := by
  obtain ⟨hw, hctrl⟩ := repeatCtrl_off (q := emptied d.q) hreq
  refine ⟨hw, ?_, h.of_held rfl (fun j => ?_) ?_ (fun i => ?_) h.pair⟩
  · rw [stopping_five_eq hstate hslots, hctrl]
    exact recycle_empty hrec
  · have hfirst := count_deferRelease d.q d.q.shutdownHold j
    have hsecond := count_deferRelease (deferRelease d.q d.q.shutdownHold) .null j
    simp only [Ptr.refs_null] at hsecond
    simp only [Dev.held, closed, DecFrameQueue.extra, deferRelease_interlace, update_self, Ptr.refs_null,
      hslots, ite_self]
    exact ⟨by omega, fun hf => by cases hf⟩
  · intro p hp
    have hreal := h.real
    simp only [mem_ptrs, closed, deferRelease_lastReleased, update_self] at hp hreal
    grind [mem_deferRelease, deferRelease_lastReleased]
  · have hi := h.same i
    rw [hslots] at hi
    by_cases h0 : i = 0
    · simp [closed, h0]
    · simp [closed, update_of_ne h0, hi]

theorem stopping_five_any (hstate : d.m.state = 5) : ∃ q,
    refreshStopping d = decFrameRecycle { d with m := { d.m with state := 0 }, q := q } ∧
      q.shutdownCounter = d.q.shutdownCounter ∧ q.slots = update d.q.slots 0 .null := by
  simp only [refreshStopping, bind_apply, get_apply, bind_ret, ite_apply, hstate, decFrameDeferRelease, modifyQ_apply,
    modifyM_apply]
  refine ⟨_, rfl, (repeatCtrl_kept _ 0).1.trans ?_, (repeatCtrl_kept _ 0).2.trans ?_⟩
  all_goals by_cases hslots : d.q.slots 0 = .null <;> simp [hslots, deferRelease]

theorem stopping_five_spins (hlock : d.queueLock = true) (hstate : d.m.state = 5)
    (hrec : d.m.recycleFifo.items ≠ []) (hnull : ∀ p ∈ d.m.recycleFifo.items, p ≠ .null) :
    refreshStopping d = .spin := by
  obtain ⟨q, hq, -, -⟩ := stopping_five_any hstate
  rw [hq]
  exact recycle_spins hlock hrec hnull

structure Mode (d : Dev) : Prop where
  queueLock : d.queueLock = false
  readyLock : d.readyLock = false
  counter : d.q.shutdownCounter = 4
  idle : d.m.state = 0 → d.q.slots 0 = .null
  hold : d.m.state ≠ 5 → d.q.shutdownHold = .null
  four : d.m.state = 4 → d.q.interlace ≠ 0
  five : d.m.state = 5 → d.q.slots 0 = .null
  recycled : ∀ p ∈ d.m.recycleFifo.items, p ≠ .null
  req : d.q.hwRepeatReq = 0
  flag : d.m.state = 1 ∨ d.m.state = 2 ∨ d.m.state = 3 → d.q.interlaceHold = .one ∧ d.q.repeatBudget = 1

/-- The tasklet is about to use `interlace_hold`: the second field of a frame in a split-field stream. -/
def SecondField (d : Dev) : Prop :=
  d.m.state = 1 ∧ d.q.dirty = 0 ∧ d.q.interlace ≠ 0 ∧ d.q.toggle ≠ 0
deriving Decidable

def cleared (d : Dev) : Dev := { d with m := { d.m with refreshScheduled := false } }

def begun (d : Dev) : Dev := { d with m := { d.m with refreshScheduled := false }, queueLock := true }

theorem begun_core (h : Core l loc d) : Core l loc (begun d) := { h with }

def Runs (d : Dev) : Prop := d.q.dirty = 0 ∧ d.m.state = 1 ∧ d.q.interlace = 0

inductive Refreshed (d : Dev) : Dev → Prop where
  | dirty (h : d.q.dirty ≠ 0) : Refreshed d (cleared d)
  | off (h : d.m.state ≠ 1) (h3 : d.m.state ≠ 3) (h4 : d.m.state ≠ 4) (h5 : d.m.state ≠ 5) :
      Refreshed d (cleared d)
  | stuck (h : Runs d) (hforce : d.m.forceInterlace ≠ 0)
      (hpair : ¬ (d.m.interlacePair0 ≠ .null ∧ d.m.interlacePair1 ≠ .null)) : Refreshed d (cleared d)
  | field (hd : d.q.dirty = 0) (h : d.m.state = 1) (hf : d.q.interlace ≠ 0) :
      Refreshed d { cleared d with q := { d.q with toggle := 1 } }
  | frame (h : Runs d) (hforce : d.m.forceInterlace = 0)
      (hpair : ¬ (d.m.type = 1 ∧ d.m.interlacePair1 ≠ .null)) (k : Nat) (rest : List Nat)
      (hready : d.m.readyList = k :: rest) : Refreshed d (advanced (cleared d) k rest)
  | turn (h : Runs d) (hforce : d.m.forceInterlace = 0) (hpair : d.m.type = 1 ∧ d.m.interlacePair1 ≠ .null)
      (k : Nat) : Refreshed d (turned (cleared d) k)
  | again (h : Runs d) (hforce : d.m.forceInterlace = 0)
      (hpair : ¬ (d.m.type = 1 ∧ d.m.interlacePair1 ≠ .null)) (hready : d.m.readyList = [])
      (heap : Heap VideoFrame) (hheap : heap = d.heap ∨ ∃ k, heap = d.heap.incr k) :
      Refreshed d { repeated (cleared d) heap with m := { (cleared d).m with forceInterlace := 1 } }
  | flip (h : Runs d) (hforce : d.m.forceInterlace ≠ 0)
      (hpair : d.m.interlacePair0 ≠ .null ∧ d.m.interlacePair1 ≠ .null) (k : Nat) :
      Refreshed d (flipped (cleared d) k)
  | toFour (hd : d.q.dirty = 0) (h : d.m.state = 3) (hf : d.q.interlace ≠ 0) :
      Refreshed d (closingFields (cleared d))
  | toTwo (hd : d.q.dirty = 0) (h : d.m.state = 3) (hf : d.q.interlace = 0) :
      Refreshed d { cleared d with m := { (cleared d).m with state := 2 } }
  | toFive (hd : d.q.dirty = 0) (h : d.m.state = 4) : Refreshed d (closing (cleared d))
  | toZero (hd : d.q.dirty = 0) (h : d.m.state = 5) (hrec : d.m.recycleFifo.items = []) (hw : UInt32) :
      Refreshed d (closed (cleared d) hw)

theorem refresh_eq (hlock : d.queueLock = false) :
    decFrameQueueRefresh d = (refreshLocked (begun d)).bind fun _ => unlockQueue := by
  have hcl : lockQueue { d with m := { d.m with refreshScheduled := false } } =
      .ret () (begun d) := lockQueue_free hlock
  simp [decFrameQueueRefresh, hcl]

theorem refresh_done (hlock : d.queueLock = false) (he : e.queueLock = false)
    (hbody : refreshLocked (begun d) = .ret () { e with queueLock := true }) :
    decFrameQueueRefresh d = .ret () e := by
  have heq : { e with queueLock := false } = e := by rw [← he]
  simpa [refresh_eq hlock, hbody] using heq

theorem refresh_spins (hlock : d.queueLock = false) (hbody : refreshLocked (begun d) = .spin) :
    decFrameQueueRefresh d = .spin := by
  simp [refresh_eq hlock, hbody, Out.bind]

theorem refreshLocked_eq (hcounter : d.q.shutdownCounter = 4) (hdirty : d.q.dirty = 0) :
    refreshLocked d = if d.m.state = 1 then refreshRunning d else refreshStopping d := by
  simp [refreshLocked, hdirty, hcounter]

theorem refreshRunning_eq : refreshRunning d =
    if d.q.interlace ≠ 0 then refreshFields d
    else if d.m.forceInterlace = 0 then refreshFrame d
    else refreshPair d := by
  simp only [refreshRunning, bind_apply, get_apply, bind_ret, ite_apply]

theorem refreshed_of (hm : Mode d) (hr : Refreshed d e) (he : e.queueLock = false)
    (hbody : refreshLocked (begun d) = .ret () { e with queueLock := true })
    (hc : Core l loc { e with queueLock := true }) :
    ∃ d', decFrameQueueRefresh d = .ret () d' ∧ Refreshed d d' ∧ Core l loc d' :=
  ⟨e, refresh_done hm.queueLock he hbody, hr, { hc with }⟩

theorem running_cases (h : Core l loc d) (hm : Mode d) (hcalm : ¬ SecondField d) (hdirty : d.q.dirty = 0)
    (hstate : d.m.state = 1) (hroom : d.m.forceInterlace = 0 ∨ d.m.interlacePair1 ≠ .null → l = true ∨ Room d.q) :
    ∃ d', decFrameQueueRefresh d = .ret () d' ∧ Refreshed d d' ∧ Core l loc d' := by
  have hb := h.begun_core
  have heq : refreshLocked (begun d) = refreshRunning (begun d) :=
    (refreshLocked_eq (d := begun d) hm.counter hdirty).trans (if_pos hstate)
  by_cases hf : d.q.interlace = 0
  · have hruns : Runs d := ⟨hdirty, hstate, hf⟩
    have heq := (heq.trans refreshRunning_eq).trans (if_neg (not_not.mpr hf))
    by_cases hforce : d.m.forceInterlace = 0
    · have heq := heq.trans (if_pos hforce)
      have hroom := hroom (.inl hforce)
      by_cases hpair : d.m.type = 1 ∧ d.m.interlacePair1 ≠ .null
      · obtain ⟨k, hk, hc⟩ := hb.frame_turn hm.readyLock hpair hf hdirty hroom
        exact refreshed_of hm (.turn hruns hforce hpair k) hm.queueLock (heq.trans hk) hc
      · cases hready : d.m.readyList with
        | nil =>
          obtain ⟨heap, hk, hheap, hc⟩ := hb.frame_none hm.readyLock hpair hready hf hroom
          exact refreshed_of hm (.again hruns hforce hpair hready heap hheap) hm.queueLock (heq.trans hk) hc
        | cons k rest =>
          obtain ⟨hk, hc⟩ := hb.frame_ready hm.readyLock hpair hready hf hdirty hroom
          exact refreshed_of hm (.frame hruns hforce hpair k rest hready) hm.queueLock (heq.trans hk) hc
    · have heq := heq.trans (if_neg hforce)
      by_cases hpair : d.m.interlacePair0 ≠ .null ∧ d.m.interlacePair1 ≠ .null
      · obtain ⟨k, hk, hc⟩ := hb.pair_spec hpair hf hdirty (hroom (.inr hpair.2))
        exact refreshed_of hm (.flip hruns hforce hpair k) hm.queueLock (heq.trans hk) hc
      · exact refreshed_of hm (.stuck hruns hforce hpair) hm.queueLock (heq.trans (no_pair hpair)) hb
  · have heq := (heq.trans refreshRunning_eq).trans (if_pos hf)
    have htoggle : d.q.toggle = 0 := by
      by_contra hne
      exact hcalm ⟨hstate, hdirty, hf, hne⟩
    have hk := field_spec (d := begun d) htoggle hm.req
    exact refreshed_of hm (.field hdirty hstate hf) hm.queueLock (heq.trans hk) { hb with }

theorem stopping_cases (h : Core true loc d) (hm : Mode d) (hdirty : d.q.dirty = 0) (hstate : d.m.state ≠ 1) :
    (∃ d', decFrameQueueRefresh d = .ret () d' ∧ Refreshed d d' ∧ Core true loc d') ∨
      (decFrameQueueRefresh d = .spin ∧ d.m.state = 5 ∧ d.m.recycleFifo.items ≠ []) := by
  have hb := h.begun_core
  have heq : refreshLocked (begun d) = refreshStopping (begun d) :=
    (refreshLocked_eq (d := begun d) hm.counter hdirty).trans (if_neg hstate)
  by_cases h3 : d.m.state = 3
  · left
    by_cases hf : d.q.interlace = 0
    · have hk := stopping_three_frames (d := begun d) h3 hf
      exact refreshed_of hm (.toTwo hdirty h3 hf) hm.queueLock (heq.trans hk) { hb with }
    · have hk := stopping_three_fields (d := begun d) h3 hf
      exact refreshed_of hm (.toFour hdirty h3 hf) hm.queueLock (heq.trans hk) { hb with }
  by_cases h4 : d.m.state = 4
  · left
    obtain ⟨hk, hc⟩ := hb.stopping_four h4 (hm.four h4) (hm.hold (by simp [h4]))
    exact refreshed_of hm (.toFive hdirty h4) hm.queueLock (heq.trans hk) hc
  by_cases h5 : d.m.state = 5
  · by_cases hrec : d.m.recycleFifo.items = []
    · left
      obtain ⟨hw, hk, hc⟩ := hb.stopping_five h5 (hm.five h5) hm.req hrec
      exact refreshed_of hm (.toZero hdirty h5 hrec hw) hm.queueLock (heq.trans hk) hc
    · right
      have hk := stopping_five_spins (d := begun d) rfl h5 hrec hm.recycled
      exact ⟨refresh_spins hm.queueLock (heq.trans hk), h5, hrec⟩
  left
  have hk := stopping_off (d := begun d) h3 h4 h5
  exact refreshed_of hm (.off hstate h3 h4 h5) hm.queueLock (heq.trans hk) hb

theorem refresh_dirty (hlock : d.queueLock = false) (hdirty : d.q.dirty ≠ 0) :
    decFrameQueueRefresh d = .ret () (cleared d) := by
  refine refresh_done hlock hlock ?_
  simp [refreshLocked, begun, cleared, hdirty]

def resumedFields (d : Dev) (k : Nat) : Dev :=
  { d with
    heap := d.heap.incr k
    q := { d.q with
      slots := fun _ => .frame k, interlaceHold := .one, interlace := 1, toggle := 0, fieldPattern := 0
      dirty := 1, softRepeatCount := 0, repeatBudget := 1 }
    m := { d.m with type := 1, state := 1 } }

def resumedFrames (d : Dev) (k : Nat) : Dev :=
  { d with
    q := { d.q with
      slots := fun _ => .frame k, interlaceHold := .one, interlace := 0, toggle := 0, fieldPattern := 0
      repeatCurrent := if d.m.forceInterlace ≠ 0 then d.q.repeatCurrent else 0
      dirty := 1, softRepeatCount := 0, repeatBudget := 1 }
    m := { d.m with type := if d.m.forceInterlace ≠ 0 then 1 else 0, state := 1 } }

theorem setStreamType_spec (hlock : d.readyLock = false) (type : UInt32) :
    decFrameManagerSetStreamType type d = .ret () { d with m := { d.m with type := type } } := by
  simpa [decFrameManagerSetStreamType, lockReady_free hlock] using hlock

section

variable {vf : VideoFrame} (h : Core l (addRef loc (.frame k)) d) (hlock : d.readyLock = false)
  (hslots : d.q.slots 0 = .null) (hobj : d.heap.obj? k = some vf)

include h hlock hslots hobj

theorem resumeWith_fields (hfields : decIsInterlaceFrame vf.payload = true) :
    resumeWith (.frame k) d = .ret () (resumedFields d k) ∧ Core l loc (resumedFields d k) := by
  have hl := h.live_loc
  have hinc := h.inc hl
  refine ⟨?_, hinc.of_held rfl (fun j => ?_) ?_ (fun i => rfl) h.pair⟩
  · simp [resumeWith, refcountInc_live, hl, deref_obj, hobj, hfields, setStreamType_spec, hlock, resumedFields]
  · have hone : ¬ (1 : UInt32) = 0 := by decide
    simp only [Dev.held, resumedFields, DecFrameQueue.extra, addRef, hslots, Ptr.refs_null, ite_self, hone, if_false]
    exact ⟨by omega, fun _ => by omega⟩
  · intro p hp
    have hreal := h.real
    simp only [mem_ptrs, resumedFields] at hp hreal
    grind

theorem resumeWith_frames (hfields : decIsInterlaceFrame vf.payload = false) :
    resumeWith (.frame k) d = .ret () (resumedFrames d k) ∧ Core l loc (resumedFrames d k) := by
  have hl := h.live_loc
  refine ⟨?_, h.of_held rfl (fun j => ?_) ?_ (fun i => rfl) h.pair⟩
  · by_cases hforce : d.m.forceInterlace = 0 <;>
      simp [resumeWith, refcountInc_live, hl, deref_obj, hobj, hfields, setStreamType_spec, hlock, hforce,
        videoFramePut_incr h.wf hl, resumedFrames]
  · simp only [Dev.held, resumedFrames, DecFrameQueue.extra, addRef, hslots, Ptr.refs_null, ite_self, if_true]
    exact ⟨by omega, fun _ => by omega⟩
  · intro p hp
    have hreal := h.real
    simp only [mem_ptrs, resumedFrames] at hp hreal
    grind

end

theorem putLastFrame_spec (h : Core l loc d) : ∃ heap log,
    putLastFrame d = .ret () { d with heap := heap, released := log, lastFrame := .null } ∧
      Core l loc { d with heap := heap, released := log, lastFrame := .null } := by
  by_cases hlast : d.lastFrame = .null
  · have heq : { d with lastFrame := .null } = d := by rw [← hlast]
    refine ⟨d.heap, d.released, ?_, ?_⟩
    · simpa [putLastFrame, hlast] using heq.symm
    · rw [heq]
      exact h
  · obtain ⟨k, hk, hl⟩ := (h.ptr_cases (p := d.lastFrame) (by simp [mem_ptrs])).resolve_left hlast
    have hloc : Core l (addRef loc (.frame k)) { d with lastFrame := .null } := by
      refine h.of_held rfl (fun j => ?_) ?_ h.same h.pair
      · simp only [Dev.held, addRef, Ptr.refs_null, hk]
        exact ⟨by omega, fun _ => by omega⟩
      · intro p hp
        have hreal := h.real
        simp only [mem_ptrs] at hp hreal
        grind
    obtain ⟨log, hput⟩ := videoFramePut_live hl
    refine ⟨d.heap.decr k, log, ?_, hloc.put log⟩
    simp [putLastFrame, hk, hput]

inductive Resumed (d : Dev) : Dev → Prop where
  | running (h : d.m.state ≠ 0) (h2 : d.m.state ≠ 2) : Resumed d d
  | again (h : d.m.state = 2) : Resumed d { d with m := { d.m with state := 1 } }
  | busy (h : d.m.state = 0) (hd : d.q.dirty ≠ 0) : Resumed d d
  | empty (h : d.m.state = 0) (hd : d.q.dirty = 0) (heap : Heap VideoFrame) (log : List (Nat × List Ptr)) :
      Resumed d { d with heap := heap, released := log, lastFrame := .null }
  | fields (h : d.m.state = 0) (hd : d.q.dirty = 0) (heap : Heap VideoFrame) (log : List (Nat × List Ptr))
      (ready : List Nat) (count soft : UInt32) (k : Nat) :
      Resumed d (resumedFields
        { d with
          heap := heap, released := log, lastFrame := .null
          q := { d.q with softRepeatCount := soft }
          m := { d.m with readyList := ready, readyCount := count } } k)
  | frames (h : d.m.state = 0) (hd : d.q.dirty = 0) (heap : Heap VideoFrame) (log : List (Nat × List Ptr))
      (ready : List Nat) (count soft : UInt32) (k : Nat) :
      Resumed d (resumedFrames
        { d with
          heap := heap, released := log, lastFrame := .null
          q := { d.q with softRepeatCount := soft }
          m := { d.m with readyList := ready, readyCount := count } } k)

theorem pop_cases (h : Core l loc d) (hlock : d.readyLock = false) :
    decFramePop d = .ret .null d ∨ ∃ k heap ready count soft, decFramePop d = .ret (.frame k)
        { d with heap := heap, q := { d.q with softRepeatCount := soft },
                 m := { d.m with readyList := ready, readyCount := count } } ∧
      Core l (addRef loc (.frame k))
        { d with heap := heap, q := { d.q with softRepeatCount := soft },
                 m := { d.m with readyList := ready, readyCount := count } } := by
  by_cases hpair : d.m.type = 1 ∧ d.m.interlacePair1 ≠ .null
  · obtain ⟨k, -, hl, hpop⟩ := h.pop_pair hlock hpair
    have hinc := h.inc hl
    exact .inr ⟨k, d.heap.incr k, d.m.readyList, d.m.readyCount, d.q.softRepeatCount + 1, hpop,
      { hinc with }⟩
  · cases hready : d.m.readyList with
    | nil => exact .inl (pop_none hlock hpair hready)
    | cons k rest =>
      have hc := h.took hready (d.m.readyCount - 1)
      exact .inr ⟨k, d.heap, rest, d.m.readyCount - 1, d.q.softRepeatCount, h.pop_ready hlock hpair hready,
        { hc with }⟩

theorem resume_done (hm : Mode d) (h0 : d.m.state = 0) (hdirty : d.q.dirty = 0) (he : e.queueLock = false)
    (hbody : resumeLocked { d with queueLock := true } = .ret () { e with queueLock := true }) :
    decFrameQueueResume d = .ret () e := by
  have heq : { e with queueLock := false } = e := by rw [← he]
  simpa [decFrameQueueResume, h0, hdirty, lockQueue_free hm.queueLock, hbody] using heq

theorem resumeWith_cases (h : Core l (addRef loc (.frame k)) d) (hlock : d.readyLock = false)
    (hslots : d.q.slots 0 = .null) :
    (resumeWith (.frame k) d = .ret () (resumedFields d k) ∧ Core l loc (resumedFields d k)) ∨
      (resumeWith (.frame k) d = .ret () (resumedFrames d k) ∧ Core l loc (resumedFrames d k)) := by
  obtain ⟨vf, hvf⟩ := Heap.obj?_of_live h.live_loc
  cases hfields : decIsInterlaceFrame vf.payload with
  | true => exact .inl (h.resumeWith_fields hlock hslots hvf hfields)
  | false => exact .inr (h.resumeWith_frames hlock hslots hvf hfields)

theorem resume_cases (h : Core l loc d) (hm : Mode d) :
    ∃ d', decFrameQueueResume d = .ret () d' ∧ Resumed d d' ∧ Core l loc d' := by
  by_cases h0 : d.m.state = 0
  · by_cases hd : d.q.dirty = 0
    · have hb : Core l loc { d with queueLock := true } := { h with }
      obtain ⟨heap, log, hput, hc⟩ := hb.putLastFrame_spec
      rcases hc.pop_cases hm.readyLock with hpop | ⟨k, heap', ready, count, soft, hpop, hc'⟩
      · have hbody : resumeLocked { d with queueLock := true } =
            .ret () { d with heap := heap, released := log, lastFrame := .null, queueLock := true } := by
          simp [resumeLocked, hput, hpop]
        exact ⟨{ d with heap := heap, released := log, lastFrame := .null },
          resume_done hm h0 hd hm.queueLock hbody, .empty h0 hd heap log, { hc with }⟩
      · rcases hc'.resumeWith_cases hm.readyLock (hm.idle h0) with ⟨hwith, hc''⟩ | ⟨hwith, hc''⟩
        · refine ⟨_, resume_done hm h0 hd ?_ ?_, .fields h0 hd heap' log ready count soft k, { hc'' with }⟩
          · exact hm.queueLock
          · simp [resumeLocked, hput, hpop, hwith]
            rfl
        · refine ⟨_, resume_done hm h0 hd ?_ ?_, .frames h0 hd heap' log ready count soft k, { hc'' with }⟩
          · exact hm.queueLock
          · simp [resumeLocked, hput, hpop, hwith]
            rfl
    · refine ⟨d, ?_, .busy h0 hd, h⟩
      have heq : { d with queueLock := false } = d := by rw [← hm.queueLock]
      simpa [decFrameQueueResume, h0, hd, lockQueue_free hm.queueLock] using heq
  · by_cases h2 : d.m.state = 2
    · refine ⟨{ d with m := { d.m with state := 1 } }, ?_, .again h2, { h with }⟩
      simp [decFrameQueueResume, h2]
    · refine ⟨d, ?_, .running h0 h2, h⟩
      simp [decFrameQueueResume, h0, h2]

theorem alloc (h : Core l loc d) (vf : VideoFrame) :
    Core l (addRef loc (.frame d.heap.next)) { d with heap := d.heap.alloc vf } where
  wf := h.wf.alloc vf
  bal := by
    intro j
    have hb := h.bal j
    have hheld : Dev.held { d with heap := d.heap.alloc vf } j = d.held j := rfl
    simp only [hheld, h.wf.count_alloc, addRef, Ptr.refs_frame]
    exact ⟨by omega, fun hf => by have := hb.2 hf; omega⟩
  real := h.real
  same := h.same
  pair := h.pair

theorem setPayload_core (h : Core l loc d) (k : Nat) (f : VideoFrame → VideoFrame) :
    Core l loc { d with heap := d.heap.modify k f } where
  wf := h.wf.modify k f
  bal := by
    intro j
    have hheld : Dev.held { d with heap := d.heap.modify k f } j = d.held j := rfl
    rw [Heap.count_modify, hheld]
    exact h.bal j
  real := h.real
  same := h.same
  pair := h.pair

def created (d : Dev) (payload : Item) : Heap VideoFrame :=
  (d.heap.alloc ⟨d.m.seqno, none, false⟩).modify d.heap.next
    fun vf => { vf with payload := some payload, release := true }

def appended (d : Dev) (payload : Item) : Dev :=
  { d with
    heap := created d payload
    m := { d.m with
      seqno := d.m.seqno + 1
      readyList := d.m.readyList ++ [d.heap.next]
      readyCount := d.m.readyCount + 1 } }

theorem enqueueFrame_spec (h : Core l loc d) (hlock : d.readyLock = false) (payload : Item) :
    decFrameManagerEnqueueFrame payload true d = .ret 0 (appended d payload) ∧ Core l loc (appended d payload) := by
  have hcreated := (h.alloc ⟨d.m.seqno, none, false⟩).setPayload_core d.heap.next
    fun vf => { vf with payload := some payload, release := true }
  have hl : ∀ k ∈ d.heap.next :: d.m.readyList.getLast?.toList, (created d payload).Live k := by
    intro k hk
    refine (Heap.live_modify _ _ _ _).mpr ((Heap.live_alloc _ _ _).mpr ?_)
    rcases List.mem_cons.mp hk with rfl | hk
    · exact .inl rfl
    · exact .inr (h.live_ready (List.mem_of_getLast? (Option.mem_toList.mp hk)))
  refine ⟨?_, hcreated.of_held rfl (fun j => ?_) h.real h.same h.pair⟩
  · have htouch : ∀ m, touch (d.heap.next :: d.m.readyList.getLast?.toList)
        { d with heap := created d payload, m := m, readyLock := true } =
        .ret () { d with heap := created d payload, m := m, readyLock := true } := fun m => touch_live hl
    simp only [created] at htouch
    simp [decFrameManagerEnqueueFrame, decCreateVideoFrame, setPayload, lockReady, hlock, listAddTail, htouch,
      appended, created]
  · have hone : [d.heap.next].count j = (Ptr.frame d.heap.next).refs j := by
      simp [List.count_cons, Ptr.refs]
    simp only [Dev.held, appended, addRef, List.count_append, hone]
    exact ⟨by omega, fun _ => by omega⟩

theorem enqueueFrame_fails (payload : Item) : decFrameManagerEnqueueFrame payload false d =
    .ret (-12) { d with m := { d.m with seqno := d.m.seqno + 1 } } := by
  simp [decFrameManagerEnqueueFrame, decCreateVideoFrame]

theorem cons_loc {ks : List Nat} (h : Core l (fun j => loc j + (k :: ks).count j) d) :
    Core l (addRef (fun j => loc j + ks.count j) (.frame k)) d := by
  refine h.of_held rfl (fun j => ?_) h.real h.same h.pair
  have hcount : (k :: ks).count j = ks.count j + (Ptr.frame k).refs j := by
    simp [List.count_cons, Ptr.refs]
  simp only [addRef, hcount]
  exact ⟨by omega, fun _ => by omega⟩

theorem putAll_spec {ks : List Nat} (h : Core l (fun j => loc j + ks.count j) d) : ∃ heap log,
    putAll ks d = .ret () { d with heap := heap, released := log } ∧
      Core l loc { d with heap := heap, released := log } := by
  induction ks generalizing d with
  | nil => exact ⟨d.heap, d.released, rfl, h⟩
  | cons k ks ih =>
    obtain ⟨log, hput⟩ := videoFramePut_live h.cons_loc.live_loc
    obtain ⟨heap, log', hall, hc⟩ := ih (h.cons_loc.put log)
    exact ⟨heap, log', by simp [putAll, hput, hall], hc⟩

def freed (m : DecFrameManager) : DecFrameManager :=
  { m with
    readyList := [], readyCount := 0, interlacePair0 := .null, interlacePair1 := .null, type := 0, request := 0
    state := 0 }

def detached (d : Dev) : Dev := { d with m := { freed d.m with state := d.m.state } }

theorem detach (h : Core l loc d) : Core l
    (fun j => addRef (addRef loc d.m.interlacePair1) d.m.interlacePair0 j + d.m.readyList.count j) (detached d) := by
  refine h.of_held rfl (fun j => ?_) ?_ h.same (fun hne => absurd rfl hne)
  · simp only [Dev.held, detached, freed, addRef, Ptr.refs_null, List.count_nil]
    exact ⟨by omega, fun _ => by omega⟩
  · intro p hp
    have hreal := h.real
    simp only [mem_ptrs, detached, freed] at hp hreal
    grind

theorem free_eq (hlock : d.readyLock = false) : decFrameManagerFree d =
    (putAll d.m.readyList (detached d)).bind fun _ e => (videoFramePut d.m.interlacePair0 e).bind fun _ e =>
      (videoFramePut d.m.interlacePair1 e).bind fun _ e => .ret () { e with m := { e.m with state := 0 } } := by
  have heq : { d with m := { freed d.m with state := d.m.state }, readyLock := false } = detached d := by
    rw [← hlock]
    rfl
  simp only [freed] at heq
  simp only [decFrameManagerFree, bind_apply, lockReady_free hlock, bind_ret, get_apply, modifyM_apply,
    unlockReady_apply, heq]
  rfl

theorem free_spec (h : Core l loc d) (hlock : d.readyLock = false) : ∃ heap log,
    decFrameManagerFree d = .ret () { d with heap := heap, released := log, m := freed d.m } ∧
      Core l loc { d with heap := heap, released := log, m := freed d.m } := by
  obtain ⟨heap, log, hall, hc⟩ := h.detach.putAll_spec
  obtain ⟨heap', log', hput, hc'⟩ := hc.videoFramePut_spec (h.real _ (by simp [mem_ptrs]))
  obtain ⟨heap'', log'', hput', hc''⟩ := hc'.videoFramePut_spec (h.real _ (by simp [mem_ptrs]))
  refine ⟨heap'', log'', ?_, { hc'' with }⟩
  rw [free_eq hlock, Out.bind_of_ret hall, Out.bind_of_ret hput, Out.bind_of_ret hput']
  rfl

theorem setPair_core (h : Core true (addRef (addRef loc p) r) d) (hp : p ≠ .null) (hp1 : p ≠ .one) (hr1 : r ≠ .one) :
    Core true loc { d with m := setPair d.m p r } := by
  refine h.of_held rfl (fun j => ?_) ?_ h.same (fun _ => hp)
  · simp only [Dev.held, setPair, addRef]
    refine ⟨?_, fun hf => by cases hf⟩
    have hstep (f : Kfifo) (q : Ptr) : (if q ≠ .null then f.push q else f).items.count (.frame j) ≤
        f.items.count (.frame j) + q.refs j := by
      split
      · exact (count_push f q j).1
      · exact Nat.le_add_right _ _
    have h0 := hstep d.m.recycleFifo d.m.interlacePair0
    have h1 := hstep (if d.m.interlacePair0 ≠ .null then d.m.recycleFifo.push d.m.interlacePair0 else d.m.recycleFifo)
      d.m.interlacePair1
    omega
  · intro q hq
    have hreal := h.real
    simp only [mem_ptrs, setPair] at hq hreal
    grind [mem_push]

inductive Paired (d : Dev) : Int → Dev → Prop where
  | refused (h : d.m.type ≠ 1) : Paired d (-22) d
  | failed (h : d.m.type = 1) (heap : Heap VideoFrame) (log : List (Nat × List Ptr)) :
      Paired d (-12) { d with heap := heap, released := log, m := { d.m with seqno := d.m.seqno + 1 + 1 } }
  | done (h : d.m.type = 1) (heap : Heap VideoFrame) (k l : Nat) :
      Paired d 0 { d with
        heap := heap
        m := setPair { d.m with seqno := d.m.seqno + 1 + 1 } (.frame k) (.frame l)
        work := true }

theorem create_spec (h : Core l loc d) (alloc : Bool) : ∃ p heap,
    decCreateVideoFrame alloc d = .ret p { d with heap := heap, m := { d.m with seqno := d.m.seqno + 1 } } ∧
      (p = .null ∨ ∃ k, p = .frame k) ∧
      Core l (addRef loc p) { d with heap := heap, m := { d.m with seqno := d.m.seqno + 1 } } := by
  cases alloc with
  | true =>
    have hc := h.alloc ⟨d.m.seqno, none, false⟩
    exact ⟨.frame d.heap.next, d.heap.alloc ⟨d.m.seqno, none, false⟩, rfl, .inr ⟨_, rfl⟩,
      { hc with }⟩
  | false => exact ⟨.null, d.heap, rfl, .inl rfl, { h with }⟩

theorem putBoth_spec (h : Core l (addRef (addRef loc p) r) d) (hp : p ≠ .one) (hr : r ≠ .one) :
    ∃ heap log, (do videoFramePut p; videoFramePut r; return -12 : M Int) d =
        .ret (-12) { d with heap := heap, released := log } ∧
      Core l loc { d with heap := heap, released := log } := by
  have hswap : Core l (addRef (addRef loc r) p) d := by
    refine h.of_held rfl (fun j => ?_) h.real h.same h.pair
    simp only [addRef]
    exact ⟨by omega, fun _ => by omega⟩
  obtain ⟨heap, log, hput, hc⟩ := hswap.videoFramePut_spec hp
  obtain ⟨heap', log', hput', hc'⟩ := hc.videoFramePut_spec hr
  exact ⟨heap', log', by simp [hput, hput'], hc'⟩

theorem enqueueInterlace_cases (h : Core true loc d) (hlock : d.readyLock = false) (top bottom : Item)
    (allocTop allocBottom : Bool) :
    ∃ r d', decFrameManagerEnqueueInterlaceFrame top bottom allocTop allocBottom d = .ret r d' ∧
      Paired d r d' ∧ Core true loc d' := by
  by_cases htype : d.m.type = 1
  · have htype' : ¬ d.m.type ≠ 1 := not_not.mpr htype
    obtain ⟨p, heap, hp, hpcase, hc⟩ := h.create_spec allocTop
    obtain ⟨r, heap', hr, hrcase, hc'⟩ := hc.create_spec allocBottom
    have hp1 : p ≠ .one := by rcases hpcase with rfl | ⟨_, rfl⟩ <;> simp
    have hr1 : r ≠ .one := by rcases hrcase with rfl | ⟨_, rfl⟩ <;> simp
    obtain ⟨heap'', log, hput, hc''⟩ := hc'.putBoth_spec hp1 hr1
    have hfail : ∃ d', (do videoFramePut p; videoFramePut r; return -12 : M Int) _ = .ret (-12) d' ∧
        Paired d (-12) d' ∧ Core true loc d' := ⟨_, hput, .failed htype heap'' log, { hc'' with }⟩
    simp only [decFrameManagerEnqueueInterlaceFrame, bind_apply, get_apply, bind_ret, ite_apply,
      if_neg htype', hp, hr]
    rcases hpcase with rfl | ⟨k, rfl⟩
    · exact ⟨-12, hfail⟩
    rcases hrcase with rfl | ⟨l, rfl⟩
    · exact ⟨-12, hfail⟩
    have hset := (hc'.setPayload_core k fun vf => { vf with payload := some top, release := true }).setPayload_core
      l fun vf => { vf with payload := some bottom, release := true }
    have hpair := hset.setPair_core (by simp) (by simp) (by simp)
    refine ⟨0, _, ?_, .done htype _ k l, { hpair with }⟩
    simp [setPayload, lockReady, hlock, queueWork]
  · exact ⟨-22, d, by simp [decFrameManagerEnqueueInterlaceFrame, htype], .refused htype, h⟩

inductive Worked (d : Dev) : Worker → Worker → Dev → Prop where
  | begin : Worked d .idle .loop { d with work := false }
  | pop {p : Ptr} {ps : List Ptr} (h : d.q.releaseFifo.items = p :: ps) (hlong : ps ≠ []) :
      Worked d .loop (.put p) { d with q := { d.q with releaseFifo := { d.q.releaseFifo with items := ps } } }
  | more (h : d.q.dirty = 0) : Worked d .loop .tail d
  | leave (h : d.q.dirty ≠ 0) : Worked d .loop .idle d
  | gave {p : Ptr} (heap : Heap VideoFrame) (log : List (Nat × List Ptr))
      (hput : videoFramePut p d = .ret () { d with heap := heap, released := log }) :
      Worked d (.put p) .loop { d with heap := heap, released := log }
  | popLast {p : Ptr} {ps : List Ptr} (h : d.q.releaseFifo.items = p :: ps) :
      Worked d .tail (.last p) { d with q := { d.q with releaseFifo := { d.q.releaseFifo with items := ps } } }
  | nothing : Worked d .tail .idle d
  | keep {p : Ptr} : Worked d (.last p) .idle { d with lastFrame := p }

theorem popRelease_spec (hlock : d.queueLock = false) : popRelease d = .ret d.q.releaseFifo.items.head?
    { d with q := { d.q with releaseFifo := { d.q.releaseFifo with items := d.q.releaseFifo.items.tail } } } := by
  simpa [popRelease, lockQueue_free hlock] using hlock

theorem popped (h : Core l loc d) {ps : List Ptr} (hitems : d.q.releaseFifo.items = p :: ps) : Core l (addRef loc p)
      { d with q := { d.q with releaseFifo := { d.q.releaseFifo with items := ps } } } := by
  refine h.of_held rfl (fun j => ?_) (fun r hr => h.real r ?_) h.same h.pair
  · have hcount : d.q.releaseFifo.items.count (.frame j) = ps.count (.frame j) + p.refs j := by
      simp [hitems, List.count_cons, Ptr.refs]
    simp only [Dev.held, addRef, DecFrameQueue.extra] at hcount ⊢
    exact ⟨by omega, fun _ => by omega⟩
  · simp only [mem_ptrs, hitems, List.mem_cons] at hr ⊢
    tauto

theorem work_cases {w : Worker} (h : Core l w.refs d) (hlock : d.queueLock = false) (hw : w.ptr ≠ .one)
    (hlast : l = true ∨ ∀ p, w = .last p → d.lastFrame = .null) :
    ∃ w' d', decFrameReleaseProcess w d = .ret w' d' ∧ Worked d w w' d' ∧ Core l w'.refs d' ∧ w'.ptr ≠ .one := by
  have hpop := popRelease_spec hlock
  cases w with
  | idle =>
    exact ⟨.loop, { d with work := false }, rfl, .begin, { h with }, by simp [Worker.ptr]⟩
  | loop =>
    match hitems : d.q.releaseFifo.items with
    | p :: r :: ps =>
      have hc := h.popped hitems
      refine ⟨.put p, _, ?_, .pop hitems (by simp), hc.of_held rfl (fun j => ?_) hc.real hc.same hc.pair,
        h.real p (by simp [mem_ptrs, hitems])⟩
      · simp only [decFrameReleaseProcess, bind_apply, get_apply, bind_ret, ite_apply, hpop, hitems]
        simp
      · simp [addRef, Worker.refs, Worker.ptr]
    | [] | [p] =>
      by_cases hdirty : d.q.dirty = 0
      · exact ⟨.tail, d, by simp [decFrameReleaseProcess, hitems, hdirty], .more hdirty, h, by simp [Worker.ptr]⟩
      · exact ⟨.idle, d, by simp [decFrameReleaseProcess, hitems, hdirty], .leave hdirty, h, by simp [Worker.ptr]⟩
  | put p =>
    have hloc : Core l (addRef Worker.loop.refs p) d := by
      refine h.of_held rfl (fun j => ?_) h.real h.same h.pair
      simp [addRef, Worker.refs, Worker.ptr]
    obtain ⟨heap, log, hput, hc⟩ := hloc.videoFramePut_spec hw
    exact ⟨.loop, _, by simp [decFrameReleaseProcess, hput], .gave heap log hput, hc, by simp [Worker.ptr]⟩
  | tail =>
    cases hitems : d.q.releaseFifo.items with
    | nil =>
      have heq : { d with q := { d.q with releaseFifo := { d.q.releaseFifo with items := [] } } } = d := by
        rw [← hitems]
      refine ⟨.idle, d, ?_, .nothing, h, by simp [Worker.ptr]⟩
      simpa [decFrameReleaseProcess, hpop, hitems] using heq
    | cons p ps =>
      have hc := h.popped hitems
      refine ⟨.last p, _, ?_, .popLast hitems, hc.of_held rfl (fun j => ?_) hc.real hc.same hc.pair,
        h.real p (by simp [mem_ptrs, hitems])⟩
      · simp [decFrameReleaseProcess, hpop, hitems]
      · simp [addRef, Worker.refs, Worker.ptr]
  | last p =>
    refine ⟨.idle, _, rfl, .keep, h.of_held rfl (fun j => ?_) (fun r hr => ?_) h.same h.pair, by simp [Worker.ptr]⟩
    · simp only [Dev.held, Worker.refs, Worker.ptr, Ptr.refs_null, DecFrameQueue.extra]
      refine ⟨by omega, fun hf => ?_⟩
      have hnull : d.lastFrame = .null := hlast.resolve_left (by simp [hf]) p rfl
      rw [hnull, Ptr.refs_null]
      omega
    · have hreal := h.real
      simp only [mem_ptrs] at hr hreal
      simp only [Worker.ptr] at hw
      grind

end Core

end H713.Decd
