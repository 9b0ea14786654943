import H713.Decd.Effects

/-!
# Decd.Fields

Any interleaving of calls, interrupts, tasklets and release work, with split-field frames, pairs of fields and
stops. `dec_frame_queue_resume` writes the flag 1 over the frame in `interlace_hold`.
-/

namespace H713.Decd

open RefCount M H713.Decd.Core

def Op.isRefresh : Op → Bool
  | .refresh => true
  | _ => false

/-- The calls and interrupts that may come in a state, a tasklet at the second field of a frame excepted. -/
def FirstFields (s : Sys) (op : Op) : Prop := Enabled s op ∧ (op.isRefresh → ¬ SecondField s.dev)
deriving Decidable

/-- The counts and the modes are right, and the pointer in the worker's hand is a real one. -/
structure Good (s : Sys) : Prop where
  core : Core true s.worker.refs s.dev
  mode : Mode s.dev
  hand : s.worker.ptr ≠ .one

section

variable {d d' : Dev}

theorem Core.Refreshed.mode (h : Refreshed d d') (hm : Mode d) : Mode d' := by
  cases h with
  | dirty | off | stuck | field => exact { hm with }
  | frame h | turn h | again h | flip h =>
    refine { hm with idle := ?_, four := ?_, five := ?_ }
    all_goals
      intro hs
      have := h.2.1.symm.trans hs
      contradiction
  | toFour hd h hf =>
    have hnull := hm.hold (by simp [h])
    exact { hm with
      idle := by simp [closingFields]
      hold := fun _ => hnull
      four := fun _ => hf
      five := by simp [closingFields]
      flag := by simp [closingFields] }
  | toTwo hd h =>
    have hnull := hm.hold (by simp [h])
    exact { hm with
      idle := by simp
      hold := fun _ => hnull
      four := by simp
      five := by simp
      flag := fun _ => hm.flag (by simp [h]) }
  | toFive hd h =>
    exact { hm with
      idle := by simp [closing]
      hold := by simp [closing]
      four := by simp [closing]
      five := fun _ => rfl
      req := rfl
      flag := by simp [closing] }
  | toZero hd h =>
    exact { hm with
      idle := by simp [closed]
      hold := fun _ => rfl
      four := by simp [closed]
      five := by simp [closed]
      flag := by simp [closed] }

theorem Core.Resumed.mode (h : Resumed d d') (hm : Mode d) : Mode d' := by
  cases h with
  | running | busy | empty => exact { hm with }
  | again h =>
    have hnull := hm.hold (by simp [h])
    exact { hm with
      idle := by simp
      hold := fun _ => hnull
      four := by simp
      five := by simp
      flag := fun _ => hm.flag (by simp [h]) }
  | fields h | frames h =>
    have hnull := hm.hold (by simp [h])
    exact { hm with
      idle := by simp [resumedFields, resumedFrames]
      hold := fun _ => hnull
      four := by simp [resumedFields, resumedFrames]
      five := by simp [resumedFields, resumedFrames]
      flag := fun _ => ⟨rfl, rfl⟩ }

theorem Core.Paired.mode {r : Int} (h : Paired d r d') (hm : Mode d) : Mode d' := by
  cases h with
  | refused | failed => exact { hm with }
  | done => exact { hm with recycled := setPair_recycled hm.recycled }

theorem Core.Worked.mode {w w' : Worker} (h : Worked d w w' d') (hm : Mode d) : Mode d' := by
  cases h <;> exact { hm with }

theorem stop_mode (hm : Mode d) :
    Mode { d with m := if d.m.state = 1 ∨ d.m.state = 2 then { d.m with request := 1, state := 3 } else d.m } := by
  split
  · rename_i hs
    have hnull := hm.hold (by rcases hs with hs | hs <;> simp [hs])
    exact { hm with
      idle := by simp
      hold := fun _ => hnull
      four := by simp
      five := by simp
      flag := fun _ => hm.flag (by rcases hs with hs | hs <;> simp [hs]) }
  · exact hm

end

variable {s : Sys}

theorem Good.vsync (h : Good s) :
    (∃ d', decVsyncProcess s.dev = .ret () d' ∧ Good { s with dev := d' }) ∨ decVsyncProcess s.dev = .spin := by
  obtain ⟨hcore, hmode, hhand⟩ := h
  have hq := hmode.queueLock
  by_cases hdirty : s.dev.q.dirty = 0
  · exact .inl ⟨_, vsync_clean hq hdirty, { hcore with }, { hmode with }, hhand⟩
  · by_cases hempty : s.dev.m.recycleFifo.items = []
    · exact .inl ⟨_, vsync_shows hcore.usable hq hdirty hempty, { hcore with }, { hmode with }, hhand⟩
    · exact .inr (vsync_spins hcore.usable hq hdirty hempty hmode.recycled)

theorem Good.refresh (h : Good s) (hfirst : ¬ SecondField s.dev) :
    (∃ d', decFrameQueueRefresh s.dev = .ret () d' ∧ Refreshed s.dev d' ∧ Good { s with dev := d' }) ∨
      decFrameQueueRefresh s.dev = .spin := by
  obtain ⟨hcore, hmode, hhand⟩ := h
  by_cases hdirty : s.dev.q.dirty = 0
  · by_cases hstate : s.dev.m.state = 1
    · obtain ⟨d', hd', hcase, hc⟩ := hcore.running_cases hmode hfirst hdirty hstate fun _ => .inl rfl
      exact .inl ⟨d', hd', hcase, hc, hcase.mode hmode, hhand⟩
    · rcases hcore.stopping_cases hmode hdirty hstate with ⟨d', hd', hcase, hc⟩ | ⟨hspin, -⟩
      · exact .inl ⟨d', hd', hcase, hc, hcase.mode hmode, hhand⟩
      · exact .inr hspin
  · have hcase : Refreshed s.dev (cleared s.dev) := .dirty hdirty
    exact .inl ⟨_, refresh_dirty hmode.queueLock hdirty, hcase,
      { hcore with }, hcase.mode hmode, hhand⟩

theorem Good.next (h : Good s) {op : Op} (hok : FirstFields s op) :
    (∃ r s', step s op = .ret r s' ∧ Good s') ∨ step s op = .spin := by
  obtain ⟨hcore, hmode, hhand⟩ := h
  have hread := hmode.readyLock
  cases op with
  | enqueue payload alloc =>
    left
    cases alloc with
    | true =>
      obtain ⟨heq, hc⟩ := hcore.enqueueFrame_spec hread payload
      exact ⟨0, _, Out.bind_of_ret heq _, hc, { hmode with }, hhand⟩
    | false =>
      have heq := enqueueFrame_fails (d := s.dev) payload
      exact ⟨-12, { s with dev := { s.dev with m := { s.dev.m with seqno := s.dev.m.seqno + 1 } }, proc := .idle },
        by simp [step, heq, Out.bind], { hcore with }, { hmode with }, hhand⟩
  | enqueueInterlace top bottom allocTop allocBottom =>
    obtain ⟨r, d', heq, hcase, hc⟩ := hcore.enqueueInterlace_cases hread top bottom allocTop allocBottom
    exact .inl ⟨r, _, Out.bind_of_ret heq _, hc, hcase.mode hmode, hhand⟩
  | setStreamType type =>
    have heq := setStreamType_spec hread type
    exact .inl ⟨0, _, Out.bind_of_ret heq _, { hcore with }, { hmode with }, hhand⟩
  | resume =>
    obtain ⟨d', heq, hcase, hc⟩ := hcore.resume_cases hmode
    exact .inl ⟨0, _, Out.bind_of_ret heq _, hc, hcase.mode hmode, hhand⟩
  | stop =>
    refine .inl ⟨0, _, rfl, ?_, stop_mode hmode, hhand⟩
    dsimp only
    split
    · exact { hcore with }
    · exact hcore
  | stopped =>
    obtain ⟨heap, log, heq, hc⟩ := hcore.free_spec hread
    have hzero : s.dev.m.state = 0 := hok.1.2
    have hnull := hmode.hold (by simp [hzero])
    have hfreed : Mode { s.dev with heap := heap, released := log, m := freed s.dev.m } := { hmode with
      idle := fun _ => hmode.idle hzero
      hold := fun _ => hnull
      four := by simp [freed]
      five := by simp [freed]
      flag := by simp [freed] }
    exact .inl ⟨0, _, Out.bind_of_ret heq _, hc, hfreed, hhand⟩
  | timeout => exact .inl ⟨0, _, rfl, hcore, hmode, hhand⟩
  | vsync =>
    rcases Good.vsync ⟨hcore, hmode, hhand⟩ with ⟨d', heq, hgood⟩ | heq
    · exact .inl ⟨0, _, Out.bind_of_ret heq _, hgood⟩
    · exact .inr (by simp [step, heq, Out.bind])
  | refresh =>
    rcases Good.refresh ⟨hcore, hmode, hhand⟩ (hok.2 rfl) with ⟨d', heq, -, hgood⟩ | heq
    · exact .inl ⟨0, _, Out.bind_of_ret heq _, hgood⟩
    · exact .inr (by simp [step, heq, Out.bind])
  | work =>
    obtain ⟨w', d', heq, hcase, hc, hw⟩ := hcore.work_cases hmode.queueLock hhand (.inl rfl)
    exact .inl ⟨0, _, Out.bind_of_ret heq _, hc, hcase.mode hmode, hw⟩

theorem Good.second_field (h : Good s) (hs : SecondField s.dev) : decFrameQueueRefresh s.dev = .bug ∨
    ∃ d', decFrameQueueRefresh s.dev = .ret () d' ∧ d'.q.lastReleased = .one := by
  obtain ⟨hcore, hmode, -⟩ := h
  obtain ⟨hstate, hdirty, hfields, htoggle⟩ := hs
  obtain ⟨hhold, hbudget⟩ := hmode.flag (.inl hstate)
  have hlocked : refreshLocked (begun s.dev) = refreshFields (begun s.dev) :=
    ((refreshLocked_eq (d := begun s.dev) hmode.counter hdirty).trans (if_pos hstate)).trans
      (refreshRunning_eq.trans (if_pos hfields))
  by_cases hready : s.dev.m.readyList = []
  · left
    have hbug : refreshFields (begun s.dev) = .bug := by
      simp [refreshFields, begun, htoggle, hready, hbudget, hhold, decFrameQueueEnqueue, decFrameDeferRelease, hdirty,
        refcountInc, Ptr.frame?, Out.bind]
    rw [refresh_eq hmode.queueLock, hlocked, hbug]
    rfl
  · right
    have hb : Core true s.worker.refs { begun s.dev with q := { s.dev.q with toggle := 0 } } :=
      { hcore with }
    obtain ⟨p, e, hpop⟩ : ∃ p e, decFramePop { begun s.dev with q := { s.dev.q with toggle := 0 } } = .ret p e := by
      rcases hb.pop_cases hmode.readyLock with hpop | ⟨k, heap, ready, count, soft, hpop, -⟩
      · exact ⟨_, _, hpop⟩
      · exact ⟨_, _, hpop⟩
    obtain ⟨e', hfields, hlast⟩ := second_spec (d := begun s.dev) htoggle hready hmode.req hpop
    refine ⟨{ e' with queueLock := false }, ?_, hlast.trans hhold⟩
    rw [refresh_eq hmode.queueLock, hlocked, hfields]
    rfl

theorem start_good (size : Nat) : Good (start size) where
  core := ⟨Heap.wf_empty, by intro k; simp [start, decFrameManagerInit, Dev.held, DecFrameQueue.extra, Worker.refs,
      Worker.ptr], by simp [start, decFrameManagerInit, mem_ptrs], by intro i; rfl,
      by simp [start, decFrameManagerInit]⟩
  mode := by
    constructor <;> simp [start, decFrameManagerInit]
  hand := by simp [start, Worker.ptr]

theorem good_of_run {size : Nat} {ops : List Op} (h : Run step FirstFields (start size) ops s) : Good s := by
  refine h.inv (I := Good) (fun s op r s' hg hok hs => ?_) (start_good size)
  rcases hg.next hok with ⟨r', t, ht, hgood⟩ | hspin
  · rw [hs] at ht
    cases ht
    exact hgood
  · rw [hs] at hspin
    cases hspin

def Sys.pointers (s : Sys) : List Ptr :=
  s.dev.m.readyList.map .frame ++ [s.dev.q.slots 0, s.dev.q.slots 1, s.dev.q.slots 2, s.dev.q.slots 3,
    s.dev.q.shutdownHold, s.dev.q.lastReleased, s.dev.lastFrame, s.dev.m.interlacePair0, s.dev.m.interlacePair1,
    s.worker.ptr] ++ s.dev.q.releaseFifo.items ++ s.dev.m.recycleFifo.items

theorem Good.pointer_cases (h : Good s) {p : Ptr} (hp : p ∈ s.pointers) :
    p = .null ∨ ∃ k, p = .frame k ∧ s.dev.heap.Live k := by
  have hsame := h.core.same
  have hmem : (∃ k ∈ s.dev.m.readyList, .frame k = p) ∨ p = s.worker.ptr ∨ p ∈ s.dev.ptrs := by
    simp only [Sys.pointers, hsame 1, hsame 2, hsame 3, List.mem_append, List.mem_map, List.mem_cons,
      List.not_mem_nil, or_false] at hp
    rw [mem_ptrs]
    grind
  rcases hmem with ⟨k, hk, rfl⟩ | rfl | hp
  · exact .inr ⟨k, rfl, h.core.live_ready hk⟩
  · cases hw : s.worker.ptr with
    | null => exact .inl rfl
    | one => exact absurd hw h.hand
    | frame k =>
      refine .inr ⟨k, rfl, h.core.live ?_⟩
      simp [Worker.refs, hw, Ptr.refs]
  · exact h.core.ptr_cases hp

/-- In every run in which the tasklet does not come to a second field, the pointers are good, there is a
reference for each of them, and no step uses another. At a second field it does, or releases one. -/
theorem pointers_good {size : Nat} {ops : List Op} (h : Run step FirstFields (start size) ops s) :
    (∀ p ∈ s.pointers, p = .null ∨ ∃ k, p = .frame k ∧ s.dev.heap.Live k) ∧
      (∀ k, s.dev.held k + s.worker.refs k ≤ s.dev.heap.count k) ∧ (∀ op, FirstFields s op → step s op ≠ .bug) ∧
      (SecondField s.dev → step s .refresh = .bug ∨
        ∃ r s', step s .refresh = .ret r s' ∧ s'.dev.q.lastReleased = .one) := by
  have hgood := good_of_run h
  refine ⟨fun p hp => ?_, fun k => (hgood.core.bal k).1, fun op hok => ?_, fun hs => ?_⟩
  · exact hgood.pointer_cases hp
  · rcases hgood.next hok with ⟨r, t, ht, -⟩ | hspin
    · rw [ht]
      exact fun hf => by cases hf
    · rw [hspin]
      exact fun hf => by cases hf
  · rcases hgood.second_field hs with hbug | ⟨d', hd', hone⟩
    · left
      simp only [step, hbug, Out.bind]
    · exact .inr ⟨0, _, Out.bind_of_ret hd' _, hone⟩

def stoppedEarly : List Op :=
  [.enqueue ⟨true⟩ true, .resume, .vsync, .refresh, .stop, .vsync, .refresh, .vsync, .refresh, .vsync, .refresh,
    .stopped, .work, .work, .work, .work]

theorem pointers_good_stopped_early : ∃ s, Run step FirstFields (start 8) stoppedEarly s ∧
    ∀ p ∈ s.pointers, p = .null ∨ ∃ k, p = .frame k ∧ s.dev.heap.Live k := by
  refine Run.exists_of_exec_imp (P := fun _ => True) (by decide +kernel) fun s hs _ => ?_
  exact (pointers_good hs).1

theorem flag_used_as_frame :
    ∃ s, Run step Enabled (start 8) [.enqueue ⟨true⟩ true, .resume, .vsync, .refresh, .vsync] s ∧
      Enabled s .refresh ∧ s.dev.q.interlaceHold = .one ∧ step s .refresh = .bug :=
  Run.exists_of_exec (by decide +kernel)

end H713.Decd
