import H713.Decd.Fields
import Mathlib.Data.List.Nodup

/-!
# Decd.Release

Streams of whole frames: frames without a second field are put in, the interrupt, the tasklet and the release work
run, and the manager is freed and made anew.
-/

namespace H713.Decd

open RefCount M H713.Decd.Core

structure Logged (d : Dev) : Prop where
  objs : ∀ k vf, d.heap.obj? k = some vf → vf.release = true ∧ decIsInterlaceFrame vf.payload = false
  nodup : (d.released.map Prod.fst).Nodup
  gone : ∀ k, k ∈ d.released.map Prod.fst ↔ k < d.heap.next ∧ ¬ d.heap.Live k
  unref : ∀ e ∈ d.released, .frame e.1 ∉ e.2

namespace Logged

variable {l : Bool} {loc : Nat → Nat} {d d' : Dev} {k : Nat}

section

variable (h : Logged d)

include h

theorem of_heap (hheap : d'.heap = d.heap) (hlog : d'.released = d.released) : Logged d' where
  objs := hheap ▸ h.objs
  nodup := hlog ▸ h.nodup
  gone := by
    rw [hheap, hlog]
    exact h.gone
  unref := hlog ▸ h.unref

theorem incr (hheap : d'.heap = d.heap.incr k) (hlog : d'.released = d.released) : Logged d' where
  objs := by
    intro j vf hj
    rw [hheap, Heap.obj?_incr] at hj
    exact h.objs j vf hj
  nodup := hlog ▸ h.nodup
  gone := by
    intro j
    rw [hheap, hlog, Heap.live_incr, Heap.next_incr]
    exact h.gone j
  unref := hlog ▸ h.unref

theorem create {payload : Item} (hp : payload.altYValid = false) (hheap : d'.heap = created d payload)
    (hlog : d'.released = d.released) : Logged d' where
  objs := by
    intro j vf hj
    rw [hheap, created, Heap.obj?_modify, Heap.obj?_alloc] at hj
    by_cases hjn : j = d.heap.next
    · simp only [hjn, if_true, Option.map_some, Option.some.injEq] at hj
      subst hj
      exact ⟨rfl, hp⟩
    · simp only [hjn, if_false] at hj
      exact h.objs j vf hj
  nodup := hlog ▸ h.nodup
  gone := by
    intro j
    rw [hlog, h.gone j, hheap, created, Heap.live_modify, Heap.live_alloc, Heap.next_modify, Heap.next_alloc]
    constructor
    · rintro ⟨hlt, hdead⟩
      exact ⟨by omega, fun hj => hj.elim (fun hj => by omega) hdead⟩
    · rintro ⟨hlt, hdead⟩
      have hne : j ≠ d.heap.next := fun hj => hdead (.inl hj)
      exact ⟨by omega, fun hl => hdead (.inr hl)⟩
  unref := hlog ▸ h.unref

theorem put_shared (hw : d.heap.WF) (h2 : 2 ≤ d.heap.count k) :
    Logged { d with heap := d.heap.decr k } where
  objs := fun j vf hj => h.objs j vf (Heap.obj?_decr hj)
  nodup := h.nodup
  gone := by
    intro j
    have hlive : (d.heap.decr k).Live j ↔ d.heap.Live j := by
      rw [← (hw.decr k).count_pos, ← hw.count_pos, Heap.count_decr]
      split
      · rename_i hj
        subst hj
        omega
      · rfl
    rw [hlive]
    exact h.gone j
  unref := h.unref

theorem put_last (hc : Core l (addRef loc (.frame k)) d) (h1 : d.heap.count k = 1) :
    Logged { d with heap := d.heap.decr k, released := d.released ++ [(k, d.refs)] } where
  objs := fun j vf hj => h.objs j vf (Heap.obj?_decr hj)
  nodup := by
    have hk : k ∉ d.released.map Prod.fst := fun hk => ((h.gone k).mp hk).2 hc.live_loc
    rw [List.map_append, List.nodup_append_comm]
    exact List.nodup_cons.mpr ⟨hk, h.nodup⟩
  gone := by
    intro j
    have hlive : (d.heap.decr k).Live j ↔ d.heap.Live j ∧ j ≠ k := by
      rw [← (hc.wf.decr k).count_pos, ← hc.wf.count_pos, Heap.count_decr]
      split
      · rename_i hj
        subst hj
        simp [h1]
      · rename_i hj
        simp [hj]
    have hlt := hc.wf.lt_next hc.live_loc
    simp only [hlive, List.map_append, List.mem_append, h.gone j, List.map_cons, List.map_nil, List.mem_singleton,
      Heap.next_decr]
    constructor
    · rintro (⟨hj, hdead⟩ | rfl)
      · exact ⟨hj, fun hl => hdead hl.1⟩
      · exact ⟨hlt, fun hl => hl.2 rfl⟩
    · rintro ⟨hj, hdead⟩
      by_cases hjk : j = k
      · exact .inr hjk
      · exact .inl ⟨hj, fun hl => hdead ⟨hl, hjk⟩⟩
  unref := by
    intro e he
    rcases List.mem_append.mp he with he | he
    · exact h.unref e he
    · rw [List.mem_singleton] at he
      subst he
      intro hmem
      have hheld : 0 < d.held k := hc.held_refs hmem
      have hbal := (hc.bal k).1
      simp only [addRef, Ptr.refs, if_true] at hbal
      omega

theorem put (hc : Core l (addRef loc (.frame k)) d) {heap : Heap VideoFrame} {log : List (Nat × List Ptr)}
    (hput : videoFramePut (.frame k) d = .ret () { d with heap := heap, released := log }) :
    Logged { d with heap := heap, released := log } := by
  have hpos := hc.wf.count_pos.mpr hc.live_loc
  by_cases h1 : d.heap.count k = 1
  · obtain ⟨vf, hvf⟩ := Heap.obj?_of_live hc.live_loc
    have hlast := videoFramePut_last h1 hvf
    rw [logRelease, if_pos (h.objs k vf hvf).1, hput] at hlast
    injection hlast with _ heq
    rw [heq]
    exact h.put_last hc h1
  · have hshared := videoFramePut_shared (d := d) (k := k) (by omega)
    rw [hput] at hshared
    injection hshared with _ heq
    rw [heq]
    exact h.put_shared hc.wf (by omega)

theorem putAll {ks : List Nat} (hc : Core l (fun j => loc j + ks.count j) d) (hall : Decd.putAll ks d = .ret () d') :
    Logged d' := by
  induction ks generalizing d with
  | nil => cases hall; exact h
  | cons k ks ih =>
    have hk : Core l (addRef (fun j => loc j + ks.count j) (.frame k)) d := hc.cons_loc
    obtain ⟨log, hput⟩ := videoFramePut_live hk.live_loc
    refine ih (h.put hk hput) (hk.put log) ?_
    simpa [Decd.putAll, hput] using hall

end

end Logged

def Op.isProgressive : Op → Bool
  | .enqueue payload _ => !payload.altYValid
  | .resume | .vsync | .refresh | .work => true
  | _ => false

/-- The steps of a stream of whole frames that is not stopped. -/
def Progressive (s : Sys) (op : Op) : Prop := Enabled s op ∧ op.isProgressive
deriving Decidable

def KeepsLast (s : Sys) : Prop :=
  match s.worker with
  | .last _ => s.dev.lastFrame = .null
  | _ => True

instance (s : Sys) : Decidable (KeepsLast s) := by
  unfold KeepsLast; repeat' split
  all_goals infer_instance

/-- The steps that drop no reference. -/
def Lossless (s : Sys) : Op → Prop
  | .refresh => s.dev.m.state = 1 → s.dev.q.dirty = 0 → s.dev.m.forceInterlace = 0 → Room s.dev.q
  | .work => KeepsLast s
  | _ => True

instance (s : Sys) : ∀ op, Decidable (Lossless s op)
  | .enqueue _ _ | .enqueueInterlace _ _ _ _ | .setStreamType _ | .resume | .stop | .stopped | .timeout | .vsync |
    .refresh | .work => by unfold Lossless; infer_instance

structure Plain (s : Sys) : Prop where
  fields : s.dev.q.interlace = 0
  pair0 : s.dev.m.interlacePair0 = .null
  pair1 : s.dev.m.interlacePair1 = .null
  recycle : s.dev.m.recycleFifo.items = []
  hold : s.dev.q.shutdownHold = .null
  state : s.dev.m.state = 0 ∨ s.dev.m.state = 1
  fresh : s.dev.m.state = 0 → s.dev.q.dirty = 0 ∧ s.dev.lastFrame = .null ∧ s.dev.q.releaseFifo.items = [] ∧
    s.worker.ptr = .null
  tick : s.dev.m.refreshScheduled → s.dev.m.state = 1 ∧ s.dev.q.dirty = 0
  waits : s.dev.m.state = 0 → s.dev.m.readyList ≠ [] → s.proc = .resuming

structure Stream (l : Bool) (s : Sys) : Prop where
  core : Core l s.worker.refs s.dev
  mode : Mode s.dev
  hand : s.worker.ptr ≠ .one
  log : Logged s.dev
  plain : Plain s

section

variable {l : Bool} {loc : Nat → Nat} {d : Dev} {s : Sys} {k : Nat}

def begunWith (d : Dev) (k : Nat) (rest : List Nat) : Dev :=
  resumedFrames { d with m := { d.m with readyList := rest, readyCount := d.m.readyCount - 1 } } k

theorem putLastFrame_none (hlast : d.lastFrame = .null) : putLastFrame d = .ret () d := by
  simp only [putLastFrame, bind_apply, get_apply, bind_ret, ite_apply, if_neg (not_not.mpr hlast), pure_apply]

theorem resume_none (hm : Mode d) (h0 : d.m.state = 0) (hdirty : d.q.dirty = 0) (hlast : d.lastFrame = .null)
    (hpair : d.m.interlacePair1 = .null) (hready : d.m.readyList = []) : decFrameQueueResume d = .ret () d := by
  have hpop : decFramePop { d with queueLock := true } = .ret .null { d with queueLock := true } :=
    pop_none hm.readyLock (fun h => h.2 hpair) hready
  have hput := putLastFrame_none (d := { d with queueLock := true }) hlast
  refine resume_done hm h0 hdirty hm.queueLock ?_
  simp [resumeLocked, hput, hpop]

theorem resume_first (h : Core l loc d) (hm : Mode d) (hlog : Logged d) (h0 : d.m.state = 0) (hdirty : d.q.dirty = 0)
    (hlast : d.lastFrame = .null) (hpair : d.m.interlacePair1 = .null) {rest : List Nat}
    (hready : d.m.readyList = k :: rest) :
    decFrameQueueResume d = .ret () (begunWith d k rest) ∧ Core l loc (begunWith d k rest) := by
  have hb : Core l loc { d with queueLock := true } := { h with }
  have hpop := hb.pop_ready hm.readyLock (fun h => h.2 hpair) hready
  have htook := hb.took hready (d.m.readyCount - 1)
  obtain ⟨vf, hvf⟩ := Heap.obj?_of_live (h.live_ready (k := k) (by simp [hready]))
  obtain ⟨hwith, hc⟩ := htook.resumeWith_frames hm.readyLock (hm.idle h0) hvf (hlog.objs k vf hvf).2
  refine ⟨resume_done hm h0 hdirty hm.queueLock ?_, { hc with }⟩
  have hput := putLastFrame_none (d := { d with queueLock := true }) hlast
  simp [resumeLocked, hput, hpop, hwith]
  rfl

inductive Streamed (s : Sys) : Op → Int → Sys → Prop where
  | enqueue {payload : Item} (hp : payload.altYValid = false) :
      Streamed s (.enqueue payload true) 0 { s with dev := appended s.dev payload, proc := .resuming }
  | noMemory {payload : Item} (hidle : s.proc = .idle) : Streamed s (.enqueue payload false) (-12)
      { s with dev := { s.dev with m := { s.dev.m with seqno := s.dev.m.seqno + 1 } }, proc := .idle }
  | resume (h : s.dev.m.state = 1 ∨ s.dev.m.readyList = []) : Streamed s .resume 0 { s with proc := .idle }
  | first (h : s.dev.m.state = 0) {k : Nat} {rest : List Nat} (hready : s.dev.m.readyList = k :: rest) :
      Streamed s .resume 0 { s with dev := begunWith s.dev k rest, proc := .idle }
  | clean (h : s.dev.q.dirty = 0) : Streamed s .vsync 0 { s with dev := { s.dev with m := ticked s.dev.m } }
  | display (h : s.dev.q.dirty ≠ 0) : Streamed s .vsync 0 { s with dev := { s.dev with
      q := { s.dev.q with dirty := 0, repeatPending := 0 }, m := ticked s.dev.m, work := true } }
  | stuck (h : Runs s.dev) (hforce : s.dev.m.forceInterlace ≠ 0) :
      Streamed s .refresh 0 { s with dev := cleared s.dev }
  | next (h : Runs s.dev) (hforce : s.dev.m.forceInterlace = 0) {k : Nat} {rest : List Nat}
      (hready : s.dev.m.readyList = k :: rest) :
      Streamed s .refresh 0 { s with dev := advanced (cleared s.dev) k rest }
  | again (h : Runs s.dev) (hforce : s.dev.m.forceInterlace = 0) (hready : s.dev.m.readyList = [])
      (heap : Heap VideoFrame) (hheap : heap = s.dev.heap ∨ ∃ k, heap = s.dev.heap.incr k) :
      Streamed s .refresh 0 { s with dev :=
        { repeated (cleared s.dev) heap with m := { (cleared s.dev).m with forceInterlace := 1 } } }
  | work {w' : Worker} {d' : Dev} (h : Worked s.dev s.worker w' d') :
      Streamed s .work 0 { s with dev := d', worker := w' }

variable {op : Op}

theorem Stream.next (h : Stream l s) (hok : Progressive s op) (hloss : l = true ∨ Lossless s op) :
    ∃ r s', step s op = .ret r s' ∧ Streamed s op r s' ∧ Core l s'.worker.refs s'.dev ∧ s'.worker.ptr ≠ .one := by
  obtain ⟨hcore, hmode, hhand, hlog, hplain⟩ := h
  obtain ⟨hen, hprog⟩ := hok
  cases op with
  | enqueue payload alloc =>
    cases alloc with
    | true =>
      have hp : payload.altYValid = false := by simpa [Op.isProgressive] using hprog
      obtain ⟨heq, hc⟩ := hcore.enqueueFrame_spec hmode.readyLock payload
      exact ⟨0, _, Out.bind_of_ret heq _, .enqueue hp, hc, hhand⟩
    | false =>
      have heq := enqueueFrame_fails (d := s.dev) payload
      refine ⟨-12, _, ?_, .noMemory hen, { hcore with }, hhand⟩
      simp [step, heq, Out.bind]
  | resume =>
    rcases hplain.state with h0 | h1
    · obtain ⟨hdirty, hlast, -⟩ := hplain.fresh h0
      cases hready : s.dev.m.readyList with
      | nil =>
        have heq := resume_none hmode h0 hdirty hlast hplain.pair1 hready
        exact ⟨0, _, Out.bind_of_ret heq _, .resume (.inr hready), hcore, hhand⟩
      | cons k rest =>
        obtain ⟨heq, hc⟩ := resume_first hcore hmode hlog h0 hdirty hlast hplain.pair1 hready
        exact ⟨0, _, Out.bind_of_ret heq _, .first h0 hready, hc, hhand⟩
    · have heq : decFrameQueueResume s.dev = .ret () s.dev := by
        simp [decFrameQueueResume, h1]
      exact ⟨0, _, Out.bind_of_ret heq _, .resume (.inl h1), hcore, hhand⟩
  | vsync =>
    by_cases hdirty : s.dev.q.dirty = 0
    · exact ⟨0, _, Out.bind_of_ret (vsync_clean hmode.queueLock hdirty) _, .clean hdirty, { hcore with }, hhand⟩
    · have heq := vsync_shows hcore.usable hmode.queueLock hdirty hplain.recycle
      exact ⟨0, _, Out.bind_of_ret heq _, .display hdirty, { hcore with }, hhand⟩
  | refresh =>
    obtain ⟨h1, hdirty⟩ := hplain.tick hen
    have hruns : Runs s.dev := ⟨hdirty, h1, hplain.fields⟩
    have hroom : s.dev.m.forceInterlace = 0 ∨ s.dev.m.interlacePair1 ≠ .null → l = true ∨ Room s.dev.q := by
      rintro (hforce | hpair)
      · exact hloss.imp_right fun hl => hl h1 hdirty hforce
      · exact absurd hplain.pair1 hpair
    have hsecond : ¬ SecondField s.dev := fun hs => hs.2.2.1 hplain.fields
    obtain ⟨d', heq, hcase, hc⟩ := hcore.running_cases hmode hsecond hdirty h1 hroom
    refine ⟨0, { s with dev := d' }, Out.bind_of_ret heq _, ?_, hc, hhand⟩
    cases hcase with
    | dirty hd => exact absurd hdirty hd
    | off hs => exact absurd h1 hs
    | stuck _ hforce => exact .stuck hruns hforce
    | field _ _ hf => exact absurd hplain.fields hf
    | frame _ hforce _ k rest hready => exact .next hruns hforce hready
    | turn _ _ hpair => exact absurd hplain.pair1 hpair.2
    | again _ hforce _ hready heap hheap => exact .again hruns hforce hready heap hheap
    | flip _ _ hpair => exact absurd hplain.pair1 hpair.2
    | toFour _ hs | toTwo _ hs | toFive _ hs | toZero _ hs =>
      have := h1.symm.trans hs
      contradiction
  | work =>
    have hlast : l = true ∨ ∀ p, s.worker = .last p → s.dev.lastFrame = .null := by
      refine hloss.imp_right fun hl p hp => ?_
      simpa [Lossless, KeepsLast, hp] using hl
    obtain ⟨w', d', heq, hcase, hc, hw⟩ := hcore.work_cases hmode.queueLock hhand hlast
    exact ⟨0, _, Out.bind_of_ret heq _, .work hcase, hc, hw⟩
  | _ => exact absurd hprog (by simp [Op.isProgressive])

theorem Streamed.logged {r : Int} {s' : Sys} (h : Streamed s op r s') (hl : Logged s.dev)
    (hc : Core l s.worker.refs s.dev) (hhand : s.worker.ptr ≠ .one) : Logged s'.dev := by
  cases h with
  | enqueue hp => exact hl.create hp rfl rfl
  | noMemory | resume | first | clean | display | stuck | next => exact hl.of_heap rfl rfl
  | again _ _ _ heap hheap =>
    rcases hheap with rfl | ⟨k, rfl⟩
    · exact hl.of_heap rfl rfl
    · exact hl.incr rfl rfl
  | work hw =>
    generalize hwk : s.worker = w at hw
    cases hw with
    | gave heap log hput =>
      rename_i p
      rw [hwk] at hc hhand
      cases p with
      | null =>
        simp only [videoFramePut] at hput
        injection hput with _ heq
        exact hl.of_heap (congrArg Dev.heap heq).symm (congrArg Dev.released heq).symm
      | one => exact absurd rfl hhand
      | frame k =>
        have hloc : Core l (addRef Worker.loop.refs (.frame k)) s.dev := by
          refine hc.of_held rfl (fun j => ?_) hc.real hc.same hc.pair
          simp [addRef, Worker.refs, Worker.ptr]
        exact hl.put hloc hput
    | _ => exact hl.of_heap rfl rfl

theorem scheduled_running {m : DecFrameManager} (hstate : m.state = 0 ∨ m.state = 1)
    (htick : m.refreshScheduled → m.state = 1) (h : (ticked m).refreshScheduled) : m.state = 1 := by
  refine hstate.resolve_left fun h0 => ?_
  simp only [ticked, h0, Bool.or_eq_true, decide_eq_true_eq] at h
  rcases h with h | h
  · have := h0.symm.trans (htick h)
    contradiction
  · exact h rfl

theorem Streamed.plain {r : Int} {s' : Sys} (h : Streamed s op r s') (hp : Plain s) : Plain s' := by
  obtain ⟨hfields, hpair0, hpair1, hrec, hhold, hstate, hfresh, htick, hwaits⟩ := hp
  cases h with
  | enqueue => exact ⟨hfields, hpair0, hpair1, hrec, hhold, hstate, hfresh, htick, fun _ _ => rfl⟩
  | noMemory hidle =>
    refine ⟨hfields, hpair0, hpair1, hrec, hhold, hstate, hfresh, htick, fun h0 hne => ?_⟩
    have := hidle.symm.trans (hwaits h0 hne)
    contradiction
  | resume h =>
    refine ⟨hfields, hpair0, hpair1, hrec, hhold, hstate, hfresh, htick, fun h0 hne => ?_⟩
    rcases h with h1 | hready
    · have := h1.symm.trans h0
      contradiction
    · exact absurd hready hne
  | first h0 hready =>
    refine ⟨rfl, hpair0, hpair1, hrec, hhold, .inr rfl, ?_, fun ht => ?_, ?_⟩
    · simp [begunWith, resumedFrames]
    · have := h0.symm.trans (htick ht).1
      contradiction
    · simp [begunWith, resumedFrames]
  | clean hdirty =>
    refine ⟨hfields, hpair0, hpair1, hrec, hhold, hstate, hfresh, fun ht => ⟨?_, hdirty⟩, hwaits⟩
    exact scheduled_running (m := s.dev.m) hstate (fun h => (htick h).1) ht
  | display hdirty =>
    have h1 : s.dev.m.state = 1 := hstate.resolve_left fun h0 => hdirty (hfresh h0).1
    refine ⟨hfields, hpair0, hpair1, hrec, hhold, hstate, fun h0 => ?_, fun _ => ⟨h1, rfl⟩, hwaits⟩
    exact absurd (hfresh h0).1 hdirty
  | stuck h => exact ⟨hfields, hpair0, hpair1, hrec, hhold, hstate, hfresh, by simp [cleared], hwaits⟩
  | next h | again h =>
    have h0 : s.dev.m.state ≠ 0 := by simp [h.2.1]
    exact ⟨hfields, hpair0, hpair1, hrec, hhold, hstate, fun hs => absurd hs h0,
      by simp [advanced, repeated, cleared], fun hs => absurd hs h0⟩
  | work hw =>
    generalize hwk : s.worker = w at hw hfresh
    cases hw with
    | begin | more | leave | gave | nothing =>
      refine ⟨hfields, hpair0, hpair1, hrec, hhold, hstate, fun h0 => ?_, htick, hwaits⟩
      obtain ⟨hd, hl, hi, -⟩ := hfresh h0
      exact ⟨hd, hl, hi, rfl⟩
    | pop hitems | popLast hitems =>
      refine ⟨hfields, hpair0, hpair1, hrec, hhold, hstate, fun h0 => ?_, htick, hwaits⟩
      have := hitems.symm.trans (hfresh h0).2.2.1
      cases this
    | keep =>
      refine ⟨hfields, hpair0, hpair1, hrec, hhold, hstate, fun h0 => ?_, htick, hwaits⟩
      obtain ⟨hd, -, hi, hw⟩ := hfresh h0
      exact ⟨hd, hw, hi, rfl⟩

theorem Stream.good (h : Stream l s) : Good s := ⟨h.core.weaken, h.mode, h.hand⟩

theorem Stream.step_stream (h : Stream l s) (hok : Progressive s op) (hloss : l = true ∨ Lossless s op) :
    ∃ r s', step s op = .ret r s' ∧ Streamed s op r s' ∧ Stream l s' := by
  obtain ⟨r, s', heq, hcase, hc, hhand⟩ := h.next hok hloss
  have hmode : Mode s'.dev := by
    have hfirst : FirstFields s op := ⟨hok.1, fun _ hs => hs.2.2.1 h.plain.fields⟩
    rcases h.good.next hfirst with ⟨r', t, ht, hgood⟩ | hspin
    · rw [heq] at ht
      cases ht
      exact hgood.mode
    · rw [heq] at hspin
      cases hspin
  exact ⟨r, s', heq, hcase, hc, hmode, hhand, hcase.logged h.log h.core h.hand, hcase.plain h.plain⟩

theorem init_stream {size : Nat} {heap : Heap VideoFrame} {log : List (Nat × List Ptr)} (hw : heap.WF)
    (hnone : l = false → ∀ k, heap.count k = 0) (hlog : Logged (decFrameManagerInit size heap .null log)) :
    Stream l ⟨decFrameManagerInit size heap .null log, .idle, .idle⟩ where
  core := by
    refine ⟨hw, fun k => ?_, ?_, fun i => rfl, ?_⟩
    · have hheld : (decFrameManagerInit size heap .null log).held k + Worker.idle.refs k = 0 := by
        simp [decFrameManagerInit, Dev.held, DecFrameQueue.extra, Worker.refs, Worker.ptr]
      rw [hheld]
      exact ⟨Nat.zero_le _, fun hl => (hnone hl k).symm⟩
    · simp [decFrameManagerInit, mem_ptrs]
    · simp [decFrameManagerInit]
  mode := by constructor <;> simp [decFrameManagerInit]
  hand := by simp [Worker.ptr]
  log := hlog
  plain := by constructor <;> simp [decFrameManagerInit, Worker.ptr]

theorem start_stream (size : Nat) : Stream l (start size) :=
  init_stream Heap.wf_empty (fun _ _ => rfl) (by constructor <;> simp [decFrameManagerInit, Heap.obj?, Heap.empty])

theorem stream_of_run {ok : Sys → Op → Prop} (hok : ∀ s op, ok s op → Progressive s op ∧ (l = true ∨ Lossless s op))
    {size : Nat} {ops : List Op} (h : Run step ok (start size) ops s) : Stream l s := by
  refine h.inv (I := Stream l) (fun s op r s' hstream ho hs => ?_) (start_stream size)
  obtain ⟨r', t, ht, -, hnext⟩ := hstream.step_stream (hok s op ho).1 (hok s op ho).2
  rw [hs] at ht
  cases ht
  exact hnext

end

variable {s : Sys}

inductive LifeOp where
  | manager (op : Op)
  | reopen

def lifeStep (size : Nat) (s : Sys) : LifeOp → Out Sys Int
  | .manager op => step s op
  | .reopen => reopen size s

/-- Streams of whole frames, and a new manager when no call is under way. -/
def LifeOp.Progressive (s : Sys) : LifeOp → Prop
  | .manager op => Decd.Progressive s op
  | .reopen => s.proc = .idle

instance (s : Sys) : DecidablePred (LifeOp.Progressive s) := fun op => by
  cases op <;> unfold LifeOp.Progressive <;> infer_instance

/-- The old manager leaves nothing in `last_frame`. -/
def LifeOp.Fresh (s : Sys) : LifeOp → Prop
  | .manager _ => True
  | .reopen => s.dev.lastFrame = .null

instance (s : Sys) : DecidablePred (LifeOp.Fresh s) := fun op => by
  cases op <;> unfold LifeOp.Fresh <;> infer_instance

theorem Stream.reopen {size : Nat} {r : Int} {s' : Sys} (h : Stream true s) (hlast : s.dev.lastFrame = .null)
    (hs : reopen size s = .ret r s') : Stream true s' := by
  obtain ⟨_, d, hexit, hs⟩ := Out.bind_eq_ret hs
  cases hs
  unfold decFrameManagerExit at hexit
  split at hexit
  · cases hexit
  have hdet := h.core.detach
  rw [h.plain.pair0, h.plain.pair1] at hdet
  rw [free_eq h.mode.readyLock, h.plain.pair0, h.plain.pair1] at hexit
  obtain ⟨_, e, hall, hexit⟩ := Out.bind_eq_ret hexit
  cases hexit
  obtain ⟨heap, log, heq, hc⟩ := hdet.putAll_spec
  have hlog : Logged (detached s.dev) := h.log.of_heap rfl rfl
  have hlog : Logged e := hlog.putAll hdet hall
  cases hall.symm.trans heq
  have hnew : Stream true ⟨decFrameManagerInit size heap .null log, .idle, .idle⟩ :=
    init_stream hc.wf (fun hl => by cases hl) (hlog.of_heap rfl rfl)
  rwa [← hlast] at hnew

def fourShown : List Op :=
  [.enqueue ⟨false⟩ true, .resume, .enqueue ⟨false⟩ true, .resume, .enqueue ⟨false⟩ true, .resume,
    .enqueue ⟨false⟩ true, .resume, .vsync, .refresh, .vsync, .refresh, .vsync, .refresh,
    .work, .work, .work, .work]

def keptOver : List LifeOp :=
  ([.enqueue ⟨false⟩ true, .resume, .enqueue ⟨false⟩ true, .resume, .enqueue ⟨false⟩ true, .resume,
    .enqueue ⟨false⟩ true, .resume, .vsync, .refresh, .vsync, .refresh, .vsync, .work, .work, .work,
    .work] : List Op).map .manager ++ [.reopen, .manager (.enqueue ⟨false⟩ true), .manager .resume]

def Sys.holders (s : Sys) (k : Nat) : Nat :=
  s.dev.m.readyList.count k + (s.dev.q.slots 0).refs k + s.dev.q.lastReleased.refs k +
    s.dev.q.releaseFifo.items.count (.frame k) + s.dev.lastFrame.refs k + s.worker.refs k

/-- In every run of a stream in which nothing is dropped: the counts are those of the holders, and what has none
has been released. -/
theorem nothing_lost {size : Nat} {ops : List Op}
    (h : Run step (fun s op => Progressive s op ∧ Lossless s op) (start size) ops s) :
    (∀ k, s.dev.heap.count k = s.holders k) ∧ (∀ i, s.dev.q.slots i = s.dev.q.slots 0) ∧
      ∀ k, k < s.dev.heap.next → s.holders k = 0 → k ∈ s.dev.released.map Prod.fst := by
  have hstream : Stream false s := stream_of_run (fun _ _ ho => ⟨ho.1, .inr ho.2⟩) h
  obtain ⟨hcore, -, -, hlog, hplain⟩ := hstream
  have hcount : ∀ k, s.dev.heap.count k = s.holders k := by
    intro k
    rw [← (hcore.bal k).2 rfl]
    simp [Dev.held, Sys.holders, DecFrameQueue.extra, hplain.fields, hplain.pair0, hplain.pair1, hplain.recycle,
      hplain.hold]
  refine ⟨hcount, hcore.same, fun k hk hnone => (hlog.gone k).mpr ⟨hk, fun hl => ?_⟩⟩
  have := hcore.wf.count_pos.mpr hl
  rw [hcount k, hnone] at this
  omega

theorem nothing_lost_of_four : ∃ s, Run step (fun s op => Progressive s op ∧ Lossless s op) (start 8) fourShown s ∧
      ∀ k, s.dev.heap.count k = s.holders k := by
  refine Run.exists_of_exec_imp (P := fun _ => True) (by decide +kernel) fun s hs _ => ?_
  exact (nothing_lost hs).1

def lastTwice : List Op :=
  [.enqueue ⟨false⟩ true, .resume, .enqueue ⟨false⟩ true, .resume, .enqueue ⟨false⟩ true, .resume,
    .enqueue ⟨false⟩ true, .resume, .vsync, .refresh, .vsync, .refresh, .vsync, .work, .work, .work, .work,
    .refresh, .vsync, .work, .work, .work, .work]

theorem last_frame_lost : ∃ s, Run step Progressive (start 8) lastTwice s ∧
    s.dev.heap.count 0 = 1 ∧ s.holders 0 = 0 ∧ s.dev.released = [] := by
  refine Run.exists_of_exec_imp
    (P := fun s => s.dev.heap.count 0 = 1 ∧ s.holders 0 = 0 ∧ s.dev.released.length = 0)
    (by decide +kernel) fun s hs hend => ?_
  obtain ⟨h1, h0, hr⟩ := hend
  exact ⟨h1, h0, List.eq_nil_of_length_eq_zero hr⟩

end H713.Decd
