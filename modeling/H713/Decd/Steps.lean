import H713.Decd.Code

/-!
# Decd.Steps

The frame manager with everything that runs on it: calls from one process at a time (`dec->lock`), the vsync
interrupt, the tasklet and the release work. A step is what runs without a break.
-/

namespace H713.Decd

open RefCount M

inductive Proc where
  | idle
  | resuming
  | waiting
deriving DecidableEq

structure Sys where
  dev : Dev
  proc : Proc
  worker : Worker

def start (size : Nat) : Sys := ⟨decFrameManagerInit size .empty .null [], .idle, .idle⟩

inductive Op where
  | enqueue (payload : Item) (alloc : Bool)
  | enqueueInterlace (top bottom : Item) (allocTop allocBottom : Bool)
  | setStreamType (type : UInt32)
  | resume
  | stop
  | stopped
  | timeout
  | vsync
  | refresh
  | work

/-- The wait ends with the state 0 or, after 2500 ticks, without it. -/
def Enabled (s : Sys) : Op → Prop
  | .enqueue _ _ | .enqueueInterlace _ _ _ _ | .setStreamType _ | .stop => s.proc = .idle
  | .resume => s.proc = .resuming
  | .stopped => s.proc = .waiting ∧ s.dev.m.state = 0
  | .timeout => s.proc = .waiting ∧ s.dev.m.state ≠ 0
  | .vsync => True
  | .refresh => s.dev.m.refreshScheduled
  | .work => s.worker ≠ .idle ∨ s.dev.work

instance (s : Sys) (op : Op) : Decidable (Enabled s op) := by
  cases op <;> unfold Enabled <;> infer_instance

def step (s : Sys) : Op → Out Sys Int
  | .enqueue payload alloc =>
    (decFrameManagerEnqueueFrame payload alloc s.dev).bind fun r d =>
      .ret r { s with dev := d, proc := if r = 0 then .resuming else .idle }
  | .enqueueInterlace top bottom allocTop allocBottom =>
    (decFrameManagerEnqueueInterlaceFrame top bottom allocTop allocBottom s.dev).bind fun r d =>
      .ret r { s with dev := d, proc := if r = 0 then .resuming else .idle }
  | .setStreamType type => (decFrameManagerSetStreamType type s.dev).bind fun _ d => .ret 0 { s with dev := d }
  | .resume => (decFrameQueueResume s.dev).bind fun _ d => .ret 0 { s with dev := d, proc := .idle }
  | .stop =>
    (decFrameManagerStop s.dev).bind fun _ d =>
      .ret 0 { s with dev := d, proc := if d.m.state ≠ 0 then .waiting else .idle }
  | .stopped => (decFrameManagerFree s.dev).bind fun _ d => .ret 0 { s with dev := d, proc := .idle }
  | .timeout => .ret 0 { s with proc := .idle }
  | .vsync => (decVsyncProcess s.dev).bind fun _ d => .ret 0 { s with dev := d }
  | .refresh => (decFrameQueueRefresh s.dev).bind fun _ d => .ret 0 { s with dev := d }
  | .work => (decFrameReleaseProcess s.worker s.dev).bind fun w d => .ret 0 { s with dev := d, worker := w }

def reopen (size : Nat) (s : Sys) : Out Sys Int :=
  (decFrameManagerExit s.worker s.dev).bind fun _ d =>
    .ret 0 ⟨decFrameManagerInit size d.heap d.lastFrame d.released, .idle, .idle⟩

section

variable {α β : Type} (d : Dev)

@[simp] theorem bind_ret (a : α) (f : α → M β) : (Out.ret a d).bind f = f a d := rfl

@[simp] theorem bind_apply (x : M α) (f : α → M β) : (x >>= f) d = (x d).bind f := rfl

@[simp] theorem pure_apply (a : α) : (pure a : M α) d = .ret a d := rfl

@[simp] theorem get_apply : M.get d = .ret d d := rfl

@[simp] theorem modify_apply (f : Dev → Dev) : M.modify f d = .ret () (f d) := rfl

@[simp] theorem modifyQ_apply (f : DecFrameQueue → DecFrameQueue) :
    M.modifyQ f d = .ret () { d with q := f d.q } := rfl

@[simp] theorem modifyM_apply (f : DecFrameManager → DecFrameManager) :
    M.modifyM f d = .ret () { d with m := f d.m } := rfl

@[simp] theorem ite_apply (c : Prop) [Decidable c] (x y : M α) :
    (if c then x else y) d = if c then x d else y d := by
  split <;> rfl

@[simp] theorem unlockQueue_apply : unlockQueue d = .ret () { d with queueLock := false } := rfl

@[simp] theorem unlockReady_apply : unlockReady d = .ret () { d with readyLock := false } := rfl

variable {d}

theorem lockQueue_free (h : d.queueLock = false) : lockQueue d = .ret () { d with queueLock := true } := by
  simp [lockQueue, h]

theorem lockReady_free (h : d.readyLock = false) : lockReady d = .ret () { d with readyLock := true } := by
  simp [lockReady, h]

theorem touch_live {ks : List Nat} (h : ∀ k ∈ ks, d.heap.Live k) : touch ks d = .ret () d := if_pos h

variable {k : Nat}

theorem refcountInc_live (h : d.heap.Live k) :
    refcountInc (.frame k) d = .ret () { d with heap := d.heap.incr k } := by
  simp only [refcountInc, Ptr.frame?, Option.bind_some, Heap.inc_of_live h]

theorem deref_obj {vf : VideoFrame} (h : d.heap.obj? k = some vf) : deref (.frame k) d = .ret vf d := by
  simp only [deref, Ptr.frame?, Option.bind_some, h]

theorem videoFramePut_live (h : d.heap.Live k) : ∃ log,
    videoFramePut (.frame k) d = .ret () { d with heap := d.heap.decr k, released := log } := by
  obtain ⟨o, ho⟩ := Heap.put_of_live h
  cases o with
  | none => exact ⟨d.released, by simp only [videoFramePut, ho]⟩
  | some vf => exact ⟨logRelease d k vf, by simp only [videoFramePut, ho]⟩

theorem videoFramePut_last {vf : VideoFrame} (h1 : d.heap.count k = 1) (hobj : d.heap.obj? k = some vf) :
    videoFramePut (.frame k) d = .ret () { d with heap := d.heap.decr k, released := logRelease d k vf } := by
  simp only [videoFramePut, Heap.put_of_one h1 hobj]

theorem videoFramePut_shared (h2 : 2 ≤ d.heap.count k) :
    videoFramePut (.frame k) d = .ret () { d with heap := d.heap.decr k } := by
  simp only [videoFramePut, Heap.put_of_two h2]

theorem videoFramePut_incr {heap : Heap VideoFrame} (hw : heap.WF) (hl : heap.Live k) (hd : d.heap = heap.incr k) :
    videoFramePut (.frame k) d = .ret () { d with heap := heap } := by
  have htwo : 2 ≤ d.heap.count k := by
    have hpos := hw.count_pos.mpr hl
    rw [hd, Heap.count_incr hl, if_pos rfl]
    omega
  rw [videoFramePut_shared htwo, hd, hw.decr_incr]

end

end H713.Decd
