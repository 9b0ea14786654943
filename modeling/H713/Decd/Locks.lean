import H713.Lib.Triple
import H713.Decd.Effects

/-!
# Decd.Locks

Which locks a path of the driver takes while it holds them. `dec_frame_recycle` takes the queue lock for each entry
of the recycle FIFO, and both its callers hold it.
-/

namespace H713.Decd

open RefCount M H713.Decd.Core

structure Locked (queue ready : Bool) (d : Dev) : Prop where
  queue : d.queueLock = queue
  ready : d.readyLock = ready
  counter : d.q.shutdownCounter = 4
  recycled : ∀ p ∈ d.m.recycleFifo.items, p ≠ .null

namespace Locked

variable {a b : Bool} {d : Dev}

theorem frames (hd : Locked a b d) (heap : Heap VideoFrame) (log : List (Nat × List Ptr)) :
    Locked a b { d with heap := heap, released := log } := { hd with }

theorem back_refcountInc (hd : Locked a b d) (p : Ptr) : (refcountInc p d).Back (Locked a b) := by
  simp only [refcountInc]
  split
  · exact Out.back_ret (hd.frames _ _)
  · exact Out.back_bug

theorem back_put (hd : Locked a b d) (p : Ptr) : (videoFramePut p d).Back (Locked a b) := by
  cases p with
  | null => exact Out.back_ret hd
  | one => exact Out.back_bug
  | frame k =>
    simp only [videoFramePut]
    split
    · exact Out.back_bug
    · exact Out.back_ret (hd.frames _ _)
    · exact Out.back_ret (hd.frames _ _)

end Locked

theorem triple_of_path {α : Type} {x : M α} {K : Kind} {a b a' b' : Bool} (h : Path K 4 a b x a' b')
    (hK : K.recycles = false) : Triple (Locked a b) x (Locked a' b') := by
  induction h with
  | reads h =>
    intro d hd
    rcases h d with hbug | ⟨v, hv⟩
    · rw [hbug]
      exact Out.back_bug
    · rw [hv]
      exact Out.back_ret hd
  | bind _ _ ihx ihf => exact Triple.bind ihx ihf
  | get _ ih => exact fun d hd => ih d hd.counter d hd
  | ite _ _ ihx ihy => exact Triple.ite ihx ihy
  | modifyQ hf => exact Triple.ret fun d hd => ⟨(), _, rfl, { hd with counter := hf _ hd.counter }⟩
  | modifyM hf => exact Triple.ret fun d hd => ⟨(), _, rfl, { hd with recycled := hf _ hd.recycled }⟩
  | modify hf =>
    refine Triple.ret fun d hd => ⟨(), _, rfl, ?_⟩
    rw [hf d]
    exact { hd with }
  | lockQueue => exact Triple.ret fun d hd => ⟨(), _, lockQueue_free hd.queue, { hd with queue := rfl }⟩
  | unlockQueue => exact Triple.ret fun d hd => ⟨(), _, rfl, { hd with queue := rfl }⟩
  | lockReady => exact Triple.ret fun d hd => ⟨(), _, lockReady_free hd.ready, { hd with ready := rfl }⟩
  | unlockReady => exact Triple.ret fun d hd => ⟨(), _, rfl, { hd with ready := rfl }⟩
  | refcountInc p => exact fun d hd => hd.back_refcountInc p
  | put p => exact fun d hd => hd.back_put p
  | create _ alloc => exact Triple.ret fun d hd => ⟨_, _, rfl, { hd with }⟩
  | setPayload => exact Triple.ret fun d hd => ⟨_, _, rfl, { hd with }⟩
  | recycle h => cases hK.symm.trans h

def calmKind : Kind := ⟨false, false, true⟩

def Steady {α : Type} (queue ready : Bool) (x : M α) : Prop := Triple (Locked queue ready) x (Locked queue ready)

theorem steady_of_path {α : Type} {x : M α} {a b : Bool} (h : Path calmKind 4 a b x a b) : Steady a b x :=
  triple_of_path h rfl

section

variable {d : Dev}

def VsyncCalm (d : Dev) : Prop :=
  d.q.dirty = 0 ∨ d.m.recycleFifo.items = [] ∨ ¬ ∀ i, (d.q.slots i).Usable d.heap

def RefreshCalm (d : Dev) : Prop := ¬ (d.m.state = 5 ∧ d.q.dirty = 0 ∧ d.m.recycleFifo.items ≠ [])

section

variable (hd : Locked false false d)

include hd

theorem vsync_calm (hc : VsyncCalm d) : (decVsyncProcess d).Back (Locked false false) := by
  by_cases hdirty : d.q.dirty = 0
  · rw [vsync_clean hd.queue hdirty]
    exact Out.back_ret { hd with }
  by_cases hu : ∀ i, (d.q.slots i).Usable d.heap
  · have hrec : d.m.recycleFifo.items = [] := (hc.resolve_left hdirty).resolve_right (not_not.mpr hu)
    rw [vsync_shows hu hd.queue hdirty hrec]
    exact Out.back_ret { hd with }
  · rw [vsync_bugs hu hd.queue hdirty]
    exact Out.back_bug

theorem vsync_not_calm (hc : ¬ VsyncCalm d) : decVsyncProcess d = .spin := by
  simp only [VsyncCalm, not_or, not_not] at hc
  exact vsync_spins hc.2.2 hd.queue hc.1 hc.2.1 hd.recycled

theorem refresh_calm (hc : RefreshCalm d) : (decFrameQueueRefresh d).Back (Locked false false) := by
  have hb : Locked true false (begun d) := ⟨rfl, hd.ready, hd.counter, hd.recycled⟩
  rw [refresh_eq hd.queue]
  refine Out.Back.bind (Q := Locked true false) ?_ fun _ => triple_of_path (K := calmKind) .unlockQueue rfl
  by_cases hdirty : d.q.dirty = 0
  · rw [refreshLocked_eq (d := begun d) hd.counter hdirty]
    split
    · exact steady_of_path .running _ hb
    by_cases h5 : d.m.state = 5
    · have hrec : d.m.recycleFifo.items = [] := by
        by_contra hne
        exact hc ⟨h5, hdirty, hne⟩
      obtain ⟨q, hq, hcounter, -⟩ := stopping_five_any (d := begun d) h5
      rw [hq, recycle_empty (by exact hrec)]
      exact Out.back_ret ⟨rfl, hd.ready, hcounter.trans hd.counter, hd.recycled⟩
    · obtain ⟨f, hf, hstop⟩ := Path.stopping (K := calmKind) (c := 4) (a := true) (b := false)
      rw [hf]
      exact steady_of_path (hstop (begun d) fun _ => h5) _ hb
  · have heq : refreshLocked (begun d) = .ret () (begun d) := by
      simp [refreshLocked, begun, hdirty]
    rw [heq]
    exact Out.back_ret hb

theorem refresh_not_calm (hc : ¬ RefreshCalm d) : decFrameQueueRefresh d = .spin := by
  obtain ⟨h5, hdirty, hrec⟩ := not_not.mp hc
  have hstate : d.m.state ≠ 1 := by simp [h5]
  have hlocked : refreshLocked (begun d) = refreshStopping (begun d) :=
    (refreshLocked_eq (d := begun d) hd.counter hdirty).trans (if_neg hstate)
  exact refresh_spins hd.queue (hlocked.trans (stopping_five_spins rfl h5 hrec hd.recycled))

end

end

/-- The calls that take no lock they hold. -/
def Calm (s : Sys) : Op → Prop
  | .vsync => VsyncCalm s.dev
  | .refresh => RefreshCalm s.dev
  | _ => True

variable {s : Sys}

theorem calm_step {op : Op} (hd : Locked false false s.dev) (hc : Calm s op) :
    (step s op).Back fun s' => Locked false false s'.dev := by
  cases op with
  | enqueue payload alloc =>
    exact (steady_of_path (.enqueueFrame rfl payload alloc) _ hd).bind fun _ _ h => Out.back_ret h
  | enqueueInterlace top bottom allocTop allocBottom =>
    exact (steady_of_path (.enqueueInterlace rfl top bottom allocTop allocBottom) _ hd).bind
      fun _ _ h => Out.back_ret h
  | setStreamType type => exact (steady_of_path (.setStreamType rfl type) _ hd).bind fun _ _ h => Out.back_ret h
  | resume => exact (steady_of_path (.resume rfl) _ hd).bind fun _ _ h => Out.back_ret h
  | stop =>
    have hstop := (steady_of_path .stop _ hd).2 () _ rfl
    exact Out.back_ret hstop
  | stopped => exact (steady_of_path (.free rfl) _ hd).bind fun _ _ h => Out.back_ret h
  | timeout => exact Out.back_ret hd
  | vsync => exact (vsync_calm hd hc).bind fun _ _ h => Out.back_ret h
  | refresh => exact (refresh_calm hd hc).bind fun _ _ h => Out.back_ret h
  | work => exact (steady_of_path (.work s.worker) _ hd).bind fun _ _ h => Out.back_ret h

theorem not_calm_step {op : Op} (hd : Locked false false s.dev) (hc : ¬ Calm s op) : step s op = .spin := by
  cases op with
  | vsync => simp only [step, vsync_not_calm hd hc, Out.bind]
  | refresh => simp only [step, refresh_not_calm hd hc, Out.bind]
  | _ => exact absurd trivial hc

theorem start_locked (size : Nat) : Locked false false (start size).dev :=
  ⟨rfl, rfl, rfl, by simp [start, decFrameManagerInit]⟩

theorem locked_of_run {size : Nat} {ops : List Op} {ok : Sys → Op → Prop} (h : Run step ok (start size) ops s) :
    Locked false false s.dev := by
  refine h.inv (I := fun s => Locked false false s.dev) (fun s op r s' hd _ hs => ?_) (start_locked size)
  by_cases hc : Calm s op
  · exact (calm_step hd hc).2 r s' hs
  · rw [not_calm_step hd hc] at hs
    cases hs

/-- In every state that can be reached: a call comes back from its locks if and only if the recycle FIFO does not
get in its way. -/
theorem locks_taken_once_iff {size : Nat} {ops : List Op} (h : Run step Enabled (start size) ops s) (op : Op) :
    step s op ≠ .spin ↔ Calm s op := by
  have hd := locked_of_run h
  refine ⟨fun hs => ?_, fun hc => (calm_step hd hc).1⟩
  by_contra hc
  exact hs (not_calm_step hd hc)

def pairTwice : List Op :=
  [.setStreamType 1, .enqueueInterlace ⟨false⟩ ⟨false⟩ true true, .resume,
    .enqueueInterlace ⟨false⟩ ⟨false⟩ true true, .resume]

theorem locks_taken_once_paired : ∃ s, Run step Enabled (start 8) pairTwice s ∧
    Enabled s .work ∧ step s .work ≠ .spin ∧ ¬ Calm s .vsync := by
  refine Run.exists_of_exec_imp
    (P := fun s => Enabled s .work ∧ step s .vsync = .spin) (by decide +kernel) fun s hs hend => ?_
  obtain ⟨hwork, hspin⟩ := hend
  refine ⟨hwork, (locks_taken_once_iff hs .work).mpr trivial, fun hc => ?_⟩
  exact (locks_taken_once_iff hs .vsync).mpr hc hspin

theorem vsync_deadlocks : ∃ s, Run step Enabled (start 8) pairTwice s ∧ Enabled s .vsync ∧ step s .vsync = .spin :=
  Run.exists_of_exec (by decide +kernel)

end H713.Decd
