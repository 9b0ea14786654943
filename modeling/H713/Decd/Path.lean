import H713.Decd.Refs

/-!
# Decd.Path

What the code of the driver is put together from, one path for each function of the source, with the locks that are
held before and behind it.
-/

namespace H713.Decd

open M

theorem repeatCtrl_kept (q : DecFrameQueue) (enable : UInt32) :
    (decFrameQueueHardwareRepeatCtrl q enable).2.shutdownCounter = q.shutdownCounter ∧
      (decFrameQueueHardwareRepeatCtrl q enable).2.slots = q.slots := by
  simp only [decFrameQueueHardwareRepeatCtrl]
  split
  · exact ⟨rfl, rfl⟩
  · exact ⟨rfl, rfl⟩

def DecFrameManager.Recycled (m : DecFrameManager) : Prop := ∀ p ∈ m.recycleFifo.items, p ≠ .null

theorem setPair_recycled {m : DecFrameManager} {p r : Ptr} (h : m.Recycled) : (setPair m p r).Recycled := by
  intro q hq
  simp only [setPair] at hq
  have := h q
  grind [mem_push]

/-- What the code may do on its way. -/
structure Kind where
  typed : Bool
  recycles : Bool
  creates : Bool

inductive Path (K : Kind) (c : UInt32) : {α : Type} → Bool → Bool → M α → Bool → Bool → Prop where
  | reads {α : Type} {a b : Bool} {x : M α} (h : ∀ d, x d = .bug ∨ ∃ v, x d = .ret v d) : Path K c a b x a b
  | bind {α β : Type} {a b a' b' a'' b'' : Bool} {x : M α} {f : α → M β} (hx : Path K c a b x a' b')
      (hf : ∀ v, Path K c a' b' (f v) a'' b'') : Path K c a b (x >>= f) a'' b''
  | get {β : Type} {a b a' b' : Bool} {f : Dev → M β}
      (hf : ∀ d, d.q.shutdownCounter = c → Path K c a b (f d) a' b') : Path K c a b (M.get >>= f) a' b'
  | ite {α : Type} {a b a' b' : Bool} {p : Prop} [Decidable p] {x y : M α} (hx : p → Path K c a b x a' b')
      (hy : ¬ p → Path K c a b y a' b') : Path K c a b (if p then x else y) a' b'
  | modifyQ {a b : Bool} {f : DecFrameQueue → DecFrameQueue}
      (hf : ∀ q, q.shutdownCounter = c → (f q).shutdownCounter = c) : Path K c a b (modifyQ f) a b
  | modifyM {a b : Bool} {f : DecFrameManager → DecFrameManager} (hf : ∀ m, m.Recycled → (f m).Recycled)
      (ht : ∀ m, K.typed → (f m).type = m.type) : Path K c a b (modifyM f) a b
  | modify {a b : Bool} {f : Dev → Dev}
      (hf : ∀ d, f d = { d with lastFrame := (f d).lastFrame, work := (f d).work }) :
      Path K c a b (modify f) a b
  | lockQueue {b : Bool} : Path K c false b lockQueue true b
  | unlockQueue {b : Bool} : Path K c true b unlockQueue false b
  | lockReady {a : Bool} : Path K c a false lockReady a true
  | unlockReady {a : Bool} : Path K c a true unlockReady a false
  | refcountInc {a b : Bool} (p : Ptr) : Path K c a b (refcountInc p) a b
  | put {a b : Bool} (p : Ptr) : Path K c a b (videoFramePut p) a b
  | create {a b : Bool} (h : K.creates) (alloc : Bool) : Path K c a b (decCreateVideoFrame alloc) a b
  | setPayload {a b : Bool} (h : K.creates) (k : Nat) (payload : Item) : Path K c a b (setPayload k payload) a b
  | recycle {a b : Bool} (h : K.recycles) : Path K c a b decFrameRecycle a b

namespace Path

variable {K : Kind} {c : UInt32} {a b : Bool} {α : Type}

theorem pure (v : α) : Path K c a b (Pure.pure v) a b := .reads fun _ => .inr ⟨v, rfl⟩

theorem setQ {f : DecFrameQueue → DecFrameQueue} (hf : ∀ q, (f q).shutdownCounter = q.shutdownCounter) :
    Path K c a b (M.modifyQ f) a b := .modifyQ fun q h => (hf q).trans h

theorem setM {f : DecFrameManager → DecFrameManager}
    (hf : ∀ m, (f m).recycleFifo = m.recycleFifo ∧ (f m).type = m.type) : Path K c a b (M.modifyM f) a b := by
  refine .modifyM (fun m h => ?_) fun m _ => (hf m).2
  rwa [DecFrameManager.Recycled, (hf m).1]

theorem touch (ks : List Nat) : Path K c a b (touch ks) a b := by
  refine .reads fun d => ?_
  by_cases h : ∀ k ∈ ks, d.heap.Live k
  · exact .inr ⟨(), if_pos h⟩
  · exact .inl (if_neg h)

theorem deref (p : Ptr) : Path K c a b (deref p) a b := by
  refine .reads fun d => ?_
  simp only [Decd.deref]
  split
  · exact .inr ⟨_, rfl⟩
  · exact .inl rfl

theorem enqueue (p : Ptr) : Path K c a b (decFrameQueueEnqueue p) a b := by
  refine .get fun d _ => .ite (fun _ => pure _) fun _ => .ite (fun _ => pure _) fun _ => ?_
  refine .bind (setQ fun _ => rfl) fun _ => .bind (setQ fun _ => rfl) fun _ => ?_
  exact .bind (.refcountInc p) fun _ => .bind (setQ fun _ => rfl) fun _ => pure _

theorem pop : Path K c a false decFramePop a false := by
  have hready : Path K c a true popReady a true := by
    refine .get fun d _ => .ite (fun _ => ?_) fun _ => ?_
    · exact .bind (.refcountInc _) fun _ => .bind (setQ fun _ => rfl) fun _ => pure _
    · cases d.m.readyList with
      | nil => exact pure _
      | cons k rest => exact .bind (touch _) fun _ => .bind (setM fun _ => ⟨rfl, rfl⟩) fun _ => pure _
  exact .bind .lockReady fun _ => .bind hready fun _ => .bind .unlockReady fun _ => pure _

theorem «repeat» : Path K c a b decFrameQueueRepeat a b := by
  refine .get fun d _ => .ite (fun _ => ?_) fun _ => ?_
  · refine .bind (setQ fun _ => rfl) fun _ => .ite (fun _ => setQ fun q => ?_) fun _ => ?_
    · have hcounter := (repeatCtrl_kept { q with toggle := 1 } 1).1
      dsimp only
      split
      · exact hcounter
      · exact hcounter
    · refine .bind (setQ fun _ => rfl) fun _ => .ite (fun _ => ?_) fun _ => setQ fun _ => rfl
      exact .bind (.refcountInc _) fun _ => setQ fun _ => rfl
  · refine .bind (setQ fun _ => rfl) fun _ => .bind (setQ fun _ => rfl) fun _ => ?_
    refine .ite (fun _ => ?_) fun _ => setQ fun _ => rfl
    exact .bind (.refcountInc _) fun _ => setQ fun _ => rfl

theorem setStreamType (ht : K.typed = false) (type : UInt32) :
    Path K c a false (decFrameManagerSetStreamType type) a false := by
  refine .bind .lockReady fun _ => .bind (.modifyM (fun _ h => h) fun m hm => ?_) fun _ => .unlockReady
  cases ht.symm.trans hm

theorem resumeWith (ht : K.typed = false) (p : Ptr) : Path K c a false (resumeWith p) a false := by
  refine .bind (setQ fun _ => rfl) fun _ => .bind (.refcountInc p) fun _ => .bind (deref p) fun vf => ?_
  have hend : Path K c a false (do
      M.modifyQ fun q => { q with interlaceHold := .one, dirty := 1, softRepeatCount := 0, repeatBudget := 1 }
      M.modifyM fun m => { m with state := 1 }) a false :=
    .bind (setQ fun _ => rfl) fun _ => setM fun _ => ⟨rfl, rfl⟩
  refine .ite (fun _ => ?_) fun _ => .get fun d _ => .ite (fun _ => ?_) fun _ => ?_
  · exact .bind (setStreamType ht 1) fun _ => .bind (setQ fun _ => rfl) fun _ => hend
  · refine .bind (setStreamType ht 1) fun _ => .bind (setQ fun _ => rfl) fun _ => ?_
    exact .bind (.put p) fun _ => hend
  · refine .bind (setQ fun _ => rfl) fun _ => .bind (setStreamType ht 0) fun _ => ?_
    exact .bind (.put p) fun _ => hend

theorem resume (ht : K.typed = false) : Path K c false false decFrameQueueResume false false := by
  refine .get fun d _ => .ite (fun _ => .ite (fun _ => setM fun _ => ⟨rfl, rfl⟩) fun _ => pure _) fun _ => ?_
  have hlocked : Path K c true false resumeLocked true false := by
    refine .bind (.get fun d _ => .ite (fun _ => ?_) fun _ => pure _) fun _ =>
      .bind pop fun p => .ite (fun _ => resumeWith ht p) fun _ => pure _
    exact .bind (.put _) fun _ => .modify fun _ => rfl
  refine .bind .lockQueue fun _ => .ite (fun _ => ?_) fun _ => .unlockQueue
  exact .bind hlocked fun _ => .unlockQueue

theorem putAll (ks : List Nat) : Path K c a b (putAll ks) a b := by
  induction ks with
  | nil => exact pure _
  | cons k ks ih => exact .bind (.put _) fun _ => ih

theorem free (ht : K.typed = false) : Path K c a false decFrameManagerFree a false := by
  refine .bind .lockReady fun _ => .get fun d _ => .bind (.modifyM (fun _ h => h) fun m hm => ?_) fun _ => ?_
  · cases ht.symm.trans hm
  refine .bind .unlockReady fun _ => .bind (putAll _) fun _ => .bind (.put _) fun _ => ?_
  exact .bind (.put _) fun _ => setM fun _ => ⟨rfl, rfl⟩

theorem readSlots (ps : List Ptr) : Path K c a b (readSlots ps) a b := by
  induction ps with
  | nil => exact pure _
  | cons p ps ih => exact .ite (fun _ => .bind (deref p) fun _ => ih) fun _ => ih

theorem vsync (hr : K.recycles) : Path K c false b decVsyncProcess false b := by
  have hsync : Path K c true b decFrameQueueSync true b :=
    .bind (setQ fun _ => rfl) fun _ => .get fun d _ => .bind (readSlots _) fun _ => setQ fun _ => rfl
  have hend (state : UInt32) : Path K c true b (do
      Decd.unlockQueue
      M.modifyM fun m => { m with
        refreshScheduled := m.refreshScheduled || state &&& ~~~2 ≠ 0
        irqCount := m.irqCount + 1 }) false b :=
    .bind .unlockQueue fun _ => setM fun _ => ⟨rfl, rfl⟩
  refine .bind .lockQueue fun _ => .get fun d _ => .ite (fun _ => ?_) fun _ => hend _
  exact .bind hsync fun _ => .bind (.recycle hr) fun _ => hend _

theorem fields : Path K c a false refreshFields a false := by
  refine .get fun d hd => .ite (fun _ => ?_) fun _ => .bind (setQ fun _ => rfl) fun _ => .ite (fun _ => ?_) fun _ =>
    .ite (fun _ => ?_) fun _ => .ite (fun _ => ?_) fun _ => pure _
  · refine .bind (setQ fun _ => rfl) fun _ => .ite (fun _ => ?_) fun _ => pure _
    exact .bind (setQ fun _ => rfl) fun _ => .ite (fun _ => setQ fun _ => rfl) fun _ => pure _
  · refine .bind (setQ fun _ => rfl) fun _ => .bind (enqueue _) fun _ => ?_
    exact .bind (deref _) fun _ => pure _
  · -- the queue that is written was read at the beginning
    refine .bind (.modifyQ fun _ _ => (repeatCtrl_kept _ 1).1.trans hd) fun _ => ?_
    exact .ite (fun _ => setM fun _ => ⟨rfl, rfl⟩) fun _ => pure _
  · refine .bind pop fun _ => .bind (setQ fun _ => rfl) fun _ => .bind (setQ fun _ => rfl) fun _ => ?_
    exact .bind (setQ fun _ => rfl) fun _ => setM fun _ => ⟨rfl, rfl⟩

theorem takeBack (p : Ptr) : Path K c a false (takeBack p) a false := by
  refine .bind .lockReady fun _ => .get fun d _ => .ite (fun _ => ?_) fun _ => ?_
  · exact .bind (.put p) fun _ => .unlockReady
  · cases p with
    | null | one => exact .bind (.reads fun _ => .inl rfl) fun _ => .unlockReady
    | frame k => exact .bind (touch _) fun _ => .bind (setM fun _ => ⟨rfl, rfl⟩) fun _ => .unlockReady

theorem frame : Path K c a false refreshFrame a false := by
  refine .bind pop fun p => .ite (fun _ => ?_) fun _ => ?_
  · refine .bind (enqueue p) fun _ => .ite (fun _ => ?_) fun _ => ?_
    · exact .bind (takeBack p) fun _ => setM fun _ => ⟨rfl, rfl⟩
    · exact .bind (.put p) fun _ => setM fun _ => ⟨rfl, rfl⟩
  · exact .bind «repeat» fun _ => setM fun _ => ⟨rfl, rfl⟩

theorem pair : Path K c a false refreshPair a false := by
  refine .get fun d _ => .ite (fun _ => ?_) fun _ => pure _
  exact .bind (setQ fun _ => rfl) fun _ => .bind (enqueue _) fun _ => pure _

theorem running : Path K c a false refreshRunning a false :=
  .get fun _ _ => .ite (fun _ => fields) fun _ => .ite (fun _ => frame) fun _ => pair

theorem stopping : ∃ f, refreshStopping = M.get >>= f ∧
    ∀ d, (K.recycles = false → d.m.state ≠ 5) → Path K c a b (f d) a b := by
  refine ⟨_, rfl, fun d hd => .ite (fun _ => .ite (fun _ => ?_) fun _ => setM fun _ => ⟨rfl, rfl⟩) fun _ =>
    .ite (fun _ => ?_) fun _ => .ite (fun h5 => ?_) fun _ => pure _⟩
  · exact .bind (setM fun _ => ⟨rfl, rfl⟩) fun _ => setQ fun _ => rfl
  · refine .bind (setM fun _ => ⟨rfl, rfl⟩) fun _ => .bind (setQ fun _ => rfl) fun _ => ?_
    exact .bind (setQ fun _ => rfl) fun _ => setQ fun _ => rfl
  · have hr : K.recycles = true := by
      by_contra hne
      exact hd (Bool.eq_false_iff.mpr hne) h5
    refine .bind (setQ fun _ => rfl) fun _ => .bind (setQ fun q => ?_) fun _ => .bind (setQ fun _ => rfl) fun _ => ?_
    · split <;> rfl
    refine .bind (setM fun _ => ⟨rfl, rfl⟩) fun _ => ?_
    exact .bind (setQ fun q => (repeatCtrl_kept q 0).1) fun _ => .recycle hr

theorem refresh (hr : K.recycles) : Path K c false false decFrameQueueRefresh false false := by
  obtain ⟨f, hf, hstop⟩ := stopping (K := K) (c := c) (a := true) (b := false)
  have hstopping : Path K c true false refreshStopping true false := by
    rw [hf]
    exact .get fun d _ => hstop d fun hne => by cases hr.symm.trans hne
  have hlocked : Path K c true false refreshLocked true false :=
    .get fun d _ => .ite (fun _ => .ite (fun _ => running) fun _ => .ite (fun _ => «repeat») fun _ => hstopping)
      fun _ => pure _
  refine .bind (setM fun _ => ⟨rfl, rfl⟩) fun _ => .bind .lockQueue fun _ => ?_
  exact .bind hlocked fun _ => .unlockQueue

theorem work (w : Worker) : Path K c false b (decFrameReleaseProcess w) false b := by
  have hpop : Path K c false b popRelease false b :=
    .bind .lockQueue fun _ => .get fun _ _ => .bind (setQ fun _ => rfl) fun _ => .bind .unlockQueue fun _ => pure _
  cases w with
  | idle | last p => exact .bind (.modify fun _ => rfl) fun _ => pure _
  | loop =>
    refine .get fun d _ => .ite (fun _ => .bind hpop fun r => ?_) fun _ => .ite (fun _ => pure _) fun _ => pure _
    cases r <;> exact pure _
  | put p => exact .bind (.put p) fun _ => pure _
  | tail =>
    refine .bind hpop fun r => ?_
    cases r <;> exact pure _

theorem stop : Path K c a b decFrameManagerStop a b := by
  refine setM fun m => ?_
  split <;> exact ⟨rfl, rfl⟩

theorem enqueueFrame (hc : K.creates) (payload : Item) (alloc : Bool) :
    Path K c a false (decFrameManagerEnqueueFrame payload alloc) a false := by
  refine .bind (.create hc alloc) fun p => ?_
  cases p with
  | null | one => exact pure _
  | frame k =>
    have hadd : Path K c a true (listAddTail k) a true :=
      .get fun d _ => .bind (touch _) fun _ => setM fun _ => ⟨rfl, rfl⟩
    refine .bind (.setPayload hc k payload) fun _ => .bind .lockReady fun _ => ?_
    exact .bind hadd fun _ => .bind .unlockReady fun _ => pure _

theorem enqueueInterlace (hc : K.creates) (top bottom : Item) (allocTop allocBottom : Bool) :
    Path K c a false (decFrameManagerEnqueueInterlaceFrame top bottom allocTop allocBottom) a false := by
  refine .get fun d _ => .ite (fun _ => pure _) fun _ => ?_
  refine .bind (.create hc allocTop) fun p => .bind (.create hc allocBottom) fun r => ?_
  split
  · rename_i k j
    refine .bind (.setPayload hc k top) fun _ => .bind (.setPayload hc j bottom) fun _ => .bind .lockReady fun _ => ?_
    refine .bind (.modifyM (fun _ h => setPair_recycled h) fun _ _ => rfl) fun _ => .bind .unlockReady fun _ => ?_
    exact .bind (.modify fun _ => rfl) fun _ => pure _
  · exact .bind (.put p) fun _ => .bind (.put r) fun _ => pure _

end Path

end H713.Decd
