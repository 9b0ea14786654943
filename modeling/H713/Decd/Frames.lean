import Mathlib.Data.List.Nodup
import H713.Lib.Triple
import H713.Decd.Path

/-!
# Decd.Frames

The frame manager as its client sees it: frames come in with a callback, and the manager calls each callback once,
when the last reference to its frame is put.
-/

namespace H713.Decd

open RefCount M

def Dev.Armed (d : Dev) (k : Nat) : Prop := ∃ vf, d.heap.obj? k = some vf ∧ vf.release

def Dev.calls (d : Dev) : List Nat := d.released.map Prod.fst

structure Drops (typed : Bool) (d d' : Dev) : Prop where
  next : d'.heap.next = d.heap.next
  type : typed → d'.m.type = d.m.type
  log : ∃ ks, d'.calls = d.calls ++ ks ∧ ks.Nodup ∧
    (∀ k, d.Armed k ↔ d'.Armed k ∨ k ∈ ks) ∧ ∀ k ∈ ks, ¬ d'.Armed k

namespace Drops

variable {b : Bool} {d d' d'' : Dev}

theorem of_obj (hnext : d'.heap.next = d.heap.next) (htype : b → d'.m.type = d.m.type)
    (hobj : d'.heap.obj? = d.heap.obj?) (hlog : d'.released = d.released) : Drops b d d' := by
  refine ⟨hnext, htype, [], ?_, .nil, fun k => ?_, fun k hk => ?_⟩
  · rw [Dev.calls, Dev.calls, hlog, List.append_nil]
  · simp [Dev.Armed, hobj]
  · cases hk

theorem refl (d : Dev) : Drops b d d := of_obj rfl (fun _ => rfl) rfl rfl

theorem trans (h : Drops b d d') (h' : Drops b d' d'') : Drops b d d'' := by
  obtain ⟨ks, hlog, hnd, harmed, hdead⟩ := h.log
  obtain ⟨ks', hlog', hnd', harmed', hdead'⟩ := h'.log
  refine ⟨h'.next.trans h.next, fun ht => (h'.type ht).trans (h.type ht), ks ++ ks', ?_, ?_, fun k => ?_, ?_⟩
  · rw [hlog', hlog, List.append_assoc]
  · -- what the first part called was not armed for the second
    refine List.Nodup.append hnd hnd' fun k hk hk' => ?_
    exact hdead k hk ((harmed' k).mpr (.inr hk'))
  · rw [harmed k, harmed' k, List.mem_append]
    tauto
  · intro k hk harm
    rcases List.mem_append.mp hk with hk | hk
    · exact hdead k hk ((harmed' k).mpr (.inl harm))
    · exact hdead' k hk harm

theorem of_last {k : Nat} {vf : VideoFrame} (hnext : d'.heap.next = d.heap.next)
    (htype : b → d'.m.type = d.m.type) (hlog : d'.released = logRelease d k vf)
    (hobj : d.heap.obj? k = some vf) (hgone : d'.heap.obj? k = none)
    (hrest : ∀ j ≠ k, d'.heap.obj? j = d.heap.obj? j) : Drops b d d' := by
  have hdead : ¬ d'.Armed k := by
    rintro ⟨w, hw, -⟩
    cases hgone.symm.trans hw
  have hsame : ∀ j ≠ k, (d.Armed j ↔ d'.Armed j) := fun j hj => by simp [Dev.Armed, hrest j hj]
  cases hr : vf.release with
  | true =>
    refine ⟨hnext, htype, [k], ?_, List.nodup_singleton k, fun j => ?_, fun j hj => ?_⟩
    · simp [Dev.calls, hlog, logRelease, hr]
    · by_cases hj : j = k
      · subst hj
        have : d.Armed j := ⟨vf, hobj, hr⟩
        simp [this]
      · simpa [hj] using hsame j hj
    · rwa [List.mem_singleton.mp hj]
  | false =>
    refine ⟨hnext, htype, [], ?_, .nil, fun j => ?_, fun j hj => ?_⟩
    · simp [Dev.calls, hlog, logRelease, hr]
    · by_cases hj : j = k
      · subst hj
        have : ¬ d.Armed j := by
          rintro ⟨w, hw, hrel⟩
          cases hobj.symm.trans hw
          cases hr.symm.trans hrel
        simp [this, hdead]
      · simpa using hsame j hj
    · cases hj

end Drops

def Dropping {α : Type} (b : Bool) (x : M α) : Prop := Moves (Drops b) x

def Counted (b : Bool) (c : UInt32) (d d' : Dev) : Prop :=
  d.q.shutdownCounter = c → Drops b d d' ∧ d'.q.shutdownCounter = c

section

variable {α : Type} {b : Bool} {c : UInt32} {d d' d'' : Dev} {x : M α}

theorem Counted.trans (h : Counted b c d d') (h' : Counted b c d' d'') : Counted b c d d'' :=
  fun hc => ⟨(h hc).1.trans (h' (h hc).2).1, (h' (h hc).2).2⟩

theorem Counted.of_heap (hheap : d'.heap = d.heap) (hlog : d'.released = d.released)
    (htype : b → d'.m.type = d.m.type) (hq : d.q.shutdownCounter = c → d'.q.shutdownCounter = c) :
    Counted b c d d' :=
  fun hc => ⟨.of_obj (by rw [hheap]) htype (by rw [hheap]) hlog, hq hc⟩

theorem counted_lockQueue : Moves (Counted b c) lockQueue := by
  intro d v t ht
  unfold lockQueue at ht
  split at ht
  · cases ht
  · cases ht
    exact .of_heap rfl rfl (fun _ => rfl) id

theorem counted_lockReady : Moves (Counted b c) lockReady := by
  intro d v t ht
  unfold lockReady at ht
  split at ht
  · cases ht
  · cases ht
    exact .of_heap rfl rfl (fun _ => rfl) id

theorem counted_modify {f : Dev → Dev} (hf : ∀ d, Counted b c d (f d)) : Moves (Counted b c) (modify f) :=
  Moves.ret (fun _ => ⟨(), rfl⟩) hf

theorem counted_bind {β : Type} {f : α → M β} (hx : Moves (Counted b c) x) (hf : ∀ v, Moves (Counted b c) (f v)) :
    Moves (Counted b c) (x >>= f) := Moves.bind (fun h h' => h.trans h') hx hf

theorem counted_recycle : Moves (Counted b c) decFrameRecycle := by
  have hall (ps : List Ptr) : Moves (Counted b c) (recycleAll ps) := by
    induction ps with
    | nil => exact Moves.ret (fun _ => ⟨(), rfl⟩) fun d => .of_heap rfl rfl (fun _ => rfl) id
    | cons p ps ih =>
      refine counted_bind (counted_modify fun d => .of_heap rfl rfl (fun _ => rfl) id) fun _ => Moves.ite ?_ ih
      refine counted_bind counted_lockQueue fun _ => ?_
      refine counted_bind (counted_modify fun d => .of_heap rfl rfl (fun _ => rfl) id) fun _ => ?_
      exact counted_bind (counted_modify fun d => .of_heap rfl rfl (fun _ => rfl) id) fun _ => ih
  have hwork : Moves (Counted b c) queueWork := counted_modify fun d => .of_heap rfl rfl (fun _ => rfl) id
  exact fun d => counted_bind (hall d.m.recycleFifo.items) (fun _ => hwork) d

theorem counted_refcountInc (p : Ptr) : Moves (Counted b c) (refcountInc p) := by
  intro d v t ht
  cases p with
  | null | one => cases ht
  | frame k =>
    by_cases hl : d.heap.Live k
    · cases (refcountInc_live hl).symm.trans ht
      exact fun hc => ⟨.of_obj rfl (fun _ => rfl) (funext fun j => Heap.obj?_incr _ k j) rfl, hc⟩
    · have hbug : refcountInc (.frame k) d = .bug := by
        simp only [refcountInc, Ptr.frame?, Option.bind_some, Heap.inc, if_neg hl]
      cases hbug.symm.trans ht

theorem counted_put (p : Ptr) : Moves (Counted b c) (videoFramePut p) := by
  intro d v t ht
  cases p with
  | null =>
    cases ht
    exact fun hc => ⟨.refl d, hc⟩
  | one => cases ht
  | frame k =>
    simp only [videoFramePut] at ht
    split at ht
    · cases ht
    · rename_i heap hput
      cases ht
      obtain ⟨rfl, -, ⟨-, -, hobj⟩ | ⟨hne, -⟩⟩ := Heap.put_eq_some hput
      · exact fun hc => ⟨.of_obj rfl (fun _ => rfl) hobj rfl, hc⟩
      · exact absurd rfl hne
    · rename_i heap vf hput
      cases ht
      obtain ⟨rfl, -, ⟨hnone, -⟩ | ⟨-, -, hobj, hgone⟩⟩ := Heap.put_eq_some hput
      · cases hnone
      · exact fun hc => ⟨.of_last rfl (fun _ => rfl) rfl hobj hgone fun j hj => Heap.obj?_decr_of_ne _ hj, hc⟩

theorem counted_of_path {K : Kind} {q r q' r' : Bool} (h : Path K c q r x q' r') (hK : K.creates = false) :
    Moves (Counted K.typed c) x := by
  induction h with
  | reads h =>
    intro d v t ht
    rcases h d with hbug | ⟨w, hw⟩
    · cases hbug.symm.trans ht
    · cases hw.symm.trans ht
      exact fun hc => ⟨.refl d, hc⟩
  | bind _ _ ihx ihf => exact counted_bind ihx ihf
  | get _ ih => exact fun d v t ht hc => ih d hc d v t ht hc
  | ite _ _ ihx ihy =>
    split
    · exact ihx ‹_›
    · exact ihy ‹_›
  | modifyQ hf => exact counted_modify fun d => .of_heap rfl rfl (fun _ => rfl) (hf d.q)
  | modifyM _ ht => exact counted_modify fun d => .of_heap rfl rfl (ht d.m) id
  | modify hf =>
    refine counted_modify fun d => ?_
    rw [hf d]
    exact .of_heap rfl rfl (fun _ => rfl) id
  | lockQueue => exact counted_lockQueue
  | lockReady => exact counted_lockReady
  | unlockQueue | unlockReady => exact counted_modify fun d => .of_heap rfl rfl (fun _ => rfl) id
  | refcountInc p => exact counted_refcountInc p
  | put p => exact counted_put p
  | create h | setPayload h => cases hK.symm.trans h
  | recycle => exact counted_recycle

theorem drop_of_path (h : ∀ c, Path ⟨b, true, false⟩ c false false x false false) : Dropping b x :=
  fun d v t ht => (counted_of_path (h _) rfl d v t ht rfl).1

end

/-- The frames `ks` are new and armed, nothing is called. -/
structure Arms (ks : List Nat) (d d' : Dev) : Prop where
  next : d.heap.next ≤ d'.heap.next
  fresh : ∀ k ∈ ks, d.heap.next ≤ k ∧ k < d'.heap.next
  calls : d'.calls = d.calls
  armed : ∀ k, d'.Armed k ↔ d.Armed k ∨ k ∈ ks

def Dev.Unborn (d : Dev) : Prop := ∀ k, d.heap.next ≤ k → ¬ d.Armed k

section

variable {d d' : Dev} {r : Int}

theorem arms_none (hfresh : d.Unborn) (hnext : d.heap.next ≤ d'.heap.next) (hlog : d'.released = d.released)
    (hobj : ∀ k < d.heap.next, d'.heap.obj? k = d.heap.obj? k)
    (hnew : ∀ k, d.heap.next ≤ k → ¬ d'.Armed k) : Arms [] d d' := by
  refine ⟨hnext, ?_, ?_, fun k => ?_⟩
  · intro k hk
    cases hk
  · simp only [Dev.calls, hlog]
  · by_cases hk : k < d.heap.next
    · simp [Dev.Armed, hobj k hk]
    · simp [hfresh k (by omega), hnew k (by omega)]

theorem armed_created {heap : Heap VideoFrame} {k : Nat} {vf : VideoFrame} {payload : Item}
    (hheap : d'.heap = (heap.alloc vf).modify heap.next
      fun w => { w with payload := some payload, release := true }) :
    d'.Armed k ↔ k = heap.next ∨ ∃ w, heap.obj? k = some w ∧ w.release := by
  by_cases hk : k = heap.next
  · subst hk
    simp [Dev.Armed, hheap, Heap.obj?_modify, Heap.obj?_alloc]
  · simp [Dev.Armed, hheap, Heap.obj?_modify, Heap.obj?_alloc, hk]

theorem armed_pair {k : Nat} {vf vf' : VideoFrame} {top bottom : Item}
    (hheap : d'.heap = (((d.heap.alloc vf).alloc vf').modify d.heap.next fun w =>
        { w with payload := some top, release := true }).modify (d.heap.next + 1) fun w =>
        { w with payload := some bottom, release := true }) :
    d'.Armed k ↔ d.Armed k ∨ k ∈ [d.heap.next, d.heap.next + 1] := by
  by_cases h0 : k = d.heap.next
  · subst h0
    simp [Dev.Armed, hheap, Heap.obj?_modify, Heap.obj?_alloc]
  by_cases h1 : k = d.heap.next + 1
  · subst h1
    simp [Dev.Armed, hheap, Heap.obj?_modify, Heap.obj?_alloc]
  · simp [Dev.Armed, hheap, Heap.obj?_modify, Heap.obj?_alloc, h0, h1]

theorem listAdd_ret {k : Nat} (h : (do lockReady; listAddTail k; unlockReady; return (0 : Int)) d = .ret r d') :
    r = 0 ∧ d'.heap = d.heap ∧ d'.released = d.released := by
  by_cases hlock : d.readyLock
  · simp only [bind_apply, lockReady, hlock, if_true] at h
    cases h
  · simp only [bind_apply, lockReady, hlock, Bool.false_eq_true, if_false, bind_ret, listAddTail, get_apply] at h
    simp only [touch] at h
    split at h
    · cases h
      exact ⟨rfl, rfl, rfl⟩
    · cases h

theorem setPair_ret (top bottom : Ptr)
    (h : (do lockReady; modifyM fun m => setPair m top bottom; unlockReady; queueWork; return (0 : Int)) d =
      .ret r d') : r = 0 ∧ d'.heap = d.heap ∧ d'.released = d.released := by
  by_cases hlock : d.readyLock
  · simp only [bind_apply, lockReady, hlock, if_true] at h
    cases h
  · simp only [bind_apply, lockReady, hlock, Bool.false_eq_true, if_false, bind_ret] at h
    cases h
    exact ⟨rfl, rfl, rfl⟩

theorem enqueueFrame_arms {payload : Item} {alloc : Bool} (hfresh : d.Unborn)
    (h : decFrameManagerEnqueueFrame payload alloc d = .ret r d') :
    r = (if alloc then 0 else -12) ∧ Arms (if alloc then [d.heap.next] else []) d d' := by
  cases alloc with
  | false =>
    cases h
    exact ⟨rfl, arms_none hfresh (Nat.le_refl _) rfl (fun _ _ => rfl) hfresh⟩
  | true =>
    obtain ⟨hr, hheap, hlog⟩ := listAdd_ret (k := d.heap.next) h
    refine ⟨hr, ?_, ?_, ?_, fun k => ?_⟩
    · rw [hheap]
      exact Nat.le_succ _
    · rintro k hk
      rw [List.mem_singleton.mp hk, hheap]
      exact ⟨Nat.le_refl _, Nat.lt_succ_self _⟩
    · simp only [Dev.calls, hlog]
    · rw [armed_created hheap, if_pos rfl, List.mem_singleton]
      exact or_comm

theorem create_put {e : Dev} (heap : Heap VideoFrame) {seqnum : UInt32}
    (he : e.heap = heap.alloc ⟨seqnum, none, false⟩) :
    videoFramePut (.frame heap.next) e = .ret () { e with heap := e.heap.decr heap.next } := by
  have hput : e.heap.put heap.next = some (e.heap.decr heap.next, some ⟨seqnum, none, false⟩) := by
    simp [he, Heap.put, Heap.alloc]
  simp only [videoFramePut, hput, logRelease, Bool.false_eq_true, if_false]

theorem arms_put {seqnum : UInt32} (hfresh : d.Unborn) (hlog : d'.released = d.released)
    (hheap : d'.heap = (d.heap.alloc ⟨seqnum, none, false⟩).decr d.heap.next) : Arms [] d d' := by
  have hgone : d'.heap.obj? d.heap.next = none := by
    simp [hheap, Heap.decr, Heap.alloc, Heap.obj?]
  have hrest : ∀ k ≠ d.heap.next, d'.heap.obj? k = d.heap.obj? k := by
    intro k hk
    rw [hheap, Heap.obj?_decr_of_ne _ hk, Heap.obj?_alloc, if_neg hk]
  refine arms_none hfresh ?_ hlog (fun k hk => hrest k (by omega)) ?_
  · rw [hheap]
    exact Nat.le_succ _
  · rintro k hk ⟨vf, hvf, hrel⟩
    by_cases hkn : k = d.heap.next
    · rw [hkn, hgone] at hvf
      cases hvf
    · exact hfresh k hk ⟨vf, (hrest k hkn) ▸ hvf, hrel⟩

theorem enqueueInterlace_arms {top bottom : Item} {allocTop allocBottom : Bool} (hfresh : d.Unborn)
    (htype : d.m.type = 1)
    (h : decFrameManagerEnqueueInterlaceFrame top bottom allocTop allocBottom d = .ret r d') :
    r = (if allocTop && allocBottom then 0 else -12) ∧
      Arms (if allocTop && allocBottom then [d.heap.next, d.heap.next + 1] else []) d d' := by
  simp only [decFrameManagerEnqueueInterlaceFrame, bind_apply, get_apply, bind_ret, htype, ne_eq, not_true,
    if_false] at h
  obtain ⟨p, d₁, hp, h⟩ := Out.bind_eq_ret h
  obtain ⟨q, d₂, hq, h⟩ := Out.bind_eq_ret h
  cases hp
  cases hq
  cases allocTop with
  | false =>
    obtain ⟨_, e, he, h⟩ := Out.bind_eq_ret h
    cases he
    obtain ⟨_, e, he, h⟩ := Out.bind_eq_ret h
    cases h
    cases allocBottom with
    | false =>
      cases he
      exact ⟨rfl, arms_none hfresh (Nat.le_refl _) rfl (fun _ _ => rfl) hfresh⟩
    | true =>
      cases (create_put d.heap rfl).symm.trans he
      exact ⟨rfl, arms_put hfresh rfl rfl⟩
  | true =>
    cases allocBottom with
    | false =>
      obtain ⟨_, e, he, h⟩ := Out.bind_eq_ret h
      cases (create_put d.heap rfl).symm.trans he
      cases h
      exact ⟨rfl, arms_put hfresh rfl rfl⟩
    | true =>
      obtain ⟨hr, hheap, hlog⟩ := setPair_ret (.frame d.heap.next) (.frame (d.heap.next + 1)) h
      refine ⟨hr, ?_, ?_, ?_, fun k => ?_⟩
      · rw [hheap]
        exact Nat.le_add_right _ 2
      · intro k hk
        have hk' : k = d.heap.next ∨ k = d.heap.next + 1 := by simpa using hk
        have hnext : d'.heap.next = d.heap.next + 2 := by rw [hheap]; rfl
        omega
      · simp only [Dev.calls, hlog]
      · exact armed_pair hheap

end

end H713.Decd
