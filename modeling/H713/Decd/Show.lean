import H713.Decd.Release

/-!
# Decd.Show

Which frames of a stream come to the display slots, in which order, and after how many runs of the tasklet.
`Watched` adds what an observer of the ready list and of the slots would write down.
-/

namespace H713.Decd

open RefCount M H713.Decd.Core

structure Watched where
  sys : Sys
  enqueued : List Nat
  shown : List Nat

namespace Watched

def start (size : Nat) : Watched := ⟨Decd.start size, [], []⟩

def newFrame (before after : Ptr) : List Nat :=
  if before = after then [] else
    match after with
    | .frame k => [k]
    | _ => []

def putIn (s : Sys) (r : Int) : Op → List Nat
  | .enqueue _ _ => if r = 0 then [s.dev.heap.next] else []
  | _ => []

def after (w : Watched) (op : Op) (r : Int) (s' : Sys) : Watched :=
  ⟨s', w.enqueued ++ putIn w.sys r op, w.shown ++ newFrame (w.sys.dev.q.slots 0) (s'.dev.q.slots 0)⟩

def step (w : Watched) (op : Op) : Out Watched Int := (Decd.step w.sys op).bind fun r s => .ret r (w.after op r s)

def Ok (w : Watched) (op : Op) : Prop := Progressive w.sys op
deriving Decidable

def ready (w : Watched) : List Nat := w.sys.dev.m.readyList

def rounds (ops : List Op) : Nat := ops.countP Op.isRefresh

structure Inv (w : Watched) : Prop where
  stream : Stream true w.sys
  order : w.enqueued = w.shown ++ w.ready
  nodup : w.enqueued.Nodup
  bound : ∀ k ∈ w.enqueued, k < w.sys.dev.heap.next
  slot : w.sys.dev.q.slots 0 = .null ∨ ∃ k ∈ w.shown, w.sys.dev.q.slots 0 = .frame k
  fresh : w.sys.dev.m.state = 0 → w.sys.dev.m.forceInterlace = 0

variable {w w' : Watched}

theorem newFrame_same (p : Ptr) : newFrame p p = [] := if_pos rfl

theorem newFrame_ready (h : Inv w) {k : Nat} {rest : List Nat} (hready : w.ready = k :: rest) :
    newFrame (w.sys.dev.q.slots 0) (.frame k) = [k] := by
  refine if_neg fun heq => ?_
  rcases h.slot with hnull | ⟨j, hj, hslot⟩
  · rw [hnull] at heq
    cases heq
  · rw [hslot] at heq
    cases heq
    have hnodup := h.nodup
    rw [h.order, hready] at hnodup
    exact (List.disjoint_of_nodup_append hnodup) hj List.mem_cons_self

theorem videoFramePut_next {p : Ptr} {d : Dev} {heap : Heap VideoFrame} {log : List (Nat × List Ptr)}
    (h : videoFramePut p d = .ret () { d with heap := heap, released := log }) : heap.next = d.heap.next := by
  cases p with
  | null =>
    injection h with _ heq
    exact congrArg (fun d => d.heap.next) heq.symm
  | one => cases h
  | frame k =>
    by_cases hl : d.heap.Live k
    · obtain ⟨log', hlog⟩ := videoFramePut_live hl
      rw [hlog] at h
      injection h with _ heq
      exact congrArg (fun d => d.heap.next) heq.symm
    · have hnone := Heap.put_of_not_live hl
      simp [videoFramePut, hnone] at h

theorem work_same {d d' : Dev} {v v' : Worker} (h : Worked d v v' d') :
    d'.m = d.m ∧ d'.q.slots = d.q.slots ∧ d'.heap.next = d.heap.next := by
  cases h with
  | gave heap log hput => exact ⟨rfl, rfl, videoFramePut_next hput⟩
  | _ => exact ⟨rfl, rfl, rfl⟩

def force (w : Watched) : UInt32 := w.sys.dev.m.forceInterlace

inductive Moves (w : Watched) (op : Op) (w' : Watched) : Prop where
  | put (k : Nat) (hop : op.isRefresh = false) (henq : w'.enqueued = w.enqueued ++ [k]) (hshown : w'.shown = w.shown)
      (hready : w'.ready = w.ready ++ [k]) (hforce : w'.force = w.force)
  | keep (hop : op.isRefresh = false ∨ w.force ≠ 0) (henq : w'.enqueued = w.enqueued) (hshown : w'.shown = w.shown)
      (hready : w'.ready = w.ready) (hforce : w'.force = w.force)
  | take (k : Nat) (hforce : w.force = 0) (henq : w'.enqueued = w.enqueued) (hshown : w'.shown = w.shown ++ [k])
      (hready : w.ready = k :: w'.ready) (hforce' : w'.force = 0)
  | empty (hforce : w.force = 0) (hnone : w.ready = []) (henq : w'.enqueued = w.enqueued)
      (hshown : w'.shown = w.shown) (hready : w'.ready = [])

variable {op : Op} {ops : List Op} {f : Nat}

theorem Moves.order (h : Moves w op w') (hw : w.enqueued = w.shown ++ w.ready) :
    w'.enqueued = w'.shown ++ w'.ready := by
  cases h with
  | put k _ henq hshown hready => rw [henq, hshown, hready, hw, List.append_assoc]
  | keep _ henq hshown hready => rw [henq, hshown, hready, hw]
  | take k _ henq hshown hready => rw [henq, hshown, hw, hready, List.append_assoc, List.singleton_append]
  | empty _ hnone henq hshown hready => rw [henq, hshown, hready, hw, hnone]

section

variable {op : Op} {r : Int} {s' : Sys}

theorem moves_of_streamed (h : Inv w) (hcase : Streamed w.sys op r s') : Moves w op (w.after op r s') := by
  have hsame : ∀ {p}, p = w.sys.dev.q.slots 0 → w.shown ++ newFrame (w.sys.dev.q.slots 0) p = w.shown := by
    rintro p rfl
    rw [newFrame_same, List.append_nil]
  cases hcase with
  | enqueue => exact .put w.sys.dev.heap.next rfl rfl (hsame rfl) rfl rfl
  | noMemory | resume | clean | display => exact .keep (.inl rfl) (List.append_nil _) (hsame rfl) rfl rfl
  | first h0 hready =>
    have hforce := h.fresh h0
    refine .take _ hforce (List.append_nil _) ?_ hready hforce
    exact congrArg (w.shown ++ ·) (newFrame_ready h hready)
  | stuck _ hforce => exact .keep (.inr hforce) (List.append_nil _) (hsame rfl) rfl rfl
  | next _ hforce hready =>
    refine .take _ hforce (List.append_nil _) ?_ hready rfl
    exact congrArg (w.shown ++ ·) (newFrame_ready h hready)
  | again _ hforce hready => exact .empty hforce hready (List.append_nil _) (hsame rfl) hready
  | work hw =>
    obtain ⟨hm, hslots, -⟩ := work_same hw
    exact .keep (.inl rfl) (List.append_nil _) (hsame (congrFun hslots 0)) (congrArg DecFrameManager.readyList hm)
      (congrArg DecFrameManager.forceInterlace hm)

theorem putIn_cases (hcase : Streamed w.sys op r s') :
    (putIn w.sys r op = [] ∧ s'.dev.heap.next = w.sys.dev.heap.next) ∨
      (putIn w.sys r op = [w.sys.dev.heap.next] ∧ s'.dev.heap.next = w.sys.dev.heap.next + 1) := by
  cases hcase with
  | enqueue => exact .inr ⟨rfl, rfl⟩
  | again _ _ _ heap hheap =>
    refine .inl ⟨rfl, ?_⟩
    rcases hheap with rfl | ⟨k, rfl⟩
    · rfl
    · rfl
  | work hw => exact .inl ⟨rfl, (work_same hw).2.2⟩
  | _ => exact .inl ⟨rfl, rfl⟩

theorem slot_cases (hcase : Streamed w.sys op r s') : s'.dev.q.slots 0 = w.sys.dev.q.slots 0 ∨
    ∃ k rest, w.ready = k :: rest ∧ s'.dev.q.slots 0 = .frame k := by
  cases hcase with
  | first _ hready | next _ _ hready => exact .inr ⟨_, _, hready, rfl⟩
  | work hw => exact .inl (congrFun (work_same hw).2.1 0)
  | _ => exact .inl rfl

theorem fresh_step (h : Inv w) (hcase : Streamed w.sys op r s') (h0 : s'.dev.m.state = 0) :
    s'.dev.m.forceInterlace = 0 := by
  cases hcase with
  | first => exact absurd h0 (by simp [begunWith, resumedFrames])
  | next hruns | again hruns =>
    have := hruns.2.1.symm.trans h0
    contradiction
  | work hw =>
    rw [(work_same hw).1] at h0 ⊢
    exact h.fresh h0
  | _ => exact h.fresh h0

theorem Inv.next (h : Inv w) (hok : w.Ok op) :
    ∃ r w', w.step op = .ret r w' ∧ Streamed w.sys op r w'.sys ∧ Moves w op w' ∧ Inv w' := by
  obtain ⟨r, s', heq, hcase, hstream⟩ := h.stream.step_stream hok (.inl rfl)
  have hmoves := moves_of_streamed h hcase
  refine ⟨r, w.after op r s', Out.bind_of_ret heq _, hcase, hmoves, hstream, hmoves.order h.order, ?_, ?_, ?_,
    fresh_step h hcase⟩
  · show (w.enqueued ++ putIn w.sys r op).Nodup
    rcases putIn_cases hcase with ⟨hput, -⟩ | ⟨hput, -⟩
    · rw [hput, List.append_nil]
      exact h.nodup
    · rw [hput, List.nodup_append_comm]
      refine List.nodup_cons.mpr ⟨fun hmem => ?_, h.nodup⟩
      exact Nat.lt_irrefl _ (h.bound _ hmem)
  · intro k (hk : k ∈ w.enqueued ++ putIn w.sys r op)
    show k < s'.dev.heap.next
    rcases putIn_cases hcase with ⟨hput, hnext⟩ | ⟨hput, hnext⟩
    · rw [hput, List.append_nil] at hk
      rw [hnext]
      exact h.bound k hk
    · rw [hput, List.mem_append, List.mem_singleton] at hk
      rcases hk with hk | rfl
      · have := h.bound k hk
        omega
      · omega
  · show s'.dev.q.slots 0 = .null ∨
      ∃ k ∈ w.shown ++ newFrame (w.sys.dev.q.slots 0) (s'.dev.q.slots 0), s'.dev.q.slots 0 = .frame k
    rcases slot_cases hcase with hsame | ⟨k, rest, hready, hslot⟩
    · rw [hsame, newFrame_same, List.append_nil]
      exact h.slot
    · rw [hslot, newFrame_ready h hready]
      exact .inr ⟨k, by simp, rfl⟩

end

theorem start_inv (size : Nat) : Inv (start size) where
  stream := start_stream size
  order := rfl
  nodup := List.nodup_nil
  bound := by simp [start]
  slot := .inl rfl
  fresh := fun _ => rfl

theorem Inv.step_ret (h : Inv w) (hok : w.Ok op) {r : Int} (hs : w.step op = .ret r w') :
    Streamed w.sys op r w'.sys ∧ Moves w op w' ∧ Inv w' := by
  obtain ⟨r', w'', heq, hrest⟩ := h.next hok
  rw [hs] at heq
  cases heq
  exact hrest

theorem inv_of_run (hr : Run step Ok w ops w') (h : Inv w) : Inv w' :=
  hr.inv (I := Inv) (fun _ _ _ _ hw hok hs => (hw.step_ret hok hs).2.2) h

theorem Moves.shown_mono (h : Moves w op w') (hf : f ∈ w.shown) : f ∈ w'.shown := by
  cases h with
  | put _ _ _ hshown | keep _ _ hshown | empty _ _ _ hshown => rwa [hshown]
  | take _ _ _ hshown =>
    rw [hshown]
    exact List.mem_append_left _ hf

section

variable (hr : Run step Ok w ops w') (h : Inv w)

include hr h

theorem shown_of_run (hf : f ∈ w.shown) : f ∈ w'.shown := by
  induction hr with
  | nil => exact hf
  | cons hok hs _ ih =>
    obtain ⟨-, hmoves, hinv⟩ := h.step_ret hok hs
    exact ih hinv (hmoves.shown_mono hf)

theorem shown_of_rounds (hforce : w.force = 0) {pre post : List Nat} (hready : w.ready = pre ++ f :: post)
    (hrounds : pre.length < rounds ops) : f ∈ w'.shown := by
  induction hr generalizing pre post with
  | nil => exact absurd hrounds (Nat.not_lt_zero _)
  | cons hok hs hrest ih =>
    obtain ⟨-, hmoves, hinv⟩ := h.step_ret hok hs
    simp only [rounds, List.countP_cons] at hrounds
    cases hmoves with
    | put k hop henq hshown hready' hforce' =>
      rw [hop] at hrounds
      exact ih hinv (hforce'.trans hforce) (by rw [hready', hready, List.append_assoc]; rfl) hrounds
    | keep hop henq hshown hready' hforce' =>
      rw [hop.resolve_right (not_not.mpr hforce)] at hrounds
      exact ih hinv (hforce'.trans hforce) (hready'.trans hready) hrounds
    | take k _ henq hshown hready' hforce' =>
      rw [hready'] at hready
      cases pre with
      | nil =>
        injection hready with hk
        refine shown_of_run hrest hinv ?_
        rw [hshown, hk]
        exact List.mem_append_right _ List.mem_cons_self
      | cons j pre =>
        injection hready with _ hready
        refine ih hinv hforce' hready ?_
        simp only [List.length_cons] at hrounds
        unfold rounds
        split at hrounds <;> omega
    | empty _ hnone =>
      rw [hnone] at hready
      cases pre <;> cases hready

theorem stuck_of_run (hforce : w.force ≠ 0) : w'.shown = w.shown := by
  induction hr with
  | nil => rfl
  | cons hok hs _ ih =>
    obtain ⟨-, hmoves, hinv⟩ := h.step_ret hok hs
    cases hmoves with
    | put _ _ _ hshown _ hforce' | keep _ _ hshown _ hforce' =>
      exact (ih hinv (by rwa [hforce'])).trans hshown
    | take _ hzero | empty hzero => exact absurd hzero hforce

end

theorem not_shown (h : Inv w) (hf : f ∈ w.ready) : f ∉ w.shown := by
  intro hs
  have hnodup := h.nodup
  rw [h.order] at hnodup
  exact List.disjoint_of_nodup_append hnodup hs hf

theorem rounds_exist (h : Inv w) (h1 : w.sys.dev.m.state = 1) (n : Nat) :
    ∃ ops w', Run step Ok w ops w' ∧ rounds ops = n := by
  induction n generalizing w with
  | zero => exact ⟨[], w, .nil, rfl⟩
  | succ n ih =>
    obtain ⟨r, v, hs, hcase, -, hv⟩ := h.next (show w.Ok .vsync from ⟨trivial, rfl⟩)
    have hticked : v.sys.dev.m = ticked w.sys.dev.m := by
      generalize v.sys = s at hcase
      cases hcase <;> rfl
    have hsched : v.Ok .refresh := by
      refine ⟨?_, rfl⟩
      show v.sys.dev.m.refreshScheduled = true
      simp only [hticked, ticked, h1, Bool.or_eq_true]
      exact .inr (by decide)
    obtain ⟨r', u, hs', hcase', -, hu⟩ := hv.next hsched
    have hstate : u.sys.dev.m.state = 1 := by
      have hv1 : v.sys.dev.m.state = 1 := (congrArg DecFrameManager.state hticked).trans h1
      generalize u.sys = s at hcase'
      cases hcase' <;> exact hv1
    obtain ⟨ops, w', hr, hrounds⟩ := ih hu hstate
    refine ⟨.vsync :: .refresh :: ops, w', .cons ⟨trivial, rfl⟩ hs (.cons hsched hs' hr), ?_⟩
    simpa [rounds, List.countP_cons, Op.isRefresh] using hrounds

theorem rounds_exist_waiting (h : Inv w) (hready : w.ready ≠ []) (n : Nat) :
    ∃ ops w', Run step Ok w ops w' ∧ rounds ops = n := by
  rcases h.stream.plain.state with h0 | h1
  · have hok : w.Ok .resume := ⟨h.stream.plain.waits h0 hready, rfl⟩
    obtain ⟨r, v, hs, hcase, -, hv⟩ := h.next hok
    have hv1 : v.sys.dev.m.state = 1 := by
      generalize v.sys = s at hcase
      cases hcase with
      | resume hor => exact hor.resolve_right hready
      | first => rfl
    obtain ⟨ops, w', hr, hrounds⟩ := rounds_exist hv hv1 n
    refine ⟨.resume :: ops, w', .cons hok hs hr, ?_⟩
    simpa [rounds, Op.isRefresh] using hrounds
  · exact rounds_exist h h1 n

/-- Frame `f` is in the slots after a bounded number of rounds. -/
def Displayed (w : Watched) (f : Nat) : Prop :=
  ∃ n, ∀ ops w', Run step Ok w ops w' → n ≤ rounds ops → f ∈ w'.shown

/-- In every state of a stream the frames have come to the slots in order, and the frames that wait get to the slots
if and only if no tasklet has found the ready list empty. -/
theorem displayed_iff {size : Nat} {ops : List Op} (hr : Run step Ok (start size) ops w) :
    w.enqueued = w.shown ++ w.sys.dev.m.readyList ∧
      ∀ f ∈ w.sys.dev.m.readyList, (∀ n, ∃ ops' w', Run step Ok w ops' w' ∧ rounds ops' = n) ∧
        (Displayed w f ↔ w.sys.dev.m.forceInterlace = 0) := by
  have h := inv_of_run hr (start_inv size)
  refine ⟨h.order, fun f hf => ?_⟩
  have hrounds := rounds_exist_waiting h (List.ne_nil_of_mem hf)
  refine ⟨hrounds, fun ⟨n, hn⟩ => ?_, fun hforce => ?_⟩
  · by_contra hforce
    obtain ⟨ops', w', hr', hn'⟩ := hrounds n
    have hshown := hn ops' w' hr' (Nat.le_of_eq hn'.symm)
    rw [stuck_of_run hr' h hforce] at hshown
    exact not_shown h hf hshown
  · obtain ⟨pre, post, hready⟩ := List.append_of_mem hf
    exact ⟨pre.length + 1, fun ops' w' hr' hle => shown_of_rounds hr' h hforce hready hle⟩

def twoWaiting : List Op := [.enqueue ⟨false⟩ true, .resume, .enqueue ⟨false⟩ true, .resume]

theorem displayed_second : ∃ w, Run step Ok (start 8) twoWaiting w ∧ w.shown = [0] ∧ Displayed w 1 := by
  refine Run.exists_of_exec_imp
    (P := fun w => w.shown = [0] ∧ 1 ∈ w.sys.dev.m.readyList ∧ w.sys.dev.m.forceInterlace = 0)
    (by decide +kernel) fun w hw hend => ?_
  obtain ⟨hshown, hready, hforce⟩ := hend
  exact ⟨hshown, (((displayed_iff hw).2 1 hready).2).mpr hforce⟩

def lateSecond : List Op :=
  [.enqueue ⟨false⟩ true, .resume, .vsync, .refresh, .enqueue ⟨false⟩ true, .resume]

theorem late_frame_never_shown : ∃ w, Run step Ok (start 8) lateSecond w ∧ 1 ∈ w.ready ∧
    (∀ n, ∃ ops w', Run step Ok w ops w' ∧ rounds ops = n) ∧ ∀ ops w', Run step Ok w ops w' → 1 ∉ w'.shown := by
  refine Run.exists_of_exec_imp (P := fun w => 1 ∈ w.ready ∧ w.force ≠ 0) (by decide +kernel) fun w hw hend => ?_
  obtain ⟨hready, hforce⟩ := hend
  have h := inv_of_run hw (start_inv 8)
  refine ⟨hready, rounds_exist_waiting h (List.ne_nil_of_mem hready), fun ops w' hr hmem => ?_⟩
  rw [stuck_of_run hr h hforce] at hmem
  exact not_shown h hready hmem

end Watched

end H713.Decd
