import H713.Channel.Pool

/-!
# Channel.Deliver

Calls of low priority: `Comm_Add2NewCallFifo` stages an incoming call and `Comm_GetCallbyChannel` takes the next
call of a channel. The two look at different words of a slot, and nothing sets those they look at.
-/

namespace H713.Channel

open Bytes Fifo Function Socket

structure Line where
  pool : Words
  cmdFifo : Fifo
  mem : Nat → Nat
  entry : Nat → Buf

namespace Line

def target (e : Buf) : Nat := queryId (rd e 2 2) (rd e 16 4)

def semUp (p : Words) (k : Nat) : Words := update p k ((p k + 1) % 2 ^ 32)

def signal (s : Line) (e : Buf) : Out Line Unit :=
  match commQueryChannel s.pool (target e) with
  | none => .ret () s
  | some i =>
    -- the u16 at byte 2 is the upper half of the channel's id
    if s.pool (slotAt i) / 2 ^ 16 % 2 ^ 16 ≠ rd e 0 2 then .bug
    else if s.pool (slotAt i + 2) ≠ rd e 16 4 then .bug
    else if s.pool (slotAt i + 3) ≠ target e then .bug
    else .ret () { s with pool := semUp s.pool (slotAt i + 4) }

def commAdd2NewCallFifo (s : Line) (callEntry : Nat) : Out Line Unit :=
  let wrSlot := fifoGetItemWr s.cmdFifo
  if wrSlot = 0 then .bug
  else if (fifoRequestItemWr s.cmdFifo).1 = 0 then .bug
  else
    let e := s.entry callEntry
    let e := wr e 10 2 (rd e 10 2 ||| 0x10)
    let s := { s with
      mem := update s.mem wrSlot callEntry
      cmdFifo := (fifoRequestItemWr s.cmdFifo).2
      entry := update s.entry callEntry e }
    s.signal e

def commGetCallbyChannel (s : Line) (channelId : Nat) : Nat × Line :=
  match commQueryChannel s.pool channelId with
  | none => (0, s)
  | some i =>
    let cmdFifo := fifoAt s.pool (slotAt i + 8)
    let item := fifoGetItemRd cmdFifo
    if item = 0 then (0, s)
    else (s.mem item, { s with pool := setFifo s.pool (slotAt i + 8) (fifoItemRdNext cmdFifo).2 })

def incoming (s : Line) (callEntry : Nat) (e : Buf) : Out Line Unit :=
  commAdd2NewCallFifo { s with entry := update s.entry callEntry e } callEntry

def start (a : Nat) (f : Fifo) (mem : Nat → Nat) (entry : Nat → Buf) : Line :=
  ⟨initial a, f, mem, entry⟩

inductive Op where
  | add (compId cpu : Nat)
  | remove (compId cpu : Nat)
  | call (callEntry : Nat) (e : Buf)
  | read (channelId : Nat)

def step (s : Line) : Op → Out Line Unit
  | .add c u => .ret () { s with pool := (commAddNewChannel s.pool c u).2 }
  | .remove c u => .ret () { s with pool := (commRemoveChannel s.pool c u).2 }
  | .call a e => s.incoming a e
  | .read id => .ret () (s.commGetCallbyChannel id).2

inductive Use where
  | call (callEntry : Nat) (e : Buf)
  | read

def Raised (id : Nat) (s s' : Line) : Prop :=
  ∃ i, commQueryChannel s.pool id = some i ∧
    s'.pool (slotAt i + 4) = (s.pool (slotAt i + 4) + 1) % 2 ^ 32

/-- With the calls `q` unread, a call made while there are fewer than 20 of them returns, raises the
semaphore and is unread then, and a read takes the oldest one. -/
def Delivers (id : Nat) : Line → List Nat → List Use → Prop
  | _, _, [] => True
  | s, q, .call a e :: us =>
    q.length < 20 →
      ∃ s', s.incoming a e = .ret () s' ∧ Raised id s s' ∧ Delivers id s' (q ++ [a]) us
  | s, q, .read :: us =>
    ∃ s', s.commGetCallbyChannel id = (q.headD 0, s') ∧ Delivers id s' q.tail us

def Blank (p : Words) : Prop := ∀ i, p (slotAt i + 2) = 0 ∧ p (slotAt i + 3) = 0

theorem Blank.initial (a : Nat) : Blank (initial a) := fun i =>
  ⟨initial_slot a i (by decide) (by decide) (by decide),
    initial_slot a i (by decide) (by decide) (by decide)⟩

variable {p : Words} {e : Buf} {a i : Nat}

section

variable (h : Blank p)

include h

theorem Blank.set {k : Nat} (hk : ∀ i, slotAt i + 2 ≠ k ∧ slotAt i + 3 ≠ k) (v : Nat) : Blank (update p k v) := by
  intro i
  obtain ⟨h2, h3⟩ := hk i
  rw [update_of_ne h2, update_of_ne h3]
  exact h i

theorem Blank.update_slot (j : Nat) {k : Nat} (hk : k < 11) (h2 : 2 ≠ k) (h3 : 3 ≠ k) (v : Nat) :
    Blank (update p (slotAt j + k) v) :=
  h.set (fun _ => ⟨slotAt_add_ne (by decide) hk h2, slotAt_add_ne (by decide) hk h3⟩) v

theorem Blank.update_count (v : Nat) : Blank (update p 0 v) :=
  h.set (fun i => ⟨by simp only [slotAt]; omega, by simp only [slotAt]; omega⟩) v

theorem Blank.clear (k n : Nat) : Blank (Socket.clear p k n) := by
  intro i
  obtain ⟨h2, h3⟩ := h i
  simp [Socket.clear, h2, h3]

theorem Blank.add (c u : Nat) : Blank (commAddNewChannel p c u).2 := by
  rw [commAddNewChannel]
  split
  · exact ((h.update_slot _ (k := 0) (by decide) (by decide) (by decide) _).update_slot _ (k := 1)
      (by decide) (by decide) (by decide) _).update_count _
  · exact h

theorem Blank.remove (c u : Nat) : Blank (commRemoveChannel p c u).2 := by
  rw [commRemoveChannel]
  split
  · exact (h.clear _ _).update_count _
  · exact h

theorem Blank.getItemRd (i : Nat) : fifoGetItemRd (fifoAt p (slotAt i + 8)) = 0 := by
  obtain ⟨h2, h3⟩ := h (i + 1)
  have hs : slotAt i + 8 + 5 = slotAt (i + 1) + 2 ∧ slotAt i + 8 + 6 = slotAt (i + 1) + 3 := by
    simp only [slotAt, channelSlotDwords]
    omega
  simp [fifoGetItemRd, itemAddr, fifoAt, ptr64, hs, h2, h3]

end

variable {s s' : Line}

theorem read_blank (h : Blank s.pool) (id : Nat) : s.commGetCallbyChannel id = (0, s) := by
  rw [commGetCallbyChannel]
  split
  · rfl
  · simp only [h.getItemRd, if_pos]

theorem signal_blank (h : Blank s.pool) (hs : s.signal e = .ret () s') : Blank s'.pool := by
  simp only [signal] at hs
  split at hs
  · cases hs
    exact h
  split at hs
  · cases hs
  split at hs
  · cases hs
  split at hs
  · cases hs
  · cases hs
    exact h.update_slot _ (by decide) (by decide) (by decide) _

theorem target_flag (e : Buf) (v : Nat) : target (wr e 10 2 v) = target e := by
  simp (disch := omega) only [target, rd_wr_of_disjoint]

theorem incoming_cases (s : Line) (a : Nat) (e : Buf) :
    s.incoming a e = .bug ∨ ∃ (s₁ : Line) (e₁ : Buf), s₁.pool = s.pool ∧ target e₁ = target e ∧
      s.incoming a e = s₁.signal e₁ := by
  simp only [incoming, commAdd2NewCallFifo, update_self]
  split
  · exact .inl rfl
  split
  · exact .inl rfl
  · refine .inr ⟨_, _, ?_, ?_, rfl⟩
    · rfl
    · exact target_flag ..

theorem incoming_blank (h : Blank s.pool) (hs : s.incoming a e = .ret () s') : Blank s'.pool := by
  rcases incoming_cases s a e with hb | ⟨s₁, e₁, hp, -, heq⟩
  · rw [hb] at hs
    cases hs
  · rw [heq] at hs
    exact signal_blank (hp ▸ h) hs

theorem step_blank {op : Op} {r : Unit} (h : Blank s.pool) (hs : step s op = .ret r s') : Blank s'.pool := by
  cases op with
  | add c u =>
    cases hs
    exact h.add c u
  | remove c u =>
    cases hs
    exact h.remove c u
  | call a e => exact incoming_blank h hs
  | read id =>
    simp only [step, read_blank h] at hs
    cases hs
    exact h

theorem run_blank {f : Fifo} {mem : Nat → Nat} {entry : Nat → Buf} {ops : List Op}
    (hr : Run step (fun _ _ => True) (start a f mem entry) ops s) : Blank s.pool :=
  hr.inv (I := fun s => Blank s.pool) (fun _ _ _ _ h _ hs => step_blank h hs) (.initial a)

section

variable (h : Blank s.pool) (hq : commQueryChannel s.pool (target e) = some i) (h0 : target e ≠ 0)

include h hq h0

theorem signal_bug : s.signal e = .bug := by
  simp only [signal, hq, (h i).2]
  split
  · rfl
  split
  · rfl
  · rw [if_pos h0.symm]

theorem incoming_bug : s.incoming a e = .bug := by
  rcases incoming_cases s a e with hb | ⟨s₁, e₁, hp, ht, heq⟩
  · exact hb
  · rw [heq]
    exact signal_bug (hp ▸ h) (by rw [hp, ht]; exact hq) (ht ▸ h0)

end

theorem query_added {p' : Words} {c u : Nat} (h : commAddNewChannel p c u = (0, p')) :
    ∃ i, commQueryChannel p' (channelId c u) = some i := by
  cases hf : Slots.first channelSlotCount (slotId p) 0 with
  | none =>
    rw [commAddNewChannel_none _ _ hf] at h
    simp [eNoMem] at h
  | some j =>
    obtain ⟨p₁, hp, hid, -⟩ := commAddNewChannel_some c u hf
    cases h.symm.trans hp
    refine Option.ne_none_iff_exists'.mp fun hn => ?_
    have hj := Slots.first_none.mp hn j (Slots.first_some hf).1
    rw [hid, update_self] at hj
    exact hj rfl

theorem delivers_iff_of_blank {id : Nat} (h : Blank s.pool) (hq : commQueryChannel s.pool id = some i) (h0 : id ≠ 0)
    (us : List Use) (hus : ∀ a e, Use.call a e ∈ us → target e = id) :
    Delivers id s [] us ↔ ∀ u ∈ us, u = .read := by
  induction us with
  | nil => simp [Delivers]
  | cons u us ih =>
    have ih := ih fun a e hm => hus a e (List.mem_cons_of_mem _ hm)
    cases u with
    | call a e =>
      obtain rfl := hus a e (List.mem_cons_self ..)
      simp [Delivers, incoming_bug h hq h0]
    | read =>
      simp only [Delivers, read_blank h, List.headD_nil, List.tail_nil, Prod.mk.injEq, true_and,
        exists_eq_left', ih, List.forall_mem_cons]

/-- Whatever the history, on a channel that has just been added a call stops the kernel, unless the channel's id is
the 0 of a free slot; and under no id does a read after a call return that call. -/
theorem never_delivered {a : Nat} {f : Fifo} {mem : Nat → Nat} {entry : Nat → Buf} {ops : List Op}
    (hr : Run step (fun _ _ => True) (start a f mem entry) ops s) {c u : Nat} {p : Words}
    (hadd : commAddNewChannel s.pool c u = (0, p)) :
    (channelId c u ≠ 0 → ∀ us : List Use, (∀ k e, Use.call k e ∈ us → target e = channelId c u) →
      (Delivers (channelId c u) { s with pool := p } [] us ↔ ∀ v ∈ us, v = .read)) ∧
    ∀ k e, k ≠ 0 → target e = channelId c u →
      ¬ Delivers (channelId c u) { s with pool := p } [] [.call k e, .read] := by
  have hb : Blank p := by
    have h := (run_blank hr).add c u
    rwa [hadd] at h
  obtain ⟨i, hq⟩ := query_added hadd
  refine ⟨fun h0 us hus => delivers_iff_of_blank hb hq h0 us hus, fun k e hk _ h => ?_⟩
  obtain ⟨s₁, hi, -, s₂, hread, -⟩ := h (by decide)
  have hb₁ : Blank s₁.pool := incoming_blank hb hi
  rw [read_blank hb₁] at hread
  cases hread
  exact hk rfl

def callOne : Buf := wr (wr (fun _ => 0) 2 2 1) 16 4 1

def lineOne : Line :=
  ⟨(commAddNewChannel (initial 0) 1 1).2, ⟨0, 0, 0, 1, 21, 4, 0x1000⟩, fun _ => 0, fun _ _ => 0⟩

theorem never_delivered_one : ¬ Delivers (channelId 1 1) lineOne [] [.call 0x2000 callOne, .read] :=
  have hadd : commAddNewChannel (initial 0) 1 1 = (0, lineOne.pool) :=
    Prod.ext (by decide +kernel) rfl
  (never_delivered (s := start 0 lineOne.cmdFifo lineOne.mem lineOne.entry) .nil hadd).2 0x2000 callOne
    (by decide) (by decide +kernel)

theorem first_call_bug : commQueryChannel lineOne.pool (target callOne) = some 0 ∧
      lineOne.incoming 0x2000 callOne = .bug := by
  decide +kernel

end Line

end H713.Channel
