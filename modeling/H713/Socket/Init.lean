import Mathlib.Data.List.Nodup
import H713.Fifo.Words
import H713.Proto.Send

/-!
# Socket.Init

The socket of one CPU as an array of words: `InitCommSeqMem` with its hand-computed places. `a` is the low half of
the socket's address. The names that are stored for display and the two command rings are left out.
-/

namespace H713.Socket

open Function
open Fifo Circular

abbrev Words := Nat → Nat

def ptr (a k : Nat) : Nat := (a + 4 * k) % 2 ^ 32

def setAll (w : Words) : List (Nat × Nat) → Words
  | [] => w
  | (k, v) :: l => setAll (update w k v) l

def clear (w : Words) (k n : Nat) : Words := fun i => if k ≤ i ∧ i < k + n then 0 else w i

def initMsgFIFO (a k mode : Nat) (w : Words) : Words :=
  setAll w [(k + 12, w (k + 12) / 256 * 256), (k + 13, 0),
    (k + 14, ptr a (k + 14)), (k + 15, ptr a (k + 14)),
    (k + 16, 1), (k + 17, mode), (k + 18, ptr a (k + 18)), (k + 19, ptr a (k + 18))]

def fifoAt (w : Words) (k : Nat) : Fifo :=
  ⟨w k, w (k + 1), w (k + 2), w (k + 3), w (k + 4), w (k + 5), w (k + 6)⟩

def setFifo (w : Words) (k : Nat) (f : Fifo) : Words :=
  setAll w [(k, f.rd), (k + 1, f.wr), (k + 2, f.peak), (k + 3, f.track), (k + 4, f.cap),
    (k + 5, f.itemSize), (k + 6, f.base)]

def wordOf (a item : Nat) : Nat := (item - ptr64 a) / 4

def commitWait (a : Nat) (w : Words) (item v : Nat) : Words :=
  let w := update w (wordOf a item) v
  setFifo w 34 (fifoRequestItemWr (fifoAt w 34)).2

def initWait (a i : Nat) (w : Words) : Option Words :=
  let v11 := 79 + 8 * i
  let w := setAll w [(72 + 8 * i + 1, 2 ^ 32 - 1), (72 + 8 * i + 2, 0), (72 + 8 * i + 3, 0),
    (72 + 8 * i + 4, 0), (v11 - 4, 0), (v11 - 3, 0), (v11 - 2, ptr a (v11 - 2)),
    (v11 - 1, ptr a (v11 - 2)), (v11, ptr a v11), (v11 + 1, ptr a v11)]
  let itemWr := fifoGetItemWr (fifoAt w 34)
  if itemWr = 0 then none
  else some (commitWait a w itemWr (ptr a (v11 - 6)))

def initWaits (a : Nat) (w : Words) : Nat → Option Words
  | 0 => some w
  | i + 1 => (initWaits a w i).bind (initWait a i)

def initSendPart (a cpu : Nat) (w : Words) : Words :=
  let w := setAll w [(0, cpu), (2, 1), (3, 1), (4, ptr a 4), (5, ptr a 4), (6, 0), (7, 0),
    (8, ptr a 8), (9, ptr a 8)]
  let w := initMsgFIFO a 10 1 w
  let w := setAll w [(30, 0), (31, 1), (32, ptr a 32), (33, ptr a 32),
    (34, 0), (35, 0), (36, 0), (37, 1), (38, 21), (39, 4), (40, ptr a 52), (41, 0), (50, 0)]
  clear w 52 21

def initReturnPart (a : Nat) (w : Words) : Words :=
  let w := setAll w [(37, 0), (234, 0), (235, 1), (236, ptr a 236), (237, ptr a 236)]
  let w := setAll (clear w 238 21) [(248, 1), (259, 0), (260, 1), (261, ptr a 261), (262, ptr a 261),
    (263, 0), (264, 0), (265, ptr a 265), (266, ptr a 265)]
  let w := initMsgFIFO a 267 1 w
  let w := setAll w [(287, 0), (288, 1), (289, ptr a 289), (290, ptr a 289)]
  clear (clear w 238 21) 291 21

def initCommSeqMem (a cpu : Nat) (w : Words) : Option Words :=
  if 1 < cpu then some w
  else (initWaits a (initSendPart a cpu w) 20).map (initReturnPart a)

def getFreeWaitComm (a : Nat) (w : Words) : Option Nat × Words :=
  let item := fifoGetItemRd (fifoAt w 34)
  if item ≠ 0 then
    (some (w (wordOf a item)), setFifo w 34 (fifoItemRdNext (fifoAt w 34)).2)
  else (none, w)

def releaseWaitBody (a : Nat) (w : Words) (waitEntry : Nat) : Out Words Unit :=
  let wrSlot := fifoGetItemWr (fifoAt w 34)
  if wrSlot = 0 then .bug
  else .ret () (commitWait a w wrSlot waitEntry)

theorem setAll_of_notMem {w : Words} {l : List (Nat × Nat)} {k : Nat}
    (h : ∀ p ∈ l, p.1 ≠ k) : setAll w l k = w k := by
  induction l generalizing w with
  | nil => rfl
  | cons p l ih =>
    rw [setAll, ih fun q hq => h q (List.mem_cons_of_mem _ hq)]
    exact update_of_ne (h p (List.mem_cons_self ..)).symm ..

theorem clear_of_notMem {w : Words} {k n i : Nat} (h : i < k ∨ k + n ≤ i) : clear w k n i = w i := by
  simp only [clear]
  rw [if_neg (by omega)]

theorem fifoAt_setFifo (w : Words) (k : Nat) (f : Fifo) : fifoAt (setFifo w k f) k = f := by
  simp [fifoAt, setFifo, setAll, update]

theorem setFifo_of_notMem {w : Words} {k i : Nat} {f : Fifo} (h : i < k ∨ k + 7 ≤ i) : setFifo w k f i = w i := by
  refine setAll_of_notMem fun p hp => ?_
  simp only [List.mem_cons, List.not_mem_nil, or_false] at hp
  rcases hp with rfl | rfl | rfl | rfl | rfl | rfl | rfl <;> simp only <;> omega

/-- The socket does not cross a boundary of 4 GiB. -/
structure Low (a : Nat) : Prop where
  pos : 0 < a
  bound : a + 4992 ≤ 2 ^ 32

def waits (a : Nat) : List Nat := (List.range 20).map fun i => ptr a (73 + 8 * i)

section

variable {a : Nat} {w w' : Words} {q : List Nat} {x k : Nat}

theorem ptr_eq (ha : Low a) (hk : k < 1248) : ptr a k = a + 4 * k := by
  have := ha.bound
  exact Nat.mod_eq_of_lt (by omega)

theorem waits_nodup (ha : Low a) : (waits a).Nodup := by
  refine List.Nodup.map_on (fun i hi j hj h => ?_) List.nodup_range
  rw [List.mem_range] at hi hj
  rw [ptr_eq ha (by omega), ptr_eq ha (by omega)] at h
  omega

theorem ring_fits (ha : Low a) : Fits 4 21 (ptr a 52) := by
  have h1 := ha.bound
  have h2 := ha.pos
  rw [ptr_eq ha (by decide)]
  exact ⟨by decide, by decide, by omega, by omega, by decide⟩

theorem wordOf_slot (ha : Low a) (i : Nat) : wordOf a (slot 4 (ptr a 52) i) = 52 + i := by
  have h := ha.pos
  rw [ptr_eq ha (by decide)]
  simp only [wordOf, slot, ptr64]
  rw [if_neg (by omega)]
  omega

theorem ring_apart (ha : Low a) : SlotsApart 21 (ptr a 52) (wordOf a) := by
  intro i _ j _ h
  rw [wordOf_slot ha, wordOf_slot ha] at h
  omega

/-- The ring at `sock[34]` holds the words `q`. -/
def RingHolds (a : Nat) (w : Words) (q : List Nat) : Prop :=
  HoldsQueue 21 (ptr a 52) (wordOf a) (fifoAt w 34) w q

theorem fifoAt_congr (h : ∀ i, k ≤ i → i < k + 7 → w' i = w i) : fifoAt w' k = fifoAt w k := by
  simp (disch := omega) only [fifoAt, h]

section

variable (ha : Low a)

include ha

theorem RingHolds.congr (h : RingHolds a w q) (hc : ∀ i, 34 ≤ i → i < 41 → w' i = w i)
    (hs : ∀ i, 52 ≤ i → i < 73 → w' i = w i) : RingHolds a w' q := by
  rw [RingHolds, fifoAt_congr hc]
  refine HoldsQueue.congr h fun i hi => ?_
  rw [wordOf_slot ha]
  exact hs _ (by omega) (by omega)

theorem commitWait_frame {i : Nat} (hi : i < 21) (h1 : k < 34 ∨ 41 ≤ k) (h2 : k < 52 ∨ 73 ≤ k) :
    commitWait a w (slot 4 (ptr a 52) i) x k = w k := by
  rw [commitWait, setFifo_of_notMem (by omega), wordOf_slot ha]
  exact update_of_ne (by omega) ..

theorem RingHolds.commit (h : RingHolds a w q) (hq : q.length < 20) :
    fifoGetItemWr (fifoAt w 34) = slot 4 (ptr a 52) (fifoAt w 34).wr ∧ (fifoAt w 34).wr < 21 ∧
    RingHolds a (commitWait a w (slot 4 (ptr a 52) (fifoAt w 34).wr) x) (q ++ [x]) := by
  have hwr := h.getItemWr_room (ring_fits ha) hq
  have hlt : (fifoAt w 34).wr < 21 := h.shape.wr_lt
  refine ⟨hwr, hlt, ?_⟩
  have hput := HoldsQueue.requestItemWr (x := x) (ring_fits ha) (ring_apart ha) h hq
  -- the word goes to a slot, not to a control word
  have hf : fifoAt (update w (wordOf a (slot 4 (ptr a 52) (fifoAt w 34).wr)) x) 34 =
      fifoAt w 34 := by
    rw [wordOf_slot ha]
    exact fifoAt_congr fun i h1 h2 => update_of_ne (by omega) ..
  simp only [RingHolds, commitWait, hf, fifoAt_setFifo]
  refine HoldsQueue.congr hput fun i hi => ?_
  rw [wordOf_slot ha i, setFifo_of_notMem (by omega)]

theorem RingHolds.get_nil (h : RingHolds a w []) : getFreeWaitComm a w = (none, w) := by
  have hrd := HoldsQueue.getItemRd_nil (ring_fits ha) h
  simp only [getFreeWaitComm, hrd, ne_eq, not_true_eq_false, if_false]

theorem RingHolds.get_cons (h : RingHolds a w (x :: q)) :
    getFreeWaitComm a w = (some x, setFifo w 34 (fifoItemRdNext (fifoAt w 34)).2) ∧
    RingHolds a (setFifo w 34 (fifoItemRdNext (fifoAt w 34)).2) q := by
  obtain ⟨hrd, hword⟩ := HoldsQueue.getItemRd_cons (ring_fits ha) h
  refine ⟨?_, ?_⟩
  · simp only [getFreeWaitComm, hrd, ne_eq, slot_pos, not_false_eq_true, if_true, hword]
  · rw [RingHolds, fifoAt_setFifo]
    refine HoldsQueue.congr (HoldsQueue.itemRdNext (ring_fits ha) h) fun i hi => ?_
    rw [wordOf_slot ha, setFifo_of_notMem (by omega)]

theorem RingHolds.release_room (h : RingHolds a w q) (hq : q.length < 20) :
    ∃ w', releaseWaitBody a w x = .ret () w' ∧ RingHolds a w' (q ++ [x]) := by
  obtain ⟨hwr, -, hput⟩ := h.commit (x := x) ha hq
  refine ⟨_, ?_, hput⟩
  simp only [releaseWaitBody, hwr, if_neg (slot_pos _ _ _)]

end

theorem initSendPart_ring (cpu : Nat) : RingHolds a (initSendPart a cpu w) [] := by
  refine HoldsQueue.nil ⟨?_, ?_, ?_, ?_, ?_⟩ ?_ <;>
    simp [initSendPart, fifoAt, clear, setAll, update]

theorem initWait_ring (ha : Low a) {i : Nat} (hi : i < 20)
    (h : RingHolds a w ((List.range i).map fun i => ptr a (73 + 8 * i))) :
    ∃ w', initWait a i w = some w' ∧ RingHolds a w' ((List.range (i + 1)).map fun i => ptr a (73 + 8 * i)) ∧
      ∀ k, k < 34 ∨ 233 ≤ k → w' k = w k := by
  simp only [initWait]
  generalize hw₁ : setAll w _ = w₁
  have hframe : ∀ k, k < 73 ∨ 233 ≤ k → w₁ k = w k := by
    intro k hk
    subst hw₁
    refine setAll_of_notMem fun p hp => ?_
    simp only [List.mem_cons, List.not_mem_nil, or_false] at hp
    rcases hp with rfl | rfl | rfl | rfl | rfl | rfl | rfl | rfl | rfl | rfl <;> simp only <;> omega
  have h₁ : RingHolds a w₁ ((List.range i).map fun i => ptr a (73 + 8 * i)) :=
    h.congr ha (fun k _ _ => hframe k (by omega)) fun k _ _ => hframe k (by omega)
  obtain ⟨hwr, hlt, hput⟩ := h₁.commit (x := ptr a (79 + 8 * i - 6)) ha (by simpa using hi)
  simp only [hwr, if_neg (slot_pos _ _ _)]
  refine ⟨_, rfl, ?_, fun k hk => ?_⟩
  · have he : 79 + 8 * i - 6 = 73 + 8 * i := by omega
    rw [List.range_succ, List.map_append]
    rw [he] at hput ⊢
    exact hput
  · rw [commitWait_frame ha hlt (by omega) (by omega)]
    exact hframe k (by omega)

theorem initWaits_ring (ha : Low a) (h : RingHolds a w []) : ∀ n ≤ 20, ∃ w', initWaits a w n = some w' ∧
      RingHolds a w' ((List.range n).map fun i => ptr a (73 + 8 * i)) ∧
      ∀ k, k < 34 ∨ 233 ≤ k → w' k = w k := by
  intro n
  induction n with
  | zero => intro _; exact ⟨w, rfl, h, fun _ _ => rfl⟩
  | succ n ih =>
    intro hn
    obtain ⟨w₁, h₁, hr₁, hf₁⟩ := ih (by omega)
    obtain ⟨w₂, h₂, hr₂, hf₂⟩ := initWait_ring ha (by omega) hr₁
    exact ⟨w₂, by simp only [initWaits, h₁, Option.bind_some, h₂], hr₂,
      fun k hk => (hf₂ k hk).trans (hf₁ k hk)⟩

theorem initReturnPart_low (hk : k < 234) (h : k ≠ 37) : initReturnPart a w k = w k := by
  simp (disch := omega) only [initReturnPart, initMsgFIFO, clear_of_notMem, setAll,
    update_of_ne]

theorem initCommSeqMem_holds (ha : Low a) {cpu : Nat} (hc : cpu ≤ 1) (w : Words) :
    ∃ w', initCommSeqMem a cpu w = some w' ∧ RingHolds a w' (waits a) ∧
      w' 2 = 1 ∧ w' 30 = 0 ∧ w' 234 = 0 ∧ w' 259 = 0 := by
  obtain ⟨w₁, h₁, hr, hf⟩ := initWaits_ring ha (initSendPart_ring (w := w) cpu) 20 (Nat.le_refl _)
  refine ⟨initReturnPart a w₁, ?_, ?_, ?_, ?_, ?_, ?_⟩
  · simp only [initCommSeqMem, if_neg (Nat.not_lt.mpr hc), h₁, Option.map_some]
  · have hsh := hr.shape
    have hlow : ∀ k, k < 73 → k ≠ 37 → initReturnPart a w₁ k = w₁ k :=
      fun k hk h => initReturnPart_low (by omega) h
    refine HoldsQueue.congr (m := w₁) ?_ fun i hi => ?_
    · simp only [fifoAt]
      simp (disch := omega) only [hlow]
      exact ⟨⟨hsh.cap_eq, hsh.base_eq, hsh.size_eq, hsh.rd_lt, hsh.wr_lt⟩, hr.length, hr.items⟩
    · rw [wordOf_slot ha]
      exact hlow _ (by omega) (by omega)
  iterate 2
    rw [initReturnPart_low (by omega) (by omega), hf _ (by omega)]
    simp [initSendPart, initMsgFIFO, clear, setAll, update]
  all_goals simp [initReturnPart, initMsgFIFO, clear, setAll, update]

end

end H713.Socket
