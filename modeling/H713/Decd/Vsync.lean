import H713.Lib.Circular
import H713.Lib.Run
import Mathlib.Algebra.GroupWithZero.Nat

/-!
# Decd.Vsync

The ring of vsync timestamps (`decd_hw.c`). Both indices point at the slot used last, so a slot is stepped to before
it is written or read.
-/

namespace H713.Decd.Vsync

open Circular

abbrev Time := BitVec 64

def decdVsyncRingLen : Nat := 8

def eAgain : Int := -11

structure Ring where
  ts : Nat → Time
  rd : Nat
  wr : Nat

def nextSlot (i : Nat) : Nat := (i + 1) % 2 ^ 32 &&& (decdVsyncRingLen - 1)

def decVsyncTimestampGet (v : Ring) : Except Int Time × Ring :=
  if v.rd = v.wr then (.error eAgain, v)
  else
    let n := nextSlot v.rd
    (.ok (v.ts n), { v with rd := n })

def store (v : Ring) (now : Time) : Ring :=
  let n := nextSlot v.wr
  let v := { v with ts := Function.update v.ts n now, wr := n }
  if v.wr = v.rd then { v with rd := nextSlot v.rd } else v

def decVsyncHandler (v : Ring) (pending : Bool) (now : Time) : Ring :=
  if pending then store v now else v

def decEventPoll (v : Ring) : Bool := v.rd ≠ v.wr

inductive Op where
  | vsync (pending : Bool) (now : Time)
  | get
  | poll

inductive Reply where
  | done
  | read (r : Except Int Time)
  | ready (b : Bool)

def step (v : Ring) : Op → Reply × Ring
  | .vsync pending now => (.done, decVsyncHandler v pending now)
  | .get => (.read (decVsyncTimestampGet v).1, (decVsyncTimestampGet v).2)
  | .poll => (.ready (decEventPoll v), v)

def queueStep (q : List Time) : Op → Reply × List Time
  | .vsync pending now => (.done, if pending then push 7 q now else q)
  | .get =>
    match q with
    | [] => (.read (.error eAgain), [])
    | x :: q => (.read (.ok x), q)
  | .poll => (.ready (!q.isEmpty), q)

def zeroed : Ring := ⟨fun _ => 0, 0, 0⟩

theorem nextSlot_eq {i : Nat} (h : i < 8) : nextSlot i = next 8 i := by
  have hmod : (i + 1) % 2 ^ 32 = i + 1 := Nat.mod_eq_of_lt (by omega)
  simp only [nextSlot, hmod, decdVsyncRingLen, next]
  exact Nat.and_two_pow_sub_one_eq_mod (i + 1) 3

structure Holds (v : Ring) (q : List Time) : Prop where
  rd_lt : v.rd < 8
  wr_lt : v.wr < 8
  items : contents 8 v.ts (next 8 v.rd) (next 8 v.wr) = q

namespace Holds

variable {v : Ring} {q : List Time}

theorem next_inj {i j : Nat} (hi : i < 8) (hj : j < 8) : next 8 i = next 8 j ↔ i = j := by
  rw [next_eq hi, next_eq hj]
  split <;> split <;> omega

theorem empty_iff (h : Holds v q) : v.rd = v.wr ↔ q = [] := by
  have hlen : q.length = len 8 (next 8 v.rd) (next 8 v.wr) := by
    rw [← h.items, length_contents]
  rw [← next_inj h.rd_lt h.wr_lt, ← len_eq_zero (next_lt h.rd_lt), ← hlen, List.length_eq_zero_iff]

theorem full_iff (h : Holds v q) : next 8 v.wr = v.rd ↔ ¬ q.length < 7 := by
  have hlen : q.length = len 8 (next 8 v.rd) (next 8 v.wr) := by
    rw [← h.items, length_contents]
  have hlt := len_lt (next_lt h.rd_lt) (next_lt h.wr_lt)
  rw [← next_inj (next_lt h.wr_lt) h.rd_lt, eq_comm,
    Circular.full_iff (next_lt h.rd_lt) (next_lt h.wr_lt), ← hlen]
  omega

theorem get (h : Holds v q) : (step v .get).1 = (queueStep q .get).1 ∧
    Holds (step v .get).2 (queueStep q .get).2 := by
  simp only [step, decVsyncTimestampGet, nextSlot_eq h.rd_lt]
  by_cases hempty : v.rd = v.wr
  · obtain rfl := h.empty_iff.mp hempty
    simp only [if_pos hempty, queueStep]
    exact ⟨trivial, h⟩
  · have hq : q = v.ts (next 8 v.rd) :: contents 8 v.ts (next 8 (next 8 v.rd)) (next 8 v.wr) := by
      rw [← h.items, contents_take (next_lt h.rd_lt) (next_lt h.wr_lt)]
      rwa [ne_eq, next_inj h.rd_lt h.wr_lt]
    rw [hq]
    simp only [if_neg hempty, queueStep]
    exact ⟨trivial, next_lt h.rd_lt, h.wr_lt, rfl⟩

theorem store (h : Holds v q) (now : Time) : Holds (store v now) (push 7 q now) := by
  simp only [Vsync.store, nextSlot_eq h.rd_lt, nextSlot_eq h.wr_lt, h.full_iff, push]
  have hr := next_lt h.rd_lt
  have hw := next_lt h.wr_lt
  by_cases hroom : q.length < 7
  · -- the slot written is behind the last one in use
    have hne : next 8 v.rd ≠ next 8 (next 8 v.wr) := by
      rw [ne_eq, next_inj h.rd_lt hw, eq_comm, h.full_iff]
      exact not_not.mpr hroom
    rw [if_neg (not_not.mpr hroom), if_pos hroom]
    exact ⟨h.rd_lt, hw, by rw [contents_put hr hw hne, h.items]⟩
  · -- the slot written is the one in front of the oldest item, which goes
    have hfull := h.full_iff.mpr hroom
    have hne : next 8 v.rd ≠ next 8 v.wr := by
      rw [ne_eq, next_inj h.rd_lt h.wr_lt, h.empty_iff]
      rintro rfl
      exact hroom (by decide)
    have hne' : next 8 (next 8 v.rd) ≠ next 8 (next 8 v.wr) := by
      rwa [ne_eq, next_inj hr hw]
    have htail : contents 8 v.ts (next 8 (next 8 v.rd)) (next 8 v.wr) = q.tail := by
      rw [← h.items, contents_take hr hw hne, List.tail_cons]
    rw [if_pos hroom, if_neg hroom]
    exact ⟨hr, hw, by rw [contents_put (next_lt hr) hw hne', htail]⟩

theorem step (h : Holds v q) (op : Op) : (step v op).1 = (queueStep q op).1 ∧
    Holds (Vsync.step v op).2 (queueStep q op).2 := by
  cases op with
  | vsync pending now =>
    cases pending with
    | false => exact ⟨rfl, h⟩
    | true => exact ⟨rfl, h.store now⟩
  | get => exact h.get
  | poll =>
    refine ⟨?_, h⟩
    simp only [Vsync.step, decEventPoll, queueStep, ne_eq, h.empty_iff]
    cases q <;> simp

theorem zeroed : Holds zeroed [] := ⟨by decide, by decide, contents_self⟩

end Holds

def stored (ops : List Op) : List Time :=
  ops.filterMap fun | .vsync true now => some now | _ => none

def reads (rs : List Reply) : List Time :=
  rs.filterMap fun | .read (.ok x) => some x | _ => none

theorem reads_sublist : ∀ (ops : List Op) (q : List Time),
    (reads (replies queueStep q ops)).Sublist (q ++ stored ops) := by
  intro ops
  induction ops with
  | nil => intro q; exact List.nil_sublist _
  | cons op ops ih =>
    intro q
    cases op with
    | vsync pending now =>
      cases pending with
      | false => exact ih q
      | true =>
        have hnext := (ih (push 7 q now)).trans ((push_sublist 7 q now).append (List.Sublist.refl _))
        rwa [List.append_assoc] at hnext
    | get =>
      cases q with
      | nil => exact ih []
      | cons x q => exact (ih q).cons_cons x
    | poll => exact ih q

/-- For every order of vsync interrupts, reads and polls, the ring answers as the queue does, and the
timestamps read are some of those stored, in order and each once. -/
theorem vsync_ring_is_queue (ops : List Op) : replies step zeroed ops = replies queueStep [] ops ∧
    (reads (replies step zeroed ops)).Sublist (stored ops) := by
  have heq : replies step zeroed ops = replies queueStep [] ops :=
    replies_eq (fun _ _ op h => h.step op) ops Holds.zeroed
  exact ⟨heq, heq ▸ reads_sublist ops []⟩

end H713.Decd.Vsync
