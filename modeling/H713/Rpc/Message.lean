import H713.Lib.Bytes

/-!
# Rpc.Message

The 104-byte message `CPUComm_CallEx` builds on its stack: component id at byte 40, thread group at 52, parameter
count at 8 and the parameters as words from byte 44 on. The third parameter lands on byte 52.
-/

namespace H713.Rpc

open Bytes

def callExMsg (compId tgid count : Nat) (vals : Nat → Nat) : Buf :=
  let b : Buf := fun _ => 0
  let b := wr b 40 4 compId
  let b := wr b 52 4 tgid
  let b := wr b 8 2 count
  let b := wrWords b 44 vals count
  wr b 6 2 (rd b 6 2 &&& 0xfffe)

theorem rd_zero (off n : Nat) : rd (fun _ => (0 : Byte)) off n = 0 := by
  induction n generalizing off with
  | zero => rfl
  | succ n ih =>
    simp only [rd]
    rw [ih]
    rfl

section

variable {compId tgid count : Nat} {vals : Nat → Nat}

theorem rd_callExMsg_zero {off n : Nat} (h : off + n ≤ 6 ∨ (10 ≤ off ∧ off + n ≤ 40)) :
    rd (callExMsg compId tgid count vals) off n = 0 := by
  simp (disch := omega) only [callExMsg, rd_wr_of_disjoint, rd_wrWords_of_disjoint, rd_zero]

theorem rd_callExMsg_flags : rd (callExMsg compId tgid count vals) 6 2 = 0 := by
  simp (disch := omega) only [callExMsg, rd_wr_same, rd_wrWords_of_disjoint, rd_wr_of_disjoint, rd_zero]
  rfl

theorem rd_callExMsg_count (h : count ≤ 10) : rd (callExMsg compId tgid count vals) 8 2 = count := by
  simp only [callExMsg]
  rw [rd_wr_of_disjoint (by omega), rd_wrWords_of_disjoint _ _ _ _ (by omega), rd_wr_same]
  omega

/-- The payload: the parameters, and behind them zeros and the thread group. -/
def payload (tgid count : Nat) (vals : Nat → Nat) (i : Nat) : Nat :=
  if i < count then vals i else if i = 2 then tgid else 0

theorem rd_callExMsg_word (htgid : tgid < 2 ^ 32) (hvals : ∀ i, vals i < 2 ^ 32) (i : Nat) :
    rd (callExMsg compId tgid count vals) (44 + 4 * i) 4 = payload tgid count vals i := by
  simp only [callExMsg, payload]
  rw [rd_wr_of_disjoint (by omega)]
  split
  · rename_i hi
    rw [rd_wrWords_word _ _ _ _ hi]
    exact Nat.mod_eq_of_lt (hvals i)
  · rw [rd_wrWords_of_disjoint _ _ _ _ (by omega), rd_wr_of_disjoint (by omega)]
    split
    · rename_i h2
      subst h2
      rw [rd_wr_same]
      exact Nat.mod_eq_of_lt htgid
    · rw [rd_wr_of_disjoint (by omega), rd_wr_of_disjoint (by omega), rd_zero]

end

end H713.Rpc
