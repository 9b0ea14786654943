import H713.Lib.Bytes

/-!
# Lib.CString

`strncmp` and `strncpy` on byte buffers, and strings as buffers. Of the comparison only "equal or not"
is kept.
-/

namespace H713.Bytes

/-- `!strncmp(a + ao, b + bo, n)`. -/
def strneq (a : Buf) (ao : Nat) (b : Buf) (bo : Nat) : Nat → Bool
  | 0 => true
  | n + 1 => a ao == b bo && (a ao == 0 || strneq a (ao + 1) b (bo + 1) n)

def strncpy (d : Buf) (doff : Nat) (s : Buf) (soff : Nat) : Nat → Buf
  | 0 => d
  | n + 1 =>
    if s soff = 0 then wr d doff (n + 1) 0
    else strncpy (wr d doff 1 (s soff).toNat) (doff + 1) s (soff + 1) n

theorem rd_strncpy_of_disjoint {s : Buf} {off' n' n : Nat} :
    ∀ {d : Buf} {doff soff : Nat}, (off' + n' ≤ doff ∨ doff + n ≤ off') →
      rd (strncpy d doff s soff n) off' n' = rd d off' n' := by
  induction n with
  | zero => intro d doff soff _; rfl
  | succ n ih =>
    intro d doff soff h
    simp only [strncpy]
    split
    · exact rd_wr_of_disjoint h
    · rw [ih (by omega), rd_wr_of_disjoint (by omega)]

def cstr (s : List Byte) : Buf := fun i => s.getD i 0

theorem strneq_congr {a a' b : Buf} {n : Nat} : ∀ {ao bo : Nat},
    (∀ i, ao ≤ i → i < ao + n → a i = a' i) → strneq a ao b bo n = strneq a' ao b bo n := by
  induction n with
  | zero => intro ao bo _; rfl
  | succ n ih =>
    intro ao bo h
    simp only [strneq]
    rw [h ao (by omega) (by omega), ih fun i h1 h2 => h i (by omega) (by omega)]

theorem strneq_cpy {d b : Buf} {off n : Nat} :
    ∀ k m, m + k ≤ n → strneq (cpy d off b 0 n) (off + m) b m k = true := by
  intro k
  induction k with
  | zero => intro m _; rfl
  | succ k ih =>
    intro m h
    have hbyte : cpy d off b 0 n (off + m) = b m := by
      simp only [cpy]
      rw [if_pos (by omega)]
      congr 1
      omega
    have hrest := ih (m + 1) (by omega)
    rw [← Nat.add_assoc] at hrest
    simp [strneq, hbyte, hrest]

end H713.Bytes
