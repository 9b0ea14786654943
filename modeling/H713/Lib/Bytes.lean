import Mathlib.Data.Nat.Notation
import Mathlib.Logic.Function.Basic
import Mathlib.Tactic.Ring

/-!
# Lib.Bytes

Little-endian byte buffers and the C view of them: `rd b off n` is the unsigned value of the `n` bytes at `off`,
`wr b off n v` stores the low `n` bytes of `v` there, `cpy` is `memcpy`.
-/

namespace H713

abbrev Byte := BitVec 8

abbrev Buf := Nat → Byte

namespace Bytes

/-- The `n` bytes at `off`, least significant first. -/
def rd (b : Buf) (off : Nat) : Nat → Nat
  | 0 => 0
  | n + 1 => (b off).toNat + 256 * rd b (off + 1) n

def wr (b : Buf) (off n v : Nat) : Buf :=
  fun i => if off ≤ i ∧ i < off + n then BitVec.ofNat 8 (v / 256 ^ (i - off)) else b i

def cpy (dst : Buf) (doff : Nat) (src : Buf) (soff n : Nat) : Buf :=
  fun i => if doff ≤ i ∧ i < doff + n then src (soff + (i - doff)) else dst i

theorem rd_lt (b : Buf) (off n : Nat) : rd b off n < 256 ^ n := by
  induction n generalizing off with
  | zero => simp [rd]
  | succ n ih =>
    have h1 := ih (off + 1)
    have h2 := (b off).isLt
    simp only [rd, Nat.pow_succ]
    omega

theorem rd_add (b : Buf) (off m n : Nat) : rd b off (m + n) = rd b off m + 256 ^ m * rd b (off + m) n := by
  induction m generalizing off with
  | zero => simp [rd]
  | succ m ih =>
    rw [Nat.succ_add]
    simp only [rd]
    rw [ih (off + 1), Nat.pow_succ, show off + 1 + m = off + (m + 1) by omega]
    ring

theorem rd_div (b : Buf) (off m n : Nat) : rd b off (m + n) / 256 ^ m = rd b (off + m) n := by
  rw [rd_add, Nat.add_mul_div_left _ _ (Nat.pow_pos (by decide)), Nat.div_eq_of_lt (rd_lt b off m), Nat.zero_add]

variable {b : Buf} {off n n' off' : Nat}

theorem rd_congr {b' : Buf} :
    ∀ {n : Nat}, (∀ i, off ≤ i → i < off + n → b i = b' i) → rd b off n = rd b' off n := by
  intro n
  induction n generalizing off with
  | zero => intro _; rfl
  | succ n ih =>
    intro h
    simp only [rd]
    rw [ih (fun i h1 h2 => h i (by omega) (by omega)), h off (by omega) (by omega)]

theorem rd_wr_of_disjoint {v : Nat} (h : off' + n' ≤ off ∨ off + n ≤ off') :
    rd (wr b off n v) off' n' = rd b off' n' := by
  apply rd_congr
  intro i h1 h2
  simp only [wr]
  rw [if_neg (by omega)]

theorem wr_succ_tail (b : Buf) (off n v i : Nat) (h : off + 1 ≤ i) :
    wr b off (n + 1) v i = wr b (off + 1) n (v / 256) i := by
  simp only [wr]
  by_cases hi : i < off + (n + 1)
  · have e : i - off = (i - (off + 1)) + 1 := by omega
    rw [if_pos (by omega), if_pos (by omega), e, Nat.pow_succ, Nat.mul_comm, Nat.div_div_eq_div_mul]
  · rw [if_neg (by omega), if_neg (by omega)]

theorem rd_wr_same (b : Buf) (off n v : Nat) : rd (wr b off n v) off n = v % 256 ^ n := by
  induction n generalizing off v b with
  | zero => simp [rd, Nat.mod_one]
  | succ n ih =>
    have htail : rd (wr b off (n + 1) v) (off + 1) n = rd (wr b (off + 1) n (v / 256)) (off + 1) n :=
      rd_congr (fun i h1 _ => wr_succ_tail b off n v i h1)
    have hhead : (wr b off (n + 1) v off).toNat = v % 256 := by
      simp [wr, BitVec.toNat_ofNat]
    simp only [rd]
    rw [htail, hhead, ih, Nat.pow_succ, Nat.mul_comm (256 ^ n), Nat.mod_mul]

theorem rd_wr_le {v : Nat} (h : n' ≤ n) : rd (wr b off n v) off n' = v % 256 ^ n' := by
  rw [← rd_wr_same b off n' v]
  apply rd_congr
  intro i h1 h2
  simp only [wr]
  rw [if_pos (by omega), if_pos (by omega)]

theorem rd_wr_zero (h1 : off ≤ off') (h2 : off' + n' ≤ off + n) : rd (wr b off n 0) off' n' = 0 := by
  induction n' generalizing off' with
  | zero => rfl
  | succ k ih =>
    simp only [rd]
    rw [ih (by omega) (by omega)]
    simp only [wr]
    rw [if_pos (by omega)]
    simp

theorem rd_cpy_of_disjoint {dst src : Buf} {doff soff : Nat} (h : off' + n' ≤ doff ∨ doff + n ≤ off') :
    rd (cpy dst doff src soff n) off' n' = rd dst off' n' := by
  apply rd_congr
  intro i h1 h2
  simp only [cpy]
  rw [if_neg (by omega)]

theorem rd_cpy_of_mem {dst src : Buf} {doff soff : Nat} (h1 : doff ≤ off') (h2 : off' + n' ≤ doff + n) :
    rd (cpy dst doff src soff n) off' n' = rd src (soff + (off' - doff)) n' := by
  induction n' generalizing off' with
  | zero => rfl
  | succ k ih =>
    simp only [rd]
    rw [ih (by omega) (by omega)]
    have e : soff + (off' + 1 - doff) = soff + (off' - doff) + 1 := by omega
    rw [e]
    simp only [cpy]
    rw [if_pos (by omega)]

theorem wr_of_not_mem {v i : Nat} (h : i < off ∨ off + n ≤ i) : wr b off n v i = b i := by
  simp only [wr]
  rw [if_neg (by omega)]

theorem ofNat_rd_div (b : Buf) {k : Nat} (h : k < n) : BitVec.ofNat 8 (rd b off n / 256 ^ k) = b (off + k) := by
  induction n generalizing off k with
  | zero => omega
  | succ n ih =>
    have hb := (b off).isLt
    simp only [rd]
    cases k with
    | zero =>
      apply BitVec.eq_of_toNat_eq
      simp only [BitVec.toNat_ofNat, Nat.pow_zero, Nat.div_one, Nat.add_zero]
      omega
    | succ k =>
      have e : ((b off).toNat + 256 * rd b (off + 1) n) / 256 = rd b (off + 1) n := by omega
      rw [Nat.pow_succ, Nat.mul_comm (256 ^ k), ← Nat.div_div_eq_div_mul, e, ih (by omega)]
      congr 1
      omega

theorem wr_rd (b src : Buf) (off n : Nat) : wr b off n (rd src off n) = cpy b off src off n := by
  funext i
  simp only [wr, cpy]
  split
  · exact ofNat_rd_div src (by omega)
  · rfl

def wrWords (b : Buf) (off : Nat) (f : Nat → Nat) : Nat → Buf
  | 0 => b
  | n + 1 => wr (wrWords b off f n) (off + 4 * n) 4 (f n)

theorem rd_wrWords_of_disjoint (b : Buf) (off : Nat) (f : Nat → Nat) {k : Nat} :
    ∀ n, (off' + k ≤ off ∨ off + 4 * n ≤ off') → rd (wrWords b off f n) off' k = rd b off' k := by
  intro n
  induction n with
  | zero => intro _; rfl
  | succ n ih =>
    intro h
    simp only [wrWords]
    rw [rd_wr_of_disjoint (by omega), ih (by omega)]

theorem rd_wrWords_word (b : Buf) (off : Nat) (f : Nat → Nat) {i : Nat} :
    ∀ n, i < n → rd (wrWords b off f n) (off + 4 * i) 4 = f i % 2 ^ 32 := by
  intro n
  induction n with
  | zero => intro h; omega
  | succ n ih =>
    intro h
    simp only [wrWords]
    by_cases hi : i = n
    · subst hi; simp [rd_wr_same]
    · rw [rd_wr_of_disjoint (by omega), ih (by omega)]

def toI32 (x : Nat) : Int := if x < 2 ^ 31 then x else (x : Int) - 2 ^ 32

def ofI32 (z : Int) : Nat := (z % 2 ^ 32).toNat

theorem toI32_ofI32 {z : Int} (h1 : -2 ^ 31 ≤ z) (h2 : z < 2 ^ 31) : toI32 (ofI32 z) = z := by
  have e : ofI32 z = (z % 2 ^ 32).toNat := rfl
  simp only [toI32]
  split <;> omega

theorem ofI32_toI32 {x : Nat} (h : x < 2 ^ 32) : ofI32 (toI32 x) = x := by
  simp only [toI32, ofI32]
  split <;> omega

theorem ofI32_lt (z : Int) : ofI32 z < 2 ^ 32 := by
  simp only [ofI32]; omega

end Bytes
end H713
