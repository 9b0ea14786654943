import Mathlib.Algebra.GroupWithZero.Nat

/-!
# Lib.Field

Fields of 32-bit registers: `GENMASK`, `FIELD_GET`, `FIELD_PREP` and `BIT` of the kernel. A field is read from the
bits in it and from no others.
-/

namespace H713

def genmask (h l : Nat) : BitVec 32 := (BitVec.allOnes 32 <<< l) &&& (BitVec.allOnes 32 >>> (31 - h))

/-- `FIELD_GET(GENMASK(h, l), x)`. -/
def fieldGet (h l : Nat) (x : BitVec 32) : BitVec 32 := (x &&& genmask h l) >>> l

def fieldPrep (h l : Nat) (v : BitVec 32) : BitVec 32 := (v <<< l) &&& genmask h l

namespace Field

variable {h l i : Nat} {x y v : BitVec 32}

theorem getLsbD_genmask (hh : h < 32) : (genmask h l).getLsbD i = decide (l ≤ i ∧ i ≤ h) := by
  simp only [genmask, BitVec.getLsbD_and, BitVec.getLsbD_shiftLeft, BitVec.getLsbD_ushiftRight,
    BitVec.getLsbD_allOnes]
  by_cases hi : i < 32
  · by_cases hl : l ≤ i
    · have hlt : i - l < 32 := by omega
      have hnot : ¬ i < l := by omega
      simp only [hi, hlt, hnot, hl, decide_true, decide_false, Bool.not_false, Bool.true_and, true_and,
        decide_eq_decide]
      omega
    · simp [hl, Nat.lt_of_not_le hl]
  · have hih : ¬ i ≤ h := by omega
    simp [hi, hih]

theorem getLsbD_prep (hh : h < 32) :
    (fieldPrep h l v).getLsbD i = (decide (l ≤ i ∧ i ≤ h) && v.getLsbD (i - l)) := by
  rw [fieldPrep, BitVec.getLsbD_and, getLsbD_genmask hh, BitVec.getLsbD_shiftLeft]
  by_cases hi : l ≤ i ∧ i ≤ h
  · have hlt : i < 32 := by omega
    have hnot : ¬ i < l := by omega
    simp [hi, hlt, hnot]
  · simp [hi]

theorem get_congr (hh : h < 32) (hxy : ∀ i, l ≤ i → i ≤ h → x.getLsbD i = y.getLsbD i) :
    fieldGet h l x = fieldGet h l y := by
  refine BitVec.eq_of_getLsbD_eq fun i _ => ?_
  simp only [fieldGet, BitVec.getLsbD_ushiftRight, BitVec.getLsbD_and, getLsbD_genmask hh]
  by_cases hi : l + i ≤ h
  · rw [hxy (l + i) (by omega) hi]
  · simp [hi]

theorem get_prep (hh : h < 32) (hl : l ≤ h) (hv : v.toNat < 2 ^ (h - l + 1)) :
    fieldGet h l (fieldPrep h l v) = v := by
  refine BitVec.eq_of_getLsbD_eq fun i hi => ?_
  simp only [fieldGet, BitVec.getLsbD_ushiftRight, BitVec.getLsbD_and, getLsbD_genmask hh, getLsbD_prep hh]
  by_cases hih : l + i ≤ h
  · simp [hih]
  · have hzero : v.getLsbD i = false :=
      Nat.testBit_lt_two_pow (Nat.lt_of_lt_of_le hv (Nat.pow_le_pow_right (show 0 < 2 by decide) (by omega)))
    simp [hih, hzero]

theorem toNat_get {n : Nat} (hh : h < 32) (hl : l ≤ h) (hn : n < 2 ^ (h - l + 1))
    (hbits : ∀ i, l ≤ i → i ≤ h → x.getLsbD i = (BitVec.ofNat 32 n).getLsbD (i - l)) :
    (fieldGet h l x).toNat = n := by
  have hlt : n < 2 ^ 32 := Nat.lt_of_lt_of_le hn (Nat.pow_le_pow_right (show 0 < 2 by decide) (by omega))
  have hnat : (BitVec.ofNat 32 n).toNat = n := Nat.mod_eq_of_lt hlt
  have hget : fieldGet h l x = fieldGet h l (fieldPrep h l (.ofNat 32 n)) := by
    refine get_congr hh fun i h1 h2 => ?_
    rw [hbits i h1 h2, getLsbD_prep hh]
    simp [h1, h2]
  rw [hget, get_prep hh hl (by rwa [hnat]), hnat]

end Field
end H713
