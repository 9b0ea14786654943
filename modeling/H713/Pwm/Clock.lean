import H713.Pwm.Code
import Mathlib.Tactic.Linarith

/-!
# Pwm.Clock

The search for a clock against exact arithmetic: the divisors of the 64-bit divisions are `u32`.
-/

namespace H713.Pwm

def count (rate periodNs m prescaler : Nat) : Nat := (rate >>> m) * periodNs / (nsecPerSec * (prescaler + 1))

section

variable {x periodNs p n : Nat}

theorem cycles_le (x periodNs p : Nat) (hp : p < 4) (hx : x * periodNs < 65536 * (4 * nsecPerSec)) :
    cycles x periodNs p = x * periodNs / (nsecPerSec * (p + 1)) := by
  simp only [nsecPerSec] at hx
  have hdiv : nsecPerSec * (p + 1) % 2 ^ 32 = nsecPerSec * (p + 1) := by
    simp only [nsecPerSec]
    omega
  rw [cycles, divU64, hdiv, if_neg (by simp [nsecPerSec]), Option.getD_some, Nat.mod_eq_of_lt (by omega)]

theorem firstFit_some {q c : Nat} (h : firstFit x periodNs n p = some (q, c)) :
    p ≤ q ∧ q < p + n ∧ c = cycles x periodNs q ∧ 0 < c ∧ c ≤ maxCycles ∧
      ∀ j, p ≤ j → j < q → maxCycles < cycles x periodNs j := by
  induction n generalizing p with
  | zero => cases h
  | succ n ih =>
    simp only [firstFit] at h
    split at h
    · cases h
    · rename_i hpos
      split at h
      · rename_i hbig
        obtain ⟨hle, hlt, hc, h0, hmax, hbefore⟩ := ih h
        refine ⟨by omega, by omega, hc, h0, hmax, fun j hj hjq => ?_⟩
        obtain rfl | hj := hj.eq_or_lt
        · exact hbig
        · exact hbefore j hj hjq
      · cases h
        refine ⟨Nat.le_refl _, by omega, rfl, Nat.pos_of_ne_zero hpos, by omega, fun j hj hjq => by omega⟩

theorem firstFit_none (h : firstFit x periodNs n p = none) :
    ∃ q, p ≤ q ∧ q ≤ p + n ∧ (q < p + n → cycles x periodNs q = 0) ∧
      ∀ j, p ≤ j → j < q → maxCycles < cycles x periodNs j := by
  induction n generalizing p with
  | zero => exact ⟨p, Nat.le_refl _, Nat.le_refl _, fun hlt => by omega, fun j hj hjp => by omega⟩
  | succ n ih =>
    simp only [firstFit] at h
    split at h
    · rename_i h0
      exact ⟨p, Nat.le_refl _, by omega, fun _ => h0, fun j hj hjp => by omega⟩
    · split at h
      · rename_i hbig
        obtain ⟨q, hle, hlt, h0, hbefore⟩ := ih h
        refine ⟨q, by omega, by omega, fun hq => h0 (by omega), fun j hj hjq => ?_⟩
        obtain rfl | hj := hj.eq_or_lt
        · exact hbig
        · exact hbefore j hj hjq
      · cases h

theorem quotient_antitone (y : Nat) {p q : Nat} (h : p ≤ q) :
    y / (nsecPerSec * (q + 1)) ≤ y / (nsecPerSec * (p + 1)) :=
  Nat.div_le_div_left (Nat.mul_le_mul_left _ (by omega)) (by simp [nsecPerSec])

section

variable (hx : x * periodNs < 65536 * (4 * nsecPerSec))

include hx

theorem first_four {q : Nat} (hbefore : ∀ j < q, maxCycles < cycles x periodNs j) : q < 4 := by
  by_contra hq
  have h3 := hbefore 3 (by omega)
  rw [cycles_le x periodNs 3 (by omega) hx] at h3
  have hlt : x * periodNs / (nsecPerSec * (3 + 1)) < 65536 :=
    Nat.div_lt_of_lt_mul (by simp only [nsecPerSec] at hx ⊢; omega)
  simp only [maxCycles] at h3
  omega

theorem firstFit_best {q c : Nat} (h : firstFit x periodNs 256 0 = some (q, c)) :
    q ≤ 255 ∧ c = x * periodNs / (nsecPerSec * (q + 1)) ∧ 0 < c ∧ c ≤ maxCycles ∧
      ∀ j, x * periodNs / (nsecPerSec * (j + 1)) ≤ maxCycles → x * periodNs / (nsecPerSec * (j + 1)) ≤ c := by
  obtain ⟨-, hlt, hc, h0, hmax, hbefore⟩ := firstFit_some h
  have hq : q < 4 := first_four hx fun j hj => hbefore j (Nat.zero_le j) hj
  have hexact := cycles_le x periodNs q hq hx
  refine ⟨by omega, hc.trans hexact, h0, hmax, fun j hj => ?_⟩
  by_cases hjq : j < q
  · have hbig := hbefore j (Nat.zero_le j) hjq
    rw [cycles_le x periodNs j (by omega) hx] at hbig
    omega
  · rw [hc, hexact]
    exact quotient_antitone _ (by omega)

theorem firstFit_nothing (h : firstFit x periodNs 256 0 = none) (j : Nat)
    (hj : x * periodNs / (nsecPerSec * (j + 1)) ≤ maxCycles) : x * periodNs / (nsecPerSec * (j + 1)) = 0 := by
  obtain ⟨q, -, -, h0, hbefore⟩ := firstFit_none h
  have hq : q < 4 := first_four hx fun j hj => hbefore j (Nat.zero_le j) hj
  have hzero := h0 (by omega)
  rw [cycles_le x periodNs q hq hx] at hzero
  by_cases hjq : j < q
  · have hbig := hbefore j (Nat.zero_le j) hjq
    rw [cycles_le x periodNs j (by omega) hx] at hbig
    omega
  · exact Nat.le_zero.mp (hzero ▸ quotient_antitone (x * periodNs) (Nat.le_of_not_lt hjq))

end

theorem firstFit_eq_some_iff {c : Nat} : firstFit x periodNs 256 0 = some (p, c) ↔
    p ≤ 255 ∧ c = cycles x periodNs p ∧ 0 < c ∧ c ≤ maxCycles ∧ ∀ j < p, maxCycles < cycles x periodNs j := by
  constructor
  · intro h
    obtain ⟨-, hlt, hc, h0, hmax, hbefore⟩ := firstFit_some h
    exact ⟨by omega, hc, h0, hmax, fun j hj => hbefore j (Nat.zero_le j) hj⟩
  · rintro ⟨hp, hc, h0, hmax, hbefore⟩
    cases hfit : firstFit x periodNs 256 0 with
    | none =>
      obtain ⟨q, -, -, hzero, hbig⟩ := firstFit_none hfit
      obtain hlt | rfl | hlt := Nat.lt_trichotomy p q
      · have := hbig p (Nat.zero_le p) hlt
        omega
      · have := hzero (by omega)
        omega
      · have := hbefore q hlt
        rw [hzero (by omega)] at this
        omega
    | some found =>
      obtain ⟨-, -, hc', h0', hmax', hbig⟩ := firstFit_some (q := found.1) (c := found.2) hfit
      obtain hlt | heq | hlt := Nat.lt_trichotomy p found.1
      · have := hbig p (Nat.zero_le p) hlt
        omega
      · rw [hc, heq, ← hc']
      · have := hbefore found.1 hlt
        omega

end

/-- The loop over the prescalers stops here: the cycles fit, and those of the prescalers before do not. -/
structure Fits (chip : Chip) (periodNs : Nat) (b : Best) : Prop where
  m : b.m ≤ 8
  prescaler : b.prescaler ≤ 255
  range : 0 < b.cycles ∧ b.cycles ≤ maxCycles
  stops : ∃ rate, chip.rate? b.src = some rate ∧ b.cycles = cycles (rate >>> b.m) periodNs b.prescaler ∧
    ∀ j < b.prescaler, maxCycles < cycles (rate >>> b.m) periodNs j

def Best.Before (a b : Best) : Prop := a.src < b.src ∨ a.src = b.src ∧ a.m < b.m

structure Wins (chip : Chip) (periodNs : Nat) (b : Best) : Prop where
  fits : Fits chip periodNs b
  most : ∀ a, Fits chip periodNs a → a.cycles ≤ b.cycles
  first : ∀ a, Fits chip periodNs a → a.Before b → a.cycles < b.cycles

section

variable {chip : Chip} {periodNs src rate : Nat} {b : Best} {seen : Nat → Nat → Prop}

theorem fits_iff : Fits chip periodNs b ↔ b.m ≤ 8 ∧ ∃ rate, chip.rate? b.src = some rate ∧
    firstFit (rate >>> b.m) periodNs 256 0 = some (b.prescaler, b.cycles) := by
  constructor
  · rintro ⟨hm, hp, ⟨h0, hmax⟩, rate, hr, hc, hbefore⟩
    exact ⟨hm, rate, hr, firstFit_eq_some_iff.mpr ⟨hp, hc, h0, hmax, hbefore⟩⟩
  · rintro ⟨hm, rate, hr, hfit⟩
    obtain ⟨hp, hc, h0, hmax, hbefore⟩ := firstFit_eq_some_iff.mp hfit
    exact ⟨hm, hp, ⟨h0, hmax⟩, rate, hr, hc, hbefore⟩

theorem Fits.src_le (h : Fits chip periodNs b) : b.src ≤ 1 := by
  obtain ⟨rate, hr, -⟩ := h.stops
  unfold Chip.rate? at hr
  grind [clkSrcHosc, clkSrcApb]

theorem Fits.rate_ne (h : Fits chip periodNs b) (hr : chip.rate? b.src = some rate) : rate >>> b.m ≠ 0 := by
  obtain ⟨rate', hr', hc, -⟩ := h.stops
  cases hr.symm.trans hr'
  intro h0
  have hpos := h.range.1
  rw [hc, h0, cycles, divU64] at hpos
  split at hpos <;> simp at hpos

theorem Fits.firstFit (h : Fits chip periodNs b) (hr : chip.rate? b.src = some rate) :
    firstFit (rate >>> b.m) periodNs 256 0 = some (b.prescaler, b.cycles) := by
  obtain ⟨-, rate', hr', hfit⟩ := fits_iff.mp h
  cases hr.symm.trans hr'
  exact hfit

theorem Wins.unique {a : Best} (ha : Wins chip periodNs a) (hb : Wins chip periodNs b) : a = b := by
  have hcycles : a.cycles = b.cycles := Nat.le_antisymm (hb.most a ha.fits) (ha.most b hb.fits)
  have hab := mt (hb.first a ha.fits) (by omega)
  have hba := mt (ha.first b hb.fits) (by omega)
  simp only [Best.Before] at hab hba
  have hsrc : a.src = b.src := by omega
  have hm : a.m = b.m := by omega
  obtain ⟨-, rate, hr, hfit⟩ := fits_iff.mp ha.fits
  have hfit' := hb.fits.firstFit (hsrc ▸ hr)
  rw [← hm, hfit] at hfit'
  have hp := congrArg Prod.fst (Option.some.inj hfit')
  cases a
  cases b
  simp_all

structure Leads (chip : Chip) (periodNs : Nat) (seen : Nat → Nat → Prop) (b : Best) : Prop where
  found : b.cycles = 0 ∨ Fits chip periodNs b ∧ seen b.src b.m
  most : ∀ a, Fits chip periodNs a → seen a.src a.m → a.cycles ≤ b.cycles
  first : ∀ a, Fits chip periodNs a → seen a.src a.m → a.Before b → a.cycles < b.cycles

section

variable (h : Leads chip periodNs seen b)

include h

theorem Leads.extend {seen' : Nat → Nat → Prop} (hle : ∀ s k, seen s k → seen' s k)
    (hnone : ∀ a, Fits chip periodNs a → seen' a.src a.m → seen a.src a.m) : Leads chip periodNs seen' b where
  found := h.found.imp_right fun hf => ⟨hf.1, hle _ _ hf.2⟩
  most a ha hs := h.most a ha (hnone a ha hs)
  first a ha hs := h.first a ha (hnone a ha hs)

theorem Leads.next {m : Nat} (hr : chip.rate? src = some rate) (hm : m ≤ 8)
    (hseen : ∀ s k, seen s k → s < src ∨ s = src ∧ k < m) :
    Leads chip periodNs (fun s k => seen s k ∨ s = src ∧ k = m)
      (b.take src m (firstFit (rate >>> m) periodNs 256 0)) := by
  have hhere : ∀ a, Fits chip periodNs a → a.src = src ∧ a.m = m →
      firstFit (rate >>> m) periodNs 256 0 = some (a.prescaler, a.cycles) := by
    rintro a ha ⟨rfl, rfl⟩
    exact ha.firstFit hr
  cases hfit : firstFit (rate >>> m) periodNs 256 0 with
  | none =>
    refine h.extend (fun s k => .inl) fun a ha hs => hs.resolve_right fun hs => ?_
    cases hfit.symm.trans (hhere a ha hs)
  | some found =>
    obtain ⟨p, c⟩ := found
    have hnew : Fits chip periodNs ⟨c, src, m, p⟩ := fits_iff.mpr ⟨hm, rate, hr, hfit⟩
    have hsame : ∀ a, Fits chip periodNs a → a.src = src ∧ a.m = m → a.cycles = c := by
      intro a ha hs
      cases hfit.symm.trans (hhere a ha hs)
      rfl
    simp only [Best.take]
    split
    · rename_i hgt
      refine ⟨.inr ⟨hnew, .inr ⟨rfl, rfl⟩⟩, fun a ha hs => ?_, fun a ha hs hb => ?_⟩
      · rcases hs with hs | hs
        · exact (h.most a ha hs).trans (Nat.le_of_lt hgt)
        · exact (hsame a ha hs).le
      · rcases hs with hs | hs
        · exact Nat.lt_of_le_of_lt (h.most a ha hs) hgt
        · simp only [Best.Before] at hb
          omega
    · rename_i hle
      refine ⟨h.found.imp_right fun hf => ⟨hf.1, .inl hf.2⟩, fun a ha hs => ?_, fun a ha hs hb => ?_⟩
      · rcases hs with hs | hs
        · exact h.most a ha hs
        · exact (hsame a ha hs).trans_le (by omega)
      · rcases hs with hs | hs
        · exact h.first a ha hs hb
        · -- it comes after what was found
          have h0 := hnew.range.1
          obtain hzero | ⟨-, hs'⟩ := h.found
          · simp only at h0
            omega
          · have := hseen _ _ hs'
            simp only [Best.Before] at hb
            omega

theorem Leads.dividers {n m : Nat} (hr : chip.rate? src = some rate) (hn : m + n = 9)
    (hseen : ∀ s k, seen s k → s < src ∨ s = src ∧ k < m) :
    Leads chip periodNs (fun s k => seen s k ∨ s = src ∧ m ≤ k ∧ k ≤ 8) (tryDividers rate periodNs src n m b) := by
  induction n generalizing m seen b with
  | zero => exact h.extend (fun s k => .inl) fun a ha hs => hs.resolve_right (by omega)
  | succ n ih =>
    simp only [tryDividers]
    split
    · rename_i h0
      refine h.extend (fun s k => .inl) fun a ha hs => hs.resolve_right ?_
      rintro ⟨hsrc, hmk, -⟩
      -- the later dividers leave nothing of the clock either
      refine ha.rate_ne (hsrc ▸ hr) ?_
      rw [show a.m = m + (a.m - m) by omega, Nat.shiftRight_add, h0, Nat.zero_shiftRight]
    · have hrest := ih (m := m + 1) (h.next (m := m) hr (by omega) hseen) (by omega) fun s k hs => by
        rcases hs with hs | hs
        · have := hseen s k hs
          omega
        · omega
      refine hrest.extend (fun s k hs => ?_) fun a ha hs => ?_
      · rcases hs with (hs | hs) | hs
        · exact .inl hs
        · exact .inr (by omega)
        · exact .inr (by omega)
      · rcases hs with hs | hs
        · exact .inl (.inl hs)
        · by_cases hm : a.m = m
          · exact .inl (.inr ⟨hs.1, hm⟩)
          · exact .inr (by omega)

theorem Leads.source (src : Nat) (hseen : ∀ s k, seen s k → s < src) :
    Leads chip periodNs (fun s k => seen s k ∨ s = src ∧ k ≤ 8) (trySource chip periodNs b src) := by
  unfold trySource
  cases hr : chip.rate? src with
  | none =>
    refine h.extend (fun s k => .inl) fun a ha hs => hs.resolve_right fun hs => ?_
    obtain ⟨rate, hr', -⟩ := ha.stops
    cases hr.symm.trans (hs.1 ▸ hr')
  | some rate =>
    simp only
    split
    · rename_i h0
      refine h.extend (fun s k => .inl) fun a ha hs => hs.resolve_right fun hs => ?_
      exact ha.rate_ne (hs.1 ▸ hr) (by rw [h0, Nat.zero_shiftRight])
    · refine (h.dividers hr (show 0 + 9 = 9 by omega) fun s k hs => .inl (hseen s k hs)).extend ?_ ?_
      · exact fun s k => .imp_right fun hs => ⟨hs.1, hs.2.2⟩
      · exact fun a _ => .imp_right fun hs => ⟨hs.1, Nat.zero_le _, hs.2⟩

end

theorem search_leads (chip : Chip) (periodNs : Nat) :
    Leads chip periodNs (fun s k => s ≤ 1 ∧ k ≤ 8) (search chip periodNs) := by
  have hstart : Leads chip periodNs (fun _ _ => False) ⟨0, clkSrcHosc, 0, 0⟩ :=
    ⟨.inl rfl, fun _ _ h => h.elim, fun _ _ h => h.elim⟩
  refine ((hstart.source clkSrcHosc fun _ _ h => h.elim).source clkSrcApb ?_).extend ?_ ?_
  · rintro s k (h | ⟨rfl, -⟩)
    · exact h.elim
    · decide
  · rintro s k ((h | ⟨rfl, hk⟩) | ⟨rfl, hk⟩)
    · exact h.elim
    · exact ⟨by decide, hk⟩
    · exact ⟨by decide, hk⟩
  · rintro a - ⟨hs, hk⟩
    obtain h0 | h1 := Nat.le_one_iff_eq_zero_or_eq_one.mp hs
    · exact .inl (.inr ⟨h0, hk⟩)
    · exact .inr ⟨h1, hk⟩

theorem findClock_eq_some_iff : findClock chip periodNs = some b ↔ periodNs ≠ 0 ∧ Wins chip periodNs b := by
  have hwins : ∀ {b}, findClock chip periodNs = some b → periodNs ≠ 0 ∧ Wins chip periodNs b := by
    intro b h
    unfold findClock at h
    split_ifs at h with h0 hzero
    cases h
    have hall := search_leads chip periodNs
    obtain ⟨hfits, -⟩ := hall.found.resolve_left hzero
    exact ⟨h0, hfits, fun a ha => hall.most a ha ⟨ha.src_le, ha.m⟩, fun a ha => hall.first a ha ⟨ha.src_le, ha.m⟩⟩
  refine ⟨hwins, ?_⟩
  rintro ⟨h0, hw⟩
  cases h : findClock chip periodNs with
  | none =>
    have hpos := hw.fits.range.1
    have hmost := (search_leads chip periodNs).most b hw.fits ⟨hw.fits.src_le, hw.fits.m⟩
    unfold findClock at h
    rw [if_neg h0, if_neg (by omega)] at h
    cases h
  | some a => rw [(hwins h).2.unique hw]

theorem findClock_eq_none_iff : findClock chip periodNs = none ↔ periodNs = 0 ∨ ∀ b, ¬ Fits chip periodNs b := by
  constructor
  · intro h
    by_contra hnot
    simp only [not_or, not_forall, not_not] at hnot
    obtain ⟨h0, b, hb⟩ := hnot
    have hpos := hb.range.1
    have hmost := (search_leads chip periodNs).most b hb ⟨hb.src_le, hb.m⟩
    unfold findClock at h
    rw [if_neg h0, if_neg (by omega)] at h
    cases h
  · intro h
    cases hfind : findClock chip periodNs with
    | none => rfl
    | some b =>
      obtain ⟨h0, hw⟩ := findClock_eq_some_iff.mp hfind
      exact absurd hw.fits (h.resolve_left h0 b)

end

structure Exact (chip : Chip) (periodNs : Nat) (b : Best) : Prop where
  cycles : ∃ rate, chip.rate? b.src = some rate ∧ b.cycles = count rate periodNs b.m b.prescaler
  range : 1 ≤ b.cycles ∧ b.cycles ≤ maxCycles
  m : b.m ≤ 8
  prescaler : b.prescaler ≤ 255

def Tops (chip : Chip) (periodNs top : Nat) (src m : Nat) : Prop :=
  ∀ rate, chip.rate? src = some rate → ∀ p ≤ 255, count rate periodNs m p ≤ maxCycles →
    count rate periodNs m p ≤ top

def FindsBest (chip : Chip) (periodNs : Nat) : Prop :=
  match findClock chip periodNs with
  | some b => Exact chip periodNs b ∧ ∀ src, ∀ m ≤ 8, Tops chip periodNs b.cycles src m
  | none => ∀ src rate, chip.rate? src = some rate → ∀ m ≤ 8, ∀ p ≤ 255,
      ¬ (1 ≤ count rate periodNs m p ∧ count rate periodNs m p ≤ maxCycles)

/-- Four seconds are divided into at most 16 bits of cycles, for every source. -/
def Within (chip : Chip) (periodNs : Nat) : Prop :=
  ∀ src rate, chip.rate? src = some rate → rate * periodNs < 65536 * (4 * nsecPerSec)

theorem findsBest_of_within {chip : Chip} {periodNs : Nat} (hx : Within chip periodNs) : FindsBest chip periodNs := by
  have hdivided : ∀ {src rate : Nat}, chip.rate? src = some rate → ∀ m,
      rate >>> m * periodNs < 65536 * (4 * nsecPerSec) := by
    intro src rate hr m
    refine Nat.lt_of_le_of_lt (Nat.mul_le_mul_right _ ?_) (hx src rate hr)
    rw [Nat.shiftRight_eq_div_pow]
    exact Nat.div_le_self ..
  -- a configuration has no cycle, or one that fits has as many
  have hcover : ∀ {src rate m p : Nat}, chip.rate? src = some rate → m ≤ 8 → count rate periodNs m p ≤ maxCycles →
      count rate periodNs m p = 0 ∨ ∃ b, Fits chip periodNs b ∧ count rate periodNs m p ≤ b.cycles := by
    intro src rate m p hr hm hc
    cases hfit : firstFit (rate >>> m) periodNs 256 0 with
    | none => exact .inl (firstFit_nothing (hdivided hr m) hfit p hc)
    | some found =>
      obtain ⟨-, -, -, -, hbest⟩ := firstFit_best (hdivided hr m) hfit
      exact .inr ⟨⟨found.2, src, m, found.1⟩, fits_iff.mpr ⟨hm, rate, hr, hfit⟩, hbest p hc⟩
  unfold FindsBest
  cases hfind : findClock chip periodNs with
  | none =>
    rintro src rate hr m hm p - ⟨hpos, hc⟩
    obtain h0 | hnone := findClock_eq_none_iff.mp hfind
    · simp [h0, count] at hpos
    · obtain hzero | ⟨b, hb, -⟩ := hcover hr hm hc
      · omega
      · exact hnone b hb
  | some b =>
    obtain ⟨-, hw⟩ := findClock_eq_some_iff.mp hfind
    obtain ⟨hm, rate, hr, hfit⟩ := fits_iff.mp hw.fits
    obtain ⟨hp, hc, h0, hmax, -⟩ := firstFit_best (hdivided hr b.m) hfit
    refine ⟨⟨⟨rate, hr, hc⟩, ⟨h0, hmax⟩, hm, hp⟩, fun src m hm rate hr p _ hc => ?_⟩
    obtain hzero | ⟨a, ha, hle⟩ := hcover hr hm hc
    · omega
    · exact hle.trans (hw.most a ha)

section

variable {x periodNs p : Nat}

theorem cycles_wrong (hx : 65536 * (4 * nsecPerSec) ≤ x * periodNs) (hp : p ≤ 255)
    (hpos : 0 < cycles x periodNs p) (hmax : cycles x periodNs p ≤ maxCycles) :
    cycles x periodNs p ≠ x * periodNs / (nsecPerSec * (p + 1)) := by
  intro heq
  generalize hy : x * periodNs = y at *
  have hne : nsecPerSec * (p + 1) % 2 ^ 32 ≠ 0 := by
    intro h0
    rw [cycles, divU64, if_pos h0] at hpos
    cases hpos
  have hlt : nsecPerSec * (p + 1) % 2 ^ 32 < 2 ^ 32 := Nat.mod_lt _ (by decide)
  have hpos' : 0 < nsecPerSec * (p + 1) := by simp [nsecPerSec]
  have hval : cycles x periodNs p = y % 2 ^ 64 / (nsecPerSec * (p + 1) % 2 ^ 32) := by
    rw [cycles, divU64, if_neg hne, Option.getD_some, hy]
  have hlow : y < (cycles x periodNs p + 1) * (nsecPerSec * (p + 1)) := by
    rw [heq, Nat.mul_comm]
    exact Nat.lt_mul_div_succ y hpos'
  have hup : cycles x periodNs p * (nsecPerSec * (p + 1)) ≤ y := by
    rw [heq]
    exact Nat.div_mul_le_self ..
  have hcode : y % 2 ^ 64 < (cycles x periodNs p + 1) * (nsecPerSec * (p + 1) % 2 ^ 32) := by
    rw [hval, Nat.mul_comm]
    exact Nat.lt_mul_div_succ _ (Nat.pos_of_ne_zero hne)
  generalize cycles x periodNs p = c at *
  simp only [maxCycles] at hmax
  by_cases hwrap : y < 2 ^ 64
  · rw [Nat.mod_eq_of_lt hwrap] at hcode
    by_cases h4 : p < 4
    · have hle : (c + 1) * (nsecPerSec * (p + 1)) ≤ 65536 * (4 * nsecPerSec) := by
        refine Nat.mul_le_mul (by omega) ?_
        simp only [nsecPerSec]
        omega
      omega
    · -- five seconds do not fit in 32 bits
      have h1 : (c + 1) * (nsecPerSec * (p + 1) % 2 ^ 32) ≤ (c + 1) * 2 ^ 32 :=
        Nat.mul_le_mul_left _ (Nat.le_of_lt hlt)
      have h2 : c * (5 * nsecPerSec) ≤ c * (nsecPerSec * (p + 1)) := by
        refine Nat.mul_le_mul_left _ ?_
        simp only [nsecPerSec]
        omega
      simp only [nsecPerSec] at h2 hx hup
      omega
  · have hle : (c + 1) * (nsecPerSec * (p + 1)) ≤ 65536 * (nsecPerSec * 256) :=
      Nat.mul_le_mul (by omega) (Nat.mul_le_mul_left _ (by omega))
    simp only [nsecPerSec] at hle hlow
    omega

variable {chip : Chip}

theorem not_findsBest {src rate m : Nat} (hr : chip.rate? src = some rate) (hm : m ≤ 8)
    (hfew : rate >>> m * periodNs < 65536 * (256 * nsecPerSec))
    (hsome : 65536 * (4 * nsecPerSec) ≤ rate >>> m * periodNs)
    (hx : ∀ src rate, chip.rate? src = some rate → ∀ m ≤ 8, rate >>> m ≠ 0 →
      65536 * (4 * nsecPerSec) ≤ rate >>> m * periodNs) : ¬ FindsBest chip periodNs := by
  have hcount : 1 ≤ count rate periodNs m 255 ∧ count rate periodNs m 255 ≤ maxCycles := by
    refine ⟨(Nat.one_le_div_iff (by simp [nsecPerSec])).mpr ?_, Nat.le_of_lt_succ (Nat.div_lt_of_lt_mul ?_)⟩
    · simp only [nsecPerSec] at hsome ⊢
      omega
    · simp only [nsecPerSec, maxCycles] at hfew ⊢
      omega
  unfold FindsBest
  cases hfind : findClock chip periodNs with
  | none => exact fun hnone => hnone src rate hr m hm 255 (Nat.le_refl _) hcount
  | some b =>
    rintro ⟨hexact, -⟩
    obtain ⟨-, hw⟩ := findClock_eq_some_iff.mp hfind
    obtain ⟨rate, hr, hc, -⟩ := hw.fits.stops
    obtain ⟨rate', hr', hcycles⟩ := hexact.cycles
    cases hr.symm.trans hr'
    have hrange := hw.fits.range
    rw [hc] at hrange
    exact cycles_wrong (hx b.src rate hr b.m hw.fits.m (hw.fits.rate_ne hr)) hw.fits.prescaler hrange.1 hrange.2
      (hc.symm.trans hcycles)

theorem exists_not_findsBest {src rate : Nat} (hr : chip.rate? src = some rate) (h0 : rate ≠ 0)
    (hlt : ∀ src rate, chip.rate? src = some rate → rate < 2 ^ 32) : ∃ P < 2 ^ 64, ¬ FindsBest chip P := by
  classical
  have hex : ∃ f, f ≠ 0 ∧ ∃ src rate m, chip.rate? src = some rate ∧ m ≤ 8 ∧ rate >>> m = f :=
    ⟨rate, h0, src, rate, 0, hr, Nat.zero_le _, rfl⟩
  obtain ⟨hf0, s, r, m, hs, hm, hf⟩ := Nat.find_spec hex
  have hleast : ∀ src rate, chip.rate? src = some rate → ∀ m ≤ 8, rate >>> m ≠ 0 → Nat.find hex ≤ rate >>> m :=
    fun src rate hr m hm hne => Nat.find_min' hex ⟨hne, src, rate, m, hr, hm, rfl⟩
  have hflt : Nat.find hex < 2 ^ 32 := by
    have hle : r >>> m ≤ r := by
      rw [Nat.shiftRight_eq_div_pow]
      exact Nat.div_le_self ..
    exact hf ▸ Nat.lt_of_le_of_lt hle (hlt s r hs)
  generalize Nat.find hex = f at *
  have hover : 65536 * (4 * nsecPerSec) < f * (65536 * (4 * nsecPerSec) / f + 1) :=
    Nat.lt_mul_div_succ _ (Nat.pos_of_ne_zero hf0)
  have hunder : f * (65536 * (4 * nsecPerSec) / f) ≤ 65536 * (4 * nsecPerSec) := Nat.mul_div_le ..
  refine ⟨65536 * (4 * nsecPerSec) / f + 1, ?_, not_findsBest hs hm ?_ ?_ fun src rate hr m hm hne => ?_⟩
  · have := Nat.div_le_self (65536 * (4 * nsecPerSec)) f
    simp only [nsecPerSec] at this ⊢
    omega
  · rw [hf, Nat.mul_succ]
    simp only [nsecPerSec] at hunder ⊢
    omega
  · rw [hf]
    exact hover.le
  · exact hover.le.trans (Nat.mul_le_mul_right _ (hleast src rate hr m hm hne))

end

/-- The search keeps its promise for the periods that divide so, and with a usable clock not for all. -/
theorem findClock_best {chip : Chip} (hlt : ∀ src rate, chip.rate? src = some rate → rate < 2 ^ 32) :
    (∀ P, Within chip P → FindsBest chip P) ∧ ((∀ P < 2 ^ 64, FindsBest chip P) ↔ ∀ P < 2 ^ 64, Within chip P) := by
  refine ⟨fun P => findsBest_of_within, fun hall P _ src rate hr => ?_,
    fun hall P hP => findsBest_of_within (hall P hP)⟩
  have h0 : rate = 0 := by
    by_contra hne
    obtain ⟨Q, hQ, hnot⟩ := exists_not_findsBest hr hne hlt
    exact hnot (hall Q hQ)
  simp [h0, nsecPerSec]

instance (chip : Chip) (periodNs : Nat) : Decidable (Within chip periodNs) :=
  decidable_of_iff (chip.hosc * periodNs < 65536 * (4 * nsecPerSec) ∧
    ∀ rate ∈ chip.apb, rate * periodNs < 65536 * (4 * nsecPerSec)) (by
      refine ⟨fun h src rate hr => ?_, fun h => ⟨h clkSrcHosc _ rfl, fun rate hr => h clkSrcApb rate hr⟩⟩
      unfold Chip.rate? at hr
      split at hr
      · exact Option.some.inj hr ▸ h.1
      · split at hr
        · exact h.2 rate hr
        · cases hr)

theorem findClock_best_board : Within ⟨24000000, some 100000000⟩ 1000000 ∧
    FindsBest ⟨24000000, some 100000000⟩ 1000000 := by
  have hlt : ∀ src rate, Chip.rate? ⟨24000000, some 100000000⟩ src = some rate → rate < 2 ^ 32 := by
    intro src rate hr
    unfold Chip.rate? at hr
    grind
  exact ⟨by decide, (findClock_best hlt).1 1000000 (by decide)⟩

theorem findClock_divisor_truncated :
    findClock ⟨24000000, none⟩ 11000000 = some ⟨64153, clkSrcHosc, 0, 16⟩ ∧ count 24000000 11000000 0 16 = 15529 ∧
      findClock ⟨24000000, none⟩ 3000000000 = none ∧ count 24000000 3000000000 3 137 = 65217 ∧
      ¬ FindsBest ⟨24000000, none⟩ 11000000 := by
  have hfind : findClock ⟨24000000, none⟩ 11000000 = some ⟨64153, clkSrcHosc, 0, 16⟩ := by decide +kernel
  refine ⟨hfind, by decide, by decide +kernel, by decide, fun hbest => ?_⟩
  rw [FindsBest, hfind] at hbest
  obtain ⟨rate, hr, hc⟩ := hbest.1.cycles
  cases hr
  exact absurd hc (by decide)

/-- The active cycles of a duty cycle are the exact ones, no more than all, and the register has them. -/
structure ActiveExact (entire duty period : Nat) : Prop where
  value : activeCycles entire duty period = some (entire * duty / period)
  le : entire * duty / period ≤ entire
  field : (fieldGet 15 0 (periodVal entire (entire * duty / period))).toNat = entire * duty / period

section

variable {E D P : Nat}

theorem active_le (E : Nat) (hD : D ≤ P) : E * D / P ≤ E :=
  Nat.div_le_of_le_mul (by rw [Nat.mul_comm P E]; exact Nat.mul_le_mul_left E hD)

theorem activeCycles_eq (hE : E ≤ maxCycles) (hD : D ≤ P) (h0 : 0 < P) (hP : P < 2 ^ 32) :
    activeCycles E D P = some (E * D / P) := by
  unfold activeCycles
  split
  · obtain rfl : D = P := by omega
    rw [Nat.mul_div_cancel _ h0]
  split
  · rename_i h
    simp [h]
  · have hprod : E * D ≤ 65535 * 2 ^ 32 := Nat.mul_le_mul hE (by omega)
    have hq := active_le E hD
    simp only [maxCycles] at hE
    rw [divU64, Nat.mod_eq_of_lt hP, if_neg (by omega), Nat.mod_eq_of_lt (show E * D < 2 ^ 64 by omega),
      Option.map_some, Nat.mod_eq_of_lt (show E * D / P < 2 ^ 32 by omega)]

theorem exists_active_wrong (hE : 0 < E) (hmax : E ≤ maxCycles) (hP : 2 ^ 32 ≤ P) :
    ∃ D ≤ P, activeCycles E D P ≠ some (E * D / P) := by
  simp only [maxCycles] at hmax
  have hlow : P % 2 ^ 32 < 2 ^ 32 := Nat.mod_lt _ (by decide)
  by_cases h0 : P % 2 ^ 32 = 0
  · refine ⟨1, by omega, ?_⟩
    rw [activeCycles, if_neg (by omega), if_neg (by decide), divU64, if_pos h0]
    exact Option.some_ne_none _ ∘ Eq.symm
  · -- the first duty cycle that the lower bits of the period divide
    have hceil : P % 2 ^ 32 ≤ E * ((P % 2 ^ 32 + E - 1) / E) := by
      have := Nat.lt_mul_div_succ (P % 2 ^ 32 + E - 1) hE
      rw [Nat.mul_succ] at this
      omega
    have hfloor : E * ((P % 2 ^ 32 + E - 1) / E) ≤ P % 2 ^ 32 + E - 1 := Nat.mul_div_le ..
    have hDle : (P % 2 ^ 32 + E - 1) / E ≤ P % 2 ^ 32 + E - 1 := Nat.div_le_self ..
    refine ⟨(P % 2 ^ 32 + E - 1) / E, by omega, ?_⟩
    generalize (P % 2 ^ 32 + E - 1) / E = D at *
    have hD0 : D ≠ 0 := by
      rintro rfl
      omega
    have hq : 1 ≤ E * D / (P % 2 ^ 32) := (Nat.one_le_div_iff (by omega)).mpr hceil
    have hqle : E * D / (P % 2 ^ 32) ≤ E := by
      refine Nat.div_le_of_le_mul (hfloor.trans ?_)
      obtain ⟨k, hk⟩ := Nat.exists_eq_succ_of_ne_zero h0
      obtain ⟨e, rfl⟩ := Nat.exists_eq_succ_of_ne_zero hE.ne'
      rw [hk, Nat.succ_mul]
      have := Nat.le_mul_of_pos_right k (Nat.succ_pos e)
      omega
    have hzero : E * D / P = 0 := Nat.div_eq_of_lt (by omega)
    rw [activeCycles, if_neg (by omega), if_neg hD0, divU64, if_neg h0,
      Nat.mod_eq_of_lt (show E * D < 2 ^ 64 by omega), hzero, Option.map_some, Nat.mod_eq_of_lt (by omega)]
    intro h
    have := Option.some.inj h
    omega

end

/-- The active cycles are right for every duty cycle exactly when the period has 32 bits. With a longer one they still
are for a duty cycle of 0 and for one of the whole period, which are not divided. -/
theorem active_exact_iff {chip : Chip} {P : Nat} {b : Best} (h : findClock chip P = some b) :
    (∀ D ≤ P, ActiveExact b.cycles D P) ↔ P < 2 ^ 32 := by
  obtain ⟨hP, hw⟩ := findClock_eq_some_iff.mp h
  obtain ⟨hpos, hmax⟩ := hw.fits.range
  refine ⟨fun hall => ?_, fun hlt D hD => ?_⟩
  · by_contra hge
    obtain ⟨D, hD, hne⟩ := exists_active_wrong hpos hmax (Nat.le_of_not_lt hge)
    exact hne (hall D hD).value
  · have hle := active_le b.cycles hD
    simp only [maxCycles] at hmax
    refine ⟨activeCycles_eq hmax hD (Nat.pos_of_ne_zero hP) hlt, hle, ?_⟩
    exact active_periodVal.trans (Nat.mod_eq_of_lt (by omega))

theorem active_exact_ms : findClock ⟨24000000, none⟩ 1000000 = some ⟨24000, clkSrcHosc, 0, 0⟩ ∧
    ActiveExact 24000 250000 1000000 := by
  have hfind : findClock ⟨24000000, none⟩ 1000000 = some ⟨24000, clkSrcHosc, 0, 0⟩ := by decide +kernel
  exact ⟨hfind, (active_exact_iff hfind).mpr (by decide) 250000 (by decide)⟩

theorem active_period_truncated : findClock ⟨24000000, none⟩ 768614337000 = some ⟨14, clkSrcHosc, 0, 0⟩ ∧
      activeCycles 14 384307168500 768614337000 = some 1309 ∧ ¬ ActiveExact 14 384307168500 768614337000 := by
  refine ⟨by decide +kernel, by decide, fun h => ?_⟩
  exact absurd h.value (by decide)

end H713.Pwm
