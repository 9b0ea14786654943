import Mathlib.Data.List.ReduceOption
import H713.Tvtop.Clk

/-!
# Tvtop.Rates

The rates that `sunxi_tvtop_clock_enable` sets. A clock that needs a parent at some rate takes one that runs at it,
or else the first other parent that can be set to it, whoever uses that one already.
-/

namespace H713.Tvtop

open Function

abbrev Clock := Nat

structure Tree where
  parents : Clock → List (Option Clock)
  roundRate : Clock → Nat → Int

structure Clocks where
  rate : Clock → Nat
  parent : Clock → Option Clock

structure RateEntry where
  clk : Option Clock
  parentClk : Option Clock
  parentRate : Nat
  targetRate : Nat
  clkEnabled : Bool
  parentClkEnabled : Bool

def Clocks.setRate (s : Clocks) (c : Clock) (rate : Nat) : Clocks := { s with rate := update s.rate c rate }

theorem Clocks.setRate_rate (s : Clocks) (c : Clock) (rate : Nat) (q : Clock) :
    (s.setRate c rate).rate q = if q = c then rate else s.rate q := by
  simp [setRate, update_apply]

def Clocks.setParent (s : Clocks) (c p : Clock) : Clocks := { s with parent := update s.parent c (some p) }

def candidates (tree : Tree) (s : Clocks) (c : Clock) : List Clock :=
  (tree.parents c).reduceOption.filter fun p => s.parent c ≠ some p

def canRound (tree : Tree) (rate : Nat) (p : Clock) : Bool :=
  tree.roundRate p rate > 0 ∧ (tree.roundRate p rate).toNat = rate

def selectBestParent (tree : Tree) (s : Clocks) (c : Clock) (parentRate : Nat) : Clocks :=
  if (s.parent c).map s.rate = some parentRate then s
  else
    match (candidates tree s c).find? fun p => s.rate p = parentRate with
    | some p => s.setParent c p
    | none =>
      match (candidates tree s c).find? (canRound tree parentRate) with
      | some p => s.setParent c p
      | none => s

def RateEntry.enableParent (tree : Tree) (tvcap : Bool) (env : Env) (i : Nat) (s : Clocks) (c : Clock)
    (e : RateEntry) : Clocks × RateEntry :=
  if e.parentRate = 0 then (s, e)
  else
    let s := selectBestParent tree s c e.parentRate
    match s.parent c with
    | none => (s, { e with parentClk := none })
    | some p =>
      if e.parentClkEnabled then (s, { e with parentClk := some p })
      else
        (if tvcap then s else s.setRate p e.parentRate,
          { e with parentClk := some p, parentClkEnabled := env.prepareEnableParent i = 0 })

def RateEntry.enable (tree : Tree) (tvcap : Bool) (env : Env) (i : Nat) (s : Clocks) (e : RateEntry) :
    Clocks × RateEntry :=
  match e.clk with
  | none => (s, if e.parentRate = 0 then e else { e with parentClk := none })
  | some c =>
    if ¬ e.clkEnabled ∧ env.prepareEnable i ≠ 0 then (s, e)
    else
      let (s, e) := RateEntry.enableParent tree tvcap env i s c { e with clkEnabled := true }
      (if e.targetRate ≠ 0 then s.setRate c e.targetRate else s, e)

section

variable {tree : Tree} {tvcap : Bool} {env : Env} {i : Nat} {s : Clocks} {e : RateEntry} {c : Clock}

theorem enable_failed (hclk : e.clk = some c) (hoff : ¬ (e.clkEnabled ∨ env.prepareEnable i = 0)) :
    e.enable tree tvcap env i s = (s, e) := by
  simp only [RateEntry.enable, hclk]
  rw [if_pos (not_or.mp hoff)]

theorem enable_on (hclk : e.clk = some c) (hon : e.clkEnabled ∨ env.prepareEnable i = 0) :
    e.enable tree tvcap env i s =
      let (s, e) := RateEntry.enableParent tree tvcap env i s c { e with clkEnabled := true }
      (if e.targetRate ≠ 0 then s.setRate c e.targetRate else s, e) := by
  simp only [RateEntry.enable, hclk]
  rw [if_neg (by tauto)]

end

section

variable {tree : Tree} {s : Clocks} {c : Clock} {rate : Nat}

def AtRate (tree : Tree) (s : Clocks) (c : Clock) (rate : Nat) : Prop :=
  ∃ p, (s.parent c = some p ∨ some p ∈ tree.parents c) ∧ s.rate p = rate

def takenParent (tree : Tree) (s : Clocks) (c : Clock) (rate : Nat) : Option Clock :=
  ((candidates tree s c).find? (canRound tree rate)).or (s.parent c)

theorem selectBestParent_rate : (selectBestParent tree s c rate).rate = s.rate := by
  unfold selectBestParent
  split
  · rfl
  · split
    · rfl
    · split <;> rfl

theorem mem_candidates {p : Clock} : p ∈ candidates tree s c ↔ some p ∈ tree.parents c ∧ s.parent c ≠ some p := by
  simp [candidates, List.mem_filter, List.reduceOption_mem_iff]

theorem selectBestParent_atRate (h : AtRate tree s c rate) :
    ∃ p, (selectBestParent tree s c rate).parent c = some p ∧ s.rate p = rate := by
  obtain ⟨p, hp, hrate⟩ := h
  unfold selectBestParent
  split
  · rename_i hown
    exact Option.map_eq_some_iff.mp hown
  · rename_i hown
    have hne : s.parent c ≠ some p := fun he => hown (by simp [he, hrate])
    have hmem : p ∈ candidates tree s c := mem_candidates.mpr ⟨hp.resolve_left hne, hne⟩
    split
    · rename_i q hq
      exact ⟨q, by simp [Clocks.setParent], by simpa using List.find?_some hq⟩
    · rename_i hnone
      exact absurd hrate (by simpa using List.find?_eq_none.mp hnone p hmem)

theorem selectBestParent_taken (h : ¬ AtRate tree s c rate) :
    (selectBestParent tree s c rate).parent c = takenParent tree s c rate := by
  have hown : (s.parent c).map s.rate ≠ some rate := by
    intro hown
    obtain ⟨p, hp, hrate⟩ := Option.map_eq_some_iff.mp hown
    exact h ⟨p, .inl hp, hrate⟩
  have hnone : (candidates tree s c).find? (fun p => s.rate p = rate) = none := by
    refine List.find?_eq_none.mpr fun p hp hrate => ?_
    exact h ⟨p, .inr (mem_candidates.mp hp).1, by simpa using hrate⟩
  rw [selectBestParent, if_neg hown, hnone, takenParent]
  cases (candidates tree s c).find? (canRound tree rate) with
  | none => rfl
  | some p => simp [Clocks.setParent]

theorem parent_of_taken {p : Clock} (h : takenParent tree s c rate = some p) :
    s.parent c = some p ∨ some p ∈ tree.parents c := by
  rcases Option.or_eq_some_iff.mp h with h | h
  · exact .inr (mem_candidates.mp (List.mem_of_find?_eq_some h)).1
  · exact .inl h.2

end

section

variable {tree : Tree} {tvcap : Bool} {env : Env} {i : Nat} {s : Clocks} {e : RateEntry} {held : List Clock}

def RateEntry.SetsRate (tvcap : Bool) (e : RateEntry) : Prop :=
  tvcap = false ∧ e.parentRate ≠ 0 ∧ e.parentClkEnabled = false
deriving Decidable

theorem enableParent_targetRate (c : Clock) : (e.enableParent tree tvcap env i s c).2.targetRate = e.targetRate := by
  unfold RateEntry.enableParent
  split
  · rfl
  · dsimp only
    split
    · rfl
    · split <;> rfl

theorem enableParent_rate (c q : Clock) : (e.enableParent tree tvcap env i s c).1.rate q =
    if e.SetsRate tvcap ∧ (selectBestParent tree s c e.parentRate).parent c = some q then e.parentRate
    else s.rate q := by
  by_cases h0 : e.parentRate = 0
  · rw [RateEntry.enableParent, if_pos h0, if_neg fun h => h.1.2.1 h0]
  rw [RateEntry.enableParent, if_neg h0]
  dsimp only
  cases hsel : (selectBestParent tree s c e.parentRate).parent c with
  | none => simp [selectBestParent_rate]
  | some p =>
    cases hpe : e.parentClkEnabled <;> cases tvcap <;>
      simp [RateEntry.SetsRate, selectBestParent_rate, Clocks.setRate_rate, h0, hpe, eq_comm]

theorem enable_rate (tree : Tree) (tvcap : Bool) (s : Clocks) {c : Clock} (hclk : e.clk = some c)
    (hon : e.clkEnabled ∨ env.prepareEnable i = 0) (q : Clock) : (e.enable tree tvcap env i s).1.rate q =
      if q = c ∧ e.targetRate ≠ 0 then e.targetRate
      else if e.SetsRate tvcap ∧ (selectBestParent tree s c e.parentRate).parent c = some q then e.parentRate
      else s.rate q := by
  rw [enable_on hclk hon]
  have hparent : (RateEntry.enableParent tree tvcap env i s c { e with clkEnabled := true }).1.rate q = _ :=
    enableParent_rate c q
  have htarget : (RateEntry.enableParent tree tvcap env i s c { e with clkEnabled := true }).2.targetRate =
    e.targetRate := enableParent_targetRate c
  dsimp only
  rw [htarget]
  by_cases h0 : e.targetRate = 0
  · rw [if_neg (not_not.mpr h0), if_neg (fun h => h.2 h0 : ¬ (q = c ∧ e.targetRate ≠ 0))]
    exact hparent
  · rw [if_pos h0, Clocks.setRate_rate]
    by_cases hq : q = c
    · rw [if_pos hq, if_pos ⟨hq, h0⟩]
    · rw [if_neg hq, if_neg (fun h => hq h.1 : ¬ (q = c ∧ e.targetRate ≠ 0))]
      exact hparent

/-- No clock in `held` gets another rate: the own one has the target rate already, and the parent that is
taken when all run at other rates is not held. -/
def Clear (tree : Tree) (tvcap : Bool) (env : Env) (i : Nat) (held : List Clock) (s : Clocks)
    (e : RateEntry) : Prop :=
  ∀ c, e.clk = some c → (e.clkEnabled ∨ env.prepareEnable i = 0) →
    (e.targetRate ≠ 0 → c ∈ held → s.rate c = e.targetRate) ∧
    (e.SetsRate tvcap → ¬ AtRate tree s c e.parentRate →
      ∀ p ∈ held, takenParent tree s c e.parentRate = some p → p = c ∧ e.targetRate ≠ 0)

def Keeps (tree : Tree) (tvcap : Bool) (env : Env) (i : Nat) (held : List Clock) (s : Clocks)
    (e : RateEntry) : Prop :=
  ∀ q ∈ held, (e.enable tree tvcap env i s).1.rate q = s.rate q

theorem keeps_iff_clear : Keeps tree tvcap env i held s e ↔ Clear tree tvcap env i held s e := by
  by_cases hon : ∃ c, e.clk = some c ∧ (e.clkEnabled ∨ env.prepareEnable i = 0)
  · obtain ⟨c, hclk, hon⟩ := hon
    have hrate := enable_rate tree tvcap s hclk hon
    have hclear : Clear tree tvcap env i held s e ↔ (e.targetRate ≠ 0 → c ∈ held → s.rate c = e.targetRate) ∧
        (e.SetsRate tvcap → ¬ AtRate tree s c e.parentRate →
          ∀ p ∈ held, takenParent tree s c e.parentRate = some p → p = c ∧ e.targetRate ≠ 0) := by
      refine ⟨fun h => h c hclk hon, fun h c' hc' _ => ?_⟩
      cases hclk.symm.trans hc'
      exact h
    rw [hclear]
    refine ⟨fun hk => ⟨fun h0 hc => ?_, fun hs hat p hp ht => ?_⟩, fun ⟨hown, hpar⟩ q hq => ?_⟩
    · rw [← hk c hc, hrate, if_pos ⟨rfl, h0⟩]
    · by_contra hno
      have hchanged := hk p hp
      rw [hrate, if_neg hno, selectBestParent_taken hat, if_pos ⟨hs, ht⟩] at hchanged
      exact hat ⟨p, parent_of_taken ht, hchanged.symm⟩
    · rw [hrate]
      split
      · rename_i h
        rw [h.1] at hq ⊢
        exact (hown h.2 hq).symm
      · rename_i hno
        split
        · rename_i h
          by_cases hat : AtRate tree s c e.parentRate
          · obtain ⟨p, hp, hpr⟩ := selectBestParent_atRate hat
            cases hp.symm.trans h.2
            exact hpr.symm
          · exact absurd (hpar h.1 hat q hq (selectBestParent_taken hat ▸ h.2)) hno
        · rfl
  · have hoff : (e.enable tree tvcap env i s).1 = s := by
      cases hclk : e.clk with
      | none => simp only [RateEntry.enable, hclk]
      | some c => rw [enable_failed hclk fun h => hon ⟨c, hclk, h⟩]
    refine iff_of_true (fun q _ => ?_) fun c hc h => absurd ⟨c, hc, h⟩ hon
    rw [hoff]

end

def RateEntry.sets (tvcap : Bool) (e e' : RateEntry) : Option Clock :=
  if e.SetsRate tvcap ∧ e'.clkEnabled then e'.parentClk else none

def EachEntry (P : Nat → List Clock → Clocks → RateEntry → Prop) (tree : Tree) (tvcap : Bool) (env : Env) :
    Nat → List Clock → Clocks → List RateEntry → Prop
  | _, _, _, [] => True
  | i, held, s, e :: es =>
    let (s', e') := e.enable tree tvcap env i s
    P i held s e ∧ EachEntry P tree tvcap env (i + 1) (held ++ (e.sets tvcap e').toList) s' es

/-- No entry changes the rate of a parent that was set for an earlier one. -/
def RatesKept (tree : Tree) (tvcap : Bool) (env : Env) (s : Clocks) (es : List RateEntry) : Prop :=
  EachEntry (Keeps tree tvcap env) tree tvcap env 0 [] s es

/-- Every entry that needs a parent's rate can have a parent, none of them at two rates. -/
def Assignable (tree : Tree) (es : List RateEntry) : Prop :=
  ∃ f : Clock → Clock, ∀ e ∈ es, ∀ c, e.clk = some c → e.parentRate ≠ 0 →
    some (f c) ∈ tree.parents c ∧ canRound tree e.parentRate (f c) ∧
      ∀ e' ∈ es, ∀ c', e'.clk = some c' → e'.parentRate ≠ 0 → f c = f c' → e.parentRate = e'.parentRate

/-- The list keeps the rates it has set exactly when every entry finds the way clear. -/
theorem rates_kept_iff (tree : Tree) (tvcap : Bool) (env : Env) (s : Clocks) (es : List RateEntry) :
    RatesKept tree tvcap env s es ↔ EachEntry (Clear tree tvcap env) tree tvcap env 0 [] s es := by
  have hcongr : Keeps tree tvcap env = Clear tree tvcap env := by
    funext i held s e
    exact propext keeps_iff_clear
  rw [RatesKept, hcongr]

def twoParents : Tree := ⟨fun _ => [some 10, some 11], fun _ rate => rate⟩

def twoEntries : List RateEntry := [⟨some 0, none, 324, 0, false, false⟩, ⟨some 1, none, 1296, 0, false, false⟩]

def allWell : Env := ⟨fun _ => 0, fun _ => true, fun _ => 0, 0, 0, 0⟩

theorem rates_lost : Assignable twoParents twoEntries ∧
    ¬ RatesKept twoParents false allWell ⟨fun _ => 24, fun _ => some 10⟩ twoEntries := by
  refine ⟨⟨fun c => if c = 0 then 10 else 11, ?_⟩, ?_⟩
  · simp [twoEntries, twoParents, canRound]
  · intro h
    have hkept := h.2.1 11 (by decide)
    exact absurd hkept (by decide)

end H713.Tvtop
