import Mathlib.Algebra.Ring.Nat
import Mathlib.Logic.Function.Basic
import H713.Lib.Run

/-!
# Iommu.Bypass

Which masters the IOMMU translates. `of_xlate` collects in a shadow what the device tree asks for, and the enable
path copies it to `IOMMU_BYPASS_REG` once; what comes after that reaches the shadow only.
-/

namespace H713.Iommu

structure Variant where
  numMasters : Nat
  numDtCells : Nat

def h6 : Variant := ⟨6, 1⟩
def h713 : Variant := ⟨7, 2⟩

def bit (i : Nat) : BitVec 32 := BitVec.twoPow 32 i

def Variant.masterMask (v : Variant) : BitVec 32 := BitVec.ofNat 32 (2 ^ v.numMasters - 1)

structure Regs where
  ttb : Nat
  tlbPrefetch : BitVec 32
  bypass : BitVec 32
  intEnable : BitVec 32
  enable : Bool

structure Dev where
  variant : Variant
  bypass : BitVec 32
  domain : Option Nat
  regs : Regs

def probe (variant : Variant) (regs : Regs) : Dev where
  variant := variant
  bypass := if variant.numDtCells > 1 then variant.masterMask else 0
  domain := none
  regs := regs

structure Spec where
  pdev : Bool
  drvdata : Bool
  id : Nat
  argsCount : Nat
  arg1 : Nat
  addIds : Int

def Spec.bypasses (x : Spec) (v : Variant) : Bool := v.numDtCells > 1 && x.argsCount > 1 && x.arg1 = 0

def Spec.accepted (x : Spec) (v : Variant) : Bool := x.pdev && x.drvdata && x.id < v.numMasters

def Dev.ofXlate (d : Dev) (x : Spec) : Int × Dev :=
  if ¬ x.pdev then (-19, d)
  else if ¬ x.drvdata then (-19, d)
  else if x.id ≥ d.variant.numMasters then (-22, d)
  else if d.variant.numDtCells > 1 ∧ x.argsCount > 1 ∧ x.arg1 = 0 then
    (x.addIds, { d with bypass := d.bypass ||| bit x.id })
  else (x.addIds, { d with bypass := d.bypass &&& ~~~ bit x.id })

structure Env where
  dtDma : Nat
  deassert : Int
  prepareEnable : Int
  flushAllTlb : Int

def Dev.enable (d : Dev) (env : Env) : Int × Dev :=
  if d.domain = none then (0, d)
  else if env.deassert ≠ 0 then (env.deassert, d)
  else if env.prepareEnable ≠ 0 then (env.prepareEnable, d)
  else
    let regs := { d.regs with
      ttb := env.dtDma
      tlbPrefetch := d.variant.masterMask
      bypass := d.bypass
      intEnable := bit 16 ||| bit 17 ||| d.variant.masterMask }
    if env.flushAllTlb ≠ 0 then (env.flushAllTlb, { d with regs := regs })
    else (0, { d with regs := { regs with enable := true } })

def Dev.attach (d : Dev) (domain : Nat) (env : Env) : Int × Dev :=
  if d.domain.isSome then (0, d) else Dev.enable { d with domain := some domain } env

structure Sys where
  dev : Dev
  asked : Nat → Bool

inductive Call where
  | ofXlate (x : Spec)
  | attach (domain : Nat) (env : Env)

def step (s : Sys) : Call → Out Sys Int
  | .ofXlate x =>
    .ret (s.dev.ofXlate x).1
      { dev := (s.dev.ofXlate x).2
        asked := if x.accepted s.dev.variant ∧ ¬ x.bypasses s.dev.variant then
          Function.update s.asked x.id true else s.asked }
  | .attach domain env =>
    .ret (s.dev.attach domain env).1 { s with dev := (s.dev.attach domain env).2 }

/-- The register is the shadow, and every master asked to translate is translated. -/
def Agrees (s : Sys) : Prop :=
  s.dev.regs.enable →
    s.dev.regs.bypass = s.dev.bypass ∧
      ∀ m < s.dev.variant.numMasters, s.asked m → s.dev.regs.bypass.getLsbD m = false

instance (s : Sys) : Decidable (Agrees s) := inferInstanceAs (Decidable (_ → _ ∧ _))

def Dev.Starts (d : Dev) (env : Env) : Prop :=
  d.domain = none ∧ env.deassert = 0 ∧ env.prepareEnable = 0 ∧ env.flushAllTlb = 0
deriving Decidable

/-- A late specifier asks for what is set, and at the attachment no asked master is bypassed. -/
def Fits (s : Sys) : Call → Prop
  | .ofXlate x =>
    s.dev.regs.enable → x.accepted s.dev.variant →
      s.dev.bypass.getLsbD x.id = x.bypasses s.dev.variant
  | .attach _ env =>
    s.dev.Starts env → ∀ m < s.dev.variant.numMasters, s.asked m → s.dev.bypass.getLsbD m = false

instance (s : Sys) : DecidablePred (Fits s) := fun c => by
  cases c <;> unfold Fits <;> infer_instance

theorem or_bit_eq_self {b : BitVec 32} {i : Nat} (hi : i < 32) : b ||| bit i = b ↔ b.getLsbD i = true := by
  constructor
  · intro h
    have hbit := congrArg (fun c => c.getLsbD i) h
    simpa [bit, hi] using hbit
  · intro h
    apply BitVec.eq_of_getLsbD_eq
    intro j hj
    by_cases hij : i = j
    · subst hij
      simp [bit, h]
    · simp [bit, hij]

theorem and_not_bit_eq_self {b : BitVec 32} {i : Nat} (hi : i < 32) :
    b &&& ~~~ bit i = b ↔ b.getLsbD i = false := by
  constructor
  · intro h
    have hbit := congrArg (fun c => c.getLsbD i) h
    simpa [bit, hi] using hbit.symm
  · intro h
    apply BitVec.eq_of_getLsbD_eq
    intro j hj
    by_cases hij : i = j
    · subst hij
      simp [bit, h]
    · simp [bit, hj, Ne.symm hij]

def Dev.asks (d : Dev) (x : Spec) : BitVec 32 :=
  if x.bypasses d.variant then d.bypass ||| bit x.id else d.bypass &&& ~~~ bit x.id

theorem Dev.ofXlate_snd (d : Dev) (x : Spec) :
    (d.ofXlate x).2 = if x.accepted d.variant then { d with bypass := d.asks x } else d := by
  unfold ofXlate
  by_cases hacc : x.accepted d.variant
  · obtain ⟨⟨hp, hd⟩, hi⟩ : (x.pdev ∧ x.drvdata) ∧ x.id < d.variant.numMasters := by
      simpa [Spec.accepted] using hacc
    rw [if_pos hacc, if_neg (by simp [hp]), if_neg (by simp [hd]), if_neg (by omega)]
    by_cases hb : d.variant.numDtCells > 1 ∧ x.argsCount > 1 ∧ x.arg1 = 0
    · simp [asks, Spec.bypasses, hb]
    · rw [if_neg hb]
      have : x.bypasses d.variant = false := by simpa [Spec.bypasses, and_assoc] using hb
      simp [asks, this]
  · rw [if_neg hacc]
    split
    · rfl
    · split
      · rfl
      · rename_i hp hd
        have hi : x.id ≥ d.variant.numMasters := by
          simp only [not_not] at hp hd
          simpa [Spec.accepted, hp, hd] using hacc
        rw [if_pos hi]

variable {d : Dev} {x : Spec} {s : Sys} {m : Nat}

theorem Dev.asks_eq_self (hi : x.id < 32) : d.asks x = d.bypass ↔ d.bypass.getLsbD x.id = x.bypasses d.variant := by
  unfold asks
  split
  · rename_i hb
    rw [or_bit_eq_self hi, hb]
  · rename_i hb
    rw [and_not_bit_eq_self hi, Bool.eq_false_iff.mpr hb]

theorem Dev.attach_of_starts (domain : Nat) {env : Env} (h : d.Starts env) :
    (d.attach domain env).2.regs.enable = true ∧ (d.attach domain env).2.regs.bypass = d.bypass ∧
      (d.attach domain env).2.bypass = d.bypass := by
  obtain ⟨hdom, hdeassert, hclk, hflush⟩ := h
  simp [attach, enable, hdom, hdeassert, hclk, hflush]

theorem Dev.attach_of_not_starts (domain : Nat) {env : Env} (h : ¬ d.Starts env) : (d.attach domain env).2 = d ∨
      d.domain = none ∧ (d.attach domain env).2.regs.enable = d.regs.enable := by
  by_cases hdom : d.domain = none
  · right
    refine ⟨hdom, ?_⟩
    unfold attach enable
    rw [if_neg (by simp [hdom]), if_neg (by simp)]
    split
    · rfl
    · split
      · rfl
      · dsimp only
        split
        · rfl
        · rename_i hdeassert hclk hflush
          exact absurd ⟨hdom, by simpa using hdeassert, by simpa using hclk, by simpa using hflush⟩ h
  · left
    unfold attach
    rw [if_pos (Option.isSome_iff_ne_none.mpr hdom)]

theorem Dev.enable_frame (d : Dev) (env : Env) :
    (d.enable env).2.domain = d.domain ∧ (d.enable env).2.variant = d.variant := by
  unfold enable
  split
  · exact ⟨rfl, rfl⟩
  · split
    · exact ⟨rfl, rfl⟩
    · split
      · exact ⟨rfl, rfl⟩
      · dsimp only
        split <;> exact ⟨rfl, rfl⟩

theorem Dev.attach_frame (d : Dev) (domain : Nat) (env : Env) :
    (d.attach domain env).2.domain ≠ none ∧ (d.attach domain env).2.variant = d.variant := by
  unfold attach
  split
  · rename_i h
    exact ⟨Option.isSome_iff_ne_none.mp h, rfl⟩
  · obtain ⟨hd, hv⟩ := Dev.enable_frame { d with domain := some domain } env
    exact ⟨by rw [hd]; simp, hv⟩

def Attached (s : Sys) : Prop := s.dev.regs.enable → s.dev.domain ≠ none

theorem agrees_asks_iff (h : Agrees s) (hon : s.dev.regs.enable) (hi : x.id < 32) :
    Agrees ⟨{ s.dev with bypass := s.dev.asks x },
        if ¬ x.bypasses s.dev.variant then Function.update s.asked x.id true else s.asked⟩ ↔
      s.dev.bypass.getLsbD x.id = x.bypasses s.dev.variant := by
  obtain ⟨hreg, hclear⟩ := h hon
  rw [← Dev.asks_eq_self hi]
  constructor
  · intro ha
    exact (ha hon).1.symm.trans hreg
  · intro hsame _
    refine ⟨hreg.trans hsame.symm, fun m hlt hm => ?_⟩
    split at hm
    · rename_i hb
      by_cases hmi : m = x.id
      · subst hmi
        show s.dev.regs.bypass.getLsbD x.id = false
        rw [hreg, (Dev.asks_eq_self hi).mp hsame]
        simpa using hb
      · exact hclear m hlt (by simpa [hmi] using hm)
    · exact hclear m hlt hm

theorem step_agrees_iff {s' : Sys} {c : Call} {ret : Int} (hv : s.dev.variant.numMasters ≤ 32) (h : Agrees s)
    (hat : Attached s) (hs : step s c = .ret ret s') : Agrees s' ↔ Fits s c := by
  cases c with
  | ofXlate x =>
    simp only [step, Out.ret.injEq] at hs
    obtain ⟨-, rfl⟩ := hs
    rw [Dev.ofXlate_snd]
    unfold Fits
    by_cases hacc : x.accepted s.dev.variant
    · have hi : x.id < 32 := by
        have : x.id < s.dev.variant.numMasters := by
          simp only [Spec.accepted, Bool.and_eq_true, decide_eq_true_eq] at hacc
          exact hacc.2
        omega
      by_cases hon : s.dev.regs.enable
      · simpa [hacc, hon] using agrees_asks_iff h hon hi
      · simp [Agrees, hacc, hon]
    · simpa [hacc] using h
  | attach domain env =>
    simp only [step, Out.ret.injEq] at hs
    obtain ⟨-, rfl⟩ := hs
    unfold Fits
    by_cases hst : s.dev.Starts env
    · obtain ⟨hon, hreg, hshadow⟩ := Dev.attach_of_starts domain hst
      simp [Agrees, hon, hreg, hshadow, hst, (s.dev.attach_frame domain env).2]
    · refine iff_of_true ?_ fun h => absurd h hst
      obtain heq | ⟨hdom, hen⟩ := Dev.attach_of_not_starts domain hst
      · rw [heq]
        exact h
      · intro hon
        exact absurd hdom (hat (hen.symm.trans hon))

theorem step_attached {s' : Sys} {c : Call} {ret : Int} (hat : Attached s) (hs : step s c = .ret ret s') :
    Attached s' ∧ s'.dev.variant = s.dev.variant := by
  cases c with
  | ofXlate x =>
    simp only [step, Out.ret.injEq] at hs
    obtain ⟨-, rfl⟩ := hs
    rw [Dev.ofXlate_snd]
    split <;> exact ⟨hat, rfl⟩
  | attach domain env =>
    simp only [step, Out.ret.injEq] at hs
    obtain ⟨-, rfl⟩ := hs
    obtain ⟨hd, hv⟩ := s.dev.attach_frame domain env
    exact ⟨fun _ => hd, hv⟩

/-- In every run whose calls all fit, the register agrees with the shadow; and the next call keeps that
exactly when it fits too. -/
theorem bypass_agrees {regs : Regs} {calls : List Call} {s : Sys} (hoff : regs.enable = false)
    (hr : Run step Fits ⟨probe h713 regs, fun _ => false⟩ calls s) :
    Agrees s ∧ ∀ c ret s', step s c = .ret ret s' → (Agrees s' ↔ Fits s c) := by
  have hinv : (Agrees s ∧ Attached s) ∧ s.dev.variant = h713 := by
    refine hr.inv (I := fun s => (Agrees s ∧ Attached s) ∧ s.dev.variant = h713) ?_ ?_
    · rintro s c ret s' ⟨⟨h, hat⟩, hv⟩ hc hs
      obtain ⟨hat', hv'⟩ := step_attached hat hs
      exact ⟨⟨(step_agrees_iff (by rw [hv]; decide) h hat hs).mpr hc, hat'⟩, hv'.trans hv⟩
    · refine ⟨⟨?_, ?_⟩, rfl⟩ <;> intro hon <;> cases hoff.symm.trans hon
  obtain ⟨⟨h, hat⟩, hv⟩ := hinv
  exact ⟨h, fun c ret s' hs => step_agrees_iff (by rw [hv]; decide) h hat hs⟩

def resetRegs : Regs := ⟨0, 0, 0x7f, 0, false⟩

def spec (id flag : Nat) : Spec := ⟨true, true, id, 2, flag, 0⟩

theorem bypass_agrees_ve : ∃ s, Run step Fits ⟨probe h713 resetRegs, fun _ => false⟩
        [.ofXlate (spec 0 1), .ofXlate (spec 2 0), .attach 0 ⟨0x40000000, 0, 0, 0⟩] s ∧
      Agrees s ∧ s.dev.regs.enable ∧ s.dev.regs.bypass = 0x7e := by
  refine Run.exists_of_exec_imp
    (P := fun s => s.dev.regs.enable ∧ s.dev.regs.bypass = 0x7e) (by decide +kernel) fun s hr hend => ?_
  exact ⟨(bypass_agrees rfl hr).1, hend⟩

theorem late_specifier_ignored : ∃ s, Run step (fun _ _ => True) ⟨probe h713 resetRegs, fun _ => false⟩
        [.ofXlate (spec 0 1), .attach 0 ⟨0x40000000, 0, 0, 0⟩, .ofXlate (spec 1 1)] s ∧
      s.dev.regs.enable ∧ s.dev.regs.bypass ≠ s.dev.bypass ∧ s.asked 1 ∧ s.dev.regs.bypass.getLsbD 1 := by
  exact Run.exists_of_exec (by decide +kernel)

def Dev.ofXlates (d : Dev) (xs : List Spec) : Dev := xs.foldl (fun d x => (d.ofXlate x).2) d

def Spec.Decides (x : Spec) (v : Variant) (m : Nat) : Prop := x.accepted v ∧ x.id = m

/-- What the specifiers ask for one master is the same. -/
def Concordant (v : Variant) (xs : List Spec) : Prop :=
  ∀ x ∈ xs, ∀ y ∈ xs, ∀ m, x.Decides v m → y.Decides v m → x.bypasses v = y.bypasses v

theorem Dev.ofXlate_variant (d : Dev) (x : Spec) : (d.ofXlate x).2.variant = d.variant := by
  rw [ofXlate_snd]
  split <;> rfl

theorem Dev.ofXlates_variant (d : Dev) (xs : List Spec) : (d.ofXlates xs).variant = d.variant := by
  induction xs generalizing d with
  | nil => rfl
  | cons x xs ih => exact (ih _).trans (d.ofXlate_variant x)

theorem Dev.getLsbD_asks (d : Dev) (x : Spec) (hm : m < 32) :
    (d.asks x).getLsbD m = if x.id = m then x.bypasses d.variant else d.bypass.getLsbD m := by
  unfold asks
  by_cases hid : x.id = m
  · subst hid
    cases x.bypasses d.variant <;> simp [bit, hm]
  · cases x.bypasses d.variant <;> simp [bit, hm, hid, Ne.symm hid]

theorem Dev.getLsbD_ofXlates (d : Dev) (xs : List Spec) (hm : m < 32) :
    (∃ x ∈ xs, x.Decides d.variant m ∧ (d.ofXlates xs).bypass.getLsbD m = x.bypasses d.variant) ∨
      (∀ x ∈ xs, ¬ x.Decides d.variant m) ∧ (d.ofXlates xs).bypass.getLsbD m = d.bypass.getLsbD m := by
  induction xs generalizing d with
  | nil => exact .inr ⟨fun x hx => absurd hx List.not_mem_nil, rfl⟩
  | cons x xs ih =>
    have hrest := ih (d.ofXlate x).2
    rw [ofXlate_variant] at hrest
    rcases hrest with ⟨y, hy, hdec, hbit⟩ | ⟨hnone, hbit⟩
    · exact .inl ⟨y, List.mem_cons_of_mem x hy, hdec, hbit⟩
    · by_cases hx : x.Decides d.variant m
      · refine .inl ⟨x, List.mem_cons_self, hx, hbit.trans ?_⟩
        rw [ofXlate_snd, if_pos hx.1, getLsbD_asks d x hm, if_pos hx.2]
      · refine .inr ⟨?_, hbit.trans ?_⟩
        · intro y hy
          rcases List.mem_cons.mp hy with rfl | hy
          · exact hx
          · exact hnone y hy
        · rw [ofXlate_snd]
          split
          · rename_i hacc
            rw [getLsbD_asks d x hm, if_neg fun hid => hx ⟨hacc, hid⟩]
          · rfl

theorem Dev.ofXlates_perm {xs ys : List Spec} (hc : Concordant d.variant xs) (hp : ys.Perm xs) :
    (d.ofXlates ys).bypass = (d.ofXlates xs).bypass := by
  refine BitVec.eq_of_getLsbD_eq fun m hm => ?_
  rcases d.getLsbD_ofXlates ys hm with ⟨y, hy, hdec, hbit⟩ | ⟨hnone, hbit⟩
  · rcases d.getLsbD_ofXlates xs hm with ⟨x, hx, hdec', hbit'⟩ | ⟨hnone', -⟩
    · rw [hbit, hbit', hc y (hp.mem_iff.mp hy) x hx m hdec hdec']
    · exact absurd hdec (hnone' y (hp.mem_iff.mp hy))
  · rcases d.getLsbD_ofXlates xs hm with ⟨x, hx, hdec', -⟩ | ⟨-, hbit'⟩
    · exact absurd hdec' (hnone x (hp.mem_iff.mpr hx))
    · rw [hbit, hbit']

theorem Dev.ofXlates_last (d : Dev) {xs : List Spec} (hx : x ∈ xs) (hm : m < 32) (hdec : x.Decides d.variant m) :
    ∃ ys, ys.Perm xs ∧ (d.ofXlates ys).bypass.getLsbD m = x.bypasses d.variant := by
  obtain ⟨l, l', rfl⟩ := List.append_of_mem hx
  refine ⟨l ++ l' ++ [x], ?_, ?_⟩
  · rw [List.append_assoc]
    exact List.Perm.append_left l (List.perm_append_singleton x l')
  · have hlast : d.ofXlates (l ++ l' ++ [x]) = ((d.ofXlates (l ++ l')).ofXlate x).2 := by
      rw [ofXlates, List.foldl_append]
      rfl
    have hvar := d.ofXlates_variant (l ++ l')
    rw [hlast, ofXlate_snd, if_pos (hvar ▸ hdec.1), getLsbD_asks _ x hm, if_pos hdec.2, hvar]

/-- The shadow is the same for every order of the calls exactly when no two devices ask for different things for one
master. -/
theorem bypass_order_iff (regs : Regs) (xs : List Spec) :
    (∀ ys, ys.Perm xs → ((probe h713 regs).ofXlates ys).bypass = ((probe h713 regs).ofXlates xs).bypass) ↔
      Concordant h713 xs := by
  refine ⟨fun h x hx y hy m hdec hdec' => ?_, fun hc ys hp => Dev.ofXlates_perm hc hp⟩
  have hm : m < 32 := by
    have hacc := hdec.1
    simp only [Spec.accepted, Bool.and_eq_true, decide_eq_true_eq, hdec.2] at hacc
    exact Nat.lt_trans hacc.2 (by decide)
  obtain ⟨us, hu, hbit⟩ := (probe h713 regs).ofXlates_last hx hm hdec
  obtain ⟨vs, hv, hbit'⟩ := (probe h713 regs).ofXlates_last hy hm hdec'
  rw [h us hu] at hbit
  rw [h vs hv] at hbit'
  exact hbit.symm.trans hbit'

theorem bypass_depends_on_order : ((probe h713 resetRegs).ofXlates [spec 0 1, spec 0 0]).bypass = 0x7f ∧
      ((probe h713 resetRegs).ofXlates [spec 0 0, spec 0 1]).bypass = 0x7e := by
  decide

end H713.Iommu
