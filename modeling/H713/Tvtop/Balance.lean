import H713.Tvtop.Resources

/-!
# Tvtop.Balance

Whenever all counts are back to 0, every clock, reset line and power domain is counted as before the first call.
What a run changes besides what the enabled submodules hold is its `drift`.
-/

namespace H713.Tvtop.Resources

open Function

def load (s : State) (r : Res) : Nat := ∑ t ∈ Finset.range 3, ((s.sub t).held t).count r

variable {type : Nat} {s s' : State}

theorem load_setSub (s : State) (ht : type ≤ 2) (sub : Sub) (c : Counts) (r : Res) :
    load (s.setSub type sub c) r + ((s.sub type).held type).count r = load s r + (sub.held type).count r :=
  Sums.sum_update (Finset.mem_range.mpr (Nat.lt_succ_of_le ht)) (fun t (sub : Sub) => (sub.held t).count r) s.sub sub

theorem held_le_load (s : State) (ht : type ≤ 2) (r : Res) : ((s.sub type).held type).count r ≤ load s r := by
  have := load_setSub s ht { s.sub type with enabled := false } s.counts r
  have hnone : ({ s.sub type with enabled := false }.held type).count r = 0 := by simp [Sub.held]
  omega

def drift (s s' : State) (r : Res) : Int := (s'.counts r - load s' r : Int) - (s.counts r - load s r)

theorem drift_trans (s s' s'' : State) (r : Res) : drift s s'' r = drift s s' r + drift s' s'' r := by
  unfold drift
  omega

theorem drift_count (s s' : State) (type : Nat) (n : Int) (r : Res) :
    drift (s.count type n) s' r = drift s s' r := rfl

theorem drift_setSub (s : State) (ht : type ≤ 2) (sub : Sub) (c : Counts) (r : Res) :
    drift s (s.setSub type sub c) r =
      (c r + ((s.sub type).held type).count r : Int) - (s.counts r + (sub.held type).count r) := by
  have := load_setSub s ht sub c r
  have hc : (s.setSub type sub c).counts r = c r := rfl
  rw [drift, hc]
  omega

structure SubAt (s : State) (type : Nat) : Prop where
  ok : (s.sub type).Ok
  disp : type = tvdisp → (s.sub type).pmDev = false
  nonneg : 0 ≤ s.refcount type
  lt : s.refcount type < 2 ^ 31
  off : s.refcount type = 0 → (s.sub type).enabled = false

def CanGet (s : State) (env : Nat → Env) (type : Nat) : Prop :=
  s.refcount type < 2 ^ 31 - 1 ∧ (s.refcount type = 0 → (s.sub type).Keeps type (env type))
deriving Decidable

structure Sided (s s' : State) : Prop where
  above : ∀ r, (∀ t, r ≠ .pm t) → 0 ≤ drift s s' r
  below : ∀ t, drift s s' (.pm t) ≤ 0

theorem Sided.drift_eq_zero {s'' : State} (h : Sided s s') (h' : Sided s' s'') (hzero : ∀ r, drift s s'' r = 0) :
    (∀ r, drift s s' r = 0) ∧ ∀ r, drift s' s'' r = 0 := by
  have hboth : ∀ r, drift s s' r = 0 ∧ drift s' s'' r = 0 := by
    intro r
    have hsum := drift_trans s s' s'' r
    rw [hzero r] at hsum
    by_cases hpm : ∃ t, r = .pm t
    · obtain ⟨t, rfl⟩ := hpm
      have := h.below t
      have := h'.below t
      omega
    · have := h.above r fun t ht => hpm ⟨t, ht⟩
      have := h'.above r fun t ht => hpm ⟨t, ht⟩
      omega
  exact ⟨fun r => (hboth r).1, fun r => (hboth r).2⟩

structure OnlyType (type : Nat) (s s' : State) : Prop where
  sub : ∀ t, t ≠ type → s'.sub t = s.sub t
  refcount : ∀ t, t ≠ type → s'.refcount t = s.refcount t

theorem SubAt.of_onlyType {t : Nat} (h : SubAt s t) (ho : OnlyType type s s') (hne : t ≠ type) : SubAt s' t := by
  have hsub := ho.sub t hne
  have hcount := ho.refcount t hne
  exact ⟨hsub ▸ h.ok, hsub ▸ h.disp, hcount ▸ h.nonneg, hcount ▸ h.lt, by rw [hsub, hcount]; exact h.off⟩

theorem canGet_of_onlyType {t : Nat} (ho : OnlyType type s s') (hne : t ≠ type) (env : Nat → Env) :
    CanGet s' env t ↔ CanGet s env t := by
  rw [CanGet, CanGet, ho.sub t hne, ho.refcount t hne]

theorem onlyType_setSub (s : State) (type : Nat) (n : Int) (sub : Sub) (c : Counts) :
    OnlyType type s ((s.count type n).setSub type sub c) :=
  ⟨fun _ hne => update_of_ne hne _ _, fun _ hne => update_of_ne hne _ _⟩

theorem onlyType_count (s : State) (type : Nat) (n : Int) : OnlyType type s (s.count type n) :=
  ⟨fun _ _ => rfl, fun _ hne => update_of_ne hne _ _⟩

structure Got (s : State) (env : Nat → Env) (type : Nat) (s' : State) : Prop where
  only : OnlyType type s s'
  refcount : s'.refcount type = Int.bmod (s.refcount type + 1) (2 ^ 32)
  sided : Sided s s'
  keeps : (∀ r, drift s s' r = 0) ↔ (s.refcount type = 0 → (s.sub type).Keeps type (env type))
  subAt : CanGet s env type → SubAt s' type

theorem bmod_succ {n : Int} (h0 : 0 ≤ n) (hlt : n < 2 ^ 31) :
    Int.bmod (n + 1) (2 ^ 32) = if n = 2 ^ 31 - 1 then -2 ^ 31 else n + 1 := by
  split
  · rename_i he
    rw [he]
    rfl
  · exact bmod_of_lt (by omega) (by omega)

theorem clkGetOwn_spec (ht : type ≤ 2) (h : SubAt s type) (env : Nat → Env) :
    Got s env type (s.clkGetOwn env type).2 := by
  have hcount : (s.count type 1).refcount type = Int.bmod (s.refcount type + 1) (2 ^ 32) :=
    update_self ..
  have hb := bmod_succ h.nonneg h.lt
  unfold State.clkGetOwn
  dsimp only
  by_cases hz : s.refcount type = 0
  · -- the first get
    have hone : (s.count type 1).refcount type = 1 := by
      rw [hcount, hz]
      rfl
    have hE := Sub.enableFn_spec ht h.ok (h.off hz) h.disp (env type) s.counts
    have hheld : ∀ r, ((s.sub type).held type).count r = 0 := fun r => by simp [Sub.held, h.off hz]
    rw [if_pos hone]
    have hsub : (s.count type 1).sub = s.sub := rfl
    have hcs : (s.count type 1).counts = s.counts := rfl
    rw [hsub, hcs]
    generalize Sub.enableFn type (s.sub type) (env type) s.counts = o at hE
    have hdrift : ∀ r, drift s ((s.count type 1).setSub type o.2.1 o.2.2) r =
        (o.2.2 r : Int) - (s.counts r + (o.2.1.held type).count r) := by
      intro r
      have := drift_setSub (s.count type 1) ht o.2.1 o.2.2 r
      rw [drift_count, hsub, hcs, hheld] at this
      simpa using this
    refine ⟨onlyType_setSub s type 1 _ _, hcount, ⟨fun r hr => ?_, fun t => ?_⟩, ?_, fun hcan => ?_⟩
    · have := hE.above r hr
      rw [hdrift]
      omega
    · have := hE.below t
      rw [hdrift]
      omega
    · have hiff : (∀ r, drift s ((s.count type 1).setSub type o.2.1 o.2.2) r = 0) ↔
          ∀ r, o.2.2 r = s.counts r + (o.2.1.held type).count r :=
        forall_congr' fun r => by rw [hdrift]; omega
      rw [hiff, hE.keeps]
      exact ⟨fun hk _ => hk, fun hk => hk hz⟩
    · have hself : ((s.count type 1).setSub type o.2.1 o.2.2).sub type = o.2.1 := update_self ..
      have hr : ((s.count type 1).setSub type o.2.1 o.2.2).refcount type = 1 := hone
      refine ⟨?_, ?_, ?_, ?_, ?_⟩
      · rw [hself]; exact hE.ok (hcan.2 hz)
      · rw [hself, hE.pmDev]; exact h.disp
      · rw [hr]; decide
      · rw [hr]; decide
      · rw [hr]; intro hc; exact absurd hc (by decide)
  · have hne : (s.count type 1).refcount type ≠ 1 := by
      have := h.nonneg
      rw [hcount, hb]
      split <;> omega
    rw [if_neg hne]
    have hdrift : ∀ r, drift s (s.count type 1) r = 0 := fun r => Int.sub_self _
    refine ⟨onlyType_count s type 1, hcount, ⟨fun r _ => ?_, fun t => ?_⟩, ?_, fun hcan => ?_⟩
    · exact Int.le_of_eq (hdrift r).symm
    · exact Int.le_of_eq (hdrift _)
    · exact ⟨fun _ h0 => absurd h0 hz, fun _ => hdrift⟩
    · have hlt := hcan.1
      have h0 := h.nonneg
      have hr : (s.count type 1).refcount type = s.refcount type + 1 := by
        rw [hcount, hb, if_neg (by omega)]
      refine ⟨h.ok, h.disp, ?_, ?_, ?_⟩
      · rw [hr]; omega
      · rw [hr]; omega
      · rw [hr]; intro hc; omega

theorem clkPutOwn_spec (ht : type ≤ 2) (h : SubAt s type) (hle : ∀ r, ((s.sub type).held type).count r ≤ s.counts r) :
    OnlyType type s (s.clkPutOwn type).2 ∧ SubAt (s.clkPutOwn type).2 type ∧
      ∀ r, drift s (s.clkPutOwn type).2 r = 0 := by
  unfold State.clkPutOwn
  dsimp only
  split
  · exact ⟨⟨fun _ _ => rfl, fun _ _ => rfl⟩, h, fun r => Int.sub_self _⟩
  · rename_i hz
    have h0 := h.nonneg
    have hlt := h.lt
    have hcount : (s.count type (-1)).refcount type = s.refcount type - 1 := by
      have hself : (s.count type (-1)).refcount type = Int.bmod (s.refcount type + -1) (2 ^ 32) :=
        update_self ..
      rw [hself, bmod_of_lt (by omega) (by omega)]
      rfl
    rw [hcount]
    split
    · rename_i hlast
      have hsub : (s.count type (-1)).sub = s.sub := rfl
      have hcs : (s.count type (-1)).counts = s.counts := rfl
      rw [hsub, hcs]
      obtain ⟨hc, hok, hoff, hpm⟩ := Sub.disable_spec h.ok type s.counts
      generalize (s.sub type).disable type s.counts = o at hc hok hoff hpm
      have hself : ((s.count type (-1)).setSub type o.1 o.2).sub type = o.1 := update_self ..
      have hr : ((s.count type (-1)).setSub type o.1 o.2).refcount type = s.refcount type - 1 := hcount
      refine ⟨onlyType_setSub s type (-1) _ _, ⟨?_, ?_, ?_, ?_, ?_⟩, fun r => ?_⟩
      · rw [hself]; exact hok
      · rw [hself, hpm]; exact h.disp
      · rw [hr]; omega
      · rw [hr]; omega
      · rw [hself]; exact fun _ => hoff
      · have hd := drift_setSub (s.count type (-1)) ht o.1 o.2 r
        have hnone : (o.1.held type).count r = 0 := by simp [Sub.held, hoff]
        have := hle r
        rw [drift_count, hsub, hcs, hc, hnone] at hd
        change drift s ((s.count type (-1)).setSub type o.1 o.2) r = 0
        omega
    · refine ⟨onlyType_count s type (-1), ⟨h.ok, h.disp, ?_, ?_, ?_⟩, fun r => Int.sub_self _⟩
      · rw [hcount]; omega
      · rw [hcount]; omega
      · rw [hcount]; intro hc; omega

/-- The counts are the initial ones and what is held, and a submodule without users is not enabled. -/
structure Balanced (init : Counts) (s : State) : Prop where
  counts : ∀ r, s.counts r = init r + load s r
  nonneg : ∀ type ≤ 2, 0 ≤ s.refcount type
  off : ∀ type ≤ 2, s.refcount type = 0 → (s.sub type).enabled = false

structure Inv (init : Counts) (s : State) : Prop where
  counts : ∀ r, s.counts r = init r + load s r
  subs : ∀ type ≤ 2, SubAt s type

/-- A get succeeds, and so does that of tvcap inside the first one of tvdisp. -/
def Fits (s : State) : Call → Prop
  | .get type env =>
    type ≤ 2 → CanGet s env type ∧ (type = tvdisp → s.refcount tvdisp = 0 → CanGet s env tvcap)
  | .put _ => True

section

variable {init : Counts} {s s' : State} {type : Nat}

theorem Balanced.drift (h : Balanced init s') (hi : Inv init s) (r : Res) : drift s s' r = 0 := by
  have := h.counts r
  have := hi.counts r
  unfold Resources.drift
  omega

theorem Inv.balanced (h : Inv init s) : Balanced init s :=
  ⟨h.counts, fun t ht => (h.subs t ht).nonneg, fun t ht => (h.subs t ht).off⟩

theorem Balanced.back (h : Balanced init s) (hzero : ∀ type ≤ 2, s.refcount type = 0) : s.counts = init := by
  funext r
  have hload : load s r = 0 := by
    refine Finset.sum_eq_zero fun t ht => ?_
    have ht' : t ≤ 2 := Nat.le_of_lt_succ (Finset.mem_range.mp ht)
    simp [Sub.held, h.off t ht' (hzero t ht')]
  rw [h.counts, hload, Nat.add_zero]

section

variable (h : Inv init s)

include h

theorem Inv.of_onlyType (ho : OnlyType type s s') (hat : SubAt s' type) (hd : ∀ r, Resources.drift s s' r = 0) :
    Inv init s' := by
  refine ⟨fun r => ?_, fun t ht => ?_⟩
  · have := hd r
    have := h.counts r
    unfold Resources.drift at *
    omega
  · by_cases hne : t = type
    · subst hne
      exact hat
    · exact (h.subs t ht).of_onlyType ho hne

theorem Inv.getOwn (ht : type ≤ 2) {env : Nat → Env} (hc : CanGet s env type) :
    Inv init (s.clkGetOwn env type).2 := by
  have hg := clkGetOwn_spec ht (h.subs type ht) env
  exact h.of_onlyType hg.only (hg.subAt hc) (hg.keeps.mpr hc.2)

theorem Inv.putOwn (ht : type ≤ 2) : Inv init (s.clkPutOwn type).2 := by
  have hle : ∀ r, ((s.sub type).held type).count r ≤ s.counts r := by
    intro r
    have := held_le_load s ht r
    have := h.counts r
    omega
  obtain ⟨ho, hat, hd⟩ := clkPutOwn_spec ht (h.subs type ht) hle
  exact h.of_onlyType ho hat hd

theorem Inv.put (type : Nat) : Inv init (s.clkPut type).2 := by
  unfold State.clkPut
  dsimp only
  split
  · exact h
  · have ht : type ≤ 2 := by omega
    split
    · exact (h.putOwn ht).putOwn (by decide)
    · exact h.putOwn ht

theorem Inv.first_iff (ht : type ≤ 2) (env : Nat → Env) :
    (type = tvdisp ∧ (s.clkGetOwn env type).2.refcount type = 1) ↔ (type = tvdisp ∧ s.refcount tvdisp = 0) := by
  have hat := h.subs type ht
  have hg := clkGetOwn_spec ht hat env
  have h0 := hat.nonneg
  rw [hg.refcount, bmod_succ h0 hat.lt]
  constructor
  · rintro ⟨rfl, hone⟩
    refine ⟨rfl, ?_⟩
    split at hone <;> omega
  · rintro ⟨rfl, hz⟩
    refine ⟨rfl, ?_⟩
    rw [hz]
    decide

end

theorem canGet_of_drift {env : Nat → Env} (hg : Got s env type s') (hat : SubAt s type)
    (hd : ∀ r, drift s s' r = 0) (h0 : 0 ≤ s'.refcount type) : CanGet s env type := by
  refine ⟨?_, hg.keeps.mp hd⟩
  have hlt := hat.lt
  rw [hg.refcount, bmod_succ hat.nonneg hlt] at h0
  split at h0
  · omega
  · omega

theorem Inv.get_iff (h : Inv init s) (ht : type ≤ 2) (env : Nat → Env) :
    (Fits s (.get type env) → Inv init (s.clkGet env type).2) ∧
      (Balanced init (s.clkGet env type).2 → Fits s (.get type env)) := by
  have hat := h.subs type ht
  have hg := clkGetOwn_spec ht hat env
  have hfirst := h.first_iff ht env
  have hget : (s.clkGet env type).2 =
      if type = tvdisp ∧ s.refcount tvdisp = 0 then ((s.clkGetOwn env type).2.clkGetOwn env tvcap).2
      else (s.clkGetOwn env type).2 := by
    unfold State.clkGet
    dsimp only
    rw [if_neg (by omega)]
    simp only [hfirst]
    split <;> rfl
  rw [hget]
  split
  · rename_i hf
    obtain ⟨rfl, hz⟩ := hf
    have hne : tvcap ≠ tvdisp := by decide
    have hcap : SubAt (s.clkGetOwn env tvdisp).2 tvcap := (h.subs tvcap (by decide)).of_onlyType hg.only hne
    have hg' := clkGetOwn_spec (by decide) hcap env
    constructor
    · intro hfit
      have hc' := (canGet_of_onlyType hg.only hne env).mpr ((hfit ht).2 rfl hz)
      exact (h.getOwn ht (hfit ht).1).getOwn (by decide) hc'
    · intro hb _
      obtain ⟨hd, hd'⟩ := hg.sided.drift_eq_zero hg'.sided (hb.drift h)
      have hdisp : ((s.clkGetOwn env tvdisp).2.clkGetOwn env tvcap).2.refcount tvdisp =
          (s.clkGetOwn env tvdisp).2.refcount tvdisp := hg'.only.refcount tvdisp (by decide)
      have hc := canGet_of_drift hg hat hd (by rw [← hdisp]; exact hb.nonneg tvdisp ht)
      have hc' := canGet_of_drift hg' hcap hd' (hb.nonneg tvcap (by decide))
      exact ⟨hc, fun _ _ => (canGet_of_onlyType hg.only hne env).mp hc'⟩
  · rename_i hf
    constructor
    · exact fun hfit => h.getOwn ht (hfit ht).1
    · intro hb _
      exact ⟨canGet_of_drift hg hat (hb.drift h) (hb.nonneg type ht), fun he hz => absurd ⟨he, hz⟩ hf⟩

theorem Inv.step (h : Inv init s) {call : Call} {ret : Int} (hf : Fits s call) (hs : step s call = .ret ret s') :
    Inv init s' := by
  cases call with
  | get type env =>
    cases hs
    by_cases ht : type ≤ 2
    · exact (h.get_iff ht env).1 hf
    · have : s.clkGet env type = (-22, s) := if_pos (by omega)
      rw [this]
      exact h
  | put type =>
    cases hs
    exact h.put type

theorem Inv.balanced_iff (h : Inv init s) {call : Call} {ret : Int} (hs : Resources.step s call = .ret ret s') :
    Balanced init s' ↔ Fits s call := by
  refine ⟨fun hb => ?_, fun hf => (h.step hf hs).balanced⟩
  cases call with
  | get type env =>
    cases hs
    by_cases ht : type ≤ 2
    · exact (h.get_iff ht env).2 hb
    · exact fun ht' => absurd ht' ht
  | put type => trivial

end

structure Probed (s : State) : Prop where
  refcount : ∀ type ≤ 2, s.refcount type = 0
  enabled : ∀ type ≤ 2, (s.sub type).enabled = false
  off : ∀ type ≤ 2, (s.sub type).Off
  disp : (s.sub tvdisp).pmDev = false

theorem Probed.inv (h : Probed s) : Inv s.counts s := by
  refine ⟨fun r => ?_, fun t ht => ?_⟩
  · have hload : load s r = 0 := by
      refine Finset.sum_eq_zero fun t ht => ?_
      simp [Sub.held, h.enabled t (Nat.le_of_lt_succ (Finset.mem_range.mp ht))]
    rw [hload, Nat.add_zero]
  · have hoff := h.off t ht
    have hr := h.refcount t ht
    refine ⟨⟨fun e he => (hoff.entries e he).wf, fun hb => ?_, fun _ => hoff⟩, ?_, ?_, ?_, fun _ => h.enabled t ht⟩
    · rw [hoff.bus] at hb; cases hb
    · rintro rfl; exact h.disp
    · rw [hr]
    · rw [hr]; decide

/-- In every run of calls that fit, whenever all counts of users are back to 0 every resource is counted as it was
after probe; the next call leaves what is counted to be what is held exactly when it fits. -/
theorem counts_return_iff {s₀ s : State} {calls : List Call} (h : Probed s₀) (hr : Run step Fits s₀ calls s) :
    ((∀ type ≤ 2, s.refcount type = 0) → s.counts = s₀.counts) ∧
    ∀ call ret s', step s call = .ret ret s' → (Balanced s₀.counts s' ↔ Fits s call) := by
  have hinv : Inv s₀.counts s := hr.inv (I := Inv s₀.counts) (fun _ _ _ _ hi hf hs => hi.step hf hs) h.inv
  exact ⟨hinv.balanced.back, fun call ret s' hs => hinv.balanced_iff hs⟩

instance (s : State) (call : Call) : Decidable (Fits s call) := by
  cases call <;> unfold Fits <;> infer_instance

def probed : State where
  sub := fun t =>
    { busClk := some (10 + t), busClkEnabled := false, clkList := [⟨some t, none, 1, false, false⟩], rst := t,
      pmDev := t ≠ tvdisp, enabled := false }
  refcount := fun _ => 0
  counts := fun r => if r = .pm tvcap then 1 else 0

theorem probed_probed : Probed probed := by
  refine ⟨fun _ _ => rfl, fun _ _ => rfl, fun _ _ => ⟨fun e he => ?_, rfl⟩, rfl⟩
  rw [List.mem_singleton.mp he]
  exact ⟨rfl, rfl⟩

def answers (first deassert : Deassert) (resume : Int) : Nat → Env :=
  fun _ => ⟨fun _ => 0, fun _ => some 20, fun _ => 0, 0, first, deassert, resume⟩

theorem calls_refine_failed : ∃ s, Run step (fun _ _ => True) probed [.get 0 (answers .ok .refused 0)] s ∧
    s.refcount 0 = 1 ∧ Same s (Call.onDev Tvtop.probed.dev (.get 0 (answers .ok .refused 0))) :=
  Run.exists_of_exec_imp (P := fun s => s.refcount 0 = 1) (by decide +kernel)
    fun _ hr hone => ⟨hone, (calls_refine hr ⟨rfl, fun _ => rfl⟩).1⟩

theorem counts_return_iff_tvdisp :
    ∃ s, Run step Fits probed [.get 0 (answers .ok .ok 0), .get 1 (answers .ok .ok 0), .put 1, .put 0] s ∧
      s.counts = probed.counts := by
  refine Run.exists_of_exec_imp (P := fun s => ∀ type : Nat, type ≤ 2 → s.refcount type = 0)
    (by decide +kernel) fun s hr hz => ?_
  exact (counts_return_iff probed_probed hr).1 hz

theorem counts_do_not_return : (∃ s, Run step (fun _ _ => True) probed [.get 2 (answers .ok .ok 0), .put 2] s ∧
      (∀ type ≤ 2, s.refcount type = 0) ∧ probed.counts (.rst 2) = 0 ∧ s.counts (.rst 2) = 1) ∧
    (∃ s, Run step (fun _ _ => True) probed [.get 0 (answers .ok .refused 0), .put 0] s ∧
      (∀ type ≤ 2, s.refcount type = 0) ∧ probed.counts (.clk 0) = 0 ∧ s.counts (.clk 0) = 1) ∧
    ∃ s, Run step (fun _ _ => True) probed [.get 1 (answers .ok .ok (-110)), .put 1] s ∧
      (∀ type ≤ 2, s.refcount type = 0) ∧ probed.counts (.pm 1) = 1 ∧ s.counts (.pm 1) = 0 :=
  ⟨Run.exists_of_exec (by decide +kernel), Run.exists_of_exec (by decide +kernel),
    Run.exists_of_exec (by decide +kernel)⟩

end H713.Tvtop.Resources
