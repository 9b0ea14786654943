import Mathlib.Algebra.Ring.Int.Defs
import Mathlib.Algebra.Ring.Nat
import Mathlib.Logic.Function.Basic
import H713.Lib.Run

/-!
# Tvtop.Clk

`sunxi_tvtop_clk_get` and `sunxi_tvtop_clk_put` on the submodules tvdisp, tvcap and tvfe. What a clock, a reset line
or a parent answers is an argument of the call. A call counts before it enables, and nothing is taken back when the
enable fails. Registers, rates and power domains are left out.
-/

namespace H713.Tvtop

open Function

structure ClkEntry where
  clk : Bool
  parentClk : Bool
  parentRate : Nat
  clkEnabled : Bool
  parentClkEnabled : Bool

structure Submodule where
  busClk : Bool
  busClkEnabled : Bool
  clkList : List ClkEntry
  released : Bool
  enabled : Bool

structure Env where
  prepareEnable : Nat → Int
  getParent : Nat → Bool
  prepareEnableParent : Nat → Int
  busClk : Int
  firstDeassert : Int
  deassert : Int

structure Dev where
  sub : Nat → Submodule
  refcount : Nat → Int

def tvdisp : Nat := 0
def tvcap : Nat := 1
def tvfe : Nat := 2

def ClkEntry.enable (e : ClkEntry) (env : Env) (i : Nat) : ClkEntry :=
  -- a clock that fails is skipped with its parent
  if e.clk ∧ ¬ e.clkEnabled ∧ env.prepareEnable i ≠ 0 then e
  else
    let e := { e with clkEnabled := e.clkEnabled || e.clk }
    if e.parentRate = 0 then e
    else
      let e := { e with parentClk := env.getParent i }
      if ¬ e.parentClk ∨ e.parentClkEnabled then e
      else { e with parentClkEnabled := env.prepareEnableParent i = 0 }

namespace Submodule

def clockEnable (sub : Submodule) (env : Env) : Submodule :=
  { sub with clkList := sub.clkList.mapIdx fun i e => e.enable env i }

def busClkEnable (sub : Submodule) (env : Env) : Submodule :=
  if sub.busClk ∧ ¬ sub.busClkEnabled then { sub with busClkEnabled := env.busClk = 0 } else sub

def deassert (sub : Submodule) (ret : Int) : Submodule :=
  if ret = 0 then { sub with released := true } else sub

def enable (sub : Submodule) (env : Env) : Int × Submodule :=
  if sub.enabled then (0, sub)
  else
    let sub := ((sub.clockEnable env).busClkEnable env).deassert env.deassert
    if env.deassert ≠ 0 then (env.deassert, sub) else (0, { sub with enabled := true })

def tvdispEnable (sub : Submodule) (env : Env) : Int × Submodule := sub.enable env

def tvcapEnable (sub : Submodule) (env : Env) : Int × Submodule := sub.enable env

def tvfeEnable (sub : Submodule) (env : Env) : Int × Submodule :=
  if sub.enabled then (0, sub) else (sub.deassert env.firstDeassert).enable env

def enableFn (type : Nat) : Submodule → Env → Int × Submodule :=
  if type = tvdisp then tvdispEnable else if type = tvcap then tvcapEnable else tvfeEnable

def disable (sub : Submodule) : Submodule :=
  if ¬ sub.enabled then sub
  else
    { sub with
      clkList := sub.clkList.map fun e =>
        { e with clkEnabled := e.clkEnabled && !e.clk
                 parentClkEnabled := e.parentClkEnabled && !e.parentClk }
      released := false
      busClkEnabled := sub.busClkEnabled && !sub.busClk
      enabled := false }

end Submodule

namespace Dev

def setSub (d : Dev) (type : Nat) (sub : Submodule) : Dev :=
  { d with sub := update d.sub type sub }

def count (d : Dev) (type : Nat) (n : Int) : Dev :=
  { d with refcount := update d.refcount type (Int.bmod (d.refcount type + n) (2 ^ 32)) }

def clkGetOwn (d : Dev) (env : Nat → Env) (type : Nat) : Int × Dev :=
  let d := d.count type 1
  if d.refcount type = 1 then
    let (ret, sub) := Submodule.enableFn type (d.sub type) (env type)
    (ret, d.setSub type sub)
  else (0, d)

def clkGet (d : Dev) (env : Nat → Env) (type : Nat) : Int × Dev :=
  if type > 2 then (-22, d)
  else
    let (ret, d') := d.clkGetOwn env type
    if type = tvdisp ∧ d'.refcount type = 1 then
      let (retTvcap, d'') := d'.clkGetOwn env tvcap
      (if ret = 0 then retTvcap else ret, d'')
    else (ret, d')

def clkPutOwn (d : Dev) (type : Nat) : Int × Dev :=
  if d.refcount type = 0 then (-1, d)
  else
    let d := d.count type (-1)
    if d.refcount type = 0 then (0, d.setSub type (d.sub type).disable) else (0, d)

def clkPut (d : Dev) (type : Nat) : Int × Dev :=
  if type > 2 then (-22, d)
  else
    let (ret, d') := d.clkPutOwn type
    if ret = 0 ∧ type = tvdisp ∧ d'.refcount type = 0 then (ret, (d'.clkPutOwn tvcap).2) else (ret, d')

def enabled (d : Dev) (type : Nat) : Bool := (d.sub type).enabled

end Dev

structure Sys where
  dev : Dev
  held : Nat → Nat

inductive Call where
  | get (type : Nat) (env : Nat → Env)
  | put (type : Nat)

def step (s : Sys) : Call → Out Sys Int
  | .get type env =>
    let (ret, dev) := s.dev.clkGet env type
    .ret ret ⟨dev, if ret = 0 then update s.held type (s.held type + 1) else s.held⟩
  | .put type =>
    let (ret, dev) := s.dev.clkPut type
    .ret ret ⟨dev, if ret = 0 then update s.held type (s.held type - 1) else s.held⟩

theorem step_get_of_gt (s : Sys) {type : Nat} (ht : ¬ type ≤ 2) (env : Nat → Env) :
    step s (.get type env) = .ret (-22) s := by
  have hget : s.dev.clkGet env type = (-22, s.dev) := if_pos (by omega)
  simp [step, hget]

theorem step_put_of_gt (s : Sys) {type : Nat} (ht : ¬ type ≤ 2) : step s (.put type) = .ret (-22) s := by
  have hput : s.dev.clkPut type = (-22, s.dev) := if_pos (by omega)
  simp [step, hput]

/-- No more is put than was got. -/
def Allowed (s : Sys) : Call → Prop
  | .get _ _ => True
  | .put type => type ≤ 2 → 0 < s.held type

instance (s : Sys) : DecidablePred (Allowed s) := fun c => by
  cases c <;> unfold Allowed <;> infer_instance

def Dev.CanGet (d : Dev) (env : Nat → Env) (type : Nat) : Prop :=
  d.refcount type < 2 ^ 31 - 1 ∧ (d.refcount type = 0 → (env type).deassert = 0)
deriving Decidable

/-- A get succeeds, and so does that of tvcap inside the first one of tvdisp. -/
def Fits (s : Sys) : Call → Prop
  | .get type env =>
    type ≤ 2 → s.dev.CanGet env type ∧
      (type = tvdisp → s.dev.refcount tvdisp = 0 → s.dev.CanGet env tvcap)
  | .put _ => True

instance (s : Sys) : DecidablePred (Fits s) := fun c => by
  cases c <;> unfold Fits <;> infer_instance

/-- The counts are what is held, with one of tvcap for tvdisp, and count the enabled submodules. -/
structure Agrees (refcount : Nat → Int) (enabled : Nat → Bool) (held : Nat → Nat) : Prop where
  disp : refcount tvdisp = held tvdisp
  cap : refcount tvcap = held tvcap + if 0 < refcount tvdisp then 1 else 0
  fe : refcount tvfe = held tvfe
  enabled : ∀ type ≤ 2, enabled type ↔ 0 < refcount type

def Good (s : Sys) : Prop := Agrees s.dev.refcount s.dev.enabled s.held

def Right (s : Sys) (c : Call) : Prop :=
  ∀ ret s', step s c = .ret ret s' → Good s' ∧
    match c with
    | .get type _ =>
      (ret = 0 → s'.dev.enabled type) ∧
        (ret ≠ 0 → s'.dev.refcount = s.dev.refcount ∧ s'.dev.enabled = s.dev.enabled)
    | .put _ => True

theorem bmod_of_lt {n : Int} (h : 0 ≤ n) (h' : n < 2 ^ 31) : Int.bmod n (2 ^ 32) = n := by
  simp only [Int.bmod]
  split <;> omega

namespace Submodule

section

variable (sub : Submodule)

include sub

@[simp] theorem clockEnable_enabled (env : Env) : (sub.clockEnable env).enabled = sub.enabled := rfl

@[simp] theorem busClkEnable_enabled (env : Env) : (sub.busClkEnable env).enabled = sub.enabled := by
  unfold busClkEnable
  split <;> rfl

@[simp] theorem deassert_enabled (ret : Int) : (sub.deassert ret).enabled = sub.enabled := by
  unfold deassert
  split <;> rfl

theorem enable_ret (env : Env) : (sub.enable env).1 = if sub.enabled then 0 else env.deassert := by
  unfold enable
  by_cases he : sub.enabled <;> by_cases hd : env.deassert = 0 <;> simp [he, hd]

theorem enable_enabled (env : Env) : (sub.enable env).2.enabled = (sub.enabled || env.deassert = 0) := by
  unfold enable
  by_cases he : sub.enabled <;> by_cases hd : env.deassert = 0 <;> simp [he, hd]

theorem tvfeEnable_eq (env : Env) : (sub.tvfeEnable env).1 = (sub.enable env).1 ∧ (sub.tvfeEnable env).2.enabled
    = (sub.enable env).2.enabled := by
  unfold tvfeEnable
  split
  · rename_i he
    simp [enable_ret, enable_enabled, he]
  · simp [enable_ret, enable_enabled]

end

theorem enableFn_ret (type : Nat) (sub : Submodule) (env : Env) :
    (enableFn type sub env).1 = if sub.enabled then 0 else env.deassert := by
  unfold enableFn
  split
  · exact sub.enable_ret env
  · split
    · exact sub.enable_ret env
    · rw [(sub.tvfeEnable_eq env).1, enable_ret]

theorem enableFn_enabled (type : Nat) (sub : Submodule) (env : Env) :
    (enableFn type sub env).2.enabled = (sub.enabled || env.deassert = 0) := by
  unfold enableFn
  split
  · exact sub.enable_enabled env
  · split
    · exact sub.enable_enabled env
    · rw [(sub.tvfeEnable_eq env).2, enable_enabled]

theorem disable_enabled (sub : Submodule) : sub.disable.enabled = false := by
  unfold disable
  split
  · rename_i he
    simpa using he
  · rfl

end Submodule

namespace Dev

theorem setSub_enabled (d : Dev) (type : Nat) (sub : Submodule) :
    (d.setSub type sub).enabled = update d.enabled type sub.enabled := by
  funext t
  by_cases ht : t = type
  · subst ht
    simp [setSub, enabled]
  · simp [setSub, enabled, ht]

section

variable (d : Dev) (env : Nat → Env) (type : Nat)

include d env type

theorem clkGetOwn_refcount : (d.clkGetOwn env type).2.refcount =
      update d.refcount type (Int.bmod (d.refcount type + 1) (2 ^ 32)) := by
  unfold clkGetOwn
  dsimp only
  split <;> rfl

theorem clkGetOwn_ret : (d.clkGetOwn env type).1 =
      if Int.bmod (d.refcount type + 1) (2 ^ 32) = 1 ∧ ¬ d.enabled type then (env type).deassert else 0 := by
  unfold clkGetOwn
  dsimp only
  have hcount : (d.count type 1).refcount type = Int.bmod (d.refcount type + 1) (2 ^ 32) :=
    update_self ..
  have hsub : (d.count type 1).sub = d.sub := rfl
  rw [hcount, hsub]
  generalize Int.bmod (d.refcount type + 1) (2 ^ 32) = count
  by_cases h1 : count = 1
  · rw [if_pos h1, Submodule.enableFn_ret]
    by_cases he : (d.sub type).enabled <;> simp [h1, enabled, he]
  · rw [if_neg h1, if_neg (fun h => h1 h.1)]

theorem clkGetOwn_enabled : (d.clkGetOwn env type).2.enabled = update d.enabled type
      (d.enabled type || (Int.bmod (d.refcount type + 1) (2 ^ 32) = 1 && (env type).deassert = 0)) := by
  unfold clkGetOwn
  dsimp only
  have hcount : (d.count type 1).refcount type = Int.bmod (d.refcount type + 1) (2 ^ 32) :=
    update_self ..
  have hsub : (d.count type 1).sub = d.sub := rfl
  have hen : (d.count type 1).enabled = d.enabled := rfl
  rw [hcount, hsub]
  generalize Int.bmod (d.refcount type + 1) (2 ^ 32) = count
  by_cases h1 : count = 1
  · rw [if_pos h1, setSub_enabled, Submodule.enableFn_enabled, hen]
    simp [h1, enabled]
  · rw [if_neg h1, hen]
    simp [h1]

end

variable {d : Dev} {type : Nat}

theorem clkGetOwn_of_canGet {env : Nat → Env} (h0 : 0 ≤ d.refcount type) (he : d.enabled type ↔ 0 < d.refcount type)
    (hc : d.CanGet env type) : (d.clkGetOwn env type).1 = 0 ∧
      (d.clkGetOwn env type).2.refcount = update d.refcount type (d.refcount type + 1) ∧
      (d.clkGetOwn env type).2.enabled = update d.enabled type true := by
  obtain ⟨hlt, hdeassert⟩ := hc
  have hb : Int.bmod (d.refcount type + 1) (2 ^ 32) = d.refcount type + 1 :=
    bmod_of_lt (by omega) (by omega)
  rw [clkGetOwn_ret, clkGetOwn_refcount, clkGetOwn_enabled, hb]
  by_cases hz : d.refcount type = 0
  · simp [hz, hdeassert hz]
  · have hen : d.enabled type = true := he.mpr (by omega)
    simp [hen]

theorem clkGetOwn_of_not_canGet {env : Nat → Env} (hlt : d.refcount type < 2 ^ 31)
    (he : d.enabled type ↔ 0 < d.refcount type) (hc : ¬ d.CanGet env type) :
    ((d.clkGetOwn env type).1 = 0 ∧ (d.clkGetOwn env type).2.refcount type < 0) ∨
      ((d.clkGetOwn env type).1 ≠ 0 ∧ (d.clkGetOwn env type).2.refcount type ≠ d.refcount type) := by
  rw [clkGetOwn_ret, clkGetOwn_refcount, update_self]
  by_cases hmax : d.refcount type = 2 ^ 31 - 1
  · have hon : d.enabled type := he.mpr (by omega)
    left
    rw [hmax]
    exact ⟨by simp [hon], by decide⟩
  · have hz : d.refcount type = 0 := by
      by_contra hz
      exact hc ⟨by omega, fun h => absurd h hz⟩
    have hd : (env type).deassert ≠ 0 := fun hd => hc ⟨by omega, fun _ => hd⟩
    have hoff : ¬ d.enabled type := by
      rw [he]
      omega
    right
    simp [hz, hoff, hd]

theorem clkPutOwn_of_pos (h0 : 0 < d.refcount type) (h : d.refcount type < 2 ^ 31) : (d.clkPutOwn type).1 = 0 ∧
      (d.clkPutOwn type).2.refcount = update d.refcount type (d.refcount type - 1) ∧
      (d.clkPutOwn type).2.enabled = update d.enabled type (d.enabled type && d.refcount type ≠ 1) := by
  have hb : Int.bmod (d.refcount type + -1) (2 ^ 32) = d.refcount type - 1 :=
    bmod_of_lt (by omega) (by omega)
  have hcount : (d.count type (-1)).refcount = update d.refcount type (d.refcount type - 1) := by
    simp only [count, hb]
  have hen : (d.count type (-1)).enabled = d.enabled := rfl
  unfold clkPutOwn
  dsimp only
  rw [if_neg (by omega), hcount, update_self]
  by_cases h1 : d.refcount type = 1
  · rw [if_pos (by omega)]
    refine ⟨rfl, hcount, ?_⟩
    rw [setSub_enabled, Submodule.disable_enabled, hen]
    simp [h1]
  · rw [if_neg (by omega)]
    refine ⟨rfl, hcount, ?_⟩
    simp [hen, h1]

end Dev

namespace Agrees

variable {refcount : Nat → Int} {enabled : Nat → Bool} {held : Nat → Nat}

variable {type : Nat} {b : Bool}

theorem type_cases (ht : type ≤ 2) : type = tvdisp ∨ type = tvcap ∨ type = tvfe := by
  unfold tvdisp tvcap tvfe
  omega

@[simp] theorem tvcap_ne_tvdisp : tvcap ≠ tvdisp := by decide
@[simp] theorem tvdisp_ne_tvcap : tvdisp ≠ tvcap := by decide
@[simp] theorem tvfe_ne_tvdisp : tvfe ≠ tvdisp := by decide
@[simp] theorem tvdisp_ne_tvfe : tvdisp ≠ tvfe := by decide
@[simp] theorem tvfe_ne_tvcap : tvfe ≠ tvcap := by decide
@[simp] theorem tvcap_ne_tvfe : tvcap ≠ tvfe := by decide

section

variable (h : Agrees refcount enabled held)

include h

theorem nonneg (ht : type ≤ 2) : 0 ≤ refcount type := by
  have hd := h.disp
  have hc := h.cap
  have hf := h.fe
  obtain rfl | rfl | rfl := type_cases ht
  · omega
  · split at hc <;> omega
  · omega

theorem pos_of_held (ht : type ≤ 2) (hh : 0 < held type) : 0 < refcount type := by
  have hd := h.disp
  have hc := h.cap
  have hf := h.fe
  obtain rfl | rfl | rfl := type_cases ht
  · omega
  · split at hc <;> omega
  · omega

theorem enabled_update (type : Nat) {n : Int} (hb : b ↔ 0 < n) :
    ∀ t ≤ 2, update enabled type b t ↔ 0 < update refcount type n t := by
  intro t ht
  by_cases htt : t = type
  · subst htt
    simpa using hb
  · simpa [htt] using h.enabled t ht

theorem set {n : Nat} {m : Int} (ht : type ≤ 2) (hm : m - refcount type = n - held type) (hb : b ↔ 0 < m)
    (hsame : type = tvdisp → (0 < refcount tvdisp ↔ 0 < m)) :
    Agrees (update refcount type m) (update enabled type b) (update held type n) := by
  have hd := h.disp
  have hc := h.cap
  have hf := h.fe
  have hen := h.enabled_update type hb
  obtain rfl | rfl | rfl := type_cases ht
  · refine ⟨?_, ?_, by simpa using hf, hen⟩
    · simp only [update_self]
      omega
    · simp only [update_self, ne_eq, tvcap_ne_tvdisp, not_false_eq_true, update_of_ne, hc,
        hsame rfl]
  · refine ⟨by simpa using hd, ?_, by simpa using hf, hen⟩
    simp only [update_self, ne_eq, tvdisp_ne_tvcap, not_false_eq_true, update_of_ne]
    omega
  · refine ⟨by simpa using hd, by simpa using hc, ?_, hen⟩
    simp only [update_self]
    omega

theorem update_tvdisp {n : Nat} {m k : Int} {c : Bool} (hm : m = n) (hk : k = held tvcap + if 0 < m then 1 else 0)
    (hb : b ↔ 0 < m) (hc : c ↔ 0 < k) : Agrees (update (update refcount tvdisp m) tvcap k)
      (update (update enabled tvdisp b) tvcap c) (update held tvdisp n) := by
  have hf := h.fe
  refine ⟨by simpa using hm, by simpa using hk, by simpa using hf, ?_⟩
  intro t ht
  by_cases hcap : t = tvcap
  · subst hcap
    rw [update_self, update_self, hc]
  · simpa [hcap] using h.enabled_update tvdisp hb t ht

end

end Agrees

structure Inv (s : Sys) : Prop where
  good : Good s
  bounded : ∀ type ≤ 2, s.dev.refcount type < 2 ^ 31

theorem bounded_update {refcount : Nat → Int} (h : ∀ t ≤ 2, refcount t < 2 ^ 31) (type : Nat) {n : Int}
    (hn : n < 2 ^ 31) : ∀ t ≤ 2, update refcount type n t < 2 ^ 31 := by
  intro t ht
  by_cases htt : t = type
  · subst htt
    simpa using hn
  · simpa [htt] using h t ht

namespace Inv

variable {s : Sys} {type : Nat} {env : Nat → Env}

theorem get_own (h : Inv s) (ht : type ≤ 2) (hc : s.dev.CanGet env type)
    (hmore : type = tvdisp → s.dev.refcount tvdisp ≠ 0) :
    ∃ s', step s (.get type env) = .ret 0 s' ∧ Inv s' ∧ s'.dev.enabled type := by
  have h0 := h.good.nonneg ht
  obtain ⟨hret, hr, he⟩ := Dev.clkGetOwn_of_canGet h0 (h.good.enabled type ht) hc
  have hget : s.dev.clkGet env type = s.dev.clkGetOwn env type := by
    unfold Dev.clkGet
    rw [if_neg (by omega)]
    dsimp only
    rw [if_neg]
    rintro ⟨rfl, hone⟩
    have := hmore rfl
    rw [hr, update_self] at hone
    omega
  refine ⟨⟨(s.dev.clkGetOwn env type).2, update s.held type (s.held type + 1)⟩, ?_, ⟨?_, ?_⟩, ?_⟩
  · simp [step, hget, hret]
  · show Agrees _ _ _
    rw [hr, he]
    refine h.good.set ht (by push_cast; omega) (by simp; omega) ?_
    rintro rfl
    have := hmore rfl
    omega
  · rw [hr]
    exact bounded_update h.bounded type (by have := hc.1; omega)
  · rw [he, update_self]

theorem get_first (h : Inv s) (hz : s.dev.refcount tvdisp = 0) (hc : s.dev.CanGet env tvdisp)
    (hc' : s.dev.CanGet env tvcap) :
    ∃ s', step s (.get tvdisp env) = .ret 0 s' ∧ Inv s' ∧ s'.dev.enabled tvdisp := by
  have h0 : 0 ≤ s.dev.refcount tvcap := h.good.nonneg (by decide)
  obtain ⟨hret, hr, he⟩ :=
    Dev.clkGetOwn_of_canGet (by omega) (h.good.enabled tvdisp (by decide)) hc
  generalize ho : s.dev.clkGetOwn env tvdisp = o at hret hr he
  have hcount : o.2.refcount tvcap = s.dev.refcount tvcap := by simp [hr]
  have hen : o.2.enabled tvcap = s.dev.enabled tvcap := by simp [he]
  have hcan : o.2.CanGet env tvcap := by
    unfold Dev.CanGet
    rw [hcount]
    exact hc'
  obtain ⟨hret', hr', he'⟩ := Dev.clkGetOwn_of_canGet (d := o.2) (by omega)
    (by rw [hcount, hen]; exact h.good.enabled tvcap (by decide)) hcan
  generalize ho' : o.2.clkGetOwn env tvcap = o' at hret' hr' he'
  have hget : s.dev.clkGet env tvdisp = (0, o'.2) := by
    unfold Dev.clkGet
    rw [if_neg (by decide), ho]
    dsimp only
    rw [if_pos ⟨rfl, by rw [hr, update_self, hz]; rfl⟩, ho', hret, hret']
    simp
  have hd := h.good.disp
  have hcap : s.dev.refcount tvcap = s.held tvcap := by simpa [hz] using h.good.cap
  rw [hcount, hr, hz, hcap] at hr'
  refine ⟨⟨o'.2, update s.held tvdisp (s.held tvdisp + 1)⟩, ?_, ⟨?_, ?_⟩, ?_⟩
  · simp [step, hget]
  · show Agrees _ _ _
    rw [hr', he', he]
    exact h.good.update_tvdisp (by push_cast; omega) (by simp) (by simp) (by simp)
  · rw [hr']
    refine bounded_update (bounded_update h.bounded _ (by decide)) _ ?_
    have := hc'.1
    omega
  · rw [he', he]
    simp

theorem get (h : Inv s) (ht : type ≤ 2) (hf : Fits s (.get type env)) :
    ∃ s', step s (.get type env) = .ret 0 s' ∧ Inv s' ∧ s'.dev.enabled type := by
  obtain ⟨hc, hcap⟩ := hf ht
  by_cases hfirst : type = tvdisp ∧ s.dev.refcount tvdisp = 0
  · obtain ⟨rfl, hz⟩ := hfirst
    exact h.get_first hz hc (hcap rfl hz)
  · exact h.get_own ht hc fun he hz => hfirst ⟨he, hz⟩

theorem put (h : Inv s) (ht : type ≤ 2) (hal : Allowed s (.put type)) :
    ∃ s', step s (.put type) = .ret 0 s' ∧ Inv s' := by
  have hheld := hal ht
  have hpos := h.good.pos_of_held ht hheld
  have hen := (h.good.enabled type ht).mpr hpos
  obtain ⟨hret, hr, he⟩ := Dev.clkPutOwn_of_pos hpos (h.bounded type ht)
  generalize ho : s.dev.clkPutOwn type = o at hret hr he
  by_cases hlast : type = tvdisp ∧ s.dev.refcount tvdisp = 1
  · obtain ⟨rfl, hone⟩ := hlast
    have hd := h.good.disp
    have hcap : s.dev.refcount tvcap = s.held tvcap + 1 := by simpa [hone] using h.good.cap
    have hcount : o.2.refcount tvcap = s.dev.refcount tvcap := by simp [hr]
    obtain ⟨-, hr', he'⟩ := Dev.clkPutOwn_of_pos (show 0 < o.2.refcount tvcap by omega)
      (by rw [hcount]; exact h.bounded tvcap (by decide))
    generalize ho' : o.2.clkPutOwn tvcap = o' at hr' he'
    have hput : s.dev.clkPut tvdisp = (0, o'.2) := by
      unfold Dev.clkPut
      rw [if_neg (by decide), ho]
      dsimp only
      rw [if_pos ⟨hret, rfl, by rw [hr, update_self, hone]; rfl⟩, ho', hret]
    have hcapOn : s.dev.enabled tvcap = true := (h.good.enabled tvcap (by decide)).mpr (by omega)
    rw [hcount, hr, hone, hcap] at hr'
    rw [hcount, he, hone, hcap] at he'
    refine ⟨⟨o'.2, update s.held tvdisp (s.held tvdisp - 1)⟩, by simp [step, hput], ?_, ?_⟩
    · show Agrees _ _ _
      rw [hr', he']
      refine h.good.update_tvdisp (by omega) (by simp) (by simp) ?_
      rw [update_of_ne (by decide), hcapOn, Bool.true_and, decide_eq_true_iff]
      omega
    · rw [hr']
      refine bounded_update (bounded_update h.bounded _ (by decide)) _ ?_
      have := h.bounded tvcap (by decide)
      omega
  · have hput : s.dev.clkPut type = o := by
      unfold Dev.clkPut
      rw [if_neg (by omega), ho]
      dsimp only
      rw [if_neg]
      rintro ⟨-, rfl, hz⟩
      rw [hr, update_self] at hz
      exact hlast ⟨rfl, by omega⟩
    refine ⟨⟨o.2, update s.held type (s.held type - 1)⟩, by simp [step, hput, hret], ?_, ?_⟩
    · show Agrees _ _ _
      rw [hr, he]
      refine h.good.set ht (by omega) (by simp [hen]; omega) ?_
      rintro rfl
      have : s.dev.refcount tvdisp ≠ 1 := fun hone => hlast ⟨rfl, hone⟩
      omega
    · rw [hr]
      refine bounded_update h.bounded type ?_
      have := h.bounded type ht
      omega

theorem not_right_of_not_fits (h : Inv s) (hf : ¬ Fits s (.get type env)) : ¬ Right s (.get type env) := by
  intro hR
  have ht : type ≤ 2 := by
    by_contra ht
    exact hf fun h => absurd h ht
  obtain ⟨hgood, -, hfail⟩ := hR _ _ rfl
  have hpos : ∀ t ≤ 2, 0 ≤ (s.dev.clkGet env type).2.refcount t := fun t ht => hgood.nonneg ht
  have hsame : (s.dev.clkGet env type).1 ≠ 0 → (s.dev.clkGet env type).2.refcount = s.dev.refcount :=
    fun hne => (hfail hne).1
  clear hgood hfail hR
  unfold Dev.clkGet at hpos hsame
  rw [if_neg (by omega)] at hpos hsame
  dsimp only at hpos hsame
  by_cases hc : s.dev.CanGet env type
  · -- the get of tvdisp itself is fine, so it is the one of tvcap
    have hcap : type = tvdisp ∧ s.dev.refcount tvdisp = 0 ∧ ¬ s.dev.CanGet env tvcap := by
      unfold Fits at hf
      grind
    obtain ⟨rfl, hz, hc'⟩ := hcap
    obtain ⟨hret, hr, he⟩ := Dev.clkGetOwn_of_canGet (by omega) (h.good.enabled tvdisp ht) hc
    rw [if_pos ⟨rfl, by rw [hr, update_self, hz]; rfl⟩, hret] at hpos hsame
    generalize s.dev.clkGetOwn env tvdisp = o at *
    have hcount : o.2.refcount tvcap = s.dev.refcount tvcap := by simp [hr]
    have hen : o.2.enabled tvcap = s.dev.enabled tvcap := by simp [he]
    have hlt : o.2.refcount tvcap < 2 ^ 31 := by rw [hcount]; exact h.bounded tvcap (by decide)
    obtain ⟨-, hneg⟩ | ⟨hne, hmore⟩ := Dev.clkGetOwn_of_not_canGet hlt
      (by rw [hcount, hen]; exact h.good.enabled tvcap (by decide))
      (by unfold Dev.CanGet; rw [hcount]; exact hc')
    · exact absurd (hpos tvcap (by decide)) (by simpa using hneg)
    · exact hmore (by rw [hsame (by simpa using hne), hcount])
  · obtain ⟨-, hneg⟩ | ⟨hne, hmore⟩ :=
      Dev.clkGetOwn_of_not_canGet (h.bounded type ht) (h.good.enabled type ht) hc
    · rw [if_neg (by omega)] at hpos
      exact absurd (hpos type ht) (by simpa using hneg)
    · -- whether or not tvcap is counted for it, the count of the type stays
      apply hmore
      split at hsame
      · rename_i hfirst
        obtain ⟨rfl, -⟩ := hfirst
        have hleft := congrFun (hsame (by simp [hne])) tvdisp
        simpa [Dev.clkGetOwn_refcount] using hleft
      · exact congrFun (hsame hne) type

end Inv

theorem Inv.step {s s' : Sys} {c : Call} {ret : Int} (h : Inv s) (hal : Allowed s c) (hf : Fits s c)
    (hs : step s c = .ret ret s') : Inv s' := by
  cases c with
  | get type env =>
    by_cases ht : type ≤ 2
    · obtain ⟨t, hstep, ht, -⟩ := h.get ht hf
      cases hstep.symm.trans hs
      exact ht
    · cases (step_get_of_gt s ht env).symm.trans hs
      exact h
  | put type =>
    by_cases ht : type ≤ 2
    · obtain ⟨t, hstep, ht⟩ := h.put ht hal
      cases hstep.symm.trans hs
      exact ht
    · cases (step_put_of_gt s ht).symm.trans hs
      exact h

theorem right_iff {s : Sys} (h : Inv s) (c : Call) (hal : Allowed s c) : Right s c ↔ Fits s c := by
  refine ⟨fun hR => ?_, fun hf ret s' hs => ⟨(h.step hal hf hs).good, ?_⟩⟩
  · cases c with
    | get type env => exact not_not.mp fun hf => h.not_right_of_not_fits hf hR
    | put type => trivial
  · cases c with
    | get type env =>
      by_cases ht : type ≤ 2
      · obtain ⟨t, hstep, -, hen⟩ := h.get ht hf
        cases hstep.symm.trans hs
        exact ⟨fun _ => hen, fun hne => absurd rfl hne⟩
      · cases (step_get_of_gt s ht env).symm.trans hs
        exact ⟨fun h0 => absurd h0 (by decide), fun _ => ⟨rfl, rfl⟩⟩
    | put type => trivial

structure Probed (s : Sys) : Prop where
  refcount : s.dev.refcount = fun _ => 0
  enabled : s.dev.enabled = fun _ => false
  held : s.held = fun _ => 0

theorem Probed.inv {s : Sys} (h : Probed s) : Inv s := by
  refine ⟨?_, ?_⟩
  · unfold Good
    rw [h.refcount, h.enabled, h.held]
    exact ⟨rfl, rfl, rfl, by simp⟩
  · rw [h.refcount]
    simp

/-- As long as no first `clk_get` fails and no count reaches `INT_MAX`, the counts are what the callers hold and
exactly the counted submodules are enabled; the next call goes wrong if it breaks that condition. -/
theorem counts_agree {s s' : Sys} {calls : List Call} (h : Probed s)
    (hr : Run step (fun s c => Allowed s c ∧ Fits s c) s calls s') :
    Good s' ∧ ∀ c, Allowed s' c → (Right s' c ↔ Fits s' c) := by
  have hinv : Inv s' := hr.inv (fun _ _ _ _ h hc hs => h.step hc.1 hc.2 hs) h.inv
  exact ⟨hinv.good, fun c hal => right_iff hinv c hal⟩

def probed : Sys where
  dev := ⟨fun _ => ⟨true, false, [], false, false⟩, fun _ => 0⟩
  held := fun _ => 0

def answers (deassert : Int) : Nat → Env :=
  fun _ => ⟨fun _ => 0, fun _ => true, fun _ => 0, 0, deassert, deassert⟩

theorem counts_agree_probed : ∃ s', Run step (fun s c => Allowed s c ∧ Fits s c) probed
        [.get 0 (answers 0), .get 1 (answers 0), .put 0] s' ∧ Good s' ∧ s'.dev.refcount 1 = 1 := by
  refine Run.exists_of_exec_imp (P := fun s' => s'.dev.refcount 1 = 1) (by decide +kernel) fun s' hr hone => ?_
  exact ⟨(counts_agree ⟨rfl, rfl, rfl⟩ hr).1, hone⟩

theorem failed_get_counts : ∃ s', Run step Allowed probed [.get 2 (answers (-110)), .get 2 (answers 0)] s' ∧
      s'.dev.refcount 2 = 2 ∧ s'.held 2 = 1 ∧ ¬ s'.dev.enabled 2 :=
  Run.exists_of_exec (by decide +kernel)

end H713.Tvtop
