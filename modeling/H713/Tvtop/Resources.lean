import H713.Lib.Sums
import H713.Tvtop.Clk

/-!
# Tvtop.Resources

What the functions of `Tvtop.Clk` do to the resources behind a submodule: the enable counts of its clocks, their
parents and the bus clock, the deassert count of its reset line and the usage count of its power domain.
-/

namespace H713.Tvtop.Resources

inductive Res where
  | clk (id : Nat)
  | rst (id : Nat)
  | pm (type : Nat)
deriving DecidableEq, Repr

structure Entry where
  clk : Option Nat
  parentClk : Option Nat
  parentRate : Nat
  clkEnabled : Bool
  parentClkEnabled : Bool

structure Sub where
  busClk : Option Nat
  busClkEnabled : Bool
  clkList : List Entry
  rst : Nat
  pmDev : Bool
  enabled : Bool

inductive Deassert where
  | ok
  | refused
  | failed (errno : Nat)
deriving DecidableEq, Repr

namespace Deassert

def ret : Deassert → Int
  | ok => 0
  | refused => -22
  | failed errno => -(errno + 1)

def counted : Deassert → Bool
  | ok => true
  | refused => false
  | failed _ => true

theorem ret_eq_zero (d : Deassert) : d.ret = 0 ↔ d = .ok := by
  cases d with
  | ok | refused => simp [ret]
  | failed errno => simp only [ret, reduceCtorEq, iff_false]; omega

end Deassert

structure Env where
  prepareEnable : Nat → Int
  getParent : Nat → Option Nat
  prepareEnableParent : Nat → Int
  busClk : Int
  firstDeassert : Deassert
  deassert : Deassert
  resume : Int

abbrev Counts := Res → Nat

namespace Entry

def enableParent (e : Entry) (env : Env) (i : Nat) (c : Counts) : Entry × Counts :=
  if e.parentRate = 0 then (e, c)
  else
    -- a NULL clock has a NULL parent
    match e.clk.bind fun _ => env.getParent i with
    | none => ({ e with parentClk := none }, c)
    | some k =>
      if ¬ e.parentClkEnabled ∧ env.prepareEnableParent i = 0 then
        ({ e with parentClk := some k, parentClkEnabled := true }, Sums.up c (.clk k))
      else ({ e with parentClk := some k }, c)

def enable (e : Entry) (env : Env) (i : Nat) (c : Counts) : Entry × Counts :=
  match e.clk with
  | none => e.enableParent env i c
  | some k =>
    if e.clkEnabled then e.enableParent env i c
    else if env.prepareEnable i = 0 then
      { e with clkEnabled := true }.enableParent env i (Sums.up c (.clk k))
    else (e, c)

def held (e : Entry) : List Res :=
  (if e.clkEnabled then e.clk.toList.map .clk else []) ++
    if e.parentClkEnabled then e.parentClk.toList.map .clk else []

end Entry

def clockEnable (env : Env) : Nat → List Entry → Counts → List Entry × Counts
  | _, [], c => ([], c)
  | i, e :: es, c =>
    let (e', c) := e.enable env i c
    let (es', c) := clockEnable env (i + 1) es c
    (e' :: es', c)

namespace Sub

def busClkEnable (sub : Sub) (env : Env) (c : Counts) : Sub × Counts :=
  match sub.busClk with
  | none => (sub, c)
  | some k =>
    if ¬ sub.busClkEnabled ∧ env.busClk = 0 then ({ sub with busClkEnabled := true }, Sums.up c (.clk k))
    else (sub, c)

def deassert (sub : Sub) (d : Deassert) (c : Counts) : Counts := if d.counted then Sums.up c (.rst sub.rst) else c

def pmDomainEnable (sub : Sub) (type : Nat) (env : Env) (c : Counts) : Counts :=
  if ¬ sub.pmDev then c else if env.resume < 0 then Sums.down c (.pm type) else Sums.up c (.pm type)

def clocksOn (sub : Sub) (env : Env) (c : Counts) : Sub × Counts :=
  let (es, c) := clockEnable env 0 sub.clkList c
  { sub with clkList := es }.busClkEnable env c

def enable (sub : Sub) (env : Env) (pm : Counts → Counts) (c : Counts) : Int × Sub × Counts :=
  let (sub, c) := sub.clocksOn env c
  let c := sub.deassert env.deassert c
  if env.deassert.ret ≠ 0 then (env.deassert.ret, sub, c) else (0, { sub with enabled := true }, pm c)

def tvdispEnable (sub : Sub) (env : Env) (c : Counts) : Int × Sub × Counts :=
  if sub.enabled then (0, sub, c) else sub.enable env id c

def tvcapEnable (sub : Sub) (env : Env) (c : Counts) : Int × Sub × Counts :=
  if sub.enabled then (0, sub, c) else sub.enable env (sub.pmDomainEnable tvcap env) c

def tvfeEnable (sub : Sub) (env : Env) (c : Counts) : Int × Sub × Counts :=
  if sub.enabled then (0, sub, c)
  else sub.enable env (sub.pmDomainEnable tvfe env) (sub.deassert env.firstDeassert c)

def enableFn (type : Nat) : Sub → Env → Counts → Int × Sub × Counts :=
  if type = tvdisp then tvdispEnable else if type = tvcap then tvcapEnable else tvfeEnable

def busHeld (sub : Sub) : List Res := if sub.busClkEnabled then sub.busClk.toList.map .clk else []

def releases (sub : Sub) (type : Nat) : List Res :=
  sub.clkList.flatMap Entry.held ++ .rst sub.rst :: (sub.busHeld ++ if sub.pmDev then [.pm type] else [])

def disable (sub : Sub) (type : Nat) (c : Counts) : Sub × Counts :=
  if ¬ sub.enabled then (sub, c)
  else
    ({ sub with
        clkList := sub.clkList.map fun e =>
          { e with clkEnabled := e.clkEnabled && e.clk.isNone
                   parentClkEnabled := e.parentClkEnabled && e.parentClk.isNone }
        busClkEnabled := sub.busClkEnabled && sub.busClk.isNone
        enabled := false },
      (sub.releases type).foldl Sums.down c)

end Sub

structure State where
  sub : Nat → Sub
  refcount : Nat → Int
  counts : Counts

namespace State

def count (s : State) (type : Nat) (n : Int) : State :=
  { s with refcount := Function.update s.refcount type (Int.bmod (s.refcount type + n) (2 ^ 32)) }

def setSub (s : State) (type : Nat) (sub : Sub) (c : Counts) : State :=
  { s with sub := Function.update s.sub type sub, counts := c }

def clkGetOwn (s : State) (env : Nat → Env) (type : Nat) : Int × State :=
  let s := s.count type 1
  if s.refcount type = 1 then
    let (ret, sub, c) := Sub.enableFn type (s.sub type) (env type) s.counts
    (ret, s.setSub type sub c)
  else (0, s)

def clkGet (s : State) (env : Nat → Env) (type : Nat) : Int × State :=
  if type > 2 then (-22, s)
  else
    let (ret, s') := s.clkGetOwn env type
    if type = tvdisp ∧ s'.refcount type = 1 then
      let (retTvcap, s'') := s'.clkGetOwn env tvcap
      (if ret = 0 then retTvcap else ret, s'')
    else (ret, s')

def clkPutOwn (s : State) (type : Nat) : Int × State :=
  if s.refcount type = 0 then (-1, s)
  else
    let s := s.count type (-1)
    if s.refcount type = 0 then
      let (sub, c) := (s.sub type).disable type s.counts
      (0, s.setSub type sub c)
    else (0, s)

def clkPut (s : State) (type : Nat) : Int × State :=
  if type > 2 then (-22, s)
  else
    let (ret, s') := s.clkPutOwn type
    if ret = 0 ∧ type = tvdisp ∧ s'.refcount type = 0 then (ret, (s'.clkPutOwn tvcap).2) else (ret, s')

end State

inductive Call where
  | get (type : Nat) (env : Nat → Env)
  | put (type : Nat)

def step (s : State) : Call → Out State Int
  | .get type env => .ret (s.clkGet env type).1 (s.clkGet env type).2
  | .put type => .ret (s.clkPut type).1 (s.clkPut type).2

namespace Entry

def Clean (e : Entry) : Prop := e.clkEnabled = false ∧ e.parentClkEnabled = false

def Wf (e : Entry) : Prop := (e.clkEnabled = true → e.clk.isSome) ∧ (e.parentClkEnabled = true → e.parentClk.isSome)

theorem Clean.wf {e : Entry} (h : e.Clean) : e.Wf := by simp [Wf, h.1, h.2]

theorem Clean.held {e : Entry} (h : e.Clean) : e.held = [] := by simp [Entry.held, h.1, h.2]

variable {e : Entry} (env : Env) (i : Nat) (c : Counts)

theorem enableParent_spec (h : e.parentClkEnabled = false) (hw : e.clkEnabled = true → e.clk.isSome) :
    (e.enableParent env i c).1.Wf ∧ (e.enableParent env i c).1.clk = e.clk ∧
      (e.enableParent env i c).1.clkEnabled = e.clkEnabled ∧
      ∀ r, (e.enableParent env i c).2 r + e.held.count r = c r + (e.enableParent env i c).1.held.count r := by
  unfold enableParent
  split
  · exact ⟨⟨hw, by simp [h]⟩, rfl, rfl, fun r => rfl⟩
  · split
    · exact ⟨⟨hw, by simp [h]⟩, rfl, rfl, fun r => by simp [held, h]⟩
    · split
      · refine ⟨⟨hw, by simp⟩, rfl, rfl, fun r => ?_⟩
        simp only [held, h, Bool.false_eq_true, if_false, if_true, List.append_nil, List.count_append,
          Option.toList_some, List.map_singleton, List.count_singleton, Sums.up_apply, beq_iff_eq, @eq_comm _ r]
        omega
      · exact ⟨⟨hw, by simp [h]⟩, rfl, rfl, fun r => by simp [held, h]⟩

theorem enable_spec (h : e.Clean) :
    (e.enable env i c).1.Wf ∧ ∀ r, (e.enable env i c).2 r = c r + (e.enable env i c).1.held.count r := by
  unfold enable
  split
  · obtain ⟨hw, -, -, hc⟩ := enableParent_spec env i c h.2 h.wf.1
    refine ⟨hw, fun r => ?_⟩
    have := hc r
    rwa [h.held, List.count_nil, Nat.add_zero] at this
  · rename_i k hk
    rw [h.1]
    simp only [Bool.false_eq_true, if_false]
    split
    · obtain ⟨hw, -, -, hc⟩ := enableParent_spec (e := { e with clkEnabled := true }) env i
        (Sums.up c (.clk k)) h.2 (fun _ => by simp [hk])
      refine ⟨hw, fun r => ?_⟩
      have := hc r
      simp only [held, h.2, hk, Bool.false_eq_true, if_false, if_true, List.append_nil, Option.toList_some,
        List.map_singleton, List.count_singleton, Sums.up_apply, beq_iff_eq, @eq_comm _ r] at this ⊢
      omega
    · exact ⟨h.wf, fun r => by rw [h.held]; simp⟩

theorem enable_held_eq_nil (h : e.Clean) :
    ((e.enable env i c).1.held = [] ↔ (e.clk.isSome → env.prepareEnable i ≠ 0)) ∧
      ((e.clk.isSome → env.prepareEnable i ≠ 0) → (e.enable env i c).1.Clean) := by
  unfold enable
  split
  · rename_i hk
    have hclean : (e.enableParent env i c).1.Clean := by
      unfold enableParent
      split
      · exact h
      · rw [hk]; exact h
    simp [hk, hclean, hclean.held]
  · rename_i k hk
    have hsome : e.clk.isSome = true := by rw [hk]; rfl
    rw [h.1]
    simp only [Bool.false_eq_true, if_false, hsome, forall_const]
    split
    · rename_i hz
      obtain ⟨-, hclk, hen, -⟩ := enableParent_spec (e := { e with clkEnabled := true }) env i
        (Sums.up c (.clk k)) h.2 (fun _ => by simp [hk])
      refine ⟨⟨fun hnil => ?_, fun hne => absurd hz hne⟩, fun hne => absurd hz hne⟩
      generalize Entry.enableParent _ env i _ = o at hclk hen hnil
      simp [held, hen, hclk, hk] at hnil
    · rename_i hz
      exact ⟨⟨fun _ => hz, fun _ => h.held⟩, fun _ => h⟩

end Entry

def NoClock (env : Env) (i : Nat) (es : List Entry) : Prop :=
  ∀ p ∈ es.zipIdx i, p.1.clk.isSome → env.prepareEnable p.2 ≠ 0
deriving Decidable

theorem clockEnable_spec (env : Env) {es : List Entry} (h : ∀ e ∈ es, e.Clean) (i : Nat) (c : Counts) :
    (∀ e ∈ (clockEnable env i es c).1, e.Wf) ∧
      (∀ r, (clockEnable env i es c).2 r = c r + ((clockEnable env i es c).1.flatMap Entry.held).count r) ∧
      ((clockEnable env i es c).1.flatMap Entry.held = [] ↔ NoClock env i es) ∧
      (NoClock env i es → ∀ e ∈ (clockEnable env i es c).1, e.Clean) := by
  induction es generalizing i c with
  | nil => simp [clockEnable, NoClock]
  | cons e es ih =>
    have he := h e List.mem_cons_self
    obtain ⟨hw, hc⟩ := Entry.enable_spec env i c he
    obtain ⟨hnil, hclean⟩ := Entry.enable_held_eq_nil env i c he
    obtain ⟨ihw, ihc, ihnil, ihclean⟩ := ih (fun e' he' => h e' (List.mem_cons_of_mem e he')) (i + 1)
      (e.enable env i c).2
    have hno : NoClock env i (e :: es) ↔ (e.clk.isSome → env.prepareEnable i ≠ 0) ∧ NoClock env (i + 1) es := by
      simp [NoClock]
    simp only [clockEnable, List.flatMap_cons, List.count_append, List.append_eq_nil_iff, List.forall_mem_cons,
      hno, hnil, ihnil, true_and]
    refine ⟨⟨hw, ihw⟩, fun r => ?_, fun hn => ⟨hclean hn.1, ihclean hn.2⟩⟩
    rw [ihc, hc]
    omega

namespace Sub

/-- The clocks are off. -/
structure Off (sub : Sub) : Prop where
  entries : ∀ e ∈ sub.clkList, e.Clean
  bus : sub.busClkEnabled = false

/-- A submodule that is off holds nothing. -/
structure Ok (sub : Sub) : Prop where
  entries : ∀ e ∈ sub.clkList, e.Wf
  bus : sub.busClkEnabled = true → sub.busClk.isSome
  off : sub.enabled = false → sub.Off

def held (sub : Sub) (type : Nat) : List Res := if sub.enabled then sub.releases type else []

def clocks (sub : Sub) : List Res := sub.clkList.flatMap Entry.held ++ sub.busHeld

def NoClocks (sub : Sub) (env : Env) : Prop := NoClock env 0 sub.clkList ∧ (sub.busClk.isSome → env.busClk ≠ 0)
deriving Decidable

variable {sub : Sub} {env : Env} {type : Nat}

theorem count_releases (sub : Sub) (type : Nat) (r : Res) :
    (sub.releases type).count r = sub.clocks.count r + (if r = .rst sub.rst then 1 else 0) +
      if sub.pmDev = true ∧ r = .pm type then 1 else 0 := by
  simp only [releases, clocks, List.count_append, List.count_cons, beq_iff_eq, @eq_comm _ r]
  cases hp : sub.pmDev with
  | true =>
    simp only [if_true, true_and, List.count_singleton, beq_iff_eq]
    omega
  | false =>
    simp only [Bool.false_eq_true, if_false, false_and, List.count_nil]
    omega

theorem busClkEnable_spec (h : sub.busClkEnabled = false) (env : Env) (c : Counts) :
    ∃ b, (sub.busClkEnable env c).1 = { sub with busClkEnabled := b } ∧
      (b = true ↔ sub.busClk.isSome ∧ env.busClk = 0) ∧
      ∀ r, (sub.busClkEnable env c).2 r = c r + (sub.busClkEnable env c).1.busHeld.count r := by
  unfold busClkEnable
  split
  · rename_i hk
    exact ⟨false, by rw [← h], by simp [hk], fun r => by simp [busHeld, h]⟩
  · rename_i k hk
    split
    · rename_i hz
      refine ⟨true, rfl, by simp [hk, hz.2], fun r => ?_⟩
      simp only [busHeld, hk, if_true, Option.toList_some, List.map_singleton, List.count_singleton, Sums.up_apply,
        beq_iff_eq, @eq_comm _ r]
    · rename_i hz
      refine ⟨false, by rw [← h], ?_, fun r => by simp [busHeld, h]⟩
      rw [h] at hz
      simpa [hk] using hz

structure ClocksOn (sub : Sub) (env : Env) (c : Counts) (sub' : Sub) (c' : Counts) : Prop where
  entries : ∀ e ∈ sub'.clkList, e.Wf
  bus : sub'.busClkEnabled = true → sub'.busClk.isSome
  same : sub'.rst = sub.rst ∧ sub'.pmDev = sub.pmDev ∧ sub'.enabled = sub.enabled
  counts : ∀ r, c' r = c r + sub'.clocks.count r
  none : sub'.clocks = [] ↔ sub.NoClocks env
  off : sub.NoClocks env → sub'.Off

theorem clocksOn_spec (h : sub.Off) (env : Env) (c : Counts) :
    ClocksOn sub env c (sub.clocksOn env c).1 (sub.clocksOn env c).2 := by
  obtain ⟨hw, hc, hnil, hclean⟩ := clockEnable_spec env h.entries 0 c
  unfold clocksOn
  dsimp only
  generalize clockEnable env 0 sub.clkList c = o at hw hc hnil hclean
  have hbusOff : ({ sub with clkList := o.1 } : Sub).busClkEnabled = false := h.bus
  obtain ⟨b, hsub, hb, hcb⟩ := busClkEnable_spec hbusOff env o.2
  generalize Sub.busClkEnable _ env o.2 = o' at hsub hcb
  obtain ⟨sub', c'⟩ := o'
  cases hsub
  have hbus : (if b = true then sub.busClk.toList.map Res.clk else []) = [] ↔
      (sub.busClk.isSome → env.busClk ≠ 0) := by
    cases hk : sub.busClk with
    | none => simp
    | some k =>
      rw [hk] at hb
      simp only [Option.isSome_some, true_and] at hb
      by_cases hz : b = true
      · simp [hz, hb.mp hz]
      · simpa [hz] using mt hb.mpr hz
  refine ⟨hw, fun hon => (hb.mp hon).1, ⟨rfl, rfl, rfl⟩, fun r => ?_, ?_, fun hno => ⟨hclean hno.1, ?_⟩⟩
  · have := hcb r
    have := hc r
    simp only [clocks, List.count_append] at *
    omega
  · rw [clocks, List.append_eq_nil_iff, hnil]
    exact and_congr_right fun _ => hbus
  · exact Bool.eq_false_iff.mpr fun hon => hno.2 (hb.mp hon).1 (hb.mp hon).2

theorem count_clocks_pm (sub : Sub) (t : Nat) : sub.clocks.count (.pm t) = 0 := by
  refine List.count_eq_zero.mpr fun hm => ?_
  have hclk : ∀ o : Option Nat, .pm t ∉ o.toList.map Res.clk := by simp
  simp only [clocks, busHeld, Entry.held, List.mem_append, List.mem_flatMap] at hm
  rcases hm with ⟨e, -, hm | hm⟩ | hm
  all_goals
    split at hm
    · exact hclk _ hm
    · cases hm

theorem deassert_apply (sub : Sub) (d : Deassert) (c : Counts) (r : Res) :
    sub.deassert d c r = c r + if d.counted = true ∧ r = .rst sub.rst then 1 else 0 := by
  unfold deassert
  split
  · rename_i hd
    simp [Sums.up_apply, hd]
  · rename_i hd
    simp [hd]

theorem pmDomainEnable_apply (sub : Sub) (type : Nat) (env : Env) (c : Counts) (r : Res) :
    sub.pmDomainEnable type env c r =
      if sub.pmDev = true ∧ r = .pm type then if env.resume < 0 then c r - 1 else c r + 1 else c r := by
  unfold pmDomainEnable
  cases hp : sub.pmDev with
  | false => simp
  | true =>
    by_cases hr : r = .pm type
    · subst hr
      by_cases hz : env.resume < 0 <;> simp [hz, Sums.down_apply, Sums.up_apply]
    · by_cases hz : env.resume < 0 <;> simp [hz, hr, Sums.down_apply, Sums.up_apply]

theorem enableFn_eq (ht : type ≤ 2) (hoff : sub.enabled = false) (hdisp : type = tvdisp → sub.pmDev = false)
    (env : Env) (c : Counts) : enableFn type sub env c = sub.enable env (sub.pmDomainEnable type env)
      (if type = tvfe then sub.deassert env.firstDeassert c else c) := by
  unfold enableFn
  obtain rfl | rfl | rfl := Agrees.type_cases ht
  · have hid : sub.pmDomainEnable tvdisp env = id := by
      funext c r
      simp [pmDomainEnable_apply, hdisp rfl]
    simp [tvdispEnable, hoff, hid]
  · simp [tvcapEnable, hoff]
  · simp [tvfeEnable, hoff]

def Keeps (sub : Sub) (type : Nat) (env : Env) : Prop :=
  (type = tvfe → env.firstDeassert = .refused) ∧
    (env.deassert = .ok ∧ (sub.pmDev = true → 0 ≤ env.resume) ∨ env.deassert = .refused ∧ sub.NoClocks env)
deriving Decidable

def firstCount (sub : Sub) (type : Nat) (env : Env) (r : Res) : Nat :=
  if type = tvfe ∧ env.firstDeassert.counted = true ∧ r = .rst sub.rst then 1 else 0

theorem firstCount_rst (sub : Sub) (type : Nat) (env : Env) :
    sub.firstCount type env (.rst sub.rst) = 0 ↔ (type = tvfe → env.firstDeassert = .refused) := by
  unfold firstCount
  cases env.firstDeassert with
  | ok | refused | failed errno => simp [Deassert.counted]

theorem firstCount_pm (sub : Sub) (type : Nat) (env : Env) (t : Nat) : sub.firstCount type env (.pm t) = 0 := by
  simp [firstCount]

theorem firstCount_eq_zero (h : type = tvfe → env.firstDeassert = .refused) (r : Res) :
    sub.firstCount type env r = 0 := by
  unfold firstCount
  rw [if_neg]
  rintro ⟨ht, hc, -⟩
  rw [h ht] at hc
  cases hc

structure Enabled (sub : Sub) (type : Nat) (env : Env) (c : Counts) (ret : Int) (sub' : Sub) (c' : Counts) :
    Prop where
  ret : ret = env.deassert.ret
  enabled : sub'.enabled = decide (env.deassert = .ok)
  pmDev : sub'.pmDev = sub.pmDev
  above : ∀ r, (∀ t, r ≠ .pm t) → c r + (sub'.held type).count r ≤ c' r
  below : ∀ t, c' (.pm t) ≤ c (.pm t) + (sub'.held type).count (.pm t)
  keeps : (∀ r, c' r = c r + (sub'.held type).count r) ↔ sub.Keeps type env
  ok : sub.Keeps type env → sub'.Ok

section

variable {sub' : Sub} {c c₁ c₂ : Counts}

theorem enabled_of_ok (hfirst : ∀ r, c₁ r = c r + sub.firstCount type env r) (h : ClocksOn sub env c₁ sub' c₂)
    (hd : env.deassert = .ok) :
    Enabled sub type env c 0 { sub' with enabled := true }
      (sub.pmDomainEnable type env (sub'.deassert env.deassert c₂)) := by
  obtain ⟨hrst, hpm, -⟩ := h.same
  have hheld : ∀ r, ({ sub' with enabled := true }.held type).count r = sub'.clocks.count r +
      (if r = .rst sub.rst then 1 else 0) + if sub.pmDev = true ∧ r = .pm type then 1 else 0 := by
    intro r
    rw [← hrst, ← hpm]
    exact count_releases { sub' with enabled := true } type r
  have hc : ∀ r, sub'.deassert env.deassert c₂ r =
      c r + sub.firstCount type env r + sub'.clocks.count r + if r = .rst sub.rst then 1 else 0 := by
    intro r
    rw [deassert_apply, h.counts, hfirst, hd, hrst]
    simp [Deassert.counted]
  refine ⟨by rw [hd]; rfl, by simp [hd], hpm, fun r hr => ?_, fun t => ?_, ⟨fun hall => ?_, ?_⟩, fun _ => ?_⟩
  · have hno : ¬ (sub.pmDev = true ∧ r = .pm type) := fun h => hr type h.2
    rw [pmDomainEnable_apply, hheld, hc, if_neg hno, if_neg hno]
    omega
  · rw [pmDomainEnable_apply, hheld, hc, firstCount_pm]
    split
    · split <;> omega
    · omega
  · refine ⟨(firstCount_rst sub type env).mp ?_, .inl ⟨hd, fun hp => Int.not_lt.mp fun hneg => ?_⟩⟩
    · have hno : ¬ (sub.pmDev = true ∧ Res.rst sub.rst = .pm type) := by simp
      have := hall (.rst sub.rst)
      rw [pmDomainEnable_apply, hheld, hc, if_neg hno, if_neg hno] at this
      omega
    · have hyes : sub.pmDev = true ∧ Res.pm type = .pm type := ⟨hp, rfl⟩
      have := hall (.pm type)
      rw [pmDomainEnable_apply, hheld, hc, firstCount_pm, if_pos hyes, if_pos hneg, if_pos hyes] at this
      omega
  · rintro ⟨hf, hk⟩ r
    obtain ⟨-, hres⟩ := hk.resolve_right fun hno => by rw [hd] at hno; cases hno.1
    rw [pmDomainEnable_apply, hheld, hc, firstCount_eq_zero hf]
    split
    · rename_i hp
      rw [if_neg (Int.not_lt.mpr (hres hp.1))]
      omega
    · omega
  · exact ⟨h.entries, h.bus, fun hoff => absurd hoff (by simp)⟩

theorem enabled_of_not_ok (hoff : sub.enabled = false) (hfirst : ∀ r, c₁ r = c r + sub.firstCount type env r)
    (h : ClocksOn sub env c₁ sub' c₂) (hd : env.deassert ≠ .ok) :
    Enabled sub type env c env.deassert.ret sub' (sub'.deassert env.deassert c₂) := by
  obtain ⟨hrst, hpm, hen⟩ := h.same
  have hoff' : sub'.enabled = false := hen.trans hoff
  have hheld : ∀ r, (sub'.held type).count r = 0 := fun r => by simp [held, hoff']
  have hc : ∀ r, sub'.deassert env.deassert c₂ r = c r + sub.firstCount type env r + sub'.clocks.count r +
      if env.deassert.counted = true ∧ r = .rst sub.rst then 1 else 0 := by
    intro r
    rw [deassert_apply, h.counts, hfirst, hrst]
  refine ⟨rfl, by rw [hoff']; simp [hd], hpm, fun r _ => ?_, fun t => ?_, ⟨fun hall => ?_, ?_⟩, fun hk => ?_⟩
  · rw [hheld, hc]
    omega
  · rw [hheld, hc, firstCount_pm, count_clocks_pm, if_neg (by simp)]
  · have hzero : ∀ r, sub.firstCount type env r = 0 ∧ sub'.clocks.count r = 0 ∧
        ¬ (env.deassert.counted = true ∧ r = .rst sub.rst) := by
      intro r
      have := hall r
      rw [hheld, hc] at this
      split at this
      · omega
      · rename_i hn
        exact ⟨by omega, by omega, hn⟩
    have href : env.deassert = .refused := by
      have := (hzero (.rst sub.rst)).2.2
      cases hcase : env.deassert with
      | ok => exact absurd hcase hd
      | refused => rfl
      | failed errno => rw [hcase] at this; exact absurd ⟨rfl, rfl⟩ this
    have hempty : sub'.clocks = [] :=
      List.eq_nil_iff_forall_not_mem.mpr fun r => List.count_eq_zero.mp (hzero r).2.1
    exact ⟨(firstCount_rst sub type env).mp (hzero _).1, .inr ⟨href, h.none.mp hempty⟩⟩
  · rintro ⟨hf, hk⟩ r
    obtain ⟨href, hno⟩ := hk.resolve_left fun h => hd h.1
    rw [hheld, hc, firstCount_eq_zero hf, h.none.mpr hno, href, if_neg (by simp [Deassert.counted])]
    rfl
  · obtain ⟨-, hno⟩ := hk.2.resolve_left fun h => hd h.1
    exact ⟨h.entries, h.bus, fun _ => h.off hno⟩

end

theorem enableFn_spec (ht : type ≤ 2) (hok : sub.Ok) (hoff : sub.enabled = false)
    (hdisp : type = tvdisp → sub.pmDev = false) (env : Env) (c : Counts) :
    Enabled sub type env c (enableFn type sub env c).1 (enableFn type sub env c).2.1
      (enableFn type sub env c).2.2 := by
  rw [enableFn_eq ht hoff hdisp]
  have hfirst : ∀ r, (if type = tvfe then sub.deassert env.firstDeassert c else c) r =
      c r + sub.firstCount type env r := by
    intro r
    by_cases hfe : type = tvfe <;> simp [hfe, deassert_apply, firstCount]
  generalize (if type = tvfe then sub.deassert env.firstDeassert c else c) = c₁ at hfirst
  have hclocks := clocksOn_spec (hok.off hoff) env c₁
  unfold enable
  dsimp only
  by_cases hd : env.deassert = .ok
  · rw [if_neg (not_not.mpr ((Deassert.ret_eq_zero _).mpr hd))]
    exact enabled_of_ok hfirst hclocks hd
  · rw [if_pos (mt (Deassert.ret_eq_zero _).mp hd)]
    exact enabled_of_not_ok hoff hfirst hclocks hd

theorem disable_spec (hok : sub.Ok) (type : Nat) (c : Counts) :
    (∀ r, (sub.disable type c).2 r = c r - (sub.held type).count r) ∧ (sub.disable type c).1.Ok ∧
      (sub.disable type c).1.enabled = false ∧ (sub.disable type c).1.pmDev = sub.pmDev := by
  unfold disable
  cases hen : sub.enabled with
  | false => exact ⟨fun r => by simp [held, hen], hok, hen, rfl⟩
  | true =>
    rw [if_neg (by simp)]
    have hoff : ∀ (b : Bool) (o : Option Nat), (b = true → o.isSome) → (b && o.isNone) = false := by
      intro b o h
      cases b with
      | false => rfl
      | true => simpa [Option.isSome_iff_ne_none] using h rfl
    have hclean : ∀ e ∈ sub.clkList.map (fun e => { e with
        clkEnabled := e.clkEnabled && e.clk.isNone
        parentClkEnabled := e.parentClkEnabled && e.parentClk.isNone } : Entry → Entry), e.Clean := by
      intro e he
      obtain ⟨e', he', rfl⟩ := List.mem_map.mp he
      exact ⟨hoff _ _ (hok.entries e' he').1, hoff _ _ (hok.entries e' he').2⟩
    have hbus := hoff _ _ hok.bus
    refine ⟨fun r => ?_, ⟨fun e he => (hclean e he).wf, fun h => absurd h (by simp [hbus]), fun _ => ⟨hclean, hbus⟩⟩,
      rfl, rfl⟩
    rw [held, hen, if_pos rfl]
    exact Sums.foldl_down (sub.releases type) c r

end Sub

def Env.forget (env : Env) : Tvtop.Env where
  prepareEnable := env.prepareEnable
  getParent := fun i => (env.getParent i).isSome
  prepareEnableParent := env.prepareEnableParent
  busClk := env.busClk
  firstDeassert := env.firstDeassert.ret
  deassert := env.deassert.ret

/-- The same counts and the same submodules enabled. -/
structure Same (s : State) (d : Dev) : Prop where
  refcount : s.refcount = d.refcount
  enabled : ∀ t, (s.sub t).enabled = d.enabled t

theorem Sub.clocksOn_enabled (sub : Sub) (env : Env) (c : Counts) : (sub.clocksOn env c).1.enabled = sub.enabled := by
  simp only [clocksOn, busClkEnable]
  split
  · rfl
  · split <;> rfl

theorem Sub.enable_ret_enabled (sub : Sub) (env : Env) (pm : Counts → Counts) (c c' : Counts) :
    (if sub.enabled then (0, sub, c) else sub.enable env pm c').1 = (if sub.enabled then 0 else env.deassert.ret) ∧
      (if sub.enabled then (0, sub, c) else sub.enable env pm c').2.1.enabled =
        (sub.enabled || decide (env.deassert.ret = 0)) := by
  have hen := sub.clocksOn_enabled env c'
  unfold Sub.enable
  dsimp only
  cases hsub : sub.enabled with
  | true => simp [hsub]
  | false => by_cases hd : env.deassert.ret = 0 <;> simp [hd, hen, hsub]

theorem Sub.enableFn_ret_enabled (type : Nat) (sub : Sub) (env : Env) (c : Counts) :
    (Sub.enableFn type sub env c).1 = (if sub.enabled then 0 else env.deassert.ret) ∧
      (Sub.enableFn type sub env c).2.1.enabled = (sub.enabled || decide (env.deassert.ret = 0)) := by
  unfold Sub.enableFn
  split
  · exact sub.enable_ret_enabled ..
  · split <;> exact sub.enable_ret_enabled ..

variable {s : State} {d : Dev}

section

variable (h : Same s d)

include h

theorem same_setSub {type : Nat} {sub : Sub} {sub' : Submodule} (hen : sub.enabled = sub'.enabled) (c : Counts) :
    Same (s.setSub type sub c) (d.setSub type sub') := by
  refine ⟨h.refcount, fun t => ?_⟩
  rw [Dev.setSub_enabled]
  by_cases ht : t = type
  · subst ht
    simp [State.setSub, hen]
  · simpa [State.setSub, ht] using h.enabled t

theorem same_count (type : Nat) (n : Int) : Same (s.count type n) (d.count type n) := by
  refine ⟨?_, h.enabled⟩
  simp only [State.count, Dev.count, h.refcount]

theorem same_getOwn (env : Nat → Env) (type : Nat) :
    (s.clkGetOwn env type).1 = (d.clkGetOwn (fun t => (env t).forget) type).1 ∧
      Same (s.clkGetOwn env type).2 (d.clkGetOwn (fun t => (env t).forget) type).2 := by
  have hc := same_count h type 1
  unfold State.clkGetOwn Dev.clkGetOwn
  dsimp only
  rw [hc.refcount]
  split
  · obtain ⟨hret, hen⟩ := Sub.enableFn_ret_enabled type ((s.count type 1).sub type) (env type) (s.count type 1).counts
    have hret' := Submodule.enableFn_ret type ((d.count type 1).sub type) (env type).forget
    have hen' := Submodule.enableFn_enabled type ((d.count type 1).sub type) (env type).forget
    have hsame : ((s.count type 1).sub type).enabled = ((d.count type 1).sub type).enabled := hc.enabled type
    rw [hsame] at hret hen
    exact ⟨hret.trans hret'.symm, same_setSub hc (hen.trans hen'.symm) _⟩
  · exact ⟨rfl, hc⟩

theorem same_get (env : Nat → Env) (type : Nat) :
    (s.clkGet env type).1 = (d.clkGet (fun t => (env t).forget) type).1 ∧
      Same (s.clkGet env type).2 (d.clkGet (fun t => (env t).forget) type).2 := by
  obtain ⟨hret, hs⟩ := same_getOwn h env type
  obtain ⟨hret', hs'⟩ := same_getOwn hs env tvcap
  unfold State.clkGet Dev.clkGet
  dsimp only
  split
  · exact ⟨rfl, h⟩
  · rw [hs.refcount, hret, hret']
    split
    · exact ⟨rfl, hs'⟩
    · exact ⟨rfl, hs⟩

theorem same_putOwn (type : Nat) :
    (s.clkPutOwn type).1 = (d.clkPutOwn type).1 ∧ Same (s.clkPutOwn type).2 (d.clkPutOwn type).2 := by
  have hc := same_count h type (-1)
  unfold State.clkPutOwn Dev.clkPutOwn
  dsimp only
  rw [h.refcount, hc.refcount]
  split
  · exact ⟨rfl, h⟩
  · split
    · refine ⟨rfl, same_setSub hc ?_ _⟩
      rw [Submodule.disable_enabled, Sub.disable]
      split
      · rename_i hen
        simpa using hen
      · rfl
    · exact ⟨rfl, hc⟩

theorem same_put (type : Nat) :
    (s.clkPut type).1 = (d.clkPut type).1 ∧ Same (s.clkPut type).2 (d.clkPut type).2 := by
  obtain ⟨hret, hs⟩ := same_putOwn h type
  unfold State.clkPut Dev.clkPut
  dsimp only
  split
  · exact ⟨rfl, h⟩
  · rw [hs.refcount, hret]
    split
    · exact ⟨rfl, (same_putOwn hs tvcap).2⟩
    · exact ⟨rfl, hs⟩

end

def Call.onDev (d : Dev) : Call → Dev
  | .get type env => (d.clkGet (fun t => (env t).forget) type).2
  | .put type => (d.clkPut type).2

/-- Every run of calls is one of `Tvtop.Clk`: the counts, the submodules that are enabled and what the next call
returns do not depend on the resources. -/
theorem calls_refine {ok : State → Call → Prop} {s s' : State} {d : Dev} {calls : List Call}
    (hr : Run step ok s calls s') (h : Same s d) : Same s' (calls.foldl Call.onDev d) ∧
      ∀ type, (s'.clkPut type).1 = ((calls.foldl Call.onDev d).clkPut type).1 ∧ ∀ env, (s'.clkGet env type).1 =
        ((calls.foldl Call.onDev d).clkGet (fun t => (env t).forget) type).1 := by
  have hs : Same s' (calls.foldl Call.onDev d) := by
    refine hr.sim (R := Same) (fun s d call ret s' h _ hs => ?_) h
    cases call with
    | get type env => cases hs; exact (same_get h env type).2
    | put type => cases hs; exact (same_put h type).2
  exact ⟨hs, fun type => ⟨(same_put hs type).1, fun env => (same_get hs env type).1⟩⟩

end H713.Tvtop.Resources
