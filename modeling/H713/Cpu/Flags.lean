import Mathlib.Logic.Function.Basic
import H713.Lib.History

/-!
# Cpu.Flags

The status words of the two CPUs in shared memory, one step for each call. One bit of a word is both "in reset" and
"a notice is requested"; it follows the notices and not the resets.
-/

namespace H713.Cpu

def commMagic : Nat := 0xDEADBEEF

def bit (i : Nat) : BitVec 32 := BitVec.twoPow 32 i

def flagReady : BitVec 32 := bit 0
def flagNotReady : BitVec 32 := bit 1
def flagAppReady : BitVec 32 := bit 2
def flagReset : BitVec 32 := bit 3
def flagNoticeReq : BitVec 32 := bit 3

def arm : Nat := 0
def mips : Nat := 1

def getCurCPUID : Nat := arm

structure Cpus where
  magic1 : Nat
  magic2 : Nat
  maxCpu : BitVec 32
  flags : Nat → BitVec 32
  mipsAppReadyAssumed : Bool

def Cpus.onFlag (s : Cpus) (cpu : Nat) (f : BitVec 32 → BitVec 32) : Cpus :=
  { s with flags := Function.update s.flags cpu (f (s.flags cpu)) }

def Cpus.marked (s : Cpus) : Prop := s.magic1 = commMagic ∧ s.magic2 = commMagic
deriving Decidable

def isCPUReady (s : Cpus) (cpu : Nat) : Nat :=
  if 1 < cpu then 0
  else if ¬ s.marked then 0
  else if s.flags cpu &&& flagReady ≠ 0 then 1 else 0

def isCPUReset (s : Cpus) (cpu : Nat) : Nat :=
  if 1 < cpu then 0
  else if s.flags cpu &&& flagReset ≠ 0 then 1 else 0

def appReadyOf (s : Cpus) (cpu : Nat) : Nat :=
  if s.magic1 ≠ commMagic then 0
  else if s.magic2 ≠ commMagic then 0
  else if s.flags cpu &&& flagAppReady = 0 then
    if cpu = mips ∧ s.mipsAppReadyAssumed then 1 else 0
  else 1

def isCPUAppReady (s : Cpus) (cpu : Nat) : Option Nat :=
  if 2 < cpu then none
  else if cpu = 2 then
    if (s.maxCpu &&& 1 ≠ 0 ∧ appReadyOf s arm = 0) ∨ (s.maxCpu &&& 2 ≠ 0 ∧ appReadyOf s mips = 0)
    then some 0 else some 1
  else some (appReadyOf s cpu)

def readied (f : BitVec 32) : BitVec 32 :=
  (((f ||| flagReady) &&& ~~~flagNotReady) &&& ~~~flagReset) &&& ~~~flagNoticeReq

def unreadied (f : BitVec 32) : BitVec 32 := (f ||| flagNotReady) &&& ~~~flagReady

def putInReset (f : BitVec 32) : BitVec 32 :=
  ((f &&& ~~~flagReady) &&& ~~~flagAppReady) ||| flagNotReady

def noticed (f : BitVec 32) : BitVec 32 := f &&& ~~~flagNoticeReq

def setCPUReady (s : Cpus) (cpu : Nat) : Out Cpus Unit :=
  if 1 < cpu then .ret () s
  else if ¬ s.marked then .bug
  else .ret () (s.onFlag cpu readied)

def setCPUnotReady (s : Cpus) (cpu : Nat) : Out Cpus Unit :=
  if 1 < cpu then .ret () s
  else .ret () (s.onFlag cpu unreadied)

def setCPUAppReady (s : Cpus) (cpu : Nat) : Out Cpus Unit :=
  if 1 < cpu then .ret () s
  else if s.magic1 ≠ commMagic then .bug
  else if s.magic2 ≠ commMagic then .bug
  else if isCPUReady s cpu = 0 then .bug
  else if isCPUReset s cpu ≠ 0 then .bug
  else
    let s := s.onFlag cpu (· ||| flagAppReady)
    if s.flags arm &&& flagAppReady = 0 then .spin else .ret () s

def clearCPUNoticeReqed (s : Cpus) (_cpu : Nat) : Out Cpus Unit :=
  if ¬ s.marked then .bug
  else .ret () (s.onFlag getCurCPUID noticed)

def checkNoticeReqedJob (s : Cpus) : Out Cpus Unit := clearCPUNoticeReqed s 0

def setCPUReset (s : Cpus) (cpu phase : Nat) : Out Cpus Unit :=
  if 1 < cpu then .ret () s
  else if s.magic1 ≠ commMagic then .bug
  else if s.magic2 ≠ commMagic then .bug
  else if phase = 0 then
    .ret () (((s.onFlag cpu putInReset).onFlag arm (· ||| flagNoticeReq)).onFlag mips
      (· ||| flagNoticeReq))
  else if phase = 1 then checkNoticeReqedJob s
  else .ret () s

inductive CpuCall where
  | reset (cpu phase : Nat)
  | ready (cpu : Nat)
  | notReady (cpu : Nat)
  | appReady (cpu : Nat)
  | clearNotice (cpu : Nat)
  | checkNotice
  deriving DecidableEq, Repr

def cpuStep (s : Cpus) : CpuCall → Out Cpus Unit
  | .reset cpu phase => setCPUReset s cpu phase
  | .ready cpu => setCPUReady s cpu
  | .notReady cpu => setCPUnotReady s cpu
  | .appReady cpu => setCPUAppReady s cpu
  | .clearNotice cpu => clearCPUNoticeReqed s cpu
  | .checkNotice => checkNoticeReqedJob s

@[simp] theorem Cpus.onFlag_self (s : Cpus) (cpu : Nat) (f : BitVec 32 → BitVec 32) :
    (s.onFlag cpu f).flags cpu = f (s.flags cpu) := by simp [Cpus.onFlag]

@[simp] theorem Cpus.onFlag_of_ne (s : Cpus) {c cpu : Nat} (h : c ≠ cpu)
    (f : BitVec 32 → BitVec 32) : (s.onFlag cpu f).flags c = s.flags c := by simp [Cpus.onFlag, h]

theorem and_bit_eq_zero (f : BitVec 32) {i : Nat} (h : i < 32) : f &&& bit i = 0 ↔ f.getLsbD i = false := by
  rw [bit, BitVec.and_twoPow]
  cases f.getLsbD i with
  | false => simp
  | true =>
    simp only [if_true, Bool.true_eq_false, iff_false]
    intro h0
    have h1 := congrArg (BitVec.getLsbD · i) h0
    simp [h] at h1

@[simp] theorem getElem_bit (i : Nat) {j : Nat} (h : j < 32) : (bit i)[j] = decide (i = j) := by
  simp [bit, BitVec.getElem_twoPow, eq_comm]

def Void : CpuCall → Prop
  | .reset c p => 1 < c ∨ 1 < p
  | .ready c | .notReady c | .appReady c => 1 < c
  | .clearNotice _ | .checkNotice => False

inductive Does (s : Cpus) : CpuCall → Cpus → Prop where
  | nothing {op : CpuCall} (h : Void op) : Does s op s
  | reset {c : Nat} (hc : c ≤ 1) : Does s (.reset c 0)
      (((s.onFlag c putInReset).onFlag arm (· ||| flagNoticeReq)).onFlag mips (· ||| flagNoticeReq))
  | cleanup {c : Nat} (hc : c ≤ 1) : Does s (.reset c 1) (s.onFlag arm noticed)
  | clear (c : Nat) : Does s (.clearNotice c) (s.onFlag arm noticed)
  | check : Does s .checkNotice (s.onFlag arm noticed)
  | ready {c : Nat} (hc : c ≤ 1) : Does s (.ready c) (s.onFlag c readied)
  | notReady {c : Nat} (hc : c ≤ 1) : Does s (.notReady c) (s.onFlag c unreadied)
  | appReady {c : Nat} (hc : c ≤ 1) : Does s (.appReady c) (s.onFlag c (· ||| flagAppReady))

section

variable {s s' : Cpus} {op : CpuCall}

theorem clearCPUNoticeReqed_ret {c : Nat} (h : clearCPUNoticeReqed s c = .ret () s') :
    s' = s.onFlag arm noticed := by
  simp only [clearCPUNoticeReqed] at h
  split at h
  · cases h
  · exact (Out.ret.inj h).2.symm

theorem does_reset {c p : Nat} (h : setCPUReset s c p = .ret () s') : Does s (.reset c p) s' := by
  simp only [setCPUReset] at h
  split at h
  · cases h
    exact .nothing (.inl ‹_›)
  split at h
  · cases h
  split at h
  · cases h
  rename_i hc _ _
  split at h
  · rename_i hp
    cases h
    subst hp
    exact .reset (by omega)
  split at h
  · rename_i hp
    obtain rfl := clearCPUNoticeReqed_ret h
    subst hp
    exact .cleanup (by omega)
  · cases h
    exact .nothing (.inr (by omega))

theorem does_appReady {c : Nat} (h : setCPUAppReady s c = .ret () s') : Does s (.appReady c) s' := by
  simp only [setCPUAppReady] at h
  split at h
  · cases h
    exact .nothing ‹_›
  rename_i hc
  split at h
  · cases h
  split at h
  · cases h
  split at h
  · cases h
  split at h
  · cases h
  split at h
  · cases h
  · cases h
    exact .appReady (by omega)

theorem does_of_ret (h : cpuStep s op = .ret () s') : Does s op s' := by
  cases op with
  | reset c p => exact does_reset h
  | ready c =>
    simp only [cpuStep, setCPUReady] at h
    split at h
    · cases h
      exact .nothing ‹_›
    split at h
    · cases h
    · cases h
      exact .ready (by omega)
  | notReady c =>
    simp only [cpuStep, setCPUnotReady] at h
    split at h
    · cases h
      exact .nothing ‹_›
    · cases h
      exact .notReady (by omega)
  | appReady c => exact does_appReady h
  | clearNotice c => exact clearCPUNoticeReqed_ret (c := c) h ▸ .clear c
  | checkNotice => exact clearCPUNoticeReqed_ret (c := 0) h ▸ .check

end

def PutsInReset (c : Nat) (op : CpuCall) : Prop := op = .reset c 0
deriving Decidable

def MakesReady (c : Nat) (op : CpuCall) : Prop := op = .ready c
deriving Decidable

def MakesAppReady (c : Nat) (op : CpuCall) : Prop := op = .appReady c
deriving Decidable

/-- A reset of either CPU. -/
def Resets (op : CpuCall) : Prop := PutsInReset arm op ∨ PutsInReset mips op

def ClearsNotice (c : Nat) (op : CpuCall) : Prop :=
  MakesReady c op ∨ c = getCurCPUID ∧
    (op = .checkNotice ∨ op = .reset arm 1 ∨ op = .reset mips 1 ∨ ∃ d, op = .clearNotice d)

section

variable {s s' : Cpus} {op : CpuCall} {c : Nat}

theorem le_one_cases {c : Nat} (h : c ≤ 1) : c = arm ∨ c = mips := by
  simp only [arm, mips]; omega

theorem notice_step (hc : c ≤ 1) (h : Does s op s') : (s'.flags c).getLsbD 3 = true ↔
      Resets op ∨ ¬ ClearsNotice c op ∧ (s.flags c).getLsbD 3 = true := by
  simp only [Resets, ClearsNotice, PutsInReset, MakesReady, getCurCPUID]
  cases h with
  | nothing h =>
    have h1 : op ≠ .reset arm 0 ∧ op ≠ .reset mips 0 := by
      constructor <;> rintro rfl <;> simp [Void, arm, mips] at h
    have h2 : op ≠ .ready c := by rintro rfl; simp only [Void] at h; omega
    have h3 : op ≠ .checkNotice ∧ op ≠ .reset arm 1 ∧ op ≠ .reset mips 1 ∧ ∀ d, op ≠ .clearNotice d := by
      refine ⟨?_, ?_, ?_, fun d => ?_⟩ <;> rintro rfl <;> simp [Void, arm, mips] at h
    simp [h1, h2, h3]
  | clear | check => obtain rfl | rfl := le_one_cases hc <;> simp [arm, mips, noticed, flagNoticeReq]
  | reset hd | cleanup hd | ready hd | notReady hd | appReady hd =>
    obtain rfl | rfl := le_one_cases hc <;> obtain rfl | rfl := le_one_cases hd <;>
      simp [arm, mips, noticed, readied, unreadied, flagReset, flagReady, flagNotReady, flagAppReady, flagNoticeReq]

theorem app_step (hc : c ≤ 1) (h : Does s op s') : (s'.flags c).getLsbD 2 = true ↔
      MakesAppReady c op ∨ ¬ PutsInReset c op ∧ (s.flags c).getLsbD 2 = true := by
  simp only [PutsInReset, MakesAppReady]
  cases h with
  | nothing h =>
    have h1 : op ≠ .reset c 0 := by rintro rfl; simp only [Void] at h; omega
    have h2 : op ≠ .appReady c := by rintro rfl; simp only [Void] at h; omega
    simp [h1, h2]
  | clear | check => obtain rfl | rfl := le_one_cases hc <;> simp [arm, mips, noticed, flagNoticeReq]
  | reset hd | cleanup hd | ready hd | notReady hd | appReady hd =>
    obtain rfl | rfl := le_one_cases hc <;> obtain rfl | rfl := le_one_cases hd <;>
      simp [arm, mips, putInReset, noticed, readied, unreadied, flagReset, flagReady, flagNotReady, flagAppReady,
        flagNoticeReq]

theorem does_frame (h : Does s op s') :
    (s'.marked ↔ s.marked) ∧ s'.mipsAppReadyAssumed = s.mipsAppReadyAssumed := by
  cases h <;> exact ⟨Iff.rfl, rfl⟩

theorem isCPUReset_eq_one (hc : c ≤ 1) : isCPUReset s c = 1 ↔ (s.flags c).getLsbD 3 = true := by
  have h := and_bit_eq_zero (s.flags c) (i := 3) (by decide)
  simp only [isCPUReset, if_neg (Nat.not_lt.mpr hc), flagReset, ne_eq, h]
  cases (s.flags c).getLsbD 3 <;> simp

theorem isCPUAppReady_eq_one (hm : s.marked) (hc : c ≤ 1) : isCPUAppReady s c = some 1 ↔
      (s.flags c).getLsbD 2 = true ∨ c = mips ∧ s.mipsAppReadyAssumed = true := by
  have h := and_bit_eq_zero (s.flags c) (i := 2) (by decide)
  have h2 : ¬ 2 < c := by omega
  have h3 : ¬ c = 2 := by omega
  simp only [isCPUAppReady, appReadyOf, if_neg h2, if_neg h3, hm.1, hm.2, flagAppReady, h, ne_eq,
    not_true_eq_false, if_false, Option.some.injEq]
  cases (s.flags c).getLsbD 2 <;> simp

end

/-- The shared memory as `InitCommMem` clears it; the assumption is made or not. -/
structure Booted (s : Cpus) : Prop where
  marked : s.marked
  clear : ∀ c ≤ 1, s.flags c = 0

/-- CPU `c` was put in reset and has not been made ready since. -/
def InReset (c : Nat) (calls : List CpuCall) : Prop := Since (PutsInReset c) (MakesReady c) calls
deriving Decidable

/-- CPU `c` was made application ready, and has not been put in reset since. -/
def AppReadied (c : Nat) (calls : List CpuCall) : Prop :=
  Since (MakesAppReady c) (PutsInReset c) calls
deriving Decidable

section

variable {s₀ s : Cpus} {calls : List CpuCall} {c : Nat}

section

variable (hb : Booted s₀) (hr : Run cpuStep (fun _ _ => True) s₀ calls s) (hc : c ≤ 1)

include hb hr hc

theorem isCPUReset_iff : isCPUReset s c = 1 ↔ Since Resets (ClearsNotice c) calls := by
  rw [isCPUReset_eq_one hc]
  exact hr.since (P := fun s => (s.flags c).getLsbD 3 = true)
    (fun s op _ s' _ hs => notice_step hc (does_of_ret hs)) (by simp [hb.clear c hc])

theorem appBit_iff : (s.flags c).getLsbD 2 = true ↔ AppReadied c calls :=
  hr.since (P := fun s => (s.flags c).getLsbD 2 = true)
    (fun s op _ s' _ hs => app_step hc (does_of_ret hs)) (by simp [hb.clear c hc])

end

theorem run_frame (hr : Run cpuStep (fun _ _ => True) s₀ calls s) :
    (s.marked ↔ s₀.marked) ∧ s.mipsAppReadyAssumed = s₀.mipsAppReadyAssumed := by
  refine hr.inv (I := fun s => (s.marked ↔ s₀.marked) ∧
    s.mipsAppReadyAssumed = s₀.mipsAppReadyAssumed) (fun s op a s' hi _ hs => ?_) ⟨Iff.rfl, rfl⟩
  obtain ⟨h1, h2⟩ := does_frame (does_of_ret hs)
  exact ⟨h1.trans hi.1, h2.trans hi.2⟩

theorem isCPUAppReady_iff (hb : Booted s₀) (hr : Run cpuStep (fun _ _ => True) s₀ calls s)
    (hc : c ≤ 1) : isCPUAppReady s c = some 1 ↔ AppReadied c calls ∨ c = mips ∧ s₀.mipsAppReadyAssumed = true := by
  obtain ⟨hm, ha⟩ := run_frame hr
  rw [isCPUAppReady_eq_one (hm.mpr hb.marked) hc, appBit_iff hb hr hc, ha]

end

/-- `IsCPUReset` and `isCPUAppReady` say what has happened to the CPUs. -/
def Truthful (s₀ s : Cpus) (calls : List CpuCall) : Prop :=
  (∀ c ≤ 1, isCPUReset s c = 1 ↔ InReset c calls) ∧
  ∀ c ≤ 1, isCPUAppReady s c = some 1 → AppReadied c calls ∨
    c = mips ∧ s₀.mipsAppReadyAssumed = true ∧ ∀ op ∈ calls, ¬ PutsInReset mips op

/-- Where the other CPU was reset and `c` has not cleared the notice, `c` is in reset; and while `c` is in
reset, no notice has been cleared after the last reset. -/
def NoticeOwn (c : Nat) (calls : List CpuCall) : Prop :=
  (Since (PutsInReset (1 - c)) (ClearsNotice c) calls → InReset c calls) ∧
  (InReset c calls → Since Resets (ClearsNotice c) calls)

/-- After a reset the assumption about the MIPS has come true. -/
def AssumptionRenewed (s₀ : Cpus) (calls : List CpuCall) : Prop :=
  s₀.mipsAppReadyAssumed = true → (∃ op ∈ calls, PutsInReset mips op) → AppReadied mips calls

theorem notice_iff_inReset {c : Nat} (hc : c ≤ 1) (calls : List CpuCall) :
    (Since Resets (ClearsNotice c) calls ↔ InReset c calls) ↔ NoticeOwn c calls := by
  have hor : Since Resets (ClearsNotice c) calls ↔
      Since (PutsInReset c) (ClearsNotice c) calls ∨
        Since (PutsInReset (1 - c)) (ClearsNotice c) calls := by
    rw [← since_or]
    obtain rfl | rfl := le_one_cases hc
    · exact Iff.rfl
    · exact ⟨Since.mono (fun _ => Or.symm) fun _ => id, Since.mono (fun _ => Or.symm) fun _ => id⟩
  have hown : Since (PutsInReset c) (ClearsNotice c) calls → InReset c calls :=
    Since.mono (fun _ => id) fun _ => .inl
  constructor
  · intro h
    exact ⟨fun ho => h.mp (hor.mpr (.inr ho)), h.mpr⟩
  · rintro ⟨h1, h2⟩
    exact ⟨fun h => (hor.mp h).elim hown h1, h2⟩

/-- What the three flags say about the calls made, at every point of every sequence of calls. -/
theorem flags_truthful_iff {s₀ s : Cpus} {calls : List CpuCall} (hb : Booted s₀)
    (hr : Run cpuStep (fun _ _ => True) s₀ calls s) :
    Truthful s₀ s calls ↔ NoticeOwn arm calls ∧ NoticeOwn mips calls ∧ AssumptionRenewed s₀ calls := by
  have hreset : (∀ c ≤ 1, isCPUReset s c = 1 ↔ InReset c calls) ↔
      NoticeOwn arm calls ∧ NoticeOwn mips calls := by
    have h : ∀ c ≤ 1, (isCPUReset s c = 1 ↔ InReset c calls) ↔ NoticeOwn c calls := by
      intro c hc
      rw [isCPUReset_iff hb hr hc, notice_iff_inReset hc]
    constructor
    · intro ha
      exact ⟨(h arm (by decide)).mp (ha arm (by decide)), (h mips (by decide)).mp (ha mips (by decide))⟩
    · rintro ⟨h0, h1⟩ c hc
      obtain rfl | rfl := le_one_cases hc
      · exact (h arm hc).mpr h0
      · exact (h mips hc).mpr h1
  have happ : (∀ c ≤ 1, isCPUAppReady s c = some 1 → AppReadied c calls ∨
      c = mips ∧ s₀.mipsAppReadyAssumed = true ∧ ∀ op ∈ calls, ¬ PutsInReset mips op) ↔
      AssumptionRenewed s₀ calls := by
    constructor
    · intro ha hs hp
      obtain h | ⟨-, -, hn⟩ := ha mips (by decide)
        ((isCPUAppReady_iff hb hr (by decide)).mpr (.inr ⟨rfl, hs⟩))
      · exact h
      · obtain ⟨op, hop, hp⟩ := hp
        exact absurd hp (hn op hop)
    · intro ha c hc h1
      obtain h | ⟨rfl, hs⟩ := (isCPUAppReady_iff hb hr hc).mp h1
      · exact .inl h
      · by_cases hp : ∃ op ∈ calls, PutsInReset mips op
        · exact .inl (ha hs hp)
        · exact .inr ⟨rfl, hs, fun op hop hq => hp ⟨op, hop, hq⟩⟩
  rw [Truthful, hreset, happ, and_assoc]

def booted : Cpus := ⟨commMagic, commMagic, 3, fun _ => 0, true⟩

theorem booted_booted : Booted booted := ⟨⟨rfl, rfl⟩, fun _ _ => rfl⟩

theorem flags_truthful_iff_bothReset :
    ∃ s, Run cpuStep (fun _ _ => True) booted [.reset 0 0, .reset 1 0, .ready 0, .ready 1] s ∧
      (Truthful booted s [.reset 0 0, .reset 1 0, .ready 0, .ready 1] ↔
        NoticeOwn arm [.reset 0 0, .reset 1 0, .ready 0, .ready 1] ∧
        NoticeOwn mips [.reset 0 0, .reset 1 0, .ready 0, .ready 1] ∧
        AssumptionRenewed booted [.reset 0 0, .reset 1 0, .ready 0, .ready 1]) := by
  refine Run.exists_of_exec_imp (P := fun _ => True) (by decide) fun s hx _ => ?_
  exact flags_truthful_iff booted_booted hx

def mipsReset : List CpuCall := [.ready 0, .appReady 0, .ready 1, .appReady 1, .reset 1 0]

theorem mipsReset_misleads : ∃ s, Run cpuStep (fun _ _ => True) booted mipsReset s ∧
      (isCPUReset s arm = 1 ∧ ¬ InReset arm mipsReset) ∧
      (isCPUAppReady s mips = some 1 ∧ ¬ AppReadied mips mipsReset) ∧ ¬ Truthful booted s mipsReset := by
  refine Run.exists_of_exec_imp
    (P := fun s => isCPUReset s arm = 1 ∧ isCPUAppReady s mips = some 1) (by decide) fun s hx hend => ?_
  obtain ⟨h0, h1⟩ := hend
  have hn : ¬ InReset arm mipsReset := by decide
  exact ⟨⟨h0, hn⟩, ⟨h1, by decide⟩, fun ht => hn ((ht.1 arm (by decide)).mp h0)⟩

end H713.Cpu
