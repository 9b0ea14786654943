import Mathlib.Data.UInt
import Mathlib.Logic.Function.Basic
import H713.Lib.Run

/-!
# Cedrus.Guard

The DMA guard: padding behind each capture buffer, poisoned in `buf_prepare` and looked at in `buf_finish`. Its size
is a module parameter that each function reads anew.
-/

namespace H713.Cedrus.Guard

open Function

def poison : UInt8 := 0x5a

structure Buf where
  size : UInt32
  mem : Int → UInt8

def queueSetup (dmaGuard sizeimage : UInt32) (capture : Bool) (sizes : Option UInt32) : Except Int UInt32 :=
  match sizes with
  | some size =>
    if size < sizeimage then .error (-22)
    else .ok (if capture then max size (sizeimage + dmaGuard) else size)
  | none => .ok (if capture then sizeimage + dmaGuard else sizeimage)

def guardPoison (dmaGuard : UInt32) (b : Buf) (payload : UInt32) : Buf :=
  if dmaGuard = 0 ∨ b.size ≤ payload then b
  else { b with mem := fun i => if payload.toNat ≤ i ∧ i < b.size.toNat then poison else b.mem i }

structure Scan where
  first : Int
  damaged : UInt32

def Scan.next (b : Buf) (payload : UInt32) (s : Scan) (i : Nat) : Scan :=
  if b.mem (payload.toNat + i) ≠ poison then
    { first := if s.first < 0 then Int.bmod i (2 ^ 32) else s.first
      damaged := s.damaged + 1 }
  else s

def scan (b : Buf) (payload : UInt32) (n : Nat) : Scan :=
  (List.range n).foldl (Scan.next b payload) ⟨-1, 0⟩

structure Report where
  index : Nat
  damaged : UInt32
  payload : UInt32
  first : Int
  guard : UInt32
  value : UInt8

def guardCheck (dmaGuard : UInt32) (index : Nat) (b : Buf) (payload : UInt32) : Option Report :=
  if dmaGuard = 0 ∨ b.size ≤ payload then none
  else
    let s := scan b payload (b.size - payload).toNat
    if s.damaged = 0 then none
    else some ⟨index, s.damaged, payload, s.first, b.size - payload, b.mem (payload.toNat + s.first)⟩

def bufPrepare (dmaGuard sizeimage : UInt32) (b : Buf) : Int × Buf :=
  if b.size < sizeimage then (-22, b) else (0, guardPoison dmaGuard b sizeimage)

def bufFinish (dmaGuard sizeimage : UInt32) (index : Nat) (b : Buf) : Option Report :=
  guardCheck dmaGuard index b sizeimage

structure Prepared where
  mem : Int → UInt8
  guarded : Bool

structure Sys where
  dmaGuard : UInt32
  sizeimage : UInt32
  buf : Nat → Buf
  prepared : Nat → Option Prepared

inductive Call where
  | setGuard (v : UInt32)
  | queueSetup (sizes : Option UInt32)
  | create (index : Nat) (b : Buf)
  | prepare (index : Nat)
  | write (index : Nat) (i : Int) (v : UInt8)
  | finish (index : Nat)

inductive Res where
  | done
  | size (r : Except Int UInt32)
  | report (r : Option Report)

def step (s : Sys) : Call → Out Sys Res
  | .setGuard v => .ret .done { s with dmaGuard := v }
  | .queueSetup sizes => .ret (.size (Guard.queueSetup s.dmaGuard s.sizeimage true sizes)) s
  | .create index b => .ret .done { s with buf := update s.buf index b }
  | .prepare index =>
    let r := bufPrepare s.dmaGuard s.sizeimage (s.buf index)
    if r.1 ≠ 0 then .ret .done s
    else
      .ret .done { s with
        buf := update s.buf index r.2
        prepared := update s.prepared index (some ⟨r.2.mem, s.dmaGuard ≠ 0⟩) }
  | .write index i v =>
    let b := s.buf index
    .ret .done { s with buf := update s.buf index { b with mem := update b.mem i v } }
  | .finish index =>
    .ret (.report (bufFinish s.dmaGuard s.sizeimage index (s.buf index)))
      { s with prepared := update s.prepared index none }

/-- Buffers are finished once for each `buf_prepare`, and not replaced in between. -/
def Allowed (s : Sys) : Call → Prop
  | .create index _ => s.prepared index = none
  | .prepare index => s.prepared index = none
  | .finish index => s.prepared index ≠ none
  | _ => True

def Sys.Padding (s : Sys) (index : Nat) (i : Int) : Prop :=
  s.sizeimage.toNat ≤ i ∧ i < (s.buf index).size.toNat

/-- Some byte of the padding is not what it was after `buf_prepare`. -/
def Sys.Changed (s : Sys) (index : Nat) (p : Prepared) : Prop :=
  ∃ i, s.Padding index i ∧ (s.buf index).mem i ≠ p.mem i

def Right (s : Sys) : Call → Prop
  | .queueSetup sizes =>
    ∀ size, Guard.queueSetup s.dmaGuard s.sizeimage true sizes = .ok size → s.sizeimage ≤ size
  | .finish index =>
    ∀ p, s.prepared index = some p →
      ((bufFinish s.dmaGuard s.sizeimage index (s.buf index)).isSome → s.Changed index p) ∧
      (p.guarded → s.dmaGuard ≠ 0 → s.Changed index p →
        (bufFinish s.dmaGuard s.sizeimage index (s.buf index)).isSome)
  | _ => True

/-- Frame and guard fit in 32 bits; with the guard on, a buffer prepared without it has poison or a change
in its padding. -/
def Fits (s : Sys) : Call → Prop
  | .queueSetup sizes => sizes = none → s.sizeimage.toNat + s.dmaGuard.toNat < 2 ^ 32
  | .finish index =>
    ∀ p, s.prepared index = some p → s.dmaGuard ≠ 0 → ¬ p.guarded →
      (∀ i, s.Padding index i → p.mem i = poison) ∨ s.Changed index p
  | _ => True

theorem le_max_left {a b : UInt32} : a ≤ max a b := by
  show a ≤ if a ≤ b then b else a
  split
  · assumption
  · exact UInt32.le_refl a

theorem le_add_iff {a b : UInt32} : a ≤ a + b ↔ a.toNat + b.toNat < 2 ^ 32 := by
  rw [UInt32.le_iff_toNat_le, UInt32.toNat_add]
  have ha := a.toNat_lt
  have hb := b.toNat_lt
  omega

theorem queueSetup_holds_iff (dmaGuard sizeimage : UInt32) (sizes : Option UInt32) :
    (∀ size, queueSetup dmaGuard sizeimage true sizes = .ok size → sizeimage ≤ size) ↔
      (sizes = none → sizeimage.toNat + dmaGuard.toNat < 2 ^ 32) := by
  cases sizes with
  | none => simp [queueSetup, le_add_iff]
  | some size =>
    refine iff_of_true ?_ fun h => by cases h
    intro n hn
    unfold queueSetup at hn
    dsimp only at hn
    split at hn
    · cases hn
    · rename_i hle
      cases hn
      exact UInt32.le_trans (UInt32.not_lt.mp hle) le_max_left

theorem scan_succ (b : Buf) (payload : UInt32) (n : Nat) :
    scan b payload (n + 1) = Scan.next b payload (scan b payload n) n := by
  simp [scan, List.range_succ]

variable {b : Buf} {s : Sys}

theorem scan_damaged {payload : UInt32} {n : Nat} (hn : n < 2 ^ 32) : (scan b payload n).damaged.toNat =
      (List.range n).countP fun i => b.mem (payload.toNat + (i : Nat)) ≠ poison := by
  induction n with
  | zero => rfl
  | succ n ih =>
    have hcount := ih (by omega)
    have hle : (scan b payload n).damaged.toNat ≤ n := by
      rw [hcount]
      exact List.countP_le_length.trans (by simp)
    rw [scan_succ, List.range_succ, List.countP_append, ← hcount, Scan.next]
    by_cases hp : b.mem (payload.toNat + n) = poison
    · simp [hp]
    · simp [hp]
      omega

theorem scan_damaged_eq_zero {payload : UInt32} {n : Nat} (hn : n < 2 ^ 32) :
    (scan b payload n).damaged = 0 ↔ ∀ i < n, b.mem (payload.toNat + (i : Nat)) = poison := by
  rw [← UInt32.toNat_inj, scan_damaged hn]
  simp [List.countP_eq_zero]

theorem bufFinish_isSome_iff (dmaGuard sizeimage : UInt32) (index : Nat) (b : Buf) :
    (bufFinish dmaGuard sizeimage index b).isSome ↔
      dmaGuard ≠ 0 ∧ ∃ i : Int, (sizeimage.toNat ≤ i ∧ i < b.size.toNat) ∧ b.mem i ≠ poison := by
  unfold bufFinish guardCheck
  by_cases hg : dmaGuard = 0
  · simp [hg]
  by_cases hs : b.size ≤ sizeimage
  · rw [if_pos (.inr hs)]
    rw [UInt32.le_iff_toNat_le] at hs
    refine iff_of_false (by simp) ?_
    rintro ⟨-, i, hi, -⟩
    omega
  rw [if_neg (by simp [hg, hs])]
  dsimp only
  have hsub : (b.size - sizeimage).toNat = b.size.toNat - sizeimage.toNat :=
    UInt32.toNat_sub_of_le _ _ (UInt32.le_of_lt (UInt32.not_le.mp hs))
  have hzero : (scan b sizeimage (b.size - sizeimage).toNat).damaged = 0 ↔ _ :=
    scan_damaged_eq_zero (b.size - sizeimage).toNat_lt
  rw [hsub] at hzero
  split
  · rename_i hd
    refine iff_of_false (by simp) ?_
    rintro ⟨-, i, hi, hne⟩
    refine hne ?_
    have := hzero.mp (hsub ▸ hd) (i - sizeimage.toNat).toNat (by omega)
    rwa [show (sizeimage.toNat : Int) + ((i - sizeimage.toNat).toNat : Nat) = i by omega] at this
  · rename_i hd
    refine iff_of_true rfl ⟨hg, ?_⟩
    by_contra hnone
    refine hd (hsub ▸ hzero.mpr fun i hi => ?_)
    by_contra hne
    exact hnone ⟨_, ⟨by omega, by omega⟩, hne⟩

theorem guardPoison_mem (dmaGuard : UInt32) (b : Buf) (payload : UInt32) (hg : dmaGuard ≠ 0) {i : Int}
    (hi : payload.toNat ≤ i ∧ i < b.size.toNat) : (guardPoison dmaGuard b payload).mem i = poison := by
  unfold guardPoison
  have hs : ¬ b.size ≤ payload := by
    rw [UInt32.le_iff_toNat_le]
    omega
  rw [if_neg (by simp [hg, hs])]
  exact if_pos hi

theorem guardPoison_size (dmaGuard : UInt32) (b : Buf) (payload : UInt32) :
    (guardPoison dmaGuard b payload).size = b.size := by
  unfold guardPoison
  split <;> rfl

def Inv (s : Sys) : Prop :=
  ∀ index p, s.prepared index = some p → p.guarded → ∀ i, s.Padding index i → p.mem i = poison

theorem bufPrepare_of_ok {dmaGuard sizeimage : UInt32} (h : ¬ (bufPrepare dmaGuard sizeimage b).1 ≠ 0) :
    (bufPrepare dmaGuard sizeimage b).2 = guardPoison dmaGuard b sizeimage := by
  unfold bufPrepare at h ⊢
  split at h
  · simp at h
  · rename_i hs
    rw [if_neg hs]

theorem Inv.step {s' : Sys} {c : Call} {r : Res} (h : Inv s) (hal : Allowed s c) (hs : step s c = .ret r s') :
    Inv s' := by
  cases c with
  | setGuard v | queueSetup sizes => cases hs; exact h
  | create index b =>
    cases hs
    intro k p hp hg i hi
    have hk : k ≠ index := by
      rintro rfl
      cases (Option.some_ne_none p) (hp.symm.trans hal)
    refine h k p hp hg i ?_
    simpa [Sys.Padding, hk] using hi
  | prepare index =>
    simp only [Guard.step] at hs
    split at hs
    · cases hs
      exact h
    · rename_i hok
      rw [bufPrepare_of_ok hok] at hs
      cases hs
      intro k p hp hg i hi
      by_cases hk : k = index
      · subst hk
        simp only [update_self, Option.some.injEq] at hp
        subst hp
        refine guardPoison_mem _ _ _ (by simpa using hg) ?_
        simpa [Sys.Padding, guardPoison_size] using hi
      · refine h k p (by simpa [hk] using hp) hg i ?_
        simpa [Sys.Padding, hk] using hi
  | write index j v =>
    cases hs
    intro k p hp hg i hi
    refine h k p hp hg i ?_
    by_cases hk : k = index
    · subst hk
      simpa [Sys.Padding] using hi
    · simpa [Sys.Padding, hk] using hi
  | finish index =>
    cases hs
    intro k p hp
    by_cases hk : k = index
    · subst hk
      simp at hp
    · exact h k p (by simpa [hk] using hp)

theorem finish_right_iff (h : Inv s) (index : Nat) : Right s (.finish index) ↔ Fits s (.finish index) := by
  simp only [Right, Fits, bufFinish_isSome_iff]
  refine forall_congr' fun p => imp_congr_right fun hp => ?_
  constructor
  · rintro ⟨honly, -⟩ hg -
    by_contra hno
    push Not at hno
    obtain ⟨⟨i, hi, hne⟩, hsame⟩ := hno
    -- unchanged, and seen as damage
    have heq : (s.buf index).mem i = p.mem i := by
      by_contra hch
      exact hsame ⟨i, hi, hch⟩
    exact hsame (honly ⟨hg, i, hi, by rw [heq]; exact hne⟩)
  · intro hf
    constructor
    · rintro ⟨hg, i, hi, hne⟩
      by_cases hgd : p.guarded
      · exact ⟨i, hi, by rw [h index p hp hgd i hi]; exact hne⟩
      · obtain hall | hch := hf hg hgd
        · exact ⟨i, hi, by rw [hall i hi]; exact hne⟩
        · exact hch
    · rintro hgd hg ⟨i, hi, hne⟩
      exact ⟨hg, i, hi, by rwa [h index p hp hgd i hi] at hne⟩

theorem right_iff (h : Inv s) (c : Call) : Right s c ↔ Fits s c := by
  cases c with
  | queueSetup sizes => exact queueSetup_holds_iff s.dmaGuard s.sizeimage sizes
  | finish index => exact finish_right_iff h index
  | setGuard v | create index b | prepare index | write index i v => exact Iff.rfl

/-- In every run, with the parameter written at any time, a call answers as it should exactly when it fits. -/
theorem guard_right {s s' : Sys} {calls : List Call} (h : ∀ index, s.prepared index = none)
    (hr : Run step Allowed s calls s') (c : Call) : Right s' c ↔ Fits s' c := by
  have hinv : Inv s' := hr.inv (fun _ _ _ _ h hal hs => h.step hal hs) fun index p hp => by
    rw [h index] at hp
    cases hp
  exact right_iff hinv c

def start : Sys := ⟨0, 4, fun _ => ⟨0, fun _ => 0⟩, fun _ => none⟩

def buf : Buf := ⟨8, fun _ => 0⟩

theorem guard_right_start : ∃ s', Run step Allowed start [.setGuard 4, .create 0 buf, .prepare 0, .write 0 5 1] s' ∧
      Right s' (.finish 0) ∧ (bufFinish s'.dmaGuard s'.sizeimage 0 (s'.buf 0)).isSome := by
  obtain ⟨s', hr, hgd, hsome⟩ : ∃ s',
      Run step Allowed start [.setGuard 4, .create 0 buf, .prepare 0, .write 0 5 1] s' ∧
        (∀ p, s'.prepared 0 = some p → p.guarded) ∧
        (bufFinish s'.dmaGuard s'.sizeimage 0 (s'.buf 0)).isSome :=
    ⟨_, .cons trivial rfl (.cons rfl rfl (.cons rfl rfl (.cons trivial rfl .nil))),
      by rintro p ⟨⟩; rfl, rfl⟩
  refine ⟨s', hr, (guard_right (fun _ => rfl) hr (.finish 0)).mpr ?_, hsome⟩
  intro p hp _ hoff
  exact absurd (hgd p hp) hoff

theorem unpoisoned_reported : (∃ s' p, Run step Allowed start [.create 0 buf, .prepare 0, .setGuard 4] s' ∧
      s'.prepared 0 = some p ∧ (bufFinish s'.dmaGuard s'.sizeimage 0 (s'.buf 0)).isSome ∧ ¬ s'.Changed 0 p) ∧
    queueSetup 0xfffff000 0x2000 true none = .ok 0x1000 := by
  refine ⟨⟨_, _, .cons rfl rfl (.cons rfl rfl (.cons trivial rfl .nil)), rfl, rfl, ?_⟩, rfl⟩
  rintro ⟨i, -, hne⟩
  exact hne rfl

end H713.Cedrus.Guard
