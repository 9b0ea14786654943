import H713.Routine.Count

/-!
# Routine.Chains

When the routine table can be searched: every entry is on the chain of the bucket its key hashes to, no key is
stored twice, and chains continue in the overflow part only. `AddInRoutine` and `RemoveRoutine` do not always keep
this.
-/

namespace H713.Routine

open Function
open Bytes Links

def body (e : Buf) : Buf := fun b => if b < 92 then e b else 0

theorem rd_body (e : Buf) {off n : Nat} (h : off + n ≤ 92) : rd (body e) off n = rd e off n := by
  refine rd_congr fun i _ hi => ?_
  unfold body
  rw [if_pos (by omega)]

theorem cpu_body (e : Buf) : cpu (body e) = cpu e := rd_body e (by decide)

theorem pid_body (e : Buf) : pid (body e) = pid e := rd_body e (by decide)

theorem body_wr_link (e : Buf) (v : Nat) : body (wr e 92 4 v) = body e := by
  funext b
  unfold body
  split
  · exact wr_of_not_mem (by omega)
  · rfl

theorem copyOut_body (buf e : Buf) : copyOut buf (body e) = copyOut buf e := by
  have hc : ∀ b, cpy b 12 (body e) 12 64 = cpy b 12 e 12 64 := by
    intro b
    funext i
    unfold cpy body
    split
    · rw [if_pos (by omega)]
    · rfl
  simp only [copyOut, hc, rd_body e (show 0 + 2 ≤ 92 by decide), rd_body e (show 8 + 4 ≤ 92 by decide),
    rd_body e (show 2 + 2 ≤ 92 by decide), rd_body e (show 80 + 8 ≤ 92 by decide),
    rd_body e (show 4 + 4 ≤ 92 by decide)]

variable {t t' : Table} {i : Nat} {d : Buf} {r : Int}

theorem body_placed (h : t'.entry = update t.entry i (wr d 92 4 (ofI32 (-1)))) (j : Nat) :
    body (t'.entry j) = if j = i then body d else body (t.entry j) := by
  rw [h, update_apply]
  split
  · exact body_wr_link _ _
  · rfl

theorem body_overflowed {o : Nat} {prev : Option Nat}
    (h : t'.entry = (linkPrev ((t.setEntry o d).rtSetNext o (-1)) prev o).entry) (j : Nat) :
    body (t'.entry j) = if j = o then body d else body (t.entry j) := by
  have hput : ∀ j, body (((t.setEntry o d).rtSetNext o (-1)).entry j) =
      if j = o then body d else body (t.entry j) := body_placed (by simp)
  rw [h]
  cases prev with
  | none => exact hput j
  | some p =>
    rw [← hput, linkPrev, Table.entry_rtSetNext, update_apply]
    split
    · rename_i hj; rw [body_wr_link, hj]
    · rfl

theorem body_unlink_succ {j k : Nat} (hn : t.rtNext i = j) (hj : j ≤ rtMaxIndex) (hij : j ≠ i)
    (h : t'.entry = (unlink t i).entry) (hk : k ≠ j) :
    body (t'.entry k) = if k = i then body (t.entry j) else body (t.entry k) := by
  rw [h, unlink_succ hn hj hij, update_of_ne hk, update_apply]
  split
  · exact body_wr_link _ _
  · rfl

structure ChainsOk (t : Table) : Prop extends LinksOk t where
  target : ∀ i j, Edge t.succ i j → rtOverflowStart ≤ j
  home : ∀ i ≤ rtMaxIndex, t.rtCompId i ≠ 0 → Reach t.succ (hashIdx (t.rtCompId i)) i
  unique : ∀ i ≤ rtMaxIndex, ∀ j ≤ rtMaxIndex, t.rtCompId i ≠ 0 → t.rtCompId i = t.rtCompId j → i = j
  cpu_le : ∀ i ≤ rtMaxIndex, t.rtCompId i ≠ 0 → cpu (t.entry i) ≤ 1

structure HeaderOk (t : Table) : Prop where
  magic : t.magic = (cpuCommMagic, cpuCommMagic)
  count : CountOk t
  notFull : t.count ≤ rtMaxIndex

theorem HeaderOk.magic1 (h : HeaderOk t) : t.magic1 = cpuCommMagic :=
  congrArg Prod.fst h.magic

theorem HeaderOk.magic2 (h : HeaderOk t) : t.magic2 = cpuCommMagic :=
  congrArg Prod.snd h.magic

theorem HeaderOk.count_le (h : HeaderOk t) : ¬ toI32 t.count > rtMaxIndex := by
  have hle := h.notFull
  unfold toI32
  simp only [rtMaxIndex] at hle ⊢
  split <;> omega

theorem findRoutineEx_found (h : HeaderOk t) {key : Nat}
    (hw : findWalk t key walkFuel (hashIdx key) = some (some i)) (buf : Buf) :
    findRoutineEx t key buf = some (0, copyOut buf (t.entry i)) := by
  unfold findRoutineEx findRoutineExFuel
  rw [if_neg (not_not.mpr h.magic1), if_neg (not_not.mpr h.magic2), if_neg h.count_le, hw]

theorem findRoutineEx_missing (h : HeaderOk t) {key : Nat} (hw : findWalk t key walkFuel (hashIdx key) = some none)
    (buf : Buf) : findRoutineEx t key buf = some (1, buf) := by
  unfold findRoutineEx findRoutineExFuel
  rw [if_neg (not_not.mpr h.magic1), if_neg (not_not.mpr h.magic2), if_neg h.count_le, hw]

namespace ChainsOk

variable {t : Table}

variable {key : Nat}

theorem findWalk_slot (hc : ChainsOk t) {i : Nat} (hi : i ≤ rtMaxIndex) (hk : t.rtCompId i = key) (h0 : key ≠ 0) :
    findWalk t key walkFuel (hashIdx key) = some (some i) := by
  subst hk
  obtain ⟨r, hr⟩ := hc.findWalk_total (t.rtCompId i) (hashIdx (t.rtCompId i))
  have hw := hr walkFuel le_rfl
  cases r with
  | none => exact absurd rfl (findWalk_missing hw i (hc.home i hi h0) hi)
  | some j =>
    obtain ⟨hj, hjk, _⟩ := findWalk_found hw
    rw [hw, hc.unique j hj i hi (hjk ▸ h0) hjk]

theorem findWalk_no_slot (hl : LinksOk t) (h : ∀ i ≤ rtMaxIndex, t.rtCompId i ≠ key) :
    findWalk t key walkFuel (hashIdx key) = some none := by
  obtain ⟨r, hr⟩ := hl.findWalk_total key (hashIdx key)
  have hw := hr walkFuel le_rfl
  cases r with
  | none => exact hw
  | some j =>
    obtain ⟨hj, hjk, _⟩ := findWalk_found hw
    exact absurd hjk (h j hj)

theorem absent (hc : ChainsOk t) (h0 : key ≠ 0) (hw : findWalk t key walkFuel (hashIdx key) = some none) :
    ∀ i ≤ rtMaxIndex, t.rtCompId i ≠ key := by
  intro i hi hk
  rw [hc.findWalk_slot hi hk h0] at hw
  cases hw

section

variable (hc : ChainsOk t) (hh : HeaderOk t)

include hc hh

theorem find_of_slot {i : Nat} (hi : i ≤ rtMaxIndex) (hk : t.rtCompId i = key) (h0 : key ≠ 0) (buf : Buf) :
    findRoutineEx t key buf = some (0, copyOut buf (t.entry i)) :=
  findRoutineEx_found hh (hc.findWalk_slot hi hk h0) buf

theorem find_of_no_slot (h : ∀ i ≤ rtMaxIndex, t.rtCompId i ≠ key) (buf : Buf) :
    findRoutineEx t key buf = some (1, buf) :=
  findRoutineEx_missing hh (findWalk_no_slot hc.toLinksOk h) buf

theorem findable_iff (h0 : key ≠ 0) : Findable t key ↔ ∃ i ≤ rtMaxIndex, t.rtCompId i = key := by
  constructor
  · intro hf
    obtain ⟨i, hi, hk, _⟩ := hf.slot
    exact ⟨i, hi, hk⟩
  · rintro ⟨i, hi, hk⟩
    exact ⟨_, hc.find_of_slot hh hi hk h0 _⟩

end

end ChainsOk

def chainFrom (t : Table) (i : Nat) : List Nat := follow t.succ walkFuel i

theorem LinksOk.mem_chainFrom (h : LinksOk t) {c : Nat} (hr : Reach t.succ i c) : c ∈ chainFrom t i := by
  have hs : ∀ x y, Edge t.succ x y → x ∈ slots := fun x y e => mem_slots.mpr (Table.succ_some.mp e).1
  exact (mem_follow_or_walks hs hr walkFuel).resolve_right (h.not_walks le_rfl)

theorem LinksOk.le_of_mem_follow (h : LinksOk t) : ∀ {fuel i c : Nat}, i ≤ rtMaxIndex →
    c ∈ follow t.succ fuel i → c ≤ rtMaxIndex := by
  intro fuel
  induction fuel with
  | zero => intro i c _ hc; cases hc
  | succ n ih =>
    intro i c hi hc
    rw [follow, List.mem_cons] at hc
    rcases hc with rfl | hc
    · exact hi
    · cases hs : t.succ i with
      | none => rw [hs] at hc; cases hc
      | some j => rw [hs] at hc; exact ih (h.succ_le hs) hc

def Holds (t : Table) (key : Nat) : Prop := ∃ i ≤ rtMaxIndex, t.rtCompId i = key
deriving Decidable

/-- `AddInRoutine(d)` has a slot to go to that is, or becomes, the end of its chain. -/
def AddFits (t : Table) (d : Buf) : Prop :=
  compId d ≠ 0 ∧ cpu d ≤ 1 ∧
    (Holds t (compId d) ∨ (t.count < rtMaxIndex ∧
      ∀ c ∈ chainFrom t (hashIdx (compId d)), t.rtCompId c = 0 → t.rtNext c = -1))
deriving Decidable

def RemoveFits (t : Table) (d : Buf) : Prop :=
  compId d ≠ 0 ∧ ∀ i ≤ rtMaxIndex, t.rtCompId i = compId d → ∀ j ∈ t.succ i,
    (∀ z ≤ rtMaxIndex, t.succ z = some j → z = i) ∨ (t.rtCompId j = 0 ∧ t.rtNext j = -1)
deriving Decidable

namespace ChainsOk

variable {t t' : Table}

section

variable (h : ChainsOk t)

include h

theorem insert {i : Nat} {d : Buf} (hl : LinksOk t') (hcpu : cpu d ≤ 1)
    (hnew : ∀ j ≤ rtMaxIndex, t.rtCompId j ≠ compId d) (hreach : Reach t'.succ (hashIdx (compId d)) i)
    (hmono : ∀ a b, Edge t.succ a b → Edge t'.succ a b) (htarget : ∀ a b, Edge t'.succ a b → rtOverflowStart ≤ b)
    (hkey : ∀ j, t'.rtCompId j = if j = i then compId d else t.rtCompId j)
    (hbody : ∀ j, body (t'.entry j) = if j = i then body d else body (t.entry j)) : ChainsOk t' := by
  refine ⟨hl, htarget, fun k hk hocc => ?_, fun k hk m hm hocc heq => ?_, fun k hk hocc => ?_⟩
  · rw [hkey] at hocc ⊢
    by_cases hki : k = i
    · subst hki
      rw [if_pos rfl]
      exact hreach
    · rw [if_neg hki] at hocc ⊢
      exact reach_mono hmono (h.home k hk hocc)
  · rw [hkey] at hocc
    rw [hkey, hkey] at heq
    by_cases hki : k = i <;> by_cases hmi : m = i
    · rw [hki, hmi]
    · rw [if_pos hki, if_neg hmi] at heq
      exact absurd heq.symm (hnew m hm)
    · rw [if_neg hki, if_pos hmi] at heq
      exact absurd heq (hnew k hk)
    · rw [if_neg hki] at hocc
      rw [if_neg hki, if_neg hmi] at heq
      exact h.unique k hk m hm hocc heq
  · rw [hkey] at hocc
    rw [← cpu_body, hbody]
    by_cases hki : k = i
    · rw [if_pos hki, cpu_body]
      exact hcpu
    · rw [if_neg hki] at hocc
      rw [if_neg hki, cpu_body]
      exact h.cpu_le k hk hocc

theorem congr (he : t'.entry = t.entry) : ChainsOk t' := by
  have hs := Table.succ_congr he
  have hk := Table.rtCompId_congr he
  refine ⟨h.toLinksOk.congr (Table.rtNext_congr he), ?_, ?_, ?_, ?_⟩
  · rw [hs]; exact h.target
  · intro i; rw [hs, hk]; exact h.home i
  · intro i hi j; rw [hk, hk]; exact h.unique i hi j
  · intro i; rw [hk, he]; exact h.cpu_le i

theorem add {d : Buf} {r : Int} (hfit : AddFits t d) (hs : addInRoutine t d = .ret r t') : ChainsOk t' := by
  obtain ⟨h0, hcpu, hroom⟩ := hfit
  have hl := h.toLinksOk.add hs
  cases add_cases hs with
  | refused _ _ he _ => exact h.congr he
  | present _ _ ht _ => exact ht ▸ h
  | placed i _ habs hi _ hend hreach he _ =>
    have hsucc : t'.succ = t.succ := by
      funext k; unfold Table.succ; rw [rtNext_placed hend he]
    refine h.insert hl hcpu (h.absent h0 habs) ?_ ?_ ?_ (rtCompId_placed he) (body_placed he)
    · rw [hsucc]
      exact hreach
    · intro a b e
      rw [hsucc]
      exact e
    · rw [hsucc]
      exact h.target
  | overflowed o prev cur _ habs hlo ho hfree hend hstop hcur he _ =>
    -- the walk cannot have stopped on an empty slot with a successor, so it went past the end
    have hpast : cur = none := by
      cases cur with
      | none => rfl
      | some c =>
        obtain ⟨_, hz, hr⟩ := hstop.on c rfl
        rcases hroom with ⟨i, hi, hk⟩ | ⟨_, hclean⟩
        · exact absurd hk (h.absent h0 habs i hi)
        · exact absurd (hclean c (h.toLinksOk.mem_chainFrom hr) hz) (hcur c rfl)
    obtain ⟨p, rfl, hp, hocc, hlast, hpr⟩ := hstop.past hpast
    have hsucc := succ_overflowed hp (rtNext_overflowed ho hend he)
    have hmono : ∀ a b, Edge t.succ a b → Edge t'.succ a b := by
      intro a b e
      rw [hsucc, Edge, update_of_ne]
      · exact e
      · rintro rfl
        rw [Edge, Table.succ_none hlast] at e
        cases e
    have hnew : Edge t'.succ p o := by
      rw [hsucc, Edge, update_self]
    refine h.insert hl hcpu (h.absent h0 habs) (.tail (reach_mono hmono hpr) hnew) hmono ?_
      (rtCompId_overflowed he) (body_overflowed he)
    intro a b e
    rw [hsucc, Edge, update_apply] at e
    split at e
    · cases e; exact hlo
    · exact h.target a b e

theorem erase {p : Nat → Prop} [DecidablePred p] (hl : LinksOk t') (hsucc : t'.succ = t.succ)
    (hkey : ∀ k ≤ rtMaxIndex, t'.rtCompId k = if p k then 0 else t.rtCompId k)
    (hbody : ∀ k ≤ rtMaxIndex, ¬ p k → t'.entry k = t.entry k) : ChainsOk t' := by
  have hold : ∀ k ≤ rtMaxIndex, t'.rtCompId k ≠ 0 → ¬ p k ∧ t'.rtCompId k = t.rtCompId k := by
    intro k hk hocc
    rw [hkey k hk] at hocc ⊢
    split at hocc
    · exact absurd rfl hocc
    · rename_i hp; exact ⟨hp, if_neg hp⟩
  refine ⟨hl, hsucc ▸ h.target, fun k hk hocc => ?_, fun k hk m hm hocc heq => ?_, fun k hk hocc => ?_⟩
  · obtain ⟨_, he⟩ := hold k hk hocc
    rw [hsucc, he]
    exact h.home k hk (he ▸ hocc)
  · obtain ⟨_, he⟩ := hold k hk hocc
    obtain ⟨_, he'⟩ := hold m hm (heq ▸ hocc)
    exact h.unique k hk m hm (he ▸ hocc) (by rw [← he, ← he', heq])
  · obtain ⟨hp, he⟩ := hold k hk hocc
    rw [hbody k hk hp]
    exact h.cpu_le k hk (he ▸ hocc)

theorem cleanWhere (p : Buf → Bool) : ChainsOk (cleanWhere p t) := by
  refine h.erase (p := Picked p t) (h.toLinksOk.cleanWhere p) (succ_cleanWhere p t) ?_ ?_
  · intro k hk
    rw [rtCompId_cleanWhere]
    simp only [hk, true_and]
  · intro k hk hp
    rw [entry_cleanWhere, if_neg (fun hc => hp hc.2)]

theorem unlink_succ {i j : Nat} (hl : LinksOk t') (hi : i ≤ rtMaxIndex) (hj : t.rtNext i = j)
    (hjle : j ≤ rtMaxIndex) (honly : (∀ z, Edge t.succ z j → z = i) ∨ (t.rtCompId j = 0 ∧ t.rtNext j = -1))
    (he : t'.entry = (unlink t i).entry) : ChainsOk t' := by
  have hedge : Edge t.succ i j := Table.succ_some.mpr ⟨hi, hj⟩
  have hij : j ≠ i := (h.acyclic.ne hedge).symm
  have hrange : -1 ≤ t.rtNext j ∧ t.rtNext j ≤ rtMaxIndex := by
    rcases h.range j hjle with hn | hn <;> omega
  have hsucc := succ_unlink hi hjle (rtNext_unlink_succ hj hjle hij hrange he)
  have hkey := rtCompId_unlink_succ hj hjle hij he
  have hend : (∀ z, Edge t.succ z j → z = i) ∨ t.succ j = none :=
    honly.imp_right fun hz => Table.succ_none (by omega)
  -- no bucket is an overflow slot, so what starts a chain is not `j`
  have hstart : ∀ key, hashIdx key ≠ j := by
    intro key hk
    have := hashIdx_lt key
    have := h.target i j hedge
    omega
  have hold : ∀ k, t'.rtCompId k ≠ 0 → k ≠ j ∧
      ((k = i ∧ t.rtCompId j ≠ 0 ∧ t'.rtCompId k = t.rtCompId j) ∨
        (k ≠ i ∧ t'.rtCompId k = t.rtCompId k)) := by
    intro k hocc
    rw [hkey] at hocc ⊢
    split at hocc
    · exact absurd rfl hocc
    rename_i hkj
    refine ⟨hkj, ?_⟩
    rw [if_neg hkj]
    by_cases hki : k = i
    · rw [if_pos hki] at hocc ⊢; exact .inl ⟨hki, hocc, rfl⟩
    · rw [if_neg hki]; exact .inr ⟨hki, rfl⟩
  refine ⟨hl, fun a b e => ?_, fun k hk hocc => ?_, fun k hk m hm hocc heq => ?_, fun k hk hocc => ?_⟩
  · rw [hsucc] at e
    obtain ⟨_, ⟨_, e⟩ | ⟨_, e⟩⟩ := bypass_edge hedge e
    · exact h.target j b e
    · exact h.target a b e
  · obtain ⟨hkj, ⟨rfl, hjocc, hk'⟩ | ⟨hki, hk'⟩⟩ := hold k hocc
    · have hone : ∀ z, Edge t.succ z j → z = k := honly.resolve_right fun hz => hjocc hz.1
      rw [hsucc, hk']
      exact (reach_bypass h.acyclic hedge (hstart _) (.inl hone) (h.home j hjle hjocc)).2 hone rfl
    · rw [hsucc, hk']
      exact (reach_bypass h.acyclic hedge (hstart _) hend (h.home k hk (hk' ▸ hocc))).1 hkj
  · have hocc' : t'.rtCompId m ≠ 0 := heq ▸ hocc
    obtain ⟨hkj, ⟨rfl, hjocc, hk'⟩ | ⟨hki, hk'⟩⟩ := hold k hocc
    · obtain ⟨hmj, ⟨rfl, _, _⟩ | ⟨_, hm'⟩⟩ := hold m hocc'
      · rfl
      · exact absurd (h.unique j hjle m hm hjocc (by rw [← hk', ← hm', heq])) (Ne.symm hmj)
    · obtain ⟨hmj, ⟨rfl, hjocc, hm'⟩ | ⟨_, hm'⟩⟩ := hold m hocc'
      · exact absurd (h.unique j hjle k hk hjocc (by rw [← hk', ← hm', heq])) (Ne.symm hkj)
      · exact h.unique k hk m hm (hk' ▸ hocc) (by rw [← hk', ← hm', heq])
  · obtain ⟨hkj, hcase⟩ := hold k hocc
    rw [← cpu_body, body_unlink_succ hj hjle hij he hkj]
    rcases hcase with ⟨hki, hjocc, _⟩ | ⟨hki, hk'⟩
    · rw [if_pos hki, cpu_body]
      exact h.cpu_le j hjle hjocc
    · rw [if_neg hki, cpu_body]
      exact h.cpu_le k hk (hk' ▸ hocc)

theorem remove {d : Buf} {c : Nat} {r : Int} (hfit : RemoveFits t d) (hs : removeRoutine t d c = .ret r t') :
    ChainsOk t' := by
  have hl := h.toLinksOk.remove hs
  cases remove_cases hs with
  | missing _ he _ => exact h.congr he
  | removed i hi hik _ he _ =>
    rcases h.range i hi with hend | ⟨h0, h1⟩
    · have hn : ¬ (0 ≤ t.rtNext i ∧ t.rtNext i ≤ rtMaxIndex) := by omega
      have hsucc : t'.succ = t.succ := by
        funext k; unfold Table.succ; rw [rtNext_unlink_end hn he]
      refine h.erase (p := (· = i)) hl hsucc (fun k _ => rtCompId_unlink_end hn he k) ?_
      intro k _ hk
      rw [he, unlink_end hn, update_of_ne hk]
    · obtain ⟨j, hj⟩ := Int.eq_ofNat_of_zero_le h0
      refine h.unlink_succ hl hi hj (by omega) ?_ he
      refine (hfit.2 i hi hik j (Table.succ_some.mpr ⟨hi, hj⟩)).imp_left fun hone z e => ?_
      exact hone z (Table.succ_some.mp e).1 e

end

theorem empty : ChainsOk empty := by
  have hz : ∀ i, Routine.empty.rtCompId i = 0 := fun i => (compId_wr_link _ _).trans (compId_wr_key _)
  have hn : ∀ i, Routine.empty.rtNext i = -1 := fun i => link_wr_link _ (by decide) (by decide)
  refine ⟨.empty, fun i j e => ?_, fun i _ h => absurd (hz i) h, fun i _ _ _ h => absurd (hz i) h,
    fun i _ h => absurd (hz i) h⟩
  rw [Edge, Table.succ_none (by rw [hn]; decide)] at e
  cases e

end ChainsOk

@[simp] theorem magic_linkPrev (t : Table) (prev : Option Nat) (o : Nat) : (linkPrev t prev o).magic = t.magic := by
  cases prev <;> simp [linkPrev]

@[simp] theorem magic_install (t : Table) (i : Nat) (d : Buf) : (install t i d).magic = t.magic := by
  simp [install]

@[simp] theorem magic_unlink (t : Table) (i : Nat) : (unlink t i).magic = t.magic := by
  simp only [unlink]
  split <;> simp

theorem magic_addOverflow {prev : Option Nat} (h : addOverflow t d prev = .ret r t') : t'.magic = t.magic := by
  unfold addOverflow at h
  split at h
  · cases h; simp
  split at h
  · cases h; rfl
  · cases h; simp

theorem magic_addLocked (h : addLocked t d = .ret r t') : t'.magic = t.magic := by
  simp only [addLocked] at h
  split at h
  · cases h; simp
  split at h
  · cases h
  · cases h; rfl
  · split at h
    · cases h; simp
    · exact magic_addOverflow h
  · exact magic_addOverflow h

theorem magic_add (h : addInRoutine t d = .ret r t') : t'.magic = t.magic := by
  unfold addInRoutine at h
  split at h
  · cases h; rfl
  split at h
  · cases h; rfl
  split at h
  · cases h; rfl
  split at h
  · cases h
  split at h
  · cases h; rfl
  · exact (magic_addLocked h).trans (Table.magic_enter t)

theorem magic_remove {c : Nat} (h : removeRoutine t d c = .ret r t') : t'.magic = t.magic := by
  unfold removeRoutine at h
  split at h
  · cases h
  split at h
  · cases h
  split at h
  · cases h
  simp only [removeWalk_enter] at h
  split at h
  · cases h
  · cases h
  · cases h; simp
  · split at h
    · cases h
    · cases h; simp

theorem magic_cleanSlot (p : Buf → Bool) (t : Table) (i : Nat) : (cleanSlot p t i).magic = t.magic := by
  unfold cleanSlot
  split_ifs <;> simp

theorem magic_cleanWhere (p : Buf → Bool) (t : Table) : (cleanWhere p t).magic = t.magic := by
  have hfold : ∀ (l : List Nat) (t : Table), (l.foldl (cleanSlot p) t).magic = t.magic := by
    intro l
    induction l with
    | nil => intro t; rfl
    | cons i l ih => intro t; rw [List.foldl_cons, ih, magic_cleanSlot]
  unfold cleanWhere
  rw [Table.magic_leave, hfold, Table.magic_enter]

namespace HeaderOk

variable {t t' : Table}

theorem add {d : Buf} {r : Int} (h : HeaderOk t) (hc : ChainsOk t) (hfit : AddFits t d)
    (hs : addInRoutine t d = .ret r t') : HeaderOk t' := by
  refine ⟨(magic_add hs).trans h.magic, h.count.add hfit.1 hs, ?_⟩
  have hgrow : findWalk t (compId d) walkFuel (hashIdx (compId d)) = some none →
      t'.count = (t.count + 1) % 2 ^ 32 → t'.count ≤ rtMaxIndex := by
    intro habs hcount
    have hlt := (hfit.2.2.resolve_left fun ⟨i, hi, hk⟩ => hc.absent hfit.1 habs i hi hk).1
    have hle := Nat.mod_le (t.count + 1) (2 ^ 32)
    omega
  cases add_cases hs with
  | refused _ _ _ hcount => exact hcount ▸ h.notFull
  | present _ _ ht _ => exact ht ▸ h.notFull
  | placed i _ habs _ _ _ _ _ hcount | overflowed o _ _ _ habs _ _ _ _ _ _ _ hcount => exact hgrow habs hcount

theorem notFull_of_le (h : HeaderOk t) (hc : CountOk t') (hsub : occupied t' ⊆ occupied t) :
    t'.count ≤ rtMaxIndex := by
  have hle := Finset.card_le_card hsub
  have hold : t.count = _ := h.count
  have hnew : t'.count = _ := hc
  have := h.notFull
  omega

theorem remove {d : Buf} {c : Nat} {r : Int} (h : HeaderOk t) (hc : ChainsOk t) (h0 : compId d ≠ 0)
    (hs : removeRoutine t d c = .ret r t') : HeaderOk t' := by
  have hcount := h.count.remove hc.toLinksOk h0 hs
  refine ⟨(magic_remove hs).trans h.magic, hcount, ?_⟩
  cases remove_cases hs with
  | missing _ _ hsame => exact hsame ▸ h.notFull
  | removed i hi hik _ _ hdec =>
    have hpos := Finset.card_pos.mpr ⟨i, mem_occupied.mpr ⟨hi, hik ▸ h0⟩⟩
    have hold : t.count = _ := h.count
    have := h.notFull
    rw [hdec, if_neg (by omega)]
    omega

theorem cleanWhere (h : HeaderOk t) (p : Buf → Bool) : HeaderOk (cleanWhere p t) := by
  refine ⟨(magic_cleanWhere p t).trans h.magic, h.count.cleanWhere, ?_⟩
  refine h.notFull_of_le h.count.cleanWhere fun i hi => ?_
  rw [mem_occupied, rtCompId_cleanWhere] at hi
  rw [mem_occupied]
  refine ⟨hi.1, ?_⟩
  split at hi
  · exact absurd rfl hi.2
  · exact hi.2

theorem empty : HeaderOk empty := ⟨rfl, .empty, Nat.zero_le _⟩

end HeaderOk

end H713.Routine
