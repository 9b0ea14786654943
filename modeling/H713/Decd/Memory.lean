import Mathlib.Data.List.Perm.Basic
import H713.Decd.Items

/-!
# Decd.Memory

The memory of the frame items: what holds of items and fences (`Mem.Ok`) whoever works on them.
-/

namespace H713.Decd

open Function
open RefCount

theorem mem_of_lookup {l : List (Nat × Nat)} {k v : Nat} (h : l.lookup k = some v) : (k, v) ∈ l := by
  obtain ⟨l₁, l₂, rfl, -⟩ := List.lookup_eq_some_iff.mp h
  simp

theorem count_one (i j : Nat) : [i].count j = if j = i then 1 else 0 := by
  by_cases h : j = i
  · simp [h]
  · simp [h, Ne.symm h]

namespace Mem

/-- An item is released, and its fence signalled and freed, exactly when its last reference is gone. -/
structure Ok (m : Mem) : Prop where
  wf : m.items.WF
  released : ∀ i, m.released.count i = if i < m.items.next ∧ ¬ m.items.Live i then 1 else 0
  mapped : ∀ i, m.mapped i = ((m.items.obj? i).map FrameItem.maps).getD 0
  own : ∀ i it, m.items.obj? i = some it → ∀ f, it.fence = some f ↔ f < m.fences ∧ (m.fence f).item = i
  born : ∀ f < m.fences, (m.fence f).item < m.items.next
  signaled : ∀ f < m.fences, (m.fence f).signaled ↔ ¬ m.items.Live (m.fence f).item
  frees : ∀ f < m.fences, (m.fence f).frees = if m.items.Live (m.fence f).item then 0 else 1
  refs : ∀ f < m.fences, (m.fence f).refs = 1 + (m.files.map Prod.snd).count f
  files : ∀ x ∈ m.files, x.2 < m.fences

section

variable (m : Mem) (desc : Desc) (dmaBufs fence : Bool)

theorem files_created : (m.addItem desc dmaBufs fence).files = m.files := by
  cases fence <;> rfl

theorem released_created : (m.addItem desc dmaBufs fence).released = m.released := by
  cases fence <;> rfl

theorem fences_le : m.fences ≤ (m.addItem desc dmaBufs fence).fences := by
  cases fence with
  | false => exact Nat.le_refl _
  | true => exact Nat.le_succ _

theorem fence_created {f : Nat} (hf : f < m.fences) : (m.addItem desc dmaBufs fence).fence f = m.fence f := by
  cases fence with
  | false => rfl
  | true => exact update_of_ne (by omega) ..

variable {m desc dmaBufs fence}

theorem fence_cases {f : Nat} (hf : f < (m.addItem desc dmaBufs fence).fences) :
    (f < m.fences ∧ (m.addItem desc dmaBufs fence).fence f = m.fence f) ∨
      fence = true ∧ f = m.fences ∧ (m.addItem desc dmaBufs fence).fence f = ⟨m.items.next, 1, false, 0⟩ := by
  by_cases hlt : f < m.fences
  · exact .inl ⟨hlt, fence_created m desc dmaBufs fence hlt⟩
  · cases fence with
    | false => exact absurd hf hlt
    | true =>
      obtain rfl : f = m.fences := Nat.le_antisymm (Nat.lt_succ_iff.mp hf) (Nat.not_lt.mp hlt)
      exact .inr ⟨rfl, rfl, update_self ..⟩

end

namespace Ok

variable {m m' : Mem}

theorem incr (h : m.Ok) (i : Nat) : Ok { m with items := m.items.incr i } where
  wf := h.wf.incr i
  released := by simpa using h.released
  mapped := by simpa using h.mapped
  own := by simpa using h.own
  born := h.born
  signaled := by simpa using h.signaled
  frees := by simpa using h.frees
  refs := h.refs
  files := h.files

end Ok

theorem fenceFree_ret {m m' : Mem} {o : Option Nat} {u : Unit} (h : m.fenceFree o = .ret u m') : m' = { m with
      fence := fun f => if o = some f then { m.fence f with signaled := true, frees := 1 } else m.fence f } := by
  cases o with
  | none =>
    cases h
    simp
  | some g =>
    simp only [fenceFree] at h
    split at h
    · cases h
    · rename_i hfree
      cases h
      congr 1
      funext f
      by_cases hf : f = g
      · subst hf
        simp [not_not.mp hfree]
      · simp [hf, Ne.symm hf]

theorem release_ret {m m' : Mem} {i : Nat} {u : Unit} (h : m.Ok) (hr : m.frameItemRelease i = .ret u m') :
    2 ≤ m.items.count i ∧ m' = { m with items := m.items.decr i } ∨
    m.items.count i = 1 ∧ ∃ fence, m' = { m with
        items := m.items.decr i, fence := fence, mapped := update m.mapped i 0
        released := m.released ++ [i] } ∧ ∀ f < m.fences, fence f =
        if (m.fence f).item = i then { m.fence f with signaled := true, frees := 1 } else m.fence f := by
  unfold frameItemRelease at hr
  cases hput : m.items.put i with
  | none =>
    rw [hput] at hr
    cases hr
  | some r =>
    obtain ⟨items, o⟩ := r
    obtain ⟨rfl, hlive, ⟨rfl, h2, -⟩ | ⟨hne, hle, hobj, -⟩⟩ := Heap.put_eq_some hput
    · rw [hput] at hr
      cases hr
      exact .inl ⟨h2, rfl⟩
    · obtain ⟨it, rfl⟩ := Option.ne_none_iff_exists'.mp hne
      have hcount : m.items.count i = 1 := by
        have := h.wf.count_pos.mpr hlive
        omega
      have hmaps : m.mapped i - it.maps = 0 := by
        have := h.mapped i
        simp [hobj] at this
        omega
      rw [hput] at hr
      obtain ⟨_, m₁, hfree, hr⟩ := Out.bind_eq_ret hr
      obtain rfl := fenceFree_ret hfree
      cases hr
      refine .inr ⟨hcount, _, by rw [hmaps], fun f hf => ?_⟩
      -- the fence of the item is the one that was made for it
      have hown := h.own i it hobj f
      simp only [hown, hf, true_and]

namespace Ok

variable {m m' : Mem}

variable {i file : Nat} {u : Unit}

section

variable (h : m.Ok)

include h

theorem live_decr (h1 : m.items.count i = 1) (j : Nat) : (m.items.decr i).Live j ↔ m.items.Live j ∧ j ≠ i := by
  rw [← (h.wf.decr i).count_pos, ← h.wf.count_pos, Heap.count_decr]
  by_cases hj : j = i
  · subst hj
    simp [h1]
  · simp [hj]

theorem live_decr_shared (h2 : 2 ≤ m.items.count i) (j : Nat) : (m.items.decr i).Live j ↔ m.items.Live j := by
  rw [← (h.wf.decr i).count_pos, ← h.wf.count_pos, Heap.count_decr]
  by_cases hj : j = i
  · subst hj
    simp
    omega
  · simp [hj]

theorem release_shared (h2 : 2 ≤ m.items.count i) : Ok { m with items := m.items.decr i } where
  wf := h.wf.decr i
  released := by simpa [h.live_decr_shared h2] using h.released
  mapped := by simpa [Heap.obj?_decr_of_two h2] using h.mapped
  own := by simpa [Heap.obj?_decr_of_two h2] using h.own
  born := h.born
  signaled := by simpa [h.live_decr_shared h2] using h.signaled
  frees := by simpa [h.live_decr_shared h2] using h.frees
  refs := h.refs
  files := h.files

theorem release_last (h1 : m.items.count i = 1) {fence : Nat → Fence} (hfence : ∀ f < m.fences, fence f =
      if (m.fence f).item = i then { m.fence f with signaled := true, frees := 1 } else m.fence f) :
    Ok { m with
      items := m.items.decr i, fence := fence, mapped := update m.mapped i 0
      released := m.released ++ [i] } := by
  have hi : m.items.Live i := h.wf.count_pos.mp (by omega)
  have hitem : ∀ f < m.fences, (fence f).item = (m.fence f).item := by
    intro f hf
    rw [hfence f hf]
    split <;> rfl
  have hgone : (m.items.decr i).obj? i = none := Heap.obj?_decr_of_one (by omega)
  refine ⟨h.wf.decr i, fun j => ?_, fun j => ?_, fun j it hj f => ?_, fun f hf => ?_, fun f hf => ?_, fun f hf => ?_,
    fun f hf => ?_, h.files⟩
  · have hlt := h.wf.lt_next hi
    have := h.released j
    simp only [List.count_append, List.count_singleton, h.live_decr h1, Heap.next_decr]
    by_cases hj : j = i
    · subst hj
      simp_all
    · simp_all [Ne.symm hj]
  · by_cases hj : j = i
    · subst hj
      simp [hgone]
    · simp [hj, Heap.obj?_decr_of_ne _ hj, h.mapped j]
  · have hne : j ≠ i := by
      rintro rfl
      rw [hgone] at hj
      cases hj
    rw [Heap.obj?_decr_of_ne _ hne] at hj
    rw [h.own j it hj f]
    exact and_congr_right fun hf => by rw [hitem f hf]
  · rw [hitem f hf]
    exact h.born f hf
  · dsimp only at hf ⊢
    rw [hitem f hf, h.live_decr h1, hfence f hf]
    by_cases hfi : (m.fence f).item = i
    · simp [hfi]
    · simpa [hfi] using h.signaled f hf
  · dsimp only at hf ⊢
    rw [hitem f hf, hfence f hf]
    by_cases hfi : (m.fence f).item = i
    · simp [hfi, h.live_decr h1]
    · simpa [hfi, h.live_decr h1] using h.frees f hf
  · dsimp only at hf ⊢
    rw [hfence f hf, ← h.refs f hf]
    split <;> rfl

theorem release (hr : m.frameItemRelease i = .ret u m') : m'.Ok := by
  obtain ⟨h2, rfl⟩ | ⟨h1, fence, rfl, hfence⟩ := release_ret h hr
  · exact h.release_shared h2
  · exact h.release_last h1 hfence

theorem of_refs {fence : Nat → Fence} {files : List (Nat × Nat)} (nextFile : Nat)
    (hsame : ∀ f, fence f = { m.fence f with refs := (fence f).refs })
    (hrefs : ∀ f < m.fences, (fence f).refs = 1 + (files.map Prod.snd).count f)
    (hfiles : ∀ x ∈ files, x.2 < m.fences) :
    Ok { m with fence := fence, files := files, nextFile := nextFile } := by
  have hitem : ∀ f, (fence f).item = (m.fence f).item := fun f => by rw [hsame f]
  have hsignaled : ∀ f, (fence f).signaled = (m.fence f).signaled := fun f => by rw [hsame f]
  have hfrees : ∀ f, (fence f).frees = (m.fence f).frees := fun f => by rw [hsame f]
  refine ⟨h.wf, h.released, h.mapped, ?_, ?_, ?_, ?_, hrefs, hfiles⟩
  · simpa only [hitem] using h.own
  · simpa only [hitem] using h.born
  · simpa only [hitem, hsignaled] using h.signaled
  · simpa only [hitem, hfrees] using h.frees

theorem fenceFd {it : FrameItem} (hi : m.items.obj? i = some it) : (m.fenceFdCreate it.fence).Ok := by
  cases hfence : it.fence with
  | none => exact h
  | some g =>
    have hg := ((h.own i it hi g).mp hfence).1
    refine h.of_refs _ (fun f => ?_) (fun f hf => ?_) fun x hx => ?_
    · by_cases hfg : f = g
      · subst hfg
        simp
      · simp [hfg]
    · have := h.refs f hf
      by_cases hfg : f = g
      · subst hfg
        simp [this, Nat.add_assoc]
      · simp [hfg, this, Ne.symm hfg]
    · rcases List.mem_append.mp hx with hx | hx
      · exact h.files x hx
      · rw [List.mem_singleton.mp hx]
        exact hg

theorem close (hr : m.close file = .ret u m') : m'.Ok := by
  unfold Mem.close at hr
  split at hr
  · cases hr
  rename_i g hlookup
  have hmem : (file, g) ∈ m.files := mem_of_lookup hlookup
  have hperm : (m.files.map Prod.snd).Perm (g :: (m.files.erase (file, g)).map Prod.snd) :=
    (List.perm_cons_erase hmem).map Prod.snd
  have hg := h.files _ hmem
  have hcount := fun f => hperm.count_eq f
  dsimp only at hr
  split at hr
  · cases hr
  cases hr
  refine h.of_refs _ (fun f => ?_) (fun f hf => ?_) fun x hx => h.files x (List.mem_of_mem_erase hx)
  · by_cases hfg : f = g
    · subst hfg
      have hrefs := h.refs f hg
      have hpos := hcount f
      have hmore : ¬ (m.fence f).refs ≤ 1 := by
        rw [hrefs, hpos, List.count_cons_self]
        omega
      simp [hmore]
    · simp [hfg]
  · have := h.refs f hf
    have hc := hcount f
    by_cases hfg : f = g
    · subst hfg
      simp at hc ⊢
      omega
    · simp [hfg, Ne.symm hfg] at hc ⊢
      omega

end

theorem poll (hr : m.poll file = .ret u m') : m' = m := by
  unfold Mem.poll at hr
  split at hr
  · cases hr
  · split at hr
    · cases hr
    · cases hr
      rfl

theorem release_items (h : m.Ok) (hr : m.frameItemRelease i = .ret u m') : m'.items = m.items.decr i := by
  obtain ⟨-, rfl⟩ | ⟨-, fence, rfl, -⟩ := release_ret h hr
  · rfl
  · rfl

theorem close_items (hr : m.close file = .ret u m') : m'.items = m.items := by
  unfold Mem.close at hr
  split at hr
  · cases hr
  · dsimp only at hr
    split at hr
    · cases hr
    · cases hr
      rfl

theorem alloc_items (h : m.Ok) (it : FrameItem) : (∀ i, m.released.count i =
      if i < (m.items.alloc it).next ∧ ¬ (m.items.alloc it).Live i then 1 else 0) ∧
    (∀ i, update m.mapped m.items.next it.maps i = (((m.items.alloc it).obj? i).map FrameItem.maps).getD 0) ∧
    ∀ i < m.items.next, ((m.items.alloc it).Live i ↔ m.items.Live i) := by
  refine ⟨fun i => ?_, fun i => ?_, fun i hi => ?_⟩
  · rw [h.released i]
    refine if_congr ?_ rfl rfl
    rw [Heap.live_alloc, Heap.next_alloc]
    constructor
    · rintro ⟨hlt, hdead⟩
      exact ⟨by omega, fun hor => hor.elim (by omega) hdead⟩
    · rintro ⟨hlt, hdead⟩
      exact ⟨by omega, fun hl => hdead (.inr hl)⟩
  · by_cases hi : i = m.items.next
    · subst hi
      simp [Heap.obj?_alloc]
    · simp [Heap.obj?_alloc, hi, h.mapped i]
  · rw [Heap.live_alloc]
    constructor
    · exact fun hor => hor.resolve_left (by omega)
    · exact .inr

theorem no_file (h : m.Ok) : m.fences ∉ m.files.map Prod.snd := by
  intro hmem
  obtain ⟨x, hx, hxf⟩ := List.mem_map.mp hmem
  have := h.files x hx
  omega

section

variable (h : m.Ok) (desc : Desc) (dmaBufs fence : Bool)

include h desc dmaBufs fence

theorem own_created {it : FrameItem} (hi : (m.addItem desc dmaBufs fence).items.obj? i = some it) (f : Nat) :
    it.fence = some f ↔
      f < (m.addItem desc dmaBufs fence).fences ∧ ((m.addItem desc dmaBufs fence).fence f).item = i := by
  have hi : (if i = m.items.next then _ else m.items.obj? i) = some it := (Heap.obj?_alloc ..).symm.trans hi
  split at hi
  · rename_i hnew
    cases hi
    constructor
    · intro hf
      cases fence with
      | false => cases hf
      | true =>
        cases hf
        have hfence : (m.addItem desc dmaBufs true).fence m.fences = ⟨m.items.next, 1, false, 0⟩ :=
          update_self ..
        exact ⟨Nat.lt_succ_self _, by rw [hfence, hnew]⟩
    · rintro ⟨hf, hitem⟩
      rcases fence_cases hf with ⟨hf, hold⟩ | ⟨rfl, rfl, -⟩
      · rw [hold] at hitem
        have := h.born f hf
        omega
      · rfl
  · rename_i hne
    rw [h.own i it hi f]
    constructor
    · rintro ⟨hf, hitem⟩
      exact ⟨hf.trans_le (fences_le ..), by rw [fence_created _ _ _ _ hf, hitem]⟩
    · rintro ⟨hf, hitem⟩
      rcases fence_cases hf with ⟨hf, hold⟩ | ⟨rfl, rfl, hnew⟩
      · exact ⟨hf, hold ▸ hitem⟩
      · rw [hnew] at hitem
        exact absurd hitem.symm hne

theorem created : (m.addItem desc dmaBufs fence).Ok := by
  obtain ⟨hreleased, hmapped, hlive⟩ :=
    h.alloc_items ⟨⟨desc.splitFields⟩, dmaBufs, dmaBufs, if fence then some m.fences else none⟩
  have hnext : (m.addItem desc dmaBufs fence).items.Live m.items.next := (Heap.live_alloc ..).mpr (.inl rfl)
  refine ⟨h.wf.alloc _, ?_, hmapped, fun i it hi => h.own_created desc dmaBufs fence hi, fun f hf => ?_,
    fun f hf => ?_, fun f hf => ?_, fun f hf => ?_, fun x hx => ?_⟩
  · rw [released_created]
    exact hreleased
  · rcases fence_cases hf with ⟨hf, hold⟩ | ⟨-, -, hnew⟩
    · rw [hold]
      exact Nat.lt_succ_of_lt (h.born f hf)
    · rw [hnew]
      exact Nat.lt_succ_self _
  · rcases fence_cases hf with ⟨hf, hold⟩ | ⟨-, -, hnew⟩
    · rw [hold]
      exact (h.signaled f hf).trans (not_congr (hlive _ (h.born f hf)).symm)
    · rw [hnew]
      exact iff_of_false Bool.false_ne_true (not_not_intro hnext)
  · rcases fence_cases hf with ⟨hf, hold⟩ | ⟨-, -, hnew⟩
    · rw [hold]
      exact (h.frees f hf).trans (if_congr (hlive _ (h.born f hf)).symm rfl rfl)
    · rw [hnew, if_pos hnext]
  · rw [files_created]
    rcases fence_cases hf with ⟨hf, hold⟩ | ⟨-, rfl, hnew⟩
    · rw [hold]
      exact h.refs f hf
    · rw [hnew, List.count_eq_zero.mpr h.no_file]
  · rw [files_created] at hx
    exact (h.files x hx).trans_le (fences_le ..)

theorem count_created (i : Nat) :
    (m.addItem desc dmaBufs fence).items.count i = m.items.count i + if i = m.items.next then 1 else 0 :=
  h.wf.count_alloc _ i

end

end Ok

theorem create_cases (m : Mem) (fenceCtx : Bool) (desc : Desc) (env : CreateEnv) :
    m.frameItemCreate fenceCtx desc env = (none, m) ∨
      ∃ dmaBufs fence, m.frameItemCreate fenceCtx desc env = (some m.items.next, m.addItem desc dmaBufs fence) := by
  unfold frameItemCreate
  split
  · exact .inl rfl
  · exact .inr ⟨_, _, rfl⟩

theorem items_fenceFd (m : Mem) (o : Option Nat) : (m.fenceFdCreate o).items = m.items := by
  cases o <;> rfl

end Mem

end H713.Decd
