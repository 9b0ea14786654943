import Mathlib.Algebra.BigOperators.Group.Finset.Sigma
import Mathlib.Algebra.BigOperators.Ring.List
import Mathlib.Algebra.Order.BigOperators.Group.Finset
import H713.Smm.Run

/-!
# Smm.Stats

The free page list and the statistics `heap[41]` to `heap[44]` of the shared memory manager, in every run.
-/

namespace H713.Smm

open Dll

namespace Place

variable {s : Shm} {h : Place s} {v : View} {m : Mem} {g : Ghost} {live : List Block}

structure Tidy (h : Place s) (v : View) (live : List Block) (runs : List Nat) (blocks : Nat → List Nat) :
    Prop where
  ring : Ring (fun p => v.pte p 1) (fun p => v.pte p 2) 0 runs
  sorted : runs.Pairwise fun p q => p + v.pte p 0 < q
  lists : ∀ c, 4 ≤ c → c ≤ 11 →
    Stack v.dat (fun b => v.dat (b + 4)) 0 (h.listHead c) (v.hw (2 * c + 17)) (blocks c)
  count : v.hw 41 = live.length
  bytes : v.hw 42 = (live.map fun b => h.blockBytes v b.addr).sum
  chunks : v.hw 43 = runs.length + ∑ c ∈ Finset.Icc 4 11, (blocks c).length
  free : v.hw 44 = (runs.map fun p => 4096 * v.pte p 0).sum +
    ∑ c ∈ Finset.Icc 4 11, 2 ^ c * (blocks c).length

/-- The page search of `__shmalloc` and the position search of `Trid_SMM_Free` end. -/
def SearchesEnd (h : Place s) (m : Mem) : Prop :=
  ∀ fuel, h.pageCount < fuel → ∀ needed target,
    findRun m (pageTable s h.vir m) needed (word h.vir m 3) fuel (word h.vir m 3) ≠ none ∧
      searchPlace m (pageTable s h.vir m) target (word h.vir m 3) fuel ≠ none

section

variable (hc : h.Core v g)

include hc

theorem Core.run_len {p : Nat} (hp : p ∈ g.runs) : (g.tag p).len = v.pte p 0 := by
  obtain ⟨n, hn⟩ := (hc.mem_runs p).mp hp
  rw [hc.free hn, hn, Tag.len]

theorem Core.sorted (ho : Ordered v g) : g.runs.Pairwise fun p q => p + v.pte p 0 < q := by
  have htrans : Trans (fun p q => p + v.pte p 0 < q) (fun p q => p + v.pte p 0 < q)
      (fun p q => p + v.pte p 0 < q) := ⟨fun hpq hqr => by omega⟩
  refine hc.ring.pairwise fun p hp => ?_
  have hnext := ho p hp
  rwa [hc.run_len hp] at hnext

theorem Core.tagSum_runs {F : Tag → Nat} (hF : ∀ t, (∀ n, t ≠ .free n) → F t = 0) :
    h.tagSum F g.tag = (g.runs.map fun p => F (g.tag p)).sum := by
  rw [← List.sum_toFinset _ (List.nodup_cons.mp hc.ring.nodup).2, tagSum]
  refine (Finset.sum_subset (fun p hp => ?_) fun p _ hp => hF _ fun n hn => hp ?_).symm
  · exact Finset.mem_range.mpr (hc.run_lt (List.mem_cons_of_mem 0 (List.mem_toFinset.mp hp)))
  · exact List.mem_toFinset.mpr ((hc.mem_runs p).mpr ⟨n, hn⟩)

theorem Core.runs_eq : h.tagSum Tag.runs g.tag = g.runs.length := by
  rw [hc.tagSum_runs fun t ht => ?_]
  · have hone : (g.runs.map fun p => (g.tag p).runs) = g.runs.map fun _ => 1 := by
      refine List.map_congr_left fun p hp => ?_
      obtain ⟨n, hn⟩ := (hc.mem_runs p).mp hp
      rw [hn, Tag.runs]
    rw [hone]
    simp
  · cases t with
    | free n => exact absurd rfl (ht n)
    | _ => rfl

theorem Core.freePages_eq : h.tagSum Tag.freePages g.tag = (g.runs.map fun p => v.pte p 0).sum := by
  rw [hc.tagSum_runs fun t ht => ?_]
  · congr 1
    refine List.map_congr_left fun p hp => ?_
    obtain ⟨n, hn⟩ := (hc.mem_runs p).mp hp
    rw [hc.free hn, hn, Tag.freePages]
  · cases t with
    | free n => exact absurd rfl (ht n)
    | _ => rfl

end

section

variable (hc : h.Core v g)

include hc

theorem Core.top_le {p : Nat} (hp : g.tag p ≠ .none) : g.top ≤ h.pageCount := by
  have htop := (hc.top_of_tag hp).2
  simp only [pageCount]
  omega

theorem Core.freePages_le : h.tagSum Tag.freePages g.tag ≤ h.pageCount := by
  have hnd := (List.nodup_cons.mp hc.ring.nodup).2
  have hsome : ∀ p ∈ g.runs.toFinset, g.tag p ≠ .none ∧ (g.tag p).len = v.pte p 0 := by
    intro p hp
    rw [List.mem_toFinset] at hp
    obtain ⟨n, hn⟩ := (hc.mem_runs p).mp hp
    exact ⟨by rw [hn]; simp, hc.run_len hp⟩
  rw [hc.freePages_eq, ← List.sum_toFinset _ hnd]
  refine Sums.sum_le_of_apart (fun p => p) _ 0 h.pageCount (fun p hp => ?_) fun p hp q hq hpq => ?_
  · obtain ⟨hp, hlen⟩ := hsome p hp
    have hspan := hc.spans.range p hp
    have htop := hc.top_le hp
    omega
  · obtain ⟨hp, hlen⟩ := hsome p hp
    obtain ⟨hq, hlen'⟩ := hsome q hq
    rcases Nat.lt_or_gt_of_ne hpq with hlt | hgt
    · have hap := hc.spans.apart p q hp hq hlt
      omega
    · have hap := hc.spans.apart q p hq hp hgt
      omega

theorem Core.blockBytes_le : classSum (fun c => 2 ^ c) g.blocks ≤ h.size := by
  have hsigma : classSum (fun c => 2 ^ c) g.blocks =
      ∑ x ∈ (Finset.Icc 4 11).sigma fun c => (g.blocks c).toFinset, 2 ^ x.1 := by
    rw [Finset.sum_sigma, classSum]
    refine Finset.sum_congr rfl fun c _ => ?_
    simp only
    rw [Finset.sum_const, List.toFinset_card_of_nodup (hc.block_nodup c), Nat.nsmul_eq_mul, Nat.mul_comm]
  have hat : ∀ x ∈ (Finset.Icc 4 11).sigma fun c => (g.blocks c).toFinset, h.BlockAt g x.1 x.2 := by
    intro x hx
    exact (hc.block x.1 x.2 (List.mem_toFinset.mp (Finset.mem_sigma.mp hx).2)).2
  rw [hsigma, ← Nat.add_sub_cancel_left (n := h.phy) (m := h.size)]
  refine Sums.sum_le_of_apart (fun x => x.2) (fun x => 2 ^ x.1) h.phy _ (fun x hx => ?_)
    fun x hx y hy hne => hc.block_apart (hat x hx) (hat y hy) ?_
  · obtain ⟨p, hf⟩ := hc.blockFacts (hat x hx)
    have hsome : g.tag p ≠ .none := by rw [hf.tag]; simp
    have hge := hf.ge
    have hfits := hf.fits
    have hend := hc.page_le hsome
    rw [hf.tag, Tag.len] at hend
    simp only [page] at hge
    omega
  · intro haddr
    have hclass := hc.class_unique (hat x hx) (haddr ▸ hat y hy)
    exact hne (Sigma.ext hclass (heq_of_eq haddr))

theorem Core.liveBytes_le (hl : h.LiveOk g live) : (live.map fun b => h.blockBytes v b.addr).sum ≤ h.size := by
  have hsum : (live.map fun b => h.blockBytes v b.addr).sum =
      ∑ a ∈ (live.map Block.addr).toFinset, h.blockBytes v a := by
    rw [List.sum_toFinset _ hl.nodup, List.map_map]
    rfl
  have hsound := sound_of_inv hc hl
  have hmem : ∀ a ∈ (live.map Block.addr).toFinset, ∃ b ∈ live, b.addr = a := by
    intro a ha
    exact List.mem_map.mp (List.mem_toFinset.mp ha)
  rw [hsum, ← Nat.add_sub_cancel_left (n := h.phy) (m := h.size)]
  refine Sums.sum_le_of_apart (fun a => a) (h.blockBytes v) h.phy _ (fun a ha => ?_)
    fun a ha a' ha' hne => ?_
  · obtain ⟨b, hb, rfl⟩ := hmem a ha
    have hin := hsound.inside b hb
    exact ⟨by omega, hin.2⟩
  · obtain ⟨b, hb, rfl⟩ := hmem a ha
    obtain ⟨b', hb', rfl⟩ := hmem a' ha'
    exact hc.holds_apart (hl.holds b hb) (hl.holds b' hb') hne

theorem Core.live_length_le (hl : h.LiveOk g live) :
    live.length ≤ (live.map fun b => h.blockBytes v b.addr).sum := by
  rw [← List.length_map (f := fun b => h.blockBytes v b.addr)]
  refine List.length_le_sum_of_one_le _ fun n hn => ?_
  obtain ⟨b, hb, rfl⟩ := List.mem_map.mp hn
  rw [hc.blockBytes_eq (hl.holds b hb)]
  cases hl.holds b hb with
  | large p n htag haddr hbig hsize =>
    rw [haddr, held_page htag]
    omega
  | small c hblock hsize hlive =>
    obtain ⟨p, hf⟩ := hc.blockFacts hblock
    rw [held_block hf.le hblock]
    exact Nat.one_le_two_pow

theorem Core.tidy (hl : h.LiveOk g live) (ha : h.Accounts v g live) : h.Tidy v live g.runs g.blocks := by
  have hsize := h.size_le
  have hpc := h.pageCount_lt
  have hbytes := hc.liveBytes_le hl
  have hcount := hc.live_length_le hl
  have hpages := hc.freePages_le
  have hblocks := hc.blockBytes_le
  have hruns := hc.runs_length
  have hfew : classSum (fun _ => 1) g.blocks ≤ classSum (fun c => 2 ^ c) g.blocks :=
    Finset.sum_le_sum fun c _ => Nat.mul_le_mul_right _ Nat.one_le_two_pow
  have hheld : (live.map fun b => h.blockBytes v b.addr) = live.map fun b => h.held g b.addr :=
    List.map_congr_left fun b hb => hc.blockBytes_eq (hl.holds b hb)
  obtain ⟨⟨h41, h42, h43, h44⟩, ho⟩ := ha
  refine ⟨hc.ring, hc.sorted ho, hc.stack, ?_, ?_, ?_, ?_⟩
  · rw [h41, Nat.mod_eq_of_lt (by omega)]
  · rw [h42, ← hheld, Nat.mod_eq_of_lt (by omega)]
  · rw [h43, chunks, hc.runs_eq, Nat.mod_eq_of_lt (by omega)]
    simp only [classSum, Nat.one_mul]
  · rw [h44, freeBytes, Nat.mod_eq_of_lt (by omega), hc.freePages_eq, List.sum_map_mul_left]
    rfl

end

section

variable (hc : h.Core (h.view m) g)

include hc

theorem Core.findRun_ends {needed start k cur fuel : Nat} (hcur : cur ∈ 0 :: g.runs)
    (hend : (fun p => (h.view m).pte p 1)^[k + 1] cur = start) (hk : k < fuel) :
    findRun m (h.vir + 4096) needed start fuel cur ≠ none := by
  refine Dll.walk_ends (S := (· ∈ 0 :: g.runs)) (fun _ => hc.ring.next_mem) (fun f cur hcur hnext => ?_)
    (fun f cur hcur hrest => ?_) hcur hend hk
  · have hlt := hc.run_lt hcur
    simp only [findRun, h.ld_pte m hlt (show 0 < 3 by omega), h.ld_pte m hlt (show 1 < 3 by omega), hnext]
    split <;> simp
  · have hlt := hc.run_lt hcur
    simp only [findRun, h.ld_pte m hlt (show 0 < 3 by omega), h.ld_pte m hlt (show 1 < 3 by omega)]
    split
    · simp
    · split
      · exact hrest
      · simp

theorem Core.walkForward_ends {target k cur fuel : Nat} (hcur : cur ∈ 0 :: g.runs)
    (hend : (fun p => (h.view m).pte p 1)^[k + 1] cur = 0) (hk : k < fuel) :
    walkForward m (h.vir + 4096) target fuel cur ≠ none := by
  refine Dll.walk_ends (S := (· ∈ 0 :: g.runs)) (fun _ => hc.ring.next_mem) (fun f cur hcur hnext => ?_)
    (fun f cur hcur hrest => ?_) hcur hend hk
  · simp [walkForward, h.ld_pte m (hc.run_lt hcur) (show 1 < 3 by omega), hnext]
  · simp only [walkForward, h.ld_pte m (hc.run_lt hcur) (show 1 < 3 by omega)]
    split
    · simp
    · split
      · exact hrest
      · simp

theorem Core.walkBackward_ends {target k cur fuel : Nat} (hcur : cur ∈ 0 :: g.runs)
    (hend : (fun p => (h.view m).pte p 2)^[k + 1] cur = 0) (hk : k < fuel) :
    walkBackward m (h.vir + 4096) target fuel cur ≠ none := by
  refine Dll.walk_ends (S := (· ∈ 0 :: g.runs)) (fun _ => hc.ring.prev_mem) (fun f cur hcur hnext => ?_)
    (fun f cur hcur hrest => ?_) hcur hend hk
  · simp [walkBackward, h.ld_pte m (hc.run_lt hcur) (show 2 < 3 by omega), hnext]
  · simp only [walkBackward, h.ld_pte m (hc.run_lt hcur) (show 2 < 3 by omega)]
    split
    · exact hrest
    · simp

theorem Core.searchesEnd : h.SearchesEnd m := by
  intro fuel hfuel needed target
  have hlen := hc.runs_length
  have hhint := hc.hint
  rw [hc.pageTable_eq, h.word_eq m (by omega)]
  refine ⟨hc.findRun_ends hhint (hc.ring.iterate_around hhint) (by omega), ?_⟩
  simp only [searchPlace]
  split
  · obtain ⟨k, hk, hend⟩ := hc.ring.iterate_to hhint
    exact hc.walkForward_ends hhint hend (by omega)
  · rename_i hlow
    have hmem : (h.view m).hw 3 ∈ g.runs := (List.mem_cons.mp hhint).resolve_left (by omega)
    obtain ⟨k, hk, hend⟩ := hc.ring.iterate_back hmem
    rw [ne_eq, Option.map_eq_none_iff]
    exact hc.walkBackward_ends hhint hend (by omega)

end

/-- The heap is consistent, holds the live blocks and counts them. -/
structure Kept (h : Place s) (st : Clients) : Prop where
  slot : st.heaps.slot 0 = ⟨h.phy, h.size⟩
  heap : ∃ g, h.Core (h.view st.heaps.mem) g ∧ h.LiveOk g st.live ∧ h.Accounts (h.view st.heaps.mem) g st.live

theorem kept_start {base : Nat} (hbase : (base + 4095) % 2 ^ 32 / 4096 * 4096 = h.vir) :
    h.Kept (start s base h.size) := by
  obtain ⟨hslot, -⟩ := inv_start hbase
  refine ⟨hslot, h.fresh, core_start hbase, liveOk_start base, ?_⟩
  rw [view_start hbase]
  exact ⟨⟨by simp [start], by simp [start], by simp [chunks, tagSum, classSum, fresh, Tag.runs],
    by simp [freeBytes, tagSum, classSum, fresh, Tag.freePages]⟩, fun p hp => by cases hp⟩

theorem Kept.step {fuel r : Nat} {st st' : Clients} {op : Op} (hk : h.Kept st) (hsafe : h.Safe st op)
    (htidy : h.Tidies st op) (hs : Smm.step s fuel st op = .ret r st') : h.Kept st' := by
  obtain ⟨hslot, g, hc, hl, ha⟩ := hk
  obtain ⟨hslot', g', hc', hl', hbooks⟩ := hc.step_spec hslot hl hsafe hs
  exact ⟨hslot', g', hc', hl', hbooks htidy ha⟩

/-- In every run whose calls are safe and keep the books the free list is in order, the statistics are right and
both searches end. -/
theorem stats_right {base fuel : Nat} {ops : List Op} {st : Clients}
    (hbase : (base + 4095) % 2 ^ 32 / 4096 * 4096 = h.vir)
    (hrun : Run (Smm.step s fuel) (fun st op => h.Safe st op ∧ h.Tidies st op) (start s base h.size) ops st) :
    (∃ runs blocks, h.Tidy (h.view st.heaps.mem) st.live runs blocks) ∧ h.SearchesEnd st.heaps.mem := by
  obtain ⟨_, g, hc, hl, ha⟩ := hrun.inv (fun _ _ _ _ hk hok hs => Kept.step hk hok.1 hok.2 hs) (kept_start hbase)
  exact ⟨⟨g.runs, g.blocks, hc.tidy hl ha⟩, hc.searchesEnd⟩

end Place

theorem stats_right_lowHeap :
    ∃ st, Run (step lowMemory 100) (fun st op => lowHeap.Safe st op ∧ lowHeap.Tidies st op)
        (start lowMemory 4096 131072)
        [.malloc 9000, .malloc 100, .malloc 100, .write 24576 7, .free 24576, .malloc 70, .free 12288,
          .malloc 5000] st ∧ (∃ runs blocks, lowHeap.Tidy (lowHeap.view st.heaps.mem) st.live runs blocks) ∧
      lowHeap.SearchesEnd st.heaps.mem := by
  refine Run.exists_of_exec_imp (P := fun _ => True) (by decide +kernel) ?_
  intro st hrun _
  exact Place.stats_right (h := lowHeap) (by decide) hrun

theorem runs_out_of_order : ∃ st, Run (step lowMemory 100) LiveCall (start lowMemory 4096 131072)
        [.malloc 4096, .malloc 4096, .malloc 4096, .free 16384, .free 12288] st ∧
      ¬ ∃ runs blocks, lowHeap.Tidy (lowHeap.view st.heaps.mem) st.live runs blocks := by
  refine Run.exists_of_exec_imp (P := fun st => (lowHeap.view st.heaps.mem).pte 0 1 = 3 ∧
    (lowHeap.view st.heaps.mem).pte 3 1 = 2) (by decide +kernel) ?_
  rintro st - ⟨hfirst, hnext⟩ ⟨runs, blocks, htidy⟩
  have hlinks := htidy.ring.links
  have hsorted := htidy.sorted
  cases runs with
  | nil =>
    simp [Linked, hfirst] at hlinks
  | cons p runs =>
    cases runs with
    | nil =>
      simp only [List.cons_append, List.nil_append, List.isChain_cons_cons, Linked, hfirst] at hlinks
      obtain ⟨⟨rfl, _⟩, ⟨h0, _⟩, _⟩ := hlinks
      rw [hnext] at h0
      cases h0
    | cons q runs =>
      -- the first run is page 3 and the second one page 2
      simp only [List.cons_append, List.isChain_cons_cons, Linked, hfirst] at hlinks
      obtain ⟨⟨rfl, _⟩, ⟨hq, _⟩, _⟩ := hlinks
      rw [hnext] at hq
      have hlt := (List.pairwise_cons.mp hsorted).1 q List.mem_cons_self
      omega

end H713.Smm
