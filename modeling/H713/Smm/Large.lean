import H713.Smm.Books

/-!
# Smm.Large

The large path of `__shmalloc` on a heap in order. The branch that extends the last free run is dead: it asks for a
run that ends at the break and whose first page is at the break.
-/

namespace H713.Smm

open Function

def View.dropRun (v : View) (cur : Nat) : View :=
  (((v.setPte (v.pte cur 1) 2 (v.pte cur 2)).setPte (v.pte cur 2) 1 (v.pte cur 1)).setHw 3
    (v.pte cur 1)).setHw 43 (sub32 (v.hw 43) 1)

def View.splitRun (v : View) (cur needed n : Nat) : View :=
  (((((v.setPte (cur + needed) 0 n).setPte (cur + needed) 1 (v.pte cur 1)).setPte (cur + needed) 2
    (v.pte cur 2)).setHw 3 (cur + needed)).setPte (v.pte cur 1) 2 (cur + needed)).setPte (v.pte cur 2) 1
      (cur + needed)

def View.markTaken (v : View) (cur n : Nat) : View :=
  ((((v.setPte cur 0 0).setPte cur 1 n).setHw 41 ((v.hw 41 + 1) % 2 ^ 32)).setHw 42
    ((v.hw 42 + n * 4096) % 2 ^ 32)).setHw 44 (sub32 (v.hw 44) (n * 4096))

namespace Place

open Bytes Dll

variable {s : Shm} {h : Place s} {m : Mem} {g : Ghost} {top : Nat}

variable {k p n a needed cur : Nat} {v : View} {m' : Mem}

section

variable (hc : h.Core (h.view m) g) (x : Nat) (hk : Counter k)

include hc x hk

theorem Core.setWord : h.Core (h.view (setWord h.vir m k x)) g := by
  rw [h.view_setWord m x (by simp only [Counter] at hk; omega)]
  exact hc.setHw_counter _ hk

theorem Core.addWord : h.Core (h.view (addWord h.vir m k x)) g :=
  hc.setWord _ hk

theorem Core.subWord : h.Core (h.view (subWord h.vir m k x)) g :=
  hc.setWord _ hk

end

theorem Header.pageTable_eq (hh : h.Header (h.view m) top) : pageTable s h.vir m = h.vir + 4096 := by
  have hf := h.vir_firstPage
  have h2 := h.two_le_firstPage
  rw [pageTable, h.word_eq m (by omega), hh.base1, h.smmPhy2vir_add (by omega)]

theorem dataBase_of_hw (h0 : (h.view m).hw 0 = h.phy + 4096) : dataBase s h.vir m = h.vir + 4096 := by
  have hf := h.vir_firstPage
  have h2 := h.two_le_firstPage
  rw [dataBase, h.word_eq m (by omega), h0, h.smmPhy2vir_add (by omega)]

theorem Header.dataBase_eq (hh : h.Header (h.view m) top) : dataBase s h.vir m = h.vir + 4096 :=
  dataBase_of_hw hh.base0

theorem pageAddr_eq (hp : h.vir + 4096 * p < 2 ^ 32) : pageAddr (h.vir + 4096) p = h.vir + 4096 * p := by
  simp only [pageAddr, sub32]
  omega

theorem divPage_eq {x : Nat} (hx : x < 2 ^ 31) : divPage x = x / 4096 := by
  have hi : toI32 x = (x : Int) := by rw [toI32, if_pos hx]
  have hd : Int.tdiv (x : Int) 4096 = ((x / 4096 : Nat) : Int) := by
    rw [Int.tdiv_eq_ediv_of_nonneg (by omega)]
    omega
  rw [divPage, hi, hd]
  simp only [ofI32]
  omega

theorem Header.top_lt (hh : h.Header v top) :
    h.vir + 4096 * top < 2 ^ 32 ∧ h.phy + 4096 * top < 2 ^ 32 ∧ 2 ≤ top := by
  have h2 := h.two_le_firstPage
  have hv := h.vir_firstPage
  have hp := h.phy_firstPage
  have hve := h.vir_end
  have hpe := h.phy_end
  rcases hh.top with ⟨_, ht⟩ | ⟨_, ht, hs⟩ <;> omega

theorem Header.brkAddr_eq (hh : h.Header (h.view m) top) : brkAddr s h.vir m 0 = h.vir + 4096 * top := by
  obtain ⟨hv, hp, _⟩ := hh.top_lt
  have hpos := h.phy_pos
  have hmod : (h.phy + 4096 * top) % 2 ^ 32 = h.phy + 4096 * top := Nat.mod_eq_of_lt hp
  simp only [brkAddr, h.word_eq m (show 47 < 1024 by omega), h.word_eq m (show 45 < 1024 by omega), hh.phy,
    hh.brk, hmod]
  rw [if_pos (by omega), h.toVir_add hv, sub32_eq (by omega) hv]
  rfl

theorem Header.shmallocBrk_eq (hh : h.Header (h.view m) top) (hn : 0 < n) (hfit : 4096 * n + 4096 * top ≤ 2 ^ 32) :
    shmallocBrk s h.vir m (4096 * n) =
      if h.size < 4096 * (top + n) ∧ 4096 * (top + n) < 2 ^ 31 then (0, m)
      else (h.vir + 4096 * top, Smm.setWord h.vir m 45 (4096 * (top + n) % 2 ^ 32)) := by
  obtain ⟨hv, hp, h2⟩ := hh.top_lt
  have hpos := h.phy_pos
  have hle := h.size_le
  have hbreak : (4096 * n + 4096 * top) % 2 ^ 32 = 4096 * (top + n) % 2 ^ 32 := by omega
  simp only [shmallocBrk, h.word_eq m (show 45 < 1024 by omega), h.word_eq m (show 46 < 1024 by omega),
    hh.brk, hh.size, hbreak]
  rw [if_pos (by omega)]
  have hint : toI32 (4096 * (top + n) % 2 ^ 32) > toI32 h.size ↔
      h.size < 4096 * (top + n) ∧ 4096 * (top + n) < 2 ^ 31 := by
    simp only [toI32]
    rw [if_pos (show h.size < 2 ^ 31 by omega)]
    split <;> omega
  simp only [hint]
  split
  · rfl
  · refine Prod.ext ?_ rfl
    simp only [brkAddr, h.word_eq _ (show 47 < 1024 by omega), h.word_eq _ (show 45 < 1024 by omega),
      h.view_setWord m _ (show 45 < 1024 by omega), View.hw_setHw, hh.phy, Nat.reduceEqDiff, if_true,
      if_false]
    rw [if_pos (by omega)]
    have hm := h.mapped
    simp only [Shm.toVir, sub32] at hm ⊢
    omega

theorem Core.grow (hc : h.Core v g) (hs : 4096 * (g.top + n) ≤ h.size) :
    h.Core ((v.setHw 45 (4096 * (g.top + n))).setHw 4 (g.top + n)) { g with top := g.top + n } := by
  have hfirst : h.firstPage ≤ g.top := by
    rcases hc.top with ⟨_, ht⟩ | ⟨_, ht, _⟩ <;> omega
  refine { hc with
    base0 := by simpa using hc.base0, base1 := by simpa using hc.base1, count := by simpa using hc.count,
    size := by simpa using hc.size, phy := by simpa using hc.phy, brk := by simp,
    top := .inr ⟨by simp, by simp only; omega, hs⟩, hint := by simpa using hc.hint,
    spans := ⟨fun p hp => ?_, hc.spans.apart⟩, stack := fun c h4 h11 => ?_ }
  · rw [View.hw_setHw, View.hw_setHw, if_neg (by omega), if_neg (by omega)]
    exact hc.stack c h4 h11
  · obtain ⟨h1, h2, h3⟩ := hc.spans.range p hp
    exact ⟨h1, h2, by simp only; omega⟩

section

variable (hh : h.Header (h.view m) top) (hn : 0 < n) (hfit : 4096 * n + 4096 * top ≤ 2 ^ 32)

include hh hn hfit

theorem Header.morecore_eq : morecore s h.vir m (4096 * n) =
      if 4096 * (top + n) ≤ h.size then
        .ret (h.vir + 4096 * top) (Smm.setWord h.vir (Smm.setWord h.vir m 45 (4096 * (top + n) % 2 ^ 32)) 4 (top + n))
      else if 4096 * (top + n) < 2 ^ 31 then .ret 0 m
      else .bug := by
  obtain ⟨hv, hp, h2⟩ := hh.top_lt
  have hva := h.vir_aligned
  have hpc := h.pageCount_lt
  have hle := h.size_le
  have halign : (h.vir + 4096 * top) % 4096 = 0 := by omega
  have hdb : dataBase s h.vir (Smm.setWord h.vir m 45 (4096 * (top + n) % 2 ^ 32)) = h.vir + 4096 := by
    refine dataBase_of_hw ?_
    rw [h.view_setWord m _ (by omega), View.hw_setHw, if_neg (by omega), hh.base0]
  have hcount : word h.vir (Smm.setWord h.vir m 45 (4096 * (top + n) % 2 ^ 32)) 2 = h.pageCount := by
    rw [h.word_eq _ (by omega), h.view_setWord m _ (by omega), View.hw_setHw, if_neg (by omega), hh.count]
  have hpages : sub32 (h.vir + 4096 * top + 4096 * n) (h.vir + 4096) / 4096 + 1 = top + n := by
    simp only [sub32]
    omega
  have hint : toI32 (top + n) > toI32 h.pageCount ↔ h.pageCount < top + n := by
    simp only [toI32]
    rw [if_pos (by omega), if_pos (by omega)]
    omega
  simp only [morecore, hh.shmallocBrk_eq hn hfit]
  by_cases hfail : h.size < 4096 * (top + n) ∧ 4096 * (top + n) < 2 ^ 31
  · have hroom : ¬ 4096 * (top + n) ≤ h.size := by omega
    rw [if_pos hfail, if_neg hroom, if_pos hfail.2]
    rfl
  · simp only [if_neg hfail, alignCore, halign, ne_eq, not_true_eq_false, if_false, hdb, hcount, hpages, hint]
    rw [if_neg (by omega)]
    by_cases hroom : 4096 * (top + n) ≤ h.size
    · have hin : ¬ h.pageCount < top + n := by
        simp only [pageCount]
        omega
      rw [if_pos hroom, if_neg hin]
    · -- a negative break is far behind the page table's last page
      have hbig : ¬ 4096 * (top + n) < 2 ^ 31 := by omega
      rw [if_neg hroom, if_neg hbig, if_pos (by omega)]

theorem Header.morecore_spec (hm : morecore s h.vir m (4096 * n) = .ret a m') : (a = 0 ∧ m' = m) ∨
    (a = h.vir + 4096 * top ∧ 4096 * (top + n) ≤ h.size ∧
      h.view m' = ((h.view m).setHw 45 (4096 * (top + n))).setHw 4 (top + n)) := by
  have hle := h.size_le
  rw [hh.morecore_eq hn hfit] at hm
  split at hm
  · rename_i hroom
    cases hm
    refine .inr ⟨rfl, hroom, ?_⟩
    simp (disch := omega) only [h.view_setWord, Nat.mod_eq_of_lt]
  · split at hm
    · cases hm
      exact .inl ⟨rfl, rfl⟩
    · cases hm

end

theorem Core.findRun_spec (hc : h.Core (h.view m) g) {start : Nat} (hn : 0 < needed) :
    ∀ fuel cur r, cur ∈ 0 :: g.runs → findRun m (h.vir + 4096) needed start fuel cur = some (some r) →
      ∃ n, g.tag r = .free n ∧ needed ≤ n := by
  intro fuel
  induction fuel with
  | zero =>
    intro cur r _ hf
    cases hf
  | succ f ih =>
    intro cur r hcur hf
    have hlt := hc.run_lt hcur
    simp only [findRun, h.ld_pte m hlt (show 0 < 3 by omega), h.ld_pte m hlt (show 1 < 3 by omega)] at hf
    split at hf
    · rename_i hle
      cases hf
      rcases List.mem_cons.mp hcur with rfl | hmem
      · rw [hc.sentinel] at hle
        omega
      · obtain ⟨n, hfree⟩ := (hc.mem_runs _).mp hmem
        rw [hc.free hfree] at hle
        exact ⟨n, hfree, hle⟩
    · split at hf
      · exact ih _ _ (hc.ring.next_mem hcur) hf
      · cases hf

section

variable {cur : Nat} (hcur : cur < h.pageCount) (hnext : (h.view m).pte cur 1 < h.pageCount)
  (hprev : (h.view m).pte cur 2 < h.pageCount)

include hcur hnext hprev

theorem view_dropRun (hne : cur ≠ (h.view m).pte cur 1) :
    h.view (dropRun h.vir m (h.vir + 4096) cur) = (h.view m).dropRun cur := by
  have hpc := h.pageCount_lt
  have hmod : (h.view m).pte cur 1 % 2 ^ 32 = (h.view m).pte cur 1 := Nat.mod_eq_of_lt (by omega)
  simp (disch := omega) only [dropRun, View.dropRun, Smm.subWord, h.ld_pte, h.word_eq, h.view_st_pte,
    h.view_setWord, View.pte_setPte, View.hw_setPte, View.hw_setHw, hne, false_and, if_false, ite_self, hmod,
    sub32_mod, Nat.reduceEqDiff]

theorem view_splitRun {needed : Nat} (hsplit : cur + needed < h.pageCount) (hpos : 0 < needed)
    (hn : (h.view m).pte cur 0 < 2 ^ 32) (hne : cur ≠ (h.view m).pte cur 1) :
    h.view (splitRun h.vir m (h.vir + 4096) cur needed) =
      (h.view m).splitRun cur needed ((h.view m).pte cur 0 - needed) := by
  have hpc := h.pageCount_lt
  have hcs : cur ≠ cur + needed := by omega
  have hmod : (cur + needed) % 2 ^ 32 = cur + needed := Nat.mod_eq_of_lt (by omega)
  simp (disch := omega) only [splitRun, View.splitRun, h.ld_pte, h.view_st_pte, h.view_setWord,
    View.pte_setPte, View.pte_setHw, hne, hcs, false_and, if_false, hmod]

end

theorem view_takeRun (hcur : cur < h.pageCount) (hn : needed < 2 ^ 32) :
    h.view (takeRun h.vir m (h.vir + 4096) cur needed) =
      (h.view (if needed ≥ (h.view m).pte cur 0 then dropRun h.vir m (h.vir + 4096) cur
        else splitRun h.vir m (h.vir + 4096) cur needed)).markTaken cur needed := by
  simp (disch := omega) only [takeRun, View.markTaken, Smm.addWord, Smm.subWord, h.ld_pte, h.word_eq,
    h.view_st_pte, h.view_setWord, View.hw_setPte, View.hw_setHw, sub32_mod, Nat.reduceEqDiff, if_false]

/-- What starts at page `p` has `n` pages. -/
structure Starts (h : Place s) (g : Ghost) (p n : Nat) : Prop where
  some : g.tag p ≠ .none
  first : h.firstPage ≤ p
  ne_zero : p ≠ 0
  pos : 0 < n
  le : p + n ≤ g.top
  lt : p < h.pageCount
  len_lt : p + n < 2 ^ 32

theorem Core.starts (hc : h.Core v g) (hp : g.tag p ≠ .none) : Starts h g p (g.tag p).len := by
  have htop := hc.top_lt.1
  have h2 := h.two_le_firstPage
  obtain ⟨hfirst, hpos, hle⟩ := hc.spans.range p hp
  exact ⟨hp, hfirst, by omega, hpos, hle, hc.tag_lt hp, by omega⟩

theorem Core.starts_free (hc : h.Core v g) (hp : g.tag p = .free n) : Starts h g p n := by
  simpa only [hp, Tag.len] using hc.starts (p := p) (by simp [hp])

theorem Core.starts_large (hc : h.Core v g) (hp : g.tag p = .large n) : Starts h g p n := by
  simpa only [hp, Tag.len] using hc.starts (p := p) (by simp [hp])

structure RunAt (h : Place s) (v : View) (g : Ghost) (p n : Nat) : Prop extends Starts h g p n where
  mem : p ∈ g.runs
  next : v.pte p 1 ∈ 0 :: g.runs
  prev : v.pte p 2 ∈ 0 :: g.runs
  next_lt : v.pte p 1 < h.pageCount
  prev_lt : v.pte p 2 < h.pageCount
  next_ne : p ≠ v.pte p 1

theorem Core.runAt (hc : h.Core v g) (hp : g.tag p = .free n) : RunAt h v g p n := by
  have hmem := (hc.mem_runs p).mpr ⟨n, hp⟩
  have hnext := hc.ring.next_mem (List.mem_cons_of_mem 0 hmem)
  have hprev := hc.ring.prev_mem (List.mem_cons_of_mem 0 hmem)
  exact ⟨hc.starts_free hp, hmem, hnext, hprev, hc.run_lt hnext, hc.run_lt hprev, (hc.ring.next_ne hmem).symm⟩

theorem Core.view_take_whole (hc : h.Core (h.view m) g) (hcur : g.tag cur = .free n) :
    h.view (takeRun h.vir m (h.vir + 4096) cur n) = ((h.view m).dropRun cur).markTaken cur n := by
  have hat := hc.runAt hcur
  have hlen := hat.len_lt
  rw [view_takeRun hat.lt (by omega), if_pos (hc.free hcur).le,
    view_dropRun hat.lt hat.next_lt hat.prev_lt hat.next_ne]

theorem Core.take_whole (hc : h.Core (h.view m) g) (hcur : g.tag cur = .free n) :
    ∃ l, h.Core (h.view (takeRun h.vir m (h.vir + 4096) cur n))
      { g with tag := update g.tag cur (.large n), runs := l } := by
  have hat := hc.runAt hcur
  obtain ⟨l, hring, hl⟩ := hc.ring.remove hat.mem
  have hlne : ∀ p ∈ 0 :: l, p ≠ cur :=
    List.forall_mem_cons.mpr ⟨hat.ne_zero.symm, fun p hp => ((hl p).mp hp).2⟩
  refine ⟨l, ?_⟩
  rw [hc.view_take_whole hcur, View.dropRun, View.markTaken]
  refine hc.retag [cur] rfl (fun k h3 hk => ?_)
    (hc.spans.retag hat.some hat.pos (by rw [hcur]; rfl)) ?_ ?_ (fun p hp => ?_)
    (hring.congr (fun p hp => ?_) (fun p hp => ?_)) ?_
  · simp only [Counter] at hk
    simp only [View.hw_setHw, View.hw_setPte]
    rw [if_neg (by omega), if_neg (by omega), if_neg (by omega), if_neg (by omega), if_neg (by omega)]
  · simp [hcur, hat.ne_zero]
  · simp [Tag.Entry, hl]
  · rw [List.mem_singleton] at hp
    refine ⟨update_of_ne hp .., by simp [hl, hp], by simp [hp], fun hrun => ?_⟩
    have hprevne : p ≠ (h.view m).pte cur 2 := fun he => hrun (he ▸ hat.prev)
    simp [hp, hprevne]
  · simp [hlne p hp, update_apply]
  · simp [update_apply]
  · simp only [View.hw_setHw, View.hw_setPte, Nat.reduceEqDiff, if_false, if_true]
    rcases List.mem_cons.mp hat.next with h0 | hn
    · rw [h0]
      exact List.mem_cons_self
    · exact List.mem_cons_of_mem 0 ((hl _).mpr ⟨hn, hat.next_ne.symm⟩)

theorem Core.ordered_relink (hc : h.Core v g) (ho : Ordered v g) (hcur : cur ∈ g.runs) (hp : p ∈ g.runs) {x y : Nat}
    (hx : x = 0 ∨ cur ≤ x) (hy : y = if p = v.pte cur 2 then x else v.pte p 1) : y = 0 ∨ p + (g.tag p).len < y := by
  rw [hy]
  split
  · have hfront := hc.ordered_prev ho hcur hp ‹_›
    omega
  · exact ho p hp

theorem Core.sold_whole (hc : h.Core (h.view m) g) {l : List Nat} (hcur : g.tag cur = .free n)
    (hc' : h.Core (h.view (takeRun h.vir m (h.vir + 4096) cur n))
      { g with tag := update g.tag cur (.large n), runs := l }) :
    h.Sold (h.view m) (h.view (takeRun h.vir m (h.vir + 4096) cur n)) g
      { g with tag := update g.tag cur (.large n), runs := l } (4096 * n) := by
  have hat := hc.runAt hcur
  intro N B hbook
  rw [hc.view_take_whole hcur, View.dropRun, View.markTaken]
  constructor
  · have hruns := h.tagSum_update hat.lt Tag.runs g.tag (.large n)
    have hpages := h.tagSum_update hat.lt Tag.freePages g.tag (.large n)
    obtain ⟨h41, h42, h43, h44⟩ := hbook.counts
    simp only [hcur, Tag.runs, Tag.freePages] at hruns hpages
    simp only [chunks, freeBytes] at h43 h44 ⊢
    refine ⟨?_, ?_, ?_, ?_⟩ <;> simp [sub32] <;> omega
  · intro p hp
    obtain ⟨k, hk⟩ := (hc'.mem_runs p).mp hp
    have hpc : p ≠ cur := by
      rintro rfl
      simp at hk
    have hpm : p ∈ g.runs := (hc.mem_runs p).mpr ⟨k, by simpa [hpc] using hk⟩
    have hcn := hbook.ordered cur hat.mem
    simpa [hpc] using hc.ordered_relink hbook.ordered hat.mem hpm
      (x := (h.view m).pte cur 1) (hcn.imp id fun hlt => by omega) rfl

theorem Core.inside_run (hc : h.Core v g) (hp : g.tag p = .free n) (hpos : 0 < k) (hlt : k < n) :
    g.tag (p + k) = .none := by
  by_contra hne
  have hap := hc.spans.apart p (p + k) (by rw [hp]; simp) hne (by omega)
  rw [hp] at hap
  simp only [Tag.len] at hap
  omega

theorem Core.view_take_split (hc : h.Core (h.view m) g) (hcur : g.tag cur = .free n) (hpos : 0 < needed)
    (hlt : needed < n) : h.view (takeRun h.vir m (h.vir + 4096) cur needed) =
      ((h.view m).splitRun cur needed (n - needed)).markTaken cur needed := by
  have hat := hc.runAt hcur
  have hlen := hat.len_lt
  have hle := hat.le
  have hsize := (hc.top_of_tag hat.some).2
  have hsplit : cur + needed < h.pageCount := by
    simp only [pageCount]
    omega
  rw [view_takeRun hat.lt (by omega), if_neg (by rw [hc.free hcur]; omega),
    view_splitRun hat.lt hat.next_lt hat.prev_lt hsplit hpos (by rw [hc.free hcur]; omega) hat.next_ne, hc.free hcur]

theorem Core.split_new (hc : h.Core v g) (hcur : g.tag cur = .free n) (hpos : 0 < needed) (hlt : needed < n) :
    cur + needed ∉ 0 :: g.runs := by
  intro hin
  rcases List.mem_cons.mp hin with h0 | hin
  · omega
  · obtain ⟨k, hk⟩ := (hc.mem_runs _).mp hin
    rw [hc.inside_run hcur hpos hlt] at hk
    cases hk

section

variable (hc : h.Core (h.view m) g) (hcur : g.tag cur = .free n) (hpos : 0 < needed) (hlt : needed < n)

include hc hcur hpos hlt

theorem Core.take_split : ∃ l, h.Core (h.view (takeRun h.vir m (h.vir + 4096) cur needed)) { g with
        tag := update (update g.tag cur (.large needed)) (cur + needed) (.free (n - needed))
        runs := l } := by
  have hat := hc.runAt hcur
  have hfirst := hat.first
  have hle := hat.le
  have hinside := hc.inside_run hcur hpos hlt
  obtain ⟨l, hring, hl⟩ := hc.ring.replace hat.mem (hc.split_new hcur hpos hlt)
  have hlne : ∀ p ∈ 0 :: l, p ≠ cur :=
    List.forall_mem_cons.mpr ⟨hat.ne_zero.symm, fun p hp => ((hl p).mp hp).elim (by omega) fun hp => hp.2⟩
  refine ⟨l, ?_⟩
  rw [hc.view_take_split hcur hpos hlt, View.splitRun, View.markTaken]
  refine hc.retag [cur, cur + needed] rfl (fun k h3 hk => ?_) ?_ ?_ ?_ (fun p hp => ?_)
    (hring.congr (fun p hp => ?_) (fun p hp => ?_)) ?_
  · simp only [Counter] at hk
    simp only [View.hw_setHw, View.hw_setPte]
    rw [if_neg (by omega), if_neg (by omega), if_neg (by omega), if_neg (by omega)]
  · refine (hc.spans.retag (t := .large needed) hat.some hpos (by rw [hcur]; exact hlt.le)).set (by omega)
      (by simp only [Tag.len]; omega) (by simp only [Tag.len]; omega) fun q hq hqtag => ?_
    by_cases hqc : q = cur
    · subst hqc
      rw [update_self]
      exact .inl le_rfl
    · rw [update_of_ne hqc] at hqtag ⊢
      rcases Nat.lt_or_gt_of_ne hqc with hqlt | hqgt
      · have := hc.spans.apart q cur hqtag hat.some hqlt
        omega
      · have := hc.spans.apart cur q hat.some hqtag hqgt
        rw [hcur] at this
        simp only [Tag.len] at this ⊢
        omega
  · simp [hcur, hinside, hat.ne_zero, hpos.ne']
  · simp [Tag.Entry, hl, update_apply, hpos.ne']
  · simp only [List.mem_cons, List.not_mem_nil, or_false, not_or] at hp
    refine ⟨?_, by simp [hl, hp.1, hp.2], by simp [hp.1, hp.2], fun hrun => ?_⟩
    · rw [update_of_ne hp.2, update_of_ne hp.1]
    · have hprevne : p ≠ (h.view m).pte cur 2 := fun he => hrun (he ▸ hat.prev)
      simp [hp.1, hp.2, hprevne]
  · simp [hlne p hp, update_apply]
  · simp [update_apply]
  · simp only [View.hw_setHw, View.hw_setPte, Nat.reduceEqDiff, if_false, if_true]
    exact List.mem_cons_of_mem 0 ((hl _).mpr (.inl rfl))

theorem Core.sold_split {l : List Nat} (hc' : h.Core (h.view (takeRun h.vir m (h.vir + 4096) cur needed)) { g with
        tag := update (update g.tag cur (.large needed)) (cur + needed) (.free (n - needed))
        runs := l }) : h.Sold (h.view m) (h.view (takeRun h.vir m (h.vir + 4096) cur needed)) g { g with
        tag := update (update g.tag cur (.large needed)) (cur + needed) (.free (n - needed))
        runs := l } (4096 * needed) := by
  have hat := hc.runAt hcur
  have hinside := hc.inside_run hcur hpos hlt
  have hne : cur + needed ≠ cur := by omega
  have hlt₂ : cur + needed < h.pageCount := hc'.tag_lt (p := cur + needed) (by simp)
  intro N B hbook
  rw [hc.view_take_split hcur hpos hlt, View.splitRun, View.markTaken]
  constructor
  · have hruns₁ := h.tagSum_update hat.lt Tag.runs g.tag (.large needed)
    have hpages₁ := h.tagSum_update hat.lt Tag.freePages g.tag (.large needed)
    have hruns₂ := h.tagSum_update hlt₂ Tag.runs (update g.tag cur (.large needed))
      (.free (n - needed))
    have hpages₂ := h.tagSum_update hlt₂ Tag.freePages (update g.tag cur (.large needed))
      (.free (n - needed))
    obtain ⟨h41, h42, h43, h44⟩ := hbook.counts
    simp only [hcur, hinside, update_of_ne hne, Tag.runs, Tag.freePages] at hruns₁ hpages₁ hruns₂ hpages₂
    simp only [chunks, freeBytes] at h43 h44 ⊢
    refine ⟨?_, ?_, ?_, ?_⟩ <;> simp [sub32] <;> omega
  · intro p hp
    obtain ⟨k, hk⟩ := (hc'.mem_runs p).mp hp
    have hpc : p ≠ cur := by
      rintro rfl
      simp [hpos.ne'] at hk
    by_cases hps : p = cur + needed
    · have hcn := hbook.ordered cur hat.mem
      rw [hcur] at hcn
      simp only [Tag.len] at hcn
      have hprev : cur + needed ≠ (h.view m).pte cur 2 := fun he => hc.split_new hcur hpos hlt (he ▸ hat.prev)
      simp [hps, hprev, hpos.ne', Tag.len]
      omega
    · have hpm : p ∈ g.runs := (hc.mem_runs p).mpr ⟨k, by simpa [hpc, hps] using hk⟩
      simpa [hpc, hps] using hc.ordered_relink hbook.ordered hat.mem hpm
        (x := cur + needed) (.inr (Nat.le_add_right ..)) rfl

end

structure Took (g g' : Ghost) (p n : Nat) : Prop where
  blocks : g'.blocks = g.blocks
  tag : g'.tag p = .large n
  not_large : ∀ k, g.tag p ≠ .large k
  not_small : ∀ c, g.tag p ≠ .small c
  large_iff : ∀ q k, q ≠ p → (g'.tag q = .large k ↔ g.tag q = .large k)
  small_iff : ∀ q c, q ≠ p → (g'.tag q = .small c ↔ g.tag q = .small c)

theorem Core.top_none (hc : h.Core v g) : g.tag g.top = .none := by
  by_contra hne
  have := hc.spans.range _ hne
  omega

theorem Core.run_ne_top (hc : h.Core v g) {q : Nat} (hq : q ∈ 0 :: g.runs) : q ≠ g.top := by
  rcases List.mem_cons.mp hq with rfl | hq
  · have := hc.top_lt.2.2
    omega
  · obtain ⟨k, hk⟩ := (hc.mem_runs q).mp hq
    rintro rfl
    rw [hc.top_none] at hk
    cases hk

section

variable (hc : h.Core (h.view m) g)

include hc

theorem Core.sold_grown {m₁ : Mem} (htop : g.top < h.pageCount)
    (hview : h.view m₁ = ((h.view m).setHw 45 (4096 * (g.top + n))).setHw 4 (g.top + n)) :
    h.Sold (h.view m) (h.view (Smm.addWord h.vir (Smm.addWord h.vir (st (st m₁ (pteAddr (h.vir + 4096) g.top 0) 0)
        (pteAddr (h.vir + 4096) g.top 1) n) 41 1) 42 (n * 4096))) g
      { g with top := g.top + n, tag := update g.tag g.top (.large n) } (4096 * n) := by
  intro N B hbook
  constructor
  · have hruns := h.tagSum_update htop Tag.runs g.tag (.large n)
    have hpages := h.tagSum_update htop Tag.freePages g.tag (.large n)
    obtain ⟨h41, h42, h43, h44⟩ := hbook.counts
    simp only [hc.top_none, Tag.runs, Tag.freePages] at hruns hpages
    simp only [chunks, freeBytes] at h43 h44 ⊢
    refine ⟨?_, ?_, ?_, ?_⟩ <;>
      simp (disch := omega) only [hw_addWord, hw_st_pte, hview, View.hw_setHw, Nat.reduceEqDiff, if_true,
        if_false] <;> omega
  · have hpte : ∀ q ∈ g.runs, (h.view (Smm.addWord h.vir (Smm.addWord h.vir (st (st m₁
        (pteAddr (h.vir + 4096) g.top 0) 0) (pteAddr (h.vir + 4096) g.top 1) n) 41 1) 42 (n * 4096))).pte q 1 =
          (h.view m).pte q 1 := by
      intro q hq
      have hne := hc.run_ne_top (List.mem_cons_of_mem 0 hq)
      have hlt : n % 2 ^ 32 < 2 ^ 32 := Nat.mod_lt _ (by omega)
      rw [← st_mod _ _ n]
      simp (disch := omega) only [Smm.addWord, h.view_setWord, View.pte_setHw]
      rw [h.view_st_pte _ htop (by omega) hlt, h.view_st_pte _ htop (by omega) (by omega), hview]
      simp [hne]
    intro q hq
    have hne := hc.run_ne_top (List.mem_cons_of_mem 0 hq)
    rw [hpte q hq]
    simp only [update_of_ne hne]
    exact hbook.ordered q hq

theorem Core.growHeap_spec (hn : 0 < n) (hfit : 4096 * n + 4096 * g.top ≤ 2 ^ 32)
    (hm : growHeap s h.vir m (h.vir + 4096) n = .ret a m') :
    (a = 0 ∧ m' = m) ∨ ∃ p g', a = h.vir + 4096 * p ∧ h.Core (h.view m') g' ∧ Took g g' p n ∧
      h.Sold (h.view m) (h.view m') g g' (4096 * n) := by
  obtain ⟨hv, hp, h2⟩ := hc.top_lt
  have hmul : n * 4096 % 2 ^ 32 = 4096 * n := by omega
  simp only [growHeap, hmul] at hm
  split at hm
  · cases hm
  · cases hm
  · rename_i a₁ m₁ hmore
    rcases hc.morecore_spec hn hfit hmore with ⟨rfl, rfl⟩ | ⟨rfl, hsize, hview⟩
    · rw [if_pos rfl] at hm
      cases hm
      exact .inl ⟨rfl, rfl⟩
    · right
      rw [if_neg (by omega)] at hm
      have hgrown := hc.grow hsize
      rw [← hview] at hgrown
      have hle := h.size_le
      have hpc := h.pageCount_lt
      have hdiv : divPage (sub32 (h.vir + 4096 * g.top) (dataBase s h.vir m₁)) + 1 = g.top := by
        rw [hgrown.dataBase_eq, sub32_eq (by omega) hv, divPage_eq (by omega)]
        omega
      have htop : g.top < h.pageCount := by
        simp only [pageCount]
        omega
      simp only [hdiv] at hm
      cases hm
      have hnone := hc.top_none
      refine ⟨g.top, { g with top := g.top + n, tag := update g.tag g.top (.large n) }, rfl, ?_, ?_,
        hc.sold_grown htop hview⟩
      · refine Core.addWord (Core.addWord ?_ _ (by simp [Counter])) _ (by simp [Counter])
        rw [h.view_st_pte _ htop (by omega) (by omega), h.view_st_pte _ htop (by omega) (by omega)]
        refine hgrown.retag [g.top] rfl (fun _ _ _ => rfl) ?_ ?_ ?_ (fun q hq => ?_)
          (hgrown.ring.congr (fun q hq => ?_) (fun q hq => ?_)) hgrown.hint
        · refine hgrown.spans.set ?_ hn le_rfl fun q _ hq => .inl ?_
          · rcases hc.top with ⟨_, ht⟩ | ⟨_, ht, _⟩ <;> omega
          · exact (hc.spans.range q hq).2.2
        · have h0 : g.top ≠ 0 := by omega
          simp [hnone, h0]
        · simp [Tag.Entry, hc.mem_runs, hnone]
        · rw [List.mem_singleton] at hq
          exact ⟨update_of_ne hq .., Iff.rfl, by simp [hq], fun _ => by simp [hq]⟩
        · simp [hc.run_ne_top hq]
        · simp
      · refine ⟨rfl, update_self .., ?_, ?_, fun q k hq => ?_, fun q c hq => ?_⟩
        · rw [hnone]; simp
        · rw [hnone]; simp
        · simp only [update_of_ne hq]
        · simp only [update_of_ne hq]

theorem Core.takeRun_spec (hcur : g.tag cur = .free n) (hpos : 0 < needed) (hle : needed ≤ n) :
    ∃ g', h.Core (h.view (takeRun h.vir m (h.vir + 4096) cur needed)) g' ∧ Took g g' cur needed ∧
      h.Sold (h.view m) (h.view (takeRun h.vir m (h.vir + 4096) cur needed)) g g' (4096 * needed) := by
  rcases Nat.eq_or_lt_of_le hle with rfl | hlt
  · obtain ⟨l, hcore⟩ := hc.take_whole hcur
    refine ⟨_, hcore, ⟨rfl, update_self .., ?_, ?_, fun q k hq => ?_, fun q c hq => ?_⟩,
      hc.sold_whole hcur hcore⟩
    · rw [hcur]; simp
    · rw [hcur]; simp
    · simp only [update_of_ne hq]
    · simp only [update_of_ne hq]
  · obtain ⟨l, hcore⟩ := hc.take_split hcur hpos hlt
    have hinside := hc.inside_run hcur hpos hlt
    refine ⟨_, hcore, ⟨rfl, ?_, ?_, ?_, fun q k hq => ?_, fun q c hq => ?_⟩,
      hc.sold_split hcur hpos hlt hcore⟩
    · simp only
      rw [update_of_ne (by omega), update_self]
    · rw [hcur]; simp
    · rw [hcur]; simp
    all_goals
      by_cases hqs : q = cur + needed
      · simp [hqs, hinside]
      · simp only [update_of_ne hqs, update_of_ne hq]

theorem Core.not_lastAtBreak : ¬ LastAtBreak s h.vir m (h.vir + 4096) := by
  obtain ⟨hv, hp, h2⟩ := hc.top_lt
  have hlast := hc.ring.prev_mem (show (0 : Nat) ∈ 0 :: g.runs from List.mem_cons_self)
  have hlastlt := hc.run_lt hlast
  have hpc := h.pageCount_lt
  simp only [LastAtBreak, h.word_eq m (show 4 < 1024 by omega), hc.brkAddr_eq, hc.dataBase_eq,
    h.ld_pte m h.pageCount_pos (show 2 < 3 by omega), h.ld_pte m hlastlt (show 0 < 3 by omega)]
  rintro ⟨h4, hend, hstart⟩
  have hbelow : (h.view m).pte 0 2 < g.top := by
    rcases List.mem_cons.mp hlast with h0 | hrun
    · rw [h0]; omega
    · obtain ⟨k, hk⟩ := (hc.mem_runs _).mp hrun
      have := hc.spans.range _ (show g.tag ((h.view m).pte 0 2) ≠ .none by rw [hk]; simp)
      omega
  rw [pageAddr_eq (by omega)] at hstart
  omega

theorem Core.shmallocLarge_spec {fuel size : Nat} (hsize : 0 < size)
    (hfit : 4096 * ((size + 4095) / 4096) + 4096 * g.top ≤ 2 ^ 32)
    (hm : shmallocLarge s h.vir fuel m size = .ret a m') : (a = 0 ∧ m' = m) ∨
      ∃ p g', a = h.vir + 4096 * p ∧ h.Core (h.view m') g' ∧ Took g g' p ((size + 4095) / 4096) ∧
        h.Sold (h.view m) (h.view m') g g' (4096 * ((size + 4095) / 4096)) := by
  obtain ⟨hv, hp, h2⟩ := hc.top_lt
  have hmod : (size + 4095) % 2 ^ 32 / 4096 = (size + 4095) / 4096 := by omega
  have hn : 0 < (size + 4095) / 4096 := by omega
  simp only [shmallocLarge, hc.pageTable_eq, hmod, h.word_eq m (show 3 < 1024 by omega)] at hm
  generalize hneeded : (size + 4095) / 4096 = n at *
  cases fuel with
  | zero => cases hm
  | succ f =>
    simp only [largeLoop] at hm
    split at hm
    · cases hm
    · rename_i cur hfind
      obtain ⟨rfl, rfl⟩ := Out.ret.inj hm
      obtain ⟨k, htag, hle⟩ := hc.findRun_spec hn _ _ _ hc.hint hfind
      have hlt : h.vir + 4096 * cur < 2 ^ 32 := by
        have := hc.spans.range cur (by rw [htag]; simp)
        omega
      obtain ⟨g', hcore, htook, hsold⟩ := hc.takeRun_spec htag hn hle
      exact .inr ⟨cur, g', by rw [hc.dataBase_eq, pageAddr_eq hlt], hcore, htook, hsold⟩
    · rw [if_pos hc.not_lastAtBreak] at hm
      exact hc.growHeap_spec hn hfit hm

end

end Place
end H713.Smm
