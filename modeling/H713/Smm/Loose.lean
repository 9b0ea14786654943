import H713.Smm.Serve

/-!
# Smm.Loose

A heap of whole pages whose blocks are freed in any order. `Trid_SMM_Free` then leaves links that are no list any
more; `Loose` is what stays.
-/

namespace H713.Smm.Place

open Bytes

variable {s : Shm} {h : Place s} {v : View} {m : Mem}

/-- The block `b` is the pages at `p`, which have not been freed. -/
structure Held (h : Place s) (v : View) (nodes : List Nat) (b : Block) (p : Nat) : Prop where
  addr : b.addr = h.page p
  new : p ∉ nodes
  first : h.firstPage ≤ p
  mark : v.pte p 0 = 0
  pos : 0 < v.pte p 1
  fits : 4096 * (p + v.pte p 1) ≤ h.size

theorem Held.congr {v' : View} {nodes : List Nat} {b : Block} {p : Nat} (hp : Held h v nodes b p)
    (hpte : v'.pte p = v.pte p) : Held h v' nodes b p :=
  ⟨hp.addr, hp.new, hp.first, by rw [hpte]; exact hp.mark, by rw [hpte]; exact hp.pos,
    by rw [hpte]; exact hp.fits⟩

structure Loose (h : Place s) (v : View) (live : List Block) (nodes : List Nat) (top used : Nat) : Prop
    extends Header h v top where
  lists : ∀ c, 4 ≤ c → c ≤ 11 → v.hw (2 * c + 17) = 0
  blocks : v.hw 41 = used % 2 ^ 32
  zero : 0 ∈ nodes
  sentinel : v.pte 0 0 = 0
  hint : v.hw 3 ∈ nodes
  links : ∀ q ∈ nodes, v.pte q 1 ∈ nodes ∧ v.pte q 2 ∈ nodes
  run : ∀ q ∈ nodes, q ≠ 0 → h.firstPage ≤ q ∧ 0 < v.pte q 0 ∧ 4096 * (q + v.pte q 0) ≤ h.size
  held : ∀ b ∈ live, ∃ p, Held h v nodes b p

variable {live : List Block} {nodes : List Nat} {top used : Nat}

namespace Loose

variable {q fuel n t x p target : Nat} {b : Block} {m' : Mem}

theorem node_lt (hl : h.Loose v live nodes top used) (hq : q ∈ nodes) : q < h.pageCount := by
  by_cases h0 : q = 0
  · rw [h0]
    exact h.pageCount_pos
  · have hrun := hl.run q hq h0
    simp only [pageCount]
    omega

theorem pte_lt (hl : h.Loose v live nodes top used) (hq : q ∈ nodes) : q + v.pte q 0 < 2 ^ 19 := by
  have hle := h.size_le
  by_cases h0 : q = 0
  · rw [h0, hl.sentinel]
    omega
  · have hrun := hl.run q hq h0
    omega

theorem findRun_node (hl : h.Loose (h.view m) live nodes top used) {needed start : Nat} (hn : 0 < needed) :
    ∀ {fuel cur r : Nat}, cur ∈ nodes → findRun m (h.vir + 4096) needed start fuel cur = some (some r) →
      r ∈ nodes ∧ r ≠ 0 := by
  intro fuel
  induction fuel with
  | zero =>
    intro cur r _ hf
    cases hf
  | succ f ih =>
    intro cur r hcur hf
    have hlt := hl.node_lt hcur
    simp only [findRun, h.ld_pte m hlt (show 0 < 3 by omega), h.ld_pte m hlt (show 1 < 3 by omega)] at hf
    split at hf
    · rename_i hle
      cases hf
      refine ⟨hcur, ?_⟩
      rintro rfl
      rw [hl.sentinel] at hle
      omega
    · split at hf
      · exact ih (hl.links cur hcur).1 hf
      · cases hf

theorem not_lastAtBreak (hl : h.Loose (h.view m) live nodes top used) : ¬ LastAtBreak s h.vir m (h.vir + 4096) := by
  obtain ⟨hv, hp, h2⟩ := hl.top_lt
  have hlast := (hl.links 0 hl.zero).2
  have hlt := hl.node_lt hlast
  have hpc := h.pageCount_lt
  have hsum := hl.pte_lt hlast
  simp only [LastAtBreak, h.word_eq m (show 4 < 1024 by omega), hl.brkAddr_eq, hl.dataBase_eq,
    h.ld_pte m h.pageCount_pos (show 2 < 3 by omega), h.ld_pte m hlt (show 0 < 3 by omega)]
  rintro ⟨h4, hend, hstart⟩
  have hword : (h.view m).hw 4 = top := by
    rcases hl.top with ⟨hz, _⟩ | ⟨hw, _⟩
    · exact absurd hz h4
    · exact hw
  by_cases h0 : (h.view m).pte 0 2 = 0
  · rw [h0, hl.sentinel] at hend
    omega
  · have hrun := hl.run _ hlast h0
    have hve := h.vir_end
    rw [pageAddr_eq (by omega)] at hstart
    omega

def Serves (h : Place s) (m : Mem) (top fuel n : Nat) : Prop :=
  ∃ found, findRun m (h.vir + 4096) n ((h.view m).hw 3) fuel ((h.view m).hw 3) = some found ∧
    (found = none → 4096 * (top + n) ≤ h.size)

theorem shmallocLarge_iff (hl : h.Loose (h.view m) live nodes top used) {size : Nat} (hsize : 0 < size)
    (hfit : 4096 * ((size + 4095) / 4096) + 4096 * top ≤ 2 ^ 32) :
    (∃ r m', shmallocLarge s h.vir (fuel + 1) m size = .ret r m' ∧ s.smmVir2phy r ≠ 0) ↔
      Serves h m top fuel ((size + 4095) / 4096) := by
  obtain ⟨hv, hp, h2⟩ := hl.top_lt
  have hmod : (size + 4095) % 2 ^ 32 / 4096 = (size + 4095) / 4096 := by omega
  have hn : 0 < (size + 4095) / 4096 := by omega
  simp only [shmallocLarge, hl.pageTable_eq, hmod, h.word_eq m (show 3 < 1024 by omega), largeLoop, Serves]
  generalize (size + 4095) / 4096 = n at *
  cases hfind : findRun m (h.vir + 4096) n ((h.view m).hw 3) fuel ((h.view m).hw 3) with
  | none => simp
  | some found =>
    cases found with
    | some cur =>
      obtain ⟨hcur, hne⟩ := hl.findRun_node hn hl.hint hfind
      have hrun := hl.run cur hcur hne
      have hfirst := h.two_le_firstPage
      have hve := h.vir_end
      have hpe := h.phy_end
      simp only [hl.dataBase_eq]
      rw [pageAddr_eq (by omega)]
      exact iff_of_true ⟨_, _, rfl, smmVir2phy_ne (h := h) (by omega) (by omega)⟩ ⟨_, rfl, by simp⟩
    | none =>
      have hmul : n * 4096 % 2 ^ 32 = 4096 * n := by omega
      simp only [if_pos hl.not_lastAtBreak, growHeap, hmul, hl.morecore_eq hn hfit]
      by_cases hroom : 4096 * (top + n) ≤ h.size
      · simp only [if_pos hroom]
        rw [if_neg (by omega)]
        exact iff_of_true ⟨_, _, rfl, page_phy_ne hl.toHeader h2 le_rfl⟩ ⟨none, rfl, fun _ => hroom⟩
      · simp only [if_neg hroom]
        refine iff_of_false ?_ ?_
        · rintro ⟨r, m', hret, hr⟩
          split at hret
          · cases hret
          · cases hret
          · rename_i hmore
            split at hmore
            · cases hmore
              rw [if_pos rfl] at hret
              rw [← (Out.ret.inj hret).1] at hr
              exact hr rfl
            · cases hmore
        · rintro ⟨found, hf, hnone⟩
          cases hf
          exact hroom (hnone rfl)

theorem findRun_mono {pt start : Nat} (hn : n ≤ t) : ∀ {fuel cur : Nat} {found : Option Nat},
    findRun m pt t start fuel cur = some found →
    ∃ found', findRun m pt n start fuel cur = some found' ∧ (found' = none → found = none) := by
  intro fuel
  induction fuel with
  | zero =>
    intro cur found hf
    cases hf
  | succ f ih =>
    intro cur found hf
    simp only [findRun] at hf ⊢
    by_cases hcur : n ≤ ld m (pteAddr pt cur 0)
    · rw [if_pos hcur]
      exact ⟨_, rfl, by simp⟩
    · rw [if_neg (by omega)] at hf
      rw [if_neg hcur]
      split at hf
      · rename_i hgo
        rw [if_pos hgo]
        exact ih hf
      · rename_i hstop
        rw [if_neg hstop]
        exact ⟨none, rfl, fun _ => (Option.some.inj hf).symm⟩

theorem Serves.mono (hs : Serves h m top fuel t) (hn : n ≤ t) : Serves h m top fuel n := by
  obtain ⟨found, hfind, hroom⟩ := hs
  obtain ⟨found', hfind', hnone⟩ := findRun_mono hn hfind
  refine ⟨found', hfind', fun hz => ?_⟩
  have := hroom (hnone hz)
  omega

theorem succeeds_iff {heaps : Heaps} (hslot : heaps.slot 0 = ⟨h.phy, h.size⟩)
    (hl : h.Loose (h.view heaps.mem) live nodes top 0) {size : Nat}
    (hfit : 4096 * ((size + 4095) / 4096) + 4096 * top ≤ 2 ^ 32) :
    Succeeds s (fuel + 1) heaps size ↔ 0 < size ∧ Serves h heaps.mem top fuel ((size + 4095) / 4096) := by
  rw [Place.succeeds_iff hslot, shmalloc]
  by_cases h0 : size = 0
  · rw [if_pos h0]
    refine iff_of_false ?_ fun hs => by omega
    rintro ⟨r, m', hret, hr⟩
    rw [← (Out.ret.inj hret).1] at hr
    exact hr rfl
  · rw [if_neg h0]
    have hpos : 0 < size := by omega
    split
    · rw [hl.shmallocLarge_iff hpos hfit]
      exact (and_iff_right hpos).symm
    · rename_i hsmall
      have hmax : (if size ≤ 7 then 8 else size) = max size 8 := by
        split <;> omega
      have hone : (size + 4095) / 4096 = (4096 + 4095) / 4096 := by omega
      obtain ⟨h4, h12, _⟩ := sizeClass_spec (show 8 ≤ max size 8 by omega) (by omega)
      have hempty : word h.vir heaps.mem (2 * sizeClass (max size 8) + 17) = 0 := by
        rw [h.word_eq _ (by omega)]
        by_cases h11 : sizeClass (max size 8) ≤ 11
        · exact hl.lists _ h4 h11
        · rw [show sizeClass (max size 8) = 12 by omega]
          exact hl.blocks
      rw [hmax, hone, and_iff_right hpos, ← hl.shmallocLarge_iff (by omega) (hone ▸ hfit)]
      simp only [shmallocSmall, hempty]
      rw [if_neg (by simp)]
      cases shmallocLarge s h.vir (fuel + 1) heaps.mem 4096 with
      | bug | spin => simp
      | ret page m' =>
        by_cases hz : page = 0
        · simp [hz, Shm.smmVir2phy]
        · simp [hz]

theorem change_hw {v' : View} {top' used' : Nat} (hl : h.Loose v live nodes top used) (hpte : v'.pte = v.pte)
    (hh : h.Header v' top') (hhw : ∀ k, 25 ≤ k → k ≤ 39 → v'.hw k = v.hw k) (hused : v'.hw 41 = used' % 2 ^ 32)
    (hhint : v'.hw 3 ∈ nodes) : h.Loose v' live nodes top' used' where
  toHeader := hh
  lists := fun c h4 h11 => (hhw _ (by omega) (by omega)).trans (hl.lists c h4 h11)
  blocks := hused
  zero := hl.zero
  sentinel := by rw [hpte]; exact hl.sentinel
  hint := hhint
  links := by rw [hpte]; exact hl.links
  run := by rw [hpte]; exact hl.run
  held := fun b hb => by
    obtain ⟨p, hp⟩ := hl.held b hb
    exact ⟨p, hp.congr (by rw [hpte])⟩

theorem setStat (hl : h.Loose (h.view m) live nodes top used) {k : Nat} (x : Nat) (h42 : 42 ≤ k) (h44 : k ≤ 44) :
    h.Loose (h.view (setWord h.vir m k x)) live nodes top used := by
  rw [h.view_setWord m x (by omega)]
  refine hl.change_hw rfl (hl.toHeader.congr fun i h3 hi => ?_) (fun i _ _ => ?_) ?_ ?_
  · rw [View.hw_setHw, if_neg (by omega)]
  · rw [View.hw_setHw, if_neg (by omega)]
  · rw [View.hw_setHw, if_neg (by omega), hl.blocks]
  · rw [View.hw_setHw, if_neg (by omega)]
    exact hl.hint

theorem setHint (hl : h.Loose (h.view m) live nodes top used) (hx : x ∈ nodes) :
    h.Loose (h.view (setWord h.vir m 3 x)) live nodes top used := by
  have hlt := hl.node_lt hx
  have hpc := h.pageCount_lt
  rw [h.view_setWord m x (by omega), Nat.mod_eq_of_lt (by omega)]
  refine hl.change_hw rfl (hl.toHeader.congr fun i h3 hi => ?_) (fun i _ _ => ?_) ?_ ?_
  · rw [View.hw_setHw, if_neg h3]
  · rw [View.hw_setHw, if_neg (by omega)]
  · rw [View.hw_setHw, if_neg (by omega), hl.blocks]
  · rw [View.hw_setHw, if_pos rfl]
    exact hx

theorem change_node {v' : View} (hl : h.Loose v live nodes top used) (hq : q ∈ nodes) (hhw : v'.hw = v.hw)
    (hother : ∀ p, p ≠ q → v'.pte p = v.pte p) (hzero : q = 0 → v'.pte 0 0 = 0)
    (hlinks : v'.pte q 1 ∈ nodes ∧ v'.pte q 2 ∈ nodes)
    (hrun : q ≠ 0 → 0 < v'.pte q 0 ∧ 4096 * (q + v'.pte q 0) ≤ h.size) : h.Loose v' live nodes top used where
  toHeader := hl.toHeader.congr fun k _ _ => by rw [hhw]
  lists := by rw [hhw]; exact hl.lists
  blocks := by rw [hhw]; exact hl.blocks
  zero := hl.zero
  sentinel := by
    by_cases h0 : q = 0
    · exact hzero h0
    · rw [hother 0 (Ne.symm h0)]
      exact hl.sentinel
  hint := by rw [hhw]; exact hl.hint
  links := fun p hp => by
    by_cases hpq : p = q
    · rw [hpq]
      exact hlinks
    · rw [hother p hpq]
      exact hl.links p hp
  run := fun p hp h0 => by
    by_cases hpq : p = q
    · subst hpq
      exact ⟨(hl.run p hp h0).1, hrun h0⟩
    · rw [hother p hpq]
      exact hl.run p hp h0
  held := fun b hb => by
    obtain ⟨p, hp⟩ := hl.held b hb
    exact ⟨p, hp.congr (hother p fun he => hp.new (he ▸ hq))⟩

theorem pte_setPte_of_ne {j : Nat} (hpq : p ≠ q) : (v.setPte q j x).pte p = v.pte p := by
  funext i
  rw [View.pte_setPte, if_neg fun he => hpq he.1]

section

variable (hl : h.Loose (h.view m) live nodes top used) (hq : q ∈ nodes)

include hl hq

theorem setLink {j : Nat} (hx : x ∈ nodes) (hj : j = 1 ∨ j = 2) :
    h.Loose (h.view (st m (pteAddr (h.vir + 4096) q j) x)) live nodes top used := by
  have hlt := hl.node_lt hx
  have hpc := h.pageCount_lt
  rw [h.view_st_pte m (hl.node_lt hq) (by omega) (by omega)]
  refine hl.change_node hq rfl (fun p hp => pte_setPte_of_ne hp) (fun h0 => ?_) ⟨?_, ?_⟩ fun h0 => ?_
  · rw [View.pte_setPte, if_neg (by omega)]
    exact hl.sentinel
  · rw [View.pte_setPte]
    split
    · exact hx
    · exact (hl.links q hq).1
  · rw [View.pte_setPte]
    split
    · exact hx
    · exact (hl.links q hq).2
  · rw [View.pte_setPte, if_neg (by omega)]
    exact (hl.run q hq h0).2

theorem setCount (h0 : q ≠ 0) (hpos : 0 < x) (hfits : 4096 * (q + x) ≤ h.size) :
    h.Loose (h.view (st m (pteAddr (h.vir + 4096) q 0) x)) live nodes top used := by
  have hle := h.size_le
  rw [h.view_st_pte m (hl.node_lt hq) (by omega) (by omega)]
  refine hl.change_node hq rfl (fun p hp => pte_setPte_of_ne hp) (fun hz => absurd hz h0) ?_ fun _ => ?_
  · simp only [View.pte_setPte, Nat.reduceEqDiff, and_false, if_false]
    exact hl.links q hq
  · rw [View.pte_setPte, if_pos ⟨rfl, rfl⟩]
    exact ⟨hpos, hfits⟩

end

theorem release (hl : h.Loose v live nodes top used) (a : Nat) :
    h.Loose v (live.filter fun b => b.addr ≠ a) nodes top used :=
  { hl with held := fun b hb => hl.held b (List.mem_filter.mp hb).1 }

theorem adopt (hl : h.Loose v live nodes top used) {y : Nat} (hp : Held h v nodes b p) (hx : x ∈ nodes)
    (hy : y ∈ nodes) :
    h.Loose (((v.setPte p 0 (v.pte p 1)).setPte p 1 x).setPte p 2 y) (live.filter fun b' => b'.addr ≠ b.addr)
      (p :: nodes) top used where
  toHeader := hl.toHeader.congr fun _ _ _ => rfl
  lists := hl.lists
  blocks := hl.blocks
  zero := List.mem_cons_of_mem p hl.zero
  sentinel := by
    have h0 : (0 : Nat) ≠ p := fun he => hp.new (he ▸ hl.zero)
    simp [h0, hl.sentinel]
  hint := List.mem_cons_of_mem p hl.hint
  links := fun q hq => by
    by_cases hqp : q = p
    · simp [hqp, hx, hy]
    · have hlinks := hl.links q ((List.mem_cons.mp hq).resolve_left hqp)
      simp [hqp, hlinks.1, hlinks.2]
  run := fun q hq h0 => by
    by_cases hqp : q = p
    · subst hqp
      simpa using ⟨hp.first, hp.pos, hp.fits⟩
    · simpa [hqp] using hl.run q ((List.mem_cons.mp hq).resolve_left hqp) h0
  held := fun b' hb' => by
    obtain ⟨hb', hne⟩ := List.mem_filter.mp hb'
    obtain ⟨p', hp'⟩ := hl.held b' hb'
    have hpp : p' ≠ p := by
      rintro rfl
      simp [hp'.addr, hp.addr] at hne
    refine ⟨p', hp'.addr, ?_, hp'.first, ?_, ?_, ?_⟩
    · rw [List.mem_cons, not_or]
      exact ⟨hpp, hp'.new⟩
    · simpa [hpp] using hp'.mark
    · simpa [hpp] using hp'.pos
    · simpa [hpp] using hp'.fits

theorem held_lt (hp : Held h v nodes b p) : p < h.pageCount := by
  have hpos := hp.pos
  have hfits := hp.fits
  simp only [pageCount]
  omega

section

variable (hl : h.Loose (h.view m) live nodes top used)

include hl

theorem joinPrev {prev : Nat} (hp : Held h (h.view m) nodes b p) (hprev : prev ∈ nodes) {r : Nat × Mem}
    (hr : Smm.joinPrev h.vir m (h.vir + 4096) p ((h.view m).pte p 1) prev = r) :
    ∃ nodes', (∀ q ∈ nodes, q ∈ nodes') ∧ r.1 ∈ nodes' ∧ r.1 ≠ 0 ∧
      h.Loose (h.view r.2) (live.filter fun b' => b'.addr ≠ b.addr) nodes' top used := by
  have hpc := h.pageCount_lt
  have hplt := held_lt hp
  have hprevlt := hl.node_lt hprev
  have hsum := hl.pte_lt hprev
  have hle := h.size_le
  have h2 := h.two_le_firstPage
  have hfirst := hp.first
  have hpos := hp.pos
  have hfits := hp.fits
  have hne : prev ≠ p := fun he => hp.new (he ▸ hprev)
  simp only [Smm.joinPrev, h.ld_pte m hprevlt (show 0 < 3 by omega)] at hr
  split at hr
  · rename_i hadj
    subst hr
    have h0 : prev ≠ 0 := by
      rintro rfl
      rw [hl.sentinel] at hadj
      omega
    refine ⟨nodes, fun _ hq => hq, hprev, h0, (hl.setCount hprev h0 ?_ ?_).release b.addr⟩
    · omega
    · rw [Nat.mod_eq_of_lt (by omega)] at hadj
      omega
  · subst hr
    have hview₁ := h.view_st_pte m hplt (show 0 < 3 by omega) (show (h.view m).pte p 1 < 2 ^ 32 by omega)
    have hnext : ld (st m (pteAddr (h.vir + 4096) p 0) ((h.view m).pte p 1)) (pteAddr (h.vir + 4096) prev 1) =
        (h.view m).pte prev 1 := by
      rw [h.ld_pte _ hprevlt (by omega), hview₁, pte_setPte_of_ne hne]
    have hnextlt := hl.node_lt (hl.links prev hprev).1
    have hview : h.view (st (st (st m (pteAddr (h.vir + 4096) p 0) ((h.view m).pte p 1))
        (pteAddr (h.vir + 4096) p 1) ((h.view m).pte prev 1)) (pteAddr (h.vir + 4096) p 2) prev) =
        (((h.view m).setPte p 0 ((h.view m).pte p 1)).setPte p 1 ((h.view m).pte prev 1)).setPte p 2 prev := by
      rw [h.view_st_pte _ hplt (by omega) (by omega), h.view_st_pte _ hplt (by omega) (by omega), hview₁]
    have hadopted := hl.adopt hp (hl.links prev hprev).1 hprev
    rw [← hview] at hadopted
    have hprev' := List.mem_cons_of_mem p hprev
    have hp' : p ∈ p :: nodes := List.mem_cons_self
    refine ⟨p :: nodes, fun q hq => List.mem_cons_of_mem p hq, hp', by omega, ?_⟩
    simp only [hnext]
    have hlinked := hadopted.setLink hprev' hp' (j := 1) (by omega)
    refine (hlinked.setLink ?_ hp' (j := 2) (by omega)).setStat _ (by omega) (by omega)
    rw [h.ld_pte _ hprevlt (by omega)]
    exact (hlinked.links prev hprev').2

theorem joinNext {merged cur : Nat} (hm : merged ∈ nodes) (h0 : merged ≠ 0) (hcur : cur ∈ nodes) :
    h.Loose (h.view (Smm.joinNext h.vir m (h.vir + 4096) merged cur)) live nodes top used := by
  have hmlt := hl.node_lt hm
  have hclt := hl.node_lt hcur
  have hsum := hl.pte_lt hm
  have hrun := hl.run merged hm h0
  simp only [Smm.joinNext, h.ld_pte m hmlt (show 0 < 3 by omega), h.ld_pte m hclt (show 0 < 3 by omega)]
  split
  · rename_i hadj
    rw [Nat.mod_eq_of_lt (by omega)] at hadj
    have hc0 : cur ≠ 0 := by omega
    have hcrun := hl.run cur hcur hc0
    have hcount := hl.setCount hm h0 (show 0 < (h.view m).pte merged 0 + (h.view m).pte cur 0 by omega) (by omega)
    have hnext := (hcount.links cur hcur).1
    rw [← h.ld_pte _ hclt (by omega)] at hnext
    exact ((hcount.setLink hm hnext (.inl rfl)).setLink hnext hm (.inr rfl)).setStat _ (by omega) (by omega)
  · exact hl

theorem setBreak (hp : p ∈ nodes) (h0 : p ≠ 0) (hview : h.view m' = ((h.view m).setHw 4 p).setHw 45 (4096 * p)) :
    h.Loose (h.view m') live nodes p used := by
  have hrun := hl.run p hp h0
  rw [hview]
  refine hl.change_hw rfl ?_ (fun k h25 h39 => ?_) ?_ ?_
  · exact {
      base0 := by simpa using hl.base0, base1 := by simpa using hl.base1, count := by simpa using hl.count,
      size := by simpa using hl.size, phy := by simpa using hl.phy, brk := by simp,
      top := .inr ⟨by simp, hrun.1, by omega⟩ }
  · rw [View.hw_setHw, View.hw_setHw, if_neg (by omega), if_neg (by omega)]
  · simpa using hl.blocks
  · simpa using hl.hint

end

theorem shmallocBrk_back (hbrk : (h.view m).hw 45 = 4096 * (t + n)) (hend : (h.view m).hw 46 = h.size) (hn : 0 < n)
    (hle : 4096 * (t + n) ≤ h.size) :
    (shmallocBrk s h.vir m (sub32 0 (n * 4096))).2 = setWord h.vir m 45 (4096 * t) := by
  have hsize := h.size_le
  have hneg : sub32 0 (n * 4096) = 2 ^ 32 - 4096 * n := by
    simp only [sub32]
    omega
  have hnew : (2 ^ 32 - 4096 * n + 4096 * (t + n)) % 2 ^ 32 = 4096 * t := by omega
  have hint : ¬ toI32 (4096 * t) > toI32 h.size := by
    simp only [toI32]
    rw [if_pos (by omega), if_pos (by omega)]
    omega
  simp only [shmallocBrk, h.word_eq m (show 45 < 1024 by omega), h.word_eq m (show 46 < 1024 by omega), hbrk, hend,
    hneg, hnew]
  rw [if_pos (by omega), if_neg hint]

section

variable (hl : h.Loose (h.view m) live nodes top used)

include hl

theorem trim_cases (hp : p ∈ nodes) (h0 : p ≠ 0) : Smm.trim s h.vir m (h.vir + 4096) p = m ∨
      top = p + (h.view m).pte p 0 ∧ ∃ m₁ m₂ m₃ x, h.view m₁ = ((h.view m).setHw 4 p).setHw 45 (4096 * p) ∧
        m₂ = st m₁ (pteAddr (h.vir + 4096) (ld m₁ (pteAddr (h.vir + 4096) p 2)) 1)
          (ld m₁ (pteAddr (h.vir + 4096) p 1)) ∧
        m₃ = st m₂ (pteAddr (h.vir + 4096) (ld m₂ (pteAddr (h.vir + 4096) p 1)) 2)
          (ld m₂ (pteAddr (h.vir + 4096) p 2)) ∧
        Smm.trim s h.vir m (h.vir + 4096) p = subWord h.vir (subWord h.vir m₃ 43 1) 44 x := by
  have hplt := hl.node_lt hp
  have hrun := hl.run p hp h0
  have hsum := hl.pte_lt hp
  have hve := h.vir_end
  have hle := h.size_le
  obtain ⟨hv, _, h2⟩ := hl.top_lt
  simp only [Smm.trim, h.ld_pte m hplt (show 0 < 3 by omega), hl.brkAddr_eq, hl.dataBase_eq,
    h.word_eq m (show 4 < 1024 by omega)]
  split
  · rename_i hend
    split
    · rename_i hbrk
      rw [Nat.mod_eq_of_lt (by omega)] at hend
      have htop : top = p + (h.view m).pte p 0 := by
        rw [pageAddr_eq (by omega)] at hbrk
        omega
      have hsub : h.view (Smm.subWord h.vir m 4 ((h.view m).pte p 0)) = (h.view m).setHw 4 p := by
        rw [Smm.subWord, h.view_setWord m _ (by omega), h.word_eq m (by omega), ← hend.2, sub32_mod,
          sub32_eq (by omega) (by omega), Nat.add_sub_cancel]
      have hback := shmallocBrk_back (t := p) (m := Smm.subWord h.vir m 4 ((h.view m).pte p 0))
        (by rw [hsub]; simpa [htop] using hl.brk) (by rw [hsub]; simpa using hl.size) (by omega) hrun.2.2
      refine .inr ⟨htop, _, _, _, _, ?_, rfl, rfl, rfl⟩
      rw [hback, h.view_setWord _ _ (by omega), hsub, Nat.mod_eq_of_lt (by omega)]
    · exact .inl rfl
  · exact .inl rfl

theorem trim (hp : p ∈ nodes) (h0 : p ≠ 0) :
    ∃ top', h.Loose (h.view (Smm.trim s h.vir m (h.vir + 4096) p)) live nodes top' used := by
  have hplt := hl.node_lt hp
  rcases hl.trim_cases hp h0 with htrim | ⟨_, m₁, m₂, m₃, x, hview, rfl, rfl, htrim⟩
  · exact ⟨top, by rw [htrim]; exact hl⟩
  · have hlow := hl.setBreak hp h0 hview
    have hback := hlow.links p hp
    rw [← h.ld_pte m₁ hplt (show 1 < 3 by omega), ← h.ld_pte m₁ hplt (show 2 < 3 by omega)] at hback
    have hskip := hlow.setLink hback.2 hback.1 (.inl rfl)
    generalize st m₁ (pteAddr (h.vir + 4096) (ld m₁ (pteAddr (h.vir + 4096) p 2)) 1)
      (ld m₁ (pteAddr (h.vir + 4096) p 1)) = m₂ at hskip htrim
    have hforth := hskip.links p hp
    rw [← h.ld_pte m₂ hplt (show 1 < 3 by omega), ← h.ld_pte m₂ hplt (show 2 < 3 by omega)] at hforth
    rw [htrim]
    exact ⟨p, ((hskip.setLink hforth.1 hforth.2 (.inr rfl)).setStat _ (by omega) (by omega)).setStat _ (by omega)
      (by omega)⟩

theorem walkForward_node : ∀ {fuel cur r : Nat},
    cur ∈ nodes → walkForward m (h.vir + 4096) target fuel cur = some r → r ∈ nodes := by
  intro fuel
  induction fuel with
  | zero =>
    intro cur r _ hw
    cases hw
  | succ f ih =>
    intro cur r hcur hw
    have hnext := (hl.links cur hcur).1
    simp only [walkForward, h.ld_pte m (hl.node_lt hcur) (show 1 < 3 by omega)] at hw
    split at hw
    · cases hw
      exact hl.zero
    · split at hw
      · exact ih hnext hw
      · cases hw
        exact hnext

theorem walkBackward_node : ∀ {fuel cur r : Nat},
    cur ∈ nodes → walkBackward m (h.vir + 4096) target fuel cur = some r → r ∈ nodes := by
  intro fuel
  induction fuel with
  | zero =>
    intro cur r _ hw
    cases hw
  | succ f ih =>
    intro cur r hcur hw
    have hprev := (hl.links cur hcur).2
    simp only [walkBackward, h.ld_pte m (hl.node_lt hcur) (show 2 < 3 by omega)] at hw
    split at hw
    · exact ih hprev hw
    · cases hw
      exact hprev

theorem searchPlace_node {r : Nat} (hs : searchPlace m (h.vir + 4096) target ((h.view m).hw 3) fuel = some r) :
    r ∈ nodes := by
  simp only [searchPlace] at hs
  split at hs
  · exact hl.walkForward_node hl.hint hs
  · obtain ⟨cur, hcur, rfl⟩ := Option.map_eq_some_iff.mp hs
    have hprev := (hl.links cur (hl.walkBackward_node hl.hint hcur)).2
    rw [h.ld_pte m (hl.node_lt (hl.walkBackward_node hl.hint hcur)) (by omega),
      h.ld_pte m (hl.node_lt hprev) (by omega)]
    exact (hl.links _ hprev).1

theorem freeRun {u : Unit} (hp : Held h (h.view m) nodes b p) (hn : (h.view m).pte p 1 = n)
    (hm : Smm.freeRun s h.vir fuel m (h.vir + 4096) p n = .ret u m') :
    ∃ nodes' top', h.Loose (h.view m') (live.filter fun b' => b'.addr ≠ b.addr) nodes' top' used := by
  simp only [Smm.freeRun] at hm
  have hpte : (h.view (addWord h.vir (subWord h.vir m 42 (n * 4096)) 44 (n * 4096))).pte = (h.view m).pte := by
    simp (disch := omega) only [Smm.addWord, Smm.subWord, h.view_setWord, View.pte_setHw]
  have hl₁ : h.Loose (h.view (addWord h.vir (subWord h.vir m 42 (n * 4096)) 44 (n * 4096))) live nodes top used :=
    (hl.setStat _ (show 42 ≤ 42 by omega) (by omega)).setStat _ (by omega) (by omega)
  generalize addWord h.vir (subWord h.vir m 42 (n * 4096)) 44 (n * 4096) = m₁ at hm hpte hl₁
  have hp₁ := hp.congr (congrFun hpte p)
  rw [← hn, ← hpte, h.word_eq m₁ (by omega)] at hm
  split at hm
  · cases hm
  · rename_i cur hcur
    cases hm
    have hnode := hl₁.searchPlace_node hcur
    have hprev := (hl₁.links cur hnode).1
    rw [← h.ld_pte m₁ (hl₁.node_lt hnode) (by omega)] at hprev
    obtain ⟨nodes', hsub, hmem, hne, hjoined⟩ := hl₁.joinPrev hp₁ hprev rfl
    obtain ⟨top', htrim⟩ := (hjoined.joinNext hmem hne (hsub cur hnode)).trim hmem hne
    exact ⟨nodes', top', htrim.setHint hmem⟩

end

section

variable (hl : h.Loose (h.view m) live nodes top (used + 1))

include hl

theorem uncount : h.view (subWord h.vir m 41 1) = (h.view m).setHw 41 (sub32 ((h.view m).hw 41) 1) ∧
      h.Loose (h.view (subWord h.vir m 41 1)) live nodes top used := by
  have hview : h.view (subWord h.vir m 41 1) = (h.view m).setHw 41 (sub32 ((h.view m).hw 41) 1) := by
    rw [Smm.subWord, h.view_setWord m _ (by omega), h.word_eq m (by omega), sub32_mod]
  refine ⟨hview, ?_⟩
  rw [hview]
  refine hl.change_hw rfl (hl.toHeader.congr fun i h3 hi => ?_) (fun i _ _ => ?_) ?_ ?_
  · rw [View.hw_setHw, if_neg (by omega)]
  · rw [View.hw_setHw, if_neg (by omega)]
  · rw [View.hw_setHw, if_pos rfl, hl.blocks, sub32]
    omega
  · rw [View.hw_setHw, if_neg (by omega)]
    exact hl.hint

theorem shfree_eq (hp : Held h (h.view m) nodes b p) (fuel : Nat) : Smm.shfree s h.vir fuel m (s.toVir b.addr) =
      Smm.freeRun s h.vir fuel (subWord h.vir m 41 1) (h.vir + 4096) p ((h.view m).pte p 1) := by
  have hplt := held_lt hp
  have hfirst := hp.first
  have hpos := hp.pos
  have hfits := hp.fits
  have h2 := h.two_le_firstPage
  have hve := h.vir_end
  have hvir : s.toVir b.addr = h.vir + 4096 * p := by
    rw [hp.addr, page, h.toVir_add (by omega)]
  have hidx : sub32 (h.vir + 4096 * p) (h.vir + 4096) / 4096 + 1 = p := by
    rw [sub32_eq (by omega) (by omega)]
    omega
  have hpte : (h.view (subWord h.vir m 41 1)).pte = (h.view m).pte := by rw [hl.uncount.1, View.pte_setHw]
  simp only [Smm.shfree, hl.pageTable_eq, hl.dataBase_eq, hvir, hidx]
  rw [h.ld_pte _ hplt (by omega), h.ld_pte _ hplt (by omega), hpte, if_pos hp.mark]

theorem shfree {u : Unit} (hb : b ∈ live) (hm : Smm.shfree s h.vir fuel m (s.toVir b.addr) = .ret u m') :
    ∃ nodes' top', h.Loose (h.view m') (live.filter fun b' => b'.addr ≠ b.addr) nodes' top' used := by
  obtain ⟨p, hp⟩ := hl.held b hb
  obtain ⟨hview, hl₁⟩ := hl.uncount
  rw [hl.shfree_eq hp] at hm
  have hpte : (h.view (subWord h.vir m 41 1)).pte = (h.view m).pte := by rw [hview, View.pte_setHw]
  exact hl₁.freeRun (hp.congr (congrFun hpte p)) (by rw [hpte]) hm

end

end Loose
end H713.Smm.Place
