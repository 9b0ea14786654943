import H713.Smm.Small
import Mathlib.Data.List.Perm.Subperm

/-!
# Smm.Malloc

`__shmalloc` on a heap in order: a call returns 0 and changes nothing, or it hands out a block (`Gave`).
-/

namespace H713.Smm.Place

open Function
open Dll

variable {s : Shm} {h : Place s} {v v' : View} {m : Mem} {g g' : Ghost} {p c : Nat}

/-- The block `b` has been handed out. -/
structure Gave (h : Place s) (g g' : Ghost) (b : Block) : Prop where
  holds : h.Holds g' b
  keeps : ∀ x, h.Holds g x → h.Holds g' x ∧ x.addr ≠ b.addr
  large : ∀ p n, g'.tag p = .large n → g.tag p = .large n ∨ b.addr = h.page p ∧ 2048 < b.size

variable {live : List Block} {n size a : Nat} {l : List Nat}

theorem LiveOk.gave {b : Block} (hl : h.LiveOk g live) (hg : Gave h g g' b) : h.LiveOk g' (b :: live) where
  holds := fun x hx => by
    rcases List.mem_cons.mp hx with rfl | hx
    · exact hg.holds
    · exact (hg.keeps x (hl.holds x hx)).1
  nodup := by
    refine List.nodup_cons.mpr ⟨fun hmem => ?_, hl.nodup⟩
    obtain ⟨x, hx, heq⟩ := List.mem_map.mp hmem
    exact (hg.keeps x (hl.holds x hx)).2 heq
  large := fun p n hp => by
    rcases hg.large p n hp with hp | hb
    · obtain ⟨x, hx, hxp⟩ := hl.large p n hp
      exact ⟨x, List.mem_cons_of_mem b hx, hxp⟩
    · exact ⟨b, List.mem_cons_self, hb⟩

theorem Took.keeps (ht : Took g g' p n) (hc : h.Core v g) {x : Block} (hx : h.Holds g x) :
    h.Holds g' x ∧ x.addr ≠ h.page p := by
  cases hx with
  | large q k htag haddr hbig hsize =>
    have hq : q ≠ p := by
      rintro rfl
      exact ht.not_large k htag
    refine ⟨.large q k ((ht.large_iff q k hq).mpr htag) haddr hbig hsize, ?_⟩
    rw [haddr]
    simp only [page]
    omega
  | small d hblock hsize hlive =>
    have hne := hc.block_ne_page hblock (ht.not_small d)
    refine ⟨.small d (hblock.mono fun q hq => ?_) hsize (by rw [ht.blocks]; exact hlive), ?_⟩
    · refine (ht.small_iff q d ?_).mpr hq
      rintro rfl
      exact ht.not_small d hq
    · simp only [page] at hne ⊢
      omega

theorem Took.gave (ht : Took g g' p n) (hc : h.Core v g) (hbig : 2048 < size) (hsize : size ≤ 4096 * n) :
    Gave h g g' ⟨h.page p, size⟩ where
  holds := .large p n ht.tag rfl hbig hsize
  keeps := fun _ hx => ht.keeps hc hx
  large := fun q k hq => by
    by_cases hqp : q = p
    · subst hqp
      exact .inr ⟨rfl, hbig⟩
    · exact .inl ((ht.large_iff q k hqp).mp hq)

theorem Took.gave_carved (ht : Took g g' p 1) (hc : h.Core v g)
    (hl : ∀ b ∈ l, b ∈ g'.blocks c ∨ h.page p < b ∧ b < h.page (p + 1)) (hcore : h.Core v' g')
    (hsize : size ≤ 2 ^ c) :
    Gave h g { g' with tag := update g'.tag p (.small c), blocks := update g'.blocks c l }
      ⟨h.page p, size⟩ where
  holds := by
    refine .small c ⟨p, 0, update_self .., Nat.two_pow_pos _, by simp⟩ hsize ?_
    simp only [update_self]
    intro hmem
    rcases hl _ hmem with hmem | ⟨hlt, _⟩
    · have hne := hcore.block_ne_page (p := p) (hcore.block c _ hmem).2 (by rw [ht.tag]; simp)
      simp only [page] at hne
      omega
    · omega
  keeps := fun x hx => by
    obtain ⟨hx, hne⟩ := ht.keeps hc hx
    refine ⟨?_, hne⟩
    cases hx with
    | large q k htag haddr hbig hsize =>
      refine .large q k ?_ haddr hbig hsize
      simp only
      rw [update_of_ne, htag]
      rintro rfl
      exact hne haddr
    | small d hblock hsize hlive =>
      refine .small d (hblock.mono fun q hq => ?_) hsize ?_
      · simp only
        rw [update_of_ne, hq]
        rintro rfl
        rw [ht.tag] at hq
        cases hq
      · by_cases hd : d = c
        · subst hd
          simp only [update_self]
          intro hmem
          rcases hl _ hmem with hmem | hin
          · exact hlive hmem
          · have := hcore.block_ne_page (p := p) hblock (by rw [ht.tag]; simp)
            omega
        · simp only [update_of_ne hd]
          exact hlive
  large := fun q k hq => by
    by_cases hqp : q = p
    · subst hqp
      simp only [update_self] at hq
      cases hq
    · simp only [update_of_ne hqp] at hq
      exact .inl ((ht.large_iff q k hqp).mp hq)

theorem Core.gave_popped (hc : h.Core v g) {b : Nat} (hl : g.blocks c = b :: l) (hsize : size ≤ 2 ^ c) :
    Gave h g { g with blocks := update g.blocks c l } ⟨b, size⟩ where
  holds := by
    have hnd := hc.block_nodup c
    rw [hl] at hnd
    refine .small c (hc.block c b (by rw [hl]; exact List.mem_cons_self)).2 hsize ?_
    simp only [update_self]
    exact (List.nodup_cons.mp hnd).1
  keeps := fun x hx => by
    have hmem : b ∈ g.blocks c := by rw [hl]; exact List.mem_cons_self
    have hat := (hc.block c b hmem).2
    cases hx with
    | large q k htag haddr hbig hsize =>
      refine ⟨.large q k htag haddr hbig hsize, ?_⟩
      have := hc.block_ne_page (p := q) hat (by rw [htag]; simp)
      rw [haddr]
      simp only [page] at this ⊢
      omega
    | small d hblock hsize hlive =>
      refine ⟨.small d hblock hsize ?_, ?_⟩
      · by_cases hd : d = c
        · subst hd
          simp only [update_self]
          intro hin
          exact hlive (by rw [hl]; exact List.mem_cons_of_mem b hin)
        · simp only [update_of_ne hd]
          exact hlive
      · rintro rfl
        rw [hc.class_unique hblock hat] at hlive
        exact hlive hmem
  large := fun _ _ hq => .inl hq

structure Charged (h : Place s) (v v' : View) (g g' : Ghost) (a : Nat) : Prop where
  held : ∀ x, h.Holds g x → h.held g' x.addr = h.held g x.addr
  sold : h.Sold v v' g g' (h.held g' a)

theorem Accounts.charged (ha : h.Accounts v g live) (hl : h.LiveOk g live) (hc : Charged h v v' g g' a) :
    h.Accounts v' g' (⟨a, size⟩ :: live) := by
  have hsame : (live.map fun b => h.held g' b.addr) = live.map fun b => h.held g b.addr :=
    List.map_congr_left fun b hb => hc.held b (hl.holds b hb)
  simp only [Accounts, List.length_cons, List.map_cons, List.sum_cons, hsame]
  rw [Nat.add_comm (h.held g' a)]
  exact hc.sold _ _ ha

theorem Took.held (ht : Took g g' p n) (hc : h.Core v g) {x : Block} (hx : h.Holds g x) :
    h.held g' x.addr = h.held g x.addr := by
  refine hc.held_keep hx (fun q k _ hq => (ht.large_iff q k ?_).mpr hq)
    fun q d hq => (ht.small_iff q d ?_).mpr hq
  · rintro rfl
    exact ht.not_large k hq
  · rintro rfl
    exact ht.not_small d hq

theorem Took.charged (ht : Took g g' p n) (hc : h.Core v g) (hs : h.Sold v v' g g' (4096 * n)) :
    Charged h v v' g g' (h.page p) where
  held := fun _ hx => ht.held hc hx
  sold := by
    rw [held_page ht.tag]
    exact hs

theorem Took.charged_carved {v₁ : View} (ht : Took g g' p 1) (hc : h.Core v g) (hs : h.Sold v v₁ g g' 4096)
    (hcore : h.Core v₁ g') (h12 : c ≤ 12) (hcut : ∀ n k, h.Booked v₁ g' n (k + 4096) → h.Booked v' { g' with
      tag := update g'.tag p (.small c), blocks := update g'.blocks c l } n (k + 2 ^ c)) : Charged h v v' g
      { g' with tag := update g'.tag p (.small c), blocks := update g'.blocks c l }
      (h.page p) where
  held := fun x hx => by
    obtain ⟨hx', hne⟩ := ht.keeps hc hx
    rw [← ht.held hc hx]
    refine hcore.held_keep hx' (fun q k haddr hq => ?_) fun q d hq => ?_
    · simp only
      rw [update_of_ne, hq]
      rintro rfl
      exact hne haddr
    · simp only
      rw [update_of_ne, hq]
      rintro rfl
      rw [ht.tag] at hq
      cases hq
  sold := by
    rw [held_block (c := c) h12 ⟨p, 0, update_self .., Nat.two_pow_pos _, by simp⟩]
    exact fun n k hb => hcut _ _ (hs n k hb)

theorem Core.charged_popped (hc : h.Core v g) {b : Nat} (hl : g.blocks c = b :: l)
    (hs : h.Sold v v' g { g with blocks := update g.blocks c l } (2 ^ c)) :
    Charged h v v' g { g with blocks := update g.blocks c l } b where
  held := fun _ _ => rfl
  sold := by
    have hat := (hc.block c b (by rw [hl]; exact List.mem_cons_self)).2
    obtain ⟨_, hf⟩ := hc.blockFacts hat
    have hat' : h.BlockAt { g with blocks := update g.blocks c l } c b := hat.mono fun _ hq => hq
    rw [held_block hf.le hat']
    exact hs

def OnFreeList (h : Place s) (v : View) (q : Nat) : Prop :=
  ∃ k < h.pageCount, (fun p => v.pte p 1)^[k] 0 = q

instance (v : View) (q : Nat) : Decidable (h.OnFreeList v q) :=
  inferInstanceAs (Decidable (∃ k < h.pageCount, _))

def PointsInside (h : Place s) (x : Nat) : Prop :=
  h.vir < s.toVir x ∧ s.toVir x < h.vir + h.size ∧ s.toVir x % 4 = 0
deriving Decidable

def CountOk (h : Place s) (v : View) (live : List Block) (b : Nat) : Prop :=
  h.countedPage b < h.pageCount ∧ ¬ h.OnFreeList v (h.countedPage b) ∧
    ∀ x ∈ live, x.addr = h.page (h.countedPage b) → x.size ≤ 2048
deriving Decidable

def HeadOk (h : Place s) (v : View) (live : List Block) (c : Nat) : Prop :=
  v.hw (2 * c + 17) = 0 ∨
    if c ≤ 11 then h.CountOk v live (v.hw (2 * c + 17)) else ¬ h.PointsInside (v.hw (2 * c + 17))
deriving Decidable

def MallocOk (h : Place s) (v : View) (live : List Block) (size : Nat) : Prop :=
  4096 * ((size + 4095) / 4096) + v.hw 45 ≤ 2 ^ 32 ∧
    (0 < size → size ≤ 2048 → h.HeadOk v live (sizeClass (max size 8)))
deriving Decidable

theorem Core.runs_length (hc : h.Core v g) : g.runs.length < h.pageCount := by
  have hsub : 0 :: g.runs ⊆ List.range h.pageCount := fun r hr => List.mem_range.mpr (hc.run_lt hr)
  have hlen := (List.Nodup.subperm hc.ring.nodup hsub).length_le
  rwa [List.length_range] at hlen

theorem Core.onFreeList (hc : h.Core v g) {q : Nat} (hq : q ∈ 0 :: g.runs) : h.OnFreeList v q := by
  obtain ⟨k, hk, heq⟩ := hc.ring.iterate_next hq
  have hlen := hc.runs_length
  rw [List.length_cons] at hk
  exact ⟨k, by omega, heq⟩

theorem Header.inBounds_iff {top : Nat} (hh : h.Header (h.view m) top) (a : Nat) :
    InBounds s h.vir m a ↔ h.vir < a ∧ a < h.vir + h.size := by
  have hve := h.vir_end
  have hbase : s.smmPhy2vir h.phy = h.vir := h.smmPhy2vir_add (o := 0) (by omega)
  simp only [InBounds, h.word_eq m (show 47 < 1024 by omega), h.word_eq m (show 46 < 1024 by omega), hh.phy,
    hh.size, hbase]
  rw [Nat.mod_eq_of_lt hve]

theorem Core.page_data (hc : h.Core v g) (hp : g.tag p ≠ .none) : h.IsData (h.page p) := by
  obtain ⟨hfirst, hlen, _⟩ := hc.spans.range p hp
  have hle := hc.page_le hp
  have hal := h.phy_aligned
  simp only [page] at hle ⊢
  refine ⟨?_, ?_, ?_⟩ <;> omega

theorem toVir_page (hp : h.IsData (h.page p)) : s.toVir (h.page p) = h.vir + 4096 * p := by
  rw [h.toVir_data hp]
  simp only [page]
  omega

theorem Core.shmallocSmall_spec (hc : h.Core (h.view m) g) (hl : h.LiveOk g live) {fuel : Nat} {m' : Mem}
    (h8 : 8 ≤ size) (hle : size ≤ 2048) (hn : n ≤ size)
    (hfit : 4096 + 4096 * g.top ≤ 2 ^ 32) (hhead : h.HeadOk (h.view m) live (sizeClass size))
    (hm : shmallocSmall s h.vir fuel m size = .ret a m') : (a = 0 ∧ m' = m) ∨
      ∃ b g', h.IsData b ∧ a = s.toVir b ∧ h.Core (h.view m') g' ∧ Gave h g g' ⟨b, n⟩ ∧
        Charged h (h.view m) (h.view m') g g' b := by
  obtain ⟨h4, h12, hroom⟩ := sizeClass_spec h8 hle
  simp only [shmallocSmall, hc.pageTable_eq] at hm
  generalize sizeClass size = c at *
  rw [h.word_eq m (show 2 * c + 17 < 1024 by omega)] at hm
  by_cases hz : (h.view m).hw (2 * c + 17) ≠ 0 ∧ s.toVir ((h.view m).hw (2 * c + 17)) ≠ 0
  · rw [if_pos hz] at hm
    cases hm
    have hok := hhead.resolve_left hz.1
    split at hok
    · rename_i h11
      obtain ⟨l, hlist⟩ := hc.list_cons h4 h11 hz.1
      obtain ⟨hq, hfree, hlarge⟩ := hok
      have hb := (hc.head_data h4 h11 hz.1).1
      have hnotlarge : ∀ k, g.tag (h.countedPage ((h.view m).hw (2 * c + 17))) ≠ .large k := by
        intro k hk
        obtain ⟨x, hx, haddr, hbig⟩ := hl.large _ k hk
        have := hlarge x hx haddr
        omega
      rcases hc.popBlock_spec h4 h11 hlist hq (fun hin => hfree (hc.onFreeList hin)) hnotlarge with
        hpop | ⟨m', hpop, hcore, hsold⟩
      · rw [hpop]
        exact .inl ⟨rfl, rfl⟩
      · rw [hpop]
        exact .inr ⟨_, _, hb, rfl, hcore, hc.gave_popped hlist (by omega), hc.charged_popped hlist hsold⟩
    · rename_i h11
      have hbad : ¬ (InBounds s h.vir m (s.toVir ((h.view m).hw (2 * c + 17))) ∧
          s.toVir ((h.view m).hw (2 * c + 17)) % 4 = 0) := by
        rintro ⟨hin, haligned⟩
        rw [hc.inBounds_iff] at hin
        exact hok ⟨hin.1, hin.2, haligned⟩
      rw [popBlock_refused hbad]
      exact .inl ⟨rfl, rfl⟩
  · rw [if_neg hz] at hm
    split at hm
    · cases hm
    · cases hm
    · rename_i page m₁ hpage
      rcases hc.shmallocLarge_spec (by omega) (by omega) hpage with
        ⟨rfl, rfl⟩ | ⟨p, g₁, rfl, hc₁, ht, hsold⟩
      · rw [if_pos rfl] at hm
        cases hm
        exact .inl ⟨rfl, rfl⟩
      · have hsome : g₁.tag p ≠ .none := by rw [ht.tag]; simp
        have hdata := hc₁.page_data hsome
        rw [← h.toVir_page hdata, if_neg (h.toVir_data_pos hdata), h.toVir_page hdata] at hm
        cases hm
        obtain ⟨l, hl, hcore, hcut⟩ := hc₁.carvePage_spec ht.tag h4 h12
        exact .inr ⟨_, _, hdata, (h.toVir_page hdata).symm, hcore,
          ht.gave_carved hc hl hc₁ (by omega), ht.charged_carved hc hsold hc₁ h12 hcut⟩

theorem Core.shmalloc_spec (hc : h.Core (h.view m) g) (hl : h.LiveOk g live) {fuel : Nat} {m' : Mem}
    (hok : h.MallocOk (h.view m) live size) (hm : shmalloc s h.vir fuel m size = .ret a m') : (a = 0 ∧ m' = m) ∨
      ∃ b g', h.IsData b ∧ a = s.toVir b ∧ h.Core (h.view m') g' ∧ Gave h g g' ⟨b, size⟩ ∧
        Charged h (h.view m) (h.view m') g g' b := by
  obtain ⟨hfit, hhead⟩ := hok
  rw [hc.brk] at hfit
  simp only [shmalloc] at hm
  split at hm
  · cases hm
    exact .inl ⟨rfl, rfl⟩
  · rename_i hpos
    split at hm
    · rename_i hbig
      rcases hc.shmallocLarge_spec (by omega) hfit hm with
        ⟨rfl, rfl⟩ | ⟨p, g', rfl, hcore, ht, hsold⟩
      · exact .inl ⟨rfl, rfl⟩
      · have hdata := hcore.page_data (p := p) (by rw [ht.tag]; simp)
        exact .inr ⟨_, g', hdata, (h.toVir_page hdata).symm, hcore, ht.gave hc (by omega) (by omega),
          ht.charged hc hsold⟩
    · rename_i hsmall
      have hmax : (if size ≤ 7 then 8 else size) = max size 8 := by
        split <;> omega
      rw [hmax] at hm
      exact hc.shmallocSmall_spec hl (by omega) (by omega) (by omega) (by omega)
        (hhead (by omega) (by omega)) hm

end H713.Smm.Place
