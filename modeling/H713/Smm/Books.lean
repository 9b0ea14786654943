import H713.Lib.Sums
import H713.Smm.Inv

/-!
# Smm.Books

The bookkeeping of the allocator: the order of the free runs and the four counters `heap[41]` to `heap[44]`.
-/

namespace H713.Smm

open Dll

namespace Tag

def runs : Tag → Nat
  | free _ => 1
  | _ => 0

def freePages : Tag → Nat
  | free n => n
  | _ => 0

end Tag

structure Counts (v : View) (live bytes chunks free : Nat) : Prop where
  live : v.hw 41 = live % 2 ^ 32
  bytes : v.hw 42 = bytes % 2 ^ 32
  chunks : v.hw 43 = chunks % 2 ^ 32
  free : v.hw 44 = free % 2 ^ 32

theorem Counts.congr {v v' : View} {n b k f : Nat} (hc : Counts v n b k f)
    (hhw : ∀ i, 41 ≤ i → i ≤ 44 → v'.hw i = v.hw i) : Counts v' n b k f where
  live := (hhw 41 (by omega) (by omega)).trans hc.live
  bytes := (hhw 42 (by omega) (by omega)).trans hc.bytes
  chunks := (hhw 43 (by omega) (by omega)).trans hc.chunks
  free := (hhw 44 (by omega) (by omega)).trans hc.free

namespace Place

variable {s : Shm} (h : Place s)

def tagSum (F : Tag → Nat) (tag : Nat → Tag) : Nat := ∑ p ∈ Finset.range h.pageCount, F (tag p)

def classSum (w : Nat → Nat) (blocks : Nat → List Nat) : Nat :=
  ∑ c ∈ Finset.Icc 4 11, w c * (blocks c).length

def chunks (g : Ghost) : Nat := h.tagSum Tag.runs g.tag + classSum (fun _ => 1) g.blocks

def freeBytes (g : Ghost) : Nat :=
  4096 * h.tagSum Tag.freePages g.tag + classSum (fun c => 2 ^ c) g.blocks

def Ordered (v : View) (g : Ghost) : Prop :=
  ∀ p ∈ g.runs, v.pte p 1 = 0 ∨ p + (g.tag p).len < v.pte p 1

structure Booked (v : View) (g : Ghost) (n b : Nat) : Prop where
  counts : Counts v n b (h.chunks g) (h.freeBytes g)
  ordered : Ordered v g

def Sold (v v' : View) (g g' : Ghost) (b : Nat) : Prop :=
  ∀ n k, h.Booked v g n k → h.Booked v' g' (n + 1) (k + b)

def Returned (v v' : View) (g g' : Ghost) (b : Nat) : Prop :=
  ∀ n k, h.Booked v g (n + 1) (k + b) → h.Booked v' g' n k

def held (g : Ghost) (a : Nat) : Nat :=
  match g.tag ((a - h.phy) / 4096) with
  | .large n => 4096 * n
  | .small c => 2 ^ c
  | _ => 0

def Accounts (v : View) (g : Ghost) (live : List Block) : Prop :=
  h.Booked v g live.length (live.map fun b => h.held g b.addr).sum

theorem tagSum_update {p : Nat} (hp : p < h.pageCount) (F : Tag → Nat) (tag : Nat → Tag) (t : Tag) :
    h.tagSum F (Function.update tag p t) + F (tag p) = h.tagSum F tag + F t :=
  Sums.sum_update (Finset.mem_range.mpr hp) (fun _ => F) tag t

theorem classSum_update {c : Nat} (h4 : 4 ≤ c) (h11 : c ≤ 11) (w : Nat → Nat) (blocks : Nat → List Nat)
    (l : List Nat) : classSum w (Function.update blocks c l) + w c * (blocks c).length =
      classSum w blocks + w c * l.length :=
  Sums.sum_update (Finset.mem_Icc.mpr ⟨h4, h11⟩) (fun i l => w i * l.length) blocks l

section

variable {h} {v v' : View} {m : Mem} {g g' : Ghost}

theorem Core.ordered_prev (hc : h.Core v g) (ho : Ordered v g) {p q : Nat} (hp : p ∈ g.runs)
    (hq : q ∈ g.runs) (hpq : q = v.pte p 2) : q + (g.tag q).len < p := by
  have hnext : v.pte q 1 = p := by
    rw [hpq]
    exact hc.ring.next_prev (List.mem_cons_of_mem 0 hp)
  have hp0 : p ≠ 0 := fun h0 => (List.nodup_cons.mp hc.ring.nodup).1 (h0 ▸ hp)
  rcases ho q hq with h0 | hlt
  · exact absurd (hnext.symm.trans h0) hp0
  · rwa [hnext] at hlt

theorem sub32_mod (x y : Nat) : sub32 x y % 2 ^ 32 = sub32 x y := by
  simp only [sub32, Nat.mod_mod]

theorem hw_addWord {k : Nat} (hk : k < 1024) (x i : Nat) : (h.view (addWord h.vir m k x)).hw i =
      if i = k then ((h.view m).hw k + x) % 2 ^ 32 else (h.view m).hw i := by
  rw [addWord, h.view_setWord m _ hk, View.hw_setHw, h.word_eq m hk]

theorem hw_subWord {k : Nat} (hk : k < 1024) (x i : Nat) : (h.view (subWord h.vir m k x)).hw i =
      if i = k then sub32 ((h.view m).hw k) x else (h.view m).hw i := by
  rw [subWord, h.view_setWord m _ hk, View.hw_setHw, h.word_eq m hk, sub32_mod]

theorem hw_st_pte {p j : Nat} (hp : p < h.pageCount) (hj : j < 3) (x : Nat) :
    (h.view (st m (pteAddr (h.vir + 4096) p j) x)).hw = (h.view m).hw := by
  rw [← st_mod, h.view_st_pte m hp hj (Nat.mod_lt _ (by omega)), View.hw_setPte]

theorem pte_st_pte {p q i : Nat} (hp : p < h.pageCount) (hi : i < 3) (hne : q ≠ p) (x j : Nat) :
    (h.view (st m (pteAddr (h.vir + 4096) p i) x)).pte q j = (h.view m).pte q j := by
  rw [← st_mod, h.view_st_pte m hp hi (Nat.mod_lt _ (by omega)), View.pte_setPte, if_neg fun he => hne he.1]

theorem Core.blockBytes_eq (hc : h.Core v g) {b : Block} (hb : h.Holds g b) :
    h.blockBytes v b.addr = h.held g b.addr := by
  obtain ⟨p, he⟩ := hc.extent hb
  have hge := he.ge
  have hroom : b.addr < h.page (p + 1) ∧ (b.addr - h.phy) / 4096 = p := by
    rcases he.kind with ⟨n, htag, haddr⟩ | ⟨c, htag, hblock, hbytes⟩
    · rw [haddr]
      simp only [page]
      omega
    · obtain ⟨q, hf⟩ := hc.blockFacts hblock
      have hle := he.le
      have hw := hf.wide
      rw [hbytes, htag] at hle
      simp only [page, Tag.len] at hle hge ⊢
      omega
  rw [blockBytes_page hge hroom.1, held, hroom.2]
  rcases he.kind with ⟨n, htag, -⟩ | ⟨c, htag, -, -⟩
  · obtain ⟨h0, h1⟩ := hc.large htag
    rw [htag, h0, h1]
    rfl
  · obtain ⟨h0, h4, -⟩ := hc.small htag
    rw [htag, h0, if_neg (by omega)]

theorem held_page {p n : Nat} (hp : g.tag p = .large n) : h.held g (h.page p) = 4096 * n := by
  have hidx : (h.page p - h.phy) / 4096 = p := by
    simp only [page]
    omega
  simp only [held, hidx, hp]

theorem held_block {c b : Nat} (h12 : c ≤ 12) (hb : h.BlockAt g c b) : h.held g b = 2 ^ c := by
  obtain ⟨p, j, htag, hj, rfl⟩ := hb
  have hend := block_end h12 hj
  have hpos := Nat.two_pow_pos c
  have hidx : (h.page p + j * 2 ^ c - h.phy) / 4096 = p := by
    simp only [page]
    omega
  simp only [held, hidx, htag]

theorem Core.held_keep (hc : h.Core v g) {b : Block} (hb : h.Holds g b)
    (hlarge : ∀ p n, b.addr = h.page p → g.tag p = .large n → g'.tag p = .large n)
    (hsmall : ∀ p c, g.tag p = .small c → g'.tag p = .small c) : h.held g' b.addr = h.held g b.addr := by
  cases hb with
  | large p n htag haddr hbig hsize =>
    rw [haddr, held_page htag, held_page (hlarge p n haddr htag)]
  | small c hblock hsize hlive =>
    obtain ⟨p, hf⟩ := hc.blockFacts hblock
    rw [held_block hf.le hblock, held_block hf.le (hblock.mono fun q => hsmall q c)]

end

end Place

end H713.Smm
