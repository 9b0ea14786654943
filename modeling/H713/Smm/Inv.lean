import H713.Lib.Dll
import H713.Smm.View

/-!
# Smm.Inv

What the allocator's data structures mean. `Ghost` says for every page what starts there, and lists the free runs
and the free blocks of each class.
-/

namespace H713.Smm

open Function
open Dll

inductive Tag where
  | none
  | free (n : Nat)
  | large (n : Nat)
  | small (c : Nat)

namespace Tag

def len : Tag → Nat
  | none => 0
  | free n => n
  | large n => n
  | small _ => 1

def Entry (e : Nat → Nat) : Tag → Prop
  | none => True
  | free n => e 0 = n
  | large n => e 0 = 0 ∧ e 1 = n
  | small c => e 0 = c ∧ 4 ≤ c ∧ c ≤ 12

theorem Entry.congr {e e' : Nat → Nat} {t : Tag} (h : t.Entry e) (h0 : e' 0 = e 0)
    (h1 : ∀ n, t = large n → e' 1 = e 1) : t.Entry e' := by
  cases t with
  | none => trivial
  | free n => exact h0.trans h
  | large n => exact ⟨h0.trans h.1, (h1 n rfl).trans h.2⟩
  | small c => exact ⟨h0.trans h.1, h.2⟩

end Tag

structure Spans (first top : Nat) (tag : Nat → Tag) : Prop where
  range : ∀ p, tag p ≠ .none → first ≤ p ∧ 0 < (tag p).len ∧ p + (tag p).len ≤ top
  apart : ∀ p q, tag p ≠ .none → tag q ≠ .none → p < q → p + (tag p).len ≤ q

namespace Spans

variable {first top : Nat} {tag : Nat → Tag}

theorem clear (h : Spans first top tag) (p : Nat) : Spans first top (update tag p .none) := by
  have htag : ∀ q, update tag p .none q ≠ .none → update tag p .none q = tag q := by
    intro q hq
    by_cases hqp : q = p
    · rw [hqp, update_self] at hq
      exact absurd rfl hq
    · exact update_of_ne hqp ..
  refine ⟨fun q hq => ?_, fun q r hq hr hqr => ?_⟩
  · have heq := htag q hq
    rw [heq] at hq ⊢
    exact h.range q hq
  · have heq := htag q hq
    rw [heq] at hq ⊢
    exact h.apart q r hq (htag r hr ▸ hr) hqr

variable {p : Nat} {t : Tag}

theorem set (h : Spans first top tag) (hfirst : first ≤ p) (hpos : 0 < t.len) (htop : p + t.len ≤ top)
    (hfree : ∀ q, q ≠ p → tag q ≠ .none → q + (tag q).len ≤ p ∨ p + t.len ≤ q) :
    Spans first top (update tag p t) := by
  refine ⟨fun q hq => ?_, fun q r hq hr hqr => ?_⟩
  · by_cases hqp : q = p
    · subst hqp
      rw [update_self]
      exact ⟨hfirst, hpos, htop⟩
    · rw [update_of_ne hqp] at hq ⊢
      exact h.range q hq
  · by_cases hqp : q = p
    · subst hqp
      rw [update_of_ne (by omega)] at hr
      rw [update_self]
      have := hfree r (by omega) hr
      omega
    · rw [update_of_ne hqp] at hq ⊢
      by_cases hrp : r = p
      · subst hrp
        have := hfree q hqp hq
        omega
      · rw [update_of_ne hrp] at hr
        exact h.apart q r hq hr hqr

theorem retag (h : Spans first top tag) (hp : tag p ≠ .none) (hpos : 0 < t.len) (hle : t.len ≤ (tag p).len) :
    Spans first top (update tag p t) := by
  obtain ⟨h1, h2, h3⟩ := h.range p hp
  refine h.set h1 hpos (by omega) fun q hqp hq => ?_
  rcases Nat.lt_or_gt_of_ne hqp with hlt | hgt
  · exact .inl (h.apart q p hq hp hlt)
  · have := h.apart p q hp hq hgt
    omega

theorem join (h : Spans first top tag) {q : Nat} (hp : tag p ≠ .none) (hq : tag q ≠ .none)
    (hpq : p + (tag p).len = q) (ht : t.len = (tag p).len + (tag q).len) :
    Spans first top (update (update tag q .none) p t) := by
  obtain ⟨h1, h2, h3⟩ := h.range p hp
  have hqtop := (h.range q hq).2.2
  refine (h.clear q).set h1 (by omega) (by omega) fun r hrp hr => ?_
  have hrq : r ≠ q := by
    rintro rfl
    exact hr (update_self ..)
  rw [update_of_ne hrq] at hr ⊢
  rcases Nat.lt_or_gt_of_ne hrp with hlt | hgt
  · exact .inl (h.apart r p hr hp hlt)
  · have hge := h.apart p r hp hr hgt
    have := h.apart q r hq hr (by omega)
    omega

end Spans

structure Ghost where
  top : Nat
  tag : Nat → Tag
  runs : List Nat
  blocks : Nat → List Nat

structure Block where
  addr : Nat
  size : Nat

namespace Place

variable {s : Shm} (h : Place s)

def listHead (c : Nat) : Nat := h.phy + 4 * (2 * c + 17)

def BlockAt (g : Ghost) (c b : Nat) : Prop :=
  ∃ p j, g.tag p = .small c ∧ j < 2 ^ (12 - c) ∧ b = h.page p + j * 2 ^ c

structure Header (v : View) (top : Nat) : Prop where
  base0 : v.hw 0 = h.phy + 4096
  base1 : v.hw 1 = h.phy + 4096
  count : v.hw 2 = h.pageCount
  size : v.hw 46 = h.size
  phy : v.hw 47 = h.phy
  brk : v.hw 45 = 4096 * top
  top : v.hw 4 = 0 ∧ top = h.firstPage ∨ v.hw 4 = top ∧ h.firstPage ≤ top ∧ 4096 * top ≤ h.size

structure Lists (v : View) (g : Ghost) : Prop where
  stack : ∀ c, 4 ≤ c → c ≤ 11 →
    Stack v.dat (fun b => v.dat (b + 4)) 0 (h.listHead c) (v.hw (2 * c + 17)) (g.blocks c)
  block : ∀ c b, b ∈ g.blocks c → c ≤ 11 ∧ h.BlockAt g c b
  block_nodup : ∀ c, (g.blocks c).Nodup

structure Core (v : View) (g : Ghost) : Prop extends Header h v g.top, Lists h v g where
  spans : Spans h.firstPage g.top g.tag
  entry : ∀ p, (g.tag p).Entry (v.pte p)
  sentinel : v.pte 0 0 = 0
  ring : Ring (fun p => v.pte p 1) (fun p => v.pte p 2) 0 g.runs
  mem_runs : ∀ p, p ∈ g.runs ↔ ∃ n, g.tag p = .free n
  hint : v.hw 3 ∈ 0 :: g.runs

inductive Holds (g : Ghost) (b : Block) : Prop where
  | large (p n : Nat) (htag : g.tag p = .large n) (haddr : b.addr = h.page p) (hbig : 2048 < b.size)
      (hsize : b.size ≤ 4096 * n)
  | small (c : Nat) (hblock : h.BlockAt g c b.addr) (hsize : b.size ≤ 2 ^ c)
      (hlive : b.addr ∉ g.blocks c)

structure LiveOk (g : Ghost) (live : List Block) : Prop where
  holds : ∀ b ∈ live, h.Holds g b
  nodup : (live.map Block.addr).Nodup
  large : ∀ p n, g.tag p = .large n → ∃ b ∈ live, b.addr = h.page p ∧ 2048 < b.size

def blockBytes (v : View) (a : Nat) : Nat :=
  let p := (a - h.phy) / 4096
  if v.pte p 0 = 0 then 4096 * v.pte p 1 else 2 ^ v.pte p 0

/-- The live blocks have at least the size asked for, lie in the data area, and do not overlap. -/
structure Sound (v : View) (live : List Block) : Prop where
  room : ∀ b ∈ live, b.size ≤ h.blockBytes v b.addr
  inside : ∀ b ∈ live, h.phy + 4096 * h.firstPage ≤ b.addr ∧
    b.addr + h.blockBytes v b.addr ≤ h.phy + h.size
  disjoint : live.Pairwise fun b b' =>
    b.addr + h.blockBytes v b.addr ≤ b'.addr ∨ b'.addr + h.blockBytes v b'.addr ≤ b.addr

section

variable {h} {v : View} {g : Ghost}

variable {p c b : Nat} {v' : View}

section

variable (hc : h.Core v g)

include hc

theorem Core.free {n : Nat} (hp : g.tag p = .free n) : v.pte p 0 = n := by
  have he := hc.entry p
  rwa [hp] at he

theorem Core.large {n : Nat} (hp : g.tag p = .large n) : v.pte p 0 = 0 ∧ v.pte p 1 = n := by
  have he := hc.entry p
  rwa [hp] at he

theorem Core.small (hp : g.tag p = .small c) : v.pte p 0 = c ∧ 4 ≤ c ∧ c ≤ 12 := by
  have he := hc.entry p
  rwa [hp] at he

theorem Core.top_of_tag (hp : g.tag p ≠ .none) : v.hw 4 = g.top ∧ 4096 * g.top ≤ h.size := by
  obtain ⟨h1, h2, h3⟩ := hc.spans.range p hp
  rcases hc.top with ⟨_, htop⟩ | ⟨h4, _, hs⟩
  · omega
  · exact ⟨h4, hs⟩

theorem Core.tag_lt (hp : g.tag p ≠ .none) : p < h.pageCount := by
  obtain ⟨h1, h2, h3⟩ := hc.spans.range p hp
  have hs := (hc.top_of_tag hp).2
  simp only [pageCount]
  omega

theorem Core.run_lt (hp : p ∈ 0 :: g.runs) : p < h.pageCount := by
  rcases List.mem_cons.mp hp with rfl | hp
  · exact h.pageCount_pos
  · obtain ⟨n, hn⟩ := (hc.mem_runs p).mp hp
    exact hc.tag_lt (by rw [hn]; simp)

end

theorem block_end {j : Nat} (hc : c ≤ 12) (hj : j < 2 ^ (12 - c)) : j * 2 ^ c + 2 ^ c ≤ 4096 := by
  have hmul : (j + 1) * 2 ^ c ≤ 2 ^ (12 - c) * 2 ^ c := Nat.mul_le_mul_right _ hj
  rw [← Nat.pow_add, Nat.sub_add_cancel hc] at hmul
  rwa [Nat.add_mul, Nat.one_mul] at hmul

theorem sixteen_dvd (hc : 4 ≤ c) : 16 ∣ 2 ^ c :=
  Nat.pow_dvd_pow 2 hc

structure BlockFacts (g : Ghost) (h : Place s) (c b p : Nat) : Prop where
  tag : g.tag p = .small c
  four_le : 4 ≤ c
  le : c ≤ 12
  ge : h.page p ≤ b
  fits : b + 2 ^ c ≤ h.page (p + 1)
  aligned : b % 16 = 0
  wide : 16 ≤ 2 ^ c

theorem Core.blockFacts (hc : h.Core v g) (hb : h.BlockAt g c b) : ∃ p, BlockFacts g h c b p := by
  obtain ⟨p, j, htag, hj, rfl⟩ := hb
  obtain ⟨_, h4, h12⟩ := hc.small htag
  have hend := block_end h12 hj
  have hphy := h.phy_aligned
  obtain ⟨k, hk⟩ := sixteen_dvd h4
  have hpos : 0 < 2 ^ c := Nat.two_pow_pos c
  refine ⟨p, htag, h4, h12, ?_, ?_, ?_, ?_⟩
  · simp only [page]; omega
  · simp only [page]; omega
  · have hjk : j * 2 ^ c = 16 * (j * k) := by rw [hk, Nat.mul_left_comm]
    simp only [page]
    omega
  · omega

theorem Core.page_le (hc : h.Core v g) (hp : g.tag p ≠ .none) : h.page (p + (g.tag p).len) ≤ h.phy + h.size := by
  obtain ⟨_, _, h3⟩ := hc.spans.range p hp
  have hs := (hc.top_of_tag hp).2
  simp only [page]
  omega

theorem Core.block_data (hc : h.Core v g) (hb : h.BlockAt g c b) : h.IsData b ∧ h.IsData (b + 4) := by
  obtain ⟨p, hf⟩ := hc.blockFacts hb
  have htag : g.tag p ≠ .none := by rw [hf.tag]; simp
  have hfirst := (hc.spans.range p htag).1
  have hle := hc.page_le htag
  rw [hf.tag] at hle
  have hge := hf.ge
  have hfits := hf.fits
  have hal := hf.aligned
  have hw := hf.wide
  simp only [page, Tag.len] at hge hfits hle
  refine ⟨⟨?_, ?_, ?_⟩, ⟨?_, ?_, ?_⟩⟩ <;> omega

theorem BlockFacts.page_eq {q : Nat} (hf : BlockFacts g h c b p) (hge : h.page q ≤ b) (hlt : b < h.page (q + 1)) :
    p = q := by
  have h1 := hf.ge
  have h2 := hf.fits
  have h3 := hf.wide
  simp only [page] at h1 h2 hge hlt
  omega

section

variable (hc : h.Core v g) (hb : h.BlockAt g c b)

include hc hb

theorem Core.block_ne_page (hp : g.tag p ≠ .small c) : b < h.page p ∨ h.page (p + 1) ≤ b := by
  obtain ⟨q, hf⟩ := hc.blockFacts hb
  by_contra hin
  have hqp := hf.page_eq (q := p) (by omega) (by omega)
  exact hp (hqp ▸ hf.tag)

theorem Core.class_unique {d : Nat} (hd : h.BlockAt g d b) : c = d := by
  obtain ⟨p, hf⟩ := hc.blockFacts hb
  obtain ⟨q, hf'⟩ := hc.blockFacts hd
  have hpq := hf.page_eq hf'.ge (by have := hf'.fits; have := hf'.wide; omega)
  subst hpq
  have htag := hf.tag.symm.trans hf'.tag
  cases htag
  rfl

theorem Core.block_apart {c' b' : Nat} (hb' : h.BlockAt g c' b') (hne : b ≠ b') :
    b + 2 ^ c ≤ b' ∨ b' + 2 ^ c' ≤ b := by
  obtain ⟨p, j, htag, hj, rfl⟩ := hb
  obtain ⟨p', j', htag', hj', rfl⟩ := hb'
  have hend := block_end (hc.small htag).2.2 hj
  have hend' := block_end (hc.small htag').2.2 hj'
  simp only [page] at hne ⊢
  rcases Nat.lt_trichotomy p p' with hlt | rfl | hlt
  · left; omega
  · rw [htag] at htag'
    cases htag'
    rcases Nat.lt_trichotomy j j' with hlt | rfl | hlt
    · left
      have := Nat.mul_le_mul_right (2 ^ c) hlt
      rw [Nat.succ_mul] at this
      omega
    · exact absurd rfl hne
    · right
      have := Nat.mul_le_mul_right (2 ^ c) hlt
      rw [Nat.succ_mul] at this
      omega
  · right; omega

end

structure Extent (h : Place s) (v : View) (g : Ghost) (b : Block) (p : Nat) : Prop where
  ge : h.page p ≤ b.addr
  le : b.addr + h.blockBytes v b.addr ≤ h.page (p + (g.tag p).len)
  room : b.size ≤ h.blockBytes v b.addr
  kind : (∃ n, g.tag p = .large n ∧ b.addr = h.page p) ∨
    ∃ c, g.tag p = .small c ∧ h.BlockAt g c b.addr ∧ h.blockBytes v b.addr = 2 ^ c

theorem Extent.tag {b : Block} (he : Extent h v g b p) : g.tag p ≠ .none := by
  rcases he.kind with ⟨n, htag, _⟩ | ⟨c, htag, _⟩ <;> simp [htag]

theorem blockBytes_page {a : Nat} (hge : h.page p ≤ a) (hlt : a < h.page (p + 1)) :
    h.blockBytes v a = if v.pte p 0 = 0 then 4096 * v.pte p 1 else 2 ^ v.pte p 0 := by
  have hp : (a - h.phy) / 4096 = p := by
    simp only [page] at hge hlt
    omega
  simp only [blockBytes, hp]

theorem Core.extent (hc : h.Core v g) {b : Block} (hb : h.Holds g b) : ∃ p, Extent h v g b p := by
  cases hb with
  | large p n htag haddr hbig hsize =>
    obtain ⟨he0, he1⟩ := hc.large htag
    have hbytes : h.blockBytes v b.addr = 4096 * n := by
      rw [blockBytes_page (show h.page p ≤ b.addr by rw [haddr]) (by rw [haddr]; simp only [page]; omega),
        if_pos he0, he1]
    refine ⟨p, by rw [haddr], ?_, by rw [hbytes]; exact hsize, .inl ⟨n, htag, haddr⟩⟩
    rw [hbytes, haddr, htag]
    simp only [page, Tag.len]
    omega
  | small c hblock hsize hlive =>
    obtain ⟨p, hf⟩ := hc.blockFacts hblock
    have hfits := hf.fits
    have hw := hf.wide
    have hbytes : h.blockBytes v b.addr = 2 ^ c := by
      rw [blockBytes_page hf.ge (by omega), (hc.small hf.tag).1, if_neg (by have := hf.four_le; omega)]
    refine ⟨p, hf.ge, ?_, by rw [hbytes]; exact hsize, .inr ⟨c, hf.tag, hblock, hbytes⟩⟩
    rw [hbytes, hf.tag]
    exact hfits

theorem Core.extents_apart (hc : h.Core v g) {b b' : Block} {p' : Nat} (he : Extent h v g b p)
    (he' : Extent h v g b' p') (hlt : p < p') : b.addr + h.blockBytes v b.addr ≤ b'.addr := by
  have hap := hc.spans.apart p p' he.tag he'.tag hlt
  have hle := he.le
  have hge := he'.ge
  simp only [page] at hle hge
  omega

theorem Core.holds_apart (hc : h.Core v g) {b b' : Block} (hb : h.Holds g b) (hb' : h.Holds g b')
    (hne : b.addr ≠ b'.addr) :
    b.addr + h.blockBytes v b.addr ≤ b'.addr ∨ b'.addr + h.blockBytes v b'.addr ≤ b.addr := by
  obtain ⟨p, he⟩ := hc.extent hb
  obtain ⟨p', he'⟩ := hc.extent hb'
  rcases Nat.lt_trichotomy p p' with hlt | rfl | hlt
  · exact .inl (hc.extents_apart he he' hlt)
  · -- two blocks on one page are blocks of one class, or the same large block
    rcases he.kind with ⟨n, htag, haddr⟩ | ⟨c, htag, hblock, hbytes⟩ <;>
      rcases he'.kind with ⟨n', htag', haddr'⟩ | ⟨c', htag', hblock', hbytes'⟩
    · exact absurd (haddr.trans haddr'.symm) hne
    · rw [htag] at htag'; cases htag'
    · rw [htag] at htag'; cases htag'
    · rw [hbytes, hbytes']
      exact hc.block_apart hblock hblock' hne
  · exact .inr (hc.extents_apart he' he hlt)

theorem sound_of_inv (hc : h.Core v g) {live : List Block} (hl : h.LiveOk g live) : h.Sound v live where
  room := fun b hb => by
    obtain ⟨p, he⟩ := hc.extent (hl.holds b hb)
    exact he.room
  inside := fun b hb => by
    obtain ⟨p, he⟩ := hc.extent (hl.holds b hb)
    have hfirst := (hc.spans.range p he.tag).1
    have hend := hc.page_le he.tag
    have hge := he.ge
    have hle := he.le
    simp only [page] at hge
    omega
  disjoint := by
    have hnd := List.pairwise_map.mp hl.nodup
    refine hnd.imp_of_mem fun hb hb' hne => ?_
    exact hc.holds_apart (hl.holds _ hb) (hl.holds _ hb') hne

def Counter (k : Nat) : Prop := (5 ≤ k ∧ k ≤ 24) ∨ (40 ≤ k ∧ k ≤ 44)

theorem Header.congr {top : Nat} (hh : h.Header v top) (hhw : ∀ k, k ≠ 3 → (k ≤ 4 ∨ 45 ≤ k) → v'.hw k = v.hw k) :
    h.Header v' top where
  base0 := (hhw 0 (by omega) (by omega)).trans hh.base0
  base1 := (hhw 1 (by omega) (by omega)).trans hh.base1
  count := (hhw 2 (by omega) (by omega)).trans hh.count
  size := (hhw 46 (by omega) (by omega)).trans hh.size
  phy := (hhw 47 (by omega) (by omega)).trans hh.phy
  brk := (hhw 45 (by omega) (by omega)).trans hh.brk
  top := by
    rw [hhw 4 (by omega) (by omega)]
    exact hh.top

theorem BlockAt.mono {g' : Ghost} (hb : h.BlockAt g c b) (hsmall : ∀ p, g.tag p = .small c → g'.tag p = .small c) :
    h.BlockAt g' c b := by
  obtain ⟨p, j, htag, hj, hb⟩ := hb
  exact ⟨p, j, hsmall p htag, hj, hb⟩

theorem Lists.congr {g' : Ghost} (hl : h.Lists v g) (hblocks : g'.blocks = g.blocks)
    (hhw : ∀ k, k ≠ 3 → ¬ Counter k → v'.hw k = v.hw k)
    (hdat : ∀ c b, b ∈ g.blocks c → v'.dat b = v.dat b ∧ v'.dat (b + 4) = v.dat (b + 4))
    (hsmall : ∀ p c, g.tag p = .small c → g'.tag p = .small c) : h.Lists v' g' := by
  refine ⟨fun c h4 h11 => ?_, fun c b hb => ?_, fun c => ?_⟩
  · rw [hhw (2 * c + 17) (by omega) (by simp only [Counter]; omega), hblocks]
    exact (hl.stack c h4 h11).congr fun b hb => hdat c b hb
  · rw [hblocks] at hb
    obtain ⟨h11, hat⟩ := hl.block c b hb
    exact ⟨h11, hat.mono fun p => hsmall p c⟩
  · rw [hblocks]
    exact hl.block_nodup c

section

variable (hc : h.Core v g)

include hc

theorem Core.change {tag : Nat → Tag} {runs : List Nat} (hdat : v'.dat = v.dat)
    (hhw : ∀ k, k ≠ 3 → ¬ Counter k → v'.hw k = v.hw k) (hspans : Spans h.firstPage g.top tag)
    (hentry : ∀ p, (tag p).Entry (v'.pte p)) (hsmall : ∀ p c, g.tag p = .small c → tag p = .small c)
    (hsentinel : v'.pte 0 0 = 0) (hring : Ring (fun p => v'.pte p 1) (fun p => v'.pte p 2) 0 runs)
    (hmem : ∀ p, p ∈ runs ↔ ∃ n, tag p = .free n) (hhint : v'.hw 3 ∈ 0 :: runs) :
    h.Core v' { g with tag := tag, runs := runs } where
  toHeader := hc.toHeader.congr fun k h3 hk => hhw k h3 (by simp only [Counter]; omega)
  toLists := hc.toLists.congr rfl hhw (fun c b _ => by rw [hdat]; exact ⟨rfl, rfl⟩) hsmall
  spans := hspans
  entry := hentry
  sentinel := hsentinel
  ring := hring
  mem_runs := hmem
  hint := hhint

theorem Core.not_run (hp : g.tag p ≠ .none) (hfree : ∀ n, g.tag p ≠ .free n) : p ∉ 0 :: g.runs := by
  intro hmem
  rcases List.mem_cons.mp hmem with rfl | hmem
  · have hfirst := (hc.spans.range 0 hp).1
    have := h.two_le_firstPage
    omega
  · obtain ⟨n, hn⟩ := (hc.mem_runs p).mp hmem
    exact hfree n hn

theorem Core.retag {tag : Nat → Tag} {runs : List Nat} (ps : List Nat) (hdat : v'.dat = v.dat)
    (hhw : ∀ k, k ≠ 3 → ¬ Counter k → v'.hw k = v.hw k)
    (hspans : Spans h.firstPage g.top tag) (hold : ∀ p ∈ ps, p ≠ 0 ∧ ∀ c, g.tag p ≠ .small c)
    (hnew : ∀ p ∈ ps, (tag p).Entry (v'.pte p) ∧ (p ∈ runs ↔ ∃ n, tag p = .free n))
    (hout : ∀ p, p ∉ ps → tag p = g.tag p ∧ (p ∈ runs ↔ p ∈ g.runs) ∧ v'.pte p 0 = v.pte p 0 ∧
      (p ∉ 0 :: g.runs → v'.pte p 1 = v.pte p 1))
    (hring : Ring (fun p => v'.pte p 1) (fun p => v'.pte p 2) 0 runs) (hhint : v'.hw 3 ∈ 0 :: runs) :
    h.Core v' { g with tag := tag, runs := runs } := by
  refine hc.change hdat hhw hspans (fun p => ?_) (fun p c hp => ?_) ?_ hring (fun p => ?_) hhint
  · by_cases hps : p ∈ ps
    · exact (hnew p hps).1
    · obtain ⟨htag, -, h0, h1⟩ := hout p hps
      rw [htag]
      refine (hc.entry p).congr h0 fun n hn => h1 (hc.not_run ?_ ?_) <;> simp [hn]
  · have hps : p ∉ ps := fun hps => (hold p hps).2 c hp
    exact (hout p hps).1.trans hp
  · have hps : 0 ∉ ps := fun hps => (hold 0 hps).1 rfl
    exact (hout 0 hps).2.2.1.trans hc.sentinel
  · by_cases hps : p ∈ ps
    · exact (hnew p hps).2
    · obtain ⟨htag, hruns, -⟩ := hout p hps
      rw [hruns, htag, hc.mem_runs]

theorem Core.setHw_counter {k : Nat} (x : Nat) (hk : Counter k) : h.Core (v.setHw k x) g := by
  have hother : ∀ k', ¬ Counter k' → (v.setHw k x).hw k' = v.hw k' := by
    intro k' hk'
    rw [View.hw_setHw, if_neg fun he : k' = k => hk' (he ▸ hk)]
  refine hc.change rfl (fun k' _ => hother k') hc.spans hc.entry (fun _ _ ht => ht) hc.sentinel hc.ring
    hc.mem_runs ?_
  rw [hother 3 (by simp only [Counter]; omega)]
  exact hc.hint

theorem Core.setPte_counter {q j : Nat} (x : Nat) (hj : j ≠ 0) (hq : q ∉ 0 :: g.runs)
    (hlarge : ∀ n, g.tag q ≠ .large n) : h.Core (v.setPte q j x) g := by
  have hother : ∀ p i, (p ≠ q ∨ i = 0) → (v.setPte q j x).pte p i = v.pte p i := by
    intro p i hpi
    rw [View.pte_setPte, if_neg]
    rintro ⟨rfl, rfl⟩
    rcases hpi with hpi | rfl
    · exact hpi rfl
    · exact hj rfl
  refine hc.change rfl (fun _ _ _ => rfl) hc.spans (fun p => ?_) (fun _ _ ht => ht) ?_ ?_ hc.mem_runs hc.hint
  · exact (hc.entry p).congr (hother p 0 (.inr rfl)) fun n hn =>
      hother p 1 (.inl fun hpq => hlarge n (hpq ▸ hn))
  · rw [hother 0 0 (.inr rfl)]
    exact hc.sentinel
  · exact hc.ring.congr (fun p hp => hother p 1 (.inl fun hpq => hq (hpq ▸ hp)))
      (fun p hp => hother p 2 (.inl fun hpq => hq (hpq ▸ hp)))

theorem Core.setDat_used {a : Nat} (x : Nat) (ha : ∀ c b, b ∈ g.blocks c → a ≠ b ∧ a ≠ b + 4) :
    h.Core (v.setDat a x) g := by
  refine { hc with toLists := hc.toLists.congr rfl (fun _ _ _ => rfl) (fun c b hb => ?_) (fun _ _ ht => ht) }
  obtain ⟨h1, h2⟩ := ha c b hb
  rw [View.dat_setDat, View.dat_setDat, if_neg h1.symm, if_neg h2.symm]
  exact ⟨rfl, rfl⟩

end

end

end Place

end H713.Smm
