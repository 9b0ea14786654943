import Mathlib.Algebra.GroupWithZero.Nat
import Mathlib.Data.List.Flatten
import H713.Lib.Chunks

/-!
# Mmc.Idma

`sunxi_mmc_init_idma_des`: the descriptors for the DMA engine, one for each piece of at most `max_len` bytes of each
segment of the scatter list. `DIV_ROUND_UP` is computed in 32 bits.
-/

namespace H713.Mmc.Idma

open Function

structure Cfg where
  idmaDesSizeBits : Nat
  idmaDesShift : Nat
  v5p3x : Bool

def Cfg.maxLen (c : Cfg) : Nat := 2 ^ c.idmaDesSizeBits

structure Seg where
  addr : Nat
  length : Nat

structure Desc where
  config : BitVec 32
  bufSize : BitVec 32
  bufAddrPtr1 : BitVec 32
  bufAddrPtr2 : BitVec 32

def dic : BitVec 32 := 1#32 <<< 1
def ld : BitVec 32 := 1#32 <<< 2
def fd : BitVec 32 := 1#32 <<< 3
def ch : BitVec 32 := 1#32 <<< 4
def er : BitVec 32 := 1#32 <<< 5
def own : BitVec 32 := 1#32 <<< 31

def desSize : Nat := 16

structure Build where
  pdes : Nat → Desc
  n : Nat
  nextDesc : Nat

def nchunks (c : Cfg) (len : Nat) : Nat := (len + c.maxLen - 1) % 2 ^ 32 / c.maxLen

def putChunk (c : Cfg) (sgAddr j sgRemaining : Nat) (b : Build) : Build :=
  let chunkLen := min sgRemaining c.maxLen
  let nextDesc := (b.nextDesc + desSize) % 2 ^ 64
  let d : Desc :=
    { config := ch ||| own ||| dic
      bufSize := if chunkLen = c.maxLen ∧ ¬ c.v5p3x then 0 else BitVec.ofNat 32 chunkLen
      bufAddrPtr1 := BitVec.ofNat 32 (((sgAddr + j * c.maxLen % 2 ^ 32) % 2 ^ 64) >>> c.idmaDesShift)
      bufAddrPtr2 := BitVec.ofNat 32 (nextDesc >>> c.idmaDesShift) }
  { pdes := update b.pdes b.n d, n := b.n + 1, nextDesc := nextDesc }

def putChunks (c : Cfg) (sgAddr : Nat) : (left j sgRemaining : Nat) → Build → Build
  | 0, _, _, b => b
  | left + 1, j, sgRemaining, b =>
    putChunks c sgAddr left (j + 1) (sgRemaining - min sgRemaining c.maxLen) (putChunk c sgAddr j sgRemaining b)

def putSeg (c : Cfg) (b : Build) (sg : Seg) : Build :=
  putChunks c sg.addr (nchunks c sg.length) 0 sg.length b

def markFirst (d : Desc) : Desc := { d with config := d.config ||| fd }

def markLast (d : Desc) : Desc :=
  { d with config := (d.config ||| (ld ||| er)) &&& ~~~dic, bufAddrPtr2 := 0 }

def sunxiMmcInitIdmaDes (c : Cfg) (pdes : Nat → Desc) (sgDma : Nat) (sgs : List Seg) : Build :=
  let b := sgs.foldl (putSeg c) { pdes := pdes, n := 0, nextDesc := sgDma }
  if b.n > 0 then
    let pdes := update b.pdes 0 (markFirst (b.pdes 0))
    { b with pdes := update pdes (b.n - 1) (markLast (pdes (b.n - 1))) }
  else b

def Seg.bytes (sg : Seg) : List Nat := List.range' sg.addr sg.length

namespace Desc

def size (c : Cfg) (d : Desc) : Nat :=
  if d.bufSize = 0 ∧ ¬ c.v5p3x then c.maxLen else d.bufSize.toNat

def start (c : Cfg) (d : Desc) : Nat := d.bufAddrPtr1.toNat <<< c.idmaDesShift

def next (c : Cfg) (d : Desc) : Nat := d.bufAddrPtr2.toNat <<< c.idmaDesShift

def bytes (c : Cfg) (d : Desc) : List Nat := List.range' (d.start c) (d.size c)

end Desc

def Build.chain (b : Build) : List Desc := (List.range b.n).map b.pdes

/-- The chain that starts at `sgDma` stands for the bytes of `sgs`. -/
structure Describes (c : Cfg) (sgDma : Nat) (sgs : List Seg) (b : Build) : Prop where
  bytes : b.chain.flatMap (Desc.bytes c) = sgs.flatMap Seg.bytes
  size : ∀ i < b.n, 1 ≤ (b.pdes i).size c ∧ (b.pdes i).size c ≤ c.maxLen
  linked : ∀ i, i + 1 < b.n → (b.pdes i).next c = sgDma + desSize * (i + 1)
  owned : ∀ i < b.n, (b.pdes i).config &&& (own ||| ch) = own ||| ch
  first : ∀ i < b.n, (b.pdes i).config &&& fd ≠ 0 ↔ i = 0
  last : ∀ i < b.n, (b.pdes i).config &&& ld ≠ 0 ↔ i + 1 = b.n
  ring : ∀ i < b.n, (b.pdes i).config &&& er ≠ 0 ↔ i + 1 = b.n

def Storable (c : Cfg) (a : Nat) : Prop := 2 ^ c.idmaDesShift ∣ a ∧ a < 2 ^ (32 + c.idmaDesShift)

/-- The sum in `DIV_ROUND_UP` fits 32 bits, and every piece starts at an address a descriptor can hold. -/
def SegFits (c : Cfg) (sg : Seg) : Prop :=
  sg.length + c.maxLen - 1 < 2 ^ 32 ∧ ∀ j, c.maxLen * j < sg.length → Storable c (sg.addr + c.maxLen * j)

/-- A segment on a word boundary below 2 ^ 34, its length a `u32`. -/
def Seg.InRange (sg : Seg) : Prop := 4 ∣ sg.addr ∧ sg.addr + sg.length ≤ 2 ^ 34 ∧ sg.length < 2 ^ 32
deriving Decidable

def Seg.count (c : Cfg) (sg : Seg) : Nat := (sg.length + c.maxLen - 1) / c.maxLen

/-- The table has room for `size` descriptors, and a pointer field can hold the address of each. -/
structure TableFits (c : Cfg) (sgDma size : Nat) : Prop where
  storable : ∀ i < size, Storable c (sgDma + desSize * i)
  top : sgDma + desSize * size < 2 ^ 64

section

variable {c : Cfg} {len : Nat}

theorem maxLen_pos (c : Cfg) : 0 < c.maxLen := Nat.two_pow_pos _

theorem maxLen_le (hb : c.idmaDesSizeBits < 32) : c.maxLen ≤ 2 ^ 31 :=
  Nat.pow_le_pow_right (by decide) (by omega)

theorem lt_of_lt_nchunks {j : Nat} (h : j < nchunks c len) : c.maxLen * j < len := by
  have hpos := maxLen_pos c
  have hmul : c.maxLen * (j + 1) ≤ (len + c.maxLen - 1) % 2 ^ 32 :=
    Nat.le_trans (Nat.mul_le_mul_left _ h) (Nat.mul_div_le _ _)
  have hmod := Nat.mod_le (len + c.maxLen - 1) (2 ^ 32)
  rw [Nat.mul_succ] at hmul
  omega

theorem le_mul_nchunks_iff (hb : c.idmaDesSizeBits < 32) (hlen : len < 2 ^ 32) :
    len ≤ c.maxLen * nchunks c len ↔ len + c.maxLen - 1 < 2 ^ 32 := by
  have hpos := maxLen_pos c
  have hmax := maxLen_le hb
  have hdiv := Nat.div_add_mod ((len + c.maxLen - 1) % 2 ^ 32) c.maxLen
  have hlt := Nat.mod_lt ((len + c.maxLen - 1) % 2 ^ 32) hpos
  simp only [nchunks]
  constructor
  · intro h
    by_contra hwrap
    omega
  · intro h
    rw [Nat.mod_eq_of_lt h] at hdiv hlt ⊢
    omega

end

def readBack (c : Cfg) (a : Nat) : Nat := (BitVec.ofNat 32 (a >>> c.idmaDesShift)).toNat <<< c.idmaDesShift

theorem readBack_eq_iff (c : Cfg) (a : Nat) : readBack c a = a ↔ Storable c a := by
  simp only [readBack, Storable, BitVec.toNat_ofNat, Nat.shiftRight_eq_div_pow, Nat.shiftLeft_eq]
  have hpos : 0 < 2 ^ c.idmaDesShift := Nat.two_pow_pos _
  rw [Nat.pow_add]
  constructor
  · intro h
    have hlt : a / 2 ^ c.idmaDesShift % 2 ^ 32 < 2 ^ 32 := Nat.mod_lt _ (by decide)
    refine ⟨⟨a / 2 ^ c.idmaDesShift % 2 ^ 32, by rw [Nat.mul_comm]; exact h.symm⟩, ?_⟩
    rw [← h]
    exact Nat.mul_lt_mul_of_pos_right hlt hpos
  · rintro ⟨⟨k, rfl⟩, hlt⟩
    rw [Nat.mul_comm] at hlt
    have hk : k < 2 ^ 32 := Nat.lt_of_mul_lt_mul_right hlt
    rw [Nat.mul_div_cancel_left k hpos, Nat.mod_eq_of_lt hk, Nat.mul_comm]

abbrev Piece := Nat × Nat

def pieces (c : Cfg) (sg : Seg) : List Piece :=
  (List.range (nchunks c sg.length)).map fun j =>
    (sg.addr + c.maxLen * j, min (sg.length - c.maxLen * j) c.maxLen)

def plain (c : Cfg) (sgDma i : Nat) (p : Piece) : Desc where
  config := ch ||| own ||| dic
  bufSize := if p.2 = c.maxLen ∧ ¬ c.v5p3x then 0 else BitVec.ofNat 32 p.2
  bufAddrPtr1 := BitVec.ofNat 32 (p.1 >>> c.idmaDesShift)
  bufAddrPtr2 := BitVec.ofNat 32 ((sgDma + desSize * (i + 1)) >>> c.idmaDesShift)

structure Built (c : Cfg) (sgDma : Nat) (b : Build) (ps : List Piece) : Prop where
  n_eq : b.n = ps.length
  nextDesc_eq : b.nextDesc = sgDma + desSize * b.n
  pdes_eq : ∀ i p, ps[i]? = some p → b.pdes i = plain c sgDma i p

namespace Built

variable {c : Cfg} {sgDma size : Nat} {b : Build} {ps : List Piece}

theorem putChunk (h : Built c sgDma b ps) (ht : TableFits c sgDma size) (hroom : b.n < size)
    (addr j rem : Nat) (haddr : addr + c.maxLen * j < 2 ^ 64) (hj : c.maxLen * j < 2 ^ 32) :
    Built c sgDma (putChunk c addr j rem b) (ps ++ [(addr + c.maxLen * j, min rem c.maxLen)]) := by
  have hnext : (b.nextDesc + desSize) % 2 ^ 64 = sgDma + desSize * (b.n + 1) := by
    have htop := ht.top
    have := Nat.mul_le_mul_left desSize hroom
    rw [h.nextDesc_eq, Nat.mul_succ] at *
    omega
  have hstart : (addr + j * c.maxLen % 2 ^ 32) % 2 ^ 64 = addr + c.maxLen * j := by
    rw [Nat.mul_comm j, Nat.mod_eq_of_lt hj, Nat.mod_eq_of_lt haddr]
  refine ⟨by simp [Idma.putChunk, h.n_eq], hnext, fun i p hp => ?_⟩
  simp only [Idma.putChunk, hnext, hstart]
  by_cases hi : i = b.n
  · subst hi
    rw [h.n_eq, List.getElem?_concat_length] at hp
    cases hp
    rw [update_self]
    rfl
  · have hlt : i < ps.length := by
      have := (List.getElem?_eq_some_iff.mp hp).1
      simp only [List.length_append, List.length_singleton, ← h.n_eq] at this ⊢
      omega
    rw [List.getElem?_append_left hlt] at hp
    rw [update_of_ne hi]
    exact h.pdes_eq i p hp

theorem putChunks {addr len : Nat} (ht : TableFits c sgDma size) (haddr : addr ≤ 2 ^ 34)
    (hlen : len < 2 ^ 32) : ∀ (left j : Nat) {b : Build} {ps : List Piece}, Built c sgDma b ps →
      b.n + left ≤ size → (∀ k < j + left, c.maxLen * k < len) →
      Built c sgDma (putChunks c addr left j (len - c.maxLen * j) b) (ps ++ (List.range' j left).map fun k =>
        (addr + c.maxLen * k, min (len - c.maxLen * k) c.maxLen)) := by
  intro left
  induction left with
  | zero =>
    intro j b ps h _ _
    simpa [Idma.putChunks] using h
  | succ left ih =>
    intro j b ps h hroom hbelow
    have hj : c.maxLen * j < len := hbelow j (by omega)
    have hrest : len - c.maxLen * j - min (len - c.maxLen * j) c.maxLen = len - c.maxLen * (j + 1) := by
      rw [Nat.mul_succ]
      omega
    have hput := h.putChunk ht (by omega) addr j (len - c.maxLen * j) (by omega) (by omega)
    have hmore := ih (j + 1) hput (by simp only [Idma.putChunk]; omega) (fun k hk => hbelow k (by omega))
    simp only [Idma.putChunks, hrest, List.range'_succ, List.map_cons]
    simpa using hmore

theorem putSeg (h : Built c sgDma b ps) (ht : TableFits c sgDma size) {sg : Seg} (haddr : sg.addr ≤ 2 ^ 34)
    (hlen : sg.length < 2 ^ 32) (hroom : b.n + nchunks c sg.length ≤ size) :
    Built c sgDma (putSeg c b sg) (ps ++ pieces c sg) := by
  have hput := putChunks ht haddr hlen (nchunks c sg.length) 0 h hroom
    (fun k hk => lt_of_lt_nchunks (by omega))
  simpa [Idma.putSeg, pieces, List.range_eq_range'] using hput

end Built

theorem nchunks_le_count (c : Cfg) (sg : Seg) : nchunks c sg.length ≤ sg.count c :=
  Nat.div_le_div_right (Nat.mod_le _ _)

variable {c : Cfg} {sgDma : Nat}

theorem Built.foldl {size : Nat} (ht : TableFits c sgDma size) :
    ∀ (sgs : List Seg) {b : Build} {ps : List Piece}, Built c sgDma b ps → (∀ sg ∈ sgs, sg.InRange) →
      b.n + (sgs.map (Seg.count c)).sum ≤ size →
      Built c sgDma (sgs.foldl (Idma.putSeg c) b) (ps ++ sgs.flatMap (pieces c)) := by
  intro sgs
  induction sgs with
  | nil =>
    intro b ps h _ _
    simpa using h
  | cons sg sgs ih =>
    intro b ps h hrange hroom
    simp only [List.map_cons, List.sum_cons] at hroom
    have hle := nchunks_le_count c sg
    have hsg := hrange sg List.mem_cons_self
    have hput := h.putSeg ht (by have := hsg.2.1; omega) hsg.2.2 (by omega)
    have hn : (Idma.putSeg c b sg).n = b.n + nchunks c sg.length := by
      rw [hput.n_eq, List.length_append, ← h.n_eq]
      simp [pieces]
    have hmore := ih hput (fun x hx => hrange x (List.mem_cons_of_mem _ hx)) (by omega)
    simpa [List.append_assoc] using hmore

def marked (n i : Nat) (d : Desc) : Desc :=
  let d := if i = 0 then markFirst d else d
  if i + 1 = n then markLast d else d

section

variable (c : Cfg) (n i : Nat) (d : Desc)

theorem size_marked : (marked n i d).size c = d.size c := by
  simp only [marked]
  split <;> split <;> rfl

theorem start_marked : (marked n i d).start c = d.start c := by
  simp only [marked]
  split <;> split <;> rfl

end

structure Done (c : Cfg) (sgDma : Nat) (b : Build) (ps : List Piece) : Prop where
  n_eq : b.n = ps.length
  pdes_eq : ∀ i p, ps[i]? = some p → b.pdes i = marked b.n i (plain c sgDma i p)

theorem init_done {size : Nat} {sgs : List Seg} (pdes : Nat → Desc) (ht : TableFits c sgDma size)
    (hrange : ∀ sg ∈ sgs, sg.InRange) (hroom : (sgs.map (Seg.count c)).sum ≤ size) :
    Done c sgDma (sunxiMmcInitIdmaDes c pdes sgDma sgs) (sgs.flatMap (pieces c)) := by
  have hstart : Built c sgDma { pdes := pdes, n := 0, nextDesc := sgDma } [] :=
    ⟨rfl, rfl, fun i p hp => by simp at hp⟩
  have hall := Built.foldl ht sgs hstart hrange (by simpa using hroom)
  rw [List.nil_append] at hall
  simp only [sunxiMmcInitIdmaDes]
  split
  · rename_i hpos
    refine ⟨hall.n_eq, fun i p hp => ?_⟩
    have hplain := hall.pdes_eq i p hp
    simp only [marked, update_apply]
    by_cases hlast : i + 1 = (sgs.foldl (putSeg c) { pdes := pdes, n := 0, nextDesc := sgDma }).n
    · rw [if_pos (by omega), if_pos hlast, ← hlast, Nat.add_sub_cancel]
      by_cases hfirst : i = 0
      · subst hfirst
        simp [hplain]
      · simp [hfirst, hplain]
    · rw [if_neg (by omega), if_neg hlast]
      by_cases hfirst : i = 0
      · subst hfirst
        simp [hplain]
      · simp [hfirst, hplain]
  · rename_i hzero
    refine ⟨hall.n_eq, fun i p hp => ?_⟩
    have hlt := (List.getElem?_eq_some_iff.mp hp).1
    rw [← hall.n_eq] at hlt
    omega

def flags (first last : Bool) : BitVec 32 :=
  ch ||| own ||| (if first then fd else 0) ||| (if last then ld ||| er else dic)

namespace Done

variable {c : Cfg} {sgDma size : Nat} {b : Build} {ps : List Piece}

def Sized (c : Cfg) (ps : List Piece) : Prop := ∀ p ∈ ps, 1 ≤ p.2 ∧ p.2 ≤ c.maxLen

theorem exists_piece (h : Done c sgDma b ps) {i : Nat} (hi : i < b.n) :
    ∃ p ∈ ps, b.pdes i = marked b.n i (plain c sgDma i p) := by
  rw [h.n_eq] at hi
  exact ⟨ps[i], List.getElem_mem hi, h.pdes_eq i _ (List.getElem?_eq_getElem hi)⟩

theorem size_plain (hb : c.idmaDesSizeBits < 32) {p : Piece} (hp : 1 ≤ p.2 ∧ p.2 ≤ c.maxLen) (i : Nat) :
    (plain c sgDma i p).size c = p.2 := by
  have hmax := maxLen_le hb
  have hval : (BitVec.ofNat 32 p.2).toNat = p.2 := by
    rw [BitVec.toNat_ofNat, Nat.mod_eq_of_lt (by omega)]
  have hne : BitVec.ofNat 32 p.2 ≠ 0 := by
    intro h0
    rw [h0] at hval
    simp at hval
    omega
  by_cases hfull : p.2 = c.maxLen ∧ ¬ c.v5p3x
  · simp only [plain, Desc.size, if_pos hfull]
    rw [if_pos ⟨trivial, hfull.2⟩, hfull.1]
  · simp only [plain, Desc.size, if_neg hfull]
    rw [if_neg fun h => hne h.1, hval]

theorem chain_eq (h : Done c sgDma b ps) (hb : c.idmaDesSizeBits < 32) (hs : Sized c ps) :
    b.chain.map (Desc.bytes c) = ps.map fun p => List.range' (readBack c p.1) p.2 := by
  apply List.ext_getElem?
  intro i
  simp only [Build.chain, List.map_map, List.getElem?_map, h.n_eq]
  by_cases hi : i < ps.length
  · have hp := List.getElem?_eq_getElem hi
    rw [List.getElem?_range hi, hp]
    simp only [Option.map_some, Function.comp, Desc.bytes, h.pdes_eq i _ hp, size_marked, start_marked,
      size_plain hb (hs _ (List.getElem_mem hi))]
    rfl
  · rw [List.getElem?_eq_none (by simpa using hi), List.getElem?_eq_none (by simpa using hi)]
    rfl

theorem linked (h : Done c sgDma b ps) (ht : TableFits c sgDma size) (hroom : b.n ≤ size) {i : Nat}
    (hi : i + 1 < b.n) : (b.pdes i).next c = sgDma + desSize * (i + 1) := by
  obtain ⟨p, _, hp⟩ := h.exists_piece (i := i) (by omega)
  have hstore := (readBack_eq_iff c _).mpr (ht.storable (i + 1) (by omega))
  have hnot : i + 1 ≠ b.n := by omega
  rw [hp]
  simp only [marked, if_neg hnot]
  split <;> exact hstore

theorem config_eq (h : Done c sgDma b ps) {i : Nat} (hi : i < b.n) :
    (b.pdes i).config = flags (i = 0) (i + 1 = b.n) := by
  obtain ⟨p, _, hp⟩ := h.exists_piece hi
  rw [hp, marked]
  by_cases hfirst : i = 0
  · by_cases hlast : i + 1 = b.n
    · rw [if_pos hfirst, if_pos hlast, decide_eq_true hfirst, decide_eq_true hlast]
      simp only [markLast, markFirst, plain]
      decide
    · rw [if_pos hfirst, if_neg hlast, decide_eq_true hfirst, decide_eq_false hlast]
      simp only [markFirst, plain]
      decide
  · by_cases hlast : i + 1 = b.n
    · rw [if_neg hfirst, if_pos hlast, decide_eq_false hfirst, decide_eq_true hlast]
      simp only [markLast, plain]
      decide
    · rw [if_neg hfirst, if_neg hlast, decide_eq_false hfirst, decide_eq_false hlast]
      rfl

end Done

section

variable {c : Cfg}

theorem chunk_bytes (c : Cfg) (sg : Seg) (j : Nat) : chunk c.maxLen sg.bytes j =
    List.range' (sg.addr + c.maxLen * j) (min (sg.length - c.maxLen * j) c.maxLen) := by
  simp only [chunk, Seg.bytes, List.drop_range', Nat.mul_one]
  rcases Nat.le_total (sg.length - c.maxLen * j) c.maxLen with hshort | hfull
  · rw [List.take_range'_of_length_le hshort, Nat.min_eq_left hshort]
  · rw [List.take_range'_of_length_ge hfull, Nat.min_eq_right hfull]

theorem sized_pieces (c : Cfg) (sgs : List Seg) : Done.Sized c (sgs.flatMap (pieces c)) := by
  intro p hp
  obtain ⟨sg, _, hp⟩ := List.mem_flatMap.mp hp
  obtain ⟨j, hj, rfl⟩ := List.mem_map.mp hp
  have hlt := lt_of_lt_nchunks (List.mem_range.mp hj)
  have hpos := maxLen_pos c
  simp only
  omega

def served (c : Cfg) (sg : Seg) : List Nat :=
  (pieces c sg).flatMap fun p => List.range' (readBack c p.1) p.2

theorem map_length_served (c : Cfg) (sg : Seg) :
    ((pieces c sg).map fun p => List.range' (readBack c p.1) p.2).map List.length =
      ((List.range (nchunks c sg.length)).map (chunk c.maxLen sg.bytes)).map List.length := by
  simp only [pieces, List.map_map]
  apply List.map_congr_left
  intro j _
  simp [chunk_bytes]

theorem length_served (c : Cfg) (sg : Seg) :
    (served c sg).length = min (c.maxLen * nchunks c sg.length) sg.length := by
  rw [served, List.flatMap_def, List.length_flatten, map_length_served, ← List.length_flatten,
    flatten_chunks, List.length_take, Seg.bytes, List.length_range']

theorem served_iff (hb : c.idmaDesSizeBits < 32) {sg : Seg} (hlen : sg.length < 2 ^ 32) :
    served c sg = sg.bytes ↔ SegFits c sg := by
  have hcover := le_mul_nchunks_iff hb hlen
  have hparts : ((List.range (nchunks c sg.length)).map (chunk c.maxLen sg.bytes)).flatten =
      sg.bytes.take (c.maxLen * nchunks c sg.length) := flatten_chunks _ _ _
  constructor
  · intro h
    have hle : sg.length ≤ c.maxLen * nchunks c sg.length := by
      have := congrArg List.length h
      rw [length_served, Seg.bytes, List.length_range'] at this
      omega
    refine ⟨hcover.mp hle, fun j hj => ?_⟩
    -- both lists are cut at the same places, so the parts are the same
    have hj' : j < nchunks c sg.length := Nat.lt_of_mul_lt_mul_left (Nat.lt_of_lt_of_le hj hle)
    have hwhole : sg.bytes.take (c.maxLen * nchunks c sg.length) = served c sg := by
      rw [h, List.take_of_length_le (by simpa [Seg.bytes] using hle)]
    have hsame := List.eq_iff_flatten_eq.mpr ⟨hparts.trans hwhole, (map_length_served c sg).symm⟩
    have hpart := congrArg (fun l => l[j]?) hsame
    simp only [pieces, List.map_map, List.getElem?_map, List.getElem?_range hj', Option.map_some,
      Function.comp, chunk_bytes, Option.some.injEq] at hpart
    have hhead := congrArg List.head? hpart
    have hpos := maxLen_pos c
    obtain ⟨k, hk⟩ : ∃ k, min (sg.length - c.maxLen * j) c.maxLen = k + 1 := 
      ⟨_, (Nat.succ_pred (by omega)).symm⟩
    simp only [hk, List.range'_succ, List.head?_cons, Option.some.injEq] at hhead
    exact (readBack_eq_iff c _).mp hhead.symm
  · rintro ⟨hsum, hstore⟩
    have hle := hcover.mpr hsum
    rw [List.take_of_length_le (by simpa [Seg.bytes] using hle)] at hparts
    rw [← hparts, served, List.flatMap_def]
    congr 1
    simp only [pieces, List.map_map]
    apply List.map_congr_left
    intro j hj
    have hlt := lt_of_lt_nchunks (List.mem_range.mp hj)
    simp only [Function.comp, chunk_bytes, (readBack_eq_iff c _).mpr (hstore j hlt)]

theorem flatMap_served_iff (hb : c.idmaDesSizeBits < 32) {sgs : List Seg} (hlen : ∀ sg ∈ sgs, sg.length < 2 ^ 32) :
    sgs.flatMap (served c) = sgs.flatMap Seg.bytes ↔ ∀ sg ∈ sgs, SegFits c sg := by
  constructor
  · induction sgs with
    | nil => intro _ sg hsg; cases hsg
    | cons sg sgs ih =>
      intro h
      have hle : ∀ l : List Seg, (l.flatMap (served c)).length ≤ (l.flatMap Seg.bytes).length := by
        intro l
        induction l with
        | nil => exact Nat.le_refl _
        | cons x l ihl =>
          simp only [List.flatMap_cons, List.length_append, length_served, Seg.bytes, List.length_range'] at ihl ⊢
          omega
      have hlong := congrArg List.length h
      have hrest := hle sgs
      simp only [List.flatMap_cons, List.length_append] at h hlong
      have hhead : (served c sg).length = sg.bytes.length := by
        rw [length_served, Seg.bytes, List.length_range'] at *
        omega
      obtain ⟨h1, h2⟩ := List.append_inj h hhead
      have hsg := (served_iff hb (hlen sg List.mem_cons_self)).mp h1
      exact List.forall_mem_cons.mpr ⟨hsg, ih (fun x hx => hlen x (List.mem_cons_of_mem _ hx)) h2⟩
  · intro h
    rw [List.flatMap_def, List.flatMap_def]
    congr 1
    exact List.map_congr_left fun sg hsg => (served_iff hb (hlen sg hsg)).mpr (h sg hsg)

end

theorem Done.bytes_eq {b : Build} {sgs : List Seg} (h : Done c sgDma b (sgs.flatMap (pieces c)))
    (hb : c.idmaDesSizeBits < 32) : b.chain.flatMap (Desc.bytes c) = sgs.flatMap (served c) := by
  rw [List.flatMap_def, h.chain_eq hb (sized_pieces c sgs), ← List.flatMap_def, List.flatMap_assoc]
  rfl

theorem length_pieces_le (c : Cfg) (sgs : List Seg) :
    (sgs.flatMap (pieces c)).length ≤ (sgs.map (Seg.count c)).sum := by
  induction sgs with
  | nil => exact Nat.le_refl _
  | cons sg sgs ih =>
    have hle := nchunks_le_count c sg
    simp only [List.flatMap_cons, List.length_append, List.map_cons, List.sum_cons, pieces, List.length_map,
      List.length_range] at ih ⊢
    omega

/-- For every scatter list whose pieces fit the table, `sunxi_mmc_init_idma_des` leaves a chain that stands for its
bytes in order exactly when every segment fits. -/
theorem idma_chain_iff {c : Cfg} {pdes : Nat → Desc} {sgDma size : Nat} {sgs : List Seg}
    (hb : c.idmaDesSizeBits < 32) (ht : TableFits c sgDma size) (hsgs : ∀ sg ∈ sgs, sg.InRange)
    (hroom : (sgs.map (Seg.count c)).sum ≤ size) :
    Describes c sgDma sgs (sunxiMmcInitIdmaDes c pdes sgDma sgs) ↔ ∀ sg ∈ sgs, SegFits c sg := by
  have hd := init_done pdes ht hsgs hroom
  have hlen : ∀ sg ∈ sgs, sg.length < 2 ^ 32 := fun sg hsg => (hsgs sg hsg).2.2
  have hn : (sunxiMmcInitIdmaDes c pdes sgDma sgs).n ≤ size := by
    rw [hd.n_eq]
    exact Nat.le_trans (length_pieces_le c sgs) hroom
  rw [← flatMap_served_iff hb hlen, ← hd.bytes_eq hb]
  constructor
  · exact Describes.bytes
  · intro hbytes
    have hflags : ∀ first last, flags first last &&& (own ||| ch) = own ||| ch ∧
        (flags first last &&& fd ≠ 0 ↔ first) ∧ (flags first last &&& ld ≠ 0 ↔ last) ∧
        (flags first last &&& er ≠ 0 ↔ last) := by decide
    have hconfig := fun i hi => hd.config_eq (i := i) hi ▸ hflags (i = 0) (i + 1 = _)
    simp only [decide_eq_true_eq] at hconfig
    refine ⟨hbytes, fun i hi => ?_, fun i hi => hd.linked ht hn hi, fun i hi => (hconfig i hi).1,
      fun i hi => (hconfig i hi).2.1, fun i hi => (hconfig i hi).2.2.1, fun i hi => (hconfig i hi).2.2.2⟩
    obtain ⟨p, hp, hpdes⟩ := hd.exists_piece hi
    have hsized := sized_pieces c sgs p hp
    rw [hpdes, size_marked, Done.size_plain hb hsized]
    exact hsized

theorem segFits_iff (hs : c.idmaDesShift = 2) {sg : Seg} (h : sg.InRange) : SegFits c sg ↔
    sg.length + c.maxLen - 1 < 2 ^ 32 ∧ (sg.length ≤ c.maxLen ∨ 4 ∣ c.maxLen) := by
  obtain ⟨halign, htop, _⟩ := h
  simp only [SegFits, Storable, hs]
  refine and_congr_right fun _ => ?_
  constructor
  · intro hstore
    by_cases hone : sg.length ≤ c.maxLen
    · exact .inl hone
    · have h1 := (hstore 1 (by omega)).1
      exact .inr (by omega)
  · rintro (hone | ⟨k, hk⟩) j hj
    · have hj0 : j = 0 := by
        rcases Nat.eq_zero_or_pos j with hz | hpos
        · exact hz
        · have := Nat.mul_le_mul_left c.maxLen hpos
          omega
      subst hj0
      omega
    · refine ⟨?_, by omega⟩
      rw [hk, Nat.mul_assoc]
      omega

def h713 : Cfg := ⟨12, 2, true⟩

theorem tableFits_page (hs : c.idmaDesShift = 2) : TableFits c 0x40000000 256 := by
  refine ⟨fun i hi => ?_, by decide⟩
  simp only [Storable, hs, desSize]
  omega

def blank : Nat → Desc := fun _ => ⟨0, 0, 0, 0⟩

def twoSegs : List Seg := [⟨0x50000000, 9000⟩, ⟨0x3fffff000, 4096⟩]

theorem idma_chain_iff_two :
    Describes h713 0x40000000 twoSegs (sunxiMmcInitIdmaDes h713 blank 0x40000000 twoSegs) := by
  have hrange : ∀ sg ∈ twoSegs, sg.InRange := by decide
  refine (idma_chain_iff (by decide) (tableFits_page rfl) hrange (by decide)).mpr fun sg hsg => ?_
  have hsizes : ∀ sg ∈ twoSegs, sg.length + h713.maxLen - 1 < 2 ^ 32 ∧
      (sg.length ≤ h713.maxLen ∨ 4 ∣ h713.maxLen) := by decide
  exact (segFits_iff rfl (hrange sg hsg)).mpr (hsizes sg hsg)

def hugeSeg : List Seg := [⟨0, 0xfffffffc⟩]

def shortSeg : List Seg := [⟨0x50000000, 3⟩]

theorem idma_drops_segment_and_moves_piece :
    ((∀ sg ∈ hugeSeg, sg.InRange) ∧ (hugeSeg.map (Seg.count ⟨31, 2, false⟩)).sum ≤ 256 ∧
      (sunxiMmcInitIdmaDes ⟨31, 2, false⟩ blank 0x40000000 hugeSeg).n = 0 ∧
      ¬ Describes ⟨31, 2, false⟩ 0x40000000 hugeSeg (sunxiMmcInitIdmaDes ⟨31, 2, false⟩ blank 0x40000000 hugeSeg)) ∧
    ((∀ sg ∈ shortSeg, sg.InRange) ∧ (shortSeg.map (Seg.count ⟨1, 2, false⟩)).sum ≤ 256 ∧
      (sunxiMmcInitIdmaDes ⟨1, 2, false⟩ blank 0x40000000 shortSeg).chain.flatMap (Desc.bytes ⟨1, 2, false⟩) =
        [0x50000000, 0x50000001, 0x50000000] ∧ ¬ Describes ⟨1, 2, false⟩ 0x40000000 shortSeg
        (sunxiMmcInitIdmaDes ⟨1, 2, false⟩ blank 0x40000000 shortSeg)) := by
  refine ⟨⟨by decide, by decide, by decide, fun h => ?_⟩, by decide, by decide, by decide, fun h => ?_⟩
  · have hnone : (sunxiMmcInitIdmaDes ⟨31, 2, false⟩ blank 0x40000000 hugeSeg).chain = [] := by
      rw [Build.chain, List.map_eq_nil_iff, List.range_eq_nil]
      decide
    have hlen := congrArg List.length h.bytes
    rw [hnone] at hlen
    simp [hugeSeg, Seg.bytes] at hlen
  · exact absurd h.bytes (by decide)

end H713.Mmc.Idma
