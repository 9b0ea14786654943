import Mathlib.Data.UInt
import Mathlib.Data.Nat.Bitwise

/-!
# Scanout.Export

The dma-buf exporter of the scanout carveout: `SCANOUT_IOC_GET_FD` on any pair of 64-bit values, and the CPU
mappings of the buffer it exports. Addresses and sizes are `u64` and wrap.
-/

namespace H713.Scanout

structure Carveout where
  phys : UInt64
  size : UInt64
  phys_aligned : phys.toNat % 4096 = 0
  size_aligned : size.toNat % 4096 = 0
  size_pos : 0 < size.toNat
  fits : phys.toNat + size.toNat < 2 ^ 64

def carveout : Carveout where
  phys := 0x6c100000
  size := 0x800000
  phys_aligned := by decide
  size_aligned := by decide
  size_pos := by decide
  fits := by decide

structure ScanoutReq where
  phys : UInt64
  size : UInt64
  fd : Int
  pad : UInt32

structure ScanoutBuf where
  phys : UInt64
  size : UInt64

structure Env where
  kzalloc : Bool
  dmaBufExport : Int
  dmaBufFd : Int
  copyFromUser : Bool
  copyToUser : Bool

def pageAlign (x : UInt64) : UInt64 := (x + 4095) &&& ~~~4095

def scanoutExport (c : Carveout) (e : Env) (req : ScanoutReq) : Except Int (ScanoutBuf × ScanoutReq) :=
  if ¬ e.kzalloc then .error (-12)
  else
    let phys := if req.phys ≠ 0 then req.phys else c.phys
    let size := pageAlign (if req.size ≠ 0 then req.size else c.size)
    if phys < c.phys ∨ phys + size > c.phys + c.size then .error (-34)
    else if e.dmaBufExport ≠ 0 then .error e.dmaBufExport
    -- the buffer is freed with the dma-buf
    else if e.dmaBufFd < 0 then .error e.dmaBufFd
    else .ok (⟨phys, size⟩, { req with fd := e.dmaBufFd })

def getFd : Nat := 0xc0185301

def scanoutIoctl (c : Carveout) (e : Env) (cmd : Nat) (req : ScanoutReq) : Int × Option ScanoutBuf :=
  if cmd ≠ getFd then (-25, none)
  else if ¬ e.copyFromUser then (-14, none)
  else
    match scanoutExport c e req with
    | .error ret => (ret, none)
    | .ok (buf, _) => if ¬ e.copyToUser then (-14, some buf) else (0, some buf)

structure Vma where
  vmStart : UInt64
  vmEnd : UInt64
  vmPgoff : UInt64

structure Mapping where
  pfn : UInt64
  len : UInt64

def scanoutMmap (buf : ScanoutBuf) (vma : Vma) (remap : Int) : Except Int Mapping :=
  let len := vma.vmEnd - vma.vmStart
  if len > buf.size ∨ vma.vmPgoff ≠ 0 then .error (-22)
  else if remap ≠ 0 then .error remap
  else .ok ⟨buf.phys >>> 12, len⟩

def Mapping.pages (m : Mapping) : List Nat :=
  (List.range ((pageAlign m.len).toNat / 4096)).map (m.pfn.toNat + ·)

namespace Carveout

variable (c : Carveout)

/-- The bytes from `phys` on lie in the carveout. -/
def HasRange (phys size : Nat) : Prop := c.phys.toNat ≤ phys ∧ phys + size ≤ c.phys.toNat + c.size.toNat
deriving Decidable

/-- The buffer is a part of the carveout, and so is every page of a mapping of it. -/
def Holds (buf : ScanoutBuf) : Prop :=
  0 < buf.size.toNat ∧ c.HasRange buf.phys.toNat buf.size.toNat ∧
    ∀ vma remap m, scanoutMmap buf vma remap = .ok m → ∀ pfn ∈ m.pages, c.HasRange (4096 * pfn) 4096

/-- Whatever a request exports is a part of the carveout. -/
def Confined (phys size : UInt64) : Prop :=
  ∀ e cmd fd pad ret buf, scanoutIoctl c e cmd ⟨phys, size, fd, pad⟩ = (ret, some buf) → c.Holds buf

def askedPhys (phys : UInt64) : Nat := if phys ≠ 0 then phys.toNat else c.phys.toNat

def askedEnd (phys size : UInt64) : Nat :=
  c.askedPhys phys + ((if size ≠ 0 then size.toNat else c.size.toNat) + 4095) / 4096 * 4096

/-- The end of the range is an address, or the request is refused all the same. -/
def EndsBelow (phys size : UInt64) : Prop :=
  c.askedEnd phys size < 2 ^ 64 ∨ c.askedPhys phys < c.phys.toNat ∨
    c.phys.toNat + c.size.toNat < c.askedEnd phys size % 2 ^ 64

end Carveout

theorem and_not_pageMask (n : Nat) (h : n < 2 ^ 64) : n &&& (2 ^ 64 - 4096) = n / 4096 * 4096 := by
  have hmask : (2 ^ 64 - 4096 : Nat) = (2 ^ 52 - 1) <<< 12 := by decide
  have hshift : n / 4096 * 4096 = n >>> 12 <<< 12 := by
    rw [Nat.shiftLeft_eq, Nat.shiftRight_eq_div_pow]
  rw [hmask, hshift]
  apply Nat.eq_of_testBit_eq
  intro i
  rw [Nat.testBit_and, Nat.testBit_shiftLeft, Nat.testBit_shiftLeft, Nat.testBit_shiftRight,
    Nat.testBit_two_pow_sub_one]
  by_cases h12 : 12 ≤ i
  · by_cases h64 : i < 64
    · simp [h12, show i - 12 < 52 by omega, show 12 + (i - 12) = i by omega]
    · have hbit : n.testBit i = false :=
        Nat.testBit_lt_two_pow (lt_of_lt_of_le h (Nat.pow_le_pow_right (by omega) (by omega)))
      simp [hbit, show 12 + (i - 12) = i by omega]
  · simp [h12]

theorem pageAlign_toNat (x : UInt64) : (pageAlign x).toNat = (x.toNat + 4095) % 2 ^ 64 / 4096 * 4096 := by
  have hmask : (~~~(4095 : UInt64)).toNat = 2 ^ 64 - 4096 := by decide
  rw [pageAlign, UInt64.toNat_and, hmask, UInt64.toNat_add, show (4095 : UInt64).toNat = 4095 from rfl]
  exact and_not_pageMask _ (Nat.mod_lt _ (by decide))

theorem pageAlign_wraps (x : UInt64) : (pageAlign x).toNat = (x.toNat + 4095) / 4096 * 4096 % 2 ^ 64 := by
  have hx := x.toNat_lt
  rw [pageAlign_toNat]
  omega

namespace Carveout

variable {c : Carveout} {phys size : UInt64}

def asked (c : Carveout) (phys size : UInt64) : ScanoutBuf :=
  ⟨if phys ≠ 0 then phys else c.phys, pageAlign (if size ≠ 0 then size else c.size)⟩

theorem asked_phys : (c.asked phys size).phys.toNat = c.askedPhys phys := by
  simp only [asked, askedPhys]
  split <;> rfl

theorem askedPhys_lt_askedEnd (c : Carveout) (phys size : UInt64) : c.askedPhys phys < c.askedEnd phys size := by
  have hpos := c.size_pos
  have hsize : 0 < (if size ≠ 0 then size.toNat else c.size.toNat) := by
    split
    · rename_i h
      exact Nat.pos_of_ne_zero fun h0 => h (UInt64.toNat_inj.mp h0)
    · exact hpos
  simp only [askedEnd]
  omega

theorem asked_size : (c.asked phys size).size.toNat = (c.askedEnd phys size - c.askedPhys phys) % 2 ^ 64 := by
  simp only [asked, pageAlign_wraps, askedEnd, Nat.add_sub_cancel_left]
  split <;> rfl

theorem askedEnd_le (c : Carveout) (phys size : UInt64) : c.askedEnd phys size ≤ c.askedPhys phys + 2 ^ 64 := by
  have h := (if size ≠ 0 then size else c.size).toNat_lt
  rw [apply_ite UInt64.toNat] at h
  simp only [askedEnd]
  omega

theorem asked_end : ((c.asked phys size).phys + (c.asked phys size).size).toNat =
    c.askedEnd phys size % 2 ^ 64 := by
  have hlt := c.askedPhys_lt_askedEnd phys size
  rw [UInt64.toNat_add, asked_phys, asked_size]
  omega

def Passes (c : Carveout) (phys size : UInt64) : Prop :=
  c.phys.toNat ≤ c.askedPhys phys ∧ c.askedEnd phys size % 2 ^ 64 ≤ c.phys.toNat + c.size.toNat

theorem passes_iff : c.Passes phys size ↔ ¬ ((c.asked phys size).phys < c.phys ∨
      (c.asked phys size).phys + (c.asked phys size).size > c.phys + c.size) := by
  have hend : (c.phys + c.size).toNat = c.phys.toNat + c.size.toNat := by
    rw [UInt64.toNat_add, Nat.mod_eq_of_lt c.fits]
  rw [gt_iff_lt, UInt64.lt_iff_toNat_lt, UInt64.lt_iff_toNat_lt, asked_phys, asked_end, hend, Passes]
  omega

theorem scanoutExport_eq (e : Env) (req : ScanoutReq) : scanoutExport c e req =
    if ¬ e.kzalloc then .error (-12)
    else if (c.asked req.phys req.size).phys < c.phys ∨
        (c.asked req.phys req.size).phys + (c.asked req.phys req.size).size > c.phys + c.size then .error (-34)
    else if e.dmaBufExport ≠ 0 then .error e.dmaBufExport
    else if e.dmaBufFd < 0 then .error e.dmaBufFd
    else .ok (c.asked req.phys req.size, { req with fd := e.dmaBufFd }) := rfl

variable {buf : ScanoutBuf}

theorem scanoutExport_ok {e : Env} {req req' : ScanoutReq} (h : scanoutExport c e req = .ok (buf, req')) :
    c.Passes req.phys req.size ∧ buf = c.asked req.phys req.size := by
  rw [scanoutExport_eq] at h
  split at h
  · cases h
  split at h
  · cases h
  rename_i hpass
  split at h
  · cases h
  split at h
  · cases h
  obtain ⟨rfl, -⟩ := Prod.mk.inj (Except.ok.inj h)
  exact ⟨passes_iff.mpr hpass, rfl⟩

theorem scanoutIoctl_some {e : Env} {cmd : Nat} {req : ScanoutReq} {ret : Int}
    (h : scanoutIoctl c e cmd req = (ret, some buf)) :
    c.Passes req.phys req.size ∧ buf = c.asked req.phys req.size := by
  simp only [scanoutIoctl] at h
  split at h
  · cases h
  split at h
  · cases h
  split at h
  · cases h
  · rename_i buf' req' hex
    have hbuf : buf = buf' := by
      split at h <;> exact (Option.some.inj (Prod.mk.inj h).2).symm
    rw [hbuf]
    exact scanoutExport_ok hex

def allFine : Env := ⟨true, 0, 3, true, true⟩

theorem exports (h : c.Passes phys size) :
    scanoutIoctl c allFine getFd ⟨phys, size, 0, 0⟩ = (0, some (c.asked phys size)) := by
  have hok : scanoutExport c allFine ⟨phys, size, 0, 0⟩ = .ok (c.asked phys size, ⟨phys, size, 3, 0⟩) := by
    rw [scanoutExport_eq, if_neg (by simp [allFine]), if_neg (passes_iff.mp h), if_neg (by simp [allFine]),
      if_neg (by simp [allFine])]
    rfl
  simp only [scanoutIoctl, hok]
  rfl

theorem mapping_inside (hrange : c.HasRange buf.phys.toNat buf.size.toNat) (hsize : buf.size.toNat % 4096 = 0)
    {vma : Vma} {remap : Int} {m : Mapping}
    (h : scanoutMmap buf vma remap = .ok m) : ∀ pfn ∈ m.pages, c.HasRange (4096 * pfn) 4096 := by
  simp only [scanoutMmap] at h
  split at h
  · cases h
  rename_i hlen
  split at h
  · cases h
  obtain rfl := Except.ok.inj h
  intro pfn hpfn
  obtain ⟨i, hi, rfl⟩ := List.mem_map.mp hpfn
  have hle : (vma.vmEnd - vma.vmStart).toNat ≤ buf.size.toNat :=
    UInt64.le_iff_toNat_le.mp (UInt64.not_lt.mp fun hlt => hlen (.inl hlt))
  have hpages := List.mem_range.mp hi
  simp only [pageAlign_toNat] at hpages
  have hshift : (buf.phys >>> 12).toNat = buf.phys.toNat / 4096 := by
    rw [UInt64.toNat_shiftRight, Nat.shiftRight_eq_div_pow]
    rfl
  obtain ⟨hlow, hhigh⟩ := hrange
  have hpa := c.phys_aligned
  have hsa := c.size_aligned
  have hfits := c.fits
  simp only [HasRange, hshift]
  omega

theorem holds_of_endsBelow (hends : c.EndsBelow phys size) (hpass : c.Passes phys size) :
    c.Holds (c.asked phys size) := by
  have hlt := c.askedPhys_lt_askedEnd phys size
  obtain ⟨hlow, hhigh⟩ := hpass
  have hend : c.askedEnd phys size < 2 ^ 64 := by
    rcases hends with h | h | h
    · exact h
    · omega
    · omega
  have hsize : (c.asked phys size).size.toNat = c.askedEnd phys size - c.askedPhys phys := by
    rw [asked_size, Nat.mod_eq_of_lt (by omega)]
  have hmod : (c.asked phys size).size.toNat % 4096 = 0 := by
    rw [hsize]
    simp only [askedEnd, Nat.add_sub_cancel_left]
    omega
  rw [Nat.mod_eq_of_lt hend] at hhigh
  have hrange : c.HasRange (c.asked phys size).phys.toNat (c.asked phys size).size.toNat := by
    rw [asked_phys, hsize]
    exact ⟨hlow, by omega⟩
  exact ⟨by omega, hrange, fun _ _ _ hm => mapping_inside hrange hmod hm⟩

theorem not_holds_of_wraps (hends : ¬ c.EndsBelow phys size) : ¬ c.Holds (c.asked phys size) := by
  intro hholds
  obtain ⟨hpos, ⟨_, hhigh⟩, _⟩ := hholds
  have hfits := c.fits
  have hle := c.askedEnd_le phys size
  rw [asked_phys, asked_size] at hhigh
  rw [asked_size] at hpos
  simp only [EndsBelow] at hends
  omega

/-- A request can leave the carveout exactly when the end of its range, the size rounded up to pages, is not below
2^64 and wraps to an address that passes the check. -/
theorem confined_iff (c : Carveout) (phys size : UInt64) : c.Confined phys size ↔ c.EndsBelow phys size := by
  constructor
  · intro hconf
    by_contra hends
    have hpass : c.Passes phys size := by
      simp only [EndsBelow] at hends
      exact ⟨by omega, by omega⟩
    exact not_holds_of_wraps hends (hconf _ _ _ _ _ _ (exports hpass))
  · intro hends e cmd fd pad ret buf h
    obtain ⟨hpass, rfl⟩ := scanoutIoctl_some h
    exact holds_of_endsBelow hends hpass

end Carveout

theorem high_memory_mapped :
    ∃ buf m, scanoutIoctl carveout Carveout.allFine getFd ⟨0x80000000, 0xffffffff80001000, 0, 0⟩ = (0, some buf) ∧
      scanoutMmap buf ⟨0x10000, 0x11000, 0⟩ 0 = .ok m ∧ m.pages = [0x80000] ∧
      ¬ carveout.HasRange (4096 * 0x80000) 4096 ∧ ¬ carveout.Confined 0x80000000 0xffffffff80001000 := by
  refine ⟨⟨0x80000000, 0xffffffff80001000⟩, ⟨0x80000, 0x1000⟩, rfl, rfl, by decide, by decide, ?_⟩
  intro hconf
  have hholds := hconf Carveout.allFine getFd 0 0 0 ⟨0x80000000, 0xffffffff80001000⟩ rfl
  exact absurd hholds.2.1 (by decide)

end H713.Scanout
