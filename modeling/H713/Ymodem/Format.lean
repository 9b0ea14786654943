import Mathlib.Data.Nat.Digits.Defs
import H713.Lib.Bytes
import H713.Lib.Chunks

/-!
# Ymodem.Format

The bytes of `ymodem_send.py`: frames with a block number, its complement and a CRC, the header block with the name
and the length of the file, and the data blocks, the last of them padded.
-/

namespace H713.Ymodem

def soh : Byte := 0x01

def stx : Byte := 0x02

def crcBit (crc : BitVec 16) : BitVec 16 := if crc.msb then (crc <<< 1) ^^^ 0x1021 else crc <<< 1

def crcByte (crc : BitVec 16) (byte : Byte) : BitVec 16 := crcBit^[8] (crc ^^^ (byte.setWidth 16 <<< 8))

def crc16 (data : List Byte) : BitVec 16 := data.foldl crcByte 0

example : crc16 [0x31, 0x32, 0x33, 0x34, 0x35, 0x36, 0x37, 0x38, 0x39] = 0x31c3 := by decide +kernel

def crcBytes (crc : BitVec 16) : List Byte := [(crc >>> 8).setWidth 8, crc.setWidth 8]

def frame (blknum : Nat) (payload : List Byte) : List Byte :=
  (if payload.length = 1024 then stx else soh) :: BitVec.ofNat 8 blknum :: (0xff - BitVec.ofNat 8 blknum) ::
    (payload ++ crcBytes (crc16 payload))

def payloadSize (hdr : Byte) : Option Nat := if hdr = stx then some 1024 else if hdr = soh then some 128 else none

def parse : List Byte → Option (Byte × List Byte)
  | hdr :: num :: inv :: rest =>
    match payloadSize hdr with
    | some n =>
      if inv = 0xff - num ∧ rest.length = n + 2 ∧ rest.drop n = crcBytes (crc16 (rest.take n)) then
        some (num, rest.take n)
      else none
    | none => none
  | _ => none

theorem parse_frame (blknum : Nat) (payload : List Byte) : parse (frame blknum payload) =
      if payload.length = 128 ∨ payload.length = 1024 then some (BitVec.ofNat 8 blknum, payload) else none := by
  simp only [parse, frame]
  by_cases hlong : payload.length = 1024
  · have hsize : payloadSize stx = some 1024 := rfl
    rw [if_pos hlong, hsize, ← hlong]
    simp [crcBytes]
  · have hsize : payloadSize soh = some 128 := rfl
    rw [if_neg hlong, hsize]
    by_cases hshort : payload.length = 128
    · rw [← hshort]
      simp [crcBytes]
    · simp [crcBytes, hlong, hshort]

/-- Something to send. A path names a file by bytes that are none of them 0. -/
structure File where
  name : List Byte
  data : List Byte
  named : name ≠ []
  noNul : 0 ∉ name

def str (n : Nat) : List Byte :=
  if n = 0 then [0x30] else ((Nat.digits 10 n).reverse.map fun d => BitVec.ofNat 8 (0x30 + d))

def padTo (n : Nat) (b : Byte) (l : List Byte) : List Byte := l ++ List.replicate (n - l.length) b

def hdrText (f : File) : List Byte := f.name ++ 0 :: (str f.data.length ++ [0])

def header (f : File) : List Byte := padTo (if (hdrText f).length ≤ 128 then 128 else 1024) 0 (hdrText f)

def nblocks (f : File) : Nat := (f.data.length + 1023) / 1024

def dataBlock (f : File) (i : Nat) : List Byte := padTo 1024 0x1a (chunk 1024 f.data i)

def nullBlock : List Byte := List.replicate 128 0

theorem length_padTo {n : Nat} {l : List Byte} (h : l.length ≤ n) (b : Byte) : (padTo n b l).length = n := by
  rw [padTo, List.length_append, List.length_replicate]
  omega

theorem length_dataBlock (f : File) (i : Nat) : (dataBlock f i).length = 1024 :=
  length_padTo (by rw [chunk, List.length_take]; exact Nat.min_le_left _ _) _

theorem length_header (f : File) :
    (hdrText f).length ≤ 1024 ↔ (header f).length = 128 ∨ (header f).length = 1024 := by
  unfold header
  split
  · rename_i h
    rw [length_padTo h]
    simp only [true_or, iff_true]
    omega
  · rw [padTo, List.length_append, List.length_replicate]
    omega

def isDigit (b : Byte) : Bool := 0x30 ≤ b && b ≤ 0x39

def number (l : List Byte) : Nat := l.foldl (fun v b => 10 * v + (b.toNat - 0x30)) 0

def headerSize (payload : List Byte) : Nat := number (((payload.dropWhile (· != 0)).drop 1).takeWhile isDigit)

theorem toNat_digit {d : Nat} (h : d < 10) : (BitVec.ofNat 8 (0x30 + d)).toNat = 0x30 + d := by
  rw [BitVec.toNat_ofNat]
  omega

theorem isDigit_ofNat {d : Nat} (h : d < 10) : isDigit (BitVec.ofNat 8 (0x30 + d)) = true := by
  simp only [isDigit, Bool.and_eq_true, decide_eq_true_eq, BitVec.le_def, toNat_digit h]
  simp
  omega

theorem number_str (n : Nat) : number (str n) = n := by
  unfold str
  split
  · rename_i h
    rw [h]
    rfl
  · rw [number, List.foldl_map, List.foldl_reverse]
    have hdigits : ∀ d ∈ Nat.digits 10 n, d < 10 := fun d hd => Nat.digits_lt_base (by decide) hd
    nth_rewrite 2 [← Nat.ofDigits_digits 10 n]
    rw [Nat.ofDigits_eq_foldr]
    generalize Nat.digits 10 n = ds at hdigits
    induction ds with
    | nil => rfl
    | cons d ds ih =>
      have hd := toNat_digit (hdigits d List.mem_cons_self)
      rw [List.foldr_cons, List.foldr_cons, ih fun e he => hdigits e (List.mem_cons_of_mem d he), hd]
      simp only [Nat.cast_id]
      omega

theorem isDigit_str (n : Nat) : ∀ b ∈ str n, isDigit b = true := by
  unfold str
  split
  · intro b hb
    rw [List.mem_singleton.mp hb]
    rfl
  · intro b hb
    obtain ⟨d, hd, rfl⟩ := List.mem_map.mp hb
    exact isDigit_ofNat (Nat.digits_lt_base (by decide) (List.mem_reverse.mp hd))

theorem headerSize_header (f : File) : headerSize (header f) = f.data.length := by
  have hname : ∀ b ∈ f.name, (b != 0) = true := by
    intro b hb
    simp only [bne_iff_ne]
    rintro rfl
    exact f.noNul hb
  simp only [headerSize, header, hdrText, padTo, List.append_assoc, List.cons_append]
  rw [List.dropWhile_append_of_pos hname, List.dropWhile_cons_of_neg (by decide), List.drop_succ_cons,
    List.drop_zero, List.takeWhile_append_of_pos (isDigit_str _), List.takeWhile_cons_of_neg (by decide),
    List.append_nil, number_str]

theorem head_header (f : File) : (header f).head? ≠ some 0 := by
  obtain ⟨b, bs, hb⟩ := List.exists_cons_of_ne_nil f.named
  have hne : b ≠ 0 := by
    rintro rfl
    exact f.noNul (by rw [hb]; exact List.mem_cons_self)
  simpa [header, hdrText, padTo, hb] using hne

def blocks (f : File) (k : Nat) : List Byte := ((List.range k).map (dataBlock f)).flatten

theorem blocks_succ (f : File) (k : Nat) : blocks f (k + 1) = blocks f k ++ dataBlock f k := by
  simp [blocks, List.range_succ]

theorem length_blocks (f : File) (k : Nat) : (blocks f k).length = 1024 * k := by
  induction k with
  | zero => rfl
  | succ k ih => rw [blocks_succ, List.length_append, ih, length_dataBlock, Nat.mul_succ]

theorem blocks_full {f : File} {k : Nat} (h : 1024 * k ≤ f.data.length) : blocks f k = f.data.take (1024 * k) := by
  rw [← flatten_chunks, blocks]
  congr 1
  refine List.map_congr_left fun i hi => ?_
  have hlen : (chunk 1024 f.data i).length = 1024 := by
    have := List.mem_range.mp hi
    rw [chunk, List.length_take, List.length_drop]
    omega
  rw [dataBlock, padTo, hlen, Nat.sub_self, List.replicate_zero, List.append_nil]

theorem take_blocks (f : File) : (blocks f (nblocks f)).take f.data.length = f.data := by
  cases hk : nblocks f with
  | zero =>
    have : f.data.length = 0 := by unfold nblocks at hk; omega
    rw [List.length_eq_zero_iff.mp this]
    rfl
  | succ k =>
    -- the blocks before the last are full, and the last one is padded behind the end of the file
    have hlt : 1024 * k ≤ f.data.length ∧ f.data.length ≤ 1024 * (k + 1) := by unfold nblocks at hk; omega
    rw [blocks_succ, blocks_full hlt.1, dataBlock, padTo, ← List.append_assoc, chunk, ← List.take_add,
      ← Nat.mul_succ, List.take_of_length_le hlt.2, List.take_left']
    rfl

end H713.Ymodem
