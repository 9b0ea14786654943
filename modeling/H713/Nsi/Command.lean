import H713.Lib.Bytes
import Mathlib.Data.List.Basic
import Mathlib.Logic.Function.Iterate

/-!
# Nsi.Command

`sunxi_nsi_send_command`: a command block is sealed with a CRC and copied to the shared memory, and the block that
the MIPS leaves there is checked and handed to the caller. The length in that block is the firmware's own.
-/

namespace H713.Nsi

open Function
open Bytes

def statusReg : Nat := 0x04
def cmdReg : Nat := 0x18
def ctrlReg : Nat := 0x00

def cmdBufferOffset : Nat := 0x1000
def respBufferOffset : Nat := 0x1200

def dataSize : Nat := 496
def sealedSize : Nat := 512
def blockSize : Nat := 516

def cmdMagic : Nat := 0x4D495053
def respMagic : Nat := 0x53504952

def crcBit (crc : BitVec 32) : BitVec 32 := if crc.getLsbD 0 then (crc >>> 1) ^^^ 0xEDB88320 else crc >>> 1

def crc32 (seed : BitVec 32) (p : Buf) (len : Nat) : BitVec 32 :=
  (List.range len).foldl (fun crc i => crcBit^[8] (crc ^^^ (p i).setWidth 32)) seed

structure Device where
  regs : Nat → BitVec 32
  sharedMem : Buf
  sequenceCounter : BitVec 32
  cmdBuffer : Buf
  respBuffer : Buf

structure Call where
  cmdId : BitVec 32
  data : Option Buf
  dataLen : Nat
  responseStatus : Bool
  responseData : Option Buf
  responseLen : Option Nat

structure Reply where
  ret : Int
  status : Option Nat
  responseData : Option Buf
  responseLen : Option Nat
  copied : Nat

def Call.fails (call : Call) (ret : Int) : Reply := ⟨ret, none, call.responseData, call.responseLen, 0⟩

def fillCommand (cmd : Buf) (call : Call) (sequence : BitVec 32) : Buf :=
  let cmd := wr cmd 0 4 cmdMagic
  let cmd := wr cmd 4 4 call.cmdId.toNat
  let cmd := wr cmd 8 4 sequence.toNat
  let cmd := wr cmd 12 4 call.dataLen
  let cmd := match call.data with
    | some data => if call.dataLen > 0 then cpy cmd 16 data 0 call.dataLen else cmd
    | none => cmd
  wr cmd sealedSize 4 (crc32 0 cmd sealedSize).toNat

def respStatus (resp : Buf) : Nat := rd resp 8 4
def dataLength (resp : Buf) : Nat := rd resp 12 4

def Valid (sequence : BitVec 32) (resp : Buf) : Prop :=
  (rd resp 0 4 = respMagic ∧ rd resp 4 4 = sequence.toNat) ∧
    rd resp sealedSize 4 = (crc32 0 resp sealedSize).toNat
deriving Decidable

def deliver (call : Call) (resp : Buf) : Reply :=
  let status := if call.responseStatus then some (respStatus resp) else none
  match call.responseData, call.responseLen with
  | some buf, some len =>
    if dataLength resp > 0 then
      let copyLen := min len (dataLength resp)
      ⟨0, status, some (cpy buf 0 resp 16 copyLen), some copyLen, copyLen⟩
    else ⟨0, status, some buf, some len, 0⟩
  | buf, len => ⟨0, status, buf, len, 0⟩

def readResponse (nsi : Device) (mem : Buf) : Buf := cpy nsi.respBuffer 0 mem respBufferOffset blockSize

def ready (nsi : Device) : Bool := (nsi.regs statusReg).getLsbD 0

def sendCommand (nsi : Device) (call : Call) (answer : Option Buf) : Reply × Device :=
  if call.dataLen > dataSize then (call.fails (-22), nsi)
  else if !ready nsi then (call.fails (-16), nsi)
  else
    let sequence := nsi.sequenceCounter + 1
    let cmd := fillCommand nsi.cmdBuffer call sequence
    let nsi := { nsi with
      sequenceCounter := sequence
      cmdBuffer := cmd
      sharedMem := cpy nsi.sharedMem cmdBufferOffset cmd 0 blockSize
      regs := update (update nsi.regs cmdReg call.cmdId) ctrlReg 0b101 }
    match answer with
    | none => (call.fails (-110), nsi)
    | some mem =>
      let resp := readResponse nsi mem
      let nsi := { nsi with sharedMem := mem, respBuffer := resp }
      if Valid sequence resp then (deliver call resp, nsi) else (call.fails (-74), nsi)

/-- Only bytes of the data and of the caller's buffer are copied, and the length reported is their number. -/
structure Reply.Contained (call : Call) (reply : Reply) : Prop where
  data : reply.copied ≤ dataSize
  buffer : ∀ len, call.responseLen = some len → reply.copied ≤ len
  length : reply.ret = 0 → call.responseData.isSome → call.responseLen.isSome →
    reply.responseLen = some reply.copied

/-- Both pointers are given, the block holds what the lengths ask for, and an empty one meets an empty buffer. -/
def LengthsFit (call : Call) (resp : Buf) : Prop :=
  ∀ len, call.responseData.isSome → call.responseLen = some len →
    min len (dataLength resp) ≤ dataSize ∧ (dataLength resp = 0 → len = 0)

theorem fails_contained (call : Call) {ret : Int} (h : ret ≠ 0) : (call.fails ret).Contained call where
  data := Nat.zero_le _
  buffer _ _ := Nat.zero_le _
  length h0 := absurd h0 h

theorem deliver_contained_of_null {call : Call} (resp : Buf)
    (h : call.responseData = none ∨ call.responseLen = none) : (deliver call resp).Contained call := by
  have hcopied : (deliver call resp).copied = 0 := by
    rcases h with h | h
    · simp only [deliver, h]
    · cases hbuf : call.responseData <;> simp only [deliver, h, hbuf]
  refine ⟨?_, ?_, ?_⟩
  · exact hcopied ▸ Nat.zero_le _
  · exact fun _ _ => hcopied ▸ Nat.zero_le _
  · intro _ hbuf hlen
    rcases h with h | h
    · rw [h] at hbuf
      cases hbuf
    · rw [h] at hlen
      cases hlen

theorem deliver_contained_iff (call : Call) (resp : Buf) :
    (deliver call resp).Contained call ↔ LengthsFit call resp := by
  by_cases hnull : call.responseData = none ∨ call.responseLen = none
  · refine iff_of_true (deliver_contained_of_null resp hnull) fun len hbuf hlen => ?_
    rcases hnull with h | h
    · rw [h] at hbuf
      cases hbuf
    · rw [h] at hlen
      cases hlen
  · obtain ⟨hbuf, hlen⟩ := not_or.mp hnull
    obtain ⟨buf, hbuf⟩ := Option.ne_none_iff_exists'.mp hbuf
    obtain ⟨len, hlen⟩ := Option.ne_none_iff_exists'.mp hlen
    have hfit : LengthsFit call resp ↔ min len (dataLength resp) ≤ dataSize ∧ (dataLength resp = 0 → len = 0) := by
      simp [LengthsFit, hbuf, hlen]
    rw [hfit]
    by_cases hpos : dataLength resp > 0
    · have hreply : deliver call resp = ⟨0, if call.responseStatus then some (respStatus resp) else none,
          some (cpy buf 0 resp 16 (min len (dataLength resp))), some (min len (dataLength resp)),
          min len (dataLength resp)⟩ := by
        simp only [deliver, hbuf, hlen, if_pos hpos]
      rw [hreply]
      refine ⟨fun h => ⟨h.data, fun h0 => absurd h0 (by omega)⟩, fun h => ⟨h.1, fun l hl => ?_, fun _ _ _ => rfl⟩⟩
      cases hlen.symm.trans hl
      exact Nat.min_le_left _ _
    · have hreply : deliver call resp = ⟨0, if call.responseStatus then some (respStatus resp) else none, some buf,
          some len, 0⟩ := by
        simp only [deliver, hbuf, hlen, if_neg hpos]
      have hzero : dataLength resp = 0 := by omega
      rw [hreply, hzero]
      refine ⟨fun h => ⟨by simp, fun _ => ?_⟩, fun h => ⟨Nat.zero_le _, fun _ _ => Nat.zero_le _, fun _ _ _ => ?_⟩⟩
      · exact Option.some.inj (h.length rfl (by rw [hbuf]; rfl) (by rw [hlen]; rfl))
      · rw [h.2 rfl]

/-- The call reaches the firmware, which answers with a block that passes the checks. -/
def Answered (nsi : Device) (call : Call) (answer : Option Buf) (mem : Buf) : Prop :=
  call.dataLen ≤ dataSize ∧ ready nsi ∧ answer = some mem ∧ Valid (nsi.sequenceCounter + 1) (readResponse nsi mem)

theorem sendCommand_answered {nsi : Device} {call : Call} {answer : Option Buf} {mem : Buf}
    (h : Answered nsi call answer mem) : (sendCommand nsi call answer).1 = deliver call (readResponse nsi mem) := by
  obtain ⟨hlen, hready, rfl, hvalid⟩ := h
  have hvalid' : Valid (nsi.sequenceCounter + 1)
      (readResponse { nsi with
        sequenceCounter := nsi.sequenceCounter + 1
        cmdBuffer := fillCommand nsi.cmdBuffer call (nsi.sequenceCounter + 1)
        sharedMem := cpy nsi.sharedMem cmdBufferOffset (fillCommand nsi.cmdBuffer call (nsi.sequenceCounter + 1)) 0
          blockSize
        regs := update (update nsi.regs cmdReg call.cmdId) ctrlReg 0b101 } mem) := hvalid
  simp only [sendCommand, if_neg (Nat.not_lt.mpr hlen), hready, Bool.not_true, Bool.false_eq_true, if_false,
    if_pos hvalid']
  rfl

theorem sendCommand_fails {nsi : Device} {call : Call} {answer : Option Buf}
    (h : ∀ mem, ¬ Answered nsi call answer mem) :
    ∃ ret, ret ≠ 0 ∧ (sendCommand nsi call answer).1 = call.fails ret := by
  by_cases hlen : call.dataLen > dataSize
  · exact ⟨-22, by decide, by simp only [sendCommand, if_pos hlen]⟩
  by_cases hready : ready nsi
  · cases answer with
    | none =>
      refine ⟨-110, by decide, ?_⟩
      simp only [sendCommand, if_neg hlen, hready, Bool.not_true, Bool.false_eq_true, if_false]
    | some mem =>
      have hvalid : ¬ Valid (nsi.sequenceCounter + 1) (readResponse nsi mem) :=
        fun hv => h mem ⟨by omega, hready, rfl, hv⟩
      refine ⟨-74, by decide, ?_⟩
      simp only [sendCommand, if_neg hlen, hready, Bool.not_true, Bool.false_eq_true, if_false]
      exact congrArg Prod.fst (if_neg hvalid)
  · exact ⟨-16, by decide, by simp only [sendCommand, if_neg hlen, hready, Bool.not_false, if_true]⟩

/-- A call stays inside the data and the buffer and reports what it copied exactly when the lengths of the answer
and of the buffer fit. -/
theorem sendCommand_contained_iff (nsi : Device) (call : Call) (answer : Option Buf) :
    (sendCommand nsi call answer).1.Contained call ↔
      ∀ mem, Answered nsi call answer mem → LengthsFit call (readResponse nsi mem) := by
  by_cases h : ∃ mem, Answered nsi call answer mem
  · obtain ⟨mem, hans⟩ := h
    rw [sendCommand_answered hans, deliver_contained_iff]
    refine ⟨fun hfit mem' hans' => ?_, fun hall => hall mem hans⟩
    cases hans.2.2.1.symm.trans hans'.2.2.1
    exact hfit
  · obtain ⟨ret, hret, hfails⟩ := sendCommand_fails (not_exists.mp h)
    rw [hfails]
    exact iff_of_true (fails_contained call hret) fun mem hans => absurd ⟨mem, hans⟩ h

theorem crc32_congr {p q : Buf} {len : Nat} (seed : BitVec 32) (h : ∀ i < len, p i = q i) :
    crc32 seed p len = crc32 seed q len := by
  unfold crc32
  refine List.foldl_ext _ _ _ fun crc i hi => ?_
  rw [h i (List.mem_range.mp hi)]

def response (sequence length : Nat) : Buf :=
  let resp := wr (wr (wr (fun _ => 0) 0 4 respMagic) 4 4 sequence) 12 4 length
  wr resp sealedSize 4 (crc32 0 resp sealedSize).toNat

def answerMem (sequence length : Nat) : Buf :=
  cpy (fun _ => 0) respBufferOffset (response sequence length) 0 blockSize

theorem readResponse_answerMem (nsi : Device) (sequence length : Nat) {i : Nat} (hi : i < blockSize) :
    readResponse nsi (answerMem sequence length) i = response sequence length i := by
  simp only [readResponse, answerMem, cpy]
  rw [if_pos (by omega), if_pos (by omega), show 0 + (respBufferOffset + (i - 0) - respBufferOffset) = i by omega]

theorem rd_readResponse (nsi : Device) (sequence length : Nat) {off n : Nat} (h : off + n ≤ blockSize) :
    rd (readResponse nsi (answerMem sequence length)) off n = rd (response sequence length) off n :=
  rd_congr fun _ _ hi => readResponse_answerMem nsi sequence length (by omega)

theorem valid_answerMem (nsi : Device) (sequence : BitVec 32) (length : Nat) :
    Valid sequence (readResponse nsi (answerMem sequence.toNat length)) := by
  refine ⟨⟨?_, ?_⟩, ?_⟩
  · rw [rd_readResponse _ _ _ (by decide), response, rd_wr_of_disjoint (by decide), rd_wr_of_disjoint (by decide),
      rd_wr_of_disjoint (by decide), rd_wr_same]
    rfl
  · rw [rd_readResponse _ _ _ (by decide), response, rd_wr_of_disjoint (by decide), rd_wr_of_disjoint (by decide),
      rd_wr_same]
    exact Nat.mod_eq_of_lt sequence.isLt
  · have hcrc : crc32 0 (readResponse nsi (answerMem sequence.toNat length)) sealedSize =
        crc32 0 (wr (wr (wr (fun _ => 0) 0 4 respMagic) 4 4 sequence.toNat) 12 4 length) sealedSize := by
      refine crc32_congr 0 fun i hi => ?_
      rw [readResponse_answerMem _ _ _ (by simp only [sealedSize, blockSize] at *; omega), response,
        wr_of_not_mem (.inl hi)]
    rw [hcrc, rd_readResponse _ _ _ (by decide), response, rd_wr_same]
    exact Nat.mod_eq_of_lt (BitVec.isLt _)

theorem dataLength_answerMem (nsi : Device) (sequence : Nat) {length : Nat} (h : length < 2 ^ 32) :
    dataLength (readResponse nsi (answerMem sequence length)) = length := by
  rw [dataLength, rd_readResponse _ _ _ (by decide), response, rd_wr_of_disjoint (by decide), rd_wr_same]
  exact Nat.mod_eq_of_lt h

def readyDevice : Device := ⟨fun _ => 1, fun _ => 0, 0, fun _ => 0, fun _ => 0⟩

def pageCall : Call := ⟨1, none, 0, true, some fun _ => 0, some 4096⟩

theorem answered_answerMem (length : Nat) :
    Answered readyDevice pageCall (some (answerMem 1 length)) (answerMem 1 length) :=
  ⟨by decide, by decide, rfl, valid_answerMem readyDevice 1 length⟩

theorem sendCommand_overreads : (sendCommand readyDevice pageCall (some (answerMem 1 4096))).1.copied = 4096 ∧
      (sendCommand readyDevice pageCall (some (answerMem 1 0))).1.ret = 0 ∧
      (sendCommand readyDevice pageCall (some (answerMem 1 0))).1.copied = 0 ∧
      (sendCommand readyDevice pageCall (some (answerMem 1 0))).1.responseLen = some 4096 := by
  rw [sendCommand_answered (answered_answerMem 4096), sendCommand_answered (answered_answerMem 0)]
  simp [deliver, pageCall, dataLength_answerMem]

end H713.Nsi
