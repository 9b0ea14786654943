import H713.Lib.Footprint
import H713.Share.Seq

/-!
# Proto.Incoming

`command_action` on the bytes of the memory, with all it calls. The other CPU writes the share sequences as it
likes; the index of the entry is the byte 16 of the sequence that is read, accepted below the capacity 21 of a ring
for 20 entries. An address is its low 32 bits, which is all that the code keeps of most of them; `__ptr64` puts the
same upper half in front of every one.
-/

namespace H713.Proto.Incoming

open Bytes Fifo Share Smm

structure Site where
  shm : Shm
  size : Nat
  dev : Nat
  cur : Nat
  findWait : Nat → Nat → Nat
  noMemory : Bool

def loadFifo (m : Buf) (f : Nat) : Fifo :=
  ⟨rd m f 4, rd m (f + 4) 4, rd m (f + 8) 4, rd m (f + 12) 4, rd m (f + 16) 4, rd m (f + 20) 4, rd m (f + 24) 4⟩

def storeFifo (m : Buf) (f : Nat) (w : Fifo) : Buf := wr (wr m (f + 4) 4 w.wr) (f + 8) 4 w.peak

def orBits (m : Buf) (a v : Nat) : Buf := wr m a 2 (rd m a 2 ||| v)

def semUp (m : Buf) (a : Nat) : Buf := if a = 0 then m else wr m a 4 (rd m a 4 + 1)

def channelSlot (pool i : Nat) : Nat := pool + 4 * (9 + i * 11)

def commQueryChannel (m : Buf) (pool channelId : Nat) : Nat :=
  match (List.range 32).find? fun i => rd m (channelSlot pool i) 4 = channelId with
  | some i => channelSlot pool i % 2 ^ 32
  | none => 0

def signalChannel (pool callEntry : Nat) (m : Buf) : Halt :=
  let compId := rd m (callEntry + 2) 2
  let channelId := (compId &&& 0xF ||| rd m (callEntry + 16) 4 <<< 4) % 2 ^ 32
  let channelPtr := commQueryChannel m pool channelId
  if channelPtr = 0 then .ret m
  else if rd m (channelPtr + 2) 2 ≠ rd m callEntry 2 then .bug m
  else if rd m (channelPtr + 8) 4 ≠ rd m (callEntry + 16) 4 then .bug m
  else if rd m (channelPtr + 12) 4 ≠ channelId then .bug m
  else .ret (semUp m (channelPtr + 16))

def commAdd2NewCallFifo (pool cmdFifo callEntry : Nat) (m : Buf) : Halt :=
  let wrSlot := fifoGetItemWr (loadFifo m cmdFifo)
  if wrSlot = 0 then .bug m
  else
    let m := wr m (wrSlot % 2 ^ 32) 4 callEntry
    let next := fifoRequestItemWr (loadFifo m cmdFifo)
    let m := storeFifo m cmdFifo next.2
    if next.1 = 0 then .bug m
    else signalChannel pool callEntry (orBits m (callEntry + 10) 0x10)

def commAdd2Call2WQ (s : Site) (callEntry : Nat) (m : Buf) : Halt :=
  if rd m callEntry 2 ≤ 4 then .bug m
  else if s.noMemory then .bug m
  else .ret (orBits m (callEntry + 10) 0x20)

def addReturn2Fifo (fifo data : Nat) (m : Buf) : Halt :=
  let wrSlot := fifoGetItemWr (loadFifo m fifo)
  if wrSlot = 0 then .bug m
  else
    let m := orBits (wr m (wrSlot % 2 ^ 32) 4 data) (data + 10) 0x10
    let next := fifoRequestItemWr (loadFifo m fifo)
    let m := storeFifo m fifo next.2
    if next.1 = 0 then .bug m else .ret m

def count (s : Site) (off : Nat) (m : Buf) : Buf :=
  if s.dev = 0 then m else wr m (s.dev + off) 4 (rd m (s.dev + off) 4 + 1)

def incomingCall (s : Site) (seqR entry : Nat) (m : Buf) : Halt :=
  (if rd m entry 2 ≤ 4 then commAdd2NewCallFifo (s.dev + 48) (seqR + 32) (entry % 2 ^ 32) m
    else commAdd2Call2WQ s entry m).andThen fun m => .ret (count s 4 m)

def waiter (s : Site) (remoteCpu entry : Nat) (m : Buf) : Nat :=
  if (rd m (entry + 6) 2).testBit 1 then s.findWait remoteCpu (rd m (entry + 12) 4)
  else if rd m (entry + 32) 8 = 0 then 0
  else rd m (entry + 32) 8 % 2 ^ 32

def wake (wait entry : Nat) (m : Buf) : Halt :=
  if wait = 0 then .bug m
  else if rd m (entry + 12) 4 ≠ rd m wait 4 then .bug m
  else .ret (semUp (orBits m (entry + 10) 0x40) (wait + 8))

def incomingReturn (s : Site) (seqR remoteCpu entry : Nat) (m : Buf) : Halt :=
  (addReturn2Fifo (seqR + 32) entry m).andThen fun m =>
    let m := count s 1628 (count s 0 m)
    wake (waiter s remoteCpu entry m) entry m

def readSeq (s : Site) (remoteCpu direction : Nat) : Nat := getShareSeq s.shm s.cur remoteCpu direction

def writeSeq (s : Site) (remoteCpu direction : Nat) : Nat := getShareSeq s.shm remoteCpu s.cur direction % 2 ^ 32

def ackAction (s : Site) (cpu direction : Nat) (m : Buf) : Halt :=
  if 1 < cpu ∨ 1 < direction then .ret m
  else
    let seq := readSeq s cpu direction
    if (rd m (seq + 105) 1).testBit 2 then .bug m
    else .ret (semUp m (rd m (seq + 112) 4))

def sendAckLow (s : Site) (seq a2 a3 a4 a5 : Nat) (m : Buf) : Halt :=
  let src := rd m (seq + 1) 1
  let dst := rd m seq 1
  if src ≠ s.cur then .ret m
  else if 1 < rd m (seq + 2) 1 then .ret m
  else if (rd m (seq + 105) 1).testBit 2 then .bug m
  else
    let m := wr (wr (wr (wr m (seq + 104) 1 a2) (seq + 108) 4 a4) (seq + 105) 1 a3) (seq + 112) 8 a5
    let dir := rd m (seq + 2) 1
    -- `queueAction` runs `ack_action` at once
    if dst = src then ackAction s s.cur (if dir = 0 then 0 else 1) m
    else .ret (wr m (seq + 105) 1 (rd m (seq + 105) 1 ||| 4))

/-- The index is accepted and the sent flag is clear. -/
def Reached (m : Buf) (seqR : Nat) : Prop :=
  rd m (seqR + 16) 1 < ringCap ∧ ¬ (rd m (seqR + 8) 1).testBit 2

def callEntry (m : Buf) (seqR : Nat) : Nat := seqR + 104 * rd m (seqR + 16) 1 + 360

def handleEntry (s : Site) (remoteCpu direction seqR entry : Nat) (m : Buf) : Halt :=
  let m := wr (orBits m (entry + 10) 8) (entry + 2) 2 remoteCpu
  (if direction = 0 then incomingCall s seqR entry m else incomingReturn s seqR remoteCpu entry m).andThen fun m =>
    let m := wr m (seqR + 16) 1 20
    sendAckLow s (writeSeq s remoteCpu direction) (rd m (seqR + 16) 1) (rd m (seqR + 8) 1)
      (rd m (seqR + 20) 4) (rd m (seqR + 24) 4) m

def commandAction (s : Site) (remoteCpu direction : Nat) (m : Buf) : Halt :=
  if 1 < remoteCpu ∨ 1 < direction then .ret m
  else
    let seqR := readSeq s remoteCpu direction
    if ringCap ≤ rd m (seqR + 16) 1 then .ret m
    else if (rd m (seqR + 8) 1).testBit 2 then .bug m
    else handleEntry s remoteCpu direction seqR (callEntry m seqR) m

/-- The shared memory and the device fit the `u32` in which the code keeps addresses, and lie apart. -/
structure Site.Placed (s : Site) : Prop where
  cur : s.cur ≤ 1
  base : 0 < s.shm.shMemAddrBase
  room : 19672 ≤ s.size
  vir_end : s.shm.shMemAddrBase + s.size ≤ 2 ^ 32
  dev_end : s.dev + 1632 ≤ 2 ^ 32
  device : s.dev + 1632 ≤ s.shm.shMemAddrBase ∨ s.shm.shMemAddrBase + s.size ≤ s.dev

def Region (s : Site) (a : Nat) : Prop := s.shm.shMemAddrBase + 152 ≤ a ∧ a < s.shm.shMemAddrBase + s.size

/-- The other share sequences and the memory behind, without the acknowledgement; `r` is read, `w` answers. -/
def Foreign (s : Site) (r w a : Nat) : Prop :=
  Region s a ∧ ¬ (r ≤ a ∧ a < r + 2440) ∧ ¬ (w + 104 ≤ a ∧ a < w + 120)

/-- The entry is one of the 20 of the sequence, and no foreign byte changes. -/
structure Contained (s : Site) (remoteCpu direction : Nat) (m : Buf) : Prop where
  entry : Reached m (readSeq s remoteCpu direction) → ∃ k < 20,
    callEntry m (readSeq s remoteCpu direction) = entryVir (readSeq s remoteCpu direction) k
  spared : ∀ a, Foreign s (readSeq s remoteCpu direction) (writeSeq s remoteCpu direction) a →
    (commandAction s remoteCpu direction m).mem a = m a

def ringSlot (m : Buf) (f : Nat) : Nat := fifoGetItemWr (loadFifo m f) % 2 ^ 32

def inRing (m : Buf) (f entry : Nat) : Buf :=
  if fifoGetItemWr (loadFifo m f) = 0 then m else wr m (ringSlot m f) 4 entry

def queued (direction seqR entry : Nat) (m : Buf) : Buf :=
  if direction = 0 → rd m entry 2 ≤ 4 then inRing m (seqR + 32) entry else m

def Used (s : Site) (r w a : Nat) : Prop :=
  (r ≤ a ∧ a < r + 2440) ∨ (w ≤ a ∧ a < w + 120) ∨
    ∃ d ≤ 1, readSeq s s.cur d + 104 ≤ a ∧ a < readSeq s s.cur d + 120

/-- Where the pointers in the memory lead: the slot of the ring is in nothing read later, and the two
semaphores are not in the share sequences. -/
structure Pointers (s : Site) (remoteCpu direction r w : Nat) (m : Buf) : Prop where
  slot : Misses (Used s r w) (ringSlot m (r + 32)) 4
  wait : direction = 1 → Misses (Region s) (waiter s remoteCpu (callEntry m r) m + 8) 4
  ack : rd m w 1 = rd m (w + 1) 1 → Misses (Region s) (rd m (r + 24) 4) 4 ∧
    ∀ d ≤ 1, Misses (Region s) (rd m (readSeq s s.cur d + 112) 4) 4

section

variable {s : Site} {A : Nat → Prop} {m : Buf}

theorem keeps_semUp {a : Nat} (h : Misses A a 4) : Keeps A m (semUp m a) := by
  simp only [semUp]
  split
  · exact .refl
  · exact .wr h

theorem keeps_storeFifo {f : Nat} (h : Misses A (f + 4) 8) (w : Fifo) : Keeps A m (storeFifo m f w) :=
  Keeps.trans (.wr (h.sub (by omega) (by omega))) (.wr (h.sub (by omega) (by omega)))

theorem commQueryChannel_cases (m : Buf) (pool id : Nat) :
    commQueryChannel m pool id = 0 ∨ ∃ i < 32, commQueryChannel m pool id = channelSlot pool i % 2 ^ 32 := by
  simp only [commQueryChannel]
  split
  · rename_i i hi
    exact .inr ⟨i, List.mem_range.mp (List.mem_of_find?_eq_some hi), rfl⟩
  · exact .inl rfl

theorem keeps_signalChannel (hend : s.dev + 1632 ≤ 2 ^ 32) (h : Misses A s.dev 1632) (e : Nat) :
    Keeps A m (signalChannel (s.dev + 48) e m).mem := by
  simp only [signalChannel]
  split
  · exact .refl
  split
  · exact .refl
  split
  · exact .refl
  split
  · exact .refl
  rename_i hne _ _ _
  -- the channel is one of the 32 in the pool of the device
  obtain h0 | ⟨i, hi, he⟩ := commQueryChannel_cases m (s.dev + 48)
    ((rd m (e + 2) 2 &&& 0xF ||| rd m (e + 16) 4 <<< 4) % 2 ^ 32)
  · exact absurd h0 hne
  · rw [he, Nat.mod_eq_of_lt (by simp only [channelSlot]; omega)]
    exact keeps_semUp (h.sub (by simp only [channelSlot]; omega) (by simp only [channelSlot]; omega))

theorem keeps_commAdd2NewCallFifo {f e : Nat} (hend : s.dev + 1632 ≤ 2 ^ 32) (hdev : Misses A s.dev 1632)
    (hf : Misses A (f + 4) 8) (he : Misses A (e + 10) 2) :
    Keeps A (inRing m f e) (commAdd2NewCallFifo (s.dev + 48) f e m).mem := by
  simp only [commAdd2NewCallFifo, inRing, ringSlot]
  split
  · exact .refl
  split
  · exact keeps_storeFifo hf _
  · exact (keeps_storeFifo hf _).trans (Keeps.trans (.wr he) (keeps_signalChannel hend hdev e))

theorem keeps_commAdd2Call2WQ {e : Nat} (he : Misses A (e + 10) 2) : Keeps A m (commAdd2Call2WQ s e m).mem := by
  simp only [commAdd2Call2WQ]
  split
  · exact .refl
  split
  · exact .refl
  · exact .wr he

theorem keeps_addReturn2Fifo {f e : Nat} (hf : Misses A (f + 4) 8) (he : Misses A (e + 10) 2) :
    Keeps A (inRing m f e) (addReturn2Fifo f e m).mem := by
  simp only [addReturn2Fifo, inRing, ringSlot]
  split
  · exact .refl
  split <;> exact Keeps.trans (.wr he) (keeps_storeFifo hf _)

theorem keeps_count {off : Nat} (h : Misses A (s.dev + off) 4) : Keeps A m (count s off m) := by
  simp only [count]
  split
  · exact .refl
  · exact .wr h

theorem keeps_wake {wait e : Nat} (he : Misses A (e + 10) 2) (hw : Misses A (wait + 8) 4) :
    Keeps A m (wake wait e m).mem := by
  simp only [wake]
  split
  · exact .refl
  split
  · exact .refl
  · exact Keeps.trans (.wr he) (keeps_semUp hw)

theorem keeps_ackAction {dir : Nat} (h : Misses A (rd m (readSeq s s.cur dir + 112) 4) 4) :
    Keeps A m (ackAction s s.cur dir m).mem := by
  simp only [ackAction]
  split
  · exact .refl
  split
  · exact .refl
  · exact keeps_semUp h

def acked (seq a2 a3 a4 a5 : Nat) (m : Buf) : Buf :=
  wr (wr (wr (wr m (seq + 104) 1 a2) (seq + 108) 4 a4) (seq + 105) 1 a3) (seq + 112) 8 a5

theorem keeps_acked {seq a2 a3 a4 a5 : Nat} (h : Misses A (seq + 104) 16) : Keeps A m (acked seq a2 a3 a4 a5 m) := by
  refine Keeps.trans (Keeps.trans (Keeps.trans (.wr ?_) (.wr ?_)) (.wr ?_)) (.wr ?_) <;>
    exact h.sub (by omega) (by omega)

theorem acked_pointer {seq a2 a3 a4 a5 l : Nat} (h5 : a5 < 2 ^ 32)
    (hl : l = seq ∨ l + 116 ≤ seq + 104 ∨ seq + 120 ≤ l + 112) :
    rd (acked seq a2 a3 a4 a5 m) (l + 112) 4 = if l = seq then a5 else rd m (l + 112) 4 := by
  simp only [acked]
  split
  · subst l
    rw [rd_wr_le (by decide)]
    exact Nat.mod_eq_of_lt h5
  · simp (disch := omega) only [rd_wr_of_disjoint]

theorem keeps_sendAckLow {seq a2 a3 a4 a5 : Nat} (h : Misses A (seq + 104) 16) (h5 : a5 < 2 ^ 32)
    (hl : ∀ d ≤ 1, readSeq s s.cur d = seq ∨ readSeq s s.cur d + 116 ≤ seq + 104 ∨
      seq + 120 ≤ readSeq s s.cur d + 112) (hack : rd m seq 1 = rd m (seq + 1) 1 → Misses A a5 4 ∧
      ∀ d ≤ 1, readSeq s s.cur d ≠ seq → Misses A (rd m (readSeq s s.cur d + 112) 4) 4) :
    Keeps A m (sendAckLow s seq a2 a3 a4 a5 m).mem := by
  have hpointer : rd m seq 1 = rd m (seq + 1) 1 → ∀ d ≤ 1,
      Misses A (rd (acked seq a2 a3 a4 a5 m) (readSeq s s.cur d + 112) 4) 4 := by
    intro hlocal d hd
    rw [acked_pointer h5 (hl d hd)]
    split
    · exact (hack hlocal).1
    · exact (hack hlocal).2 d hd ‹_›
  simp only [sendAckLow]
  split
  · exact .refl
  split
  · exact .refl
  split
  · exact .refl
  split
  · rename_i hlocal
    refine (keeps_acked h).trans (keeps_ackAction (hpointer hlocal _ ?_))
    split <;> decide
  · exact (keeps_acked h).trans (.wr (h.sub (by omega) (by omega)))

end

section

variable {s : Site} {remoteCpu direction r w entry : Nat} {A B : Nat → Prop} {m m' : Buf}

structure Clear (s : Site) (r w entry : Nat) (A : Nat → Prop) : Prop where
  index : Misses A (r + 16) 1
  ring : Misses A (r + 36) 8
  source : Misses A (entry + 2) 2
  flags : Misses A (entry + 10) 2
  ack : Misses A (w + 104) 16
  device : Misses A s.dev 1632
  dev_end : s.dev + 1632 ≤ 2 ^ 32

theorem keeps_incomingCall (h : Clear s r w entry A) (he : entry < 2 ^ 32) :
    Keeps A (queued 0 r entry m) (incomingCall s r entry m).mem := by
  refine Halt.keeps_andThen ?_ fun m' _ => keeps_count (h.device.sub (by omega) (by omega))
  simp only [queued, forall_const]
  split
  · rw [Nat.mod_eq_of_lt he]
    exact keeps_commAdd2NewCallFifo h.dev_end h.device h.ring h.flags
  · exact keeps_commAdd2Call2WQ h.flags

theorem keeps_incomingReturn (h : Clear s r w entry A)
    (hw : ∀ m', Keeps A (inRing m (r + 32) entry) m' → Misses A (waiter s remoteCpu entry m' + 8) 4) :
    Keeps A (inRing m (r + 32) entry) (incomingReturn s r remoteCpu entry m).mem := by
  have hqueued : Keeps A (inRing m (r + 32) entry) (addReturn2Fifo (r + 32) entry m).mem :=
    keeps_addReturn2Fifo h.ring h.flags
  refine Halt.keeps_andThen hqueued fun m' hm' => ?_
  have hcount : Keeps A m' (count s 1628 (count s 0 m')) :=
    (keeps_count (h.device.sub (by omega) (by omega))).trans (keeps_count (h.device.sub (by omega) (by omega)))
  exact hcount.trans (keeps_wake h.flags (hw _ (hm'.trans hcount)))

theorem waiter_congr (h : Keeps B m m') (hin : ∀ b, (entry + 4 ≤ b ∧ b < entry + 10) ∨
      (entry + 12 ≤ b ∧ b < entry + 104) → B b) : waiter s remoteCpu entry m' = waiter s remoteCpu entry m := by
  simp only [waiter]
  rw [h.rd fun b h1 h2 => hin b (by omega), h.rd fun b h1 h2 => hin b (by omega),
    h.rd fun b h1 h2 => hin b (by omega)]

theorem keeps_queued_mark (hA : Keeps A m (wr (orBits m (entry + 10) 8) (entry + 2) 2 remoteCpu))
    (he : r + 60 ≤ entry) : Keeps A (queued direction r entry m)
      (queued direction r entry (wr (orBits m (entry + 10) 8) (entry + 2) 2 remoteCpu)) := by
  have hrd : ∀ a n, a + n ≤ entry + 2 →
      rd (wr (orBits m (entry + 10) 8) (entry + 2) 2 remoteCpu) a n = rd m a n := by
    intro a n ha
    simp only [orBits]
    rw [rd_wr_of_disjoint (by omega), rd_wr_of_disjoint (by omega)]
  have hring : loadFifo (wr (orBits m (entry + 10) 8) (entry + 2) 2 remoteCpu) (r + 32) =
      loadFifo m (r + 32) := by
    simp only [loadFifo]
    rw [hrd _ _ (by omega), hrd _ _ (by omega), hrd _ _ (by omega), hrd _ _ (by omega), hrd _ _ (by omega),
      hrd _ _ (by omega), hrd _ _ (by omega)]
  simp only [queued, inRing, ringSlot, hring, hrd _ _ (Nat.le_refl _)]
  split
  · split
    · exact hA
    · exact hA.wr_wr
  · exact hA

theorem keeps_queued (h : Misses B (ringSlot m (r + 32)) 4) : Keeps B m (queued direction r entry m) := by
  simp only [queued, inRing]
  split
  · split
    · exact .refl
    · exact .wr h
  · exact .refl

def Own (r entry : Nat) : Prop := r + 360 ≤ entry ∧ entry + 104 ≤ r + 2440

def Kept (s : Site) (r w entry a : Nat) : Prop :=
  Region s a ∧ a ≠ r + 16 ∧ ¬ (r + 36 ≤ a ∧ a < r + 44) ∧ ¬ (entry + 2 ≤ a ∧ a < entry + 4) ∧
    ¬ (entry + 10 ≤ a ∧ a < entry + 12) ∧ ¬ (w + 104 ≤ a ∧ a < w + 120)

theorem clear_kept (hs : s.Placed) : Clear s r w entry (Kept s r w entry) := by
  have hdev := hs.device
  constructor
  · rintro b ⟨-, h, -⟩ hb
    omega
  · rintro b ⟨-, -, h, -⟩ hb
    omega
  · rintro b ⟨-, -, -, h, -⟩ hb
    omega
  · rintro b ⟨-, -, -, -, h, -⟩ hb
    omega
  · rintro b ⟨-, -, -, -, -, h⟩ hb
    omega
  · rintro b ⟨h, -⟩ hb
    simp only [Region] at h
    omega
  · exact hs.dev_end

theorem Foreign.kept (he : Own r entry) {a : Nat} (h : Foreign s r w a) : Kept s r w entry a := by
  obtain ⟨hreg, hown, hack⟩ := h
  simp only [Own] at he
  exact ⟨hreg, by omega, by omega, by omega, by omega, hack⟩

structure Layout (s : Site) (r w : Nat) : Prop where
  placed : s.Placed
  read : Inside s.shm r
  write : Inside s.shm w
  answer : w = r ∨ w + 4880 = r ∨ w = r + 4880
  own : ∀ d ≤ 1, Inside s.shm (readSeq s s.cur d)
  apart : ∀ d ≤ 1, readSeq s s.cur d = w ∨
    ((readSeq s s.cur d + 2440 ≤ w ∨ w + 2440 ≤ readSeq s s.cur d) ∧
      (readSeq s s.cur d + 2440 ≤ r ∨ r + 2440 ≤ readSeq s s.cur d))

theorem Site.Placed.layout (hs : s.Placed) (hr : remoteCpu ≤ 1) (hd : direction ≤ 1) :
    Layout s (readSeq s remoteCpu direction) (writeSeq s remoteCpu direction) := by
  have hcur : s.cur = 0 ∨ s.cur = 1 := Nat.le_one_iff_eq_zero_or_eq_one.mp hs.cur
  have hrem : remoteCpu = 0 ∨ remoteCpu = 1 := Nat.le_one_iff_eq_zero_or_eq_one.mp hr
  have hin := getShareSeq_inside s.shm hr hs.cur hd
  have hw : writeSeq s remoteCpu direction = getShareSeq s.shm remoteCpu s.cur direction := by
    have hroom := hs.room
    have hend := hs.vir_end
    exact Nat.mod_eq_of_lt (Nat.lt_of_lt_of_le (by have := hin.2; omega) hend)
  rw [hw]
  refine ⟨hs, getShareSeq_inside s.shm hs.cur hr hd, hin, ?_,
    fun d hd' => getShareSeq_inside s.shm hs.cur hs.cur hd', fun d hd' => ?_⟩ <;>
    simp only [readSeq, getShareSeq] <;> omega

def Fixed (s : Site) (r w entry a : Nat) : Prop := Kept s r w entry a ∧ Used s r w a

section

variable (hl : Layout s r w) (he : Own r entry)

include hl he

theorem Layout.fixed_message {a : Nat}
    (h : (entry + 4 ≤ a ∧ a < entry + 10) ∨ (entry + 12 ≤ a ∧ a < entry + 104) ∨ (r + 24 ≤ a ∧ a < r + 28) ∨
      (w ≤ a ∧ a < w + 2)) : Fixed s r w entry a := by
  have hroom := hl.placed.room
  have hin := hl.read
  have hinw := hl.write
  have hcases := hl.answer
  simp only [Inside] at hin hinw
  simp only [Fixed, Kept, Used, Region, Own] at he ⊢
  refine ⟨⟨by omega, by omega, by omega, by omega, by omega, by omega⟩, ?_⟩
  obtain h | h | h | h := h
  · exact .inl (by omega)
  · exact .inl (by omega)
  · exact .inl (by omega)
  · exact .inr (.inl (by omega))

theorem Layout.fixed_local {d a : Nat} (hd : d ≤ 1) (hne : readSeq s s.cur d ≠ w) (h1 : readSeq s s.cur d + 112 ≤ a)
    (h2 : a < readSeq s s.cur d + 112 + 4) :
    Fixed s r w entry a := by
  have hroom := hl.placed.room
  have hin := hl.own d hd
  have hcases := (hl.apart d hd).resolve_left hne
  simp only [Inside] at hin
  refine ⟨?_, .inr (.inr ⟨d, hd, by omega, by omega⟩)⟩
  simp only [Kept, Region, Own] at he ⊢
  exact ⟨by omega, by omega, by omega, by omega, by omega, by omega⟩

theorem Layout.ack_away (hp : Pointers s remoteCpu direction r w m) (h : Keeps (Fixed s r w entry) m m')
    (hlocal : rd m' w 1 = rd m' (w + 1) 1) :
    Misses (Region s) (rd m' (r + 24) 4) 4 ∧ ∀ d ≤ 1, readSeq s s.cur d ≠ w →
      Misses (Region s) (rd m' (readSeq s s.cur d + 112) 4) 4 := by
  have hfix : ∀ {a n}, (r + 24 ≤ a ∧ a + n ≤ r + 28) ∨ (w ≤ a ∧ a + n ≤ w + 2) → rd m' a n = rd m a n :=
    fun hin => h.rd fun b h1 h2 => hl.fixed_message he (by omega)
  rw [hfix (.inr (by omega)), hfix (.inr (by omega))] at hlocal
  refine ⟨?_, fun d hd hne => ?_⟩
  · rw [hfix (.inl (by omega))]
    exact (hp.ack hlocal).1
  · rw [h.rd fun b => hl.fixed_local he hd hne]
    exact (hp.ack hlocal).2 d hd

end

theorem keeps_handleEntry (hl : Layout s r (writeSeq s remoteCpu direction)) (hd : direction ≤ 1)
    (he : Own r entry) (hentry : callEntry m r = entry)
    (hp : Pointers s remoteCpu direction r (writeSeq s remoteCpu direction) m) :
    Keeps (Kept s r (writeSeq s remoteCpu direction) entry) (queued direction r entry m)
      (handleEntry s remoteCpu direction r entry m).mem := by
  have hwait := hp.wait
  rw [hentry] at hwait
  have hclear : Clear s r (writeSeq s remoteCpu direction) entry _ := clear_kept hl.placed
  have hfix : ∀ {m'}, Keeps (Kept s r (writeSeq s remoteCpu direction) entry) (queued direction r entry m) m' →
      Keeps (Fixed s r (writeSeq s remoteCpu direction) entry) m m' := fun h =>
    (keeps_queued (hp.slot.mono fun a ha => ha.2)).trans (h.mono fun a ha => ha.1)
  have hqueued : Keeps (Kept s r (writeSeq s remoteCpu direction) entry) (queued direction r entry m)
      (queued direction r entry (wr (orBits m (entry + 10) 8) (entry + 2) 2 remoteCpu)) :=
    keeps_queued_mark (Keeps.trans (.wr hclear.flags) (.wr hclear.source)) (Nat.le_trans (by omega) he.1)
  have hregion : ∀ a, Kept s r (writeSeq s remoteCpu direction) entry a → Region s a := fun a ha => ha.1
  refine Halt.keeps_andThen (hqueued.trans ?_) fun m' hm' => ?_
  · split
    · subst direction
      refine keeps_incomingCall hclear ?_
      have hin := hl.read.2
      have hroom := hl.placed.room
      have hend := hl.placed.vir_end
      have hown := he.2
      omega
    · obtain rfl : direction = 1 := by omega
      have hone : ∀ m, queued 1 r entry m = inRing m (r + 32) entry :=
        fun m => if_pos fun h => absurd h (by decide)
      rw [hone]
      refine keeps_incomingReturn hclear fun m' hm' => ?_
      rw [← hone] at hm'
      rw [waiter_congr (hfix (hqueued.trans hm')) fun b hb => hl.fixed_message he (by omega)]
      exact (hwait rfl).mono hregion
  · have hidx : Keeps (Kept s r (writeSeq s remoteCpu direction) entry) m' (wr m' (r + 16) 1 20) :=
      .wr hclear.index
    have hack := hl.ack_away he hp (hfix (hm'.trans hidx))
    refine hidx.trans (keeps_sendAckLow hclear.ack (rd_lt _ _ 4) (fun d hd' => ?_) fun hlocal => ?_)
    · have hcases := hl.apart d hd'
      omega
    · exact ⟨(hack hlocal).1.mono hregion, fun d hd' hne => ((hack hlocal).2 d hd' hne).mono hregion⟩

theorem callEntry_eq_iff (m : Buf) (seq : Nat) :
    (∃ k < 20, callEntry m seq = entryVir seq k) ↔ rd m (seq + 16) 1 < 20 := by
  simp only [callEntry, entryVir]
  constructor
  · rintro ⟨k, hk, he⟩
    omega
  · intro h
    exact ⟨_, h, by omega⟩

theorem own_callEntry (h : rd m (r + 16) 1 < 20) : Own r (callEntry m r) := by
  simp only [Own, callEntry]
  omega

theorem commandAction_of_reached (hr : remoteCpu ≤ 1) (hd : direction ≤ 1)
    (h : Reached m (readSeq s remoteCpu direction)) : commandAction s remoteCpu direction m =
      handleEntry s remoteCpu direction (readSeq s remoteCpu direction)
        (callEntry m (readSeq s remoteCpu direction)) m := by
  simp only [commandAction]
  rw [if_neg (by omega), if_neg (Nat.not_le.mpr h.1), if_neg h.2]

theorem commandAction_of_not_reached (h : ¬ Reached m (readSeq s remoteCpu direction)) :
    (commandAction s remoteCpu direction m).mem = m := by
  simp only [commandAction]
  split
  · rfl
  split
  · rfl
  split
  · rfl
  · rename_i hcap hsent
    exact absurd ⟨Nat.not_le.mp hcap, hsent⟩ h

end

def site : Site := ⟨⟨0x40000000, 0x50000000⟩, 0x100000, 0x1000, 0, fun _ _ => 0, false⟩

def headers : Buf := fun a =>
  let p := a - (site.shm.shMemAddrBase + 152)
  if site.shm.shMemAddrBase + 152 ≤ a ∧ p < 8 * 2440 then
    if p % 2440 = 0 then BitVec.ofNat 8 (p / 9760)
    else if p % 2440 = 1 then BitVec.ofNat 8 (p / 4880 % 2)
    else if p % 2440 = 2 then BitVec.ofNat 8 (p / 2440 % 2)
    else if p % 2440 = 16 ∨ p % 2440 = 104 then 20
    else 0
  else 0

def withRing (seq i base : Nat) : Buf :=
  wr (wr (wr (wr headers (seq + 16) 1 i) (seq + 48) 4 21) (seq + 52) 4 4) (seq + 56) 4 base

def returnThree : Buf :=
  wr (wr (wr (withRing (readSeq site 1 1) 3 0x60000000) (entryVir (readSeq site 1 1) 3 + 12) 4 7)
    (entryVir (readSeq site 1 1) 3 + 32) 8 0x2000) 0x2000 4 7

theorem site_placed : site.Placed := ⟨by decide, by decide, by decide, by decide, by decide, by decide⟩

theorem pointers_returnThree : Pointers site 1 1 (readSeq site 1 1) (writeSeq site 1 1) returnThree := by
  have hslot : ringSlot returnThree (readSeq site 1 1 + 32) = 0x60000000 := by decide +kernel
  have hwait : waiter site 1 (callEntry returnThree (readSeq site 1 1)) returnThree = 0x2000 := by decide +kernel
  have hhead : rd returnThree (writeSeq site 1 1) 1 ≠ rd returnThree (writeSeq site 1 1 + 1) 1 := by decide +kernel
  refine ⟨?_, fun _ => ?_, fun h => absurd h hhead⟩
  · rw [hslot]
    rintro b (h | h | ⟨d, hd, h⟩) hb <;> simp only [readSeq, writeSeq, getShareSeq, site] at h <;> omega
  · rw [hwait]
    rintro b h hb
    simp only [Region, site] at h
    omega

def seqMips : Nat := readSeq site 1 0

end H713.Proto.Incoming
