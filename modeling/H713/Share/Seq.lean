import Mathlib.Data.List.Nodup
import H713.Fifo.Words
import H713.Smm.Code

/-!
# Share.Seq

A share sequence, as far as its 20 message entries are concerned: a ring holds the physical addresses of the free
ones. `releaseBody` is the part of `Comm_ReleaseFreeCall` between the down and the up of the socket's semaphore 234,
which is left out.
-/

namespace H713.Share

open Function
open Fifo Smm

def ringCap : Nat := 21

def sessionIdInvalid : Nat := 2 ^ 32 - 1

structure Seq where
  localCpu : Nat
  remoteCpu : Nat
  direction : Nat
  status : Nat
  maxItems : Nat
  sessionId : Nat
  maxItems2 : Nat
  status2 : Nat
  sessionId2 : Nat
  fifo : Fifo
  slot : Nat → Nat
  index : Nat → Nat
  flags : Nat → Nat
  session : Nat → Nat

def getShareSeq (m : Shm) (cpu remote dir : Nat) : Nat :=
  m.shMemAddrBase + 9760 * cpu + 4880 * remote + 2440 * dir + 152

def entryVir (seq j : Nat) : Nat := seq + 360 + j * 104

def initEntry (m : Shm) (seq j : Nat) (s : Seq) : Option Seq :=
  let e := entryVir seq j
  let s := { s with
    index := update s.index e (j % 2 ^ 16)
    session := update s.session e sessionIdInvalid }
  let wrSlotPhy := fifoGetItemWr s.fifo % 2 ^ 32
  if wrSlotPhy = 0 then none
  else some { s with
    slot := update s.slot (m.toVir wrSlotPhy) (if e ≠ 0 then m.toPhy e else 0)
    fifo := (fifoRequestItemWr s.fifo).2 }

def initEntries (m : Shm) (seq : Nat) (s : Seq) : Nat → Option Seq
  | 0 => some s
  | j + 1 => (initEntries m seq s j).bind (initEntry m seq j)

def initHeader (m : Shm) (seq cpu remote i : Nat) (s : Seq) : Seq :=
  let bufVir := seq + 192
  { s with
    localCpu := cpu
    remoteCpu := remote
    direction := i
    status := 0
    maxItems := 20
    sessionId := sessionIdInvalid
    maxItems2 := 20
    status2 := 0
    sessionId2 := sessionIdInvalid
    slot := fun a => if bufVir ≤ a ∧ a < bufVir + 21 * 4 then 0 else s.slot a
    fifo := ⟨0, 0, 0, 1, ringCap, 4, if bufVir ≠ 0 then m.toPhy bufVir else 0⟩ }

def initSeq (m : Shm) (seq cpu remote i : Nat) (s : Seq) : Option Seq :=
  let s := initHeader m seq cpu remote i s
  if fifoGetItemWr s.fifo = 0 then none
  else (initEntries m seq s 20).map fun s => { s with fifo := { s.fifo with track := 0 } }

def commGetFreeCall (m : Shm) (s : Seq) : Out Seq Nat :=
  let slotPhy := fifoGetItemRd s.fifo % 2 ^ 32
  if slotPhy = 0 then .ret 0 s
  else
    let entryPhy := s.slot (m.toVir slotPhy)
    let e := if entryPhy ≠ 0 then m.toVir entryPhy else 0
    if e = 0 then .bug
    else if 19 < s.index e then .bug
    else .ret e { s with flags := update s.flags e 0, fifo := (fifoItemRdNext s.fifo).2 }

def releaseBody (m : Shm) (s : Seq) (call : Nat) : Out Seq Unit :=
  let wrSlotPhy := fifoGetItemWr s.fifo % 2 ^ 32
  if wrSlotPhy = 0 then .bug
  else
    let wrSlotVir := m.toVir wrSlotPhy
    if wrSlotVir = 0 then .bug
    else
      let s := { s with
        flags := update s.flags call 0
        slot := update s.slot wrSlotVir (if call ≠ 0 then m.toPhy call else 0) }
      if (fifoRequestItemWr s.fifo).1 = 0 then .bug
      else .ret () { s with fifo := (fifoRequestItemWr s.fifo).2 }

def commReleaseFreeCall (m : Shm) (cur : Nat) (s : Seq) (call : Nat) : Out Seq Unit :=
  if s.localCpu ≠ cur then .bug
  else if 1 < s.remoteCpu then .bug
  else releaseBody m s call

theorem commReleaseFreeCall_eq {m : Shm} {cur call : Nat} {s : Seq} (hl : s.localCpu = cur)
    (hr : s.remoteCpu ≤ 1) : commReleaseFreeCall m cur s call = releaseBody m s call := by
  rw [commReleaseFreeCall, if_neg (not_not_intro hl), if_neg (Nat.not_lt.mpr hr)]

/-- The shared memory up to the end of the share sequences, in both address spaces. -/
structure Mapped (m : Shm) : Prop where
  phys_pos : 0 < m.shMemAddr
  phys_end : m.shMemAddr + 19672 ≤ 2 ^ 32
  vir_pos : 0 < m.shMemAddrBase
  vir_end : m.shMemAddrBase + 19672 ≤ 2 ^ 32

def Inside (m : Shm) (seq : Nat) : Prop :=
  m.shMemAddrBase + 152 ≤ seq ∧ seq + 2440 ≤ m.shMemAddrBase + 19672

theorem getShareSeq_inside (m : Shm) {cpu remote dir : Nat} (hc : cpu ≤ 1) (hr : remote ≤ 1)
    (hd : dir ≤ 1) : Inside m (getShareSeq m cpu remote dir) := by
  simp only [Inside, getShareSeq]
  omega

section

variable {m : Shm} {seq : Nat}

theorem toPhy_eq (hm : Mapped m) {a : Nat} (h1 : m.shMemAddrBase ≤ a)
    (h2 : a < m.shMemAddrBase + 19672) : m.toPhy a = a - m.shMemAddrBase + m.shMemAddr := by
  have h3 := hm.phys_end
  have h4 := hm.vir_end
  simp only [Shm.toPhy, sub32]
  rw [Nat.mod_eq_of_lt (show m.shMemAddrBase < 2 ^ 32 by omega)]
  omega

theorem toVir_eq (hm : Mapped m) {a : Nat} (h1 : m.shMemAddr ≤ a) (h2 : a < m.shMemAddr + 19672) :
    m.toVir a = a - m.shMemAddr + m.shMemAddrBase := by
  have h3 := hm.phys_end
  have h4 := hm.vir_end
  simp only [Shm.toVir, sub32]
  rw [Nat.mod_eq_of_lt (show m.shMemAddr < 2 ^ 32 by omega)]
  omega

def ringBase (m : Shm) (seq : Nat) : Nat := seq + 192 - m.shMemAddrBase + m.shMemAddr

theorem ring_fits (hm : Mapped m) (hs : Inside m seq) : Fits 4 ringCap (ringBase m seq) := by
  have h1 := hm.phys_end
  have h2 := hm.phys_pos
  simp only [Inside] at hs
  refine ⟨by decide, by decide, ?_, ?_, by decide⟩ <;> simp only [ringBase] <;> omega

def slotVir (m : Shm) (a : Nat) : Nat := m.toVir (a % 2 ^ 32)

section

variable (hm : Mapped m) (hs : Inside m seq)

include hm hs

theorem slot_mod {i : Nat} (hi : i < ringCap) :
    Fifo.slot 4 (ringBase m seq) i % 2 ^ 32 = ringBase m seq + 4 * i := by
  have h1 := hm.phys_end
  simp only [Inside] at hs
  simp only [ringCap] at hi
  simp only [Fifo.slot, ringBase]
  omega

theorem slotVir_slot {i : Nat} (hi : i < ringCap) :
    slotVir m (Fifo.slot 4 (ringBase m seq) i) = seq + 192 + 4 * i := by
  have hs' := hs
  simp only [Inside] at hs'
  rw [slotVir, slot_mod hm hs hi]
  simp only [ringCap] at hi
  rw [toVir_eq hm (by simp only [ringBase]; omega) (by simp only [ringBase]; omega)]
  simp only [ringBase]
  omega

theorem ring_apart : SlotsApart ringCap (ringBase m seq) (slotVir m) := by
  intro i hi j hj h
  rw [slotVir_slot hm hs hi, slotVir_slot hm hs hj] at h
  omega

end

def entries (seq : Nat) : List Nat := (List.range 20).map (entryVir seq)

variable {e : Nat}

theorem mem_entries : e ∈ entries seq ↔ ∃ j < 20, entryVir seq j = e := by
  simp only [entries, List.mem_map, List.mem_range]

theorem entries_nodup (seq : Nat) : (entries seq).Nodup := by
  refine List.Nodup.map (fun a b h => ?_) List.nodup_range
  simp only [entryVir] at h
  omega

theorem entries_length (seq : Nat) : (entries seq).length = 20 := by
  simp [entries]

theorem entry_bounds (hs : Inside m seq) (he : e ∈ entries seq) :
    m.shMemAddrBase < e ∧ e < m.shMemAddrBase + 19672 := by
  obtain ⟨j, hj, rfl⟩ := mem_entries.mp he
  simp only [Inside] at hs
  simp only [entryVir]
  omega

theorem entry_toPhy_ne (hm : Mapped m) (hs : Inside m seq) (he : e ∈ entries seq) : m.toPhy e ≠ 0 := by
  obtain ⟨h1, h2⟩ := entry_bounds hs he
  rw [toPhy_eq hm (by omega) h2]
  omega

theorem entry_toVir (hm : Mapped m) (hs : Inside m seq) (he : e ∈ entries seq) : m.toVir (m.toPhy e) = e := by
  obtain ⟨h1, h2⟩ := entry_bounds hs he
  rw [toPhy_eq hm (by omega) h2, toVir_eq hm (by omega) (by omega)]
  omega

end

def Seq.taken (s : Seq) (e : Nat) : Seq :=
  { s with flags := update s.flags e 0, fifo := (fifoItemRdNext s.fifo).2 }

def Seq.given (s : Seq) (m : Shm) (e : Nat) : Seq :=
  { s with
    flags := update s.flags e 0
    slot := update s.slot (slotVir m (fifoGetItemWr s.fifo)) (m.toPhy e)
    fifo := (fifoRequestItemWr s.fifo).2 }

/-- The ring holds the entries `q`. -/
structure HoldsFree (m : Shm) (seq : Nat) (s : Seq) (q : List Nat) : Prop where
  ring : HoldsQueue ringCap (ringBase m seq) (slotVir m) s.fifo s.slot (q.map m.toPhy)
  mem : ∀ e ∈ q, e ∈ entries seq
  index : ∀ e ∈ entries seq, s.index e ≤ 19

namespace HoldsFree

variable {m : Shm} {seq e : Nat} {s : Seq} {q : List Nat}

section

variable (hm : Mapped m) (hs : Inside m seq)

include hm hs

theorem get_nil (h : HoldsFree m seq s []) : commGetFreeCall m s = .ret 0 s := by
  have hrd := h.ring.getItemRd_nil (ring_fits hm hs)
  simp only [commGetFreeCall, hrd, Nat.zero_mod, if_true]

theorem get_cons (h : HoldsFree m seq s (e :: q)) :
    commGetFreeCall m s = .ret e (s.taken e) ∧ HoldsFree m seq (s.taken e) q := by
  have he : e ∈ entries seq := h.mem e (List.mem_cons_self ..)
  obtain ⟨hrd, hword⟩ := h.ring.getItemRd_cons (ring_fits hm hs)
  have hslot : Fifo.slot 4 (ringBase m seq) s.fifo.rd % 2 ^ 32 ≠ 0 := by
    rw [slot_mod hm hs h.ring.shape.rd_lt]
    have := (ring_fits hm hs).base_pos
    omega
  have hentry : s.slot (m.toVir (Fifo.slot 4 (ringBase m seq) s.fifo.rd % 2 ^ 32)) = m.toPhy e := hword
  have hpos : e ≠ 0 := by
    have := (entry_bounds hs he).1
    omega
  refine ⟨?_, h.ring.itemRdNext (ring_fits hm hs),
    fun x hx => h.mem x (List.mem_cons_of_mem _ hx), h.index⟩
  simp only [commGetFreeCall, Seq.taken, hrd, if_neg hslot, hentry, ne_eq, entry_toPhy_ne hm hs he,
    not_false_eq_true, if_true, entry_toVir hm hs he, if_neg hpos,
    if_neg (Nat.not_lt.mpr (h.index e he))]

theorem get {s' : Seq} (h : HoldsFree m seq s q) (hg : commGetFreeCall m s = .ret e s') :
    (e = 0 ∧ s' = s) ∨ ∃ q', q = e :: q' ∧ e ≠ 0 ∧ HoldsFree m seq s' q' ∧
      s'.localCpu = s.localCpu ∧ s'.remoteCpu = s.remoteCpu := by
  cases q with
  | nil =>
    obtain ⟨rfl, rfl⟩ := Out.ret.inj ((h.get_nil hm hs).symm.trans hg)
    exact .inl ⟨rfl, rfl⟩
  | cons x q =>
    obtain ⟨hx, hq⟩ := h.get_cons hm hs
    obtain ⟨rfl, rfl⟩ := Out.ret.inj (hx.symm.trans hg)
    have hpos := (entry_bounds hs (h.mem x (List.mem_cons_self ..))).1
    exact .inr ⟨q, rfl, by omega, hq, rfl, rfl⟩

theorem release_room (h : HoldsFree m seq s q) (hq : q.length < 20) (he : e ∈ entries seq) :
    releaseBody m s e = .ret () (s.given m e) ∧ HoldsFree m seq (s.given m e) (q ++ [e]) := by
  have hf := ring_fits hm hs
  have hlen : (q.map m.toPhy).length < ringCap - 1 := by simpa [ringCap] using hq
  have hwr := h.ring.getItemWr_room hf hlen
  obtain ⟨i, -, hreq⟩ := h.ring.requestItemWr_room hf hlen
  have hslot : Fifo.slot 4 (ringBase m seq) s.fifo.wr % 2 ^ 32 ≠ 0 := by
    rw [slot_mod hm hs h.ring.shape.wr_lt]
    have := hf.base_pos
    omega
  have hvir : m.toVir (Fifo.slot 4 (ringBase m seq) s.fifo.wr % 2 ^ 32) ≠ 0 := by
    have h1 := slotVir_slot hm hs h.ring.shape.wr_lt
    rw [slotVir] at h1
    rw [h1]
    omega
  have hpos : e ≠ 0 := by
    have := (entry_bounds hs he).1
    omega
  have hring := h.ring.requestItemWr (x := m.toPhy e) hf (ring_apart hm hs) hlen
  refine ⟨?_, ?_, fun x hx => ?_, h.index⟩
  · simp only [releaseBody, Seq.given, slotVir, hwr, if_neg hslot, if_neg hvir, hreq,
      if_neg (slot_pos _ _ _), ne_eq, hpos, not_false_eq_true, if_true]
  · rw [List.map_append]
    simp only [Seq.given, hwr]
    exact hring
  · rcases List.mem_append.mp hx with hx | hx
    · exact h.mem x hx
    · rw [List.mem_singleton.mp hx]; exact he

theorem release_full (h : HoldsFree m seq s q) (hq : q.length = 20) : releaseBody m s e = .bug := by
  have hwr := h.ring.getItemWr_full (ring_fits hm hs) (by simpa [ringCap] using hq)
  simp only [releaseBody, hwr, Nat.zero_mod, if_true]

end

end HoldsFree

section

variable {m : Shm} {seq cpu remote i k : Nat} {s : Seq}

structure Filled (m : Shm) (seq cpu remote : Nat) (k : Nat) (s : Seq) : Prop where
  ring : HoldsQueue ringCap (ringBase m seq) (slotVir m) s.fifo s.slot
    (((List.range k).map (entryVir seq)).map m.toPhy)
  index : ∀ j < k, s.index (entryVir seq j) = j
  localCpu : s.localCpu = cpu
  remoteCpu : s.remoteCpu = remote

section

variable (hm : Mapped m) (hs : Inside m seq)

include hm hs

theorem initHeader_filled : Filled m seq cpu remote 0 (initHeader m seq cpu remote i s) := by
  have hb : (if seq + 192 ≠ 0 then m.toPhy (seq + 192) else 0) = ringBase m seq := by
    simp only [Inside] at hs
    rw [if_pos (by omega), toPhy_eq hm (by omega) (by omega)]
    rfl
  refine ⟨HoldsQueue.nil ⟨rfl, hb, rfl, by simp [initHeader, ringCap], by simp [initHeader, ringCap]⟩ rfl,
    fun j hj => absurd hj (Nat.not_lt_zero j), rfl, rfl⟩

theorem initEntry_filled (h : Filled m seq cpu remote k s) (hk : k < 20) :
    ∃ s', initEntry m seq k s = some s' ∧ Filled m seq cpu remote (k + 1) s' := by
  have hf := ring_fits hm hs
  have hlen : (((List.range k).map (entryVir seq)).map m.toPhy).length < ringCap - 1 := by
    simpa [ringCap] using hk
  have hwr := h.ring.getItemWr_room hf hlen
  have hslot : Fifo.slot 4 (ringBase m seq) s.fifo.wr % 2 ^ 32 ≠ 0 := by
    rw [slot_mod hm hs h.ring.shape.wr_lt]
    have := hf.base_pos
    omega
  have hpos : entryVir seq k ≠ 0 := by
    simp only [entryVir]
    omega
  have hring := h.ring.requestItemWr (x := m.toPhy (entryVir seq k)) hf (ring_apart hm hs) hlen
  simp only [initEntry, hwr, if_neg hslot, ne_eq, hpos, not_false_eq_true, if_true]
  refine ⟨_, rfl, ?_, fun j hj => ?_, h.localCpu, h.remoteCpu⟩
  · simp only [List.range_succ, List.map_append, List.map_cons, List.map_nil]
    exact hring
  · by_cases hjk : j = k
    · subst hjk
      simp only [update_self]
      exact Nat.mod_eq_of_lt (by omega)
    · have hne : entryVir seq j ≠ entryVir seq k := by
        simp only [entryVir]
        omega
      simp only [update_of_ne hne]
      exact h.index j (by omega)

theorem initEntries_filled (h : Filled m seq cpu remote 0 s) :
    ∀ k ≤ 20, ∃ s', initEntries m seq s k = some s' ∧ Filled m seq cpu remote k s' := by
  intro k
  induction k with
  | zero => intro _; exact ⟨s, rfl, h⟩
  | succ k ih =>
    intro hk
    obtain ⟨s₁, h₁, hf₁⟩ := ih (by omega)
    obtain ⟨s₂, h₂, hf₂⟩ := initEntry_filled hm hs hf₁ (by omega)
    exact ⟨s₂, by simp only [initEntries, h₁, Option.bind_some, h₂], hf₂⟩

theorem initSeq_holdsFree (cpu remote i : Nat) (s : Seq) :
    ∃ s', initSeq m seq cpu remote i s = some s' ∧ HoldsFree m seq s' (entries seq) ∧
      s'.localCpu = cpu ∧ s'.remoteCpu = remote := by
  have h0 : Filled m seq cpu remote 0 (initHeader m seq cpu remote i s) := initHeader_filled hm hs
  have hwr : fifoGetItemWr (initHeader m seq cpu remote i s).fifo ≠ 0 := by
    rw [h0.ring.getItemWr_room (ring_fits hm hs) (by simp [ringCap])]
    exact slot_pos _ _ _
  obtain ⟨s₁, h₁, hf⟩ := initEntries_filled hm hs h0 20 (Nat.le_refl _)
  refine ⟨{ s₁ with fifo := { s₁.fifo with track := 0 } }, ?_, ⟨?_, fun e he => he, ?_⟩,
    hf.localCpu, hf.remoteCpu⟩
  · simp only [initSeq, if_neg hwr, h₁, Option.map_some]
  · have hsh := hf.ring.shape
    exact ⟨⟨hsh.cap_eq, hsh.base_eq, hsh.size_eq, hsh.rd_lt, hsh.wr_lt⟩, hf.ring.length, hf.ring.items⟩
  · intro e he
    obtain ⟨j, hj, rfl⟩ := mem_entries.mp he
    have := hf.index j hj
    simp only
    omega

end

end

def shmAt64K : Shm := ⟨0x20000, 0x10000⟩

theorem shmAt64K_mapped : Mapped shmAt64K :=
  ⟨by decide, by decide, by decide, by decide⟩

def zeroSeq : Seq :=
  ⟨0, 0, 0, 0, 0, 0, 0, 0, 0, ⟨0, 0, 0, 0, 0, 0, 0⟩, fun _ => 0, fun _ => 0, fun _ => 0, fun _ => 0⟩

end H713.Share
