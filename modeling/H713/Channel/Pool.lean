import H713.Lib.Slots
import H713.Socket.Init

/-!
# Channel.Pool

The channel pool of `cpu_comm_channel.c`, an array of words: nine words of header and 32 slots of 11 words, of which
the first is the id of the channel. A pointer to a slot is its index; `a` is the low half of the pool's address.
-/

namespace H713.Channel

open Function

open Socket (Words ptr setAll clear setAll_of_notMem clear_of_notMem)

def channelSlotCount : Nat := 32

def channelSlotDwords : Nat := 11

def sessionIdInvalid : Nat := 0xFFFFFFFF

def eNoMem : Int := -12

def eNoEnt : Int := -2

def slotAt (i : Nat) : Nat := 9 + i * channelSlotDwords

def slotId (p : Words) (i : Nat) : Nat := p (slotAt i)

def initSlot (p : Words) (i : Nat) : Words :=
  setAll p [(slotAt i + 8, sessionIdInvalid), (slotAt i + 4, sessionIdInvalid)]

def channelPoolInit (a : Nat) (p : Words) : Words :=
  (List.range channelSlotCount).foldl initSlot
    (setAll p [(0, 0), (1, 0), (2, 1), (3, ptr a 3), (4, ptr a 3), (5, 0), (6, 1), (7, ptr a 7),
      (8, ptr a 7)])

def initial (a : Nat) : Words := channelPoolInit a fun _ => 0

def commQueryChannel (p : Words) (channelId : Nat) : Option Nat :=
  Slots.first channelSlotCount (slotId p) channelId

/-- The id a query uses, `(comp_id & 0xF) | (thread << 4)`. -/
def queryId (compId cpu : Nat) : Nat := compId % 16 ||| cpu * 16 % 2 ^ 32

def channelId (compId cpu : Nat) : Nat := compId % 2 ^ 16 ||| cpu * 16 % 2 ^ 32

def commAddNewChannel (p : Words) (compId cpu : Nat) : Int × Words :=
  match Slots.first channelSlotCount (slotId p) 0 with
  | some i =>
    (0, setAll p [(slotAt i, channelId compId cpu), (slotAt i + 1, 0), (0, (p 0 + 1) % 2 ^ 32)])
  | none => (eNoMem, p)

def commRemoveChannel (p : Words) (compId cpu : Nat) : Int × Words :=
  match Slots.first channelSlotCount (slotId p) (channelId compId cpu) with
  | some i =>
    let p := clear p (slotAt i) channelSlotDwords
    (0, update p 0 ((p 0 + (2 ^ 32 - 1)) % 2 ^ 32))
  | none => (eNoEnt, p)

theorem slotAt_ne_zero (i : Nat) : slotAt i ≠ 0 := by
  simp only [slotAt]
  omega

theorem slotAt_inj {i j : Nat} (h : slotAt i = slotAt j) : i = j := by
  simp only [slotAt, channelSlotDwords] at h
  omega

theorem slotAt_add_ne {i j k l : Nat} (hk : k < 11) (hl : l < 11) (h : k ≠ l) : slotAt i + k ≠ slotAt j + l := by
  simp only [slotAt, channelSlotDwords]
  omega

theorem initSlot_of_ne {p : Words} {i k : Nat} (h8 : slotAt i + 8 ≠ k) (h4 : slotAt i + 4 ≠ k) :
    initSlot p i k = p k := by
  apply setAll_of_notMem
  simp [h8, h4]

theorem foldl_initSlot {k : Nat} (l : List Nat) (p : Words)
    (h : ∀ i ∈ l, slotAt i + 8 ≠ k ∧ slotAt i + 4 ≠ k) : l.foldl initSlot p k = p k := by
  induction l generalizing p with
  | nil => rfl
  | cons i l ih =>
    obtain ⟨h8, h4⟩ := h i (List.mem_cons_self ..)
    rw [List.foldl_cons, ih _ fun j hj => h j (List.mem_cons_of_mem _ hj), initSlot_of_ne h8 h4]

theorem initial_slot (a i : Nat) {k : Nat} (hk : k < 11) (h8 : k ≠ 8) (h4 : k ≠ 4) :
    initial a (slotAt i + k) = 0 := by
  simp only [initial, channelPoolInit]
  rw [foldl_initSlot _ _ fun j _ => ⟨slotAt_add_ne (by decide) hk h8.symm,
    slotAt_add_ne (by decide) hk h4.symm⟩]
  apply setAll_of_notMem
  simp only [slotAt, List.mem_cons, List.not_mem_nil]
  rintro q (rfl | rfl | rfl | rfl | rfl | rfl | rfl | rfl | rfl | h)
  all_goals first | contradiction | (dsimp only; omega)

theorem initial_free (a i : Nat) : slotId (initial a) i = 0 :=
  initial_slot a i (k := 0) (by decide) (by decide) (by decide)

theorem initial_count (a : Nat) : initial a 0 = 0 := by
  simp only [initial, channelPoolInit]
  rw [foldl_initSlot _ _ fun j _ => ⟨by simp only [slotAt]; omega, by simp only [slotAt]; omega⟩]
  rfl

theorem slotId_add (p : Words) (i v c : Nat) :
    slotId (setAll p [(slotAt i, v), (slotAt i + 1, 0), (0, c)]) = update (slotId p) i v := by
  funext j
  have h0 := slotAt_ne_zero j
  have h1 : slotAt j ≠ slotAt i + 1 := slotAt_add_ne (k := 0) (by decide) (by decide) (by decide)
  simp only [slotId, setAll]
  rw [update_of_ne h0, update_of_ne h1]
  by_cases h : j = i
  · subst h
    rw [update_self, update_self]
  · rw [update_of_ne fun he => h (slotAt_inj he), update_of_ne h]
    rfl

theorem slotId_clear (p : Words) (i c : Nat) : slotId (update (clear p (slotAt i) channelSlotDwords) 0 c) =
      update (slotId p) i 0 := by
  funext j
  rw [slotId, update_of_ne (slotAt_ne_zero j)]
  by_cases h : j = i
  · subst h
    simp [clear, channelSlotDwords]
  · rw [clear_of_notMem (by simp only [slotAt, channelSlotDwords]; omega), update_of_ne h]
    rfl

section

variable {p : Words} {i : Nat} (compId cpu : Nat)

theorem commAddNewChannel_some (h : Slots.first channelSlotCount (slotId p) 0 = some i) :
    ∃ p', commAddNewChannel p compId cpu = (0, p') ∧ slotId p' = update (slotId p) i (channelId compId cpu) ∧
      p' 0 = (p 0 + 1) % 2 ^ 32 := by
  rw [commAddNewChannel, h]
  refine ⟨_, rfl, slotId_add .., ?_⟩
  simp [setAll]

theorem commAddNewChannel_none (h : Slots.first channelSlotCount (slotId p) 0 = none) :
    commAddNewChannel p compId cpu = (eNoMem, p) := by
  simp only [commAddNewChannel, h]

theorem commRemoveChannel_some (h : Slots.first channelSlotCount (slotId p) (channelId compId cpu) = some i) :
    ∃ p', commRemoveChannel p compId cpu = (0, p') ∧ slotId p' = update (slotId p) i 0 ∧
      p' 0 = (p 0 + (2 ^ 32 - 1)) % 2 ^ 32 := by
  rw [commRemoveChannel, h]
  refine ⟨_, rfl, slotId_clear .., ?_⟩
  rw [update_self, clear_of_notMem (.inl (Nat.pos_of_ne_zero (slotAt_ne_zero i)))]

theorem commRemoveChannel_none (h : Slots.first channelSlotCount (slotId p) (channelId compId cpu) = none) :
    commRemoveChannel p compId cpu = (eNoEnt, p) := by
  simp only [commRemoveChannel, h]

end

end H713.Channel
