import H713.Lib.Circular
import H713.Lib.Run
import H713.Fifo.Code

/-!
# Fifo.Refine

One producer and one consumer on the ring, in any interleaving of their calls. The ring is a queue with room for one
item less than there are slots.
-/

namespace H713.Fifo

open Bytes Circular

abbrev Item (size : Nat) := Fin size → Byte

abbrev Mem := Nat → Byte

def readItem (size : Nat) (m : Mem) (a : Nat) : Item size := fun k => m (a + k)

def writeItem {size : Nat} (m : Mem) (a : Nat) (x : Item size) : Mem := fun i =>
  if h : a ≤ i ∧ i < a + size then x ⟨i - a, by omega⟩ else m i

inductive Producer (size : Nat) where
  | idle
  | got (a : Nat)
  | wrote (x : Item size)

inductive Consumer (size : Nat) where
  | idle
  | got (a : Nat)
  | took (x : Item size)

structure Sys (size : Nat) where
  fifo : Fifo
  mem : Mem
  producer : Producer size
  consumer : Consumer size
  trace : List (Event (Item size))

inductive Act (size : Nat) where
  | getItemWr
  | write (x : Item size)
  | requestItemWr
  | getItemRd
  | read
  | itemRdNext

/-- The order in which each side makes its calls. -/
def Turn {size : Nat} (s : Sys size) : Act size → Prop
  | .getItemWr => s.producer = .idle
  | .write _ => ∃ a, s.producer = .got a
  | .requestItemWr => ∃ x, s.producer = .wrote x
  | .getItemRd => s.consumer = .idle
  | .read => ∃ a, s.consumer = .got a
  | .itemRdNext => ∃ x, s.consumer = .took x

def step {size : Nat} (s : Sys size) : Act size → Out (Sys size) Unit
  | .getItemWr =>
    let a := fifoGetItemWr s.fifo
    .ret () (if a = 0 then s else { s with producer := .got a })
  | .write x =>
    match s.producer with
    | .got a => .ret () { s with mem := writeItem s.mem a x, producer := .wrote x }
    | _ => .ret () s
  | .requestItemWr =>
    match s.producer with
    | .wrote x => .ret () { s with
        fifo := (fifoRequestItemWr s.fifo).2, producer := .idle, trace := s.trace ++ [.put x] }
    | _ => .ret () s
  | .getItemRd =>
    let a := fifoGetItemRd s.fifo
    .ret () (if a = 0 then s else { s with consumer := .got a })
  | .read =>
    match s.consumer with
    | .got a => .ret () { s with consumer := .took (readItem size s.mem a) }
    | _ => .ret () s
  | .itemRdNext =>
    match s.consumer with
    | .took x => .ret () { s with
        fifo := (fifoItemRdNext s.fifo).2, consumer := .idle, trace := s.trace ++ [.take x] }
    | _ => .ret () s

/-- An empty ring, both sides at the start. -/
structure Start {size : Nat} (cap base : Nat) (s : Sys size) : Prop where
  cap_eq : s.fifo.cap = cap
  base_eq : s.fifo.base = base
  size_eq : s.fifo.itemSize = size
  empty : s.fifo.rd = s.fifo.wr
  rd_lt : s.fifo.rd < cap
  producer : s.producer = .idle
  consumer : s.consumer = .idle
  trace : s.trace = []

structure Fits (size cap base : Nat) : Prop where
  two : 2 ≤ cap
  count : cap ≤ 2 ^ 31
  base_pos : 0 < base
  base_lt : base < 2 ^ 32
  product : size * (cap - 1) < 2 ^ 32

structure Shape (size cap base : Nat) (f : Fifo) : Prop where
  cap_eq : f.cap = cap
  base_eq : f.base = base
  size_eq : f.itemSize = size
  rd_lt : f.rd < cap
  wr_lt : f.wr < cap

section

variable {size cap base : Nat} {f : Fifo}

def slot (size base i : Nat) : Nat := base + 0xffff800000000000 + size * i

theorem itemAddr_eq (hf : Fits size cap base) (hs : Shape size cap base f) {i : Nat} (hi : i < cap) :
    itemAddr f i = slot size base i := by
  have hmul : size * i ≤ size * (cap - 1) := Nat.mul_le_mul_left _ (by omega)
  have hp := hf.product
  have hb := hf.base_lt
  have hpos := hf.base_pos
  simp only [itemAddr, ptr64, slot, hs.base_eq, hs.size_eq]
  rw [if_neg (by omega), Nat.mod_eq_of_lt (show size * i < 2 ^ 32 by omega), Nat.mod_eq_of_lt (by omega)]

theorem slot_pos (size base i : Nat) : slot size base i ≠ 0 := by
  simp only [slot]
  omega

theorem slot_disjoint {i j : Nat} (h : i ≠ j) :
    slot size base i + size ≤ slot size base j ∨ slot size base j + size ≤ slot size base i := by
  simp only [slot]
  rcases Nat.lt_or_gt_of_ne h with hij | hij
  · have := Nat.mul_le_mul_left size (show i + 1 ≤ j from hij)
    rw [Nat.mul_add, Nat.mul_one] at this
    omega
  · have := Nat.mul_le_mul_left size (show j + 1 ≤ i from hij)
    rw [Nat.mul_add, Nat.mul_one] at this
    omega

section

variable (hf : Fits size cap base)

include hf

theorem nextIndex_eq {i : Nat} (hi : i < cap) : (i + 1) % 2 ^ 32 % cap = next cap i := by
  have := hf.count
  rw [Nat.mod_eq_of_lt (show i + 1 < 2 ^ 32 by omega)]
  rfl

section

variable (hs : Shape size cap base f)

include hs

theorem fifoGetCount_eq : fifoGetCount f = len cap f.rd f.wr := by
  have hc := hf.count
  have hr := hs.rd_lt
  have hw := hs.wr_lt
  simp only [fifoGetCount, len, hs.cap_eq]
  split
  · simp only [toI32]
    rw [if_pos (by omega)]
  · have e : (cap + 2 ^ 32 - f.rd + f.wr) % 2 ^ 32 = cap - f.rd + f.wr := by omega
    rw [e]
    simp only [toI32]
    rw [if_pos (by omega)]

theorem fifoGetItemWr_eq : fifoGetItemWr f = if len cap f.rd f.wr = cap - 1 then 0 else slot size base f.wr := by
  simp only [fifoGetItemWr, hs.cap_eq, nextIndex_eq hf hs.wr_lt, full_iff hs.rd_lt hs.wr_lt,
    itemAddr_eq hf hs hs.wr_lt]

theorem fifoGetItemRd_eq : fifoGetItemRd f = if len cap f.rd f.wr = 0 then 0 else slot size base f.rd := by
  simp only [fifoGetItemRd, len_eq_zero hs.rd_lt, itemAddr_eq hf hs hs.rd_lt]

theorem requestItemWr_shape (hroom : len cap f.rd f.wr < cap - 1) :
    Shape size cap base (fifoRequestItemWr f).2 ∧ (fifoRequestItemWr f).2.rd = f.rd ∧
      (fifoRequestItemWr f).2.wr = next cap f.wr := by
  have hne : ¬ f.rd = next cap f.wr := by
    rw [full_iff hs.rd_lt hs.wr_lt]
    omega
  simp only [fifoRequestItemWr, hs.cap_eq, nextIndex_eq hf hs.wr_lt]
  rw [if_neg hne]
  split <;>
    exact ⟨⟨rfl, hs.base_eq, hs.size_eq, hs.rd_lt, next_lt hs.wr_lt⟩, rfl, rfl⟩

theorem itemRdNext_shape (hsome : len cap f.rd f.wr ≠ 0) :
    Shape size cap base (fifoItemRdNext f).2 ∧ (fifoItemRdNext f).2.rd = next cap f.rd ∧
      (fifoItemRdNext f).2.wr = f.wr := by
  have hne : ¬ f.rd = f.wr := fun h => hsome ((len_eq_zero hs.rd_lt).mpr h)
  simp only [fifoItemRdNext, hs.cap_eq, nextIndex_eq hf hs.rd_lt]
  rw [if_neg hne]
  split <;>
    exact ⟨⟨rfl, hs.base_eq, hs.size_eq, next_lt hs.rd_lt, hs.wr_lt⟩, rfl, rfl⟩

end

end

end

theorem readItem_writeItem {size : Nat} (m : Mem) (a : Nat) (x : Item size) :
    readItem size (writeItem m a x) a = x := by
  funext k
  simp only [readItem, writeItem]
  rw [dif_pos ⟨by omega, by omega⟩]
  congr 1
  apply Fin.ext
  simp

theorem readItem_writeItem_of_disjoint {size : Nat} (m : Mem) {a b : Nat} (x : Item size)
    (h : a + size ≤ b ∨ b + size ≤ a) : readItem size (writeItem m a x) b = readItem size m b := by
  funext k
  simp only [readItem, writeItem]
  rw [dif_neg (by omega)]

structure Queued {size : Nat} (cap base : Nat) (s : Sys size) (q : List (Item size)) : Prop where
  shape : Shape size cap base s.fifo
  length : q.length = len cap s.fifo.rd s.fifo.wr
  items : ∀ j x, q[j]? = some x → readItem size s.mem (slot size base (nth cap s.fifo.rd j)) = x
  got : ∀ a, s.producer = .got a → a = slot size base s.fifo.wr ∧ q.length < cap - 1
  wrote : ∀ x, s.producer = .wrote x →
    readItem size s.mem (slot size base s.fifo.wr) = x ∧ q.length < cap - 1
  reading : ∀ a, s.consumer = .got a → a = slot size base s.fifo.rd ∧ q ≠ []
  took : ∀ x, s.consumer = .took x → q.head? = some x

namespace Queued

variable {size cap base : Nat} {s s' : Sys size} {q : List (Item size)}

theorem write_slot (h : Queued cap base s q) {j : Nat} (hj : j < q.length) : nth cap s.fifo.rd j ≠ s.fifo.wr :=
  nth_ne h.shape.rd_lt h.shape.wr_lt (h.length ▸ hj)

theorem lt_of_getElem? {j : Nat} {x : Item size} (h : q[j]? = some x) : j < q.length :=
  (List.getElem?_eq_some_iff.mp h).1

theorem getItemWr (hf : Fits size cap base) (h : Queued cap base s q)
    (hs : step s .getItemWr = .ret () s') : Queued cap base s' q := by
  simp only [step, fifoGetItemWr_eq hf h.shape] at hs
  split at hs
  · cases hs
    simp only [if_true]
    exact h
  · rename_i hfull
    rw [if_neg (slot_pos _ _ _)] at hs
    cases hs
    have hlt := len_lt h.shape.rd_lt h.shape.wr_lt
    have hlen := h.length
    refine { h with got := fun a ha => ?_, wrote := fun x hx => by cases hx }
    cases ha
    exact ⟨rfl, by omega⟩

theorem write {x : Item size} (h : Queued cap base s q) (ht : Turn s (.write x))
    (hs : step s (.write x) = .ret () s') : Queued cap base s' q := by
  obtain ⟨a, ha⟩ := ht
  obtain ⟨rfl, hroom⟩ := h.got a ha
  simp only [step, ha] at hs
  cases hs
  refine { h with items := fun j y hj => ?_, got := fun a ha => (by cases ha), wrote := fun y hy => ?_ }
  · rw [readItem_writeItem_of_disjoint _ _ (slot_disjoint (h.write_slot (lt_of_getElem? hj)).symm)]
    exact h.items j y hj
  · cases hy
    exact ⟨readItem_writeItem _ _ _, hroom⟩

theorem requestItemWr (hf : Fits size cap base) (h : Queued cap base s q) {x : Item size}
    (hx : s.producer = .wrote x) (hs : step s .requestItemWr = .ret () s') :
    Queued cap base s' (q ++ [x]) ∧ s'.trace = s.trace ++ [.put x] := by
  obtain ⟨hitem, hroom⟩ := h.wrote x hx
  have hlen := h.length
  obtain ⟨hshape, hrd, hwr⟩ := requestItemWr_shape hf h.shape (by omega)
  have hne : s.fifo.rd ≠ next cap s.fifo.wr := by
    rw [ne_eq, full_iff h.shape.rd_lt h.shape.wr_lt]
    omega
  simp only [step, hx] at hs
  cases hs
  refine ⟨⟨hshape, ?_, fun j y hj => ?_, fun a ha => (by cases ha), fun y hy => (by cases hy),
    fun a ha => ?_, fun y hy => ?_⟩, rfl⟩
  · rw [hrd, hwr, len_put h.shape.rd_lt h.shape.wr_lt hne, ← hlen]
    simp
  · simp only [hrd]
    by_cases hlast : j < q.length
    · rw [List.getElem?_append_left hlast] at hj
      exact h.items j y hj
    · have hlt : j < (q ++ [x]).length := lt_of_getElem? hj
      simp only [List.length_append, List.length_singleton] at hlt
      obtain rfl : j = q.length := by omega
      rw [List.getElem?_concat_length] at hj
      cases hj
      rw [hlen, nth_len h.shape.rd_lt h.shape.wr_lt, hitem]
  · obtain ⟨hrd', hq⟩ := h.reading a ha
    exact ⟨hrd ▸ hrd', by simp⟩
  · have := h.took y hy
    cases q with
    | nil => cases this
    | cons z q => exact this

theorem getItemRd (hf : Fits size cap base) (h : Queued cap base s q)
    (hs : step s .getItemRd = .ret () s') : Queued cap base s' q := by
  simp only [step, fifoGetItemRd_eq hf h.shape] at hs
  split at hs
  · cases hs
    simp only [if_true]
    exact h
  · rename_i hsome
    rw [if_neg (slot_pos _ _ _)] at hs
    cases hs
    refine { h with reading := fun a ha => ?_, took := fun x hx => by cases hx }
    cases ha
    refine ⟨rfl, ?_⟩
    rintro rfl
    exact hsome h.length.symm

theorem read (h : Queued cap base s q) (ht : Turn s .read) (hs : step s .read = .ret () s') :
    Queued cap base s' q := by
  obtain ⟨a, ha⟩ := ht
  obtain ⟨rfl, hq⟩ := h.reading a ha
  simp only [step, ha] at hs
  cases hs
  refine { h with reading := fun a ha => (by cases ha), took := fun x hx => ?_ }
  cases hx
  cases q with
  | nil => exact absurd rfl hq
  | cons y q =>
    have h0 := h.items 0 y rfl
    rw [nth_zero h.shape.rd_lt] at h0
    rw [h0]
    rfl

theorem itemRdNext (hf : Fits size cap base) (h : Queued cap base s q) {x : Item size}
    (hx : s.consumer = .took x) (hs : step s .itemRdNext = .ret () s') :
    q = x :: q.tail ∧ Queued cap base s' q.tail ∧ s'.trace = s.trace ++ [.take x] := by
  obtain ⟨y, rest, rfl⟩ : ∃ y rest, q = y :: rest := by
    have := h.took x hx
    cases q with
    | nil => cases this
    | cons y rest => exact ⟨y, rest, rfl⟩
  obtain rfl : y = x := Option.some.inj (h.took x hx)
  have hlen : rest.length + 1 = len cap s.fifo.rd s.fifo.wr := h.length
  obtain ⟨hshape, hrd, hwr⟩ := itemRdNext_shape hf h.shape (by omega)
  have hne : s.fifo.rd ≠ s.fifo.wr := fun he => by
    rw [(len_eq_zero h.shape.rd_lt).mpr he] at hlen
    omega
  simp only [step, hx] at hs
  cases hs
  refine ⟨rfl, ⟨hshape, ?_, fun j z hj => ?_, fun a ha => ?_, fun z hz => ?_, fun a ha => (by cases ha),
    fun z hz => (by cases hz)⟩, rfl⟩
  · have := len_take h.shape.rd_lt h.shape.wr_lt hne
    simp only [hrd, hwr, List.tail_cons]
    omega
  · simp only [hrd, List.tail_cons, nth_next] at hj ⊢
    exact h.items (j + 1) z (by simpa using hj)
  · obtain ⟨ha', hroom⟩ := h.got a ha
    simp only [List.length_cons] at hroom
    exact ⟨hwr ▸ ha', by simp only [List.tail_cons]; omega⟩
  · obtain ⟨hz', hroom⟩ := h.wrote z hz
    simp only [List.length_cons] at hroom
    exact ⟨hwr ▸ hz', by simp only [List.tail_cons]; omega⟩

end Queued

/-- The ring reports full, empty and its count as the queue of its trace has them, and a slot handed to the
writer shares no byte with an unread one. -/
def IsQueue {size : Nat} (cap : Nat) (s : Sys size) : Prop :=
  ∃ q, Accepts (cap - 1) s.trace q ∧ puts s.trace = takes s.trace ++ q ∧
    (fifoGetItemWr s.fifo = 0 ↔ q.length = cap - 1) ∧
    (fifoGetItemRd s.fifo = 0 ↔ q = []) ∧
    fifoGetCount s.fifo = q.length ∧
    ∀ a, a ≠ 0 → (a = fifoGetItemWr s.fifo ∨ s.producer = .got a) → ∀ j, j < q.length →
      a + size ≤ itemAddr s.fifo (nth cap s.fifo.rd j) ∨ itemAddr s.fifo (nth cap s.fifo.rd j) + size ≤ a

namespace Queued

variable {size cap base : Nat} {s s' : Sys size} {q : List (Item size)}

theorem start (h : Start cap base s) : Queued cap base s [] := by
  refine ⟨⟨h.cap_eq, h.base_eq, h.size_eq, h.rd_lt, h.empty ▸ h.rd_lt⟩, ?_, fun j x hj => ?_,
    fun a ha => ?_, fun x hx => ?_, fun a ha => ?_, fun x hx => ?_⟩
  · rw [h.empty, len_self]
    rfl
  · simp at hj
  · rw [h.producer] at ha; cases ha
  · rw [h.producer] at hx; cases hx
  · rw [h.consumer] at ha; cases ha
  · rw [h.consumer] at hx; cases hx

section

variable (hf : Fits size cap base) (h : Queued cap base s q) (hq : Accepts (cap - 1) s.trace q)

include hf h hq

theorem step {a : Act size} (ht : Turn s a) {u : Unit} (hs : step s a = .ret u s') :
    ∃ q', Queued cap base s' q' ∧ Accepts (cap - 1) s'.trace q' := by
  -- the calls that neither commit nor consume leave the trace
  have hsame : Queued cap base s' q → s'.trace = s.trace →
      ∃ q', Queued cap base s' q' ∧ Accepts (cap - 1) s'.trace q' := by
    intro hq' htr
    exact ⟨q, hq', htr ▸ hq⟩
  cases a with
  | getItemWr =>
    refine hsame (h.getItemWr hf hs) ?_
    simp only [Fifo.step] at hs
    split at hs <;> cases hs <;> rfl
  | write x =>
    refine hsame (h.write ht hs) ?_
    obtain ⟨a, ha⟩ := ht
    simp only [Fifo.step, ha] at hs
    cases hs
    rfl
  | requestItemWr =>
    obtain ⟨x, hx⟩ := ht
    obtain ⟨hq', htr⟩ := h.requestItemWr hf hx hs
    exact ⟨_, hq', htr ▸ .put hq (h.wrote x hx).2⟩
  | getItemRd =>
    refine hsame (h.getItemRd hf hs) ?_
    simp only [Fifo.step] at hs
    split at hs <;> cases hs <;> rfl
  | read =>
    refine hsame (h.read ht hs) ?_
    obtain ⟨a, ha⟩ := ht
    simp only [Fifo.step, ha] at hs
    cases hs
    rfl
  | itemRdNext =>
    obtain ⟨x, hx⟩ := ht
    obtain ⟨hcons, hq', htr⟩ := h.itemRdNext hf hx hs
    exact ⟨_, hq', htr ▸ .take (hcons ▸ hq)⟩

theorem isQueue : IsQueue cap s := by
  have hlen := h.length
  refine ⟨q, hq, hq.fifo, ?_, ?_, ?_, fun a ha hw j hj => ?_⟩
  · rw [fifoGetItemWr_eq hf h.shape, hlen]
    split
    · rename_i hfull; simp [hfull]
    · rename_i hroom; simp [slot_pos, hroom]
  · rw [fifoGetItemRd_eq hf h.shape, ← hlen, ← List.length_eq_zero_iff]
    split
    · rename_i hnone; simp [hnone]
    · rename_i hsome; simp [slot_pos, hsome]
  · rw [fifoGetCount_eq hf h.shape, hlen]
  · have hslot : a = slot size base s.fifo.wr := by
      rcases hw with rfl | hgot
      · rw [fifoGetItemWr_eq hf h.shape] at ha ⊢
        split at ha
        · exact absurd rfl ha
        · rw [if_neg (by assumption)]
      · exact (h.got a hgot).1
    rw [itemAddr_eq hf h.shape (nth_lt h.shape.rd_lt), hslot]
    exact slot_disjoint (h.write_slot hj).symm

end

end Queued

/-- Every interleaving of the two sides' calls on a ring whose buffer fits is a run of a queue for
`cap - 1` items. -/
theorem ring_refines_queue {size cap base : Nat} (hf : Fits size cap base) {s₀ s : Sys size}
    {acts : List (Act size)} (h₀ : Start cap base s₀) (h : Run step Turn s₀ acts s) : IsQueue cap s := by
  have hrun : ∃ q, Queued cap base s q ∧ Accepts (cap - 1) s.trace q :=
    h.inv (I := fun s => ∃ q, Queued cap base s q ∧ Accepts (cap - 1) s.trace q)
      (fun _ _ _ _ ⟨_, hq, hacc⟩ ht hs => hq.step hf hacc ht hs)
      ⟨[], .start h₀, by rw [h₀.trace]; exact .nil⟩
  obtain ⟨q, hq, hacc⟩ := hrun
  exact hq.isQueue hf hacc

def emptyRing (size cap base : Nat) : Sys size where
  fifo := ⟨0, 0, 0, 0, cap, size, base⟩
  mem := fun _ => 0
  producer := .idle
  consumer := .idle
  trace := []

theorem emptyRing_start {size cap base : Nat} (h : 0 < cap) : Start cap base (emptyRing size cap base) :=
  ⟨rfl, rfl, rfl, rfl, h, rfl, rfl, rfl⟩

def putTwo (size : Nat) : List (Act size) :=
  [.getItemWr, .write fun _ => 0, .requestItemWr, .getItemWr, .write fun _ => 0, .requestItemWr]

theorem ring_refines_queue_two : ∃ s, Run step Turn (emptyRing 8 4 0x1000) (putTwo 8) s ∧ IsQueue 4 s := by
  have hrun : Run step Turn (emptyRing 8 4 0x1000) (putTwo 8) _ :=
    .cons rfl rfl (.cons ⟨_, rfl⟩ rfl (.cons ⟨_, rfl⟩ rfl
      (.cons rfl rfl (.cons ⟨_, rfl⟩ rfl (.cons ⟨_, rfl⟩ rfl .nil)))))
  exact ⟨_, hrun, ring_refines_queue ⟨by decide, by decide, by decide, by decide, by decide⟩
    (emptyRing_start (by decide)) hrun⟩

theorem ring_overlaps : ¬ ∀ (size cap base : Nat) (s₀ s : Sys size) (acts : List (Act size)),
    2 ≤ cap → Start cap base s₀ → Run step Turn s₀ acts s → IsQueue cap s := by
  intro h
  have hrun : Run step Turn (emptyRing (2 ^ 31) 4 0x1000) (putTwo (2 ^ 31)) _ :=
    .cons rfl rfl (.cons ⟨_, rfl⟩ rfl (.cons ⟨_, rfl⟩ rfl
      (.cons rfl rfl (.cons ⟨_, rfl⟩ rfl (.cons ⟨_, rfl⟩ rfl .nil)))))
  obtain ⟨q, _, _, _, _, hcount, hapart⟩ := h _ _ _ _ _ _ (by decide) (emptyRing_start (by decide)) hrun
  have hlen : q.length = 2 := by
    have : (2 : Int) = q.length := hcount
    omega
  have hbad := hapart 0xffff800000001000 (by decide) (.inl rfl) 0 (by omega)
  exact absurd hbad (by decide)

end H713.Fifo
