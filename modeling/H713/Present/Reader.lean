import H713.Lib.Bytes
import H713.Lib.Chunks
import H713.Lib.Run

/-!
# Present.Reader

The frame reader of `h713-present`: a thread that reads frames of `fsz` bytes into a ring of three slots, and one
consumer. The sections under the mutex are one step each; the reads go on between them. A thread in
`pthread_cond_wait` goes on when it is signalled, or for no reason.
-/

namespace H713.Present

open Function

def ringSlots : Nat := 3

inductive Reader where
  | test
  | waiting
  | reading (slot got : Nat)
  | store (slot got : Nat)
  | ended
deriving DecidableEq, Repr

inductive Consumer where
  | away
  | test
  | waiting
deriving DecidableEq, Repr

structure State where
  slot : Nat → Buf
  filled : Nat → Bool
  head : Nat
  tail : Nat
  eof : Bool
  stop : Bool
  reader : Reader
  consumer : Consumer
  held : Option Nat
  input : List Byte
  returned : List (List Byte)

def start (slot : Nat → Buf) : State where
  slot := slot
  filled := fun _ => false
  head := 0
  tail := 0
  eof := false
  stop := false
  reader := .test
  consumer := .away
  held := none
  input := []
  returned := []

def contents (b : Buf) (k : Nat) : List Byte := (List.range k).map b

def readAt (b : Buf) (off : Nat) (bytes : List Byte) : Buf :=
  fun i => if i < off then b i else (bytes[i - off]?).getD (b i)

theorem contents_readAt (b : Buf) (off : Nat) (bytes : List Byte) :
    contents (readAt b off bytes) (off + bytes.length) = contents b off ++ bytes := by
  rw [contents, List.range_add, List.map_append]
  congr 1
  · refine List.map_congr_left fun i hi => ?_
    simp [readAt, List.mem_range.mp hi]
  · refine List.ext_getElem (by simp) fun i hi hi' => ?_
    simp [readAt, hi']

def signalItem : Consumer → Consumer
  | .waiting => .test
  | c => c

def signalSpace : Reader → Reader
  | .waiting => .test
  | r => r

def readLoop (fsz slot got : Nat) : Reader := if got < fsz then .reading slot got else .store slot got

namespace State

def testSpace (fsz : Nat) (s : State) : State :=
  if s.filled s.head && !s.stop then { s with reader := .waiting }
  else if s.stop then { s with reader := .ended }
  else { s with reader := readLoop fsz s.head 0 }

def read (fsz : Nat) (s : State) (slot got : Nat) (bytes : List Byte) : State :=
  { s with
    slot := update s.slot slot (readAt (s.slot slot) got bytes)
    input := s.input ++ bytes
    reader := readLoop fsz slot (got + bytes.length) }

def store (fsz : Nat) (s : State) (slot got : Nat) : State :=
  if got ≠ fsz then { s with eof := true, consumer := signalItem s.consumer, reader := .ended }
  else
    { s with
      filled := update s.filled slot true
      head := (s.head + 1) % ringSlots
      consumer := signalItem s.consumer
      reader := .test }

def readerGet (fsz : Nat) (s : State) : Option (Option Nat) × State :=
  if !s.filled s.tail && !s.eof then (none, { s with consumer := .waiting })
  else if !s.filled s.tail then (some none, { s with consumer := .away })
  else
    (some (some s.tail),
      { s with
        consumer := .away
        held := some s.tail
        returned :=
          if s.held = none then s.returned ++ [contents (s.slot s.tail) fsz] else s.returned })

def readerRelease (s : State) : State :=
  { s with
    filled := update s.filled s.tail false
    tail := (s.tail + 1) % ringSlots
    held := none
    reader := signalSpace s.reader }

end State

inductive Op where
  | reader
  | read (bytes : List Byte)
  | readEnd
  | wakeReader
  | wakeConsumer
  | get
  | consumer
  | release

def Possible (fsz : Nat) (s : State) : Op → Prop
  | .reader =>
    match s.reader with
    | .test | .store _ _ => True
    | _ => False
  | .read bytes =>
    match s.reader with
    | .reading _ got => bytes ≠ [] ∧ bytes.length ≤ fsz - got
    | _ => False
  | .readEnd =>
    match s.reader with
    | .reading _ _ => True
    | _ => False
  | .wakeReader => s.reader = .waiting
  | .wakeConsumer => s.consumer = .waiting
  | .get => s.consumer = .away
  | .consumer => s.consumer = .test
  | .release => s.consumer = .away ∧ s.held ≠ none

def step (fsz : Nat) (s : State) : Op → Out State (Option (Option Nat))
  | .reader =>
    match s.reader with
    | .store slot got => .ret none (s.store fsz slot got)
    | _ => .ret none (s.testSpace fsz)
  | .read bytes =>
    match s.reader with
    | .reading slot got => .ret none (s.read fsz slot got bytes)
    | _ => .ret none s
  | .readEnd =>
    match s.reader with
    | .reading slot got => .ret none { s with reader := .store slot got }
    | _ => .ret none s
  | .wakeReader => .ret none { s with reader := .test }
  | .wakeConsumer => .ret none { s with consumer := .test }
  | .get => .ret none { s with consumer := .test }
  | .consumer => .ret (s.readerGet fsz).1 (s.readerGet fsz).2
  | .release => .ret none s.readerRelease

inductive Goes (fsz : Nat) (s : State) : Op → Option (Option Nat) → State → Prop where
  | full : s.reader = .test → s.filled s.head = true → s.stop = false →
      Goes fsz s .reader none { s with reader := .waiting }
  | stopped : s.reader = .test → s.stop = true → Goes fsz s .reader none { s with reader := .ended }
  | picked : s.reader = .test → s.filled s.head = false → s.stop = false →
      Goes fsz s .reader none { s with reader := readLoop fsz s.head 0 }
  | read (slot got : Nat) (bytes : List Byte) : s.reader = .reading slot got → bytes ≠ [] →
      bytes.length ≤ fsz - got → Goes fsz s (.read bytes) none (s.read fsz slot got bytes)
  | readEnd (slot got : Nat) : s.reader = .reading slot got →
      Goes fsz s .readEnd none { s with reader := .store slot got }
  | short (slot got : Nat) : s.reader = .store slot got → got ≠ fsz →
      Goes fsz s .reader none { s with eof := true, consumer := signalItem s.consumer, reader := .ended }
  | stored (slot : Nat) : s.reader = .store slot fsz →
      Goes fsz s .reader none
        { s with
          filled := update s.filled slot true
          head := (s.head + 1) % ringSlots
          consumer := signalItem s.consumer
          reader := .test }
  | wokenReader : s.reader = .waiting → Goes fsz s .wakeReader none { s with reader := .test }
  | wokenConsumer : s.consumer = .waiting → Goes fsz s .wakeConsumer none { s with consumer := .test }
  | called : s.consumer = .away → Goes fsz s .get none { s with consumer := .test }
  | empty : s.consumer = .test → s.filled s.tail = false → s.eof = false →
      Goes fsz s .consumer none { s with consumer := .waiting }
  | null : s.consumer = .test → s.filled s.tail = false → s.eof = true →
      Goes fsz s .consumer (some none) { s with consumer := .away }
  | took : s.consumer = .test → s.filled s.tail = true → s.held = none →
      Goes fsz s .consumer (some (some s.tail))
        { s with
          consumer := .away
          held := some s.tail
          returned := s.returned ++ [contents (s.slot s.tail) fsz] }
  | tookAgain (i : Nat) : s.consumer = .test → s.filled s.tail = true → s.held = some i →
      Goes fsz s .consumer (some (some s.tail)) { s with consumer := .away, held := some s.tail }
  | released (i : Nat) : s.consumer = .away → s.held = some i → Goes fsz s .release none s.readerRelease

variable {fsz : Nat} {s : State}

theorem goes_of_testSpace (hr : s.reader = .test) : Goes fsz s .reader none (s.testSpace fsz) := by
  unfold State.testSpace
  split
  · rename_i hf
    simp only [Bool.and_eq_true, Bool.not_eq_true'] at hf
    exact .full hr hf.1 hf.2
  · rename_i hf
    split
    · rename_i hs
      exact .stopped hr hs
    · rename_i hs
      rw [Bool.not_eq_true] at hs
      exact .picked hr (by simpa [hs] using hf) hs

theorem goes_of_store {slot got : Nat} (hr : s.reader = .store slot got) :
    Goes fsz s .reader none (s.store fsz slot got) := by
  unfold State.store
  split
  · rename_i hne
    exact .short slot got hr hne
  · rename_i heq
    cases Decidable.not_not.mp heq
    exact .stored slot hr

theorem goes_of_readerGet (hc : s.consumer = .test) :
    Goes fsz s .consumer (s.readerGet fsz).1 (s.readerGet fsz).2 := by
  unfold State.readerGet
  split
  · rename_i hf
    simp only [Bool.and_eq_true, Bool.not_eq_true'] at hf
    exact .empty hc hf.1 hf.2
  · rename_i he
    split
    · rename_i hf
      rw [Bool.not_eq_true'] at hf
      exact .null hc hf (by simpa [hf] using he)
    · rename_i hf
      have hf' : s.filled s.tail = true := by simpa using hf
      cases hh : s.held with
      | none => simpa [hh] using Goes.took hc hf' hh
      | some i => simpa [hh] using Goes.tookAgain i hc hf' hh

theorem goes_of_step {s' : State} {op : Op} {a : Option (Option Nat)} (hp : Possible fsz s op)
    (hs : step fsz s op = .ret a s') : Goes fsz s op a s' := by
  cases op with
  | reader =>
    simp only [Possible] at hp
    simp only [step] at hs
    cases hr : s.reader with
    | test => rw [hr] at hs; cases hs; exact goes_of_testSpace hr
    | store slot got => rw [hr] at hs; cases hs; exact goes_of_store hr
    | waiting => rw [hr] at hp; exact hp.elim
    | reading slot got => rw [hr] at hp; exact hp.elim
    | ended => rw [hr] at hp; exact hp.elim
  | read bytes =>
    simp only [Possible] at hp
    simp only [step] at hs
    cases hr : s.reader with
    | reading slot got => rw [hr] at hs hp; cases hs; exact .read slot got bytes hr hp.1 hp.2
    | test => rw [hr] at hp; exact hp.elim
    | store slot got => rw [hr] at hp; exact hp.elim
    | waiting => rw [hr] at hp; exact hp.elim
    | ended => rw [hr] at hp; exact hp.elim
  | readEnd =>
    simp only [Possible] at hp
    simp only [step] at hs
    cases hr : s.reader with
    | reading slot got => rw [hr] at hs; cases hs; exact .readEnd slot got hr
    | test => rw [hr] at hp; exact hp.elim
    | store slot got => rw [hr] at hp; exact hp.elim
    | waiting => rw [hr] at hp; exact hp.elim
    | ended => rw [hr] at hp; exact hp.elim
  | wakeReader => cases hs; exact .wokenReader hp
  | wakeConsumer => cases hs; exact .wokenConsumer hp
  | get => cases hs; exact .called hp
  | consumer => cases hs; exact goes_of_readerGet hp
  | release =>
    cases hs
    obtain ⟨i, hi⟩ := Option.ne_none_iff_exists'.mp hp.2
    exact .released i hp.1 hi

/-- The frames from `r` up to `n` are in the ring. -/
structure Ring (fsz : Nat) (slot : Nat → Buf) (filled : Nat → Bool) (head tail : Nat) (input : List Byte)
    (n r : Nat) : Prop where
  head : head = n % ringSlots
  tail : tail = r % ringSlots
  le : r ≤ n
  room : n ≤ r + ringSlots
  filled : ∀ i, filled i = true ↔ ∃ j, r ≤ j ∧ j < n ∧ j % ringSlots = i
  read : fsz * n ≤ input.length
  frames : ∀ j, r ≤ j → j < n → contents (slot (j % ringSlots)) fsz = chunk fsz input j

namespace Ring

variable {fsz : Nat} {slot : Nat → Buf} {filled : Nat → Bool} {head tail : Nat} {input : List Byte} {n r : Nat}

section

variable (h : Ring fsz slot filled head tail input n r)

include h

theorem filled_head : filled head = true ↔ n = r + ringSlots := by
  have hle := h.le
  have hroom := h.room
  rw [h.filled, h.head]
  simp only [ringSlots] at hroom ⊢
  constructor
  · rintro ⟨j, hj, hjn, he⟩; omega
  · rintro rfl; exact ⟨r, by omega⟩

theorem filled_tail : filled tail = true ↔ r < n := by
  rw [h.filled, h.tail]
  constructor
  · rintro ⟨j, hj, hjn, -⟩; omega
  · exact fun hlt => ⟨r, Nat.le_refl r, hlt, rfl⟩

theorem head_ne (hroom : n < r + ringSlots) {j : Nat} (hj : r ≤ j) (hjn : j < n) : j % ringSlots ≠ head := by
  rw [h.head]
  simp only [ringSlots] at hroom ⊢
  omega

theorem written (hroom : n < r + ringSlots) (b : Buf) (bytes : List Byte) :
    Ring fsz (update slot head b) filled head tail (input ++ bytes) n r where
  head := h.head
  tail := h.tail
  le := h.le
  room := h.room
  filled := h.filled
  read := Nat.le_trans h.read (by simp)
  frames := by
    intro j hj hjn
    rw [update_of_ne (h.head_ne hroom hj hjn), h.frames j hj hjn]
    exact (chunk_append (Nat.le_trans (Nat.mul_le_mul_left fsz hjn) h.read) bytes).symm

theorem stored (hroom : n < r + ringSlots) (hread : fsz * (n + 1) ≤ input.length)
    (hframe : contents (slot head) fsz = chunk fsz input n) :
    Ring fsz slot (update filled head true) ((head + 1) % ringSlots) tail input (n + 1) r where
  head := by rw [h.head, Nat.mod_add_mod]
  tail := h.tail
  le := Nat.le_succ_of_le h.le
  room := hroom
  filled := by
    intro i
    have hle := h.le
    by_cases hi : i = head
    · subst hi
      rw [update_self]
      exact ⟨fun _ => ⟨n, by omega, by omega, h.head.symm⟩, fun _ => rfl⟩
    · rw [update_of_ne hi, h.filled]
      constructor
      · rintro ⟨j, hj, hjn, he⟩
        exact ⟨j, hj, by omega, he⟩
      · rintro ⟨j, hj, hjn, he⟩
        have hne : j ≠ n := by rintro rfl; exact hi (he.symm.trans h.head.symm)
        exact ⟨j, hj, by omega, he⟩
  read := hread
  frames := by
    intro j hj hjn
    rcases Nat.lt_succ_iff_lt_or_eq.mp hjn with hlt | rfl
    · exact h.frames j hj hlt
    · rw [← h.head]; exact hframe

theorem released (hlt : r < n) :
    Ring fsz slot (update filled tail false) head ((tail + 1) % ringSlots) input n (r + 1) where
  head := h.head
  tail := by rw [h.tail, Nat.mod_add_mod]
  le := hlt
  room := by have := h.room; omega
  filled := by
    intro i
    have hroom := h.room
    have htail := h.tail
    simp only [ringSlots] at hroom htail ⊢
    by_cases hi : i = tail
    · subst hi
      rw [update_self]
      refine ⟨fun hc => absurd hc (by simp), ?_⟩
      rintro ⟨j, hj, hjn, he⟩
      omega
    · rw [update_of_ne hi, h.filled]
      constructor
      · rintro ⟨j, hj, hjn, he⟩
        have hne : j ≠ r := by rintro rfl; exact hi (he.symm.trans htail.symm)
        exact ⟨j, by omega, hjn, he⟩
      · rintro ⟨j, hj, hjn, he⟩
        exact ⟨j, by omega, hjn, he⟩
  read := h.read
  frames := fun j hj hjn => h.frames j (by omega) hjn

end

end Ring

structure Filling (slot : Nat → Buf) (head : Nat) (n r i got : Nat) (input : List Byte) (fsz : Nat) : Prop where
  atHead : i = head
  room : n < r + ringSlots
  bytes : contents (slot head) got = input.drop (fsz * n)

def ReaderOk (fsz : Nat) (slot : Nat → Buf) (head : Nat) (input : List Byte) (eof : Bool) (n r : Nat) :
    Reader → Prop
  | .test => eof = false ∧ input.length = fsz * n
  | .waiting => eof = false ∧ input.length = fsz * n ∧ n = r + ringSlots
  | .reading i got => eof = false ∧ Filling slot head n r i got input fsz ∧ got < fsz
  | .store i got => eof = false ∧ Filling slot head n r i got input fsz ∧ got ≤ fsz
  | .ended => eof = true ∧ input.length < fsz * (n + 1)

def State.taken (s : State) (r : Nat) : Nat := if s.held = none then r else r + 1

structure Inv (fsz : Nat) (s : State) (n r : Nat) : Prop where
  running : s.stop = false
  ring : Ring fsz s.slot s.filled s.head s.tail s.input n r
  reader : ReaderOk fsz s.slot s.head s.input s.eof n r s.reader
  waits : s.consumer = .waiting → n = r ∧ s.eof = false
  held : ∀ i, s.held = some i → i = s.tail ∧ r < n
  returned : s.returned = (List.range (s.taken r)).map (chunk fsz s.input)

section

variable {fsz : Nat} {slot : Nat → Buf} {head n r i got : Nat} {input : List Byte} {s s' : State} {op : Op}
  {a : Option (Option Nat)}

theorem Filling.length (h : Filling slot head n r i got input fsz) (hread : fsz * n ≤ input.length) :
    input.length = fsz * n + got := by
  have := congrArg List.length h.bytes
  simp only [contents, List.length_map, List.length_range, List.length_drop] at this
  omega

theorem readerOk_readLoop (h : Filling slot head n r i got input fsz) (hle : got ≤ fsz) :
    ReaderOk fsz slot head input false n r (readLoop fsz i got) := by
  unfold readLoop
  split
  · rename_i hlt
    exact ⟨rfl, h, hlt⟩
  · exact ⟨rfl, h, hle⟩

theorem signalItem_ne (c : Consumer) : signalItem c ≠ .waiting := by
  cases c <;> simp [signalItem]

namespace Inv

theorem taken_le (h : Inv fsz s n r) : s.taken r ≤ n := by
  unfold State.taken
  split
  · exact h.ring.le
  · rename_i hne
    obtain ⟨i, hi⟩ := Option.ne_none_iff_exists'.mp hne
    exact (h.held i hi).2

theorem taken_read (h : Inv fsz s n r) : fsz * s.taken r ≤ s.input.length :=
  Nat.le_trans (Nat.mul_le_mul_left fsz h.taken_le) h.ring.read

theorem eof_ended (h : Inv fsz s n r) (he : s.eof = true) : s.reader = .ended ∧ s.input.length < fsz * (n + 1) := by
  have hr := h.reader
  cases hs : s.reader with
  | ended => rw [hs] at hr; exact ⟨rfl, hr.2⟩
  | test | waiting | reading i got | store i got => rw [hs] at hr; cases he.symm.trans hr.1

end Inv

theorem inv_start (fsz : Nat) (slot : Nat → Buf) : Inv fsz (start slot) 0 0 where
  running := rfl
  ring :=
    { head := rfl
      tail := rfl
      le := Nat.le_refl 0
      room := Nat.zero_le _
      filled := by simp [start]
      read := Nat.le_refl 0
      frames := fun j _ hj => absurd hj (Nat.not_lt_zero j) }
  reader := ⟨rfl, rfl⟩
  waits := fun h => by cases h
  held := fun i h => by cases h
  returned := rfl

theorem ReaderOk.released {eof : Bool} {reader : Reader} (h : ReaderOk fsz slot head input eof n r reader) :
    ReaderOk fsz slot head input eof n (r + 1) (signalSpace reader) := by
  cases reader with
  | waiting => exact ⟨h.1, h.2.1⟩
  | test | ended => exact h
  | reading j got | store j got =>
    obtain ⟨he, hfill, hgot⟩ := h
    exact ⟨he, { hfill with room := by have := hfill.room; omega }, hgot⟩

theorem Goes.inv (h : Goes fsz s op a s') (hi : Inv fsz s n r) : ∃ n' r', Inv fsz s' n' r' := by
  have hreader := hi.reader
  cases h with
  | full hr hf _ =>
    rw [hr] at hreader
    exact ⟨n, r, { hi with reader := ⟨hreader.1, hreader.2, hi.ring.filled_head.mp hf⟩ }⟩
  | stopped _ hs => rw [hi.running] at hs; cases hs
  | picked hr hf _ =>
    rw [hr] at hreader
    have hroom : n < r + ringSlots := by
      have hne : n ≠ r + ringSlots := fun he => by
        rw [hi.ring.filled_head.mpr he] at hf
        cases hf
      have := hi.ring.room
      omega
    have hfill : Filling s.slot s.head n r s.head 0 s.input fsz :=
      ⟨rfl, hroom, by rw [← hreader.2, List.drop_length]; rfl⟩
    refine ⟨n, r, { hi with reader := ?_ }⟩
    rw [hreader.1]
    exact readerOk_readLoop hfill (Nat.zero_le _)
  | read i got bytes hr _ hlen =>
    rw [hr] at hreader
    obtain ⟨he, hfill, hgot⟩ := hreader
    obtain rfl := hfill.atHead
    refine ⟨n, r, { hi with ring := hi.ring.written hfill.room _ bytes, reader := ?_, returned := ?_ }⟩
    · have hfill' : Filling (update s.slot s.head (readAt (s.slot s.head) got bytes)) s.head n r s.head
          (got + bytes.length) (s.input ++ bytes) fsz := by
        refine ⟨rfl, hfill.room, ?_⟩
        rw [update_self, contents_readAt, hfill.bytes, List.drop_append_of_le_length hi.ring.read]
      simp only [State.read]
      rw [he]
      exact readerOk_readLoop hfill' (by omega)
    · exact hi.returned.trans (map_chunk_append hi.taken_read bytes).symm
  | readEnd i got hr =>
    rw [hr] at hreader
    exact ⟨n, r, { hi with reader := ⟨hreader.1, hreader.2.1, Nat.le_of_lt hreader.2.2⟩ }⟩
  | short i got hr hne =>
    rw [hr] at hreader
    obtain ⟨he, hfill, hgot⟩ := hreader
    have hlen := hfill.length hi.ring.read
    refine ⟨n, r, { hi with reader := ⟨rfl, ?_⟩, waits := fun hw => absurd hw (signalItem_ne _) }⟩
    change s.input.length < fsz * (n + 1)
    rw [Nat.mul_succ]
    omega
  | stored i hr =>
    rw [hr] at hreader
    obtain ⟨he, hfill, -⟩ := hreader
    obtain rfl := hfill.atHead
    have hlen := hfill.length hi.ring.read
    have hframe : contents (s.slot s.head) fsz = chunk fsz s.input n := by
      rw [hfill.bytes, chunk, List.take_of_length_le (by rw [List.length_drop]; omega)]
    refine ⟨n + 1, r, hi.running, hi.ring.stored hfill.room (by rw [Nat.mul_succ]; omega) hframe,
      ⟨he, by rw [Nat.mul_succ]; exact hlen⟩, fun hw => absurd hw (signalItem_ne _), ?_, hi.returned⟩
    intro i hh
    exact ⟨(hi.held i hh).1, Nat.lt_succ_of_lt (hi.held i hh).2⟩
  | wokenReader hr =>
    rw [hr] at hreader
    exact ⟨n, r, { hi with reader := ⟨hreader.1, hreader.2.1⟩ }⟩
  | wokenConsumer _ | called _ | null _ _ _ => exact ⟨n, r, { hi with waits := fun hw => absurd hw (by simp) }⟩
  | empty _ hf he =>
    have hnr : n = r := by
      have hnot : ¬ r < n := fun hlt => by
        rw [hi.ring.filled_tail.mpr hlt] at hf
        cases hf
      have := hi.ring.le
      omega
    exact ⟨n, r, { hi with waits := fun _ => ⟨hnr, he⟩ }⟩
  | took _ hf hnone =>
    have hlt := hi.ring.filled_tail.mp hf
    refine ⟨n, r, { hi with waits := fun hw => absurd hw (by simp), held := fun i hh => ?_, returned := ?_ }⟩
    · cases hh
      exact ⟨rfl, hlt⟩
    · have hret := hi.returned
      have hframe := hi.ring.frames r (Nat.le_refl r) hlt
      rw [← hi.ring.tail] at hframe
      simp only [State.taken, hnone, if_true, reduceCtorEq, if_false] at hret ⊢
      rw [hret, hframe, List.range_succ, List.map_append]
      rfl
  | tookAgain i _ hf hh =>
    refine ⟨n, r, { hi with waits := fun hw => absurd hw (by simp), held := fun j hj => ?_, returned := ?_ }⟩
    · cases hj
      exact ⟨rfl, hi.ring.filled_tail.mp hf⟩
    · have hret := hi.returned
      simp only [State.taken, hh, reduceCtorEq, if_false] at hret ⊢
      exact hret
  | released i hc hh =>
    have hlt := (hi.held i hh).2
    refine ⟨n, r + 1, hi.running, hi.ring.released hlt, hreader.released, fun hw => ?_, fun j hj => (by cases hj), ?_⟩
    · exact absurd (hc.symm.trans hw) (by simp)
    · have hret := hi.returned
      simp only [State.taken, hh, reduceCtorEq, if_false] at hret
      exact hret

end

theorem inv_run {slot : Nat → Buf} {ops : List Op} (hr : Run (step fsz) (Possible fsz) (start slot) ops s) :
    ∃ n r, Inv fsz s n r := by
  refine Run.inv (I := fun s => ∃ n r, Inv fsz s n r) ?_ hr ⟨0, 0, inv_start fsz slot⟩
  rintro s op a s' ⟨n, r, hi⟩ hp hs
  exact (goes_of_step hp hs).inv hi

section

variable {fsz n r i : Nat} {s s' : State} {op : Op} {a : Option (Option Nat)}

theorem Inv.returned_prefix (hi : Inv fsz s n r) (hpos : 0 < fsz) : s.returned <+: fullChunks fsz s.input := by
  rw [hi.returned]
  exact map_chunk_prefix hpos hi.taken_read

theorem Inv.held_frame (hi : Inv fsz s n r) (hh : s.held = some i) :
    s.returned.getLast? = some (contents (s.slot i) fsz) := by
  obtain ⟨rfl, hlt⟩ := hi.held i hh
  have hframe := hi.ring.frames r (Nat.le_refl r) hlt
  rw [← hi.ring.tail] at hframe
  have hret := hi.returned
  simp only [State.taken, hh, reduceCtorEq, if_false] at hret
  rw [hret, hframe, List.range_succ, List.map_append, List.map_singleton, List.getLast?_concat]

theorem Goes.keeps_held (h : Goes fsz s op a s') (hi : Inv fsz s n r) (hh : s.held = some i) (hop : op ≠ .release) :
    s'.held = some i ∧ s'.slot i = s.slot i := by
  obtain ⟨htail, hlt⟩ := hi.held i hh
  cases h with
  | read j got bytes hr _ _ =>
    have hreader := hi.reader
    rw [hr] at hreader
    obtain ⟨-, hfill, -⟩ := hreader
    have hne := hi.ring.head_ne hfill.room (Nat.le_refl r) hlt
    rw [← hi.ring.tail, ← htail, ← hfill.atHead] at hne
    exact ⟨hh, update_of_ne hne _ _⟩
  | took _ _ hnone => rw [hnone] at hh; cases hh
  | tookAgain _ _ _ _ => exact ⟨congrArg some htail.symm, rfl⟩
  | released _ _ _ => exact absurd rfl hop
  | _ => exact ⟨hh, rfl⟩

theorem Goes.null_all (h : Goes fsz s op (some none) s') (hi : Inv fsz s n r) :
    s'.reader = .ended ∧ s'.returned = fullChunks fsz s'.input := by
  cases h with
  | null _ hf he =>
    obtain ⟨hended, hlt⟩ := hi.eof_ended he
    have hnot : ¬ r < n := fun hlt' => by
      rw [hi.ring.filled_tail.mpr hlt'] at hf
      cases hf
    have hnone : s.held = none := by
      cases hh : s.held with
      | none => rfl
      | some i => exact absurd (hi.held i hh).2 hnot
    have htaken : s.taken r = n := by
      have := hi.ring.le
      simp only [State.taken, hnone, if_true]
      omega
    refine ⟨hended, ?_⟩
    change s.returned = fullChunks fsz s.input
    rw [fullChunks_eq hi.ring.read hlt, hi.returned, htaken]

theorem Goes.returns_held (h : Goes fsz s op (some (some i)) s') : s'.held = some i := by
  cases h <;> rfl

end

end H713.Present
