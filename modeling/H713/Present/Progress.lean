import H713.Lib.Endless
import H713.Present.Reader

/-!
# Present.Progress

The reader and the consumer do not block each other for ever: each waits only while the other can go on.
-/

namespace H713.Present

open Function

def OfReader : Op → Prop
  | .reader | .read _ | .readEnd => True
  | _ => False

/-- An endless run in which `read` returns, and neither thread is put off for ever. -/
structure Trace (fsz : Nat) (slot : Nat → Buf) (s : Nat → State) (op : Nat → Option Op) : Prop extends
    Endless (fun s o s' => Possible fsz s o ∧ ∃ a, step fsz s o = .ret a s') (start slot) s op where
  reader_fair : WeakFair (fun t => (s t).reader ≠ .waiting ∧ (s t).reader ≠ .ended)
    (fun t => ∃ o, op t = some o ∧ OfReader o)
  consumer_fair : WeakFair (fun t => (s t).consumer = .test) (fun t => op t = some .consumer)

def Releases (s : Nat → State) (op : Nat → Option Op) : Prop :=
  WeakFair (fun t => (s t).held ≠ none) (fun t => op t = some .release)

/-- The consumer calls `reader_get` again and again, at least until the input ends. -/
def Asks (s : Nat → State) (op : Nat → Option Op) : Prop :=
  WeakFair (fun t => (s t).consumer = .away ∧ (s t).held = none ∧ (s t).eof = false) (fun t => op t = some .get)

def Counted (fsz : Nat) (s : State) : Prop := ∃ n r, Inv fsz s n r

namespace Trace

variable {fsz : Nat} {slot : Nat → Buf} {s : Nat → State} {op : Nat → Option Op}

theorem goes (h : Trace fsz slot s op) : Endless (fun s o s' => ∃ a, Goes fsz s o a s') (start slot) s op :=
  h.toEndless.map fun _ _ _ ⟨hp, a, hs⟩ => ⟨a, goes_of_step hp hs⟩

theorem counted (h : Trace fsz slot s op) (t : Nat) : Counted fsz (s t) := by
  refine h.goes.inv (I := Counted fsz) ⟨0, 0, inv_start fsz slot⟩ ?_ t
  rintro s o s' ⟨n, r, hi⟩ ⟨a, hg⟩
  exact hg.inv hi

end Trace

structure Starved (s : State) : Prop where
  called : s.consumer ≠ .away
  empty : s.filled s.tail = false
  more : s.eof = false

/-- `reader_get` is about to find a frame, or the end. -/
structure Served (s : State) : Prop where
  test : s.consumer = .test
  found : s.filled s.tail = true ∨ s.eof = true

def rank (fsz : Nat) : Reader → Nat
  | .test => fsz + 3
  | .waiting => fsz + 3
  | .reading _ got => fsz - got + 2
  | .store _ _ => 1
  | .ended => 0

section

variable {fsz n r : Nat} {s s' : State} {op : Op} {a : Option (Option Nat)}

theorem signalItem_of_called {c : Consumer} (h : c ≠ .away) : signalItem c = .test := by
  cases c with
  | away => exact absurd rfl h
  | test | waiting => rfl

theorem Inv.starved (hi : Inv fsz s n r) (h : Starved s) : n = r ∧ s.reader ≠ .waiting ∧ s.reader ≠ .ended := by
  have hnr : n = r := by
    have hnot : ¬ r < n := fun hlt => by
      have := h.empty
      rw [hi.ring.filled_tail.mpr hlt] at this
      cases this
    have := hi.ring.le
    omega
  have hreader := hi.reader
  refine ⟨hnr, fun hr => ?_, fun hr => ?_⟩
  · rw [hr] at hreader
    have := hreader.2.2
    simp only [ringSlots] at this
    omega
  · rw [hr] at hreader
    cases h.more.symm.trans hreader.1

theorem Inv.starved_or_served (hi : Inv fsz s n r) (hc : s.consumer ≠ .away) : Starved s ∨ Served s := by
  cases hf : s.filled s.tail with
  | false =>
    cases he : s.eof with
    | false => exact .inl ⟨hc, hf, he⟩
    | true =>
      refine .inr ⟨?_, .inr he⟩
      cases hs : s.consumer with
      | away => exact absurd hs hc
      | test => rfl
      | waiting => cases he.symm.trans (hi.waits hs).2
  | true =>
    refine .inr ⟨?_, .inl hf⟩
    cases hs : s.consumer with
    | away => exact absurd hs hc
    | test => rfl
    | waiting =>
      have hlt := hi.ring.filled_tail.mp hf
      have := (hi.waits hs).1
      omega

theorem Goes.starved_frame (h : Goes fsz s op a s') (hi : Inv fsz s n r) (hst : Starved s) (hop : ¬ OfReader op) :
    Starved s' ∧ s'.reader = s.reader := by
  obtain ⟨-, hnw, -⟩ := hi.starved hst
  cases h with
  | wokenConsumer _ | empty _ _ _ => exact ⟨⟨by simp, hst.empty, hst.more⟩, rfl⟩
  | wokenReader hr => exact absurd hr hnw
  | called hc | released _ hc _ => exact absurd hc hst.called
  | null _ _ he => cases he.symm.trans hst.more
  | took _ hf _ | tookAgain _ _ hf _ => cases hf.symm.trans hst.empty
  | _ => exact absurd trivial hop

theorem rank_readLoop (fsz i got : Nat) : rank fsz (readLoop fsz i got) ≤ fsz - got + 2 := by
  unfold readLoop
  split <;> simp [rank]

theorem Goes.starved_effect (h : Goes fsz s op a s') (hi : Inv fsz s n r) (hst : Starved s) (hop : OfReader op) :
    Served s' ∨ Starved s' ∧ rank fsz s'.reader < rank fsz s.reader := by
  obtain ⟨hnr, -, -⟩ := hi.starved hst
  have hreader := hi.reader
  cases h with
  | full _ hf _ =>
    have := hi.ring.filled_head.mp hf
    simp only [ringSlots] at this
    omega
  | stopped _ hs => cases hs.symm.trans hi.running
  | picked hr _ _ =>
    refine .inr ⟨⟨hst.called, hst.empty, hst.more⟩, Nat.lt_of_le_of_lt (rank_readLoop _ _ _) ?_⟩
    rw [hr]
    simp only [rank]
    omega
  | read i got bytes hr hne hlen =>
    have hpos := List.length_pos_iff.mpr hne
    refine .inr ⟨⟨hst.called, hst.empty, hst.more⟩, Nat.lt_of_le_of_lt (rank_readLoop _ _ _) ?_⟩
    rw [hr]
    simp only [rank]
    omega
  | readEnd i got hr =>
    refine .inr ⟨⟨hst.called, hst.empty, hst.more⟩, ?_⟩
    rw [hr]
    simp only [rank]
    omega
  | short _ _ _ _ => exact .inl ⟨signalItem_of_called hst.called, .inr rfl⟩
  | stored i hr =>
    rw [hr] at hreader
    have htail : s.tail = i := by
      rw [hreader.2.1.atHead, hi.ring.head, hi.ring.tail, hnr]
    refine .inl ⟨signalItem_of_called hst.called, .inl ?_⟩
    simp only [htail, update_self]
  | _ => exact hop.elim

theorem Goes.served_frame (h : Goes fsz s op a s') (hsv : Served s) (hop : op ≠ .consumer) : Served s' := by
  obtain ⟨hc, hfound⟩ := hsv
  cases h with
  | short => exact ⟨by simp [hc, signalItem], .inr rfl⟩
  | stored i _ =>
    refine ⟨by simp [hc, signalItem], hfound.imp_left fun hf => ?_⟩
    by_cases hi : s.tail = i
    · simp [hi]
    · simpa [update_of_ne hi] using hf
  | wokenConsumer hc' | called hc' | released _ hc' _ => rw [hc] at hc'; cases hc'
  | full | stopped | picked | read | readEnd | wokenReader => exact ⟨hc, hfound⟩
  | _ => exact absurd rfl hop

theorem Goes.served_effect (h : Goes fsz s .consumer a s') (hsv : Served s) : s'.consumer = .away := by
  cases h with
  | empty _ hf he =>
    rcases hsv.found with hf' | he'
    · cases hf.symm.trans hf'
    · cases he.symm.trans he'
  | null | took | tookAgain => rfl

end

namespace Trace

variable {fsz : Nat} {slot : Nat → Buf} {s : Nat → State} {op : Nat → Option Op}

theorem starved_leadsTo (h : Trace fsz slot s op) : LeadsTo (fun t => Starved (s t)) (fun t => Served (s t)) := by
  refine LeadsTo.of_rank (fun t => rank fsz (s t).reader) fun k => ?_
  refine h.goes.leadsTo h.counted h.reader_fair (fun _ => id) (M := fun _ => OfReader)
    (P := fun s => Starved s ∧ rank fsz s.reader = k)
    (Q := fun s => Served s ∨ Starved s ∧ rank fsz s.reader < k) ?_ ?_ ?_
  · rintro t ⟨n, r, hi⟩ ⟨hst, -⟩
    exact (hi.starved hst).2
  · rintro s o s' ⟨n, r, hi⟩ ⟨hst, hk⟩ ⟨a, hg⟩ hop
    obtain ⟨hst', hr⟩ := hg.starved_frame hi hst hop
    exact .inl ⟨hst', by rw [hr]; exact hk⟩
  · rintro s o s' ⟨n, r, hi⟩ ⟨hst, rfl⟩ ⟨a, hg⟩ hop
    exact hg.starved_effect hi hst hop

theorem served_leadsTo (h : Trace fsz slot s op) :
    LeadsTo (fun t => Served (s t)) (fun t => (s t).consumer = .away) := by
  refine h.goes.leadsTo h.counted h.consumer_fair (fun t ht => ⟨.consumer, ht, rfl⟩)
    (M := fun _ o => o = .consumer) (P := Served) (Q := fun s => s.consumer = .away) ?_ ?_ ?_
  · exact fun t _ hsv => hsv.test
  · rintro s o s' - hsv ⟨a, hg⟩ hop
    exact .inl (hg.served_frame hsv hop)
  · rintro s o s' - hsv ⟨a, hg⟩ rfl
    exact hg.served_effect hsv

theorem get_returns (h : Trace fsz slot s op) :
    LeadsTo (fun t => (s t).consumer ≠ .away) (fun t => (s t).consumer = .away) := by
  intro t hc
  obtain ⟨n, r, hi⟩ := h.counted t
  rcases hi.starved_or_served hc with hst | hsv
  · exact h.starved_leadsTo.trans h.served_leadsTo t hst
  · exact h.served_leadsTo t hsv

end Trace

def AtTest (s : State) : Prop := s.reader = .test ∨ s.reader = .waiting

structure Room (s : State) : Prop where
  test : s.reader = .test
  free : s.filled s.head = false

structure Holding (s : State) : Prop where
  atTest : AtTest s
  held : s.held ≠ none

structure Full (s : State) : Prop where
  atTest : AtTest s
  full : s.filled s.head = true
  none : s.held = none

section

variable {fsz n r : Nat} {s s' : State} {op : Op} {a : Option (Option Nat)}

theorem Inv.atTest (hi : Inv fsz s n r) (h : AtTest s) :
    s.eof = false ∧ (s.reader = .waiting → n = r + ringSlots) := by
  have hreader := hi.reader
  rcases h with hr | hr
  · rw [hr] at hreader ⊢
    exact ⟨hreader.1, fun hw => by cases hw⟩
  · rw [hr] at hreader
    exact ⟨hreader.1, fun _ => hreader.2.2⟩

theorem Goes.atTest (h : Goes fsz s op a s') (hi : Inv fsz s n r) (hpos : 0 < fsz) (hat : AtTest s) :
    AtTest s' ∨ s.filled s.head = false ∧ ∃ i, s'.reader = .reading i 0 := by
  have hnot : ∀ {p}, s.reader = p → p ≠ .test → p ≠ .waiting → False := by
    rintro p hr hne hne'
    rcases hat with hr' | hr'
    · exact hne (hr.symm.trans hr')
    · exact hne' (hr.symm.trans hr')
  cases h with
  | full => exact .inl (.inr rfl)
  | stopped _ hs => cases hs.symm.trans hi.running
  | picked _ hf _ => exact .inr ⟨hf, s.head, if_pos hpos⟩
  | read _ _ _ hr _ _ | readEnd _ _ hr | short _ _ hr _ | stored _ hr => exact (hnot hr (by simp) (by simp)).elim
  | wokenReader => exact .inl (.inl rfl)
  | released =>
    refine .inl (.inl ?_)
    rcases hat with hr | hr <;> simp [State.readerRelease, hr, signalSpace]
  | _ => exact .inl hat

theorem Goes.room_frame (h : Goes fsz s op a s') (hroom : Room s) (hop : ¬ OfReader op) : Room s' := by
  obtain ⟨hr, hf⟩ := hroom
  cases h with
  | wokenReader => exact ⟨rfl, hf⟩
  | released i _ _ =>
    refine ⟨by simp [State.readerRelease, hr, signalSpace], ?_⟩
    simp only [State.readerRelease]
    by_cases he : s.head = s.tail
    · rw [he, update_self]
    · rw [update_of_ne he]; exact hf
  | wokenConsumer | called | empty | null | took | tookAgain => exact ⟨hr, hf⟩
  | _ => exact absurd trivial hop

theorem Goes.room_effect (h : Goes fsz s op a s') (hi : Inv fsz s n r) (hpos : 0 < fsz) (hroom : Room s)
    (hop : OfReader op) : ∃ i, s'.reader = .reading i 0 := by
  cases h with
  | full _ hf _ => cases hf.symm.trans hroom.free
  | picked => exact ⟨s.head, if_pos hpos⟩
  | stopped _ hs => cases hs.symm.trans hi.running
  | read _ _ _ hr _ _ | readEnd _ _ hr | short _ _ hr _ | stored _ hr => cases hr.symm.trans hroom.test
  | _ => exact hop.elim

theorem Goes.release_room (h : Goes fsz s .release a s') (hi : Inv fsz s n r) (hat : AtTest s) : Room s' := by
  cases h with
  | released i hc hh =>
    have hring := hi.ring.released (hi.held i hh).2
    have hroom := hi.ring.room
    refine ⟨?_, ?_⟩
    · rcases hat with hr | hr <;> simp [State.readerRelease, hr, signalSpace]
    · cases hf : s.readerRelease.filled s.readerRelease.head with
      | false => rfl
      | true =>
        have := hring.filled_head.mp hf
        omega

theorem Goes.held_frame (h : Goes fsz s op a s') (hh : s.held ≠ none) (hop : op ≠ .release) : s'.held ≠ none := by
  cases h with
  | released => exact absurd rfl hop
  | took | tookAgain => simp
  | _ => exact hh

theorem Inv.full (hi : Inv fsz s n r) (h : Full s) : s.filled s.tail = true := by
  have := hi.ring.filled_head.mp h.full
  simp only [ringSlots] at this
  exact hi.ring.filled_tail.mpr (by omega)

theorem Goes.full_frame (h : Goes fsz s op a s') (hi : Inv fsz s n r) (hpos : 0 < fsz) (hfull : Full s)
    (hop : op ≠ .consumer) : Full s' ∧ (s'.consumer = s.consumer ∨ s'.consumer = .test) := by
  have hat : AtTest s' := (h.atTest hi hpos hfull.atTest).resolve_right fun ⟨hf, _⟩ => by
    cases hf.symm.trans hfull.full
  cases h with
  | stored _ hr | short _ _ hr _ => rcases hfull.atTest with hr' | hr' <;> cases hr.symm.trans hr'
  | released _ _ hh => cases hh.symm.trans hfull.none
  | empty | null | took | tookAgain => exact absurd rfl hop
  | wokenConsumer | called => exact ⟨⟨hat, hfull.full, hfull.none⟩, .inr rfl⟩
  | _ => exact ⟨⟨hat, hfull.full, hfull.none⟩, .inl rfl⟩

theorem Goes.tested (h : Goes fsz s .consumer a s') : s.consumer = .test := by
  cases h <;> assumption

theorem Goes.full_effect (h : Goes fsz s .consumer a s') (hi : Inv fsz s n r) (hfull : Full s) : Holding s' := by
  have hf := hi.full hfull
  cases h with
  | empty _ hf' _ | null _ hf' _ => cases hf.symm.trans hf'
  | took | tookAgain => exact ⟨hfull.atTest, by simp⟩

end

namespace Trace

variable {fsz : Nat} {slot : Nat → Buf} {s : Nat → State} {op : Nat → Option Op}

section

variable (h : Trace fsz slot s op)

include h

theorem room_leadsTo (hpos : 0 < fsz) :
    LeadsTo (fun t => Room (s t)) (fun t => ∃ i, (s t).reader = .reading i 0) := by
  refine h.goes.leadsTo h.counted h.reader_fair (fun _ => id) (M := fun _ => OfReader) (P := Room)
    (Q := fun s => ∃ i, s.reader = .reading i 0) ?_ ?_ ?_
  · intro t _ hroom
    rw [hroom.test]
    simp
  · rintro s o s' - hroom ⟨a, hg⟩ hop
    exact .inl (hg.room_frame hroom hop)
  · rintro s o s' ⟨n, r, hi⟩ hroom ⟨a, hg⟩ hop
    exact hg.room_effect hi hpos hroom hop

section

variable (hpos : 0 < fsz) (hrel : Releases s op)

include hpos hrel

theorem holding_leadsTo : LeadsTo (fun t => Holding (s t)) (fun t => ∃ i, (s t).reader = .reading i 0) := by
  have hroom : LeadsTo (fun t => Holding (s t)) (fun t => Room (s t) ∨ ∃ i, (s t).reader = .reading i 0) := by
    refine h.goes.leadsTo h.counted hrel (fun t ht => ⟨.release, ht, rfl⟩) (M := fun _ o => o = .release)
      (P := Holding) (Q := fun s => Room s ∨ ∃ i, s.reader = .reading i 0) ?_ ?_ ?_
    · exact fun t _ hh => hh.held
    · rintro s o s' ⟨n, r, hi⟩ hh ⟨a, hg⟩ hop
      rcases hg.atTest hi hpos hh.atTest with hat | ⟨-, hread⟩
      · exact .inl ⟨hat, hg.held_frame hh.held hop⟩
      · exact .inr (.inr hread)
    · rintro s o s' ⟨n, r, hi⟩ hh ⟨a, hg⟩ rfl
      exact .inl (hg.release_room hi hh.atTest)
  intro t hh
  obtain ⟨m, hm, hr | hread⟩ := hroom t hh
  · obtain ⟨l, hl, hread⟩ := h.room_leadsTo hpos m hr
    exact ⟨l, Nat.le_trans hm hl, hread⟩
  · exact ⟨m, hm, hread⟩

theorem getting_leadsTo :
    LeadsTo (fun t => Full (s t) ∧ (s t).consumer = .test) (fun t => ∃ i, (s t).reader = .reading i 0) := by
  refine LeadsTo.trans (h.goes.leadsTo h.counted h.consumer_fair (fun t ht => ⟨.consumer, ht, rfl⟩)
    (M := fun _ o => o = .consumer) (P := fun s => Full s ∧ s.consumer = .test) (Q := Holding) ?_ ?_ ?_)
    (h.holding_leadsTo hpos hrel)
  · exact fun t _ hp => hp.2
  · rintro s o s' ⟨n, r, hi⟩ ⟨hfull, hc⟩ ⟨a, hg⟩ hop
    obtain ⟨hfull', hc'⟩ := hg.full_frame hi hpos hfull hop
    exact .inl ⟨hfull', hc'.elim (fun he => he.trans hc) id⟩
  · rintro s o s' ⟨n, r, hi⟩ ⟨hfull, -⟩ ⟨a, hg⟩ rfl
    exact hg.full_effect hi hfull

theorem full_leadsTo (hask : Asks s op) :
    LeadsTo (fun t => Full (s t) ∧ (s t).consumer = .away) (fun t => ∃ i, (s t).reader = .reading i 0) := by
  refine LeadsTo.trans (h.goes.leadsTo h.counted hask (fun t ht => ⟨.get, ht, rfl⟩)
    (M := fun _ o => o = .get) (P := fun s => Full s ∧ s.consumer = .away)
    (Q := fun s => Full s ∧ s.consumer = .test) ?_ ?_ ?_) (h.getting_leadsTo hpos hrel)
  · rintro t ⟨n, r, hi⟩ ⟨hfull, hc⟩
    exact ⟨hc, hfull.none, (hi.atTest hfull.atTest).1⟩
  · rintro s o s' ⟨n, r, hi⟩ ⟨hfull, hc⟩ ⟨a, hg⟩ -
    have hop : o ≠ .consumer := by
      rintro rfl
      exact absurd (hg.tested.symm.trans hc) (by simp)
    obtain ⟨hfull', hc' | hc'⟩ := hg.full_frame hi hpos hfull hop
    · exact .inl ⟨hfull', hc'.trans hc⟩
    · exact .inr ⟨hfull', hc'⟩
  · rintro s o s' ⟨n, r, hi⟩ ⟨hfull, hc⟩ ⟨a, hg⟩ rfl
    refine ⟨(hg.full_frame hi hpos hfull (by simp)).1, ?_⟩
    cases hg
    rfl

theorem reader_goes_on (hask : Asks s op) :
    LeadsTo (fun t => AtTest (s t)) (fun t => ∃ i, (s t).reader = .reading i 0) := by
  intro t hat
  obtain ⟨n, r, hi⟩ := h.counted t
  cases hf : (s t).filled (s t).head with
  | false =>
    have htest : (s t).reader = .test := hat.resolve_right fun hw => by
      rw [hi.ring.filled_head.mpr ((hi.atTest hat).2 hw)] at hf
      cases hf
    exact h.room_leadsTo hpos t ⟨htest, hf⟩
  | true =>
    by_cases hh : (s t).held = none
    · have hfull : Full (s t) := ⟨hat, hf, hh⟩
      cases hc : (s t).consumer with
      | away => exact h.full_leadsTo hpos hrel hask t ⟨hfull, hc⟩
      | test => exact h.getting_leadsTo hpos hrel t ⟨hfull, hc⟩
      | waiting =>
        have hlt := hi.ring.filled_tail.mp (hi.full hfull)
        have := (hi.waits hc).1
        omega
    · exact h.holding_leadsTo hpos hrel t ⟨hat, hh⟩

end

end

end Trace

/-- In every run the frames returned are the first of the complete chunks of the input, and a slot that was returned
is not written until it is released. In every fair run each call of `reader_get` returns, and a waiting reader goes
on if the consumer releases what it gets and keeps asking. -/
theorem reader_delivers_frames (fsz : Nat) (hpos : 0 < fsz) (slot : Nat → Buf) :
    (∀ ops s, Run (step fsz) (Possible fsz) (start slot) ops s → s.returned <+: fullChunks fsz s.input ∧
      (∀ i, s.held = some i → s.returned.getLast? = some (contents (s.slot i) fsz)) ∧
      ∀ op a s', Possible fsz s op → step fsz s op = .ret a s' →
        (∀ i, s.held = some i → op ≠ .release → s'.held = some i ∧ s'.slot i = s.slot i) ∧
        (∀ i, a = some (some i) → s'.held = some i) ∧
        (a = some none → s'.reader = .ended ∧ s'.returned = fullChunks fsz s'.input)) ∧
    ∀ s op, Trace fsz slot s op → (∀ t, (s t).consumer ≠ .away → ∃ m ≥ t, (s m).consumer = .away) ∧
      (Releases s op → Asks s op → ∀ t, (s t).reader = .waiting → ∃ m ≥ t, ∃ i, (s m).reader = .reading i 0) := by
  constructor
  · intro ops s hr
    obtain ⟨n, r, hi⟩ := inv_run hr
    refine ⟨hi.returned_prefix hpos, fun i hh => hi.held_frame hh, fun op a s' hp hs => ?_⟩
    have hg := goes_of_step hp hs
    refine ⟨fun i hh hop => hg.keeps_held hi hh hop, ?_, ?_⟩
    · rintro i rfl
      exact hg.returns_held
    · rintro rfl
      exact hg.null_all hi
  · intro s op h
    exact ⟨h.get_returns, fun hrel hask t hw => h.reader_goes_on hpos hrel hask t (.inr hw)⟩

instance (fsz : Nat) (s : State) (op : Op) : Decidable (Possible fsz s op) := by
  unfold Possible; repeat' split
  all_goals infer_instance

def twoFrames : List Op :=
  [.get, .reader, .read [1], .consumer, .read [2], .reader, .consumer, .reader, .read [3, 4], .reader, .release,
    .get, .consumer, .reader, .read [5], .readEnd, .reader, .release, .get, .consumer]

theorem reader_delivers_frames_two : ∃ s op, Trace 2 (fun _ _ => 0) s op ∧ (s 20).returned = [[1, 2], [3, 4]] ∧
      ∃ m ≥ 4, (s m).consumer = .away := by
  have ht : Trace 2 (fun _ _ => 0) (states (step 2) (start fun _ _ => 0) twoFrames) (fun t => twoFrames[t]?) := by
    refine ⟨Endless.of_states (by decide +kernel), ?_, ?_⟩
    · exact WeakFair.of_states (P := fun s : State => s.reader ≠ .waiting ∧ s.reader ≠ .ended) (by decide +kernel)
    · exact WeakFair.of_states (P := fun s : State => s.consumer = .test) (by decide +kernel)
  exact ⟨_, _, ht, by decide +kernel, ((reader_delivers_frames 2 (by decide) _).2 _ _ ht).1 4 (by decide +kernel)⟩

end H713.Present
