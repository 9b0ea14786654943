import Mathlib.Algebra.Order.Ring.Rat
import Mathlib.Tactic.Linarith
import H713.Lib.Bytes
import H713.Lib.Lines
import H713.Lib.Run

/-!
# Soak.Capture

`soak-capture.py`: reads the console until a deadline, logs the lines, and goes on for a grace period only when one
of them shows that the kernel is dying. A turn of the loop is what it gets from outside: the time, what `os.read`
does, and the time when a stop pattern is found.
-/

namespace H713.Soak

open Lines (split complete rest)

structure Utf8 where
  need : Nat := 0
  lo : Nat := 0x80
  hi : Nat := 0xbf
  bits : Nat := 0

def replacement : Nat := 0xfffd

def lead (b : Nat) : List Nat × Utf8 :=
  if b < 0x80 then ([b], {})
  else if 0xc2 ≤ b ∧ b ≤ 0xdf then ([], ⟨1, 0x80, 0xbf, b - 0xc0⟩)
  else if 0xe0 ≤ b ∧ b ≤ 0xef then
    ([], ⟨2, if b = 0xe0 then 0xa0 else 0x80, if b = 0xed then 0x9f else 0xbf, b - 0xe0⟩)
  else if 0xf0 ≤ b ∧ b ≤ 0xf4 then
    ([], ⟨3, if b = 0xf0 then 0x90 else 0x80, if b = 0xf4 then 0x8f else 0xbf, b - 0xf0⟩)
  else ([replacement], {})

def decodeFrom (u : Utf8) : List Byte → List Nat
  | [] => if u.need = 0 then [] else [replacement]
  | b :: l =>
    if u.need = 0 then (lead b.toNat).1 ++ decodeFrom (lead b.toNat).2 l
    else if u.lo ≤ b.toNat ∧ b.toNat ≤ u.hi then
      if u.need = 1 then (u.bits * 64 + b.toNat % 64) :: decodeFrom {} l
      else decodeFrom ⟨u.need - 1, 0x80, 0xbf, u.bits * 64 + b.toNat % 64⟩ l
    else replacement :: ((lead b.toNat).1 ++ decodeFrom (lead b.toNat).2 l)

def decode (raw : List Byte) : List Nat := decodeFrom {} raw

def isSpace (c : Nat) : Bool :=
  (9 ≤ c ∧ c ≤ 13) ∨ (0x1c ≤ c ∧ c ≤ 0x20) ∨ c = 0x85 ∨ c = 0xa0 ∨ c = 0x1680 ∨
    (0x2000 ≤ c ∧ c ≤ 0x200a) ∨ c = 0x2028 ∨ c = 0x2029 ∨ c = 0x202f ∨ c = 0x205f ∨ c = 0x3000

def blank (line : List Nat) : Bool := line.all isSpace

def blankBytes (raw : List Byte) : Bool := raw.all fun b => (9 ≤ b.toNat ∧ b.toNat ≤ 13) ∨ b.toNat = 32

inductive Atom where
  | char (c : Nat)
  | digits

def chars (s : String) : List Atom := s.toList.map fun c => .char c.toNat

def stopPatterns : List (List Atom) :=
  [chars "Kernel panic", chars "Internal error", chars "Unable to handle kernel", chars "stack-protector",
    chars "Rebooting in " ++ .digits :: chars " seconds"]

section

variable (isDigit : Nat → Bool)

def matchAt : List Atom → List Nat → Bool
  | [], _ => true
  | _ :: _, [] => false
  | .char c :: as, x :: l => x = c && matchAt as l
  | .digits :: as, x :: l => isDigit x && (matchAt as l || matchAt (.digits :: as) l)

def search (p : List Atom) : List Nat → Bool
  | [] => matchAt isDigit p []
  | x :: l => matchAt isDigit p (x :: l) || search p l

def stopRe (line : List Nat) : Bool := stopPatterns.any fun p => search isDigit p line

def visible : List Atom → Bool
  | .char c :: _ => !isSpace c
  | _ => false

theorem not_search_of_blank {p : List Atom} (hp : visible p = true) {line : List Nat} (h : blank line = true) :
    search isDigit p line = false := by
  induction line with
  | nil =>
    cases p with
    | nil => cases hp
    | cons a p => rfl
  | cons x line ih =>
    obtain ⟨hx, hline⟩ : isSpace x = true ∧ blank line = true := by simpa [blank] using h
    -- the first character of the pattern is not the blank one that the text begins with
    have hhead : matchAt isDigit p (x :: line) = false := by
      cases p with
      | nil => cases hp
      | cons a p =>
        cases a with
        | digits => cases hp
        | char c =>
          have hne : x ≠ c := by
            intro he
            simp [visible, ← he, hx] at hp
          simp [matchAt, hne]
    rw [search, hhead, ih hline, Bool.or_false]

theorem visible_stopPatterns : stopPatterns.all visible = true := by decide +kernel

theorem not_stopRe_of_blank {line : List Nat} (h : blank line = true) : stopRe isDigit line = false := by
  rw [stopRe, List.any_eq_false]
  intro p hp
  rw [not_search_of_blank isDigit (List.all_eq_true.mp visible_stopPatterns p hp) h]
  exact Bool.false_ne_true

end

structure Setup where
  minutes : ℚ := 60
  grace : ℚ := 20
  silenceTimeout : ℚ := 0
  start : ℚ
  isDigit : Nat → Bool

inductive Entry where
  | console (line : List Nat)
  | stopMatched
  | silent
  | verdict (status : Nat)

structure Capture where
  hardStop : Option ℚ
  lastByte : ℚ
  status : Nat
  pending : List Byte
  log : List Entry

inductive Read where
  | chunk (bytes : List Byte)
  | blocked
  | failed
  deriving DecidableEq

structure Turn where
  now : ℚ
  read : Read
  clock : ℚ

def Turn.chunk (t : Turn) : List Byte :=
  match t.read with
  | .chunk bytes => bytes
  | _ => []

inductive Leaving where
  | expired
  | silent
  | raised
  deriving DecidableEq

namespace Setup

variable (c : Setup)

def init : Capture := ⟨none, c.start, 0, [], []⟩

def deadline : ℚ := c.start + c.minutes * 60

def leaves (s : Capture) (t : Turn) : Option Leaving :=
  if s.hardStop.getD c.deadline ≤ t.now then some .expired
  else if c.silenceTimeout ≠ 0 ∧ t.now - s.lastByte > c.silenceTimeout then some .silent
  else if t.read = .failed then some .raised
  else none

def takeLine (clock : ℚ) (s : Capture) (raw : List Byte) : Capture :=
  let line := decode raw
  if blank line then s
  else
    let s := { s with log := s.log ++ [.console line] }
    if s.hardStop = none ∧ stopRe c.isDigit line then
      { s with log := s.log ++ [.stopMatched], status := 1, hardStop := some (clock + c.grace) }
    else s

def turn (s : Capture) (t : Turn) : Capture :=
  if t.chunk = [] then s
  else
    let parts := split 13 10 (s.pending ++ t.chunk)
    parts.dropLast.foldl (c.takeLine t.clock) { s with lastByte := t.now, pending := parts.getLast?.getD [] }

def step (s : Capture) (t : Turn) : Out Capture Unit := .ret () (c.turn s t)

abbrev Reads (turns : List Turn) (s : Capture) : Prop :=
  Run c.step (fun s t => c.leaves s t = none) c.init turns s

end Setup

structure Exit where
  status : Nat
  log : List Entry

def Capture.finish (s : Capture) (e : Leaving) : Exit :=
  let s := if e = .silent then { s with log := s.log ++ [.silent], status := 2 } else s
  let log := if blankBytes s.pending then s.log else s.log ++ [.console (decode s.pending)]
  ⟨if e = .raised then 1 else s.status, log ++ [.verdict s.status]⟩

def Setup.exit (c : Setup) (s : Capture) (t : Turn) : Option Exit := (c.leaves s t).map s.finish

variable {c : Setup} {s : Capture} {t : Turn} {b : List Byte} {turns : List Turn}

theorem exit_of_leaves {e : Leaving} (h : c.leaves s t = some e) : c.exit s t = some (s.finish e) := by
  rw [Setup.exit, h]
  rfl

def consoleLines (log : List Entry) : List (List Nat) :=
  log.filterMap fun
    | .console line => some line
    | _ => none

def received (turns : List Turn) : List Byte := turns.flatMap Turn.chunk

def shown (raw : List Byte) : Bool := !blank (decode raw)

def texts (raws : List (List Byte)) : List (List Nat) := (raws.filter shown).map decode

def Told (s : Capture) : Prop := s.status = if s.hardStop.isSome then 1 else 0

structure Takes (c : Setup) (raws : List (List Byte)) (s s' : Capture) : Prop where
  pending : s'.pending = s.pending
  lines : consoleLines s'.log = consoleLines s.log ++ texts raws
  stop : s'.hardStop.isSome = (s.hardStop.isSome || raws.any fun raw => stopRe c.isDigit (decode raw))
  told : Told s → Told s'

theorem takes_takeLine (c : Setup) (clock : ℚ) (s : Capture) (raw : List Byte) :
    Takes c [raw] s (c.takeLine clock s raw) := by
  simp only [Setup.takeLine]
  split_ifs with hblank hstop
  · exact ⟨rfl, by simp [texts, shown, hblank], by simp [not_stopRe_of_blank c.isDigit hblank], id⟩
  · exact ⟨rfl, by simp [consoleLines, texts, shown, hblank], by simp [hstop.2], fun _ => rfl⟩
  · refine ⟨rfl, by simp [consoleLines, texts, shown, hblank], ?_, id⟩
    cases hs : s.hardStop with
    | none =>
      simp only [hs, true_and] at hstop
      simp [hstop]
    | some h => simp

theorem takes_foldl (c : Setup) (clock : ℚ) (raws : List (List Byte)) (s : Capture) :
    Takes c raws s (raws.foldl (c.takeLine clock) s) := by
  induction raws generalizing s with
  | nil => exact ⟨rfl, by simp [texts], by simp, id⟩
  | cons raw raws ih =>
    have hone := takes_takeLine c clock s raw
    have hmore := ih (c.takeLine clock s raw)
    refine ⟨hmore.pending.trans hone.pending, ?_, ?_, fun h => hmore.told (hone.told h)⟩
    · rw [List.foldl_cons, hmore.lines, hone.lines, List.append_assoc, texts, texts, ← List.map_append,
        ← List.filter_append]
      rfl
    · rw [List.foldl_cons, hmore.stop, hone.stop]
      simp [Bool.or_assoc]

structure Follows (c : Setup) (s : Capture) (b : List Byte) : Prop where
  pending : s.pending = rest 13 10 b
  lines : consoleLines s.log = texts (complete 13 10 b)
  stop : s.hardStop.isSome = (complete 13 10 b).any fun raw => stopRe c.isDigit (decode raw)
  told : Told s

theorem follows_init (c : Setup) : Follows c c.init [] := ⟨rfl, rfl, rfl, rfl⟩

theorem follows_turn (h : Follows c s b) (t : Turn) : Follows c (c.turn s t) (b ++ t.chunk) := by
  rw [Setup.turn]
  split_ifs with hnone
  · rw [hnone, List.append_nil]
    exact h
  · have htakes := takes_foldl c t.clock (complete 13 10 (s.pending ++ t.chunk))
      { s with lastByte := t.now, pending := rest 13 10 (s.pending ++ t.chunk) }
    rw [h.pending] at htakes ⊢
    refine ⟨htakes.pending.trans (Lines.rest_append 13 10 (by decide) b t.chunk).symm, ?_, ?_, htakes.told h.told⟩
    · rw [texts, Lines.filter_complete_append 13 10 (by decide) b t.chunk rfl, List.map_append]
      exact htakes.lines.trans (congrArg (· ++ _) h.lines)
    · rw [Lines.any_complete_append 13 10 (by decide) b t.chunk (not_stopRe_of_blank c.isDigit rfl), ← h.stop]
      exact htakes.stop

theorem follows_of_reads (h : c.Reads turns s) : Follows c s (received turns) := by
  rw [received, List.flatMap_eq_foldl]
  refine h.sim ?_ (follows_init c)
  intro s b t _ s' hs _ hstep
  cases hstep
  exact follows_turn hs t

def streamLines (b : List Byte) : List (List Nat) :=
  texts (complete 13 10 b) ++ if blankBytes (rest 13 10 b) then [] else [decode (rest 13 10 b)]

theorem consoleLines_of_exit {x : Exit} (h : c.Reads turns s) (hx : c.exit s t = some x) :
    consoleLines x.log = streamLines (received turns) := by
  obtain ⟨e, -, rfl⟩ := Option.map_eq_some_iff.mp hx
  have hfollows := follows_of_reads h
  rw [streamLines, ← hfollows.lines, ← hfollows.pending, Capture.finish]
  cases e <;> cases hb : blankBytes s.pending <;> simp [consoleLines, hb]

/-- Captures that read the same bytes log the same lines, whatever the pieces and the times and however they end. -/
theorem lines_of_any_pieces {c c' : Setup} {turns turns' : List Turn} {s s' : Capture} {t t' : Turn}
    {x x' : Exit} (h : c.Reads turns s) (hx : c.exit s t = some x) (h' : c'.Reads turns' s')
    (hx' : c'.exit s' t' = some x') (hsame : received turns = received turns') :
    consoleLines x.log = consoleLines x'.log := by
  rw [consoleLines_of_exit h hx, consoleLines_of_exit h' hx', hsame]

def ascii (s : String) : List Byte := s.toList.map fun c => BitVec.ofNat 8 c.toNat

def hour : Setup := { start := 0, isDigit := fun c => 48 ≤ c ∧ c ≤ 57 }

def everySecond (reads : List Read) : List Turn := reads.zipIdx.map fun r => ⟨r.2, r.1, r.2⟩

def atDeadline : Turn := ⟨3600, .blocked, 3600⟩

def whole : List Turn := everySecond [.chunk (ascii "ok\r\nf" ++ [0xc3, 0xbc] ++ ascii "r")]

def cut : List Turn :=
  everySecond [.chunk (ascii "ok\r"), .blocked, .chunk (ascii "\nf" ++ [0xc3]), .chunk (0xbc :: ascii "r")]

theorem lines_of_any_pieces_pair : ∃ s s', hour.Reads whole s ∧ hour.leaves s atDeadline = some .expired ∧
    hour.Reads cut s' ∧ hour.leaves s' atDeadline = some .expired ∧
    consoleLines (s'.finish .expired).log = [[111, 107], [102, 0xfc, 114]] ∧
    consoleLines (s.finish .expired).log = consoleLines (s'.finish .expired).log := by
  obtain ⟨s, hs, he⟩ : ∃ s, hour.Reads whole s ∧ hour.leaves s atDeadline = some .expired :=
    Run.exists_of_exec (by decide +kernel)
  obtain ⟨s', hs', he', hlines⟩ : ∃ s, hour.Reads cut s ∧ hour.leaves s atDeadline = some .expired ∧
      consoleLines (s.finish .expired).log = [[111, 107], [102, 0xfc, 114]] := Run.exists_of_exec (by decide +kernel)
  have hsame : received whole = received cut := by decide +kernel
  exact ⟨s, s', hs, he, hs', he', hlines,
    lines_of_any_pieces hs (exit_of_leaves he) hs' (exit_of_leaves he') hsame⟩

/-- The line shows that the kernel is dying. -/
def Dying (c : Setup) (raw : List Byte) : Prop := stopRe c.isDigit (decode raw) = true
deriving Decidable

theorem status_of_follows (h : Follows c s b) : s.status = 1 ↔ ∃ raw ∈ complete 13 10 b, Dying c raw := by
  have hany : s.hardStop.isSome = true ↔ ∃ raw ∈ complete 13 10 b, Dying c raw := by
    rw [h.stop, List.any_eq_true]
    rfl
  rw [h.told, ← hany]
  split_ifs with hs <;> simp [hs]

theorem dying_split : (∃ raw ∈ split 13 10 b, Dying c raw) ↔
    (∃ raw ∈ complete 13 10 b, Dying c raw) ∨ Dying c (rest 13 10 b) := by
  rw [Lines.split_eq]
  simp [or_and_right, exists_or]

/-- The exit status is 1 exactly if some line is dying, with the three ways out told apart. -/
theorem exit_one_iff {c : Setup} {turns : List Turn} {s : Capture} {t : Turn} {x : Exit} (h : c.Reads turns s)
    (hx : c.exit s t = some x) : (x.status = 1 ↔ ∃ raw ∈ split 13 10 (received turns), Dying c raw) ↔
      (c.leaves s t = some .expired → Dying c (rest 13 10 (received turns)) →
        ∃ raw ∈ complete 13 10 (received turns), Dying c raw) ∧
      (c.leaves s t = some .silent → ¬ ∃ raw ∈ split 13 10 (received turns), Dying c raw) ∧
      (c.leaves s t = some .raised → ∃ raw ∈ split 13 10 (received turns), Dying c raw) := by
  obtain ⟨e, he, rfl⟩ := Option.map_eq_some_iff.mp hx
  have hstatus := status_of_follows (follows_of_reads h)
  rw [he]
  cases e with
  | expired =>
    have hfinish : (s.finish .expired).status = s.status := rfl
    rw [hfinish, hstatus, dying_split]
    simp
  | silent =>
    have hfinish : (s.finish .silent).status = 2 := rfl
    simp [hfinish]
  | raised =>
    have hfinish : (s.finish .raised).status = 1 := rfl
    simp [hfinish]

theorem exit_one_iff_panic : ∃ s,
    hour.Reads (everySecond [.chunk (ascii "Kernel panic\n"), .chunk (ascii "CPU: 0")]) s ∧
    hour.leaves s atDeadline = some .expired ∧
    ((s.finish .expired).status = 1 ↔ ∃ raw ∈ split 13 10 (ascii "Kernel panic\nCPU: 0"), Dying hour raw) := by
  refine Run.exists_of_exec_imp (P := fun s => hour.leaves s atDeadline = some .expired) (by decide +kernel)
    fun s hs he => ?_
  refine ⟨he, (exit_one_iff hs (exit_of_leaves he)).mpr ⟨fun _ _ => by decide +kernel, ?_, ?_⟩⟩
  · rw [he]
    exact fun h => by cases h
  · rw [he]
    exact fun h => by cases h

theorem open_panic_survives : ∃ s, hour.Reads (everySecond [.chunk (ascii "Kernel panic")]) s ∧
    hour.leaves s atDeadline = some .expired ∧ (s.finish .expired).status = 0 ∧
    ∃ raw ∈ split 13 10 (received (everySecond [.chunk (ascii "Kernel panic")])), Dying hour raw :=
  Run.exists_of_exec (by decide +kernel)

-- the console falls silent in the grace period after a panic
example : ((Run.exec { hour with silenceTimeout := 5 }.step (fun _ _ => True) hour.init
    (everySecond [.chunk (ascii "Kernel panic\n")])).any fun s =>
      decide ({ hour with silenceTimeout := 5 }.leaves s ⟨10, .blocked, 10⟩ = some .silent ∧ s.status = 1 ∧
        (s.finish .silent).status = 2)) = true := by
  decide +kernel

theorem leaves_expired_iff : c.leaves s t = some .expired ↔ s.hardStop.getD c.deadline ≤ t.now := by
  rw [Setup.leaves]
  split_ifs <;> simp [*]

theorem hardStop_takeLine (c : Setup) (clock : ℚ) (s : Capture) (raw : List Byte) :
    (c.takeLine clock s raw).hardStop = s.hardStop ∨
    s.hardStop = none ∧ (c.takeLine clock s raw).hardStop = some (clock + c.grace) := by
  simp only [Setup.takeLine]
  split_ifs with hblank hstop
  · exact .inl rfl
  · exact .inr ⟨hstop.1, rfl⟩
  · exact .inl rfl

theorem hardStop_foldl (c : Setup) (clock : ℚ) (raws : List (List Byte)) (s : Capture) :
    (raws.foldl (c.takeLine clock) s).hardStop = s.hardStop ∨
    s.hardStop = none ∧ (raws.foldl (c.takeLine clock) s).hardStop = some (clock + c.grace) := by
  induction raws generalizing s with
  | nil => exact .inl rfl
  | cons raw raws ih =>
    rw [List.foldl_cons]
    obtain hmore | ⟨hnone, hmore⟩ := ih (c.takeLine clock s raw) <;> rw [hmore]
    · exact hardStop_takeLine c clock s raw
    · obtain hone | ⟨-, hone⟩ := hardStop_takeLine c clock s raw
      · exact .inr ⟨hone.symm.trans hnone, rfl⟩
      · cases hone.symm.trans hnone

theorem hardStop_turn (c : Setup) (s : Capture) (t : Turn) : (c.turn s t).hardStop = s.hardStop ∨
    s.hardStop = none ∧ (c.turn s t).hardStop = some (t.clock + c.grace) := by
  rw [Setup.turn]
  split_ifs
  · exact .inl rfl
  · exact hardStop_foldl c t.clock _ _

theorem hardStop_run {ok : Capture → Turn → Prop} {x : ℚ} {s' : Capture} (h : Run c.step ok s turns s')
    (hs : s.hardStop = some x) : s'.hardStop = some x := by
  refine h.inv (I := fun s => s.hardStop = some x) (fun s t _ s' hs _ hstep => ?_) hs
  cases hstep
  obtain hkeep | ⟨hnone, -⟩ := hardStop_turn c s t
  · exact hkeep.trans hs
  · cases hs.symm.trans hnone

/-- The time is over at the deadline as long as no line that has ended is dying, and a grace period after the
first that is found to be from then on, whatever is read later. -/
theorem expired_iff_first_match {c : Setup} {turns : List Turn} {s : Capture} (h : c.Reads turns s) (t : Turn) :
    ((¬ ∃ raw ∈ complete 13 10 (received turns), Dying c raw) →
      (c.leaves s t = some .expired ↔ c.deadline ≤ t.now)) ∧
    ∀ before first after, turns = before ++ first :: after →
      (¬ ∃ raw ∈ complete 13 10 (received before), Dying c raw) →
      (∃ raw ∈ complete 13 10 (received (before ++ [first])), Dying c raw) →
      (c.leaves s t = some .expired ↔ first.clock + c.grace ≤ t.now) := by
  have hstop : ∀ {turns s}, c.Reads turns s →
      (s.hardStop.isSome = true ↔ ∃ raw ∈ complete 13 10 (received turns), Dying c raw) := fun hs => by
    rw [(follows_of_reads hs).stop, List.any_eq_true]
    rfl
  rw [leaves_expired_iff]
  constructor
  · intro hnone
    rw [← hstop h, Bool.not_eq_true, Option.isSome_eq_false_iff, Option.isNone_iff_eq_none] at hnone
    rw [hnone]
    rfl
  · rintro before first after rfl hbefore hfirst
    obtain ⟨u, hu, hrest⟩ := h.of_append
    rw [← hstop hu, Bool.not_eq_true, Option.isSome_eq_false_iff, Option.isNone_iff_eq_none] at hbefore
    cases hrest with
    | cons hok hstep hafter =>
      -- the turn of the first match sets the hard stop, and no later one moves it
      have hset := (hstop (hu.trans (.cons hok hstep .nil))).mpr hfirst
      cases hstep
      obtain hkeep | ⟨-, hclock⟩ := hardStop_turn c u first
      · rw [hkeep, hbefore] at hset
        cases hset
      · rw [hardStop_run hafter hclock]
        rfl

theorem expired_iff_first_match_twice : ∃ s, hour.Reads (⟨1, .chunk (ascii "Kernel panic\n"), 1⟩ ::
      [⟨16, .chunk (ascii "Internal error\n"), 16⟩]) s ∧
    (hour.leaves s ⟨20, .blocked, 20⟩ ≠ some .expired ∧ hour.leaves s ⟨21, .blocked, 21⟩ = some .expired) := by
  refine Run.exists_of_exec_imp (P := fun _ => True) (by decide +kernel) fun s hs _ => ?_
  have hend := fun t => (expired_iff_first_match hs t).2 [] _ _ rfl (by decide +kernel) (by decide +kernel)
  exact ⟨fun h => absurd ((hend _).mp h) (by decide +kernel), (hend _).mpr (by decide +kernel)⟩

end H713.Soak
