import Mathlib.Data.List.Nodup
import H713.Proto.Ack

/-!
# Proto.Answer

The return of a call: `command_action` in the return direction, in any order of calls, timeouts and answers. `held`
are the calls whose wait entry has not been given back, `due` those that the peer may still answer, each once. The
wait entry is named by the low 32 bits of its address.
-/

namespace H713.Proto

open Function
open Bytes

structure Line where
  base : Nat
  seqIdx : Nat
  status : Nat
  param : Nat
  semPtr : Nat
  localCpu : Nat
  remoteCpu : Nat
  direction : Nat
  ackIdx : Nat
  status2 : Nat
  ackParam : Nat
  ackSem : Nat
  fifo : List Nat

structure Desk where
  line : Line
  calls : Nat → Buf
  waitSem : Nat → Nat

def sendAckLow (cur : Nat) (l : Line) (a2 a3 a4 a5 : Nat) : Out Line Unit :=
  if l.remoteCpu ≠ cur ∨ l.direction > 1 then .ret () l
  else if l.status2.testBit 2 then .bug
  else
    let l := { l with ackIdx := a2, ackParam := a4, status2 := a3, ackSem := a5 }
    if l.localCpu = l.remoteCpu then
      -- `queueAction` runs `ack_action` at once, which looks at the flag again
      if a3.testBit 2 then .bug else .ret () l
    else .ret () { l with status2 := a3 ||| 4 }

def waitOf (sock : Socket) (m : Buf) : Option Nat :=
  if (rd m 6 2).testBit 1 then findWaitBySessionId sock (rd m 12 4)
  else if rd m 32 8 = 0 then none
  else some (rd m 32 8 % 2 ^ 32)

def received (cpu : Nat) (m : Buf) : Buf :=
  let m := wr m 10 2 (rd m 10 2 ||| 8)
  let m := wr m 2 2 cpu
  wr m 10 2 (rd m 10 2 ||| 0x10)

def Desk.wake (d : Desk) (entry : Nat) (m : Buf) (x : Nat) : Desk where
  line := { d.line with fifo := d.line.fifo ++ [entry], seqIdx := 20 }
  calls := update d.calls entry (wr m 10 2 (rd m 10 2 ||| 0x40))
  waitSem := update d.waitSem x (semUp (d.waitSem x))

def wakeWaiter (cur : Nat) (sock : Socket) (d : Desk) (entry : Nat) (m : Buf) : Out Desk (Option Nat) :=
  match waitOf sock m with
  | none => .bug
  | some x =>
    if rd m 12 4 ≠ (sock.waits x).session then .bug
    else
      let d := d.wake entry m x
      (sendAckLow cur d.line d.line.seqIdx d.line.status d.line.param d.line.semPtr).bind
        fun _ l => .ret (some x) { d with line := l }

def commandAction (cur cpu : Nat) (sock : Socket) (d : Desk) : Out Desk (Option Nat) :=
  let entry := d.line.base + 104 * d.line.seqIdx + 360
  if d.line.seqIdx ≥ fifoDefaultCap then .ret none d
  else if d.line.status.testBit 2 then .bug
  else if d.line.fifo.length ≥ fifoDefaultCap - 1 then .bug
  else wakeWaiter cur sock d entry (received cpu (d.calls entry))

structure Call where
  id : Nat
  dst : Nat
  session : Nat
  wait : Nat
  retAck : Bool
  deriving DecidableEq, Repr

structure Return where
  idx : Nat
  status : Nat
  param : Nat
  semPtr : Nat
  msg : Buf

structure Echoes (r : Return) (c : Call) : Prop where
  idx : r.idx < 20
  session : rd r.msg 12 4 = c.session
  wait : rd r.msg 32 8 = c.wait
  retAck : (rd r.msg 6 2).testBit 1 = c.retAck

def Desk.put (d : Desk) (r : Return) : Desk where
  line := { d.line with seqIdx := r.idx, status := r.status, param := r.param, semPtr := r.semPtr }
  calls := update d.calls (d.line.base + 104 * r.idx + 360) r.msg
  waitSem := d.waitSem

def Desk.setStatus2 (d : Desk) (status2 : Nat) : Desk :=
  { d with line := { d.line with status2 := status2 } }

structure AnsSys where
  w : World
  desk : Nat → Desk
  pending : List (Nat × Pending)
  held : List Call
  due : List Call
  next : Nat

inductive AnsOp where
  | send (e : Env) (a : Args)
  | finish (id : Nat) (p : Pending) (e : Env) (ack : Int)
  | answer (c : Call) (r : Return)
  | collect (c : Call) (e : Env)
  | ackTaken (cpu status2 : Nat)
  | other (w : World)

def Pending.call (p : Pending) (id : Nat) : Option Call :=
  p.wait.map fun x => ⟨id, p.dst, p.session, x, p.retAck⟩

def AnsSys.began (s : AnsSys) (p : Pending) (w : World) : AnsSys :=
  { s with
    w := w
    pending := (s.next, p) :: s.pending
    held := (p.call s.next).toList ++ s.held
    due := if p.sent then (p.call s.next).toList ++ s.due else s.due
    next := s.next + 1 }

def collect (s : AnsSys) (c : Call) (e : Env) : Out AnsSys (Option Nat) :=
  let sock := s.w.sock c.dst
  let d := s.desk c.dst
  match findWaitBySessionId sock c.session with
  | none => .bug
  | some x =>
    if d.waitSem x = 0 then .spin
    else
      match getWaitbySessionId sock c.session e.signal with
      | none => .spin
      | some sock => (releaseWaitComm sock x e.signal).bind fun _ sock =>
          .ret none { s with
            w := s.w.setSock c.dst sock
            desk := update s.desk c.dst
              { d with
                line := { d.line with fifo := [] }
                waitSem := update d.waitSem x (d.waitSem x - 1) }
            held := s.held.filter (·.id ≠ c.id) }

def ansStep (cur : Nat) (s : AnsSys) : AnsOp → Out AnsSys (Option Nat)
  | .send e a => (sendBegin s.w e a).bind fun x w =>
      match x with
      | .inl _ => .ret none { s with w := w, next := s.next + 1 }
      | .inr p => .ret none (s.began p w)
  | .finish id p e ack => (sendEnd s.w e p ack).bind fun _ w =>
      .ret none { s with
        w := w
        pending := s.pending.filter (·.1 ≠ id)
        held := if (p.dropped s.w ack).isSome then s.held.filter (·.id ≠ id) else s.held }
  | .answer c r =>
      (commandAction cur c.dst (s.w.sock c.dst) ((s.desk c.dst).put r)).bind fun x d =>
        .ret x { s with desk := update s.desk c.dst d, due := s.due.erase c }
  | .collect c e => collect s c e
  | .ackTaken cpu status2 =>
      .ret none { s with desk := update s.desk cpu ((s.desk cpu).setStatus2 status2) }
  | .other w => .ret none { s with w := w }

def SameWaits (s s' : Socket) : Prop :=
  s'.freeWait = s.freeWait ∧ s'.waitList = s.waitList ∧ s'.waits = s.waits

/-- The peer answers what is due, and a caller collects when its send has returned and was
answered. -/
def AnsPossible (s : AnsSys) : AnsOp → Prop
  | .send _ _ | .ackTaken _ _ => True
  | .finish id p _ _ => (id, p) ∈ s.pending
  | .answer c r => c ∈ s.due ∧ Echoes r c
  | .collect c _ => c ∈ s.held ∧ c ∉ s.due ∧ ∀ q ∈ s.pending, q.1 ≠ c.id
  | .other w => ∀ d, SameWaits (s.w.sock d) (w.sock d)

/-- The wait entry of the call still shows its session; a call that asked for an acknowledged return
is looked up by it. -/
def Named (sock : Socket) (c : Call) : Prop :=
  if c.retAck then ∃ x ∈ sock.waitList, (sock.waits x).session = c.session
  else (sock.waits c.wait).session = c.session

def AckClear (cur : Nat) (l : Line) : Prop :=
  l.remoteCpu = cur → l.direction ≤ 1 → l.status2.testBit 2 = false

/-- The sequence is not marked as sent, the ring has room, and the last acknowledgement was taken. -/
structure LineClear (cur : Nat) (l : Line) (status : Nat) : Prop where
  status : status.testBit 2 = false
  room : l.fifo.length < 20
  taken : AckClear cur l

/-- An answer comes while the call holds its wait entry, or that entry still names it. -/
structure AnswerOk (cur : Nat) (s : AnsSys) (c : Call) (r : Return) : Prop where
  clear : LineClear cur (s.desk c.dst).line r.status
  named : c ∈ s.held ∨ Named (s.w.sock c.dst) c

def NewSession (w : World) (session : Nat) : Prop :=
  ∀ d ≤ 1, ∀ x ∈ (w.sock d).waitList, ((w.sock d).waits x).session ≠ session

/-- No entry on a wait list has the session that a send will use. -/
def CalmAns (s : AnsSys) (op : AnsOp) : Prop :=
  AnsPossible s op ∧ ∀ e a, op = .send e a → NewSession s.w (newSession e.cur s.w.callSessionId)

/-- No `BUG`, and the wait entry that is woken belongs to the session of the call. -/
def AnswerRight (cur : Nat) (s : AnsSys) (c : Call) (r : Return) : Prop :=
  ∃ x s', ansStep cur s (.answer c r) = .ret (some x) s' ∧
    ((s.w.sock c.dst).waits x).session = c.session

section

variable {cur cpu : Nat} {sock : Socket} {d : Desk} {r : Return} {c : Call}

theorem rd_received (cpu : Nat) (m : Buf) (off n : Nat) (h : 4 ≤ off) (h' : off + n ≤ 10 ∨ 12 ≤ off) :
    rd (received cpu m) off n = rd m off n := by
  simp only [received]
  rw [rd_wr_of_disjoint (by omega), rd_wr_of_disjoint (by omega), rd_wr_of_disjoint (by omega)]

theorem waitOf_received (sock : Socket) (m : Buf) : waitOf sock (received cpu m) = waitOf sock m := by
  have h6 := rd_received cpu m 6 2 (by omega) (by omega)
  have h12 := rd_received cpu m 12 4 (by omega) (by omega)
  have h32 := rd_received cpu m 32 8 (by omega) (by omega)
  simp only [waitOf, h6, h12, h32]

theorem sendAckLow_ret (cur : Nat) (l : Line) (a2 a4 a5 : Nat) {a3 : Nat} (h3 : a3.testBit 2 = false) :
    (∃ l', sendAckLow cur l a2 a3 a4 a5 = .ret () l') ↔
      (l.remoteCpu = cur → l.direction ≤ 1 → l.status2.testBit 2 = false) := by
  by_cases hours : l.remoteCpu ≠ cur ∨ l.direction > 1
  · have hret : sendAckLow cur l a2 a3 a4 a5 = .ret () l := by rw [sendAckLow, if_pos hours]
    refine ⟨fun _ h1 h2 => ?_, fun _ => ⟨l, hret⟩⟩
    rcases hours with h | h
    · exact absurd h1 h
    · omega
  · simp only [not_or, ne_eq, not_not, Nat.not_lt] at hours
    have hif : ¬ (l.remoteCpu ≠ cur ∨ l.direction > 1) := by
      rintro (h | h)
      · exact h hours.1
      · omega
    cases h2 : l.status2.testBit 2 with
    | true =>
      have hbug : sendAckLow cur l a2 a3 a4 a5 = .bug := by rw [sendAckLow, if_neg hif, if_pos h2]
      rw [hbug]
      exact ⟨fun ⟨_, h⟩ => (nomatch h), fun h => (nomatch h hours.1 hours.2)⟩
    | false =>
      refine ⟨fun _ _ _ => rfl, fun _ => ?_⟩
      simp only [sendAckLow, if_neg hif, h2, h3, Bool.false_eq_true, if_false]
      split
      · exact ⟨_, rfl⟩
      · exact ⟨_, rfl⟩

theorem wakeWaiter_ret (cur : Nat) (sock : Socket) (d : Desk) (entry : Nat) (m : Buf)
    (hst : d.line.status.testBit 2 = false) :
    (∃ x d', wakeWaiter cur sock d entry m = .ret (some x) d' ∧ (sock.waits x).session = rd m 12 4) ↔
      AckClear cur d.line ∧ ∃ x, waitOf sock m = some x ∧ (sock.waits x).session = rd m 12 4 := by
  cases hw : waitOf sock m with
  | none => simp [wakeWaiter, hw]
  | some x =>
    have hack := sendAckLow_ret cur (d.wake entry m x).line (d.wake entry m x).line.seqIdx
      (d.wake entry m x).line.param (d.wake entry m x).line.semPtr hst
    simp only [wakeWaiter, hw]
    constructor
    · rintro ⟨y, d', h, -⟩
      split at h
      · cases h
      · rename_i hses
        obtain ⟨_, l, hl, -⟩ := Out.bind_eq_ret h
        exact ⟨hack.mp ⟨l, hl⟩, x, rfl, (not_not.mp hses).symm⟩
    · rintro ⟨hclear, y, hy, hses⟩
      cases hy
      obtain ⟨l, hl⟩ := hack.mpr hclear
      have hl' : sendAckLow cur (d.wake entry m x).line (d.wake entry m x).line.seqIdx
          (d.wake entry m x).line.status (d.wake entry m x).line.param (d.wake entry m x).line.semPtr =
          .ret () l := hl
      refine ⟨x, { d.wake entry m x with line := l }, ?_, hses⟩
      rw [if_neg (not_not_intro hses.symm), hl']
      rfl

theorem commandAction_put_eq (hidx : r.idx < 20) : commandAction cur cpu sock (d.put r) =
    if r.status.testBit 2 then .bug
    else if d.line.fifo.length ≥ 20 then .bug
    else wakeWaiter cur sock (d.put r) (d.line.base + 104 * r.idx + 360) (received cpu r.msg) := by
  have hentry : (d.put r).calls ((d.put r).line.base + 104 * (d.put r).line.seqIdx + 360) = r.msg := by
    simp only [Desk.put, update_self]
  have hlt : ¬ (d.put r).line.seqIdx ≥ fifoDefaultCap := by
    simp only [Desk.put, fifoDefaultCap]
    omega
  simp only [commandAction, if_neg hlt, hentry]
  rfl

theorem commandAction_put (hidx : r.idx < 20) : (∃ x d', commandAction cur cpu sock (d.put r) = .ret (some x) d' ∧
      (sock.waits x).session = rd r.msg 12 4) ↔ LineClear cur d.line r.status ∧
      ∃ x, waitOf sock r.msg = some x ∧ (sock.waits x).session = rd r.msg 12 4 := by
  rw [commandAction_put_eq hidx]
  by_cases hst : r.status.testBit 2 = true
  · rw [if_pos hst]
    refine ⟨fun ⟨_, _, h, _⟩ => (nomatch h), fun ⟨hc, _⟩ => ?_⟩
    rw [hc.status] at hst
    cases hst
  by_cases hroom : d.line.fifo.length ≥ 20
  · rw [if_neg hst, if_pos hroom]
    exact ⟨fun ⟨_, _, h, _⟩ => (nomatch h), fun ⟨hc, _⟩ => absurd hc.room (Nat.not_lt.mpr hroom)⟩
  rw [if_neg hst, if_neg hroom]
  have hst' : r.status.testBit 2 = false := Bool.eq_false_iff.mpr hst
  have h12 : rd (received cpu r.msg) 12 4 = rd r.msg 12 4 := rd_received _ _ _ _ (by omega) (by omega)
  have hwake := wakeWaiter_ret cur sock (d.put r) (d.line.base + 104 * r.idx + 360)
    (received cpu r.msg) hst'
  rw [waitOf_received, h12] at hwake
  rw [hwake]
  exact ⟨fun ⟨ha, hw⟩ => ⟨⟨hst', Nat.not_le.mp hroom, ha⟩, hw⟩, fun ⟨hc, hw⟩ => ⟨hc.taken, hw⟩⟩

theorem waitOf_echo (he : Echoes r c) (h0 : c.wait ≠ 0) (hlt : c.wait < 2 ^ 32) :
    (∃ x, waitOf sock r.msg = some x ∧ (sock.waits x).session = rd r.msg 12 4) ↔ Named sock c := by
  simp only [waitOf, Named, he.retAck, he.session, he.wait, if_neg h0, Nat.mod_eq_of_lt hlt]
  cases c.retAck with
  | false => simp
  | true =>
    simp only [if_true]
    constructor
    · rintro ⟨x, hx, hs⟩
      exact ⟨x, List.mem_of_find?_eq_some hx, hs⟩
    · rintro ⟨x, hx, hs⟩
      obtain ⟨y, hy⟩ := Option.isSome_iff_exists.mp
        (List.find?_isSome (p := fun a => decide ((sock.waits a).session = c.session)) |>.mpr
          ⟨x, hx, decide_eq_true hs⟩)
      exact ⟨y, hy, by simpa using List.find?_some hy⟩

end

structure SockInv (s : Socket) : Prop where
  free : s.freeWait.Nodup
  apart : ∀ x ∈ s.freeWait, x ∉ s.waitList
  sessions : (s.waitList.map fun x => (s.waits x).session).Nodup
  small : ∀ x, x ∈ s.freeWait ∨ x ∈ s.waitList → x < 2 ^ 32

theorem mem_eraseP_of_nodup {α β : Type} [DecidableEq β] {f : α → β} {x y : α} {l : List α}
    (hl : (l.map f).Nodup) (hx : x ∈ l) : y ∈ l.eraseP (fun z => f z = f x) ↔ y ∈ l ∧ y ≠ x := by
  induction l with
  | nil => cases hx
  | cons z l ih =>
    rw [List.map_cons, List.nodup_cons] at hl
    have hz : ∀ u ∈ l, f u ≠ f z := fun u hu he => hl.1 (he ▸ List.mem_map_of_mem hu)
    rcases List.mem_cons.mp hx with rfl | hx
    · rw [List.eraseP_cons_of_pos (by simp)]
      constructor
      · exact fun hy => ⟨List.mem_cons_of_mem _ hy, fun he => hz y hy (he ▸ rfl)⟩
      · rintro ⟨hy, hne⟩
        exact (List.mem_cons.mp hy).resolve_left hne
    · have hne : f z ≠ f x := (hz x hx).symm
      rw [List.eraseP_cons_of_neg (by simpa using hne), List.mem_cons, List.mem_cons, ih hl.2 hx]
      constructor
      · rintro (rfl | ⟨hy, hyx⟩)
        · exact ⟨.inl rfl, fun he => hne (he ▸ rfl)⟩
        · exact ⟨.inr hy, hyx⟩
      · rintro ⟨rfl | hy, hyx⟩
        · exact .inl rfl
        · exact .inr ⟨hy, hyx⟩

theorem takeFreeWait_some {l rest : List Nat} {a : Nat} (h : takeFreeWait l = some (a, rest)) :
    a ≠ 0 ∧ ∃ pre, l = pre ++ a :: rest := by
  induction l with
  | nil => cases h
  | cons x l ih =>
    simp only [takeFreeWait] at h
    split at h
    · obtain ⟨ha, pre, rfl⟩ := ih h
      exact ⟨ha, x :: pre, rfl⟩
    · rename_i hx
      obtain ⟨rfl, rfl⟩ := Prod.mk.inj (Option.some.inj h)
      exact ⟨hx, [], rfl⟩

namespace SockInv

variable {s s' : Socket} {session pid x : Nat}

theorem take (h : SockInv s) (ht : TookWait s s' session pid (some x))
    (hnew : ∀ y ∈ s.waitList, (s.waits y).session ≠ session) :
    SockInv s' ∧ x ∉ s.waitList ∧ x ≠ 0 ∧ x < 2 ^ 32 := by
  obtain ⟨rest, htake, hfree, hlist, hwaits⟩ := ht
  obtain ⟨h0, pre, hpre⟩ := takeFreeWait_some htake
  have hx : x ∈ s.freeWait := by simp [hpre]
  have hrest : ∀ y ∈ rest, y ∈ s.freeWait ∧ y ≠ x := by
    intro y hy
    refine ⟨by simp [hpre, hy], ?_⟩
    rintro rfl
    have hnd := h.free
    rw [hpre, List.nodup_append] at hnd
    exact (List.nodup_cons.mp hnd.2.1).1 hy
  have hxl := h.apart x hx
  have hkeep : s.waitList.map (fun y => (s'.waits y).session) =
      s.waitList.map fun y => (s.waits y).session := by
    refine List.map_congr_left fun y hy => ?_
    have hne : y ≠ x := fun he => hxl (he ▸ hy)
    rw [hwaits, update_of_ne hne]
  refine ⟨⟨?_, fun y hy => ?_, ?_, fun y hy => ?_⟩, hxl, h0, h.small x (.inl hx)⟩
  · rw [hfree]
    have hnd := h.free
    rw [hpre, List.nodup_append] at hnd
    exact (List.nodup_cons.mp hnd.2.1).2
  · rw [hfree] at hy
    obtain ⟨hy, hne⟩ := hrest y hy
    rw [hlist, List.mem_append, List.mem_singleton, not_or]
    exact ⟨h.apart y hy, hne⟩
  · rw [hlist, List.map_append, hkeep, List.map_singleton, List.nodup_append]
    refine ⟨h.sessions, by simp, fun u hu v hv => ?_⟩
    obtain ⟨y, hy, rfl⟩ := List.mem_map.mp hu
    rw [List.mem_singleton.mp hv, hwaits, update_self]
    exact hnew y hy
  · rw [hfree, hlist, List.mem_append, List.mem_singleton] at hy
    rcases hy with hy | hy | rfl
    · exact h.small y (.inl (hrest y hy).1)
    · exact h.small y (.inr hy)
    · exact h.small y (.inl hx)

theorem give (h : SockInv s) (hx : x ∈ s.waitList) (hfree : s'.freeWait = s.freeWait ++ [x])
    (hlist : s'.waitList = s.waitList.eraseP fun y => (s.waits y).session = (s.waits x).session)
    (hwaits : s'.waits = s.waits) : SockInv s' ∧ ∀ y ∈ s.waitList, y ≠ x → y ∈ s'.waitList := by
  have hmem : ∀ y, y ∈ s'.waitList ↔ y ∈ s.waitList ∧ y ≠ x := fun y => by
    rw [hlist]
    exact mem_eraseP_of_nodup (f := fun y => (s.waits y).session) h.sessions hx
  refine ⟨⟨?_, fun y hy => ?_, ?_, fun y hy => ?_⟩, fun y hy hne => (hmem y).mpr ⟨hy, hne⟩⟩
  · rw [hfree, List.nodup_append]
    refine ⟨h.free, by simp, fun u hu v hv => ?_⟩
    rw [List.mem_singleton.mp hv]
    exact fun he => h.apart u hu (he ▸ hx)
  · rw [hfree, List.mem_append, List.mem_singleton] at hy
    rw [hmem]
    rcases hy with hy | rfl
    · exact fun hc => h.apart y hy hc.1
    · exact fun hc => hc.2 rfl
  · rw [hlist, hwaits]
    exact h.sessions.sublist (List.eraseP_sublist.map _)
  · rw [hfree, List.mem_append, List.mem_singleton, hmem] at hy
    rcases hy with (hy | rfl) | hy
    · exact h.small y (.inl hy)
    · exact h.small y (.inr hx)
    · exact h.small y (.inr hy.1)

end SockInv

structure AnsInv (s : AnsSys) : Prop where
  sock : ∀ d ≤ 1, SockInv (s.w.sock d)
  cpu : ∀ c ∈ s.held, c.dst ≤ 1
  held : ∀ c ∈ s.held, c.wait ∈ (s.w.sock c.dst).waitList ∧
    ((s.w.sock c.dst).waits c.wait).session = c.session
  one : ∀ c ∈ s.held, ∀ c' ∈ s.held, c.dst = c'.dst → c.wait = c'.wait → c.id = c'.id
  pend : ∀ q ∈ s.pending, ∀ x, q.2.wait = some x →
    ∃ c ∈ s.held, c.id = q.1 ∧ c.dst = q.2.dst ∧ c.wait = x
  due : ∀ c ∈ s.due, c.wait ≠ 0 ∧ c.wait < 2 ^ 32

theorem SockInv.congr {s s' : Socket} (h : SockInv s) (he : SameWaits s s') : SockInv s' := by
  obtain ⟨hf, hl, hw⟩ := he
  exact ⟨hf ▸ h.free, by rw [hf, hl]; exact h.apart, by rw [hl, hw]; exact h.sessions,
    by rw [hf, hl]; exact h.small⟩

theorem SameWaits.ofOthers {w w' : World} {dst : Nat} (ho : ∀ d ≠ dst, w'.sock d = w.sock d)
    (h : SameWaits (w.sock dst) (w'.sock dst)) (d : Nat) : SameWaits (w.sock d) (w'.sock d) := by
  by_cases hd : d = dst
  · rw [hd]
    exact h
  · rw [ho d hd]
    exact ⟨rfl, rfl, rfl⟩

namespace AnsInv

variable {s s' : AnsSys} {w : World}

theorem setWorld (h : AnsInv s) (hw : ∀ d, SameWaits (s.w.sock d) (w.sock d)) : AnsInv { s with w := w } := by
  refine { h with sock := fun d hd => (h.sock d hd).congr (hw d), held := fun c hc => ?_ }
  simp only [(hw c.dst).2.1, (hw c.dst).2.2]
  exact h.held c hc

variable {e : Env} {c : Call}

section

variable (h : AnsInv s)

include h

theorem took {dst session x : Nat} (hdst : dst ≤ 1) (hstep : SockStep s.w w e dst session (some x))
    (hnew : NewSession s.w session) :
    AnsInv { s with w := w } ∧ x ∉ (s.w.sock dst).waitList ∧ x ≠ 0 ∧ x < 2 ^ 32 := by
  obtain ⟨hinv, hx, h0, hlt⟩ := (h.sock dst hdst).take hstep.took (hnew dst hdst)
  obtain ⟨rest, -, -, hlist, hwaits⟩ := hstep.took
  refine ⟨{ h with sock := fun d hle => ?_, held := fun c hc => ?_ }, hx, h0, hlt⟩
  · by_cases hd : d = dst
    · rw [hd]
      exact hinv
    · simp only [hstep.others d hd]
      exact h.sock d hle
  · obtain ⟨hmem, hses⟩ := h.held c hc
    by_cases hd : c.dst = dst
    · rw [hd] at hmem hses
      have hne : c.wait ≠ x := fun he => hx (he ▸ hmem)
      simp only [hd, hlist, hwaits, update_of_ne hne]
      exact ⟨List.mem_append_left _ hmem, hses⟩
    · simp only [hstep.others _ hd]
      exact ⟨hmem, hses⟩

theorem begins {a : Args} {p : Pending} (hb : Begins s.w w e a p)
    (hnew : NewSession s.w (newSession e.cur s.w.callSessionId)) : AnsInv (s.began p w) := by
  have hstep := hb.step
  cases hwait : p.wait with
  | none =>
    rw [hwait] at hstep
    have hw : AnsInv { s with w := w } := h.setWorld (.ofOthers hstep.others hstep.took)
    refine ⟨hw.sock, ?_, ?_, ?_, ?_, ?_⟩ <;>
      simp only [AnsSys.began, Pending.call, hwait, Option.map_none, Option.toList_none, List.nil_append,
        ite_self]
    · exact hw.cpu
    · exact hw.held
    · exact hw.one
    · refine List.forall_mem_cons.mpr ⟨fun x hx => ?_, hw.pend⟩
      rw [hwait] at hx
      cases hx
    · exact hw.due
  | some x =>
    rw [hwait] at hstep
    rw [← hstep.fresh (by simp)] at hnew
    obtain ⟨hw, hx, h0, hlt⟩ := h.took hb.cpu hstep hnew
    obtain ⟨rest, -, -, hlist, hwaits⟩ := hstep.took
    refine ⟨hw.sock, ?_, ?_, ?_, ?_, ?_⟩ <;>
      simp only [AnsSys.began, Pending.call, hwait, Option.map_some, Option.toList_some,
        List.singleton_append]
    · exact List.forall_mem_cons.mpr ⟨hb.cpu, hw.cpu⟩
    · refine List.forall_mem_cons.mpr ⟨⟨?_, ?_⟩, hw.held⟩
      · rw [hlist]
        exact List.mem_append_right _ (List.mem_singleton_self x)
      · rw [hwaits, update_self]
    · have hne : ∀ c ∈ s.held, c.dst = p.dst → c.wait ≠ x := fun c hc hd he =>
        hx (he ▸ hd ▸ (h.held c hc).1)
      refine List.forall_mem_cons.mpr ⟨List.forall_mem_cons.mpr ⟨fun _ _ => rfl, fun c hc hd hwx => ?_⟩,
        fun c hc => List.forall_mem_cons.mpr ⟨fun hd hwx => ?_, h.one c hc⟩⟩
      · exact absurd hwx.symm (hne c hc hd.symm)
      · exact absurd hwx (hne c hc hd)
    · refine List.forall_mem_cons.mpr ⟨fun y hy => ?_, fun q hq y hy => ?_⟩
      · rw [hwait] at hy
        exact ⟨_, List.mem_cons_self .., rfl, rfl, Option.some.inj hy⟩
      · obtain ⟨c, hc, hrest⟩ := h.pend q hq y hy
        exact ⟨c, List.mem_cons_of_mem _ hc, hrest⟩
    · split
      · exact List.forall_mem_cons.mpr ⟨⟨h0, hlt⟩, h.due⟩
      · exact h.due

theorem fails {r : Sent} (hf : Fails s.w w e r) (hnew : NewSession s.w (newSession e.cur s.w.callSessionId)) :
    AnsInv { s with w := w } := by
  obtain ⟨dst, hdst, session, wait, hstep⟩ := hf.step
  cases wait with
  | none => exact h.setWorld (.ofOthers hstep.others hstep.took)
  | some x =>
    rw [← hstep.fresh (by simp)] at hnew
    exact (h.took hdst hstep hnew).1

theorem gave {pending : List (Nat × Pending)} (hc : c ∈ s.held) (hothers : ∀ d ≠ c.dst, w.sock d = s.w.sock d)
    (hfree : (w.sock c.dst).freeWait = (s.w.sock c.dst).freeWait ++ [c.wait])
    (hlist : (w.sock c.dst).waitList = (s.w.sock c.dst).waitList.eraseP fun y =>
      ((s.w.sock c.dst).waits y).session = ((s.w.sock c.dst).waits c.wait).session)
    (hwaits : (w.sock c.dst).waits = (s.w.sock c.dst).waits) (hp : ∀ q ∈ pending, q ∈ s.pending ∧ q.1 ≠ c.id) :
    AnsInv { s with w := w, pending := pending, held := s.held.filter (·.id ≠ c.id) } := by
  obtain ⟨hinv, hkeep⟩ := (h.sock c.dst (h.cpu c hc)).give (h.held c hc).1 hfree hlist hwaits
  have hmem : ∀ c' ∈ s.held.filter (·.id ≠ c.id), c' ∈ s.held ∧ c'.id ≠ c.id := fun c' hc' => by
    simpa using List.mem_filter.mp hc'
  refine ⟨fun d hle => ?_, fun c' hc' => h.cpu c' (hmem c' hc').1, fun c' hc' => ?_,
    fun c₁ h₁ c₂ h₂ => h.one c₁ (hmem c₁ h₁).1 c₂ (hmem c₂ h₂).1, fun q hq x hx => ?_, h.due⟩
  · by_cases hd : d = c.dst
    · rw [hd]
      exact hinv
    · simp only [hothers d hd]
      exact h.sock d hle
  · obtain ⟨hc', hid⟩ := hmem c' hc'
    obtain ⟨hl, hs⟩ := h.held c' hc'
    by_cases hd : c'.dst = c.dst
    · have hne : c'.wait ≠ c.wait := fun he => hid (h.one c' hc' c hc hd he)
      rw [hd] at hl hs
      simp only [hd, hwaits]
      exact ⟨hkeep _ hl hne, hs⟩
    · simp only [hothers _ hd]
      exact ⟨hl, hs⟩
  · obtain ⟨hq, hne⟩ := hp q hq
    obtain ⟨c', hc', hid, hrest⟩ := h.pend q hq x hx
    refine ⟨c', ?_, hid, hrest⟩
    rw [List.mem_filter]
    exact ⟨hc', by simp [hid, hne]⟩

theorem finished {id : Nat} {p : Pending} {ack : Int} {r : Sent} (hmem : (id, p) ∈ s.pending)
    (hend : sendEnd s.w e p ack = .ret r w) : AnsInv { s with
      w := w
      pending := s.pending.filter (·.1 ≠ id)
      held := if (p.dropped s.w ack).isSome then s.held.filter (·.id ≠ id) else s.held } := by
  obtain ⟨-, hends⟩ := sendEnd_ends hend
  have hpend : ∀ q ∈ s.pending.filter (·.1 ≠ id), q ∈ s.pending ∧ q.1 ≠ id := fun q hq => by
    simpa using List.mem_filter.mp hq
  have hdrop := hends.dropped
  cases hd : p.dropped s.w ack with
  | none =>
    rw [hd] at hdrop
    have hw : AnsInv { s with w := w } :=
      h.setWorld (.ofOthers hends.others ⟨hdrop.1, hdrop.2, hends.waits⟩)
    exact { hw with pend := fun q hq => hw.pend q (hpend q hq).1 }
  | some x =>
    rw [hd] at hdrop
    have hwait : p.wait = some x := by
      simp only [Pending.dropped] at hd
      split at hd
      · cases hd
      · exact hd
    obtain ⟨c, hc, hid, hdst, hcw⟩ := h.pend _ hmem x hwait
    subst hid hcw
    have hothers := hends.others
    have hwaits := hends.waits
    rw [← hdst] at hdrop hothers hwaits
    exact h.gave hc hothers hdrop.1 hdrop.2 hwaits hpend

theorem setDesk {desk : Nat → Desk} {due : List Call} (hd : ∀ c ∈ due, c ∈ s.due) :
    AnsInv { s with desk := desk, due := due } :=
  { h with due := fun c hc => h.due c (hd c hc) }

theorem find_eq {x : Nat} (hc : c ∈ s.held) (hx : findWaitBySessionId (s.w.sock c.dst) c.session = some x) :
    x = c.wait := by
  obtain ⟨hmem, hses⟩ := h.held c hc
  have hx' : ((s.w.sock c.dst).waits x).session = c.session := by
    simpa using List.find?_some hx
  exact List.inj_on_of_nodup_map (h.sock c.dst (h.cpu c hc)).sessions (List.mem_of_find?_eq_some hx) hmem
    (hx'.trans hses.symm)

theorem collected {r : Option Nat} (hc : c ∈ s.held) (hp : ∀ q ∈ s.pending, q.1 ≠ c.id)
    (hs : collect s c e = .ret r s') : AnsInv s' := by
  simp only [collect] at hs
  split at hs
  · cases hs
  rename_i x hfind
  obtain rfl := h.find_eq hc hfind
  split at hs
  · cases hs
  split at hs
  · cases hs
  rename_i sock hget
  obtain ⟨_, sock', hrel, hs⟩ := Out.bind_eq_ret hs
  cases hs
  rw [releaseWait_sock hget hrel]
  refine (h.gave (w := s.w.setSock c.dst _) hc (fun d hd => ?_) ?_ ?_ ?_
    fun q hq => ⟨hq, hp q hq⟩).setDesk (fun _ h => h : ∀ c ∈ s.due, c ∈ s.due)
  · simp [World.setSock, hd]
  · simp [World.setSock]
  · simp [World.setSock, (h.held c hc).2]
  · simp [World.setSock]

theorem step {cur : Nat} {op : AnsOp} {r : Option Nat} (hok : CalmAns s op) (hs : ansStep cur s op = .ret r s') :
    AnsInv s' := by
  obtain ⟨hp, hnew⟩ := hok
  cases op with
  | send e a =>
    obtain ⟨x, w, hbegin, hret⟩ := Out.bind_eq_ret hs
    obtain ⟨r, rfl, hf⟩ | ⟨p, rfl, hb⟩ := sendBegin_cases hbegin
    · cases hret
      have hw := h.fails hf (hnew e a rfl)
      exact { hw with }
    · cases hret
      exact h.begins hb (hnew e a rfl)
  | finish id p e ack =>
    obtain ⟨sent, w, hend, hret⟩ := Out.bind_eq_ret hs
    cases hret
    exact h.finished hp hend
  | answer c ret =>
    obtain ⟨x, d, -, hret⟩ := Out.bind_eq_ret hs
    cases hret
    exact h.setDesk fun _ hc => List.mem_of_mem_erase hc
  | collect c e => exact h.collected hp.1 hp.2.2 hs
  | ackTaken cpu status2 =>
    cases hs
    exact h.setDesk fun _ hc => hc
  | other w =>
    cases hs
    exact h.setWorld hp

theorem named (hc : c ∈ s.held) : Named (s.w.sock c.dst) c := by
  obtain ⟨hmem, hses⟩ := h.held c hc
  simp only [Named]
  split
  · exact ⟨_, hmem, hses⟩
  · exact hses

end

end AnsInv

/-- Both sockets have their wait entries in order. -/
def AnsStart (w : World) : Prop := ∀ d ≤ 1, SockInv (w.sock d)

def AnsSys.start (w : World) (desk : Nat → Desk) : AnsSys := ⟨w, desk, [], [], [], 0⟩

theorem AnsInv.ofStart {w : World} (h : AnsStart w) (desk : Nat → Desk) : AnsInv (.start w desk) :=
  ⟨h, nofun, nofun, nofun, nofun, nofun⟩

theorem answerRight_iff {cur : Nat} {s : AnsSys} {c : Call} {r : Return} (he : Echoes r c) : AnswerRight cur s c r ↔
      ∃ x d', commandAction cur c.dst (s.w.sock c.dst) ((s.desk c.dst).put r) = .ret (some x) d' ∧
        ((s.w.sock c.dst).waits x).session = rd r.msg 12 4 := by
  rw [he.session]
  constructor
  · rintro ⟨x, s', hs, hx⟩
    obtain ⟨y, d', hd, hret⟩ := Out.bind_eq_ret hs
    obtain ⟨rfl, -⟩ := Out.ret.inj hret
    exact ⟨x, d', hd, hx⟩
  · rintro ⟨x, d', hd, hx⟩
    exact ⟨x, { s with desk := update s.desk c.dst d', due := s.due.erase c },
      by simp only [ansStep, hd, Out.bind], hx⟩

/-- In every history of calls, timeouts and answers, an answer that is due ends in no `BUG` and wakes a wait entry
of its session exactly when the sequences are clear and the call still holds its wait entry, or is named by it. -/
theorem answers_right {cur : Nat} {w : World} {desk : Nat → Desk} (hw : AnsStart w) {ops : List AnsOp}
    {s : AnsSys} (hr : Run (ansStep cur) CalmAns (.start w desk) ops s) {c : Call} (hc : c ∈ s.due)
    {r : Return} (he : Echoes r c) : AnswerRight cur s c r ↔ AnswerOk cur s c r := by
  have h := hr.inv (fun _ _ _ _ hi hok hs => hi.step hok hs) (AnsInv.ofStart hw desk)
  obtain ⟨h0, hlt⟩ := h.due c hc
  rw [answerRight_iff he, commandAction_put he.idx, waitOf_echo he h0 hlt]
  constructor
  · exact fun ⟨hclear, hnamed⟩ => ⟨hclear, .inr hnamed⟩
  · rintro ⟨hclear, hheld | hnamed⟩
    · exact ⟨hclear, h.named hheld⟩
    · exact ⟨hclear, hnamed⟩

def callMips : Args := ⟨wr (wr (fun _ => 0) 40 4 5) 6 2 2, 0, false⟩

def interrupted : Env := { noAck with signal := true }

def mipsCall : Call := ⟨0, 1, 1, 13476, true⟩

def mipsReturn : Return := ⟨0, 0, 0, 0, wr (wr (wr (fun _ => 0) 6 2 2) 12 4 1) 32 8 13476⟩

def idleDesk : Desk where
  line := ⟨0x9000, 20, 0, 0, 0, 1, 0, 1, 20, 0, 0, 0, []⟩
  calls := fun _ _ => 0
  waitSem := fun _ => 0

def callTimesOut : Out World Pending :=
  (sendBegin mipsWorld noAck callMips).bind fun x w =>
    match x with
    | .inl _ => .bug
    | .inr p => (sendEnd w interrupted p eTime).bind fun _ w => .ret p w

theorem callTimesOut_parts : ∃ p w₁ r w₂,
    sendBegin mipsWorld noAck callMips = .ret (.inr p) w₁ ∧ sendEnd w₁ interrupted p eTime = .ret r w₂ ∧
      p.sent = true ∧ p.call 0 = some mipsCall ∧ (w₂.sock 1).waitList = [] := by
  have hv : callTimesOut.value?.map (fun p => (p.sent, p.call 0)) = some (true, some mipsCall) := by
    decide +kernel
  have hl : callTimesOut.state?.map (fun w => (w.sock 1).waitList) = some [] := by
    decide +kernel
  cases hs : callTimesOut with
  | bug | spin => rw [hs] at hv; cases hv
  | ret p w₂ =>
    rw [hs] at hv hl
    have hp := Prod.mk.inj (Option.some.inj hv)
    obtain ⟨x, w₁, h₁, h⟩ := Out.bind_eq_ret hs
    cases x with
    | inl r => cases h
    | inr p' =>
      obtain ⟨r, w₂', h₂, h⟩ := Out.bind_eq_ret h
      obtain ⟨rfl, rfl⟩ := Out.ret.inj h
      exact ⟨p', w₁, r, w₂', h₁, h₂, hp.1, hp.2, Option.some.inj hl⟩

theorem mipsReturn_echoes : Echoes mipsReturn mipsCall :=
  ⟨by decide, by decide, by decide, by decide⟩

theorem idleDesk_clear : LineClear 0 idleDesk.line mipsReturn.status :=
  ⟨by decide, by decide, fun _ _ => by decide⟩

theorem SockInv.ofIdle {s : Socket} (hlist : s.waitList = []) (hfree : s.freeWait.Nodup)
    (hsmall : ∀ x ∈ s.freeWait, x < 2 ^ 32) : SockInv s := by
  refine ⟨hfree, ?_, ?_, fun x hx => hsmall x ?_⟩ <;> simp_all

theorem mipsWorld_ansStart : AnsStart mipsWorld := by
  intro d hd
  have h01 : d = 0 ∨ d = 1 := by omega
  rcases h01 with rfl | rfl <;> exact .ofIdle rfl (by decide) (by decide)

theorem callMips_sent {p : Pending} {w : World}
    (h : sendBegin mipsWorld noAck callMips = .ret (.inr p) w) (hsent : p.sent = true)
    (hcall : p.call 0 = some mipsCall) : ansStep 0 (.start mipsWorld fun _ => idleDesk) (.send noAck callMips) =
      .ret none ⟨w, fun _ => idleDesk, [(0, p)], [mipsCall], [mipsCall], 1⟩ := by
  simp [ansStep, AnsSys.start, AnsSys.began, h, hsent, hcall, Out.bind]

theorem answers_right_mipsCall :
    ∃ s, Run (ansStep 0) CalmAns (.start mipsWorld fun _ => idleDesk) [.send noAck callMips] s ∧
      mipsCall ∈ s.due ∧ Echoes mipsReturn mipsCall ∧ AnswerRight 0 s mipsCall mipsReturn := by
  obtain ⟨p, w₁, -, -, h₁, -, hsent, hcall, -⟩ := callTimesOut_parts
  have hnew : CalmAns (.start mipsWorld fun _ => idleDesk) (.send noAck callMips) :=
    ⟨trivial, fun _ _ _ _ _ _ hx => nomatch hx⟩
  have hrun : Run (ansStep 0) CalmAns (.start mipsWorld fun _ => idleDesk) [.send noAck callMips]
      ⟨w₁, fun _ => idleDesk, [(0, p)], [mipsCall], [mipsCall], 1⟩ :=
    .cons hnew (callMips_sent h₁ hsent hcall) .nil
  have hdue : mipsCall ∈ [mipsCall] := List.mem_singleton_self _
  exact ⟨_, hrun, hdue, mipsReturn_echoes,
    (answers_right mipsWorld_ansStart hrun hdue mipsReturn_echoes).mpr ⟨idleDesk_clear, .inl hdue⟩⟩

theorem answer_after_timeout_bugs : ∃ p s, Run (ansStep 0) AnsPossible (.start mipsWorld fun _ => idleDesk)
      [.send noAck callMips, .finish 0 p interrupted eTime] s ∧ AnsPossible s (.answer mipsCall mipsReturn) ∧
      LineClear 0 (s.desk mipsCall.dst).line mipsReturn.status ∧
      ansStep 0 s (.answer mipsCall mipsReturn) = .bug := by
  obtain ⟨p, w₁, r, w₂, h₁, h₂, hsent, hcall, hlist⟩ := callTimesOut_parts
  let s₁ : AnsSys := ⟨w₁, fun _ => idleDesk, [(0, p)], [mipsCall], [mipsCall], 1⟩
  let s₂ : AnsSys := { s₁ with
    w := w₂
    pending := s₁.pending.filter (·.1 ≠ 0)
    held := if (p.dropped w₁ eTime).isSome then s₁.held.filter (·.id ≠ 0) else s₁.held }
  have hstep₂ : ansStep 0 s₁ (.finish 0 p interrupted eTime) = .ret none s₂ := by
    have hw : s₁.w = w₁ := rfl
    simp only [ansStep, hw, h₂, Out.bind]
    rfl
  have hrun : Run (ansStep 0) AnsPossible (.start mipsWorld fun _ => idleDesk)
      [.send noAck callMips, .finish 0 p interrupted eTime] s₂ :=
    .cons trivial (callMips_sent h₁ hsent hcall) (.cons (List.mem_singleton_self _) hstep₂ .nil)
  have hwait : waitOf (w₂.sock 1) (received 1 mipsReturn.msg) = none := by
    have hbit : (rd mipsReturn.msg 6 2).testBit 1 = true := by decide
    rw [waitOf_received, waitOf, if_pos hbit, findWaitBySessionId, hlist]
    rfl
  have hbug : commandAction 0 1 (w₂.sock 1) (idleDesk.put mipsReturn) = .bug := by
    rw [commandAction_put_eq mipsReturn_echoes.idx, if_neg (by decide), if_neg (by decide), wakeWaiter,
      hwait]
  have hanswer : ansStep 0 s₂ (.answer mipsCall mipsReturn) =
      (commandAction 0 1 (w₂.sock 1) (idleDesk.put mipsReturn)).bind fun x d => .ret x
        { s₂ with desk := update s₂.desk 1 d, due := s₂.due.erase mipsCall } := rfl
  refine ⟨p, s₂, hrun, ⟨List.mem_singleton_self _, mipsReturn_echoes⟩, idleDesk_clear, ?_⟩
  rw [hanswer, hbug]
  rfl

end H713.Proto
