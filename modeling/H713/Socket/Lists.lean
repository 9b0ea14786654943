import Mathlib.Data.Finset.Card
import Mathlib.Data.Finset.Range
import H713.Fifo.Words
import H713.Lib.Dll

/-!
# Socket.Lists

The wait list and the return list of a socket: circular lists whose nodes lie inside the entries. Addresses are kept
in 32-bit words; a link is followed through `__ptr64`, and the end of the list is recognised by the lower half of
the sentinel's address. The entries do not overlap: the fields of one are functions of its address, and storing to
one entry changes no other. The semaphores of the lists are left out.
-/

namespace H713.Socket.Lists

open Function
open Bytes Dll Fifo

inductive Width where
  | arm
  | arm64
  deriving DecidableEq, Repr

def Width.long : Width → Nat → Nat
  | arm, a => a % 2 ^ 32
  | arm64, a => a

def Width.ptr (w : Width) (p : Nat) : Nat := w.long (ptr64 p)

structure MsgList where
  sentinel : Nat
  next : Nat → Nat
  prev : Nat → Nat
  session : Nat → Nat
  count : Nat
  peak : Nat

def initMsgFIFO (l : MsgList) : MsgList :=
  { l with
    next := update l.next l.sentinel (l.sentinel % 2 ^ 32)
    prev := update l.prev l.sentinel (l.sentinel % 2 ^ 32)
    count := 0
    peak := 0 }

def insertTail (l : MsgList) (node : Nat) : MsgList :=
  let prev := l.prev l.sentinel
  { l with
    next := update (update l.next node (l.sentinel % 2 ^ 32)) prev node
    prev := update (update l.prev node prev) l.sentinel node }

def countUp (l : MsgList) : MsgList :=
  let count := (l.count + 1) % 2 ^ 32
  { l with count := count, peak := if l.peak < count then count % 2 ^ 8 else l.peak }

def addtoWaitComm (l : MsgList) (waitEntry : Nat) : Int × MsgList :=
  if waitEntry = 0 then (-22, l) else (0, countUp (insertTail l ((waitEntry + 24) % 2 ^ 32)))

def search (w : Width) (l : MsgList) (sessionId : Nat) : Nat → Nat → Option (Option Nat)
  | 0, _ => none
  | fuel + 1, cur =>
    if cur = l.sentinel % 2 ^ 32 then some none
    else if l.session cur = sessionId then some (some cur)
    else search w l sessionId fuel (w.ptr (l.next cur))

def unlink (w : Width) (l : MsgList) (cur : Nat) : MsgList :=
  let nodeNext := w.ptr (l.next cur)
  let nodePrev := w.ptr (l.prev cur)
  { l with
    next := update l.next nodePrev (nodeNext % 2 ^ 32)
    prev := update l.prev nodeNext (nodePrev % 2 ^ 32)
    count := (l.count + (2 ^ 32 - 1)) % 2 ^ 32 }

abbrev Reply := Int × Nat

def findWaitBySessionId (w : Width) (fuel : Nat) (l : MsgList) (sessionId : Nat) : Out MsgList Reply :=
  match search w l sessionId fuel (w.ptr (l.next l.sentinel)) with
  | none => .spin
  | some none => .ret (1, 0) l
  | some (some cur) => .ret (0, cur - 24) l

def getWaitbySessionId (w : Width) (fuel : Nat) (l : MsgList) (sessionId : Nat) : Out MsgList Reply :=
  match search w l sessionId fuel (w.ptr (l.next l.sentinel)) with
  | none => .spin
  | some none => .ret (1, 0) l
  | some (some cur) => .ret (0, cur - 24) (unlink w l cur)

structure Returns where
  list : MsgList
  index : Nat → Nat
  flags : Nat → Nat
  fifo : Fifo
  slot : Nat → Nat

def addReturn2Fifo (w : Width) (r : Returns) (data : Nat) : Out Returns Reply :=
  if data = 0 then .ret (0, 0) r
  else
    let wrSlot := w.long (fifoGetItemWr r.fifo)
    if wrSlot = 0 then .bug
    else
      let r := { r with
        slot := update r.slot wrSlot (data % 2 ^ 32)
        flags := update r.flags data (r.flags data ||| 0x10) }
      if w.long (fifoRequestItemWr r.fifo).1 = 0 then .bug
      else .ret (1, 0) { r with fifo := (fifoRequestItemWr r.fifo).2 }

def enlist (r : Returns) (entryVir : Nat) : Returns :=
  { r with
    flags := update r.flags entryVir (r.flags entryVir ||| 0x20)
    list := countUp (insertTail r.list ((entryVir + 84) % 2 ^ 32))
    fifo := (fifoItemRdNext r.fifo).2 }

def drain (w : Width) : Nat → Returns → Nat → Out Returns Unit
  | 0, _, _ => .spin
  | fuel + 1, r, itemAddr =>
    if itemAddr = 0 then .ret () r
    else
      let entryVir := w.ptr (r.slot itemAddr) % 2 ^ 32
      if 19 < r.index entryVir then .bug
      else drain w fuel (enlist r entryVir) ((fifoItemRdNext r.fifo).1 % 2 ^ 32)

def returnPipeLine (w : Width) (fuel : Nat) (r : Returns) : Out Returns Unit :=
  drain w fuel r (fifoGetItemRd r.fifo % 2 ^ 32)

def getReturnbySessionId (w : Width) (fuel : Nat) (r : Returns) (sessionId : Nat) : Out Returns Reply :=
  (returnPipeLine w fuel r).bind fun _ r =>
    match search w r.list sessionId fuel (r.list.next r.list.sentinel) with
    | none => .spin
    | some none => .ret (0, 0) r
    | some (some cur) =>
      let r := { r with list := unlink w r.list cur }
      if toI32 r.list.count < 0 then .bug else .ret (0, cur - 84) r

inductive Op where
  | addWait (entry sessionId : Nat)
  | findWait (sessionId : Nat)
  | getWait (sessionId : Nat)
  | addReturn (entry sessionId index : Nat)
  | pipeLine
  | getReturn (sessionId : Nat)
  deriving DecidableEq, Repr

structure World where
  wait : MsgList
  returns : Returns

def MsgList.setSession (l : MsgList) (node sessionId : Nat) : MsgList :=
  { l with session := update l.session node sessionId }

def Returns.receive (r : Returns) (entry sessionId index : Nat) : Returns :=
  { r with list := r.list.setSession (entry + 84) sessionId, index := update r.index entry index }

def step (w : Width) (fuel : Nat) (s : World) : Op → Out World Reply
  | .addWait entry sessionId =>
    let r := addtoWaitComm (s.wait.setSession (entry + 24) sessionId) entry
    .ret (r.1, 0) { s with wait := r.2 }
  | .findWait sessionId => (findWaitBySessionId w fuel s.wait sessionId).bind fun r l => .ret r { s with wait := l }
  | .getWait sessionId => (getWaitbySessionId w fuel s.wait sessionId).bind fun r l => .ret r { s with wait := l }
  | .addReturn entry sessionId index =>
    (addReturn2Fifo w (s.returns.receive entry sessionId index) entry).bind fun r t => .ret r { s with returns := t }
  | .pipeLine => (returnPipeLine w fuel s.returns).bind fun _ t => .ret (0, 0) { s with returns := t }
  | .getReturn sessionId =>
    (getReturnbySessionId w fuel s.returns sessionId).bind fun r t => .ret r { s with returns := t }

abbrev Queue := List (Nat × Nat)

structure Queues where
  wait : Queue
  returned : Queue
  staged : Queue

def Queue.first (q : Queue) (sessionId : Nat) : Option (Nat × Nat) := q.find? fun p => p.2 = sessionId

def Queue.without (q : Queue) (sessionId : Nat) : Queue := q.eraseP fun p => p.2 = sessionId

def found (absent : Int) : Option (Nat × Nat) → Reply
  | some p => (0, p.1)
  | none => (absent, 0)

def Queues.drained (q : Queues) : Queues := ⟨q.wait, q.returned ++ q.staged, []⟩

def queueStep (q : Queues) : Op → Reply × Queues
  | .addWait entry sessionId => ((0, 0), { q with wait := q.wait ++ [(entry, sessionId)] })
  | .findWait sessionId => (found 1 (q.wait.first sessionId), q)
  | .getWait sessionId => (found 1 (q.wait.first sessionId), { q with wait := q.wait.without sessionId })
  | .addReturn entry sessionId _ => ((1, 0), { q with staged := q.staged ++ [(entry, sessionId)] })
  | .pipeLine => ((0, 0), q.drained)
  | .getReturn sessionId =>
    (found 0 (q.drained.returned.first sessionId),
      { q.drained with returned := q.drained.returned.without sessionId })

theorem ptr_arm {p : Nat} (h : p < 2 ^ 32) : Width.arm.ptr p = p := by
  simp only [Width.ptr, Width.long, ptr64]
  split <;> omega

def nodes (off : Nat) (q : Queue) : List Nat := q.map fun p => p.1 + off

structure EntryAt (head off e : Nat) : Prop where
  pos : e ≠ 0
  aligned : 4 ∣ e + off
  word : e + off < 2 ^ 32
  apart : e + off ≠ head

/-- The memory holds the queue: a ring in its order, with the right count. -/
structure Holds (off : Nat) (l : MsgList) (q : Queue) : Prop where
  ring : Ring l.next l.prev l.sentinel (nodes off q)
  word : ∀ a ∈ l.sentinel :: nodes off q, a < 2 ^ 32
  aligned : ∀ a ∈ nodes off q, 4 ∣ a
  count : l.count = q.length
  session : ∀ p ∈ q, l.session (p.1 + off) = p.2

section

variable {off sessionId : Nat} {l : MsgList} {q : Queue}

theorem nodes_append (off : Nat) (q q' : Queue) : nodes off (q ++ q') = nodes off q ++ nodes off q' :=
  List.map_append

theorem length_nodes (off : Nat) (q : Queue) : (nodes off q).length = q.length := List.length_map ..

variable {e fuel : Nat}

theorem mem_nodes : e + off ∈ nodes off q ↔ e ∈ q.map Prod.fst := by
  simp only [nodes, List.mem_map, Nat.add_right_cancel_iff]

theorem Holds.length_lt (h : Holds off l q) : q.length < 2 ^ 31 := by
  have hnd : ((nodes off q).map (· / 4)).Nodup := by
    refine List.Nodup.map_on (fun a ha b hb hab => ?_) (List.nodup_cons.mp h.ring.nodup).2
    have h1 := h.aligned a ha
    have h2 := h.aligned b hb
    omega
  have hsub : ((nodes off q).map (· / 4)).toFinset ⊆ Finset.range (2 ^ 30) := by
    intro a ha
    obtain ⟨b, hb, rfl⟩ := List.mem_map.mp (List.mem_toFinset.mp ha)
    have := h.word b (List.mem_cons_of_mem _ hb)
    rw [Finset.mem_range]
    omega
  have hcard := Finset.card_le_card hsub
  rw [List.toFinset_card_of_nodup hnd, List.length_map, length_nodes, Finset.card_range] at hcard
  omega

section

variable {a : Nat} (h : Holds off l q) (ha : a ∈ l.sentinel :: nodes off q)

include h ha

theorem Holds.next_lt : l.next a < 2 ^ 32 :=
  h.word _ (h.ring.next_mem ha)

theorem Holds.prev_lt : l.prev a < 2 ^ 32 :=
  h.word _ (h.ring.prev_mem ha)

end

theorem Holds.sentinel_mod (h : Holds off l q) : l.sentinel % 2 ^ 32 = l.sentinel :=
  Nat.mod_eq_of_lt (h.word _ List.mem_cons_self)

theorem holds_init (l : MsgList) (h : l.sentinel < 2 ^ 32) : Holds off (initMsgFIFO l) [] where
  ring := by
    refine .empty ?_ ?_ <;>
    · simp only [initMsgFIFO, update_self]
      exact Nat.mod_eq_of_lt h
  word := by simpa [nodes, initMsgFIFO] using h
  aligned := by simp [nodes]
  count := rfl
  session := by simp

theorem Holds.add (h : Holds off l q) {sessionId : Nat} (he : EntryAt l.sentinel off e) (hnew : e ∉ q.map Prod.fst)
    (hsession : l.session (e + off) = sessionId) :
    Holds off (countUp (insertTail l ((e + off) % 2 ^ 32))) (q ++ [(e, sessionId)]) := by
  have hnew : e + off ∉ l.sentinel :: nodes off q := by
    rw [List.mem_cons, not_or, mem_nodes]
    exact ⟨he.apart, hnew⟩
  have hlen := h.length_lt
  rw [Nat.mod_eq_of_lt he.word]
  constructor
  · have hring := h.ring.append hnew
    simp only [countUp, insertTail, nodes_append, h.sentinel_mod]
    exact hring
  · intro a ha'
    rw [nodes_append, ← List.cons_append] at ha'
    rcases List.mem_append.mp ha' with ha' | ha'
    · exact h.word a ha'
    · rw [List.mem_singleton.mp ha']
      exact he.word
  · intro a ha'
    rw [nodes_append] at ha'
    rcases List.mem_append.mp ha' with ha' | ha'
    · exact h.aligned a ha'
    · rw [List.mem_singleton.mp ha']
      exact he.aligned
  · simp only [countUp, insertTail, h.count, List.length_append, List.length_singleton]
    omega
  · intro p hp
    rcases List.mem_append.mp hp with hp | hp
    · exact h.session p hp
    · rw [List.mem_singleton.mp hp]
      exact hsession

theorem search_chain {s : Nat} (hs : l.sentinel = s) : ∀ (L : List Nat) {a : Nat} {fuel : Nat},
    (a :: (L ++ [s])).IsChain (Linked l.next l.prev) → (∀ b ∈ s :: L, b < 2 ^ 32) → s ∉ L → L.length < fuel →
      search .arm l sessionId fuel (l.next a) = some (L.find? fun b => l.session b = sessionId) := by
  intro L
  induction L with
  | nil =>
    intro a fuel hl hw _ hf
    obtain ⟨fuel, rfl⟩ : ∃ f, fuel = f + 1 := ⟨fuel - 1, by simp only [List.length_nil] at hf; omega⟩
    have hmod : s % 2 ^ 32 = s := Nat.mod_eq_of_lt (hw s List.mem_cons_self)
    rw [List.nil_append, List.isChain_cons_cons] at hl
    rw [hl.1.1, search, if_pos (by rw [hs, hmod])]
    rfl
  | cons b L ih =>
    intro a fuel hl hw hnot hf
    obtain ⟨fuel, rfl⟩ : ∃ f, fuel = f + 1 := ⟨fuel - 1, by simp only [List.length_cons] at hf; omega⟩
    rw [List.length_cons] at hf
    rw [List.mem_cons, not_or] at hnot
    rw [List.cons_append, List.isChain_cons_cons] at hl
    have hmod : s % 2 ^ 32 = s := Nat.mod_eq_of_lt (hw s List.mem_cons_self)
    have hb : b ≠ l.sentinel % 2 ^ 32 := by
      rw [hs, hmod]
      exact fun h => hnot.1 h.symm
    have hnext : l.next b < 2 ^ 32 := by
      cases L with
      | nil =>
        have hlink := hl.2
        rw [List.nil_append, List.isChain_cons_cons] at hlink
        rw [hlink.1.1]
        exact hw s List.mem_cons_self
      | cons c L =>
        have hlink := hl.2
        rw [List.cons_append, List.isChain_cons_cons] at hlink
        rw [hlink.1.1]
        exact hw c (by simp)
    rw [hl.1.1, search, if_neg hb]
    by_cases hid : l.session b = sessionId
    · rw [if_pos hid, List.find?_cons_of_pos (by simpa using hid)]
    · rw [if_neg hid, List.find?_cons_of_neg (by simpa using hid), ptr_arm hnext]
      refine ih hl.2 (fun c hc => hw c ?_) hnot.2 (by omega)
      rcases List.mem_cons.mp hc with rfl | hc
      · exact List.mem_cons_self
      · exact List.mem_cons_of_mem _ (List.mem_cons_of_mem _ hc)

theorem Holds.search_eq (h : Holds off l q) (hf : q.length < fuel) :
    search .arm l sessionId fuel (l.next l.sentinel) = some ((q.first sessionId).map fun p => p.1 + off) := by
  rw [search_chain rfl (nodes off q) h.ring.links h.word (List.nodup_cons.mp h.ring.nodup).1
    (by rwa [length_nodes]), nodes, List.find?_map, Queue.first, ← List.head?_filter, ← List.head?_filter,
    List.filter_congr fun p hp => ?_]
  simp only [Function.comp_apply, h.session p hp]

theorem Queue.split {p : Nat × Nat} (h : q.first sessionId = some p) :
    ∃ A B, q = A ++ p :: B ∧ q.without sessionId = A ++ B := by
  obtain ⟨hp, A, B, rfl, hA⟩ := List.find?_eq_some_iff_append.mp h
  refine ⟨A, B, rfl, ?_⟩
  rw [Queue.without, List.eraseP_append_right _ fun b hb => by simpa using hA b hb,
    List.eraseP_cons_of_pos (by simpa using hp)]

theorem Queue.without_of_none (h : q.first sessionId = none) : q.without sessionId = q :=
  List.eraseP_of_forall_not fun p hp => by simpa using List.find?_eq_none.mp h p hp

theorem Holds.unlink (h : Holds off l q) {p : Nat × Nat} (hp : q.first sessionId = some p) :
    Holds off (unlink .arm l (p.1 + off)) (q.without sessionId) := by
  obtain ⟨A, B, rfl, hwithout⟩ := Queue.split hp
  have hmem : p.1 + off ∈ l.sentinel :: nodes off (A ++ p :: B) := by
    simp [nodes]
  have hring := h.ring
  have hsub : ∀ a, a ∈ l.sentinel :: nodes off (A ++ B) → a ∈ l.sentinel :: nodes off (A ++ p :: B) := by
    intro a ha
    simp only [nodes, List.map_append, List.map_cons, List.mem_cons, List.mem_append] at ha ⊢
    rcases ha with ha | ha | ha
    · exact .inl ha
    · exact .inr (.inl ha)
    · exact .inr (.inr (.inr ha))
  have hlen := h.length_lt
  simp only [nodes, List.map_append, List.map_cons] at hring
  rw [hwithout]
  constructor
  · simp only [Lists.unlink, ptr_arm (h.next_lt hmem), ptr_arm (h.prev_lt hmem),
      Nat.mod_eq_of_lt (h.next_lt hmem), Nat.mod_eq_of_lt (h.prev_lt hmem), nodes, List.map_append]
    exact hring.remove_mid
  · exact fun a ha => h.word a (hsub a ha)
  · intro a ha
    refine h.aligned a ?_
    simp only [nodes, List.map_append, List.map_cons, List.mem_append, List.mem_cons] at ha ⊢
    exact ha.imp id .inr
  · simp only [Lists.unlink, h.count, List.length_append, List.length_cons] at hlen ⊢
    omega
  · intro r hr
    refine h.session r ?_
    rw [List.mem_append] at hr ⊢
    exact hr.imp id (List.mem_cons_of_mem _)

theorem Holds.setSession (h : Holds off l q) (he : e ∉ q.map Prod.fst) (v : Nat) :
    Holds off (l.setSession (e + off) v) q where
  ring := h.ring
  word := h.word
  aligned := h.aligned
  count := h.count
  session := by
    intro p hp
    have hne : p.1 + off ≠ e + off := by
      intro heq
      refine he (List.mem_map.mpr ⟨p, hp, ?_⟩)
      omega
    simp only [MsgList.setSession, update_of_ne hne]
    exact h.session p hp

theorem Holds.first_eq (h : Holds off l q) : Width.arm.ptr (l.next l.sentinel) = l.next l.sentinel :=
  ptr_arm (h.next_lt List.mem_cons_self)

theorem Holds.addtoWaitComm (h : Holds 24 l q) (sessionId : Nat) (he : EntryAt l.sentinel 24 e)
    (hnew : e ∉ q.map Prod.fst) :
    ∃ l', addtoWaitComm (l.setSession (e + 24) sessionId) e = (0, l') ∧ l'.sentinel = l.sentinel ∧
      Holds 24 l' (q ++ [(e, sessionId)]) := by
  refine ⟨_, if_neg he.pos, rfl, ?_⟩
  exact (h.setSession hnew sessionId).add he hnew (update_self ..)

theorem Holds.findWaitBySessionId (h : Holds 24 l q) (hf : q.length < fuel) :
    findWaitBySessionId .arm fuel l sessionId = .ret (found 1 (q.first sessionId)) l := by
  rw [Lists.findWaitBySessionId, h.first_eq, h.search_eq hf]
  cases q.first sessionId with
  | none => rfl
  | some p => simp only [Option.map_some, found, Nat.add_sub_cancel]

theorem Holds.getWaitbySessionId (h : Holds 24 l q) (sessionId : Nat) (hf : q.length < fuel) :
    ∃ l', getWaitbySessionId .arm fuel l sessionId = .ret (found 1 (q.first sessionId)) l' ∧
      l'.sentinel = l.sentinel ∧ Holds 24 l' (q.without sessionId) := by
  rw [Lists.getWaitbySessionId, h.first_eq, h.search_eq hf]
  cases hq : q.first sessionId with
  | none => exact ⟨l, rfl, rfl, by rwa [Queue.without_of_none hq]⟩
  | some p =>
    refine ⟨Lists.unlink .arm l (p.1 + 24), ?_, rfl, h.unlink hq⟩
    simp only [Option.map_some, found, Nat.add_sub_cancel]

end

structure RingFits (cap base : Nat) : Prop where
  fits : Fits 4 cap base
  end_le : base + 4 * cap ≤ 2 ^ 32

section

variable {cap base : Nat}

theorem slot_mod (h : RingFits cap base) {i : Nat} (hi : i < cap) : slot 4 base i % 2 ^ 32 = base + 4 * i := by
  have := h.end_le
  simp only [slot]
  omega

theorem slot_mod_ne_zero (h : RingFits cap base) {i : Nat} (hi : i < cap) : slot 4 base i % 2 ^ 32 ≠ 0 := by
  have := h.fits.base_pos
  rw [slot_mod h hi]
  omega

theorem slotsApart (h : RingFits cap base) : SlotsApart cap base (· % 2 ^ 32) := by
  intro i hi j hj hij
  have hij : slot 4 base i % 2 ^ 32 = slot 4 base j % 2 ^ 32 := hij
  rw [slot_mod h hi, slot_mod h hj] at hij
  omega

theorem fifoItemRdNext_fst {f : Fifo} (h : f.rd ≠ f.wr) :
    (fifoItemRdNext f).1 = fifoGetItemRd (fifoItemRdNext f).2 := by
  simp only [fifoItemRdNext, if_neg h]
  split <;> simp only [fifoGetItemRd, itemAddr, eq_comm]

structure Staged (r : Returns) (p : Nat × Nat) : Prop where
  entry : EntryAt r.list.sentinel 84 p.1
  index : r.index p.1 ≤ 19
  session : r.list.session (p.1 + 84) = p.2

structure HoldsReturns (cap base : Nat) (r : Returns) (returned staged : Queue) : Prop where
  list : Holds 84 r.list returned
  ring : HoldsQueue cap base (· % 2 ^ 32) r.fifo r.slot (staged.map Prod.fst)
  nodup : ((returned ++ staged).map Prod.fst).Nodup
  staged : ∀ p ∈ staged, Staged r p

variable {r : Returns} {returned staged : Queue}

section

variable (hf : RingFits cap base)

include hf

theorem HoldsReturns.enlist {p : Nat × Nat} (h : HoldsReturns cap base r returned (p :: staged)) :
    HoldsReturns cap base (enlist r p.1) (returned ++ [p]) staged := by
  have hp := h.staged p List.mem_cons_self
  have hnew : p.1 ∉ returned.map Prod.fst := by
    have hnd := h.nodup
    rw [List.map_append, List.map_cons] at hnd
    exact fun hin => (List.nodup_append.mp hnd).2.2 _ hin _ List.mem_cons_self rfl
  constructor
  · exact h.list.add hp.entry hnew hp.session
  · exact h.ring.itemRdNext hf.fits
  · rw [List.append_assoc]
    exact h.nodup
  · intro p' hp'
    obtain ⟨he, hi, hs⟩ := h.staged p' (List.mem_cons_of_mem _ hp')
    exact ⟨he, hi, hs⟩

theorem HoldsReturns.drain : ∀ {staged returned : Queue} {r : Returns} {fuel : Nat},
    HoldsReturns cap base r returned staged → staged.length < fuel →
      ∃ r', drain .arm fuel r (fifoGetItemRd r.fifo % 2 ^ 32) = .ret () r' ∧
        r'.list.sentinel = r.list.sentinel ∧ HoldsReturns cap base r' (returned ++ staged) [] := by
  intro staged
  induction staged with
  | nil =>
    intro returned r fuel h hlt
    obtain ⟨fuel, rfl⟩ : ∃ n, fuel = n + 1 := ⟨fuel - 1, by simp only [List.length_nil] at hlt; omega⟩
    refine ⟨r, ?_, rfl, by rwa [List.append_nil]⟩
    rw [h.ring.getItemRd_nil hf.fits]
    rfl
  | cons p staged ih =>
    intro returned r fuel h hlt
    obtain ⟨fuel, rfl⟩ : ∃ n, fuel = n + 1 := ⟨fuel - 1, by simp only [List.length_cons] at hlt; omega⟩
    obtain ⟨hitem, hword⟩ := h.ring.getItemRd_cons hf.fits
    have hp := h.staged p List.mem_cons_self
    have hlt32 : p.1 < 2 ^ 32 := by
      have := hp.entry.word
      omega
    have hentry : Width.arm.ptr (r.slot (fifoGetItemRd r.fifo % 2 ^ 32)) % 2 ^ 32 = p.1 := by
      rw [hitem, hword, ptr_arm hlt32, Nat.mod_eq_of_lt hlt32]
    have hsome : r.fifo.rd ≠ r.fifo.wr := by
      intro he
      have hzero : fifoGetItemRd r.fifo = 0 := if_pos he
      exact slot_pos 4 base r.fifo.rd (hitem.symm.trans hzero)
    have hfuel : staged.length < fuel := by
      rw [List.length_cons] at hlt
      omega
    obtain ⟨r', hrun, hsent, hr'⟩ := ih (h.enlist hf) hfuel
    refine ⟨r', ?_, hsent, by rwa [List.append_assoc] at hr'⟩
    rw [Lists.drain, hentry, hitem, if_neg (slot_mod_ne_zero hf h.ring.shape.rd_lt),
      if_neg (Nat.not_lt.mpr hp.index), fifoItemRdNext_fst hsome]
    exact hrun

theorem HoldsReturns.add (h : HoldsReturns cap base r returned staged) {e sessionId index : Nat}
    (he : EntryAt r.list.sentinel 84 e) (hnew : e ∉ (returned ++ staged).map Prod.fst)
    (hidx : index ≤ 19) (hroom : staged.length < cap - 1) :
    ∃ r', addReturn2Fifo .arm (r.receive e sessionId index) e = .ret (1, 0) r' ∧
      r'.list.sentinel = r.list.sentinel ∧ HoldsReturns cap base r' returned (staged ++ [(e, sessionId)]) := by
  have hmem : e ∉ returned.map Prod.fst ∧ e ∉ staged.map Prod.fst := by
    rwa [List.map_append, List.mem_append, not_or] at hnew
  have hq : (staged.map Prod.fst).length < cap - 1 := by rwa [List.length_map]
  have hslot := h.ring.getItemWr_room hf.fits hq
  obtain ⟨i, hi, hnext⟩ := h.ring.requestItemWr_room hf.fits hq
  have hring := h.ring.requestItemWr (x := e) hf.fits (slotsApart hf) hq
  have he32 : e % 2 ^ 32 = e := by
    have := he.word
    omega
  have hret : addReturn2Fifo .arm (r.receive e sessionId index) e = .ret (1, 0)
      { r.receive e sessionId index with
        slot := update r.slot (slot 4 base r.fifo.wr % 2 ^ 32) e
        flags := update r.flags e (r.flags e ||| 0x10)
        fifo := (fifoRequestItemWr r.fifo).2 } := by
    rw [addReturn2Fifo, if_neg he.pos]
    simp only [Returns.receive, Width.long, hslot, hnext, he32]
    rw [if_neg (slot_mod_ne_zero hf h.ring.shape.wr_lt), if_neg (slot_mod_ne_zero hf hi)]
  refine ⟨_, hret, rfl, ?_⟩
  constructor
  · exact h.list.setSession hmem.1 sessionId
  · rw [List.map_append]
    exact hring
  · rw [← List.append_assoc, List.map_append]
    refine List.nodup_append.mpr ⟨h.nodup, List.nodup_singleton _, ?_⟩
    rintro a ha b hb rfl
    rw [List.mem_singleton.mp hb] at ha
    exact hnew ha
  · intro p hp
    rcases List.mem_append.mp hp with hp | hp
    · have hne : p.1 ≠ e := fun heq => hmem.2 (List.mem_map.mpr ⟨p, hp, heq⟩)
      have hne' : p.1 + 84 ≠ e + 84 := by omega
      obtain ⟨hp, hi, hs⟩ := h.staged p hp
      refine ⟨hp, ?_, ?_⟩
      · simpa only [Returns.receive, update_of_ne hne] using hi
      · simpa only [Returns.receive, MsgList.setSession, update_of_ne hne'] using hs
    · rw [List.mem_singleton.mp hp]
      refine ⟨he, ?_, ?_⟩
      · simpa only [Returns.receive, update_self] using hidx
      · simp only [Returns.receive, MsgList.setSession, update_self]

theorem HoldsReturns.getReturnbySessionId (h : HoldsReturns cap base r returned staged) (sessionId : Nat)
    {fuel : Nat} (hfuel : returned.length + staged.length < fuel) :
    ∃ r', getReturnbySessionId .arm fuel r sessionId = .ret (found 0 ((returned ++ staged).first sessionId)) r' ∧
      r'.list.sentinel = r.list.sentinel ∧
      HoldsReturns cap base r' (Queue.without (returned ++ staged) sessionId) [] := by
  obtain ⟨r₁, hr₁, hsent, h₁⟩ := h.drain hf (show staged.length < fuel by omega)
  have hlen : (returned ++ staged).length < fuel := by rwa [List.length_append]
  rw [Lists.getReturnbySessionId, returnPipeLine, Out.bind_of_ret hr₁, h₁.list.search_eq hlen]
  cases hq : Queue.first (returned ++ staged) sessionId with
  | none => exact ⟨r₁, rfl, hsent, by rwa [Queue.without_of_none hq]⟩
  | some p =>
    have hun := h₁.list.unlink hq
    have hcount : ¬ toI32 (unlink .arm r₁.list (p.1 + 84)).count < 0 := by
      have hlt := hun.length_lt
      rw [hun.count, toI32, if_pos hlt]
      omega
    refine ⟨{ r₁ with list := unlink .arm r₁.list (p.1 + 84) }, ?_, hsent, ?_⟩
    · simp only [Option.map_some, if_neg hcount, found, Nat.add_sub_cancel]
    · refine ⟨hun, h₁.ring, ?_, fun p hp => absurd hp List.not_mem_nil⟩
      rw [List.append_nil]
      have hnd := h₁.nodup
      rw [List.append_nil] at hnd
      exact hnd.sublist ((List.eraseP_sublist).map Prod.fst)

end

end

structure Site where
  waitHead : Nat
  returnHead : Nat
  cap : Nat
  base : Nat

/-- What the callers keep to. That a message is not staged while it is staged or listed is not in the contract
of `AddReturn2Fifo`. -/
def OpOk (t : Site) (q : Queues) : Op → Prop
  | .addWait e _ => EntryAt t.waitHead 24 e ∧ e ∉ q.wait.map Prod.fst
  | .addReturn e _ index => EntryAt t.returnHead 84 e ∧ index ≤ 19 ∧ q.staged.length < t.cap - 1 ∧
      e ∉ (q.returned ++ q.staged).map Prod.fst
  | _ => True

/-- The lists of the socket hold the queues. -/
structure Rel (t : Site) (s : World) (q : Queues) : Prop where
  waitHead : s.wait.sentinel = t.waitHead
  returnHead : s.returns.list.sentinel = t.returnHead
  wait : Holds 24 s.wait q.wait
  returns : HoldsReturns t.cap t.base s.returns q.returned q.staged

def Queues.size (q : Queues) : Nat := q.wait.length + q.returned.length + q.staged.length

section

variable {t : Site} {s : World} {q : Queues} {fuel : Nat}

theorem Rel.step (hf : RingFits t.cap t.base) (h : Rel t s q) {op : Op} (hok : OpOk t q op)
    (hfuel : q.size < fuel) :
    ∃ s', step .arm fuel s op = .ret (queueStep q op).1 s' ∧ Rel t s' (queueStep q op).2 := by
  obtain ⟨hwh, hrh, hwait, hret⟩ := h
  have hsize : q.wait.length < fuel ∧ q.returned.length + q.staged.length < fuel := by
    simp only [Queues.size] at hfuel
    omega
  cases op with
  | addWait e sessionId =>
    obtain ⟨he, hnew⟩ := hok
    obtain ⟨l', hl', hsent, hholds⟩ := hwait.addtoWaitComm sessionId (hwh ▸ he) hnew
    refine ⟨{ s with wait := l' }, ?_, ⟨hsent.trans hwh, hrh, hholds, hret⟩⟩
    simp only [Lists.step, hl', queueStep]
  | findWait sessionId =>
    exact ⟨s, Out.bind_of_ret (hwait.findWaitBySessionId hsize.1) _, ⟨hwh, hrh, hwait, hret⟩⟩
  | getWait sessionId =>
    obtain ⟨l', hl', hsent, hholds⟩ := hwait.getWaitbySessionId sessionId hsize.1
    exact ⟨_, Out.bind_of_ret hl' _, ⟨hsent.trans hwh, hrh, hholds, hret⟩⟩
  | addReturn e sessionId index =>
    obtain ⟨he, hidx, hroom, hnew⟩ := hok
    obtain ⟨r', hr', hsent, hholds⟩ := hret.add hf (hrh ▸ he) hnew hidx hroom
    exact ⟨_, Out.bind_of_ret hr' _, ⟨hwh, hsent.trans hrh, hwait, hholds⟩⟩
  | pipeLine =>
    obtain ⟨r', hr', hsent, hholds⟩ := hret.drain hf (show q.staged.length < fuel by omega)
    exact ⟨_, Out.bind_of_ret hr' _, ⟨hwh, hsent.trans hrh, hwait, hholds⟩⟩
  | getReturn sessionId =>
    obtain ⟨r', hr', hsent, hholds⟩ := hret.getReturnbySessionId hf sessionId hsize.2
    exact ⟨_, Out.bind_of_ret hr' _, ⟨hwh, hsent.trans hrh, hwait, hholds⟩⟩

theorem queueStep_size (q : Queues) (op : Op) : (queueStep q op).2.size ≤ q.size + 1 := by
  have hle : ∀ (q : Queue) v, (q.without v).length ≤ q.length := fun q v => List.length_eraseP_le
  cases op with
  | addWait e v | addReturn e v i =>
    simp only [queueStep, Queues.size, List.length_append, List.length_singleton]
    omega
  | findWait v => exact Nat.le_succ _
  | getWait v =>
    have := hle q.wait v
    simp only [queueStep, Queues.size]
    omega
  | pipeLine =>
    simp only [queueStep, Queues.drained, Queues.size, List.length_append, List.length_nil]
    omega
  | getReturn v =>
    have := hle q.drained.returned v
    simp only [Queues.drained, List.length_append] at this
    simp only [queueStep, Queues.drained, Queues.size, List.length_nil]
    omega

theorem Rel.run (hf : RingFits t.cap t.base) : ∀ (ops : List Op) {s : World} {q : Queues}, Rel t s q →
    Allowed (OpOk t) queueStep q ops → q.size + ops.length < fuel + 1 →
      ∃ s', answers (Lists.step .arm fuel) s ops = some (replies queueStep q ops, s') ∧
        Rel t s' (ops.foldl (fun q op => (queueStep q op).2) q) := by
  intro ops
  induction ops with
  | nil =>
    intro s q h _ _
    exact ⟨s, rfl, h⟩
  | cons op ops ih =>
    intro s q h hok hfuel
    rw [List.length_cons] at hfuel
    obtain ⟨s₁, hs₁, h₁⟩ := h.step hf hok.1 (show q.size < fuel by omega)
    have hgrow := queueStep_size q op
    obtain ⟨s', hs', h'⟩ := ih h₁ hok.2 (by omega)
    exact ⟨s', answers_cons hs₁ hs', h'⟩

end

def noEntries : Queues := ⟨[], [], []⟩

/-- `InitMsgFIFO` has made both lists, and the staging ring is empty. -/
structure Start (t : Site) (s : World) : Prop where
  wait : ∃ l : MsgList, l.sentinel = t.waitHead ∧ s.wait = initMsgFIFO l
  returns : ∃ l : MsgList, l.sentinel = t.returnHead ∧ s.returns.list = initMsgFIFO l
  ring : Shape 4 t.cap t.base s.returns.fifo
  empty : s.returns.fifo.rd = s.returns.fifo.wr
  words : t.waitHead < 2 ^ 32 ∧ t.returnHead < 2 ^ 32

theorem Start.rel {t : Site} {s : World} (h : Start t s) : Rel t s noEntries := by
  obtain ⟨l, hl, hwait⟩ := h.wait
  obtain ⟨l', hl', hret⟩ := h.returns
  refine ⟨by rw [hwait]; exact hl, by rw [hret]; exact hl', ?_, ?_, ?_, ?_, ?_⟩
  · rw [hwait]
    exact holds_init l (hl ▸ h.words.1)
  · rw [hret]
    exact holds_init l' (hl' ▸ h.words.2)
  · exact HoldsQueue.nil h.ring h.empty
  · exact List.nodup_nil
  · exact fun p hp => absurd hp List.not_mem_nil

/-- On a 32-bit kernel every history in which no message is staged while it is staged or listed goes through:
every call returns and answers as the queues do, and the memory holds the queues at the end. -/
theorem lists_refine {t : Site} (hf : RingFits t.cap t.base) {s : World} (h₀ : Start t s) {ops : List Op}
    (hok : Allowed (OpOk t) queueStep noEntries ops) {fuel : Nat} (hfuel : ops.length ≤ fuel) :
    ∃ s', answers (step .arm fuel) s ops = some (replies queueStep noEntries ops, s') ∧
      Rel t s' (ops.foldl (fun q op => (queueStep q op).2) noEntries) := by
  have hsize : noEntries.size + ops.length < fuel + 1 := by
    simp only [Queues.size, noEntries, List.length_nil]
    omega
  exact h₀.rel.run hf ops hok hsize

def emptyList (sentinel : Nat) : MsgList := initMsgFIFO ⟨sentinel, fun _ => 0, fun _ => 0, fun _ => 0, 0, 0⟩

def site : Site := ⟨0x100, 0x200, 21, 0x300⟩

def world : World where
  wait := emptyList 0x100
  returns := ⟨emptyList 0x200, fun _ => 0, fun _ => 0, ⟨0, 0, 0, 0, 21, 4, 0x300⟩, fun _ => 0⟩

theorem world_start : Start site world where
  wait := ⟨_, rfl, rfl⟩
  returns := ⟨_, rfl, rfl⟩
  ring := ⟨rfl, rfl, rfl, by decide, by decide⟩
  empty := rfl
  words := by decide

theorem site_fits : RingFits site.cap site.base :=
  ⟨⟨by decide, by decide, by decide, by decide, by decide⟩, by decide⟩

def twoOfEach : List Op :=
  [.addWait 0x1000 5, .addWait 0x1020 6, .getWait 6, .addReturn 0x2000 5 0, .addReturn 0x2068 6 1, .getReturn 6]

theorem lists_refine_two : ∃ s', answers (step .arm 6) world twoOfEach =
        some ([(0, 0), (0, 0), (0, 0x1020), (1, 0), (1, 0), (0, 0x2068)], s') ∧
      Rel site s' ⟨[(0x1000, 5)], [(0x2000, 5)], []⟩ := by
  have hok : Allowed (OpOk site) queueStep noEntries twoOfEach := by
    refine ⟨⟨⟨?_, ?_, ?_, ?_⟩, ?_⟩, ⟨⟨?_, ?_, ?_, ?_⟩, ?_⟩, trivial, ⟨⟨?_, ?_, ?_, ?_⟩, ?_, ?_, ?_⟩,
      ⟨⟨?_, ?_, ?_, ?_⟩, ?_, ?_, ?_⟩, trivial, trivial⟩ <;> decide
  exact lists_refine site_fits world_start hok (by decide)

theorem search_loop {w : Width} {l : MsgList} {a sessionId : Nat} (hs : a ≠ l.sentinel % 2 ^ 32)
    (hv : l.session a ≠ sessionId) (hnext : w.ptr (l.next a) = a) (fuel : Nat) :
    search w l sessionId fuel a = none := by
  induction fuel with
  | zero => rfl
  | succ fuel ih =>
    rw [search, if_neg hs, if_neg hv, hnext]
    exact ih

theorem search_runs_on {l : MsgList} (hs : l.sentinel % 2 ^ 32 ≠ 0) (sessionId : Nat) :
    ∀ fuel p, search .arm64 l sessionId fuel (Width.arm64.ptr p) ≠ some none := by
  intro fuel
  induction fuel with
  | zero => intro p h; cases h
  | succ fuel ih =>
    intro p
    have hne : Width.arm64.ptr p ≠ l.sentinel % 2 ^ 32 := by
      simp only [Width.ptr, Width.long, ptr64]
      split <;> omega
    rw [search, if_neg hne]
    split
    · intro h; cases h
    · exact ih _

def kernelHead : Nat := 0xffff800010000038

def stagedTwice : List Op := [.addReturn 0x2000 5 0, .addReturn 0x2000 5 0, .pipeLine]

def SelfLinked (x : List Reply × World) : Prop :=
  x.1 = [(1, 0), (1, 0), (0, 0)] ∧ x.2.returns.list.sentinel = 0x200 ∧ x.2.returns.list.next 0x200 = 0x2054 ∧
    x.2.returns.list.next 0x2054 = 0x2054 ∧ x.2.returns.fifo.rd = x.2.returns.fifo.wr ∧
    x.2.returns.list.session 0x2054 = 5
deriving Decidable

theorem search_ends_nowhere : (∀ l sessionId fuel, l.sentinel % 2 ^ 32 ≠ 0 →
      findWaitBySessionId .arm64 fuel l sessionId ≠ .ret (1, 0) l) ∧
    (∀ fuel, findWaitBySessionId .arm64 fuel (emptyList kernelHead) 7 = .spin) ∧
    ∃ s, answers (step .arm 3) world stagedTwice = some ([(1, 0), (1, 0), (0, 0)], s) ∧
      (∀ q, ¬ Holds 84 s.returns.list q) ∧ ∀ fuel, step .arm (fuel + 1) s (.getReturn 6) = .spin := by
  refine ⟨fun l v fuel hs h => ?_, fun fuel => ?_, ?_⟩
  · simp only [findWaitBySessionId] at h
    split at h
    · cases h
    · rename_i hnone
      exact search_runs_on hs v fuel _ hnone
    · obtain ⟨hpair, -⟩ := Out.ret.inj h
      cases hpair
  · have hfirst : Width.arm64.ptr ((emptyList kernelHead).next kernelHead) = kernelHead := by decide
    have hloop : search .arm64 (emptyList kernelHead) 7 fuel kernelHead = none :=
      search_loop (by decide) (by decide) hfirst fuel
    rw [findWaitBySessionId, show (emptyList kernelHead).sentinel = kernelHead from rfl, hfirst, hloop]
  · have hrun : (answers (step .arm 3) world stagedTwice).any (fun x => decide (SelfLinked x)) = true := by
      decide
    cases hx : answers (step .arm 3) world stagedTwice with
    | none => rw [hx] at hrun; cases hrun
    | some x =>
      rw [hx] at hrun
      obtain ⟨hreply, hhead, hfirst, hself, hempty, hsession⟩ := of_decide_eq_true hrun
      refine ⟨x.2, by rw [← hreply], fun q hq => ?_, fun fuel => ?_⟩
      · have hmem := hq.ring.next_mem (a := x.2.returns.list.sentinel) List.mem_cons_self
        rw [hhead, hfirst] at hmem
        exact hq.ring.next_ne ((List.mem_cons.mp hmem).resolve_left (by decide)) hself
      · have hrd : fifoGetItemRd x.2.returns.fifo = 0 := if_pos hempty
        have hloop : search .arm x.2.returns.list 6 (fuel + 1) 0x2054 = none := by
          refine search_loop ?_ ?_ ?_ _
          · rw [hhead]; decide
          · rw [hsession]; decide
          · rw [hself]; decide
        have hpipe : returnPipeLine .arm (fuel + 1) x.2.returns = .ret () x.2.returns := by
          rw [returnPipeLine, hrd]
          rfl
        have hget : getReturnbySessionId .arm (fuel + 1) x.2.returns 6 = .spin := by
          rw [getReturnbySessionId, Out.bind_of_ret hpipe, hhead, hfirst, hloop]
        rw [Lists.step, hget]
        rfl

end H713.Socket.Lists
