import H713.Lib.Run
import H713.Ymodem.Format

/-!
# Ymodem.Session

A transfer: `ymodem_send.py`, a receiver, and a line that delivers in order but may garble a frame on its way. The
sender takes an answer by its kind only, and it may be older than the block it waits for.
-/

namespace H713.Ymodem

inductive Item where
  | block (num : Byte) (payload : List Byte)
  | bad
  | eot
deriving DecidableEq, Repr

inductive Reply where
  | ack
  | nak
  | can
  | crcc
deriving DecidableEq, Repr

inductive Phase where
  | header
  | data
  | final
  | done
deriving DecidableEq, Repr

structure Receiver where
  phase : Phase
  expected : Byte
  stored : List Byte
  size : Nat
deriving DecidableEq, Repr

namespace Receiver

def fresh : Receiver := { phase := .header, expected := 0, stored := [], size := 0 }

def receive (r : Receiver) : Item → Receiver × Reply
  | .bad => (r, .nak)
  | .eot => ({ r with phase := if r.phase = .data then .final else r.phase }, .ack)
  | .block num payload =>
    match r.phase with
    | .header =>
      if num ≠ 0 then (r, .nak)
      else if payload.head? = some 0 then ({ r with phase := .done }, .ack)
      else ({ r with phase := .data, expected := 1, size := headerSize payload }, .ack)
    | .data =>
      if num = r.expected then ({ r with expected := r.expected + 1, stored := r.stored ++ payload }, .ack)
      else if num = r.expected - 1 then (r, .ack)
      else (r, .nak)
    | .final =>
      if num = 0 ∧ payload.head? = some 0 then ({ r with phase := .done }, .ack)
      else if num = r.expected - 1 then (r, .ack)
      else (r, .nak)
    | .done => if num = 0 then (r, .ack) else (r, .nak)

def drain (r : Receiver) (items : List Item) : Receiver := items.foldl (fun r i => (r.receive i).1) r

def replies (r : Receiver) : List Item → List Reply
  | [] => []
  | i :: items => (r.receive i).2 :: (r.receive i).1.replies items

def file (r : Receiver) : List Byte := r.stored.take r.size

theorem drain_concat (r : Receiver) (items : List Item) (i : Item) :
    r.drain (items ++ [i]) = ((r.drain items).receive i).1 := by
  simp [drain]

theorem replies_concat (r : Receiver) (items : List Item) (i : Item) :
    r.replies (items ++ [i]) = r.replies items ++ [((r.drain items).receive i).2] := by
  induction items generalizing r with
  | nil => rfl
  | cons j items ih => simp [replies, drain, ih]

end Receiver

inductive Block where
  | header
  | data (i : Nat)
  | final
deriving DecidableEq, Repr

def Block.blknum : Block → Nat
  | .header => 0
  | .data i => i + 1
  | .final => 0

def payload (f : File) : Block → List Byte
  | .header => header f
  | .data i => dataBlock f i
  | .final => nullBlock

inductive Sender where
  | waitHeader
  | waitData
  | waitFinal
  | send (b : Block) (left : Nat)
  | await (b : Block) (left : Nat)
  | sendEot (again : Bool)
  | awaitEot (again : Bool)
  | done
  | failed
deriving DecidableEq, Repr

namespace Sender

def Waiting : Sender → Prop
  | .waitHeader | .waitData | .waitFinal | .await _ _ | .awaitEot _ => True
  | _ => False

def Writing : Sender → Prop
  | .send _ _ | .sendEot _ => True
  | _ => False

def dataToSend : Sender → Option Nat
  | .send (.data i) _ => some i
  | _ => none

def sendData (f : File) (i : Nat) : Sender := if i < nblocks f then .send (.data i) 10 else .sendEot false

def next (f : File) : Block → Sender
  | .header => .waitData
  | .data i => sendData f (i + 1)
  | .final => .done

def read (f : File) : Sender → Reply → Sender
  | .waitHeader, r => if r = .crcc then .send .header 10 else .waitHeader
  | .waitData, r => if r = .crcc then sendData f 0 else .waitData
  | .waitFinal, r => if r = .crcc then .send .final 10 else .waitFinal
  | .await b _, .ack => next f b
  | .await _ _, .can => .failed
  | .await b left, _ => if left = 0 then .failed else .send b left
  | .awaitEot _, .ack => .waitFinal
  | .awaitEot false, .nak => .sendEot true
  | s, _ => s

end Sender

structure State where
  sender : Sender
  toR : List Item
  toS : List Reply
  receiver : Receiver

def start : State := { sender := .waitHeader, toR := [], toS := [], receiver := .fresh }

def arrived (bytes : List Byte) : Item :=
  match parse bytes with
  | some (num, payload) => .block num payload
  | none => .bad

inductive Op where
  | write (bad : Bool)
  | read
  | timeout
  | receive
  | ask (r : Reply)

/-- A side reads where something has arrived; the receiver asks with anything but ACK. -/
def Possible (s : State) : Op → Prop
  | .write _ => s.sender.Writing
  | .read => s.sender.Waiting ∧ s.toS ≠ []
  | .timeout => s.sender.Waiting
  | .receive => s.toR ≠ []
  | .ask r => r ≠ .ack

def stepWith (f : File) (arrives : Block → Item) (s : State) : Op → Out State Unit
  | .write bad =>
    match s.sender with
    | .send b left =>
      .ret () { s with
        sender := .await b (left - 1), toR := s.toR ++ [if bad then .bad else arrives b] }
    | .sendEot again =>
      .ret () { s with sender := .awaitEot again, toR := s.toR ++ [if bad then .bad else .eot] }
    | _ => .ret () s
  | .read =>
    match s.toS with
    | r :: rest => .ret () { s with sender := s.sender.read f r, toS := rest }
    | [] => .ret () s
  | .timeout => .ret () { s with sender := .failed }
  | .receive =>
    match s.toR with
    | i :: rest =>
      .ret () { s with
        toR := rest, toS := s.toS ++ [(s.receiver.receive i).2], receiver := (s.receiver.receive i).1 }
    | [] => .ret () s
  | .ask r => .ret () { s with toS := s.toS ++ [r] }

def step (f : File) : State → Op → Out State Unit :=
  stepWith f fun b => arrived (frame b.blknum (payload f b))

def item (f : File) : Block → Item
  | .header => if (hdrText f).length ≤ 1024 then .block 0 (header f) else .bad
  | .data i => .block (BitVec.ofNat 8 (i + 1)) (dataBlock f i)
  | .final => .block 0 nullBlock

theorem arrived_frame (f : File) (b : Block) : arrived (frame b.blknum (payload f b)) = item f b := by
  unfold arrived
  rw [parse_frame]
  cases b with
  | header =>
    by_cases h : (hdrText f).length ≤ 1024
    · rw [payload, if_pos ((length_header f).mp h), item, if_pos h]
      rfl
    · rw [payload, if_neg (mt (length_header f).mpr h), item, if_neg h]
  | data i => rw [payload, if_pos (.inr (length_dataBlock f i))]; rfl
  | final => rw [payload, if_pos (.inl List.length_replicate)]; rfl

theorem step_eq (f : File) : step f = stepWith f (item f) :=
  congrArg (stepWith f) (funext (arrived_frame f))

inductive Goes (f : File) (s : State) : Op → State → Prop where
  | wrote (b : Block) (left : Nat) (bad : Bool) : s.sender = .send b left →
      Goes f s (.write bad)
        { s with sender := .await b (left - 1), toR := s.toR ++ [if bad then .bad else item f b] }
  | wroteEot (again bad : Bool) : s.sender = .sendEot again →
      Goes f s (.write bad)
        { s with sender := .awaitEot again, toR := s.toR ++ [if bad then .bad else .eot] }
  | read (r : Reply) (rest : List Reply) : s.sender.Waiting → s.toS = r :: rest →
      Goes f s .read { s with sender := s.sender.read f r, toS := rest }
  | gaveUp : Goes f s .timeout { s with sender := .failed }
  | received (i : Item) (rest : List Item) : s.toR = i :: rest →
      Goes f s .receive
        { s with
          toR := rest, toS := s.toS ++ [(s.receiver.receive i).2], receiver := (s.receiver.receive i).1 }
  | asked (r : Reply) : r ≠ .ack → Goes f s (.ask r) { s with toS := s.toS ++ [r] }

theorem goes_of_step {f : File} {s s' : State} {op : Op} {u : Unit} (hp : Possible s op)
    (hs : step f s op = .ret u s') : Goes f s op s' := by
  rw [step_eq] at hs
  cases op with
  | write bad =>
    simp only [Possible] at hp
    simp only [stepWith] at hs
    cases h : s.sender with
    | send b left => rw [h] at hs; cases hs; exact .wrote b left bad h
    | sendEot again => rw [h] at hs; cases hs; exact .wroteEot again bad h
    | _ => rw [h] at hp; exact hp.elim
  | read =>
    simp only [stepWith] at hs
    cases h : s.toS with
    | nil => exact absurd h hp.2
    | cons r rest => rw [h] at hs; cases hs; exact .read r rest hp.1 h
  | timeout => cases hs; exact .gaveUp
  | receive =>
    simp only [stepWith] at hs
    cases h : s.toR with
    | nil => exact absurd h hp
    | cons i rest => rw [h] at hs; cases hs; exact .received i rest h
  | ask r => cases hs; exact .asked r hp

namespace State

def drained (s : State) : Receiver := s.receiver.drain s.toR

def answers (s : State) : List Reply := s.toS ++ s.receiver.replies s.toR

end State

def rx (f : File) (i : Nat) : Receiver :=
  { phase := .data, expected := BitVec.ofNat 8 (i + 1), stored := blocks f i, size := f.data.length }

/-- All of the file has arrived. -/
structure Holds (f : File) (r : Receiver) : Prop where
  begun : r.phase ≠ .header
  size : r.size = f.data.length
  stored : blocks f (nblocks f) <+: r.stored

section

variable {f : File} {r : Receiver}

theorem receive_header (f : File) : Receiver.fresh.receive (.block 0 (header f)) = (rx f 0, .ack) := by
  simp only [Receiver.receive, Receiver.fresh, ne_eq, not_true_eq_false, if_false, if_neg (head_header f),
    headerSize_header]
  rfl

theorem receive_header_again (f : File) : (rx f 0).receive (.block 0 (header f)) = (rx f 0, .ack) := by
  simp [Receiver.receive, rx]

theorem receive_data (f : File) (i : Nat) :
    (rx f i).receive (.block (BitVec.ofNat 8 (i + 1)) (dataBlock f i)) = (rx f (i + 1), .ack) := by
  simp only [Receiver.receive, rx, if_true, blocks_succ]
  congr 2
  exact (BitVec.ofNat_add ..).symm

theorem receive_data_again (f : File) (i : Nat) :
    (rx f (i + 1)).receive (.block (BitVec.ofNat 8 (i + 1)) (dataBlock f i)) = (rx f (i + 1), .ack) := by
  have hsucc : BitVec.ofNat 8 (i + 1 + 1) = BitVec.ofNat 8 (i + 1) + 1 := BitVec.ofNat_add ..
  have hne : BitVec.ofNat 8 (i + 1) ≠ BitVec.ofNat 8 (i + 1) + 1 := by bv_omega
  simp only [Receiver.receive, rx, hsucc, if_neg hne, BitVec.add_sub_cancel, if_true]

theorem holds_rx (f : File) : Holds f (rx f (nblocks f)) :=
  ⟨by simp [rx], rfl, List.prefix_refl _⟩

theorem Holds.file (h : Holds f r) : r.file = f.data := by
  obtain ⟨rest, hrest⟩ := h.stored
  have hlen : f.data.length ≤ (blocks f (nblocks f)).length := by
    rw [length_blocks, nblocks]
    omega
  rw [Receiver.file, h.size, ← hrest, List.take_append_of_le_length hlen, take_blocks]

theorem Holds.receive (h : Holds f r) (i : Item) : Holds f (r.receive i).1 := by
  obtain ⟨hb, hs, hst⟩ := h
  cases i with
  | bad => exact ⟨hb, hs, hst⟩
  | eot =>
    refine ⟨?_, hs, hst⟩
    simp only [Receiver.receive]
    split
    · simp
    · exact hb
  | block num payload =>
    simp only [Receiver.receive]
    cases hp : r.phase with
    | header => exact absurd hp hb
    | data =>
      simp only
      split
      · exact ⟨by simp, hs, hst.trans (List.prefix_append _ _)⟩
      · split <;> exact ⟨hb, hs, hst⟩
    | final =>
      simp only
      split
      · exact ⟨by simp, hs, hst⟩
      · split <;> exact ⟨hb, hs, hst⟩
    | done =>
      simp only
      split <;> exact ⟨hb, hs, hst⟩

end

/-- What the receiver has, once it reads all that was written, at each place of the sender; where it lacks
the block waited for, no ACK is to come. -/
def Good (f : File) (r : Receiver) (acked : Prop) : Sender → Prop
  | .waitHeader => r = .fresh ∧ ¬ acked
  | .send .header _ => r = rx f 0 ∨ (r = .fresh ∧ ¬ acked)
  | .await .header _ => r = rx f 0 ∨ (r = .fresh ∧ ¬ acked)
  | .waitData => r = rx f 0
  | .send (.data i) _ => i < nblocks f ∧ (r = rx f i ∨ r = rx f (i + 1))
  | .await (.data i) _ => i < nblocks f ∧ ((r = rx f i ∧ ¬ acked) ∨ r = rx f (i + 1))
  | .failed => True
  | _ => Holds f r

def Inv (f : File) (s : State) : Prop := Good f s.drained (.ack ∈ s.answers) s.sender

/-- A data block is garbled only when it has arrived before, or no ACK is unread or to come. -/
def LineFits (s : State) : Op → Prop
  | .write true => ∀ i ∈ s.sender.dataToSend, .ack ∉ s.answers ∨ 1024 * (i + 1) ≤ s.drained.stored.length
  | _ => True

/-- An ACK will be read for a data block only when it has arrived. -/
def Sound (s : State) : Prop :=
  ∀ i left, s.sender = .await (.data i) left → .ack ∈ s.answers → 1024 * (i + 1) ≤ s.drained.stored.length

section

variable {f : File} {r r' : Receiver} {acked acked' : Prop} {snd : Sender} {s s' : State} {op : Op}

theorem Good.of_fewer (h : Good f r acked snd) (hack : acked' → acked) : Good f r acked' snd := by
  have hnot : ¬ acked → ¬ acked' := mt hack
  cases snd with
  | waitHeader => exact ⟨h.1, hnot h.2⟩
  | send b left =>
    cases b with
    | header => exact h.imp_right (And.imp_right hnot)
    | data i => exact h
    | final => exact h
  | await b left =>
    cases b with
    | header => exact h.imp_right (And.imp_right hnot)
    | data i => exact ⟨h.1, h.2.imp_left (And.imp_right hnot)⟩
    | final => exact h
  | waitData | waitFinal | sendEot again | awaitEot again | done | failed => exact h

theorem good_sendData {i : Nat} (hle : i ≤ nblocks f) : Good f (rx f i) acked (Sender.sendData f i) := by
  unfold Sender.sendData
  split
  · rename_i hlt
    exact ⟨hlt, .inl rfl⟩
  · rename_i hlt
    cases Nat.le_antisymm hle (Nat.not_lt.mp hlt)
    exact holds_rx f

variable {b : Block} {left : Nat}

theorem Good.retry (h : Good f r acked (.await b left)) :
    Good f r acked (if left = 0 then .failed else .send b left) := by
  split
  · trivial
  · cases b with
    | header | final => exact h
    | data i => exact ⟨h.1, h.2.imp_left And.left⟩

theorem Good.read (h : Good f r acked snd) {reply : Reply} (hack : acked' → acked) (hreply : reply = .ack → acked) :
    Good f r acked' (snd.read f reply) := by
  have hrest := h.of_fewer hack
  cases snd with
  | waitHeader =>
    simp only [Sender.read]
    split
    · exact .inr hrest
    · exact hrest
  | waitData =>
    simp only [Sender.read]
    split
    · cases h; exact good_sendData (Nat.zero_le _)
    · exact hrest
  | waitFinal =>
    simp only [Sender.read]
    split
    · exact h
    · exact hrest
  | await b left =>
    cases reply with
    | ack =>
      have hacked := hreply rfl
      cases b with
      | header => exact h.resolve_right fun hno => hno.2 hacked
      | data i =>
        obtain ⟨hlt, hno | rfl⟩ := h
        · exact absurd hacked hno.2
        · exact good_sendData hlt
      | final => exact h
    | can => trivial
    | nak => exact hrest.retry
    | crcc => exact hrest.retry
  | awaitEot again =>
    cases reply with
    | ack => exact h
    | nak => cases again <;> exact h
    | can => cases again <;> exact h
    | crcc => cases again <;> exact h
  | send b left => exact hrest
  | sendEot again | done => exact h
  | failed => trivial

theorem stored_rx (f : File) (i : Nat) : (rx f i).stored.length = 1024 * i := length_blocks f i

theorem Good.garbled {left' : Nat} (h : Good f r acked (.send b left))
    (hfit : ∀ i, b = .data i → ¬ acked ∨ 1024 * (i + 1) ≤ r.stored.length) : Good f r acked (.await b left') := by
  cases b with
  | header | final => exact h
  | data i =>
    refine ⟨h.1, h.2.imp_left fun hr => ⟨hr, ?_⟩⟩
    refine (hfit i rfl).resolve_right fun hlen => ?_
    rw [hr, stored_rx] at hlen
    omega

theorem Good.intact {left' : Nat} (h : Good f r acked (.send b left))
    (hack : acked' → acked ∨ (r.receive (item f b)).2 = .ack) :
    Good f (r.receive (item f b)).1 acked' (.await b left') := by
  cases b with
  | header =>
    simp only [item] at hack ⊢
    split
    · rcases h with rfl | ⟨rfl, -⟩
      · rw [receive_header_again]; exact .inl rfl
      · rw [receive_header]; exact .inl rfl
    · rename_i hlong
      rw [if_neg hlong] at hack
      exact h.imp_right fun ⟨hr, hno⟩ => ⟨hr, fun ha => (hack ha).elim hno (by simp [Receiver.receive])⟩
  | data i =>
    simp only [item]
    obtain ⟨hlt, rfl | rfl⟩ := h
    · rw [receive_data]; exact ⟨hlt, .inr rfl⟩
    · rw [receive_data_again]; exact ⟨hlt, .inr rfl⟩
  | final => exact Holds.receive h _

end

section

variable {f : File} {s s' : State} {op : Op}

theorem drained_put (s : State) (snd : Sender) (i : Item) :
    ({ s with sender := snd, toR := s.toR ++ [i] } : State).drained = (s.drained.receive i).1 :=
  Receiver.drain_concat ..

theorem answers_put (s : State) (snd : Sender) (i : Item) :
    ({ s with sender := snd, toR := s.toR ++ [i] } : State).answers = s.answers ++ [(s.drained.receive i).2] := by
  simp only [State.answers, Receiver.replies_concat, List.append_assoc]
  rfl

theorem Goes.inv (h : Goes f s op s') (hi : Inv f s) (hfit : LineFits s op) : Inv f s' := by
  unfold Inv at hi ⊢
  cases h with
  | wrote b left bad hs =>
    rw [drained_put, answers_put]
    rw [hs] at hi
    cases bad with
    | false =>
      simp only [Bool.false_eq_true, if_false]
      exact hi.intact fun ha => (List.mem_append.mp ha).imp_right fun hm => (List.mem_singleton.mp hm).symm
    | true =>
      have hgood : Good f s.drained (.ack ∈ s.answers) (.await b (left - 1)) :=
        hi.garbled fun i hb => hfit i (by rw [hs, hb]; rfl)
      refine hgood.of_fewer fun ha => ?_
      simpa [Receiver.receive] using ha
  | wroteEot again bad hs =>
    rw [drained_put, answers_put]
    rw [hs] at hi
    exact Holds.receive hi _
  | read r rest hw hr =>
    have hans : s.answers = r :: (rest ++ s.receiver.replies s.toR) := by rw [State.answers, hr]; rfl
    refine hi.read (fun ha => ?_) (fun hr => ?_)
    · rw [hans]; exact List.mem_cons_of_mem r ha
    · rw [hans, hr]; exact List.mem_cons_self
  | gaveUp => trivial
  | received i rest hr =>
    -- the receiver does now what was counted already
    have hdrained : s.drained = (s.receiver.receive i).1.drain rest := by rw [State.drained, hr]; rfl
    have hans : s.answers = s.toS ++ [(s.receiver.receive i).2] ++ (s.receiver.receive i).1.replies rest := by
      rw [State.answers, hr, List.append_assoc]; rfl
    rw [hdrained, hans] at hi
    exact hi
  | asked r hne =>
    refine hi.of_fewer fun ha => ?_
    simp only [State.answers, List.mem_append, List.mem_singleton] at ha ⊢
    rcases ha with (hs | hr) | ha
    · exact .inl hs
    · exact absurd hr.symm hne
    · exact .inr ha

theorem inv_start (f : File) : Inv f start := ⟨rfl, by simp [start, State.answers, Receiver.replies]⟩

theorem inv_run {ops : List Op} (hr : Run (step f) (fun s op => Possible s op ∧ LineFits s op) start ops s) :
    Inv f s :=
  hr.inv (I := Inv f) (fun _ _ _ _ hi hok hs => (goes_of_step hok.1 hs).inv hi hok.2) (inv_start f)

theorem Inv.sound (hi : Inv f s) : Sound s := by
  intro i left hs hack
  unfold Inv at hi
  rw [hs] at hi
  obtain ⟨-, hno | hr⟩ := hi
  · exact absurd hack hno.2
  · rw [hr, stored_rx]

theorem Goes.sound_iff (h : Goes f s op s') (hi : Inv f s) : Sound s' ↔ LineFits s op := by
  refine ⟨fun hsound => ?_, fun hfit => (h.inv hi hfit).sound⟩
  cases h with
  | wrote b left bad hs =>
    cases bad with
    | false => trivial
    | true =>
      intro i hm
      rw [hs] at hm
      cases b with
      | header => cases hm
      | final => cases hm
      | data j =>
        cases hm
        by_cases hack : .ack ∈ s.answers
        · have := hsound i (left - 1) rfl
          rw [drained_put, answers_put] at this
          exact .inr (this (List.mem_append_left _ hack))
        · exact .inl hack
  | wroteEot again bad hs =>
    cases bad with
    | false => trivial
    | true => intro i hm; rw [hs] at hm; cases hm
  | _ => trivial

end

/-- For every file: in every run on a line that fits, after a transfer that succeeded the receiver holds the file.
The next step leaves an ACK for a data block that has not arrived exactly when the line does not fit. -/
theorem ymodem_delivers_iff {f : File} {ops : List Op} {s : State}
    (hr : Run (step f) (fun s op => Possible s op ∧ LineFits s op) start ops s) :
    (s.sender = .done → s.drained.file = f.data) ∧
    ∀ op u s', Possible s op → step f s op = .ret u s' → (Sound s' ↔ LineFits s op) := by
  have hi := inv_run hr
  refine ⟨fun hdone => ?_, fun op u s' hp hs => (goes_of_step hp hs).sound_iff hi⟩
  unfold Inv at hi
  rw [hdone] at hi
  exact Holds.file hi

instance (s : Sender) : Decidable s.Waiting := by
  cases s <;> unfold Sender.Waiting <;> infer_instance

instance (s : Sender) : Decidable s.Writing := by
  cases s <;> unfold Sender.Writing <;> infer_instance

instance (s : State) (op : Op) : Decidable (Possible s op) := by
  cases op <;> unfold Possible <;> infer_instance

instance (s : State) (op : Op) : Decidable (LineFits s op) := by
  unfold LineFits; split <;> infer_instance

def small : File := { name := [0x61], data := [7, 8], named := by decide, noNul := by decide }

def repeated : List Op :=
  [.ask .crcc, .read, .write true, .receive, .read, .write false, .receive, .read, .ask .crcc, .read,
    .write true, .receive, .read, .write false, .receive, .read, .write false, .receive, .read, .ask .crcc, .read,
    .write false, .receive, .read]

theorem ymodem_delivers_iff_repeated :
    ∃ s, Run (step small) (fun s op => Possible s op ∧ LineFits s op) start repeated s ∧ s.sender = .done ∧
      s.drained.file = [7, 8] := by
  have hrun : ∃ s, Run (step small) (fun s op => Possible s op ∧ LineFits s op) start repeated s ∧
      s.sender = .done := by
    rw [step_eq]
    exact Run.exists_of_exec (by decide +kernel)
  obtain ⟨s, hr, hdone⟩ := hrun
  exact ⟨s, hr, hdone, (ymodem_delivers_iff hr).1 hdone⟩

def staleAck : List Op :=
  [.ask .crcc, .ask .crcc, .read, .write false, .read, .write false, .receive, .ask .crcc, .receive, .read, .read,
    .write true, .read, .write false, .receive, .receive, .read, .write false, .read, .receive, .ask .crcc, .read,
    .read, .write false, .receive, .read]

theorem ymodem_loses_last_block : ∃ s, Run (step small) Possible start staleAck s ∧ s.sender = .done ∧ s.toR = [] ∧
      s.receiver.phase = .done ∧ s.receiver.file = [] := by
  rw [step_eq]
  exact Run.exists_of_exec (by decide +kernel)

end H713.Ymodem
