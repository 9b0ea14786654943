import H713.Proto.Mutex
import H713.Proto.Pending

/-!
# Proto.Ack

Sends, acknowledgements and timeouts in any order. A message that went out is known by the number of its send; all
messages to one destination in one direction share the counter that an acknowledgement raises.
-/

namespace H713.Proto

open Function

def ackAction (acks : Nat → Nat) (status2 semPtr : Nat) : Out (Nat → Nat) Unit :=
  if status2.testBit 2 then .bug
  else .ret () (update acks semPtr (semUp (acks semPtr)))

structure AckSys where
  w : World
  acks : Nat → Nat
  pending : List (Nat × Pending)
  unacked : List (Nat × Nat)
  arrived : List Nat
  zero : List Nat
  next : Nat

inductive AckOp where
  | send (e : Env) (a : Args)
  | ack (id sem status2 : Nat)
  | finish (id : Nat) (p : Pending) (e : Env) (wake : Wake)
  | other (w : World)

def AckSys.began (s : AckSys) (p : Pending) (w : World) : AckSys :=
  { s with
    w := w
    pending := (s.next, p) :: s.pending
    unacked := if p.sent then (s.next, p.sem) :: s.unacked else s.unacked
    next := s.next + 1 }

def AckSys.returned (s : AckSys) (id : Nat) (r : Sent) (w : World) : AckSys :=
  { s with w := w, zero := if r.ret = 0 then id :: s.zero else s.zero }

def ackStep (s : AckSys) : AckOp → Out AckSys Unit
  | .send e a => (sendBegin s.w e a).bind fun x w =>
      match x with
      | .inl r => .ret () { s.returned s.next r w with next := s.next + 1 }
      | .inr p => .ret () (s.began p w)
  | .ack id sem status2 => (ackAction s.acks status2 sem).bind fun _ acks =>
      .ret () { s with
        acks := acks, unacked := s.unacked.erase (id, sem), arrived := id :: s.arrived }
  | .finish id p e wake =>
      match semDownTimeout (s.acks p.sem) wake with
      | none => .spin
      | some (r, n) => (sendEnd s.w e p r).bind fun sent w =>
          .ret () { s.returned id sent w with
            acks := update s.acks p.sem n, pending := s.pending.filter (·.1 ≠ id) }
  | .other w => .ret () { s with w := w }

/-- A send that waits goes on, and a message without acknowledgement gets one. -/
def AckPossible (s : AckSys) : AckOp → Prop
  | .send _ _ => True
  | .ack id sem _ => (id, sem) ∈ s.unacked
  | .finish id p _ _ => (id, p) ∈ s.pending
  | .other w => ∀ d, (w.sock d).sendSem = (s.w.sock d).sendSem ∧ (w.sock d).base = (s.w.sock d).base

/-- Nothing is left of older messages at this counter. -/
def Settled (s : AckSys) (sem : Nat) : Prop := s.acks sem = 0 ∧ ∀ id, (id, sem) ∉ s.unacked

/-- A message only goes out when older ones to the same place are settled. -/
def CalmAck (s : AckSys) (op : AckOp) : Prop :=
  AckPossible s op ∧
    ∀ e a p w, op = .send e a → sendBegin s.w e a = .ret (.inr p) w → Settled s p.sem

/-- A send returned 0 only if the acknowledgement of its own message arrived. -/
def OwnAck (s : AckSys) : Prop := ∀ id ∈ s.zero, id ∈ s.arrived

/-- The sockets at the start: the send semaphores are at most 1, and the sockets are apart. -/
structure AckStart (w : World) : Prop where
  sem : ∀ d ≤ 1, ∀ r ≤ 1, (w.sock d).sendSem r ≤ 1
  apart : (w.sock 1).base = (w.sock 0).base + 4992

def AckSys.start (w : World) : AckSys := ⟨w, fun _ => 0, [], [], [], [], 0⟩

structure AckInv (s : AckSys) : Prop where
  start : AckStart s.w
  cpu : ∀ q ∈ s.pending, q.2.dst ≤ 1 ∧ q.2.dir ≤ 1
  sem : ∀ q ∈ s.pending, q.2.sem = ackSem (s.w.sock q.2.dst).base q.2.dir
  taken : ∀ q ∈ s.pending, (s.w.sock q.2.dst).sendSem q.2.dir = 0
  one : ∀ q ∈ s.pending, ∀ q' ∈ s.pending, q.2.dst = q'.2.dst → q.2.dir = q'.2.dir → q.1 = q'.1
  own : ∀ q ∈ s.pending, (∀ i, (i, q.2.sem) ∈ s.unacked → i = q.1) ∧
    (s.acks q.2.sem ≠ 0 → q.1 ∈ s.arrived)
  unackedLt : ∀ u ∈ s.unacked, u.1 < s.next
  arrivedLt : ∀ i ∈ s.arrived, i < s.next
  right : OwnAck s

variable {w w' : World} {p : Pending} {s : AckSys} {id : Nat}

theorem ackSem_inj (h : (w.sock 1).base = (w.sock 0).base + 4992) {d d' r r' : Nat} (hd : d ≤ 1) (hd' : d' ≤ 1)
    (hr : r ≤ 1) (hr' : r' ≤ 1) (he : ackSem (w.sock d).base r = ackSem (w.sock d').base r') : d = d' ∧ r = r' := by
  have h01 : ∀ {n : Nat}, n ≤ 1 → n = 0 ∨ n = 1 := fun hn => by omega
  rcases h01 hd with rfl | rfl <;> rcases h01 hd' with rfl | rfl <;>
    rcases h01 hr with rfl | rfl <;> rcases h01 hr' with rfl | rfl <;>
    simp [ackSem] at he ⊢ <;> omega

theorem AckStart.congr (h : AckStart w) (hs : ∀ d ≤ 1, ∀ r ≤ 1, (w'.sock d).sendSem r ≤ 1)
    (hb : ∀ d, (w'.sock d).base = (w.sock d).base) : AckStart w' :=
  ⟨hs, by rw [hb, hb]; exact h.apart⟩

theorem SockStep.base_eq {e : Env} {dst session : Nat} {wait : Option Nat} (h : SockStep w w' e dst session wait)
    (d : Nat) : (w'.sock d).base = (w.sock d).base := by
  by_cases hd : d = dst
  · rw [hd]
    exact h.base
  · rw [h.others d hd]

theorem Ends.base_eq {ack : Int} (h : Ends w w' p ack) (d : Nat) : (w'.sock d).base = (w.sock d).base := by
  by_cases hd : d = p.dst
  · rw [hd]
    exact h.base
  · rw [h.others d hd]

namespace AckInv

variable {s s' : AckSys}

variable {w : World} {e : Env} {p : Pending}

theorem ofStart (h : AckStart w) : AckInv (.start w) :=
  ⟨h, nofun, nofun, nofun, nofun, nofun, nofun, nofun, nofun⟩

theorem setWorld (h : AckInv s) (hs : ∀ d ≤ 1, ∀ r ≤ 1, (w.sock d).sendSem r = (s.w.sock d).sendSem r)
    (hb : ∀ d, (w.sock d).base = (s.w.sock d).base) : AckInv { s with w := w } := by
  refine { h with
    start := h.start.congr (fun d hd r hr => ?_) hb, sem := fun q hq => ?_, taken := fun q hq => ?_ }
  · rw [hs d hd r hr]
    exact h.start.sem d hd r hr
  · rw [hb]
    exact h.sem q hq
  · obtain ⟨hd, hr⟩ := h.cpu q hq
    rw [hs _ hd _ hr]
    exact h.taken q hq

theorem fails {r : Sent} (h : AckInv s) (hf : Fails s.w w e r) :
    AckInv { s.returned s.next r w with next := s.next + 1 } := by
  obtain ⟨dst, -, session, wait, hstep⟩ := hf.step
  have hw : AckInv { s with w := w } := by
    refine h.setWorld (fun d hd r hr => hf.sendSem d r ?_) hstep.base_eq
    have := h.start.sem d hd r hr
    omega
  refine { hw with unackedLt := fun u hu => ?_, arrivedLt := fun i hi => ?_, right := ?_ }
  · exact Nat.lt_succ_of_lt (h.unackedLt u hu)
  · exact Nat.lt_succ_of_lt (h.arrivedLt i hi)
  · simp only [OwnAck, AckSys.returned, if_neg hf.ret]
    exact h.right

theorem sem_ne {a : Args} (h : AckInv s) (hb : Begins s.w w e a p) {q : Nat × Pending} (hq : q ∈ s.pending) :
    q.2.sem ≠ p.sem := by
  intro he
  obtain ⟨hd, hr⟩ := h.cpu q hq
  rw [h.sem q hq, hb.sem] at he
  have hdir : p.dir ≤ 1 := hb.dir ▸ hb.target
  obtain ⟨hdd, hrr⟩ := ackSem_inj h.start.apart hd hb.cpu hr hdir he
  have := h.taken q hq
  rw [hdd, hrr] at this
  exact absurd this (Nat.ne_of_gt hb.free)

theorem mem_unacked_began {i c : Nat} (h : (i, c) ∈ (s.began p w).unacked) :
    (i, c) ∈ s.unacked ∨ (i = s.next ∧ c = p.sem) := by
  simp only [AckSys.began] at h
  split at h
  · rcases List.mem_cons.mp h with h | h
    · exact .inr (Prod.mk.inj h)
    · exact .inl h
  · exact .inl h

theorem begins {a : Args} (h : AckInv s) (hb : Begins s.w w e a p) (hset : Settled s p.sem) :
    AckInv (s.began p w) := by
  have hdir : p.dir ≤ 1 := hb.dir ▸ hb.target
  have hfree := hb.free
  have hle := h.start.sem p.dst hb.cpu p.dir hdir
  have hnone : ∀ q ∈ s.pending, ¬ (q.2.dst = p.dst ∧ q.2.dir = p.dir) := by
    rintro q hq ⟨hd, hr⟩
    have := h.taken q hq
    rw [hd, hr] at this
    omega
  have hzero : (s.w.sock p.dst).sendSem p.dir - 1 = 0 := by omega
  have hsem := sendSem_of_update hb.step.others (hzero ▸ hb.sendSem)
  refine ⟨h.start.congr (fun d hd r hr => ?_) hb.step.base_eq, ?_, ?_, ?_, ?_, ?_, ?_, ?_, h.right⟩
  · refine (hsem d r).trans_le ?_
    split
    · omega
    · exact h.start.sem d hd r hr
  · exact List.forall_mem_cons.mpr ⟨⟨hb.cpu, hdir⟩, h.cpu⟩
  · refine List.forall_mem_cons.mpr ⟨?_, fun q hq => ?_⟩
    · simp only [AckSys.began, hb.step.base_eq]
      exact hb.sem
    · simp only [AckSys.began, hb.step.base_eq]
      exact h.sem q hq
  · refine List.forall_mem_cons.mpr ⟨?_, fun q hq => ?_⟩
    · simp only [AckSys.began, hsem, and_self, if_true]
    · simp only [AckSys.began, hsem, if_neg (hnone q hq)]
      exact h.taken q hq
  · refine List.forall_mem_cons.mpr ⟨List.forall_mem_cons.mpr ⟨fun _ _ => rfl, fun q hq hd hr => ?_⟩,
      fun q hq => List.forall_mem_cons.mpr ⟨fun hd hr => ?_, h.one q hq⟩⟩
    · exact absurd ⟨hd.symm, hr.symm⟩ (hnone q hq)
    · exact absurd ⟨hd, hr⟩ (hnone q hq)
  · refine List.forall_mem_cons.mpr ⟨⟨fun i hi => ?_, fun hne => absurd hset.1 hne⟩, fun q hq =>
      ⟨fun i hi => ?_, (h.own q hq).2⟩⟩
    · obtain hi | hi := mem_unacked_began hi
      · exact absurd hi (hset.2 i)
      · exact hi.1
    · obtain hi | hi := mem_unacked_began hi
      · exact (h.own q hq).1 i hi
      · exact absurd hi.2 (h.sem_ne hb hq)
  · rintro ⟨i, c⟩ hu
    obtain hu | hu := mem_unacked_began hu
    · exact Nat.lt_succ_of_lt (h.unackedLt _ hu)
    · simp only [hu.1]
      exact Nat.lt_succ_self _
  · exact fun i hi => Nat.lt_succ_of_lt (h.arrivedLt i hi)

theorem acked {id sem status2 : Nat} (h : AckInv s) (hmem : (id, sem) ∈ s.unacked) {acks : Nat → Nat}
    {r : Unit} (ha : ackAction s.acks status2 sem = .ret r acks) :
    AckInv { s with acks := acks, unacked := s.unacked.erase (id, sem), arrived := id :: s.arrived } := by
  simp only [ackAction] at ha
  split at ha
  · cases ha
  cases ha
  refine { h with
    own := fun q hq => ⟨fun i hi => ?_, fun hne => ?_⟩
    unackedLt := fun u hu => h.unackedLt u (List.mem_of_mem_erase hu)
    arrivedLt := ?_, right := fun i hi => ?_ }
  · exact (h.own q hq).1 i (List.mem_of_mem_erase hi)
  · by_cases hc : q.2.sem = sem
    · subst hc
      rw [← (h.own q hq).1 id hmem]
      exact List.mem_cons_self ..
    · simp only [update_of_ne hc] at hne
      exact List.mem_cons_of_mem _ ((h.own q hq).2 hne)
  · exact List.forall_mem_cons.mpr ⟨h.unackedLt _ hmem, h.arrivedLt⟩
  · exact List.mem_cons_of_mem _ (h.right i hi)

theorem finished {id n : Nat} {wake : Wake} {v : Int} {r : Sent} (h : AckInv s) (hmem : (id, p) ∈ s.pending)
    (hdown : semDownTimeout (s.acks p.sem) wake = some (v, n)) (hend : sendEnd s.w e p v = .ret r w) :
    AckInv { s.returned id r w with
      acks := update s.acks p.sem n, pending := s.pending.filter (·.1 ≠ id) } := by
  obtain ⟨hret, hends⟩ := sendEnd_ends hend
  obtain ⟨hcpu, hdir⟩ := h.cpu _ hmem
  have hzero := h.taken _ hmem
  have hsum := Sem.semDownTimeout_sum (s := ⟨s.acks p.sem, []⟩) hdown
  -- whoever else waits has another destination or direction
  have hothers : ∀ q ∈ s.pending.filter (·.1 ≠ id), q ∈ s.pending ∧
      ¬ (q.2.dst = p.dst ∧ q.2.dir = p.dir) := by
    intro q hq
    obtain ⟨hq, hne⟩ := List.mem_filter.mp hq
    refine ⟨hq, fun hc => ?_⟩
    have := h.one q hq _ hmem hc.1 hc.2
    simp [this] at hne
  have hone : semUp ((s.w.sock p.dst).sendSem p.dir) = 1 := by
    rw [hzero]
    rfl
  have hsem := sendSem_of_update hends.others (hone ▸ hends.sendSem)
  refine ⟨h.start.congr (fun d hd r hr => ?_) hends.base_eq, fun q hq => h.cpu q (hothers q hq).1,
    fun q hq => ?_, fun q hq => ?_, fun q hq q' hq' => h.one q (hothers q hq).1 q' (hothers q' hq').1,
    fun q hq => ?_, h.unackedLt, h.arrivedLt, ?_⟩
  · refine (hsem d r).trans_le ?_
    split
    · omega
    · exact h.start.sem d hd r hr
  · simp only [AckSys.returned, hends.base_eq]
    exact h.sem q (hothers q hq).1
  · simp only [AckSys.returned, hsem, if_neg (hothers q hq).2]
    exact h.taken q (hothers q hq).1
  · obtain ⟨hq, hne⟩ := hothers q hq
    refine ⟨(h.own q hq).1, fun hacks => (h.own q hq).2 ?_⟩
    have hsemne : q.2.sem ≠ p.sem := by
      rw [h.sem q hq, h.sem _ hmem]
      exact fun he => hne (ackSem_inj h.start.apart (h.cpu q hq).1 hcpu (h.cpu q hq).2 hdir he)
    simp only [update_of_ne hsemne] at hacks
    exact hacks
  · simp only [OwnAck, AckSys.returned, hret]
    split
    · rename_i hv
      refine List.forall_mem_cons.mpr ⟨(h.own _ hmem).2 ?_, h.right⟩
      simp only at hsum ⊢
      omega
    · exact h.right

theorem step {op : AckOp} {r : Unit} (h : AckInv s) (hok : CalmAck s op)
    (hs : ackStep s op = .ret r s') : AckInv s' := by
  obtain ⟨hp, hcalm⟩ := hok
  cases op with
  | send e a =>
    obtain ⟨x, w, hbegin, hret⟩ := Out.bind_eq_ret hs
    obtain ⟨r, rfl, hf⟩ | ⟨p, rfl, hb⟩ := sendBegin_cases hbegin
    · cases hret
      exact h.fails hf
    · cases hret
      exact h.begins hb (hcalm e a p w rfl hbegin)
  | ack id sem status2 =>
    obtain ⟨_, acks, ha, hret⟩ := Out.bind_eq_ret hs
    cases hret
    exact h.acked hp ha
  | finish id p e wake =>
    simp only [ackStep] at hs
    split at hs
    · cases hs
    · rename_i v n hdown
      obtain ⟨sent, w, hend, hret⟩ := Out.bind_eq_ret hs
      cases hret
      exact h.finished hp hdown hend
  | other w =>
    cases hs
    exact h.setWorld (fun d _ r _ => by rw [(hp d).1]) fun d => (hp d).2

end AckInv

theorem CalmAck.ack {sem : Nat} (h : (id, sem) ∈ s.unacked) (status2 : Nat) : CalmAck s (.ack id sem status2) := by
  refine ⟨h, ?_⟩
  intro e a p w hop
  cases hop

theorem CalmAck.finish (h : (id, p) ∈ s.pending) (e : Env) (wake : Wake) : CalmAck s (.finish id p e wake) := by
  refine ⟨h, ?_⟩
  intro e a p w hop
  cases hop

theorem finish_zero (e : Env) (hmem : (id, p) ∈ s.pending) (hacks : s.acks p.sem ≠ 0) :
    ∃ s', Run ackStep CalmAck s [.finish id p e .nothing] s' ∧ id ∈ s'.zero ∧ s'.arrived = s.arrived := by
  have hdown : semDownTimeout (s.acks p.sem) .nothing = some (0, s.acks p.sem - 1) := by
    rw [semDownTimeout, if_pos (Nat.pos_of_ne_zero hacks)]
  have hstep : ∃ s', ackStep s (.finish id p e .nothing) = .ret () s' ∧ id ∈ s'.zero ∧
      s'.arrived = s.arrived := by
    simp only [ackStep, hdown, sendEnd, if_true, Out.bind, AckSys.returned]
    exact ⟨_, rfl, List.mem_cons_self .., rfl⟩
  obtain ⟨s', hs, hz, ha⟩ := hstep
  exact ⟨s', .cons (.finish hmem e .nothing) hs .nil, hz, ha⟩

theorem unsettled_run (h : AckInv s) (e : Env) (hset : ¬ Settled s p.sem) :
    ∃ ops s', Run ackStep CalmAck (s.began p w) ops s' ∧ ¬ OwnAck s' := by
  have hmem : (s.next, p) ∈ (s.began p w).pending := List.mem_cons_self ..
  by_cases hacks : s.acks p.sem = 0
  · -- the acknowledgement of an older message comes first
    obtain ⟨j, hj⟩ : ∃ j, (j, p.sem) ∈ s.unacked := by
      by_contra hno
      exact hset ⟨hacks, fun j hj => hno ⟨j, hj⟩⟩
    have hj' : (j, p.sem) ∈ (s.began p w).unacked := by
      simp only [AckSys.began]
      split
      · exact List.mem_cons_of_mem _ hj
      · exact hj
    have hack : ackStep (s.began p w) (.ack j p.sem 0) = .ret () { s.began p w with
        acks := update s.acks p.sem (semUp (s.acks p.sem))
        unacked := (s.began p w).unacked.erase (j, p.sem)
        arrived := j :: s.arrived } := rfl
    obtain ⟨s', hr, hz, ha⟩ := finish_zero (s := { s.began p w with
        acks := update s.acks p.sem (semUp (s.acks p.sem))
        unacked := (s.began p w).unacked.erase (j, p.sem)
        arrived := j :: s.arrived }) e hmem (by simp [hacks, semUp])
    refine ⟨_, s', .cons (.ack hj' 0) hack hr, fun hown => ?_⟩
    have harr := hown _ hz
    rw [ha] at harr
    rcases List.mem_cons.mp harr with he | he
    · have := h.unackedLt _ hj
      omega
    · exact Nat.lt_irrefl _ (h.arrivedLt _ he)
  · obtain ⟨s', hr, hz, ha⟩ := finish_zero e hmem hacks
    refine ⟨_, s', hr, fun hown => ?_⟩
    have harr := hown _ hz
    rw [ha] at harr
    exact Nat.lt_irrefl _ (h.arrivedLt _ harr)

/-- In every run in which messages go out settled, 0 means the own acknowledgement; and a message that
goes out at its end keeps it that way exactly when it is settled. -/
theorem zero_means_acked {w : World} (hw : AckStart w) {ops : List AckOp} {s : AckSys}
    (hr : Run ackStep CalmAck (.start w) ops s) : OwnAck s ∧ ∀ e a p w', sendBegin s.w e a = .ret (.inr p) w' →
      ((∀ ops' s', Run ackStep CalmAck (s.began p w') ops' s' → OwnAck s') ↔ Settled s p.sem) := by
  have h := hr.inv (fun _ _ _ _ hi hok hs => hi.step hok hs) (AckInv.ofStart hw)
  refine ⟨h.right, fun e a p w' hbegin => ⟨fun hall => ?_, fun hset ops' s' hr' => ?_⟩⟩
  · by_contra hset
    obtain ⟨ops', s', hr', hno⟩ := unsettled_run (w := w') h e hset
    exact hno (hall ops' s' hr')
  · obtain ⟨r, hx, -⟩ | ⟨p', hx, hb⟩ := sendBegin_cases hbegin
    · cases hx
    · cases hx
      exact (hr'.inv (fun _ _ _ _ hi hok hs => hi.step hok hs) (h.begins hb hset)).right

def sendTwice : Out World (Pending × Pending) :=
  (sendBegin mipsWorld noAck notifyMips).bind fun x w =>
    match x with
    | .inl _ => .bug
    | .inr p => (sendEnd w noAck p eTime).bind fun _ w =>
        (sendBegin w noAck notifyMips).bind fun x w =>
          match x with
          | .inl _ => .bug
          | .inr p' => .ret (p, p') w

theorem sendTwice_parts : ∃ p w₁ r w₂ p' w₃,
    sendBegin mipsWorld noAck notifyMips = .ret (.inr p) w₁ ∧ sendEnd w₁ noAck p eTime = .ret r w₂ ∧
      sendBegin w₂ noAck notifyMips = .ret (.inr p') w₃ ∧ p.sent = true ∧ p'.sem = p.sem := by
  have hv : sendTwice.value?.map (fun q => (q.1.sent, q.2.sem == q.1.sem)) = some (true, true) := by
    decide +kernel
  cases hs : sendTwice with
  | bug | spin => rw [hs] at hv; cases hv
  | ret q w₃ =>
    rw [hs] at hv
    have hq := Prod.mk.inj (Option.some.inj hv)
    obtain ⟨x, w₁, h₁, h⟩ := Out.bind_eq_ret hs
    cases x with
    | inl r => cases h
    | inr p =>
      obtain ⟨r, w₂, h₂, h⟩ := Out.bind_eq_ret h
      obtain ⟨x, w₃', h₃, h⟩ := Out.bind_eq_ret h
      cases x with
      | inl r => cases h
      | inr p' =>
        obtain ⟨rfl, rfl⟩ := Out.ret.inj h
        exact ⟨p, w₁, r, w₂, p', w₃', h₁, h₂, h₃, hq.1, eq_of_beq hq.2⟩

theorem mipsWorld_start : AckStart mipsWorld := by
  refine ⟨fun d _ r _ => ?_, rfl⟩
  simp only [mipsWorld, idleWorld]
  split <;> decide

theorem zero_means_acked_notifyMips : ∃ p s, Run ackStep CalmAck (.start mipsWorld)
      [.send noAck notifyMips, .ack 0 p.sem 0, .finish 0 p noAck .nothing] s ∧ 0 ∈ s.zero ∧ OwnAck s := by
  obtain ⟨p, w₁, -, -, -, -, hbegin, -, -, hsent, -⟩ := sendTwice_parts
  have hsend : ackStep (.start mipsWorld) (.send noAck notifyMips) =
      .ret () ((AckSys.start mipsWorld).began p w₁) := by
    simp only [ackStep, AckSys.start, hbegin, Out.bind]
  have hcalm : CalmAck (.start mipsWorld) (.send noAck notifyMips) :=
    ⟨trivial, fun _ _ _ _ _ _ => ⟨rfl, fun _ => List.not_mem_nil⟩⟩
  have hmem : (0, p.sem) ∈ ((AckSys.start mipsWorld).began p w₁).unacked := by
    simp [AckSys.began, AckSys.start, hsent]
  obtain ⟨s, hr, hz, -⟩ := finish_zero (p := p) (s := { (AckSys.start mipsWorld).began p w₁ with
      acks := update (fun _ => 0) p.sem (semUp 0)
      unacked := ((AckSys.start mipsWorld).began p w₁).unacked.erase (0, p.sem)
      arrived := [0] }) noAck (List.mem_cons_self ..) (by simp [semUp])
  have hrun : Run ackStep CalmAck (.start mipsWorld)
      [.send noAck notifyMips, .ack 0 p.sem 0, .finish 0 p noAck .nothing] s :=
    .cons hcalm hsend (.cons (.ack hmem 0) rfl hr)
  exact ⟨p, s, hrun, hz, (zero_means_acked mipsWorld_start hrun).1⟩

theorem late_ack_taken_by_next_send : ∃ p p' s, Run ackStep AckPossible (.start mipsWorld)
      [.send noAck notifyMips, .finish 0 p noAck .timeout, .send noAck notifyMips,
        .ack 0 p.sem 0, .finish 1 p' noAck .nothing] s ∧ 1 ∈ s.zero ∧ s.arrived = [0] := by
  obtain ⟨p, w₁, r, w₂, p', w₃, h₁, h₂, h₃, hsent, hsem⟩ := sendTwice_parts
  let s₁ := (AckSys.start mipsWorld).began p w₁
  let s₂ : AckSys := { s₁.returned 0 r w₂ with
    acks := update s₁.acks p.sem 0, pending := s₁.pending.filter (·.1 ≠ 0) }
  let s₃ := s₂.began p' w₃
  have hstep₁ : ackStep (.start mipsWorld) (.send noAck notifyMips) = .ret () s₁ := by
    simp only [ackStep, AckSys.start, h₁, Out.bind]
    rfl
  have hdown : semDownTimeout (s₁.acks p.sem) .timeout = some (eTime, 0) := rfl
  have hstep₂ : ackStep s₁ (.finish 0 p noAck .timeout) = .ret () s₂ := by
    have hw : s₁.w = w₁ := rfl
    simp only [ackStep, hdown, hw, h₂, Out.bind]
    rfl
  have hstep₃ : ackStep s₂ (.send noAck notifyMips) = .ret () s₃ := by
    have hw : s₂.w = w₂ := rfl
    simp only [ackStep, hw, h₃, Out.bind]
    rfl
  have hmem₁ : (0, p.sem) ∈ s₁.unacked := by
    simp [s₁, AckSys.began, AckSys.start, hsent]
  have hmem₃ : (0, p.sem) ∈ s₃.unacked := by
    simp only [s₃, AckSys.began]
    split
    · exact List.mem_cons_of_mem _ hmem₁
    · exact hmem₁
  obtain ⟨s, hr, hz, ha⟩ := finish_zero (p := p') (s := { s₃ with
      acks := update s₃.acks p.sem (semUp (s₃.acks p.sem))
      unacked := s₃.unacked.erase (0, p.sem)
      arrived := 0 :: s₃.arrived }) noAck (List.mem_cons_self ..) (by
        rw [hsem]
        simp [s₃, s₂, s₁, AckSys.began, AckSys.start, AckSys.returned, semUp])
  have hrun : Run ackStep AckPossible (.start mipsWorld)
      [.send noAck notifyMips, .finish 0 p noAck .timeout, .send noAck notifyMips,
        .ack 0 p.sem 0, .finish 1 p' noAck .nothing] s :=
    .cons trivial hstep₁ (.cons (List.mem_cons_self ..) hstep₂ (.cons trivial hstep₃
      (.cons hmem₃ rfl (hr.mono fun _ _ h => h.1))))
  exact ⟨p, p', s, hrun, hz, ha⟩

end H713.Proto
