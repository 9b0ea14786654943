import H713.Proto.Release
import H713.Rpc.Message
import H713.Rpc.Worker

/-!
# Proto.Session

Whether the caller of `SendComm2CPUEx` can find its wait entry afterwards. A user buffer gets the slot copied back,
a kernel buffer does not, and `CPUComm_CallEx` sends a kernel buffer.
-/

namespace H713.Proto

open Function
open Bytes

/-- The caller's buffer names the CPU and the session under which its wait entry is found. -/
def Locates (w' : World) (r : Sent) : Prop :=
  ∃ x, r.wait = some (rd r.msg 2 2, x) ∧ rd r.msg 2 2 ≤ 1 ∧
    findWaitBySessionId (w'.sock (rd r.msg 2 2)) (rd r.msg 12 4) = some x

inductive CallSent where
  | failed (code : Int)
  | waitNotFound
  | waits (cpu entry : Nat)
  deriving DecidableEq

def callExSend (w : World) (e : Env) (compId tgid count : Nat) (vals : Nat → Nat) : Out World CallSent :=
  match sendComm2CPUEx w e ⟨Rpc.callExMsg compId tgid count vals, 0, false⟩ with
  | .bug => .bug
  | .spin => .spin
  | .ret r w' =>
    if r.ret ≠ 0 then .ret (.failed r.ret) w'
    else
      match findWaitBySessionId (w'.sock (rd r.msg 2 2)) (rd r.msg 12 4) with
      | none => .ret .waitNotFound w'
      | some x => .ret (.waits (rd r.msg 2 2) x) w'

structure Succeeded (w w' : World) (e : Env) (a : Args) (dst : Nat) (routine : Buf) (x : Nat) (r : Sent) :
    Prop where
  wait : r.wait = some (dst, x)
  list : (w'.sock dst).waitList = (w.sock dst).waitList ++ [x]
  waits : (w'.sock dst).waits =
    update (w.sock dst).waits x ⟨newSession e.cur w.callSessionId, e.pid⟩
  user : a.fromUser = true → rd r.msg 2 2 = rd routine 2 2 ∧
    rd r.msg 12 4 = newSession e.cur w.callSessionId % 2 ^ 32
  kernel : a.fromUser = false → r.msg = a.msg
  others : ∀ d ≠ dst, w'.sock d = w.sock d

variable {w w' : World} {e : Env} {dst slot x : Nat} {routine : Buf} {r : Sent} {a : Args}

theorem fill_fields {w₃ : World} {dir : Nat} {b b₃ : Buf} {session : Nat} {wait : Option Nat}
    (hdir : (w.shareW dst dir).direction = 0) (h : fill w e dst dir b (some routine) = .ok w₃ b₃ session wait) :
    rd b₃ 2 2 = rd routine 2 2 ∧ rd b₃ 12 4 = newSession e.cur w.callSessionId % 2 ^ 32 := by
  have hfwd : ∀ s p, rd (forwardFields b (some routine) s p) 2 2 = rd routine 2 2 ∧
      rd (forwardFields b (some routine) s p) 12 4 = s % 2 ^ 32 := by
    intro s p
    simp only [forwardFields, routeFields]
    refine ⟨?_, ?_⟩
    · rw [rd_wr_of_disjoint (by omega), rd_wr_of_disjoint (by omega), rd_wr_of_disjoint (by omega),
        rd_wr_of_disjoint (by omega), rd_wr_same]
      exact Nat.mod_eq_of_lt (rd_lt routine 2 2)
    · rw [rd_wr_of_disjoint (by omega), rd_wr_same]
      rfl
  simp only [fill, hdir, if_true, fillForward] at h
  split at h
  · cases h
    rw [rd_wr_of_disjoint (by omega), rd_wr_of_disjoint (by omega)]
    exact hfwd _ _
  · split at h
    · cases h
    split at h
    · cases h
    · cases h
      rw [rd_waitFields _ _ _ (by omega), rd_waitFields _ _ _ (by omega)]
      exact hfwd _ _

theorem dispatch_ok {dir session : Nat} {b msg : Buf} {wait : Option Nat}
    (h : (dispatch w e dst dir slot b session wait msg).bind (sendRest e) = .ret r w') (hr : r.ret = 0) :
    r.msg = msg ∧ r.wait = wait.map (fun x => (dst, x)) ∧
      (w'.sock dst).waitList = (w.sock dst).waitList ∧ (w'.sock dst).waits = (w.sock dst).waits ∧
      (∀ d ≠ dst, w'.sock d = w.sock d) ∧ w'.calls slot = wr b 10 2 (rd b 10 2 ||| 4) := by
  simp only [dispatch, Out.bind, sendRest, sendEnd] at h
  split at h
  · cases h
    simp +contextual [leave, upSend, World.setSock, World.setCache, World.setShareW, World.setCall]
  · rename_i hack
    split at h
    · cases h
      exact absurd hr hack
    · cases h
    · cases h

theorem sendFrom_succeeded {y : Sent ⊕ Pending} {v : World} (hdir : (w.shareW dst a.target).direction = 0)
    (hn : isNotify a.msg = false) (h : sendFrom w e a dst (some routine) slot = .ret y v)
    (hrest : sendRest e y v = .ret r w') (hr : r.ret = 0) :
    ∃ x, waitTaken w dst a.target a.msg = some x ∧ Succeeded w w' e a dst routine x r := by
  cases sendFrom_slot h with
  | fault =>
    cases hrest
    simp [eFault] at hr
  | @sent _ w₃ b₃ _ session wait hf hfilled hmsg hdispatch =>
    have hfill := fill_filledAs (rd_copyIn_flags _ _ _) hfilled
    have hfields := fill_fields hdir hfilled
    have hsome : ∃ x, wait = some x := by
      rw [hfill.wait_eq, waitTaken, if_pos ⟨hdir, hn⟩]
      simp only [fill, hdir, if_true, fillForward] at hfilled
      rw [isNotify_congr ((rd_forwardFields _ _ _ _ (by omega) (by omega)).trans
        (rd_copyIn_flags _ _ _)), hn] at hfilled
      simp only [Bool.false_eq_true, if_false] at hfilled
      split at hfilled
      · cases hfilled
      · rename_i x rest htake
        exact ⟨x, by rw [htake]; rfl⟩
    obtain ⟨x, rfl⟩ := hsome
    obtain ⟨hlist, hwaits, hsession⟩ := hfill.list
    obtain ⟨hm, hwait, hl, hw, ho, _⟩ := dispatch_ok ((Out.bind_of_ret hdispatch _).trans hrest) hr
    refine ⟨x, hfill.wait_eq.symm, hwait, hl.trans hlist, hw.trans (hwaits.trans (by rw [hsession])),
      fun hu => ?_, fun hk => ?_, fun d hd => (ho d hd).trans (hfill.sock.others d hd)⟩
    · rw [hm, hmsg, if_pos hu, rd_cpy_of_mem (by omega) (by omega), rd_cpy_of_mem (by omega) (by omega)]
      exact hfields
    · rw [hm, hmsg, hk]
      rfl

theorem resolve_routine {routine : Option Buf} (ht : a.target = 0) (h : resolve w e a = .ok dst routine) :
    ∃ buf, routine = some buf ∧ rd buf 2 1 = dst := by
  simp only [resolve, ht, if_true] at h
  split at h
  · cases h
  split at h
  · cases h
  split at h
  · cases h
  · cases h
    exact ⟨_, rfl, rfl⟩

theorem Succeeded.of_taken {w₂ : World} (ht : Taken (downSend w dst 0) dst 0 slot w₂)
    (hs : Succeeded w₂ w' e a dst routine x r) : Succeeded w w' e a dst routine x r where
  wait := hs.wait
  list := by
    rw [hs.list, ht.sock]
    simp [downSend, World.setSock]
  waits := by
    rw [hs.waits, ht.session, ht.sock]
    simp [downSend, World.setSock]
  user := fun hu => by
    have huser := hs.user hu
    rw [ht.session] at huser
    exact huser
  kernel := hs.kernel
  others := fun d hd => by
    rw [hs.others d hd, ht.sock]
    simp [downSend, World.setSock, hd]

theorem send_succeeded (ht : a.target = 0) (hdir : ∀ dst ≤ 1, (w.shareW dst 0).direction = 0)
    (hn : isNotify a.msg = false) (h : sendComm2CPUEx w e a = .ret r w') (hr : r.ret = 0) :
    ∃ dst routine x, resolve w e a = .ok dst (some routine) ∧ dst ≤ 1 ∧ rd routine 2 1 = dst ∧
      waitTaken w dst 0 a.msg = some x ∧ Succeeded w w' e a dst routine x r := by
  rcases send_cases h with ⟨_, hne, _⟩ | ⟨dst, routine, slot, w₂, y, v, hreach, hslot, hfrom, hrest⟩
  · exact absurd hr hne
  · obtain ⟨buf, rfl, hbyte⟩ := resolve_routine ht hreach.resolved
    have htk := takeSlot_taken hslot
    rw [ht] at htk
    have hd : (w₂.shareW dst a.target).direction = 0 := by
      rw [ht, htk.direction]
      exact hdir dst hreach.cpu
    obtain ⟨x, hx, hs⟩ := sendFrom_succeeded hd hn hfrom hrest hr
    refine ⟨dst, buf, x, hreach.resolved, hreach.cpu, hbyte, ?_, hs.of_taken htk⟩
    rw [← waitTaken_downSend, ← hx, ht]
    simp only [waitTaken, htk.direction, htk.sock]

def FindsOwn (w : World) (e : Env) (dst x : Nat) : Prop :=
  ∀ y, (w.sock dst).waitList.find? (fun y =>
    y = x ∨ ((w.sock dst).waits y).session = newSession e.cur w.callSessionId) = some y → y = x

/-- A user buffer and a routine of CPU 0 or 1, or a kernel buffer that names the CPU and the new session;
no other entry of that session in front. -/
def Located (w : World) (e : Env) (a : Args) : Prop :=
  ∀ dst routine x, resolve w e a = .ok dst (some routine) → waitTaken w dst 0 a.msg = some x →
    FindsOwn w e dst x ∧
    if a.fromUser then rd routine 2 2 ≤ 1
    else rd a.msg 2 2 = dst ∧ rd a.msg 12 4 = newSession e.cur w.callSessionId

/-- No entry on CPU 0's list will have session 0 once the call has put its own there. -/
def NoneAtZero (w : World) (e : Env) (a : Args) : Prop :=
  ∀ dst routine x, resolve w e a = .ok dst (some routine) → waitTaken w dst 0 a.msg = some x →
    (dst = 0 → newSession e.cur w.callSessionId ≠ 0) ∧
    ∀ y ∈ (w.sock 0).waitList, ¬ (dst = 0 ∧ y = x) → ((w.sock 0).waits y).session ≠ 0

theorem forall_resolved {P : Nat → Buf → Nat → Prop} (hres : resolve w e a = .ok dst (some routine))
    (hx : waitTaken w dst 0 a.msg = some x) :
    (∀ d ro y, resolve w e a = .ok d (some ro) → waitTaken w d 0 a.msg = some y → P d ro y) ↔ P dst routine x := by
  constructor
  · intro h
    exact h dst routine x hres hx
  · intro h d ro y hres' hy
    rw [hres] at hres'
    cases hres'
    rw [hx] at hy
    cases hy
    exact h

theorem find?_concat_eq {p : Nat → Bool} {l : List Nat} (hx : p x = true) :
    (l ++ [x]).find? p = some x ↔ ∀ y, l.find? p = some y → y = x := by
  rw [List.find?_append]
  cases hl : l.find? p with
  | none => simp [hx]
  | some z => simp

theorem newSession_lt {cur s : Nat} (h : cur ≤ 1) : newSession cur s < 2 ^ 32 := by
  simp only [newSession]
  have := Nat.mod_lt (s + 1) (show 0 < 2 ^ 30 by decide)
  omega

section

variable {w w' : World} {e : Env} {a : Args} {dst x : Nat} {routine : Buf} {r : Sent}

section

variable (hs : Succeeded w w' e a dst routine x r)

include hs

theorem find_new :
    findWaitBySessionId (w'.sock dst) (newSession e.cur w.callSessionId) = some x ↔ FindsOwn w e dst x := by
  simp only [findWaitBySessionId, hs.list, hs.waits, FindsOwn]
  rw [find?_concat_eq (by simp)]
  have hp : (fun y => decide ((update (w.sock dst).waits x
      ⟨newSession e.cur w.callSessionId, e.pid⟩ y).session = newSession e.cur w.callSessionId)) =
      fun y => decide (y = x ∨ ((w.sock dst).waits y).session = newSession e.cur w.callSessionId) := by
    funext y
    by_cases hy : y = x <;> simp [hy]
  rw [hp]

theorem find_other {s : Nat} (hne : s ≠ newSession e.cur w.callSessionId) :
    findWaitBySessionId (w'.sock dst) s ≠ some x := by
  intro hf
  have := List.find?_some hf
  rw [hs.waits] at this
  simp only [update_self, decide_eq_true_eq] at this
  exact hne this.symm

theorem find_zero : findWaitBySessionId (w'.sock 0) 0 = none ↔ ((dst = 0 → newSession e.cur w.callSessionId ≠ 0) ∧
        ∀ y ∈ (w.sock 0).waitList, ¬ (dst = 0 ∧ y = x) → ((w.sock 0).waits y).session ≠ 0) := by
  rw [findWaitBySessionId, List.find?_eq_none]
  by_cases hd : dst = 0
  · subst hd
    simp only [hs.list, hs.waits, List.mem_append, List.mem_singleton, decide_eq_true_eq]
    constructor
    · intro h
      refine ⟨fun _ => by simpa using h x (.inr rfl), fun y hy hne => ?_⟩
      have hyx : y ≠ x := fun hyx => hne ⟨trivial, hyx⟩
      simpa [hyx] using h y (.inl hy)
    · rintro ⟨hnew, hold⟩ y hy
      by_cases hyx : y = x
      · simpa [hyx] using hnew trivial
      · have hy : y ∈ (w.sock 0).waitList := hy.resolve_right hyx
        simpa [hyx] using hold y hy fun h => hyx h.2
  · rw [hs.others 0 (Ne.symm hd)]
    simp [hd]

end

end

/-- A call that somebody waits for returns 0: the caller's buffer leads to its wait entry exactly under `Located`,
and `CPUComm_CallEx`, whose buffer is a kernel one, ends in its `BUG()` exactly under `NoneAtZero`. -/
theorem located_iff {w w' : World} {e : Env} {a : Args} {r : Sent} (hcur : e.cur ≤ 1)
    (ht : a.target = 0) (hdir : ∀ dst ≤ 1, (w.shareW dst 0).direction = 0) (hn : isNotify a.msg = false)
    (h : sendComm2CPUEx w e a = .ret r w') (hr : r.ret = 0) : (Locates w' r ↔ Located w e a) ∧
    ∀ compId tgid count vals, a = ⟨Rpc.callExMsg compId tgid count vals, 0, false⟩ →
      (callExSend w e compId tgid count vals = .ret .waitNotFound w' ↔ NoneAtZero w e a) := by
  obtain ⟨dst, routine, x, hres, hle, hbyte, hx, hs⟩ := send_succeeded ht hdir hn h hr
  have hmod := Nat.mod_eq_of_lt (newSession_lt (s := w.callSessionId) hcur)
  have hloc : Locates w' r ↔ (rd r.msg 2 2 = dst ∧
      findWaitBySessionId (w'.sock dst) (rd r.msg 12 4) = some x) := by
    constructor
    · rintro ⟨y, hy, _, hf⟩
      rw [hs.wait] at hy
      cases hy
      exact ⟨rfl, hf⟩
    · rintro ⟨hd, hf⟩
      exact ⟨x, by rw [hd]; exact hs.wait, by omega, by rw [hd]; exact hf⟩
  refine ⟨?_, fun compId tgid count vals ha => ?_⟩
  · rw [hloc, Located, forall_resolved hres hx]
    cases hu : a.fromUser with
    | true =>
      obtain ⟨hcpu, hsession⟩ := hs.user hu
      rw [hcpu, hsession, hmod, find_new hs, if_pos rfl, and_comm]
      refine and_congr_right fun _ => ?_
      -- the routine's CPU is a `u16`, the destination its low byte
      have hsplit : rd routine 2 2 = rd routine 2 1 + 256 * rd routine 3 1 := by simp [rd]
      have hlow := rd_lt routine 2 1
      omega
    | false =>
      rw [hs.kernel hu, if_neg (by simp)]
      by_cases hsame : rd a.msg 12 4 = newSession e.cur w.callSessionId
      · rw [hsame, find_new hs]
        simp only [and_true]
        exact and_comm
      · simp [find_other hs hsame, hsame]
  · rw [NoneAtZero, forall_resolved hres hx, ← find_zero hs]
    have hmsg : r.msg = Rpc.callExMsg compId tgid count vals := by rw [hs.kernel (by rw [ha]), ha]
    have hz2 : rd r.msg 2 2 = 0 := by
      rw [hmsg]
      exact Rpc.rd_callExMsg_zero (by omega)
    have hz12 : rd r.msg 12 4 = 0 := by
      rw [hmsg]
      exact Rpc.rd_callExMsg_zero (by omega)
    rw [callExSend, ← ha, h]
    simp only [hr, hz2, hz12, ne_eq, not_true_eq_false, if_false]
    split
    · rename_i hnone
      exact ⟨fun _ => hnone, fun _ => rfl⟩
    · rename_i y hy
      rw [hy]
      exact ⟨fun hc => (by cases hc), fun hc => (by cases hc)⟩

def servedWorld : World :=
  { idleWorld with
    rt := (Routine.addInRoutine Routine.empty Rpc.callbackDescriptor).state?.getD Routine.empty }

def acked : Env := { noAck with ack := 0 }

def plainCall : Args := ⟨Rpc.callExMsg 5 100 0 fun _ => 0, 0, false⟩

theorem plainCall_sent : ∃ r w', sendComm2CPUEx servedWorld acked plainCall = .ret r w' ∧ r.ret = 0 ∧
    rd r.msg 12 4 = 0 := by
  have hret : (sendComm2CPUEx servedWorld acked plainCall).value?.map
      (fun r => (r.ret, rd r.msg 12 4)) = some (0, 0) := by
    decide +kernel
  cases hs : sendComm2CPUEx servedWorld acked plainCall with
  | ret r w' =>
    rw [hs] at hret
    have hpair := Option.some.inj hret
    exact ⟨r, w', rfl, congrArg Prod.fst hpair, congrArg Prod.snd hpair⟩
  | bug | spin => rw [hs] at hret; cases hret

theorem located_iff_plainCall : ∃ r w', sendComm2CPUEx servedWorld acked plainCall = .ret r w' ∧
    r.ret = 0 ∧ (Locates w' r ↔ Located servedWorld acked plainCall) := by
  obtain ⟨r, w', hs, hr, _⟩ := plainCall_sent
  exact ⟨r, w', hs, hr, (located_iff (by decide) rfl (fun _ _ => rfl) (by decide) hs hr).1⟩

theorem kernel_buffer_not_located : ¬ ∀ (w w' : World) (e : Env) (a : Args) (r : Sent), e.cur ≤ 1 →
    a.target = 0 → (∀ dst ≤ 1, (w.shareW dst 0).direction = 0) → isNotify a.msg = false →
    sendComm2CPUEx w e a = .ret r w' → r.ret = 0 → Locates w' r := by
  intro h
  obtain ⟨r, w', hs, hr, hz⟩ := plainCall_sent
  obtain ⟨x, hx, _, hf⟩ := h _ _ _ _ _ (by decide) rfl (fun _ _ => rfl) (by decide) hs hr
  obtain ⟨dst, routine, y, _, _, _, _, hsucc⟩ :=
    send_succeeded rfl (fun _ _ => rfl) (by decide) hs hr
  rw [hsucc.wait] at hx
  cases hx
  exact find_other hsucc (by rw [hz]; decide) hf

end H713.Proto
