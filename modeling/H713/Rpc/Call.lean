import H713.Proto.Session

/-!
# Rpc.Call

One remote call from end to end, through `CPUComm_CallEx`, `SendComm2CPUEx` and `comm_CallWorkAction` of the peer
and back. The three functions disagree on where the parameter count and the result count are.
-/

namespace H713.Rpc

open Bytes Proto

/-- `msg`, sent from a kernel buffer, becomes the contents `got` of the call slot. -/
def Carried (w : World) (e : Env) (msg : Buf) (target : Nat) (got : Buf) : Prop :=
  ∃ dst routine r w', resolve w e ⟨msg, target, false⟩ = .ok dst routine ∧
    sendComm2CPUEx w e ⟨msg, target, false⟩ = .ret r w' ∧ r.ret = 0 ∧
    got = w'.calls (firstSlot w dst target)

def slotIndex (w : World) (e : Env) (msg : Buf) (target : Nat) : Nat :=
  match resolve w e ⟨msg, target, false⟩ with
  | .ok dst _ => rd (w.calls (firstSlot w dst target)) 4 2
  | _ => 0

def Payload (off n : Nat) : Prop := (6 ≤ off ∧ off + n ≤ 10) ∨ (40 ≤ off ∧ off + n ≤ 104)

theorem rd_copyIn_payload (slot msg : Buf) (target : Nat) {off n : Nat} (h : Payload off n) :
    rd (copyIn slot msg target) off n = rd msg off n := by
  simp only [Payload] at h
  simp only [copyIn]
  rw [rd_wr_of_disjoint (by omega), rd_wr_of_disjoint (by omega), rd_cpy_of_mem (by omega) (by omega)]
  simp

theorem rd_forwardFields_payload (b : Buf) (routine : Option Buf) (session pid : Nat) {off n : Nat}
    (h : Payload off n) : rd (forwardFields b routine session pid) off n = rd b off n := by
  simp only [Payload] at h
  cases routine <;> simp (disch := omega) only [forwardFields, routeFields, rd_wr_of_disjoint]

theorem fill_payload {w w₃ : World} {e : Env} {dst dir : Nat} {b b₃ : Buf} {routine : Option Buf}
    {session : Nat} {wait : Option Nat} {off n : Nat} (hack : (rd b 6 2).testBit 1 = false)
    (h : fill w e dst dir b routine = .ok w₃ b₃ session wait) (hp : Payload off n) : rd b₃ off n = rd b off n := by
  have hp' := hp
  simp only [Payload] at hp'
  simp only [fill] at h
  split at h
  · simp only [fillForward] at h
    split at h
    · cases h
      rw [rd_wr_of_disjoint (by omega), rd_forwardFields_payload _ _ _ _ hp]
    · split at h
      · cases h
      split at h
      · cases h
      · cases h
        simp only [waitFields]
        rw [rd_wr_of_disjoint (by omega), rd_forwardFields_payload _ _ _ _ (.inl (by omega)), hack,
          if_neg (by simp), rd_wr_of_disjoint (by omega), rd_forwardFields_payload _ _ _ _ hp]
  · cases h
    rfl

structure Arrived (index : Nat) (msg got : Buf) : Prop where
  index_eq : rd got 4 2 = index
  payload : ∀ off n, Payload off n → rd got off n = rd msg off n

theorem Carried.arrived {w : World} {e : Env} {msg got : Buf} {target : Nat}
    (hack : (rd msg 6 2).testBit 1 = false) (h : Carried w e msg target got) :
    Arrived (slotIndex w e msg target) msg got := by
  obtain ⟨dst, routine, r, w', hres, hsend, hr, rfl⟩ := h
  rcases send_cases hsend with ⟨_, hne, _⟩ | ⟨dst', routine', slot, w₂, x, v, hreach, hslot, hfrom, hrest⟩
  · exact absurd hr hne
  · have hsame := hres.symm.trans hreach.resolved
    cases hsame
    have htk := takeSlot_taken hslot
    have hfirst : slot = firstSlot w dst target := htk.first
    rw [← hfirst]
    have hindex : rd (w₂.calls slot) 4 2 = slotIndex w e msg target := by
      rw [htk.index, slotIndex, hres, hfirst]
      rfl
    cases sendFrom_slot hfrom with
    | fault hu => cases hu
    | @sent _ w₃ b₃ _ session wait hf hfilled hmsg hdispatch =>
      have hfill := fill_filledAs (rd_copyIn_flags _ _ _) hfilled
      have hkeep : ∀ off n, Payload off n → rd b₃ off n = rd msg off n := by
        intro off n hp
        rw [fill_payload (by rw [rd_copyIn_flags]; exact hack) hfilled hp, rd_copyIn_payload _ _ _ hp]
      obtain ⟨_, _, _, _, _, hcall⟩ := dispatch_ok ((Out.bind_of_ret hdispatch _).trans hrest) hr
      refine ⟨?_, fun off n hp => ?_⟩
      · rw [hcall, rd_wr_of_disjoint (by omega), hfill.index, rd_copyIn_index, hindex]
      · have hp' := hp
        simp only [Payload] at hp'
        rw [hcall, rd_wr_of_disjoint (by omega), hkeep off n hp]

def callExResult (ret : Buf) (result : Words) : Words :=
  if rd ret 8 2 ≠ 15 ∧ rd ret 8 2 ≤ 10 then fun i =>
    if i = 0 then rd ret 8 2
    else if i ≤ rd ret 8 2 then rd ret (44 + 4 * (i - 1)) 4
    else result i
  else result

/-- The array holds the count and the values. -/
def Delivers (count : Nat) (vals array : Words) : Prop :=
  array 0 = count ∧ ∀ i < count, array (i + 1) = vals i

def shifted (tgid count : Nat) (vals : Words) (s : Stack) (i : Nat) : Nat :=
  if i + 1 < 10 then payload tgid count vals (i + 1) else s.params10

theorem served_called {cur : Nat} {t : Routine.Table} {fns : Nat → Words → Words → Words} {call : Buf}
    {s : Stack} {fn : Nat} {params : Words} {reply : Option Buf}
    (h : commCallWorkAction cur t fns call s = .called fn params reply) : params = callParams call s ∧
      reply = if needsReply call then some (replyMsg call (fns fn params freshResult)) else none := by
  simp only [commCallWorkAction] at h
  split at h
  · cases h
  split at h
  · cases h
  split at h
  · cases h
  split at h
  · cases h
  split at h
  · cases h
  split at h
  · cases h
  · cases h
    exact ⟨rfl, rfl⟩

theorem needsReply_of_flags {b : Buf} (h : rd b 6 2 = 0) : needsReply b = true := by
  have hlow : (b 6).toNat = 0 := by
    simp only [rd] at h
    omega
  simp [needsReply, hlow]

section

variable {w : World} {e : Env} {compId tgid n : Nat} {vals : Words} {call : Buf}

theorem delivers_params (htgid : tgid < 2 ^ 32) (hvals : ∀ i, vals i < 2 ^ 32) (s : Stack)
    {index : Nat} (h : Arrived index (callExMsg compId tgid n vals) call) :
    Delivers n vals (callParams call s) ↔ (index = n ∧ ∀ i < n, shifted tgid n vals s i = vals i) := by
  have hword : ∀ i < n, callParams call s (i + 1) = shifted tgid n vals s i := by
    intro i hi
    simp only [callParams, shifted]
    rw [if_neg (by omega)]
    split
    · rw [h.payload _ _ (.inr ⟨by omega, by omega⟩), rd_callExMsg_word htgid hvals]
    · rfl
  have hcount : callParams call s 0 = index := h.index_eq
  simp only [Delivers, hcount]
  refine and_congr_right fun _ => forall_congr' fun i => ?_
  constructor
  · intro hd hi
    rw [← hword i hi]
    exact hd hi
  · intro hd hi
    rw [hword i hi]
    exact hd hi

theorem delivers_result {res old : Words} {index : Nat} {ret : Buf} (hn : n ≤ 10) (hcount : rd call 8 2 = n)
    (hm : res 0 ≤ 10) (hres : ∀ i, res i < 2 ^ 32) (h : Arrived index (replyMsg call res) ret) :
    Delivers (res 0) (fun i => res (i + 1)) (callExResult ret old) ↔ res 0 = n := by
  have hreply : replyMsg call res = wrWords (wr call 4 2 (res 0)) 44 (fun i => res (i + 1)) (res 0) := by
    simp only [replyMsg]
    rw [if_pos (by omega)]
    congr 1
    simp only [toI32]
    rw [if_pos (by omega)]
    omega
  have hgot : rd ret 8 2 = n := by
    rw [h.payload _ _ (.inl ⟨by omega, by omega⟩), hreply, rd_wrWords_of_disjoint _ _ _ _ (by omega),
      rd_wr_of_disjoint (by omega), hcount]
  simp only [callExResult, hgot]
  rw [if_pos (by omega)]
  simp only [Delivers, if_true]
  constructor
  · intro hd
    exact hd.1.symm
  · intro hmn
    refine ⟨hmn.symm, fun i hi => ?_⟩
    rw [if_neg (by omega), if_pos (by omega), h.payload _ _ (.inr ⟨by omega, by omega⟩), hreply,
      Nat.add_sub_cancel, rd_wrWords_word _ _ _ _ hi]
    exact Nat.mod_eq_of_lt (hres (i + 1))

end

/-- A served call is answered, and callback and caller both get what was sent exactly when the slot index is the
parameter count, dropping the first word leaves the payload as it is, and as many results come back as there were
parameters. -/
theorem round_trip_iff {w : World} {e : Env} {compId tgid n : Nat} {vals : Words} {call : Buf} {cur : Nat}
    {t : Routine.Table} {fns : Nat → Words → Words → Words} {s : Stack} {fn : Nat} {params res : Words}
    {reply : Option Buf} (hn : n ≤ 10) (htgid : tgid < 2 ^ 32) (hvals : ∀ i, vals i < 2 ^ 32)
    (hcall : Carried w e (callExMsg compId tgid n vals) 0 call)
    (hserved : commCallWorkAction cur t fns call s = .called fn params reply)
    (hback : fns fn params freshResult = res) (hm : res 0 ≤ 10) (hres : ∀ i, res i < 2 ^ 32) :
    ∃ msg, reply = some msg ∧ ∀ w₂ e₂ ret old, Carried w₂ e₂ msg 1 ret →
      ((Delivers n vals params ∧ Delivers (res 0) (fun i => res (i + 1)) (callExResult ret old)) ↔
        (slotIndex w e (callExMsg compId tgid n vals) 0 = n ∧
          (∀ i < n, shifted tgid n vals s i = vals i) ∧ res 0 = n)) := by
  have harr := hcall.arrived (by rw [rd_callExMsg_flags]; rfl)
  have hflags : rd call 6 2 = 0 :=
    (harr.payload _ _ (.inl ⟨by omega, by omega⟩)).trans rd_callExMsg_flags
  have hcount : rd call 8 2 = n :=
    (harr.payload _ _ (.inl ⟨by omega, by omega⟩)).trans (rd_callExMsg_count hn)
  obtain ⟨hparams, hreply⟩ := served_called hserved
  rw [needsReply_of_flags hflags, if_pos rfl, hback] at hreply
  refine ⟨_, hreply, fun w₂ e₂ ret old hret => ?_⟩
  have hreplyFlags : rd (replyMsg call res) 6 2 = 0 := by
    simp only [replyMsg]
    split
    · rw [rd_wrWords_of_disjoint _ _ _ _ (by omega), rd_wr_of_disjoint (by omega), hflags]
    · rw [rd_wr_of_disjoint (by omega), hflags]
  have harr' := hret.arrived (by rw [hreplyFlags]; rfl)
  rw [hparams, delivers_params htgid hvals s harr, delivers_result hn hcount hm hres harr', and_assoc]

def sharedTable : Routine.Table :=
  (Routine.addInRoutine Routine.empty (wr callbackDescriptor 0 2 7)).state?.getD Routine.empty

def sharedWorld : World := { idleWorld with rt := sharedTable }

def oneParam : Buf := callExMsg 5 100 1 fun _ => 7

def callbackStack : Stack := ⟨wr (fun _ => 0) 88 4 0x1000, 0⟩

def noResults : Nat → Words → Words → Words := fun _ _ _ _ => 0

theorem oneParam_served : ∃ call fn params reply, Carried sharedWorld acked oneParam 0 call ∧
    commCallWorkAction 0 sharedTable noResults call callbackStack = .called fn params reply ∧ params 0 = 0 := by
  have hret : (sendComm2CPUEx sharedWorld acked ⟨oneParam, 0, false⟩).value?.map
      Sent.ret = some 0 := by
    decide +kernel
  have hres : ∃ routine,
      resolve sharedWorld acked ⟨oneParam, 0, false⟩ = .ok 0 routine := by
    have hzero : (match resolve sharedWorld acked ⟨oneParam, 0, false⟩ with
        | .ok dst _ => some dst
        | _ => none) = some 0 := by
      decide +kernel
    split at hzero
    · rename_i routine hok
      cases hzero
      exact ⟨routine, hok⟩
    · cases hzero
  have hinv : ((sendComm2CPUEx sharedWorld acked ⟨oneParam, 0, false⟩).state?.map
      fun w' => (commCallWorkAction 0 sharedTable noResults (w'.calls 0x8168) callbackStack).invoked) =
      some (some 0x1000) := by
    decide +kernel
  obtain ⟨routine, hok⟩ := hres
  cases hs : sendComm2CPUEx sharedWorld acked ⟨oneParam, 0, false⟩ with
  | bug | spin => rw [hs] at hret; cases hret
  | ret r w' =>
    rw [hs] at hret hinv
    have hcarried : Carried sharedWorld acked oneParam 0 (w'.calls 0x8168) :=
      ⟨0, routine, r, w', hok, hs, Option.some.inj hret, congrArg w'.calls (by decide)⟩
    have hinvoked : (commCallWorkAction 0 sharedTable noResults (w'.calls 0x8168) callbackStack).invoked =
        some 0x1000 := Option.some.inj hinv
    cases hc : commCallWorkAction 0 sharedTable noResults (w'.calls 0x8168) callbackStack with
    | called fn params reply =>
      refine ⟨_, fn, params, reply, hcarried, hc, ?_⟩
      have harr := hcarried.arrived (by rw [oneParam, rd_callExMsg_flags]; rfl)
      rw [(served_called hc).1]
      have hindex : slotIndex sharedWorld acked oneParam 0 = 0 := by
        simp only [slotIndex, hok]
        decide
      exact harr.index_eq.trans hindex
    | bug => rw [hc] at hinvoked; cases hinvoked
    | spin => rw [hc] at hinvoked; cases hinvoked
    | noRoutine => rw [hc] at hinvoked; cases hinvoked
    | noCallback => rw [hc] at hinvoked; cases hinvoked

theorem round_trip_iff_oneParam : ∃ call fn params reply msg,
    commCallWorkAction 0 sharedTable noResults call callbackStack = .called fn params reply ∧
    reply = some msg ∧ ∀ w₂ e₂ ret old, Carried w₂ e₂ msg 1 ret →
      ((Delivers 1 (fun _ => 7) params ∧ Delivers 0 (fun _ => 0) (callExResult ret old)) ↔
        (slotIndex sharedWorld acked oneParam 0 = 1 ∧
          (∀ i < 1, shifted 100 1 (fun _ => 7) callbackStack i = 7) ∧ 0 = 1)) := by
  obtain ⟨call, fn, params, reply, hcall, hserved, _⟩ := oneParam_served
  obtain ⟨msg, hmsg, hiff⟩ := round_trip_iff (by decide) (by decide) (fun _ => by decide) hcall hserved rfl
    (by simp [noResults]) (fun _ => by simp [noResults])
  exact ⟨call, fn, params, reply, msg, hserved, hmsg, hiff⟩

theorem parameter_lost : ¬ ∀ (w : World) (e : Env) (compId tgid n : Nat) (vals : Words) (call : Buf)
    (cur : Nat) (t : Routine.Table) (fns : Nat → Words → Words → Words) (s : Stack) (fn : Nat)
    (params res : Words) (reply : Option Buf), n ≤ 10 → tgid < 2 ^ 32 → (∀ i, vals i < 2 ^ 32) →
    Carried w e (callExMsg compId tgid n vals) 0 call →
    commCallWorkAction cur t fns call s = .called fn params reply →
    fns fn params freshResult = res → res 0 ≤ 10 → (∀ i, res i < 2 ^ 32) →
    Delivers n vals params ∧ ∃ msg, reply = some msg ∧ ∀ w₂ e₂ ret old, Carried w₂ e₂ msg 1 ret →
      Delivers (res 0) (fun i => res (i + 1)) (callExResult ret old) := by
  intro h
  obtain ⟨call, fn, params, reply, hcall, hserved, hzero⟩ := oneParam_served
  obtain ⟨⟨hone, _⟩, _⟩ := h _ _ _ _ _ _ _ _ _ _ _ _ _ _ _ (by decide) (by decide) (fun _ => by decide)
    hcall hserved rfl (by simp [noResults]) (fun _ => by simp [noResults])
  rw [hzero] at hone
  cases hone

end H713.Rpc
