import H713.Proto.Send

/-!
# Proto.Release

What `SendComm2CPUEx` gives back when it fails. Once a call slot is in hand every exit clears the cache and none
puts the slot back.
-/

namespace H713.Proto

open Function
open Bytes

def available (w : World) (dst dir : Nat) : List Nat :=
  (if w.cache dst dir = 0 then [] else [w.cache dst dir]) ++ (w.shareW dst dir).freeCall

/-- The wait entry is free again and, unless the message went out, as many call slots are to be had. -/
structure Clean (w w' : World) (r : Sent) : Prop where
  wait : ∀ dst a, r.wait = some (dst, a) → a ∈ (w'.sock dst).freeWait ∧ a ∉ (w'.sock dst).waitList
  slots : r.dispatched = false → ∀ dst dir, (available w' dst dir).Perm (available w dst dir)

structure Reaches (w : World) (e : Env) (a : Args) (dst : Nat) (routine : Option Buf) : Prop where
  resolved : resolve w e a = .ok dst routine
  cpu : dst ≤ 1
  running : e.reset = false
  sem : 0 < (w.sock dst).sendSem a.target
  stillRunning : e.resetAgain = false
  ready : e.appReady = true

variable {w w' w₂ : World} {e : Env} {a : Args} {r : Sent} {dir dst slot : Nat} {b : Buf} {routine : Option Buf}
  {wait : Option Nat}

theorem resolve_fail {c : Int} (h : resolve w e a = .fail c) : c ≠ 0 := by
  simp only [resolve] at h
  split at h
  · cases h
    simp [eFault]
  split at h
  · split at h
    · cases h
    split at h
    · cases h
      simp
    · cases h
  · cases h

theorem sendBegin_inv {x : Sent ⊕ Pending} (h : sendBegin w e a = .ret x w') : a.target ≤ 1 ∧
    ((∃ c, c ≠ 0 ∧ x = .inl ⟨c, a.msg, false, none⟩ ∧ (∀ dst routine, ¬ Reaches w e a dst routine) ∧
      (w' = w ∨ ∃ dst ≤ 1, (w.sock dst).sendSem a.target ≠ 0 ∧
        w' = upSend (downSend w dst a.target) dst a.target)) ∨ ∃ dst routine slot w₂, Reaches w e a dst routine ∧
      takeSlot (downSend w dst a.target) dst a.target = .got slot w₂ ∧
      sendFrom w₂ e a dst routine slot = .ret x w') := by
  simp only [sendBegin] at h
  split at h
  · cases h
  rename_i htarget
  refine ⟨Nat.not_lt.mp htarget, ?_⟩
  split at h
  · cases h
  · rename_i hres
    cases h
    refine .inl ⟨_, resolve_fail hres, rfl, fun dst routine hc => ?_, .inl rfl⟩
    rw [hc.resolved] at hres
    cases hres
  · rename_i dst routine hres
    have hdst : ∀ d ro, Reaches w e a d ro → Reaches w e a dst routine := by
      intro d ro hc
      have := hc.resolved
      rw [hres] at this
      cases this
      exact hc
    split at h
    · rename_i hreset
      cases h
      refine .inl ⟨_, by decide, rfl, fun d ro hc => ?_, .inl rfl⟩
      rw [hc.running] at hreset
      cases hreset.2
    split at h
    · rename_i hbig
      cases h
      exact .inl ⟨_, by decide, rfl, fun d ro hc => Nat.not_lt.mpr (hdst d ro hc).cpu hbig, .inl rfl⟩
    rename_i hreset hbig
    split at h
    · rename_i hzero
      split at h
      · cases h
        exact .inl ⟨_, by decide, rfl, fun d ro hc => (hdst d ro hc).sem.ne' hzero, .inl rfl⟩
      · cases h
    rename_i hsem
    have hup : w' = upSend (downSend w dst a.target) dst a.target →
        w' = w ∨ ∃ dst ≤ 1, (w.sock dst).sendSem a.target ≠ 0 ∧ w' = upSend (downSend w dst a.target) dst a.target :=
      fun hw => .inr ⟨dst, Nat.not_lt.mp hbig, hsem, hw⟩
    split at h
    · rename_i hagain
      cases h
      refine .inl ⟨_, by decide, rfl, fun d ro hc => ?_, hup rfl⟩
      rw [hc.stillRunning] at hagain
      cases hagain
    split at h
    · rename_i hready
      cases h
      exact .inl ⟨_, by decide, rfl, fun d ro hc => hready hc.ready, hup rfl⟩
    split at h
    · cases h
    · cases h
    · rename_i hagain hready _ slot w₂ hslot
      refine .inr ⟨dst, routine, slot, w₂, ⟨hres, by omega, ?_, by omega, by simpa using hagain,
        by simpa using hready⟩, hslot, h⟩
      cases hb : e.reset with
      | false => rfl
      | true => exact absurd ⟨by omega, hb⟩ hreset

theorem send_cases (h : sendComm2CPUEx w e a = .ret r w') :
    ((∀ dst routine, ¬ Reaches w e a dst routine) ∧ r.ret ≠ 0 ∧ Clean w w' r) ∨
    ∃ dst routine slot w₂ x v, Reaches w e a dst routine ∧
      takeSlot (downSend w dst a.target) dst a.target = .got slot w₂ ∧
      sendFrom w₂ e a dst routine slot = .ret x v ∧ sendRest e x v = .ret r w' := by
  obtain ⟨x, v, hx, hrest⟩ := Out.bind_eq_ret h
  obtain ⟨-, ⟨c, hc, rfl, hno, hv⟩ | ⟨dst, routine, slot, w₂, hreach, hslot, hfrom⟩⟩ := sendBegin_inv hx
  · cases hrest
    refine .inl ⟨hno, hc, fun dst x hx => (by cases hx), fun _ dst dir => ?_⟩
    obtain rfl | ⟨d, -, -, rfl⟩ := hv <;> exact .refl _
  · exact .inr ⟨dst, routine, slot, w₂, x, v, hreach, hslot, hfrom, hrest⟩

def firstSlot (w : World) (dst dir : Nat) : Nat :=
  if w.cache dst dir ≠ 0 then w.cache dst dir else (w.shareW dst dir).freeCall.headD 0

structure Taken (w : World) (dst dir slot : Nat) (w₂ : World) : Prop where
  first : slot = firstSlot w dst dir
  avail : available w dst dir = slot :: (w₂.shareW dst dir).freeCall
  sock : w₂.sock = w.sock
  session : w₂.callSessionId = w.callSessionId
  remote : (w₂.shareW dst dir).remoteCpu = (w.shareW dst dir).remoteCpu
  direction : (w₂.shareW dst dir).direction = (w.shareW dst dir).direction
  index : rd (w₂.calls slot) 4 2 = rd (w.calls slot) 4 2

theorem takeSlot_taken (h : takeSlot w dst dir = .got slot w₂) : Taken w dst dir slot w₂ := by
  simp only [takeSlot] at h
  split at h
  · cases h
  split at h
  · rename_i hcache
    cases h
    exact ⟨by simp [firstSlot, hcache], by simp [available, hcache], rfl, rfl, rfl, rfl, rfl⟩
  · rename_i hcache
    rw [not_not] at hcache
    cases hg : commGetFreeCall w dst dir with
    | bug | spin => rw [hg] at h; cases h
    | got a v =>
      rw [hg] at h
      cases h
      simp only [commGetFreeCall] at hg
      split at hg
      · cases hg
      rename_i a rest hfree
      split at hg
      · cases hg
      split at hg
      · cases hg
      · cases hg
        refine ⟨by simp [firstSlot, hcache, hfree], ?_, rfl, rfl, ?_, ?_, ?_⟩
        · simp [available, hcache, hfree, World.setCache, World.setShareW, World.setCall]
        · simp [World.setCache, World.setShareW, World.setCall]
        · simp [World.setCache, World.setShareW, World.setCall]
        · simp only [World.setCache, World.setShareW, World.setCall, update_self]
          exact rd_wr_of_disjoint (by omega)

theorem rd_forwardFields (b : Buf) (routine : Option Buf) (session pid : Nat) {off n : Nat}
    (h : 4 ≤ off) (h' : off + n ≤ 12) : rd (forwardFields b routine session pid) off n = rd b off n := by
  cases routine <;> simp (disch := omega) only [forwardFields, routeFields, rd_wr_of_disjoint]

theorem rd_waitFields (b : Buf) (session wait : Nat) {off n : Nat} (h : off + n ≤ 32) :
    rd (waitFields b session wait) off n = rd b off n := by
  simp only [waitFields]
  split <;> simp (disch := omega) only [rd_wr_of_disjoint]

theorem rd_copyIn_index (slot msg : Buf) (target : Nat) : rd (copyIn slot msg target) 4 2 = rd slot 4 2 := by
  simp only [copyIn]
  rw [rd_wr_of_disjoint (by omega), rd_wr_same]
  exact Nat.mod_eq_of_lt (rd_lt slot 4 2)

theorem rd_copyIn_flags (slot msg : Buf) (target : Nat) : rd (copyIn slot msg target) 6 2 = rd msg 6 2 := by
  simp only [copyIn]
  rw [rd_wr_of_disjoint (by omega), rd_wr_of_disjoint (by omega), rd_cpy_of_mem (by omega) (by omega)]

theorem isNotify_congr {b' : Buf} (h : rd b 6 2 = rd b' 6 2) : isNotify b = isNotify b' := by
  simp only [isNotify, h]

def waitTaken (w : World) (dst dir : Nat) (msg : Buf) : Option Nat :=
  if (w.shareW dst dir).direction = 0 ∧ isNotify msg = false then
    (takeFreeWait (w.sock dst).freeWait).map Prod.fst
  else none

def TookWait (s s' : Socket) (session pid : Nat) : Option Nat → Prop
  | none => s'.freeWait = s.freeWait ∧ s'.waitList = s.waitList ∧ s'.waits = s.waits
  | some a => ∃ rest, takeFreeWait s.freeWait = some (a, rest) ∧ s'.freeWait = rest ∧
      s'.waitList = s.waitList ++ [a] ∧ s'.waits = update s.waits a ⟨session, pid⟩

structure SockStep (w w' : World) (e : Env) (dst session : Nat) (wait : Option Nat) : Prop where
  others : ∀ d ≠ dst, w'.sock d = w.sock d
  base : (w'.sock dst).base = (w.sock dst).base
  took : TookWait (w.sock dst) (w'.sock dst) session e.pid wait
  fresh : wait ≠ none → session = newSession e.cur w.callSessionId

theorem SockStep.refl (w : World) (e : Env) (dst session : Nat) : SockStep w w e dst session none :=
  ⟨fun _ _ => rfl, rfl, ⟨rfl, rfl, rfl⟩, fun h => absurd rfl h⟩

structure FilledAs (w : World) (e : Env) (dst dir : Nat) (msg b : Buf) (w₃ : World) (b₃ : Buf)
    (session : Nat) (wait : Option Nat) : Prop where
  sock : SockStep w w₃ e dst session wait
  sendSem : (w₃.sock dst).sendSem = (w.sock dst).sendSem
  shareW : w₃.shareW = w.shareW
  index : rd b₃ 4 2 = rd b 4 2
  wait_eq : wait = waitTaken w dst dir msg

theorem FilledAs.list {w₃ : World} {msg b₃ : Buf} {session x : Nat}
    (h : FilledAs w e dst dir msg b w₃ b₃ session (some x)) :
    (w₃.sock dst).waitList = (w.sock dst).waitList ++ [x] ∧
      (w₃.sock dst).waits = update (w.sock dst).waits x ⟨session, e.pid⟩ ∧
      session = newSession e.cur w.callSessionId := by
  obtain ⟨rest, -, -, hlist, hwaits⟩ := h.sock.took
  exact ⟨hlist, hwaits, h.sock.fresh (by simp)⟩

theorem fill_filledAs {w₃ : World} {msg b₃ : Buf} {session : Nat} (hflags : rd b 6 2 = rd msg 6 2)
    (h : fill w e dst dir b routine = .ok w₃ b₃ session wait) : FilledAs w e dst dir msg b w₃ b₃ session wait := by
  simp only [fill] at h
  split at h
  · rename_i hdir
    have hnotify : ∀ s p, isNotify (forwardFields b routine s p) = isNotify msg := fun s p =>
      isNotify_congr ((rd_forwardFields b routine s p (by omega) (by omega)).trans hflags)
    simp only [fillForward, hnotify] at h
    split at h
    · rename_i hn
      cases h
      refine ⟨⟨fun _ _ => rfl, rfl, ⟨rfl, rfl, rfl⟩, fun h => absurd rfl h⟩, rfl, rfl, ?_, by simp [waitTaken, hn]⟩
      rw [rd_wr_of_disjoint (by omega), rd_forwardFields _ _ _ _ (by omega) (by omega)]
    · rename_i hn
      split at h
      · cases h
      · rename_i x rest htake
        split at h
        · cases h
        · rename_i s hadd
          cases h
          simp only [addtoWaitComm] at hadd
          split at hadd
          · cases hadd
          cases hadd
          refine ⟨⟨fun d hd => by simp [World.setSock, hd], ?_, ⟨rest, htake, ?_, ?_, ?_⟩, fun _ => rfl⟩,
            ?_, rfl, ?_, ?_⟩
          case refine_6 => rw [rd_waitFields _ _ _ (by omega), rd_forwardFields _ _ _ _ (by omega) (by omega)]
          case refine_7 => rw [waitTaken, if_pos ⟨hdir, by simpa using hn⟩, htake]; rfl
          all_goals simp [World.setSock]
  · rename_i hdir
    cases h
    exact ⟨SockStep.refl .., rfl, rfl, rfl, by simp [waitTaken, hdir]⟩

theorem not_mem_eraseP_concat {p : Nat → Bool} {l : List Nat} {x : Nat} (hx : p x = true) :
    x ∉ (l ++ [x]).eraseP p ↔ ∀ y ∈ l, p y = false := by
  constructor
  · intro hnot y hy
    by_contra hpy
    rw [Bool.not_eq_false] at hpy
    rw [List.eraseP_append_left hpy _ hy] at hnot
    exact hnot (by simp)
  · intro hnone
    rw [List.eraseP_append_right _ (by simpa using hnone)]
    intro hmem
    rcases List.mem_append.mp hmem with hl | hr
    · rw [hnone x hl] at hx
      cases hx
    · simp [List.eraseP_cons_of_pos hx] at hr

def DroppedWait (s s' : Socket) : Option Nat → Prop
  | none => s'.freeWait = s.freeWait ∧ s'.waitList = s.waitList
  | some a => s'.freeWait = s.freeWait ++ [a] ∧
      s'.waitList = s.waitList.eraseP fun y => (s.waits y).session = (s.waits a).session

theorem releaseWait_sock {s s₁ s₂ : Socket} {x : Nat} {signal : Bool}
    (hget : getWaitbySessionId s session signal = some s₁) (hrel : releaseWaitComm s₁ x signal = .ret () s₂) :
    s₂ = { s with
      freeWait := s.freeWait ++ [x]
      waitList := s.waitList.eraseP fun y => (s.waits y).session = session
      listSem := s₂.listSem
      releaseSem := s₂.releaseSem } := by
  simp only [getWaitbySessionId] at hget
  split at hget
  · cases hget
  obtain rfl := Option.some.inj hget
  simp only [releaseWaitComm] at hrel
  split at hrel
  · cases hrel
  split at hrel
  · cases hrel
  cases hrel
  rfl

theorem dropWait_sock (h : dropWait w e dst dir wait = .ret () w') :
    w'.shareW = w.shareW ∧ (∀ d ≠ dst, w'.sock d = w.sock d) ∧ (w'.sock dst).base = (w.sock dst).base ∧
      (w'.sock dst).sendSem = (w.sock dst).sendSem ∧ (w'.sock dst).waits = (w.sock dst).waits ∧
      DroppedWait (w.sock dst) (w'.sock dst) (if (w.shareW dst dir).direction ≠ 0 then none else wait) := by
  cases wait with
  | none =>
    cases h
    rw [ite_self]
    exact ⟨rfl, fun _ _ => rfl, rfl, rfl, rfl, rfl, rfl⟩
  | some x =>
    simp only [dropWait] at h
    split at h
    · rename_i hdir
      cases h
      rw [if_pos hdir]
      exact ⟨rfl, fun _ _ => rfl, rfl, rfl, rfl, rfl, rfl⟩
    · rename_i hdir
      rw [if_neg hdir]
      split at h
      · cases h
      rename_i s hget
      split at h
      · rename_i s' hrel
        cases h
        rw [releaseWait_sock hget hrel]
        refine ⟨rfl, fun d hd => ?_, ?_, ?_, ?_, ?_, ?_⟩ <;> simp [World.setSock, *]
      · cases h
      · cases h

theorem leave_sock (w : World) (dst dir : Nat) : (∀ d ≠ dst, (leave w dst dir).sock d = w.sock d) ∧
    (leave w dst dir).sock dst = { w.sock dst with
      sendSem := update (w.sock dst).sendSem dir (semUp ((w.sock dst).sendSem dir)) } := by
  refine ⟨fun d hd => ?_, ?_⟩
  · simp [leave, upSend, World.setSock, World.setCache, hd]
  · simp [leave, upSend, World.setSock, World.setCache]

def Accepted (w : World) (e : Env) (dst dir slot : Nat) : Prop :=
  (w.shareW dst dir).remoteCpu = e.cur ∧ (w.shareW dst dir).direction ≤ 1 ∧
    rd (w.calls slot) 4 2 < fifoDefaultCap

def NoClash (w : World) (e : Env) (dst x : Nat) : Prop :=
  ∀ y ∈ (w.sock dst).waitList,
    y ≠ x ∧ ((w.sock dst).waits y).session ≠ newSession e.cur w.callSessionId

/-- For a call that takes a slot and fails: no user copy faults, `SendCommLow` accepts the sequence, and no
session clashes on the wait list. -/
def Recovers (w : World) (e : Env) (a : Args) : Prop :=
  ∀ dst routine, Reaches w e a dst routine →
    (a.fromUser = true → e.copyFromFault = none ∧ e.copyToFault = none) ∧
    Accepted w e dst a.target (firstSlot w dst a.target) ∧
    ∀ x, waitTaken w dst a.target a.msg = some x → NoClash w e dst x

theorem sendCommLow_spec (cur : Nat) (q : ShareSeq) (slot type session sem : Nat) :
    ((sendCommLow cur q slot type session sem).1 = true ↔
      q.remoteCpu = cur ∧ q.direction ≤ 1 ∧ slot < fifoDefaultCap) ∧
    (sendCommLow cur q slot type session sem).2.freeCall = q.freeCall ∧
    (sendCommLow cur q slot type session sem).2.direction = q.direction := by
  simp only [sendCommLow]
  split
  · rename_i hne
    exact ⟨⟨fun h => (by cases h), fun h => absurd h.1 hne⟩, rfl, rfl⟩
  split
  · rename_i hbad
    refine ⟨⟨fun h => (by cases h), fun h => ?_⟩, rfl, rfl⟩
    omega
  · rename_i heq hok
    exact ⟨⟨fun _ => ⟨not_not.mp heq, by omega, by omega⟩, fun _ => rfl⟩, rfl, rfl⟩

structure SlotGone (w w' : World) (dst dir : Nat) : Prop where
  cache : w'.cache dst dir = 0
  freeCall : (w'.shareW dst dir).freeCall = (w.shareW dst dir).freeCall

theorem slotGone_leave {v : World} (h : (v.shareW dst dir).freeCall = (w.shareW dst dir).freeCall) :
    SlotGone w (leave v dst dir) dst dir :=
  ⟨by simp [leave, upSend, World.setCache, World.setSock], h⟩

structure FailedDispatch (w w' : World) (e : Env) (dst dir index : Nat) (wait : Option Nat) (r : Sent) :
    Prop where
  gone : SlotGone w w' dst dir
  sent : r.dispatched = true ↔
    (w.shareW dst dir).remoteCpu = e.cur ∧ (w.shareW dst dir).direction ≤ 1 ∧ index < fifoDefaultCap
  wait_eq : r.wait = wait.map fun x => (dst, x)
  released : ∀ x, wait = some x → (w.shareW dst dir).direction = 0 →
    x ∈ (w'.sock dst).freeWait ∧ (w'.sock dst).waitList = (w.sock dst).waitList.eraseP fun y =>
      ((w.sock dst).waits y).session = ((w.sock dst).waits x).session

theorem setShareW_shareW (w : World) (dst dir : Nat) (q : ShareSeq) :
    (w.setShareW dst dir q).shareW dst dir = q := by
  simp [World.setShareW]

theorem dispatch_failed {session : Nat} {msg : Buf}
    (h : (dispatch w e dst dir slot b session wait msg).bind (sendRest e) = .ret r w') (hr : r.ret ≠ 0) :
    FailedDispatch w w' e dst dir (rd b 4 2) wait r := by
  simp only [dispatch, Out.bind, sendRest, sendEnd, setShareW_shareW] at h
  obtain ⟨hsent, hfree, hdirq⟩ := sendCommLow_spec e.cur (w.shareW dst dir) (rd b 4 2) (msgType dir)
    session (ackSem (w.sock dst).base dir)
  split at h
  · cases h
    exact absurd rfl hr
  · split at h
    · rename_i u v hdrop
      cases h
      obtain ⟨hshare, -, -, -, -, hdd⟩ := dropWait_sock hdrop
      rw [setShareW_shareW] at hdd
      refine ⟨slotGone_leave ?_, hsent, rfl, fun x hx hdir => ?_⟩
      · rw [hshare, setShareW_shareW]
        exact hfree
      · subst hx
        split at hdd
        · rename_i hne
          exact absurd (hdirq.trans hdir) hne
        · rw [(leave_sock v dst dir).2]
          exact ⟨hdd.1 ▸ List.mem_append_right _ (List.mem_singleton.mpr rfl), hdd.2⟩
    · cases h
    · cases h

theorem FailedDispatch.of_setCall {index : Nat} (h : FailedDispatch (w.setCall slot b) w' e dst dir index wait r) :
    FailedDispatch w w' e dst dir index wait r :=
  ⟨⟨h.gone.cache, h.gone.freeCall⟩, h.sent, h.wait_eq, h.released⟩

inductive SlotOutcome (w w' : World) (e : Env) (a : Args) (dst : Nat) (routine : Option Buf) (slot : Nat) :
    Sent ⊕ Pending → Prop where
  | fault {v : World} {msg : Buf} {session : Nat} {wait : Option Nat} (hu : a.fromUser = true)
      (hf : e.copyFromFault ≠ none ∨ e.copyToFault ≠ none) (hw : w' = leave v dst a.target)
      (hshare : v.shareW = w.shareW) (hsock : SockStep w v e dst session wait)
      (hsem : (v.sock dst).sendSem = (w.sock dst).sendSem) :
      SlotOutcome w w' e a dst routine slot (.inl ⟨eFault, msg, false, wait.map fun x => (dst, x)⟩)
  | sent {x : Sent ⊕ Pending} {w₃ : World} {b₃ msg : Buf} {session : Nat} {wait : Option Nat}
      (hf : a.fromUser = true → e.copyFromFault = none ∧ e.copyToFault = none)
      (hfill : fill w e dst a.target (copyIn (w.calls slot) a.msg a.target) routine = .ok w₃ b₃ session wait)
      (hmsg : msg = if a.fromUser then cpy a.msg 0 b₃ 0 104 else a.msg)
      (hd : dispatch (w₃.setCall slot b₃) e dst a.target slot b₃ session wait msg = .ret x w') :
      SlotOutcome w w' e a dst routine slot x

theorem sendFrom_slot {x : Sent ⊕ Pending} (h : sendFrom w e a dst routine slot = .ret x w') :
    SlotOutcome w w' e a dst routine slot x := by
  simp only [sendFrom] at h
  split at h
  · rename_i b hu hfault
    cases h
    have hsock : SockStep w (w.setCall slot b) e dst 0 none :=
      ⟨fun _ _ => rfl, rfl, ⟨rfl, rfl, rfl⟩, fun h => absurd rfl h⟩
    have hf : e.copyFromFault ≠ none := by simp [hfault]
    have hshare : (w.setCall slot b).shareW = w.shareW := rfl
    exact .fault hu (.inl hf) rfl hshare hsock rfl
  · rename_i hno
    have hfrom : a.fromUser = true → e.copyFromFault = none := by
      intro hu
      cases hf : e.copyFromFault with
      | none => rfl
      | some b => exact (hno b hu hf).elim
    split at h
    · cases h
    split at h
    · cases h
    · rename_i w₃ b₃ session wait hfilled
      have hfill := fill_filledAs (rd_copyIn_flags _ _ _) hfilled
      split at h
      · rename_i m hu hto
        cases h
        exact .fault hu (.inr (by simp [hto])) rfl hfill.shareW
          ⟨hfill.sock.others, hfill.sock.base, hfill.sock.took, hfill.sock.fresh⟩ hfill.sendSem
      · rename_i hu hto
        exact .sent (fun _ => ⟨hfrom hu, hto⟩) hfilled (by rw [hu]; rfl) h
      · rename_i hu
        exact .sent (fun hu' => absurd (hu.symm.trans hu') (by decide)) hfilled (by rw [hu]; rfl) h

theorem SlotGone.not_perm (ht : Taken w dst dir slot w₂) (hg : SlotGone w₂ w' dst dir) :
    ¬ (available w' dst dir).Perm (available w dst dir) := by
  intro hp
  have hlen := hp.length_eq
  rw [ht.avail, available, if_pos hg.cache, hg.freeCall] at hlen
  simp at hlen

theorem clean_of_slot {x : Sent ⊕ Pending} {v : World} (ht : Taken w dst a.target slot w₂)
    (h : sendFrom w₂ e a dst routine slot = .ret x v) (hrest : sendRest e x v = .ret r w') (hr : r.ret ≠ 0) :
    Clean w w' r ↔ ((a.fromUser = true → e.copyFromFault = none ∧ e.copyToFault = none) ∧
      Accepted w e dst a.target slot ∧ ∀ x, waitTaken w dst a.target a.msg = some x → NoClash w e dst x) := by
  cases sendFrom_slot h with
  | fault hu hf hw hshare =>
    cases hrest
    constructor
    · intro hc
      have hgone : SlotGone w₂ w' dst a.target := hw ▸ slotGone_leave (by rw [hshare])
      exact absurd (hc.slots rfl dst a.target) (hgone.not_perm ht)
    · rintro ⟨hno, _⟩
      obtain ⟨h1, h2⟩ := hno hu
      exact (hf.elim (fun hf => hf h1) (fun hf => hf h2)).elim
  | @sent _ w₃ b₃ _ session wait hf hfilled _ hdispatch =>
    have hfill := fill_filledAs (rd_copyIn_flags _ _ _) hfilled
    have hd := (dispatch_failed ((Out.bind_of_ret hdispatch _).trans hrest) hr).of_setCall
    have hsent : r.dispatched = true ↔ Accepted w e dst a.target slot := by
      rw [hd.sent, hfill.shareW, hfill.index, rd_copyIn_index, ht.index, ht.remote, ht.direction]
      rfl
    have hwait : wait = waitTaken w dst a.target a.msg := by
      rw [hfill.wait_eq]
      simp only [waitTaken, ht.direction, ht.sock]
    have hgone : SlotGone w₂ w' dst a.target :=
      ⟨hd.gone.cache, by rw [hd.gone.freeCall, hfill.shareW]⟩
    -- the wait entry is off the list exactly when it is the first with its session
    have hclash : ∀ x, wait = some x →
        (x ∈ (w'.sock dst).freeWait ∧ (x ∉ (w'.sock dst).waitList ↔ NoClash w e dst x)) := by
      intro x hx
      have hdir : (w₃.shareW dst a.target).direction = 0 := by
        rw [hwait, waitTaken] at hx
        split at hx
        · rename_i hcond
          rw [hfill.shareW, ht.direction]
          exact hcond.1
        · cases hx
      obtain ⟨hin, hlist⟩ := hd.released x hx hdir
      subst hx
      obtain ⟨hold, hmem, hsession⟩ := hfill.list
      refine ⟨hin, ?_⟩
      rw [hlist, hold, hmem, not_mem_eraseP_concat (by simp), ht.sock]
      simp only [NoClash, update_self, hsession, ht.session, decide_eq_false_iff_not]
      refine forall_congr' fun y => imp_congr_right fun _ => ?_
      by_cases hyx : y = x
      · simp [hyx]
      · simp [hyx]
    constructor
    · intro hc
      have hdisp : r.dispatched = true := by
        by_contra hnot
        exact hgone.not_perm ht (hc.slots (by simpa using hnot) dst a.target)
      refine ⟨hf, hsent.mp hdisp, fun x hx => ?_⟩
      have hx' : wait = some x := hwait.trans hx
      exact (hclash x hx').2.mp (hc.wait dst x (by rw [hd.wait_eq, hx']; rfl)).2
    · rintro ⟨_, hacc, hno⟩
      refine ⟨fun dst' x hx => ?_, fun hfalse => ?_⟩
      · rw [hd.wait_eq] at hx
        obtain ⟨y, hy, hxy⟩ := Option.map_eq_some_iff.mp hx
        cases hxy
        obtain ⟨hin, hiff⟩ := hclash x hy
        exact ⟨hin, hiff.mpr (hno x (hwait ▸ hy))⟩
      · rw [hsent.mpr hacc] at hfalse
        cases hfalse

theorem clean_downSend : Clean (downSend w dst dir) w' r ↔ Clean w w' r :=
  ⟨fun h => ⟨h.wait, h.slots⟩, fun h => ⟨h.wait, h.slots⟩⟩

theorem waitTaken_downSend (w : World) (dst dir : Nat) (msg : Buf) :
    waitTaken (downSend w dst dir) dst dir msg = waitTaken w dst dir msg := by
  simp [waitTaken, downSend, World.setSock]

theorem noClash_downSend (w : World) (e : Env) (dst dir x : Nat) :
    NoClash (downSend w dst dir) e dst x ↔ NoClash w e dst x := by
  simp [NoClash, downSend, World.setSock]

/-- A call that fails leaves everything as it should exactly when no user copy faults after the slot
was taken, the sequence is one this CPU writes, and the wait list holds no entry with the new session
id. -/
theorem clean_iff_recovers {w w' : World} {e : Env} {a : Args} {r : Sent}
    (h : sendComm2CPUEx w e a = .ret r w') (hr : r.ret ≠ 0) : Clean w w' r ↔ Recovers w e a := by
  rcases send_cases h with ⟨hno, _, hclean⟩ | ⟨dst, routine, slot, w₂, x, v, hreach, hslot, hfrom, hrest⟩
  · exact ⟨fun _ dst routine hc => absurd hc (hno dst routine), fun _ => hclean⟩
  · have ht := takeSlot_taken hslot
    rw [← clean_downSend (w := w), clean_of_slot ht hfrom hrest hr, waitTaken_downSend]
    simp only [noClash_downSend]
    have hfirst : slot = firstSlot w dst a.target := ht.first
    constructor
    · intro hc d ro hreach'
      have hd := hreach.resolved.symm.trans hreach'.resolved
      cases hd
      exact hfirst ▸ hc
    · intro hc
      exact hfirst ▸ hc dst routine hreach

def idleWorld : World where
  rt := Routine.empty
  sock := fun cpu => ⟨0x2000 + 4992 * cpu, fun dir => if dir = 0 then 1 else 0, [], 1,
    (List.range 20).map fun i => 0x2000 + 4992 * cpu + 292 + 32 * i, 0, fun _ => ⟨0xffffffff, 0⟩⟩
  shareW := fun dst dir => ⟨0x8000 + 2440 * (2 * dst + dir), dst, 0, dir, 0, 0, 20, 0xffffffff, 0,
    ⟨0, 0, 0, 1, 21, 4, 0x3000⟩,
    (List.range 20).map fun j => 0x8000 + 2440 * (2 * dst + dir) + 360 + 104 * j⟩
  cache := fun _ _ => 0
  calls := fun a => wr (wr (fun _ => 0) 4 2 (((a - 0x8000) % 2440 - 360) / 104)) 12 4 0xffffffff
  callSessionId := 0

def mipsWorld : World :=
  { idleWorld with
    rt := (Routine.addInRoutine Routine.empty (wr (wr (fun _ => 0) 8 4 5) 2 2 1)).state?.getD Routine.empty }

def noAck : Env where
  cur := 0
  pid := 1
  signal := false
  getUserFault := false
  reset := false
  resetAgain := false
  appReady := true
  copyFromFault := none
  copyToFault := none
  ack := -62

def notifyMips : Args := ⟨wr (wr (fun _ => 0) 40 4 5) 6 2 1, 0, false⟩

theorem clean_iff_recovers_noAck : ∃ r w', sendComm2CPUEx mipsWorld noAck notifyMips = .ret r w' ∧
    r.ret ≠ 0 ∧ (Clean mipsWorld w' r ↔ Recovers mipsWorld noAck notifyMips) := by
  obtain ⟨r, w', hs, hr⟩ : ∃ r w', sendComm2CPUEx mipsWorld noAck notifyMips = .ret r w' ∧ r.ret = -62 :=
    Out.exists_of_test (by decide +kernel)
  have hne : r.ret ≠ 0 := by
    rw [hr]
    decide
  exact ⟨r, w', hs, hne, clean_iff_recovers hs hne⟩

def userCall : Args := ⟨wr (fun _ => 0) 40 4 5, 0, true⟩

theorem copy_fault_loses_slot : ¬ ∀ (w w' : World) (e : Env) (a : Args) (r : Sent),
    sendComm2CPUEx w e a = .ret r w' → r.ret ≠ 0 → Clean w w' r := by
  intro h
  obtain ⟨r, w', hs, hr, hsent, hfree⟩ : ∃ r w',
      sendComm2CPUEx mipsWorld { noAck with copyFromFault := some fun _ => 0 } userCall = .ret r w' ∧
        r.ret ≠ 0 ∧ r.dispatched = false ∧ (available w' 1 0).length = 19 :=
    Out.exists_of_test (by decide +kernel)
  have hlen := ((h _ _ _ _ _ hs hr).slots hsent 1 0).length_eq
  rw [hfree] at hlen
  exact absurd hlen (by decide)

end H713.Proto
