import H713.Routine.Cleanup

/-!
# Rpc.Worker

`comm_CallWorkAction` (`cpu_comm_rpc.c`), the work item that serves an incoming call. `FindRoutineEx` does not write
bytes 88 to 95 of `routine_info`, where the callback is read, a pointer of the arm64 build. `Stack` is what the
locals held before. The release of the call slot, with the socket's semaphore 234, is left out.
-/

namespace H713.Rpc

open Bytes Routine

abbrev Words := Nat → Nat

structure Stack where
  routineInfo : Buf
  params10 : Nat

inductive Served where
  | bug
  | spin
  | noRoutine
  | noCallback
  | called (fn : Nat) (params : Words) (reply : Option Buf)

def Served.invoked : Served → Option Nat
  | .called fn _ _ => some fn
  | _ => none

def callParams (msg : Buf) (s : Stack) : Words := fun i =>
  if i = 0 then rd msg 4 2
  else if i < 10 then rd msg (44 + 4 * i) 4
  else s.params10

def freshResult : Words := fun i => if i = 0 then 15 else 0

def needsReply (msg : Buf) : Bool :=
  !((msg 6).toNat.testBit 0) || (msg 6).toNat.testBit 1

def replyMsg (msg : Buf) (result : Words) : Buf :=
  let m := wr msg 4 2 (result 0)
  if result 0 ≠ 15 then wrWords m 44 (fun i => result (i + 1)) (min (toI32 (result 0)).toNat 10)
  else m

def commCallWorkAction (cur : Nat) (t : Table) (fns : Nat → Words → Words → Words) (call : Buf)
    (s : Stack) : Served :=
  if rd call 0 2 ≤ 4 then .bug
  else if rd call 2 2 > 1 then .bug
  else
    match findRoutineEx t (rd call 40 4) s.routineInfo with
    | none => .spin
    | some (r, info) =>
      if r ≠ 0 then .noRoutine
      else if rd info 2 2 ≠ cur then .bug
      else
        let callback := rd info 88 8
        if callback = 0 then .noCallback
        else
          let params := callParams call s
          let result := fns callback params freshResult
          .called callback params (if needsReply call then some (replyMsg call result) else none)

/-- A search for the key of `d` finds `d`. -/
def Registered (t : Table) (d : Buf) : Prop :=
  ∀ buf, findRoutineEx t (compId d) buf = some (0, copyOut buf d)

theorem registered_of_add {t t' : Table} {d : Buf} (h : TableOk t) (hfit : AddFits t d)
    (hnew : ¬ Holds t (compId d)) (hs : addInRoutine t d = .ret 0 t') : Registered t' d := by
  have ht' : TableOk t' := h.step (show Fits t (.add d) from hfit) hs
  have hput : ∀ i ≤ rtMaxIndex, t'.rtCompId i = compId d → body (t'.entry i) = body d →
      Registered t' d := by
    intro i hi hk hb buf
    rw [ht'.chains.find_of_slot ht'.header hi hk hfit.1, ← copyOut_body, hb, copyOut_body]
  cases add_cases hs with
  | refused hr _ _ _ => exact absurd rfl hr
  | present i _ _ hw =>
    obtain ⟨hi, hk, _⟩ := findWalk_found hw
    exact absurd ⟨i, hi, hk⟩ hnew
  | placed i _ _ hi _ _ _ he _ =>
    exact hput i hi (by rw [rtCompId_placed he, if_pos rfl]) (by rw [body_placed he, if_pos rfl])
  | overflowed o _ _ _ _ _ ho _ _ _ _ he _ =>
    exact hput o ho (by rw [rtCompId_overflowed he, if_pos rfl])
      (by rw [body_overflowed he, if_pos rfl])

theorem registered_in_empty {d : Buf} (h0 : compId d ≠ 0) (hcpu : cpu d ≤ 1) :
    ∃ t, addInRoutine empty d = .ret 0 t ∧ Registered t d := by
  have hok : MapOk empty fun _ => none := ⟨.empty, .empty, .empty, .empty⟩
  have hfree : ∀ i, empty.rtCompId i = 0 := fun i => (compId_wr_link _ _).trans (compId_wr_key _)
  have hroom : Room empty d := .inl ⟨by decide, .inl (hfree _)⟩
  have hfit := hok.addFits (show RegistryCall empty (.add d) from ⟨h0, hcpu, hroom⟩)
  have hnew : ¬ Holds empty (compId d) := fun ⟨i, _, hi⟩ => h0 (hi.symm.trans (hfree i))
  obtain ⟨r, t, hs⟩ := LinksOk.empty.add_returns d
  obtain rfl := add_eq_zero hok.chains hok.header hok.ends h0 hroom hs
  exact ⟨t, hs, registered_of_add ⟨hok.chains, hok.header⟩ hfit hnew hs⟩

def target (fn : Nat) : Option Nat := if fn = 0 then none else some fn

theorem target_inj {a b : Nat} : target a = target b ↔ a = b := by
  simp only [target]
  split <;> split <;> simp <;> omega

theorem rd_copyOut_callback (buf e : Buf) : rd (copyOut buf e) 88 8 = rd buf 88 8 := by
  simp (disch := omega) only [copyOut, rd_cpy_of_disjoint, rd_wr_of_disjoint]

section

variable {cur : Nat} {t : Table} {d call : Buf}

/-- `call` is a call for `d` that the work item accepts. -/
structure Names (call d : Buf) : Prop where
  name : 4 < rd call 0 2
  source : rd call 2 2 ≤ 1
  key : rd call 40 4 = compId d

section

variable (fns : Nat → Words → Words → Words) (hreg : Registered t d) (hcpu : cpu d = cur) (hcall : Names call d)
  (s : Stack)

include fns hreg hcpu hcall s

theorem served_eq : commCallWorkAction cur t fns call s =
      if rd s.routineInfo 88 8 = 0 then .noCallback
      else .called (rd s.routineInfo 88 8) (callParams call s) (if needsReply call then
          some (replyMsg call (fns (rd s.routineInfo 88 8) (callParams call s) freshResult))
        else none) := by
  have hsame : ¬ rd (copyOut s.routineInfo d) 2 2 ≠ cur := not_not.mpr ((cpu_copyOut _ d).trans hcpu)
  have hname := hcall.name
  have hsource := hcall.source
  simp only [commCallWorkAction, hcall.key, hreg s.routineInfo]
  rw [if_neg (by omega), if_neg (by omega)]
  simp only [ne_eq, not_true_eq_false, if_false, rd_copyOut_callback]
  rw [if_neg hsame]

theorem invoked_eq : (commCallWorkAction cur t fns call s).invoked = target (rd s.routineInfo 88 8) := by
  rw [served_eq fns hreg hcpu hcall]
  simp only [target]
  split <;> rfl

end

/-- The function called for a registered descriptor is the one its bytes 88 to 91 name exactly when the old stack
contents hold this address; for every descriptor and call there are stack contents that lead to different functions.
-/
theorem callback_from_stack (fns : Nat → Words → Words → Words) (hreg : Registered t d)
    (hcpu : cpu d = cur) (hcall : Names call d) :
    (∀ s, (commCallWorkAction cur t fns call s).invoked = target (rd d 88 4) ↔ rd s.routineInfo 88 8 = rd d 88 4) ∧
    ∃ s s', (commCallWorkAction cur t fns call s).invoked ≠ (commCallWorkAction cur t fns call s').invoked := by
  refine ⟨fun s => ?_, ⟨fun _ => 0, 0⟩, ⟨fun _ => 1, 0⟩, ?_⟩
  · rw [invoked_eq fns hreg hcpu hcall, target_inj]
  · rw [invoked_eq fns hreg hcpu hcall, invoked_eq fns hreg hcpu hcall, ne_eq, target_inj]
    decide

end

def callbackDescriptor : Buf := wr (descriptor 5 0 0) 88 4 0x1000

def callbackCall : Buf := wr (wr (fun _ => 0) 0 2 5) 40 4 5

theorem callbackDescriptor_names : Names callbackCall callbackDescriptor :=
  ⟨by decide, by decide, by decide⟩

theorem callback_from_stack_zero : ∃ t, Registered t callbackDescriptor ∧
    ∃ s s', (commCallWorkAction 0 t (fun _ _ r => r) callbackCall s).invoked ≠
      (commCallWorkAction 0 t (fun _ _ r => r) callbackCall s').invoked := by
  obtain ⟨t, _, hreg⟩ := registered_in_empty (d := callbackDescriptor) (by decide) (by decide)
  exact ⟨t, hreg, (callback_from_stack _ hreg (by decide) callbackDescriptor_names).2⟩

theorem callback_not_called : ¬ ∀ (cur : Nat) (t : Table) (d call : Buf)
    (fns : Nat → Words → Words → Words) (s : Stack), Registered t d → cpu d = cur → Names call d →
    (commCallWorkAction cur t fns call s).invoked = target (rd d 88 4) := by
  intro h
  obtain ⟨t, _, hreg⟩ := registered_in_empty (d := callbackDescriptor) (by decide) (by decide)
  have hcalled := h 0 t _ _ (fun _ _ r => r) ⟨fun _ => 0, 0⟩ hreg (by decide) callbackDescriptor_names
  rw [invoked_eq _ hreg (by decide) callbackDescriptor_names, target_inj] at hcalled
  exact absurd hcalled (by decide)

end H713.Rpc
