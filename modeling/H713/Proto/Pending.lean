import H713.Proto.Release

/-!
# Proto.Pending

What the two parts of `SendComm2CPUEx` do to the sockets: the part before the wait for the acknowledgement fails or
begins to wait, the one behind it always returns.
-/

namespace H713.Proto

open Function
open Bytes

structure Begins (w w' : World) (e : Env) (a : Args) (p : Pending) : Prop where
  cpu : p.dst ≤ 1
  dir : p.dir = a.target
  target : a.target ≤ 1
  free : 0 < (w.sock p.dst).sendSem p.dir
  step : SockStep w w' e p.dst p.session p.wait
  sendSem : (w'.sock p.dst).sendSem =
    update (w.sock p.dst).sendSem p.dir ((w.sock p.dst).sendSem p.dir - 1)
  sem : p.sem = ackSem (w.sock p.dst).base p.dir

structure Fails (w w' : World) (e : Env) (r : Sent) : Prop where
  ret : r.ret ≠ 0
  step : ∃ dst ≤ 1, ∃ session wait, SockStep w w' e dst session wait
  sendSem : ∀ d dir, (w.sock d).sendSem dir < 2 ^ 32 → (w'.sock d).sendSem dir = (w.sock d).sendSem dir

def Pending.dropped (p : Pending) (w : World) (ack : Int) : Option Nat :=
  if ack = 0 ∨ (w.shareW p.dst p.dir).direction ≠ 0 then none else p.wait

structure Ends (w w' : World) (p : Pending) (ack : Int) : Prop where
  others : ∀ d ≠ p.dst, w'.sock d = w.sock d
  base : (w'.sock p.dst).base = (w.sock p.dst).base
  sendSem : (w'.sock p.dst).sendSem =
    update (w.sock p.dst).sendSem p.dir (semUp ((w.sock p.dst).sendSem p.dir))
  waits : (w'.sock p.dst).waits = (w.sock p.dst).waits
  dropped : DroppedWait (w.sock p.dst) (w'.sock p.dst) (p.dropped w ack)

section

variable {w w' v : World} {e : Env} {a : Args} {dst dir slot session : Nat} {wait : Option Nat}

theorem SockStep.congr {u u' : World} (h : SockStep w w' e dst session wait)
    (hd : ∀ d ≠ dst, u.sock d = w.sock d ∧ u'.sock d = w'.sock d)
    (hs : u.sock dst = { w.sock dst with sendSem := (u.sock dst).sendSem })
    (hs' : u'.sock dst = { w'.sock dst with sendSem := (u'.sock dst).sendSem })
    (hid : u.callSessionId = w.callSessionId) : SockStep u u' e dst session wait := by
  refine ⟨fun d hne => ?_, ?_, ?_, fun hw => hid ▸ h.fresh hw⟩
  · rw [(hd d hne).1, (hd d hne).2]
    exact h.others d hne
  · rw [hs, hs']
    exact h.base
  · rw [hs, hs']
    exact h.took

theorem downSend_sock (w : World) (dst dir : Nat) : (∀ d ≠ dst, (downSend w dst dir).sock d = w.sock d) ∧
    (downSend w dst dir).sock dst = { w.sock dst with
      sendSem := update (w.sock dst).sendSem dir ((w.sock dst).sendSem dir - 1) } := by
  refine ⟨fun d hd => ?_, ?_⟩
  · simp [downSend, World.setSock, hd]
  · simp [downSend, World.setSock]

theorem sendFrom_cases {routine : Option Buf} {x : Sent ⊕ Pending}
    (h : sendFrom w e a dst routine slot = .ret x w') :
    (∃ r v session wait, x = .inl r ∧ r.ret ≠ 0 ∧ w' = leave v dst a.target ∧
      SockStep w v e dst session wait ∧ (v.sock dst).sendSem = (w.sock dst).sendSem) ∨
    ∃ p, x = .inr p ∧ p.dst = dst ∧ p.dir = a.target ∧ p.sem = ackSem (w.sock dst).base a.target ∧
      SockStep w w' e dst p.session p.wait ∧ (w'.sock dst).sendSem = (w.sock dst).sendSem := by
  cases sendFrom_slot h with
  | fault hu hf hw hshare hsock hsem => exact .inl ⟨_, _, _, _, rfl, by simp [eFault], hw, hsock, hsem⟩
  | sent hf hfill hmsg hd =>
    have hstep := fill_filledAs (rd_copyIn_flags _ _ _) hfill
    cases hd
    refine .inr ⟨_, rfl, rfl, rfl, ?_, ?_, hstep.sendSem⟩
    · exact congrArg (ackSem · a.target) hstep.sock.base
    · exact ⟨hstep.sock.others, hstep.sock.base, hstep.sock.took, hstep.sock.fresh⟩

theorem semUp_pred {n : Nat} (h0 : 0 < n) (h : n < 2 ^ 32) : semUp (n - 1) = n := by
  rw [semUp, Nat.sub_add_cancel h0, Nat.mod_eq_of_lt h]

theorem sendSem_of_update {n : Nat} (ho : ∀ d ≠ dst, w'.sock d = w.sock d)
    (hs : (w'.sock dst).sendSem = update (w.sock dst).sendSem dir n) (d r : Nat) :
    (w'.sock d).sendSem r = if d = dst ∧ r = dir then n else (w.sock d).sendSem r := by
  by_cases hd : d = dst
  · subst hd
    rw [hs, update_apply]
    simp only [true_and]
  · rw [ho d hd, if_neg fun hc => hd hc.1]

theorem sendSem_restored (hfree : (w.sock dst).sendSem dir ≠ 0) (ho : ∀ d ≠ dst, w'.sock d = w.sock d)
    (hv : (v.sock dst).sendSem = update (w.sock dst).sendSem dir ((w.sock dst).sendSem dir - 1))
    (hs : (w'.sock dst).sendSem = update (v.sock dst).sendSem dir (semUp ((v.sock dst).sendSem dir))) :
    ∀ d r, (w.sock d).sendSem r < 2 ^ 32 → (w'.sock d).sendSem r = (w.sock d).sendSem r := by
  intro d r hlt
  rw [hv, update_self, update_idem] at hs
  rw [sendSem_of_update ho hs]
  split
  · rename_i hc
    rw [← hc.1, ← hc.2] at hfree ⊢
    exact semUp_pred (Nat.pos_of_ne_zero hfree) hlt
  · rfl

theorem sendBegin_cases {x : Sent ⊕ Pending} (h : sendBegin w e a = .ret x w') :
    (∃ r, x = .inl r ∧ Fails w w' e r) ∨ ∃ p, x = .inr p ∧ Begins w w' e a p := by
  obtain ⟨htarget, ⟨c, hc, rfl, -, rfl | ⟨dst, hdst, hfree, rfl⟩⟩ | ⟨dst, routine, slot, w₂, hreach, htake, h⟩⟩ :=
    sendBegin_inv h
  · exact .inl ⟨_, rfl, hc, ⟨0, by omega, 0, none, SockStep.refl ..⟩, fun _ _ _ => rfl⟩
  · refine .inl ⟨_, rfl, hc, ⟨dst, hdst, 0, none, ⟨fun d hd => ?_, ?_, ⟨?_, ?_, ?_⟩, fun h => absurd rfl h⟩⟩,
      sendSem_restored (v := downSend w dst a.target) hfree (fun d hd => ?_) (by rw [(downSend_sock ..).2]) ?_⟩ <;>
      simp [upSend, downSend, World.setSock, *]
  obtain ⟨hdo, hds⟩ := downSend_sock w dst a.target
  have hsock := (takeSlot_taken htake).sock
  have hid := (takeSlot_taken htake).session
  have hw₂ : ∀ d ≠ dst, w.sock d = w₂.sock d := fun d hd => by rw [hsock, hdo d hd]
  have hw₂' : w.sock dst = { w₂.sock dst with sendSem := (w.sock dst).sendSem } := by
    rw [hsock, hds]
  obtain ⟨r, v, session, wait, rfl, hr, rfl, hstep, hsem⟩ | ⟨p, rfl, rfl, hdir, hps, hstep, hsem⟩ :=
    sendFrom_cases h
  · obtain ⟨hlo, hls⟩ := leave_sock v dst a.target
    have hstep' := hstep.congr (fun d hd => ⟨hw₂ d hd, hlo d hd⟩) hw₂' (by rw [hls]) hid.symm
    refine .inl ⟨r, rfl, hr, ⟨dst, hreach.cpu, session, wait, hstep'⟩,
      sendSem_restored (v := v) hreach.sem.ne' (fun d hd => ?_) ?_ (by rw [hls])⟩
    · rw [hlo d hd, hstep.others d hd, ← hw₂ d hd]
    · rw [hsem, hsock, hds]
  · refine .inr ⟨p, rfl, hreach.cpu, hdir, htarget, ?_, hstep.congr (fun d hd => ⟨hw₂ d hd, rfl⟩) hw₂' rfl
      hid.symm, ?_, ?_⟩
    · rw [hdir]
      exact hreach.sem
    · rw [hsem, hsock, hds, hdir]
    · rw [hps, hdir, hsock, hds]

theorem sendEnd_ends {p : Pending} {ack : Int} {r : Sent} (h : sendEnd w e p ack = .ret r w') :
    r.ret = ack ∧ Ends w w' p ack := by
  simp only [sendEnd] at h
  split at h
  · rename_i hack
    cases h
    obtain ⟨hlo, hls⟩ := leave_sock w p.dst p.dir
    refine ⟨hack.symm, hlo, by rw [hls], by rw [hls], by rw [hls], ?_⟩
    rw [Pending.dropped, if_pos (.inl hack), hls]
    exact ⟨rfl, rfl⟩
  · rename_i hack
    split at h
    · rename_i v hdrop
      cases h
      obtain ⟨-, hdo, hdb, hdsem, hdw, hdd⟩ := dropWait_sock hdrop
      obtain ⟨hlo, hls⟩ := leave_sock v p.dst p.dir
      refine ⟨rfl, fun d hd => (hlo d hd).trans (hdo d hd), ?_, ?_, ?_, ?_⟩
      · rw [hls]
        exact hdb
      · rw [hls, hdsem]
        rfl
      · rw [hls]
        exact hdw
      · rw [setShareW_shareW] at hdd
        have hp : p.dropped w ack =
            if (w.shareW p.dst p.dir).direction ≠ 0 then none else p.wait := by
          simp only [Pending.dropped, hack, false_or]
        rw [hp, hls]
        exact hdd
    · cases h
    · cases h

end

end H713.Proto
