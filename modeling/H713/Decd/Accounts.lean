import H713.Decd.Frames
import H713.Decd.Memory

/-!
# Decd.Accounts

Who holds the frame items: the references to an item are those of its frames, of the call that works on it, and of
the frames that could not be allocated for it.
-/

namespace H713.Decd

open RefCount

namespace Call

def holds : Call → Nat → Nat
  | loop i _ _, j | resume i _ _, j | fence i _, j | release i, j => if j = i then 1 else 0
  | pair i k, j => (if j = i then 1 else 0) + if j = k then 1 else 0
  | idle, _ | pairResume, _ | disabling, _ => 0

@[simp] theorem holds_next (i : Nat) (rep : Int) (fd : Bool) (j : Nat) :
    (next i rep fd).holds j = if j = i then 1 else 0 := by
  unfold next
  split <;> rfl

theorem next_ne_pair (i : Nat) (rep : Int) (fd : Bool) (a b : Nat) : next i rep fd ≠ pair a b := by
  unfold next
  split <;> rintro ⟨⟩

def Agrees : Call → Proc → Prop
  | idle, p | disabling, p => p ≠ .resuming
  | resume _ _ _, p | pairResume, p => p = .resuming
  | loop _ _ _, p | fence _ _, p | release _, p | pair _ _, p => p = .idle

theorem agrees_next (i : Nat) (rep : Int) (fd : Bool) : (next i rep fd).Agrees .idle := by
  unfold next
  split <;> rfl

end Call

namespace World

inductive Goes (w : World) : Op → World → Prop
  | refused {desc : Desc} {env : CreateEnv} {rep : Int} {fd : Bool} : Goes w (.submit desc env rep fd) w
  | made {desc : Desc} {env : CreateEnv} {rep : Int} {fd : Bool} (hcall : w.call = .idle) (dmaBufs fence : Bool) :
      Goes w (.submit desc env rep fd)
        { w with mem := w.mem.addItem desc dmaBufs fence, call := .loop w.mem.items.next rep fd }
  | enqueue {i : Nat} {rep : Int} {fd alloc : Bool} {item : Item} {r : Int} {sys : Sys}
      (hcall : w.call = .loop i rep fd) (hlive : w.mem.items.Live i)
      (hsys : Decd.step w.sys (.enqueue item alloc) = .ret r sys) :
      Goes w (.enqueue alloc) { w with
        sys := sys
        mem := { w.mem with items := w.mem.items.incr i }
        frames := if r = 0 then w.frames ++ [(w.sys.dev.heap.next, i)] else w.frames
        failed := if alloc then w.failed else w.failed ++ [i]
        call := if r = 0 then .resume i rep fd else .next i rep fd }
  | resume {i : Nat} {rep : Int} {fd : Bool} {r : Int} {sys : Sys} (hcall : w.call = .resume i rep fd)
      (hsys : Decd.step w.sys .resume = .ret r sys) : Goes w .resume { w with sys := sys, call := .next i rep fd }
  | pairResume {r : Int} {sys : Sys} (hcall : w.call = .pairResume) (hsys : Decd.step w.sys .resume = .ret r sys) :
      Goes w .resume { w with sys := sys, call := .idle }
  | fence {i : Nat} {fd ok : Bool} {item : FrameItem} (hcall : w.call = .fence i fd)
      (hitem : w.mem.items.obj? i = some item) :
      Goes w (.fence ok)
        { w with mem := if fd && ok then w.mem.fenceFdCreate item.fence else w.mem, call := .release i }
  | release {i : Nat} {m : Mem} (hcall : w.call = .release i) (hm : w.mem.frameItemRelease i = .ret () m) :
      Goes w .release { w with mem := m, call := .idle }
  | pairRefused {top bottom : Desc} {envTop envBottom : CreateEnv} :
      Goes w (.interlace top bottom envTop envBottom) w
  | pairUndone {top bottom : Desc} {envTop envBottom : CreateEnv} {r : Int} {sys : Sys} {m : Mem}
      (hcall : w.call = .idle) (hsys : Decd.step w.sys (.setStreamType 1) = .ret r sys)
      (hm : m = w.mem ∨ ∃ desc dmaBufs fence,
        (w.mem.addItem desc dmaBufs fence).frameItemRelease w.mem.items.next = .ret () m) :
      Goes w (.interlace top bottom envTop envBottom) { w with sys := sys, mem := m }
  | pairMade {top bottom : Desc} {envTop envBottom : CreateEnv} {r : Int} {sys : Sys} (hcall : w.call = .idle)
      (hsys : Decd.step w.sys (.setStreamType 1) = .ret r sys) (dmaBufs fence dmaBufs' fence' : Bool) :
      Goes w (.interlace top bottom envTop envBottom) { w with
        sys := sys
        mem := (w.mem.addItem top dmaBufs fence).addItem bottom dmaBufs' fence'
        call := .pair w.mem.items.next (w.mem.addItem top dmaBufs fence).items.next }
  | enqueuePair {i j : Nat} {allocTop allocBottom : Bool} {top bottom : Item} {r : Int} {sys : Sys}
      (hcall : w.call = .pair i j)
      (hsys : Decd.step w.sys (.enqueueInterlace top bottom allocTop allocBottom) = .ret r sys) :
      Goes w (.enqueuePair allocTop allocBottom) { w with
        sys := sys
        frames := if r = 0 then w.frames ++ [(w.sys.dev.heap.next, i), (w.sys.dev.heap.next + 1, j)] else w.frames
        failed := if allocTop && allocBottom then w.failed else w.failed ++ [i, j]
        call := if r = 0 then .pairResume else .idle }
  | callback {k i : Nat} {m : Mem} (hhead : w.pending.head? = some k) (hlookup : w.frames.lookup k = some i)
      (hm : w.mem.frameItemRelease i = .ret () m) :
      Goes w .callback { w with mem := m, frames := w.frames.erase (k, i), handled := w.handled + 1 }
  | manager {op : Decd.Op} {r : Int} {sys : Sys} (hsys : Decd.step w.sys op = .ret r sys) :
      Goes w (.manager op) { w with sys := sys }
  | notEnabled {ok : Bool} : Goes w (.enable ok) w
  | enable (hcall : w.call = .idle) {ok : Bool} : Goes w (.enable ok) { w with
      sys := ⟨decFrameManagerInit w.size w.sys.dev.heap w.sys.dev.lastFrame w.sys.dev.released, .idle, .idle⟩
      enabled := true }
  | notDisabled : Goes w .disable w
  | disable {r : Int} {sys : Sys} (hcall : w.call = .idle) (hsys : Decd.step w.sys .stop = .ret r sys) :
      Goes w .disable { w with sys := sys, call := .disabling }
  | exit (hcall : w.call = .disabling) {d : Dev} (hd : decFrameManagerFree w.sys.dev = .ret () d) :
      Goes w .exit { w with sys := { w.sys with dev := d }, call := .idle, enabled := false }
  | close {file : Nat} {m : Mem} (hm : w.mem.close file = .ret () m) : Goes w (.close file) { w with mem := m }
  | poll {file : Nat} : Goes w (.poll file) w

section

variable {w w' : World}

theorem goes_submit (hcall : w.call = .idle) (desc : Desc) (env : CreateEnv) (rep : Int) (fd : Bool) :
    Goes w (.submit desc env rep fd) (w.submit desc env rep fd) := by
  unfold World.submit
  split
  · exact .refused
  rcases Mem.create_cases w.mem w.fenceCtx desc env with hnone | ⟨dmaBufs, fence, hsome⟩
  · rw [hnone]
    dsimp only [Option.elim]
    rw [← hcall]
    exact .refused
  · rw [hsome]
    exact .made hcall dmaBufs fence

theorem goes_enqueue {i : Nat} {rep : Int} {fd alloc : Bool} (hcall : w.call = .loop i rep fd)
    (hs : w.enqueue i rep fd alloc = .ret () w') : Goes w (.enqueue alloc) w' := by
  unfold World.enqueue at hs
  by_cases hl : w.mem.items.Live i
  · obtain ⟨item, hitem⟩ := Heap.obj?_of_live hl
    rw [hitem, Heap.inc_of_live hl] at hs
    obtain ⟨r, sys, hsys, hs⟩ := Out.bind_eq_ret hs
    cases hs
    exact .enqueue hcall hl hsys
  · rw [Heap.inc, if_neg hl] at hs
    split at hs
    · rename_i hnone
      cases hnone
    · cases hs

theorem goes_interlace (hcall : w.call = .idle) {top bottom : Desc} {envTop envBottom : CreateEnv}
    (hs : w.interlace top bottom envTop envBottom = .ret () w') :
    Goes w (.interlace top bottom envTop envBottom) w' := by
  unfold World.interlace at hs
  split at hs
  · cases hs
    exact .pairRefused
  obtain ⟨r, sys, hsys, hs⟩ := Out.bind_eq_ret hs
  rcases Mem.create_cases w.mem w.fenceCtx top envTop with hnone | ⟨dmaBufs, fence, hsome⟩
  · rcases Mem.create_cases w.mem w.fenceCtx bottom envBottom with hnone' | ⟨dmaBufs', fence', hsome'⟩
    · simp only [hnone, hnone'] at hs
      cases hs
      exact .pairUndone hcall hsys (.inl rfl)
    · simp only [hnone, hsome'] at hs
      obtain ⟨_, m, hm, hs⟩ := Out.bind_eq_ret hs
      cases hm
      obtain ⟨_, m, hm, hs⟩ := Out.bind_eq_ret hs
      cases hs
      exact .pairUndone hcall hsys (.inr ⟨_, _, _, hm⟩)
  · rcases Mem.create_cases (w.mem.addItem top dmaBufs fence) w.fenceCtx bottom envBottom with
      hnone' | ⟨dmaBufs', fence', hsome'⟩
    · simp only [hsome, hnone'] at hs
      obtain ⟨_, m, hm, hs⟩ := Out.bind_eq_ret hs
      obtain ⟨_, m', hm', hs⟩ := Out.bind_eq_ret hs
      cases hm'
      cases hs
      exact .pairUndone hcall hsys (.inr ⟨_, _, _, hm⟩)
    · simp only [hsome, hsome'] at hs
      cases hs
      exact .pairMade hcall hsys dmaBufs fence dmaBufs' fence'

theorem goes_callback (hs : w.callback = .ret () w') : Goes w .callback w' := by
  unfold World.callback at hs
  split at hs
  · cases hs
  · rename_i k hhead
    split at hs
    · cases hs
    · rename_i i hlookup
      obtain ⟨_, m, hm, hs⟩ := Out.bind_eq_ret hs
      cases hs
      exact .callback hhead hlookup hm

theorem goes_of_step {op : Op} (hacc : w.accepts op) (hs : step w op = .ret () w') : Goes w op w' := by
  cases op with
  | submit desc env rep fd =>
    have hidle : w.call = .idle := by
      cases hc : w.call <;> simp [accepts, hc] at hacc ⊢
    cases hs
    exact goes_submit hidle desc env rep fd
  | enqueue alloc =>
    cases hc : w.call with
    | loop i rep fd =>
      simp only [step, hc] at hs
      exact goes_enqueue hc hs
    | _ => simp [accepts, hc] at hacc
  | resume =>
    cases hc : w.call with
    | resume i rep fd =>
      simp only [step, hc] at hs
      obtain ⟨r, sys, hsys, hs⟩ := Out.bind_eq_ret hs
      cases hs
      exact .resume hc hsys
    | pairResume =>
      simp only [step, hc] at hs
      obtain ⟨r, sys, hsys, hs⟩ := Out.bind_eq_ret hs
      cases hs
      exact .pairResume hc hsys
    | _ => simp [accepts, hc] at hacc
  | fence ok =>
    cases hc : w.call with
    | fence i fd =>
      simp only [step, hc, World.fenceFd] at hs
      split at hs
      · cases hs
      · rename_i item hitem
        cases hs
        exact .fence hc hitem
    | _ => simp [accepts, hc] at hacc
  | release =>
    cases hc : w.call with
    | release i =>
      simp only [step, hc] at hs
      obtain ⟨_, m, hm, hs⟩ := Out.bind_eq_ret hs
      cases hs
      exact .release hc hm
    | _ => simp [accepts, hc] at hacc
  | interlace top bottom envTop envBottom =>
    have hidle : w.call = .idle := by
      cases hc : w.call <;> simp [accepts, hc] at hacc ⊢
    exact goes_interlace hidle hs
  | enqueuePair allocTop allocBottom =>
    cases hc : w.call with
    | pair i j =>
      simp only [step, hc, World.enqueuePair] at hs
      split at hs
      · obtain ⟨r, sys, hsys, hs⟩ := Out.bind_eq_ret hs
        cases hs
        exact .enqueuePair hc hsys
      · cases hs
    | _ => simp [accepts, hc] at hacc
  | callback => exact goes_callback hs
  | manager op =>
    obtain ⟨r, sys, hsys, hs⟩ := Out.bind_eq_ret hs
    cases hs
    exact .manager hsys
  | enable ok =>
    have hidle : w.call = .idle := by
      cases hc : w.call <;> simp [accepts, hc] at hacc ⊢
    cases hs
    unfold World.enable
    split
    · exact .notEnabled
    · exact .enable hidle
  | disable =>
    have hidle : w.call = .idle := by
      cases hc : w.call <;> simp [accepts, hc] at hacc ⊢
    simp only [step, World.disable] at hs
    split at hs
    · cases hs
      exact .notDisabled
    · obtain ⟨r, sys, hsys, hs⟩ := Out.bind_eq_ret hs
      cases hs
      exact .disable hidle hsys
  | exit =>
    have hcall : w.call = .disabling := by
      cases hc : w.call <;> simp [accepts, hc] at hacc ⊢
    obtain ⟨_, d, hd, hs⟩ := Out.bind_eq_ret hs
    cases hs
    unfold decFrameManagerExit at hd
    split at hd
    · cases hd
    · exact .exit hcall hd
  | close file =>
    obtain ⟨_, m, hm, hs⟩ := Out.bind_eq_ret hs
    cases hs
    exact .close hm
  | poll file =>
    obtain ⟨_, m, hm, hs⟩ := Out.bind_eq_ret hs
    cases hs
    rw [Mem.Ok.poll hm]
    exact .poll

end

def queued (w : World) (i : Nat) : Nat := (w.frames.map Prod.snd).count i

structure Linked (w : World) : Prop where
  keys : (w.frames.map Prod.fst).Nodup
  frames : ∀ k, k ∈ w.frames.map Prod.fst ↔ w.sys.dev.Armed k ∨ k ∈ w.pending
  apart : ∀ k ∈ w.pending, ¬ w.sys.dev.Armed k
  nodup : w.pending.Nodup
  old : ∀ k ∈ w.frames.map Prod.fst, k < w.sys.dev.heap.next
  handled : w.handled ≤ w.sys.dev.calls.length
  proc : w.call.Agrees w.sys.proc
  type : ∀ i j, w.call = .pair i j → w.sys.dev.m.type = 1

namespace Linked

variable {w w' : World}

theorem unborn (h : Linked w) : w.sys.dev.Unborn := by
  intro k hk harm
  have := h.old k ((h.frames k).mpr (.inl harm))
  omega

theorem drops (h : Linked w) {b : Bool} (hframes : w'.frames = w.frames) (hhandled : w'.handled = w.handled)
    (hd : Drops b w.sys.dev w'.sys.dev) (hproc : w'.call.Agrees w'.sys.proc)
    (htype : ∀ i j, w'.call = .pair i j → w'.sys.dev.m.type = 1) : Linked w' := by
  obtain ⟨ks, hlog, hnd, harmed, hdead⟩ := hd.log
  have hpending : w'.pending = w.pending ++ ks := by
    have : w'.pending = w'.sys.dev.calls.drop w'.handled := rfl
    rw [this, hlog, hhandled, List.drop_append_of_le_length h.handled]
    rfl
  refine ⟨hframes ▸ h.keys, fun k => ?_, fun k hk harm => ?_, ?_, ?_, ?_, hproc, htype⟩
  · rw [hframes, h.frames k, harmed k, hpending, List.mem_append]
    tauto
  · rw [hpending] at hk
    rcases List.mem_append.mp hk with hk | hk
    · exact h.apart k hk ((harmed k).mpr (.inl harm))
    · exact hdead k hk harm
  · -- what is called now was armed, so its callback is not running yet
    rw [hpending]
    exact List.Nodup.append h.nodup hnd fun k hk hk' => h.apart k hk ((harmed k).mpr (.inr hk'))
  · rw [hframes, hd.next]
    exact h.old
  · rw [hhandled, hlog, List.length_append]
    exact Nat.le_add_right_of_le h.handled

theorem arms (h : Linked w) {ks : List Nat} (new : List (Nat × Nat)) (hframes : w'.frames = w.frames ++ new)
    (hnew : new.map Prod.fst = ks) (hks : ks.Nodup) (hhandled : w'.handled = w.handled)
    (ha : Arms ks w.sys.dev w'.sys.dev) (hproc : w'.call.Agrees w'.sys.proc)
    (htype : ∀ i j, w'.call ≠ .pair i j) : Linked w' := by
  have hpending : w'.pending = w.pending := by
    have : w'.pending = w'.sys.dev.calls.drop w'.handled := rfl
    rw [this, ha.calls, hhandled]
    rfl
  have hkeys : w'.frames.map Prod.fst = w.frames.map Prod.fst ++ ks := by
    rw [hframes, List.map_append, hnew]
  refine ⟨?_, fun k => ?_, fun k hk harm => ?_, hpending ▸ h.nodup, fun k hk => ?_, ?_, hproc,
    fun i j hc => absurd hc (htype i j)⟩
  · rw [hkeys]
    refine List.Nodup.append h.keys hks fun k hk hk' => ?_
    have := h.old k hk
    have := ha.fresh k hk'
    omega
  · rw [hkeys, hpending, List.mem_append, h.frames k, ha.armed k]
    tauto
  · rw [hpending] at hk
    rcases (ha.armed k).mp harm with harm | harm
    · exact h.apart k hk harm
    · have := h.old k ((h.frames k).mpr (.inr hk))
      have := ha.fresh k harm
      omega
  · rw [hkeys] at hk
    rcases List.mem_append.mp hk with hk | hk
    · exact (h.old k hk).trans_le ha.next
    · exact (ha.fresh k hk).2
  · rw [hhandled, ha.calls]
    exact h.handled

theorem callback (h : Linked w) {k i : Nat} {ks : List Nat} (hpend : w.pending = k :: ks) (hmem : (k, i) ∈ w.frames)
    (hframes : w'.frames = w.frames.erase (k, i)) (hhandled : w'.handled = w.handled + 1)
    (hsys : w'.sys = w.sys) (hcall : w'.call = w.call) : Linked w' := by
  have hperm : (w.frames.map Prod.fst).Perm (k :: w'.frames.map Prod.fst) := by
    rw [hframes]
    exact (List.perm_cons_erase hmem).map Prod.fst
  obtain ⟨hk, hkeys⟩ := List.nodup_cons.mp (hperm.nodup_iff.mp h.keys)
  have hpending : w'.pending = ks := by
    have : w'.pending = w.sys.dev.calls.drop (w.handled + 1) := by
      rw [← hhandled, ← hsys]
      rfl
    rw [this, ← List.drop_drop, show w.sys.dev.calls.drop w.handled = k :: ks from hpend]
    rfl
  obtain ⟨hks, hnd⟩ := List.nodup_cons.mp (hpend ▸ h.nodup)
  have hdead : ¬ w.sys.dev.Armed k := h.apart k (hpend ▸ List.mem_cons_self)
  refine ⟨hkeys, fun j => ?_, fun j hj => ?_, hpending ▸ hnd, fun j hj => ?_, ?_, ?_, ?_⟩
  · have := h.frames j
    rw [hperm.mem_iff, List.mem_cons, hpend, List.mem_cons] at this
    rw [hsys, hpending]
    by_cases hjk : j = k
    · subst hjk
      simp [hk, hdead, hks]
    · simpa [hjk] using this
  · rw [hsys]
    exact h.apart j (hpend ▸ List.mem_cons_of_mem _ (hpending ▸ hj))
  · rw [hsys]
    exact h.old j (hperm.mem_iff.mpr (List.mem_cons_of_mem _ hj))
  · have hlen := congrArg List.length (show w.sys.dev.calls.drop w.handled = k :: ks from hpend)
    rw [List.length_drop, List.length_cons] at hlen
    rw [hhandled, hsys]
    omega
  · rw [hcall, hsys]
    exact h.proc
  · rw [hcall, hsys]
    exact h.type

end Linked

section

variable {s s' : Sys} {r : Int}

theorem resume_drops (h : Decd.step s .resume = .ret r s') : Drops false s.dev s'.dev ∧ s'.proc = .idle := by
  obtain ⟨_, d, hd, h⟩ := Out.bind_eq_ret h
  cases h
  exact ⟨drop_of_path (fun _ => .resume rfl) _ _ _ hd, rfl⟩

theorem setStreamType_drops (h : Decd.step s (.setStreamType 1) = .ret r s') :
    Drops false s.dev s'.dev ∧ s'.proc = s.proc ∧ s'.dev.m.type = 1 := by
  obtain ⟨_, d, hd, h⟩ := Out.bind_eq_ret h
  cases h
  refine ⟨drop_of_path (fun _ => .setStreamType rfl 1) _ _ _ hd, rfl, ?_⟩
  by_cases hlock : s.dev.readyLock
  · simp only [decFrameManagerSetStreamType, bind_apply, lockReady, hlock, if_true] at hd
    cases hd
  · simp only [decFrameManagerSetStreamType, bind_apply, lockReady, hlock, Bool.false_eq_true, if_false] at hd
    cases hd
    rfl

theorem stop_drops (h : Decd.step s .stop = .ret r s') : Drops false s.dev s'.dev ∧ s'.proc ≠ .resuming := by
  simp only [Decd.step] at h
  obtain ⟨_, d, hd, h⟩ := Out.bind_eq_ret h
  cases h
  refine ⟨drop_of_path (fun _ => .stop) _ _ _ hd, ?_⟩
  dsimp only
  split <;> rintro ⟨⟩

theorem free_drops {d d' : Dev} (h : decFrameManagerFree d = .ret () d') : Drops false d d' :=
  drop_of_path (fun _ => .free rfl) _ _ _ h

theorem agrees_waiting {c : Call} (h : c.Agrees .waiting) : c.Agrees .idle ∧ ∀ i j, c ≠ .pair i j := by
  cases c with
  | idle | disabling => exact ⟨by rintro ⟨⟩, by rintro i j ⟨⟩⟩
  | _ => cases h

theorem manager_drops {w : World} {op : Decd.Op} (hacc : w.accepts (.manager op)) (hen : Enabled w.sys op)
    (hproc : w.call.Agrees w.sys.proc) (h : Decd.step w.sys op = .ret r s') :
    Drops false w.sys.dev s'.dev ∧ w.call.Agrees s'.proc ∧
      ∀ i j, w.call = .pair i j → s'.dev.m.type = w.sys.dev.m.type := by
  have hkept {d : Dev} (hd : Drops true w.sys.dev d) : Drops false w.sys.dev d ∧ w.call.Agrees w.sys.proc ∧
      ∀ i j, w.call = .pair i j → d.m.type = w.sys.dev.m.type :=
    ⟨⟨hd.next, (fun hf => by cases hf), hd.log⟩, hproc, fun _ _ _ => hd.type rfl⟩
  cases op with
  | enqueue _ _ | enqueueInterlace _ _ _ _ | setStreamType _ | resume =>
    cases hc : w.call <;> simp [accepts, hc] at hacc
  | vsync =>
    obtain ⟨_, d, hd, h⟩ := Out.bind_eq_ret h
    cases h
    exact hkept (drop_of_path (fun _ => .vsync rfl) _ _ _ hd)
  | refresh =>
    obtain ⟨_, d, hd, h⟩ := Out.bind_eq_ret h
    cases h
    exact hkept (drop_of_path (fun _ => .refresh rfl) _ _ _ hd)
  | work =>
    obtain ⟨_, d, hd, h⟩ := Out.bind_eq_ret h
    cases h
    exact hkept (drop_of_path (fun _ => .work _) _ _ _ hd)
  | stop =>
    have hidle : w.call = .idle := by
      cases hc : w.call <;> simp [accepts, hc] at hacc ⊢
    obtain ⟨hd, hp⟩ := stop_drops h
    refine ⟨hd, ?_, fun i j hc => by cases hidle.symm.trans hc⟩
    rwa [hidle]
  | stopped =>
    obtain ⟨hidle, hpair⟩ := agrees_waiting (hen.1 ▸ hproc)
    obtain ⟨_, d, hd, h⟩ := Out.bind_eq_ret h
    cases h
    exact ⟨free_drops hd, hidle, fun i j hc => absurd hc (hpair i j)⟩
  | timeout =>
    obtain ⟨hidle, hpair⟩ := agrees_waiting (hen.1 ▸ hproc)
    cases h
    exact ⟨.refl _, hidle, fun i j hc => absurd hc (hpair i j)⟩

end

structure Inv (w : World) : Prop where
  mem : w.mem.Ok
  linked : Linked w
  counted : ∀ i, w.mem.items.count i = w.queued i + w.call.holds i + w.failed.count i

namespace Inv

variable {w w' : World}

theorem init (size : Nat) (fenceCtx : Bool) : Inv (init size fenceCtx) := by
  have hnone : ∀ k, ¬ (start size).dev.Armed k := by
    rintro k ⟨vf, hvf, -⟩
    cases hvf
  refine ⟨⟨Heap.wf_empty, fun i => rfl, fun i => rfl, ?_, ?_, ?_, ?_, ?_, ?_⟩,
    ⟨.nil, fun k => ?_, ?_, .nil, ?_, Nat.le_refl _, ?_, ?_⟩, fun i => rfl⟩
  · rintro i it ⟨⟩
  · rintro f ⟨⟩
  · rintro f ⟨⟩
  · rintro f ⟨⟩
  · rintro f ⟨⟩
  · rintro x ⟨⟩
  · exact iff_of_false (List.not_mem_nil) (not_or.mpr ⟨hnone k, List.not_mem_nil⟩)
  · rintro k ⟨⟩
  · rintro k ⟨⟩
  · rintro ⟨⟩
  · rintro i j ⟨⟩

theorem still (h : Inv w) (hsys : w'.sys = w.sys) (hframes : w'.frames = w.frames) (hhandled : w'.handled = w.handled)
    (hmem : w'.mem.Ok) (hproc : w'.call.Agrees w.sys.proc) (htype : ∀ i j, w'.call = .pair i j → w.call = .pair i j)
    (hcount : ∀ i, w'.mem.items.count i = w.queued i + w'.call.holds i + w'.failed.count i) : Inv w' := by
  refine ⟨hmem, h.linked.drops (b := true) hframes hhandled (hsys ▸ .refl _) (hsys ▸ hproc) ?_, ?_⟩
  · intro i j hc
    rw [hsys]
    exact h.linked.type i j (htype i j hc)
  · simpa only [queued, hframes] using hcount

theorem made (h : Inv w) (hcall : w.call = .idle) (hproc : w.sys.proc = .idle) (desc : Desc) (dmaBufs fence : Bool)
    (rep : Int) (fd : Bool) :
    Inv { w with mem := w.mem.addItem desc dmaBufs fence, call := .loop w.mem.items.next rep fd } := by
  refine h.still rfl rfl rfl (h.mem.created desc dmaBufs fence) hproc ?_ fun i => ?_
  · rintro i j ⟨⟩
  · have hc := h.counted i
    rw [hcall] at hc
    rw [h.mem.count_created, hc]
    simp only [Call.holds]
    omega

variable {i : Nat} {fd : Bool} {r : Int} {sys : Sys} {m : Mem}

theorem enqueue (h : Inv w) {rep : Int} {alloc : Bool} {item : Item} (hcall : w.call = .loop i rep fd)
    (hl : w.mem.items.Live i) (hs : Decd.step w.sys (.enqueue item alloc) = .ret r sys) : Inv { w with
      sys := sys
      mem := { w.mem with items := w.mem.items.incr i }
      frames := if r = 0 then w.frames ++ [(w.sys.dev.heap.next, i)] else w.frames
      failed := if alloc then w.failed else w.failed ++ [i]
      call := if r = 0 then .resume i rep fd else .next i rep fd } := by
  obtain ⟨r, d, hd, hs⟩ := Out.bind_eq_ret hs
  cases hs
  obtain ⟨rfl, harms⟩ := enqueueFrame_arms h.linked.unborn hd
  have hcount : ∀ j, (w.mem.items.incr i).count j =
      w.queued j + (if j = i then 1 else 0) + w.failed.count j + if j = i then 1 else 0 := by
    intro j
    have := h.counted j
    rw [hcall] at this
    rw [Heap.count_incr hl, this]
    rfl
  cases alloc with
  | true =>
    refine ⟨h.mem.incr i, h.linked.arms [_] rfl rfl (List.nodup_singleton _) rfl harms rfl ?_, fun j => ?_⟩
    · rintro a b ⟨⟩
    · refine (hcount j).trans ?_
      simp only [queued, Call.holds, if_true, List.map_append, List.map_cons, List.map_nil, List.count_append,
        count_one]
      omega
  | false =>
    refine ⟨h.mem.incr i, h.linked.arms [] (List.append_nil _).symm rfl .nil rfl harms
      (Call.agrees_next i rep fd) ?_, fun j => ?_⟩
    · exact Call.next_ne_pair i rep fd
    · refine (hcount j).trans ?_
      simp [queued, count_one]
      omega

theorem resume (h : Inv w) {rep : Int} (hcall : w.call = .resume i rep fd)
    (hs : Decd.step w.sys .resume = .ret r sys) :
    Inv { w with sys := sys, call := .next i rep fd } := by
  obtain ⟨hd, hproc⟩ := resume_drops hs
  refine ⟨h.mem, h.linked.drops rfl rfl hd ?_ ?_, fun j => ?_⟩
  · rw [hproc]
    exact Call.agrees_next i rep fd
  · exact fun a b hpair => absurd hpair (Call.next_ne_pair i rep fd a b)
  · rw [h.counted j, hcall, Call.holds_next]
    rfl

theorem pairResume (h : Inv w) (hcall : w.call = .pairResume) (hs : Decd.step w.sys .resume = .ret r sys) :
    Inv { w with sys := sys, call := .idle } := by
  obtain ⟨hd, hproc⟩ := resume_drops hs
  refine ⟨h.mem, h.linked.drops rfl rfl hd ?_ ?_, fun j => ?_⟩
  · rw [hproc]
    rintro ⟨⟩
  · rintro a b ⟨⟩
  · rw [h.counted j, hcall]
    rfl

theorem fenceFd (h : Inv w) (ok : Bool) {item : FrameItem} (hcall : w.call = .fence i fd)
    (hitem : w.mem.items.obj? i = some item) :
    Inv { w with mem := if fd && ok then w.mem.fenceFdCreate item.fence else w.mem, call := .release i } := by
  have hcounted := h.counted
  have hproc := h.linked.proc
  rw [hcall] at hcounted hproc
  refine h.still rfl rfl rfl ?_ hproc ?_ fun j => ?_
  · dsimp only
    split
    · exact h.mem.fenceFd hitem
    · exact h.mem
  · rintro a b ⟨⟩
  · have hitems : (if fd && ok then w.mem.fenceFdCreate item.fence else w.mem).items = w.mem.items := by
      split
      · exact Mem.items_fenceFd _ _
      · rfl
    exact (congrArg (Heap.count · j) hitems).trans (hcounted j)

theorem release (h : Inv w) (hcall : w.call = .release i) (hs : w.mem.frameItemRelease i = .ret () m) :
    Inv { w with mem := m, call := .idle } := by
  have hproc := h.linked.proc
  rw [hcall] at hproc
  refine h.still rfl rfl rfl (h.mem.release hs) ?_ ?_ fun j => ?_
  · rw [hproc]
    rintro ⟨⟩
  · rintro a b ⟨⟩
  · have hc := h.counted j
    rw [hcall] at hc
    simp only [Call.holds] at hc ⊢
    rw [h.mem.release_items hs, Heap.count_decr, hc]
    omega

theorem made_released {m' : Mem} (h : m.Ok) {desc : Desc} {dmaBufs fence : Bool} {u : Unit}
    (hr : (m.addItem desc dmaBufs fence).frameItemRelease m.items.next = .ret u m') :
    m'.Ok ∧ ∀ i, m'.items.count i = m.items.count i := by
  have hok := h.created desc dmaBufs fence
  refine ⟨hok.release hr, fun i => ?_⟩
  rw [hok.release_items hr, Heap.count_decr, h.count_created]
  omega

section

variable (h : Inv w)

include h

section

variable (hcall : w.call = .idle) (hproc : w.sys.proc = .idle)
  (hs : Decd.step w.sys (.setStreamType 1) = .ret r sys)

include hcall hproc hs

theorem pairUndone (hm : m.Ok) (hcount : ∀ i, m.items.count i = w.mem.items.count i) :
    Inv { w with sys := sys, mem := m } := by
  obtain ⟨hd, hsame, -⟩ := setStreamType_drops hs
  refine ⟨hm, h.linked.drops rfl rfl hd ?_ ?_, fun i => (hcount i).trans (h.counted i)⟩
  · dsimp only
    rw [hcall, hsame, hproc]
    rintro ⟨⟩
  · intro i j hpair
    cases hcall.symm.trans hpair

theorem pairMade (top bottom : Desc) (dmaBufs fence dmaBufs' fence' : Bool) : Inv { w with
      sys := sys
      mem := (w.mem.addItem top dmaBufs fence).addItem bottom dmaBufs' fence'
      call := .pair w.mem.items.next (w.mem.addItem top dmaBufs fence).items.next } := by
  obtain ⟨hd, hsame, htype⟩ := setStreamType_drops hs
  have hok := h.mem.created top dmaBufs fence
  refine ⟨hok.created bottom dmaBufs' fence', h.linked.drops rfl rfl hd (hsame.trans hproc) (fun _ _ _ => htype),
    fun i => ?_⟩
  have hc := h.counted i
  rw [hcall] at hc
  rw [hok.count_created, h.mem.count_created, hc]
  simp only [Call.holds, queued]
  omega

end

theorem enqueuePair {j : Nat} {allocTop allocBottom : Bool} {top bottom : Item} (hcall : w.call = .pair i j)
    (hs : Decd.step w.sys (.enqueueInterlace top bottom allocTop allocBottom) = .ret r sys) : Inv { w with
      sys := sys
      frames := if r = 0 then w.frames ++ [(w.sys.dev.heap.next, i), (w.sys.dev.heap.next + 1, j)] else w.frames
      failed := if allocTop && allocBottom then w.failed else w.failed ++ [i, j]
      call := if r = 0 then .pairResume else .idle } := by
  obtain ⟨r, d, hd, hs⟩ := Out.bind_eq_ret hs
  cases hs
  obtain ⟨rfl, harms⟩ := enqueueInterlace_arms h.linked.unborn (h.linked.type i j hcall) hd
  have hpair : ∀ k, [i, j].count k = (if k = i then 1 else 0) + if k = j then 1 else 0 := by
    intro k
    rw [← count_one, ← count_one, ← List.count_append]
    rfl
  have hcount : ∀ k, w.mem.items.count k = w.queued k + [i, j].count k + w.failed.count k := by
    intro k
    have := h.counted k
    rw [hcall] at this
    rw [hpair]
    exact this
  cases hboth : allocTop && allocBottom with
  | true =>
    rw [hboth] at harms
    refine ⟨h.mem, h.linked.arms [_, _] rfl rfl (by simp) rfl harms rfl ?_, fun k => ?_⟩
    · rintro a b ⟨⟩
    · refine (hcount k).trans ?_
      simp only [queued, Call.holds, if_true, List.map_append, List.map_cons, List.map_nil, List.count_append]
      omega
  | false =>
    rw [hboth] at harms
    refine ⟨h.mem, h.linked.arms [] (List.append_nil _).symm rfl .nil rfl harms ?_ ?_, fun k => ?_⟩
    · rintro ⟨⟩
    · rintro a b ⟨⟩
    · refine (hcount k).trans ?_
      simp [queued, Call.holds, List.count_append]
      omega

theorem callback {k : Nat} (hhead : w.pending.head? = some k) (hlookup : w.frames.lookup k = some i)
    (hm : w.mem.frameItemRelease i = .ret () m) :
    Inv { w with mem := m, frames := w.frames.erase (k, i), handled := w.handled + 1 } := by
  have hmem := mem_of_lookup hlookup
  obtain ⟨ks, hpend⟩ := List.head?_eq_some_iff.mp hhead
  refine ⟨h.mem.release hm, h.linked.callback hpend hmem rfl rfl rfl rfl, fun j => ?_⟩
  have hperm : (w.frames.map Prod.snd).Perm (i :: (w.frames.erase (k, i)).map Prod.snd) :=
    (List.perm_cons_erase hmem).map Prod.snd
  have hq : w.queued j = (if j = i then 1 else 0) + ((w.frames.erase (k, i)).map Prod.snd).count j := by
    rw [← count_one, ← List.count_append]
    exact hperm.count_eq j
  have hc := h.counted j
  rw [h.mem.release_items hm, Heap.count_decr, hc, hq]
  simp only [queued]
  omega

theorem manager {op : Decd.Op} (hacc : w.accepts (.manager op)) (hen : Enabled w.sys op)
    (hs : Decd.step w.sys op = .ret r sys) : Inv { w with sys := sys } := by
  obtain ⟨hd, hproc, htype⟩ := manager_drops hacc hen h.linked.proc hs
  refine ⟨h.mem, h.linked.drops rfl rfl hd hproc fun i j hc => ?_, h.counted⟩
  rw [← h.linked.type i j hc]
  exact htype i j hc

theorem enable (hcall : w.call = .idle) : Inv { w with
      sys := ⟨decFrameManagerInit w.size w.sys.dev.heap w.sys.dev.lastFrame w.sys.dev.released, .idle, .idle⟩
      enabled := true } := by
  refine ⟨h.mem, h.linked.drops (b := false) rfl rfl (.of_obj rfl (fun hf => by cases hf) rfl rfl) ?_ ?_, h.counted⟩
  · dsimp only
    rw [hcall]
    rintro ⟨⟩
  · intro i j hc
    cases hcall.symm.trans hc

theorem disable (hcall : w.call = .idle) (hs : Decd.step w.sys .stop = .ret r sys) :
    Inv { w with sys := sys, call := .disabling } := by
  obtain ⟨hd, hproc⟩ := stop_drops hs
  refine ⟨h.mem, h.linked.drops rfl rfl hd hproc ?_, fun i => ?_⟩
  · rintro i j ⟨⟩
  · rw [h.counted i, hcall]
    rfl

theorem exit (hcall : w.call = .disabling) {d : Dev} (hd : decFrameManagerFree w.sys.dev = .ret () d) :
    Inv { w with sys := { w.sys with dev := d }, call := .idle, enabled := false } := by
  have hproc := h.linked.proc
  rw [hcall] at hproc
  refine ⟨h.mem, h.linked.drops rfl rfl (free_drops hd) hproc ?_, fun i => ?_⟩
  · rintro i j ⟨⟩
  · rw [h.counted i, hcall]
    rfl

theorem close {file : Nat} (hm : w.mem.close file = .ret () m) : Inv { w with mem := m } := by
  refine h.still rfl rfl rfl (h.mem.close hm) h.linked.proc (fun _ _ hc => hc) fun i => ?_
  rw [Mem.Ok.close_items hm]
  exact h.counted i

theorem step {op : Op} (hp : Possible w op) (hs : World.step w op = .ret () w') : Inv w' := by
  obtain ⟨hacc, hok⟩ := hp
  cases goes_of_step hacc hs with
  | refused | pairRefused | notEnabled | notDisabled | poll => exact h
  | made hcall dmaBufs fence => exact h.made hcall hok ..
  | enqueue hcall hlive hsys => exact h.enqueue hcall hlive hsys
  | resume hcall hsys => exact h.resume hcall hsys
  | pairResume hcall hsys => exact h.pairResume hcall hsys
  | fence hcall hitem => exact h.fenceFd _ hcall hitem
  | release hcall hm => exact h.release hcall hm
  | pairUndone hcall hsys hm =>
    rcases hm with rfl | ⟨desc, dmaBufs, fence, hm⟩
    · exact h.pairUndone hcall hok hsys h.mem fun _ => rfl
    · obtain ⟨hmem, hcount⟩ := made_released h.mem hm
      exact h.pairUndone hcall hok hsys hmem hcount
  | pairMade hcall hsys => exact h.pairMade hcall hok hsys ..
  | enqueuePair hcall hsys => exact h.enqueuePair hcall hsys
  | callback hhead hlookup hm => exact h.callback hhead hlookup hm
  | manager hsys => exact h.manager hacc hok hsys
  | enable hcall => exact h.enable hcall
  | disable hcall hsys => exact h.disable hcall hsys
  | exit hcall hd => exact h.exit hcall hd
  | close hm => exact h.close hm

end

end Inv

theorem inv_of_run {size : Nat} {fenceCtx : Bool} {ops : List Op} {w : World}
    (hr : Run step Possible (init size fenceCtx) ops w) : Inv w :=
  hr.inv (fun _ _ _ _ h hp hs => h.step hp hs) (.init size fenceCtx)

/-- The references to an item are those of its frames; with the last it is released once, unmapped and
signalled. -/
structure Settled (w : World) (i : Nat) : Prop where
  count : w.mem.items.count i = w.queued i
  released : w.mem.released.count i = if w.queued i = 0 then 1 else 0
  unmapped : w.queued i = 0 → w.mem.mapped i = 0
  signaled : ∀ f < w.mem.fences, (w.mem.fence f).item = i → ((w.mem.fence f).signaled ↔ w.queued i = 0)

theorem Inv.settled {w : World} (h : Inv w) {i : Nat} (hi : i < w.mem.items.next)
    (hcount : w.mem.items.count i = w.queued i) : Settled w i := by
  have hlive : w.mem.items.Live i ↔ w.queued i ≠ 0 := by
    rw [← h.mem.wf.count_pos, hcount]
    exact Nat.pos_iff_ne_zero
  refine ⟨hcount, ?_, fun h0 => ?_, fun f hf hitem => ?_⟩
  · rw [h.mem.released i]
    refine if_congr ?_ rfl rfl
    rw [hlive, not_not]
    exact and_iff_right hi
  · rw [h.mem.mapped i, Heap.obj?_of_not_live (fun hl => hlive.mp hl h0)]
    rfl
  · rw [h.mem.signaled f hf, hitem, hlive, not_not]

/-- In every run, for every item that no call is working on: it is settled if and only if a frame could be
allocated each time one was to be queued with it. -/
theorem settled_iff {size : Nat} {fenceCtx : Bool} {ops : List Op} {w : World}
    (hr : Run step Possible (init size fenceCtx) ops w) {i : Nat} (hi : i < w.mem.items.next)
    (hfree : w.call.holds i = 0) : Settled w i ↔ i ∉ w.failed := by
  have h := inv_of_run hr
  have hcount := h.counted i
  rw [hfree] at hcount
  constructor
  · intro hs
    rw [← List.count_eq_zero]
    have := hs.count
    omega
  · intro hnone
    rw [← List.count_eq_zero] at hnone
    exact h.settled hi (by omega)

def plainDesc : Desc := ⟨false, false, 0, false⟩

def plenty : CreateEnv := ⟨true, true, true, true⟩

def submitOps : List Op := [.submit plainDesc plenty 1 true, .enqueue true, .resume, .fence true, .release]

def fourOps : List Op :=
  .enable true :: submitOps ++ submitOps ++ submitOps ++ submitOps ++
    [.manager .vsync, .manager .refresh, .manager .vsync, .manager .refresh, .manager .vsync, .manager .refresh,
      .manager .work, .manager .work, .manager .work, .manager .work, .callback]

theorem settled_first : ∃ w, Run step Possible (init 8 true) fourOps w ∧
    w.mem.released = [0] ∧ (Settled w 0 ↔ 0 ∉ w.failed) := by
  refine Run.exists_of_exec_imp
    (P := fun w => w.mem.released = [0] ∧ 0 < w.mem.items.next ∧ w.call.holds 0 = 0)
    (by decide +kernel) fun w hr hend => ?_
  obtain ⟨hreleased, hi, hfree⟩ := hend
  exact ⟨hreleased, settled_iff hr hi hfree⟩

theorem unqueued_item_stays : ∃ w, Run step Possible (init 8 true)
      [.enable true, .submit plainDesc plenty 1 true, .enqueue false, .fence true, .release] w ∧
    w.call = .idle ∧ w.queued 0 = 0 ∧ w.mem.items.count 0 = 1 ∧ w.mem.released = [] ∧ w.mem.mapped 0 = 2 :=
  Run.exists_of_exec (by decide +kernel)

end World

end H713.Decd
