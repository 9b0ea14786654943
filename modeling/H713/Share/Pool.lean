import H713.Lib.FreePool
import H713.Share.Seq
import H713.Socket.Init

/-!
# Share.Pool

The two pools of the protocol in any order of their calls: the call entries of one share sequence and the wait
entries of one socket. `calls` and `waits` are the entries that were handed out and not given back.
-/

namespace H713.Share

open Fifo Smm FreePool Socket

structure Pools where
  seq : Seq
  calls : List Nat
  sock : Words
  waits : List Nat

inductive PoolOp where
  | getFreeCall
  | releaseFreeCall (cur call : Nat)
  | getFreeWait
  | releaseWait (waitEntry : Nat)
  deriving DecidableEq, Repr

def poolStep (m : Shm) (a : Nat) (p : Pools) : PoolOp → Out Pools Unit
  | .getFreeCall => (commGetFreeCall m p.seq).bind fun e s =>
      .ret () { p with seq := s, calls := if e = 0 then p.calls else e :: p.calls }
  | .releaseFreeCall cur call => (commReleaseFreeCall m cur p.seq call).bind fun _ s =>
      .ret () { p with seq := s, calls := p.calls.erase call }
  | .getFreeWait =>
      match getFreeWaitComm a p.sock with
      | (some x, w) => .ret () { p with sock := w, waits := x :: p.waits }
      | (none, w) => .ret () { p with sock := w }
  | .releaseWait x => (releaseWaitBody a p.sock x).bind fun _ w =>
      .ret () { p with sock := w, waits := p.waits.erase x }

/-- Only what was handed out is given back. -/
def HandedOut (p : Pools) : PoolOp → Prop
  | .releaseFreeCall _ call => call ∈ p.calls
  | .releaseWait x => x ∈ p.waits
  | _ => True

instance (p : Pools) (op : PoolOp) : Decidable (HandedOut p op) := by
  cases op <;> unfold HandedOut <;> infer_instance

def CallsSplit (m : Shm) (seq : Nat) (s : Seq) (out : List Nat) : Prop :=
  ∃ q, HoldsFree m seq s q ∧ Splits (entries seq) q out

def WaitsSplit (a : Nat) (w : Words) (out : List Nat) : Prop :=
  ∃ q, RingHolds a w q ∧ Splits (Socket.waits a) q out

section

variable {m : Shm} {seq a e : Nat} {s s' : Seq} {w w' : Words} {out : List Nat}

section

variable (hm : Mapped m) (hs : Inside m seq) (h : CallsSplit m seq s out)

include hm hs h

theorem CallsSplit.get (hg : commGetFreeCall m s = .ret e s') :
    CallsSplit m seq s' (if e = 0 then out else e :: out) ∧ s'.localCpu = s.localCpu ∧
      s'.remoteCpu = s.remoteCpu := by
  obtain ⟨q, hq, hsp⟩ := h
  obtain ⟨rfl, rfl⟩ | ⟨q', rfl, hne, hq', hl, hr⟩ := hq.get hm hs hg
  · exact ⟨⟨q, hq, hsp⟩, rfl, rfl⟩
  · rw [if_neg hne]
    exact ⟨⟨q', hq', hsp.take⟩, hl, hr⟩

theorem CallsSplit.release (he : e ∈ out) :
    releaseBody m s e = .ret () (s.given m e) ∧ CallsSplit m seq (s.given m e) (out.erase e) := by
  obtain ⟨q, hq, hsp⟩ := h
  have hroom := hsp.room he
  rw [entries_length] at hroom
  obtain ⟨hret, hq'⟩ := hq.release_room hm hs hroom (hsp.mem_iff.mpr (.inr he))
  exact ⟨hret, q ++ [e], hq', hsp.give he⟩

end

theorem WaitsSplit.get (ha : Low a) (h : WaitsSplit a w out) :
    (∃ x w', getFreeWaitComm a w = (some x, w') ∧ WaitsSplit a w' (x :: out)) ∨
      getFreeWaitComm a w = (none, w) := by
  obtain ⟨q, hq, hsp⟩ := h
  cases q with
  | nil => exact .inr (hq.get_nil ha)
  | cons x q =>
    obtain ⟨hx, hq'⟩ := hq.get_cons ha
    exact .inl ⟨x, _, hx, q, hq', hsp.take⟩

theorem WaitsSplit.release (ha : Low a) (h : WaitsSplit a w out) (he : e ∈ out) :
    ∃ w', releaseWaitBody a w e = .ret () w' ∧ WaitsSplit a w' (out.erase e) := by
  obtain ⟨q, hq, hsp⟩ := h
  have hroom := hsp.room he
  obtain ⟨w', hret, hq'⟩ := hq.release_room (x := e) ha (by simpa [Socket.waits] using hroom)
  exact ⟨w', hret, q ++ [e], hq', hsp.give he⟩

structure PoolsInv (m : Shm) (seq a cpu remote : Nat) (p : Pools) : Prop where
  calls : CallsSplit m seq p.seq p.calls
  waits : WaitsSplit a p.sock p.waits
  localCpu : p.seq.localCpu = cpu
  remoteCpu : p.seq.remoteCpu = remote

theorem PoolsInv.step (hm : Mapped m) (hs : Inside m seq) (ha : Low a) {cpu remote : Nat}
    {p p' : Pools} {op : PoolOp} {r : Unit} (h : PoolsInv m seq a cpu remote p)
    (hok : HandedOut p op) (hstep : poolStep m a p op = .ret r p') : PoolsInv m seq a cpu remote p' := by
  cases op with
  | getFreeCall =>
    obtain ⟨e, s', hg, hret⟩ := Out.bind_eq_ret hstep
    cases hret
    obtain ⟨hc, hl, hr⟩ := h.calls.get hm hs hg
    exact ⟨hc, h.waits, hl.trans h.localCpu, hr.trans h.remoteCpu⟩
  | releaseFreeCall cur call =>
    obtain ⟨hbody, hc⟩ := h.calls.release hm hs hok
    obtain ⟨_, s', hg, hret⟩ := Out.bind_eq_ret hstep
    cases hret
    simp only [commReleaseFreeCall, hbody] at hg
    split at hg
    · cases hg
    · split at hg
      · cases hg
      · cases hg
        exact ⟨hc, h.waits, h.localCpu, h.remoteCpu⟩
  | getFreeWait =>
    obtain ⟨x, w', hg, hw⟩ | hg := h.waits.get ha
    · simp only [poolStep, hg] at hstep
      cases hstep
      exact ⟨h.calls, hw, h.localCpu, h.remoteCpu⟩
    · simp only [poolStep, hg] at hstep
      cases hstep
      exact h
  | releaseWait x =>
    obtain ⟨w', hg, hw⟩ := h.waits.release ha hok
    simp only [poolStep, hg, Out.bind] at hstep
    cases hstep
    exact ⟨h.calls, hw, h.localCpu, h.remoteCpu⟩

end

def initPools (m : Shm) (cpu remote dir a sockCpu : Nat) (s : Seq) (w : Words) : Option Pools :=
  (initSeq m (getShareSeq m cpu remote dir) cpu remote dir s).bind fun s =>
    (initCommSeqMem a sockCpu w).map fun w => ⟨s, [], w, []⟩

theorem initPools_inv {m : Shm} (hm : Mapped m) {cpu remote dir a sockCpu : Nat} (hc : cpu ≤ 1)
    (hr : remote ≤ 1) (hd : dir ≤ 1) (ha : Low a) (hk : sockCpu ≤ 1) (s : Seq) (w : Words) :
    ∃ p, initPools m cpu remote dir a sockCpu s w = some p ∧
      PoolsInv m (getShareSeq m cpu remote dir) a cpu remote p := by
  obtain ⟨s', hs', hfree, hl, hrem⟩ :=
    initSeq_holdsFree hm (getShareSeq_inside m hc hr hd) cpu remote dir s
  obtain ⟨w', hw', hring, -⟩ := initCommSeqMem_holds ha hk w
  refine ⟨⟨s', [], w', []⟩, by simp only [initPools, hs', hw', Option.bind_some, Option.map_some],
    ⟨_, hfree, ?_⟩, ⟨_, hring, ?_⟩, hl, hrem⟩ <;>
    simp only [Splits, List.append_nil, List.Perm.refl]

/-- In every order of the calls the free entries differ from one another, they and the entries that
are out are the 20 of the initialisation, and a release finds room. -/
theorem pools_conserved {m : Shm} (hm : Mapped m) {cpu remote dir a sockCpu : Nat} (hc : cpu ≤ 1)
    (hr : remote ≤ 1) (hd : dir ≤ 1) (ha : Low a) (hk : sockCpu ≤ 1) (s : Seq) (w : Words) :
    ∃ p₀, initPools m cpu remote dir a sockCpu s w = some p₀ ∧ ∀ ops p, Run (poolStep m a) HandedOut p₀ ops p →
        (∃ q, HoldsFree m (getShareSeq m cpu remote dir) p.seq q ∧ q.Nodup ∧
          (q ++ p.calls).Perm (entries (getShareSeq m cpu remote dir))) ∧
        (∃ q, RingHolds a p.sock q ∧ q.Nodup ∧ (q ++ p.waits).Perm (Socket.waits a)) ∧
        (∀ e ∈ p.calls, ∃ s', commReleaseFreeCall m cpu p.seq e = .ret () s') ∧
        (∀ x ∈ p.waits, ∃ w', releaseWaitBody a p.sock x = .ret () w') := by
  have hs := getShareSeq_inside m hc hr hd
  obtain ⟨p₀, hp₀, hinv⟩ := initPools_inv hm hc hr hd ha hk s w
  refine ⟨p₀, hp₀, fun ops p hrun => ?_⟩
  have h := hrun.inv (fun _ _ _ _ hi hok => hi.step hm hs ha hok) hinv
  obtain ⟨q, hq, hsp⟩ := h.calls
  obtain ⟨q', hq', hsp'⟩ := h.waits
  refine ⟨⟨q, hq, (hsp.nodup (entries_nodup _)).1, hsp⟩,
    ⟨q', hq', (hsp'.nodup (waits_nodup ha)).1, hsp'⟩, fun e he => ?_, fun x hx => ?_⟩
  · refine ⟨p.seq.given m e, ?_⟩
    rw [commReleaseFreeCall_eq h.localCpu (h.remoteCpu ▸ hr)]
    exact (h.calls.release hm hs he).1
  · obtain ⟨w', hw', -⟩ := h.waits.release ha hx
    exact ⟨w', hw'⟩

def outOfOrder : List PoolOp :=
  [.getFreeCall, .getFreeWait, .getFreeCall,
    .releaseFreeCall 0 (entryVir (getShareSeq shmAt64K 0 1 0) 1),
    .getFreeWait, .releaseWait (ptr 4096 73)]

theorem pools_conserved_outOfOrder : ∃ p₀ p, initPools shmAt64K 0 1 0 4096 0 zeroSeq (fun _ => 0) = some p₀ ∧
      Run (poolStep shmAt64K 4096) HandedOut p₀ outOfOrder p ∧
      ∃ q, HoldsFree shmAt64K (getShareSeq shmAt64K 0 1 0) p.seq q ∧ q.Nodup ∧
        (q ++ p.calls).Perm (entries (getShareSeq shmAt64K 0 1 0)) := by
  obtain ⟨p₀, hp₀, hall⟩ := pools_conserved shmAt64K_mapped (Nat.zero_le 1) (Nat.le_refl 1)
    (Nat.zero_le 1) (⟨by decide, by decide⟩ : Low 4096) (Nat.zero_le 1) zeroSeq (fun _ => 0)
  have hx : (initPools shmAt64K 0 1 0 4096 0 zeroSeq (fun _ => 0)).any
      (fun p => (Run.exec (poolStep shmAt64K 4096) HandedOut p outOfOrder).isSome) = true := by
    decide +kernel
  rw [hp₀] at hx
  obtain ⟨p, hp⟩ := Option.isSome_iff_exists.mp hx
  exact ⟨p₀, p, hp₀, Run.of_exec hp, (hall _ p (Run.of_exec hp)).1⟩

end H713.Share
