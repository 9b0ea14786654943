import H713.Lib.FreePool
import H713.Share.Seq

/-!
# Share.Reset

The call entries of all share sequences across a CPU reset. Phase 1 of `setCPUReset` fills the rings of the
sequences of that CPU anew and does not look at the entries that are out.
-/

namespace H713.Share

open Function
open Fifo Smm FreePool

structure Key where
  cpu : Fin 2
  remote : Fin 2
  dir : Fin 2
  deriving DecidableEq, Repr

def Key.addr (m : Shm) (k : Key) : Nat := getShareSeq m k.cpu k.remote k.dir

theorem Key.inside (m : Shm) (k : Key) : Inside m (k.addr m) :=
  getShareSeq_inside m (by omega) (by omega) (by omega)

def initShareSeqDir (m : Shm) (k : Key) (q : Key → Seq) : Option (Key → Seq) :=
  (initSeq m (k.addr m) k.cpu k.remote k.dir (q k)).map (update q k)

def initCommShareSeqMem (m : Shm) (cpu remote : Fin 2) (q : Key → Seq) : Option (Key → Seq) :=
  (initShareSeqDir m ⟨cpu, remote, 0⟩ q).bind (initShareSeqDir m ⟨cpu, remote, 1⟩)

def initPairs (m : Shm) (q : Key → Seq) : List (Fin 2 × Fin 2) → Option (Key → Seq)
  | [] => some q
  | p :: ps => (initCommShareSeqMem m p.1 p.2 q).bind fun q => initPairs m q ps

def bootPairs : List (Fin 2 × Fin 2) := [(0, 0), (0, 1), (1, 0), (1, 1)]

def resetPairs (c : Fin 2) : List (Fin 2 × Fin 2) := [(0, c), (c, 0), (1, c), (c, 1)]

inductive Holder where
  | cached
  | inFlight
  | queued
  deriving DecidableEq, Repr

structure Shares where
  seq : Key → Seq
  held : Key → List (Nat × Holder)

inductive ShareOp where
  | getFreeCall (k : Key)
  | dispatch (k : Key) (e : Nat)
  | receive (k : Key) (e : Nat)
  | lose (k : Key) (e : Nat) (h : Holder)
  | releaseFreeCall (k : Key) (e : Nat)
  | setCPUReset (c : Fin 2)
  deriving DecidableEq, Repr

def Shares.put (s : Shares) (k : Key) (q : Seq) (l : List (Nat × Holder)) : Shares :=
  ⟨update s.seq k q, update s.held k l⟩

def Shares.pass (s : Shares) (k : Key) (e : Nat) (h h' : Holder) : Shares :=
  s.put k (s.seq k) ((e, h') :: (s.held k).erase (e, h))

def shareStep (m : Shm) (s : Shares) : ShareOp → Out Shares Unit
  | .getFreeCall k => (commGetFreeCall m (s.seq k)).bind fun e q =>
      .ret () (s.put k q (if e = 0 then s.held k else (e, .cached) :: s.held k))
  | .dispatch k e => .ret () (s.pass k e .cached .inFlight)
  | .receive k e => .ret () (s.pass k e .inFlight .queued)
  | .lose k e h => .ret () (s.put k (s.seq k) ((s.held k).erase (e, h)))
  | .releaseFreeCall k e => (commReleaseFreeCall m k.cpu (s.seq k) e).bind fun _ q =>
      .ret () (s.put k q ((s.held k).erase (e, .queued)))
  | .setCPUReset c =>
      match initPairs m s.seq (resetPairs c) with
      | some q => .ret () { s with seq := q }
      | none => .bug

/-- An entry goes on from where it is; a sender with a cached slot fetches no other. -/
def Possible (s : Shares) : ShareOp → Prop
  | .getFreeCall k => ∀ p ∈ s.held k, p.2 ≠ .cached
  | .dispatch k e => (e, .cached) ∈ s.held k
  | .receive k e => (e, .inFlight) ∈ s.held k
  | .lose k e h => (e, h) ∈ s.held k ∧ h ≠ .queued
  | .releaseFreeCall k e => (e, .queued) ∈ s.held k
  | .setCPUReset _ => True

/-- No entry of a sequence of `c` is out. -/
def NoneOut (c : Fin 2) (s : Shares) : Prop := ∀ k, k.cpu = c ∨ k.remote = c → s.held k = []

/-- A CPU is only reset when none of its entries is out. -/
def CalmReset (s : Shares) (op : ShareOp) : Prop :=
  Possible s op ∧ ∀ c, op = .setCPUReset c → NoneOut c s

/-- Every entry has one holder, and what is queued can be released. -/
def Right (m : Shm) (s : Shares) : Prop :=
  ∀ k, ((s.held k).map Prod.fst).Nodup ∧
    ∀ e, (e, .queued) ∈ s.held k → ∃ q, commReleaseFreeCall m k.cpu (s.seq k) e = .ret () q

/-- All entries of the sequence are in its ring. -/
structure Fresh (m : Shm) (k : Key) (s : Seq) : Prop where
  free : HoldsFree m (k.addr m) s (entries (k.addr m))
  localCpu : s.localCpu = k.cpu
  remoteCpu : s.remoteCpu = k.remote

section

variable {m : Shm} {q : Key → Seq}

theorem initShareSeqDir_spec (hm : Mapped m) (k : Key) (q : Key → Seq) :
    ∃ s, initShareSeqDir m k q = some (update q k s) ∧ Fresh m k s := by
  obtain ⟨s, hs, hf, hl, hr⟩ := initSeq_holdsFree hm (k.inside m) k.cpu k.remote k.dir (q k)
  exact ⟨s, by rw [initShareSeqDir, hs, Option.map_some], hf, hl, hr⟩

theorem initCommShareSeqMem_spec (hm : Mapped m) (cpu remote : Fin 2) (q : Key → Seq) :
    ∃ q', initCommShareSeqMem m cpu remote q = some q' ∧
      ∀ k : Key, if (k.cpu, k.remote) = (cpu, remote) then Fresh m k (q' k) else q' k = q k := by
  obtain ⟨s₀, h₀, hf₀⟩ := initShareSeqDir_spec hm ⟨cpu, remote, 0⟩ q
  obtain ⟨s₁, h₁, hf₁⟩ := initShareSeqDir_spec hm ⟨cpu, remote, 1⟩ (update q ⟨cpu, remote, 0⟩ s₀)
  refine ⟨_, by rw [initCommShareSeqMem, h₀, Option.bind_some, h₁], fun k => ?_⟩
  obtain ⟨c, r, d⟩ := k
  simp only [Prod.mk.injEq]
  split
  · rename_i h
    obtain ⟨rfl, rfl⟩ := h
    match d with
    | 0 => rw [update_of_ne (by simp), update_self]; exact hf₀
    | 1 => rw [update_self]; exact hf₁
  · rename_i h
    have hne : ∀ d', (⟨c, r, d⟩ : Key) ≠ ⟨cpu, remote, d'⟩ := by
      rintro d' ⟨⟩
      exact h ⟨rfl, rfl⟩
    rw [update_of_ne (hne 1), update_of_ne (hne 0)]

theorem initPairs_spec (hm : Mapped m) (ps : List (Fin 2 × Fin 2)) : ∀ q, ∃ q', initPairs m q ps = some q' ∧
      ∀ k : Key, ((k.cpu, k.remote) ∈ ps → Fresh m k (q' k)) ∧ ((k.cpu, k.remote) ∉ ps → q' k = q k) := by
  induction ps with
  | nil => intro q; exact ⟨q, rfl, fun k => ⟨by simp, fun _ => rfl⟩⟩
  | cons p ps ih =>
    intro q
    obtain ⟨q₁, h₁, hs₁⟩ := initCommShareSeqMem_spec hm p.1 p.2 q
    obtain ⟨q₂, h₂, hs₂⟩ := ih q₁
    refine ⟨q₂, by rw [initPairs, h₁, Option.bind_some, h₂], fun k => ?_⟩
    have hk := hs₁ k
    obtain ⟨hin, hout⟩ := hs₂ k
    simp only [List.mem_cons, not_or]
    refine ⟨fun hmem => ?_, fun ⟨hne, hnot⟩ => ?_⟩
    · by_cases hps : (k.cpu, k.remote) ∈ ps
      · exact hin hps
      · obtain hp | hp := hmem
        · rw [if_pos hp] at hk
          rw [hout hps]
          exact hk
        · exact absurd hp hps
    · rw [if_neg hne] at hk
      rw [hout hnot, hk]

theorem mem_bootPairs (k : Key) : (k.cpu, k.remote) ∈ bootPairs := by
  obtain ⟨i, r, d⟩ := k
  revert i r d
  decide

theorem mem_resetPairs {c : Fin 2} {k : Key} : (k.cpu, k.remote) ∈ resetPairs c ↔ k.cpu = c ∨ k.remote = c := by
  obtain ⟨i, r, d⟩ := k
  revert c i r d
  decide

structure KeyOk (m : Shm) (k : Key) (s : Seq) (held : List (Nat × Holder)) : Prop where
  pool : ∃ q, HoldsFree m (k.addr m) s q ∧ Within (entries (k.addr m)) q (held.map Prod.fst)
  localCpu : s.localCpu = k.cpu
  remoteCpu : s.remoteCpu = k.remote

variable {k : Key} {s s' : Seq} {e : Nat} {h : Holder} {held : List (Nat × Holder)}

theorem Fresh.keyOk (hf : Fresh m k s) : KeyOk m k s [] :=
  ⟨⟨_, hf.free, by simp only [Within, List.map_nil, List.append_nil]; exact List.Subperm.refl _⟩,
    hf.localCpu, hf.remoteCpu⟩

theorem held_perm (hmem : (e, h) ∈ held) : (e :: (held.erase (e, h)).map Prod.fst).Perm (held.map Prod.fst) :=
  ((List.perm_cons_erase hmem).map Prod.fst).symm

theorem KeyOk.get (hm : Mapped m) (hk : KeyOk m k s held) (hg : commGetFreeCall m s = .ret e s') :
    KeyOk m k s' (if e = 0 then held else (e, .cached) :: held) := by
  obtain ⟨⟨q, hq, hw⟩, hl, hr⟩ := hk
  obtain ⟨rfl, rfl⟩ | ⟨q', rfl, hne, hq', hl', hr'⟩ := hq.get hm (k.inside m) hg
  · exact ⟨⟨q, hq, hw⟩, hl, hr⟩
  · rw [if_neg hne]
    exact ⟨⟨q', hq', hw.take⟩, hl'.trans hl, hr'.trans hr⟩

theorem KeyOk.pass (hk : KeyOk m k s held) (hmem : (e, h) ∈ held) (h' : Holder) :
    KeyOk m k s ((e, h') :: held.erase (e, h)) := by
  obtain ⟨⟨q, hq, hw⟩, hl, hr⟩ := hk
  exact ⟨⟨q, hq, hw.congr (held_perm hmem)⟩, hl, hr⟩

theorem KeyOk.lose (hk : KeyOk m k s held) (hmem : (e, h) ∈ held) : KeyOk m k s (held.erase (e, h)) := by
  obtain ⟨⟨q, hq, hw⟩, hl, hr⟩ := hk
  exact ⟨⟨q, hq, (hw.congr (held_perm hmem)).lose⟩, hl, hr⟩

theorem KeyOk.release (hm : Mapped m) (hk : KeyOk m k s held) (hmem : (e, h) ∈ held) :
    commReleaseFreeCall m k.cpu s e = .ret () (s.given m e) ∧ KeyOk m k (s.given m e) (held.erase (e, h)) := by
  obtain ⟨⟨q, hq, hw⟩, hl, hr⟩ := hk
  have hw' := hw.congr (held_perm hmem)
  have hroom := hw'.room
  rw [entries_length] at hroom
  obtain ⟨hret, hq'⟩ := hq.release_room hm (k.inside m) hroom (hw'.mem (List.mem_cons_self ..))
  exact ⟨(commReleaseFreeCall_eq hl (by omega)).trans hret, ⟨q ++ [e], hq', hw'.give⟩, hl, hr⟩

theorem KeyOk.nodup (hk : KeyOk m k s held) : (held.map Prod.fst).Nodup := by
  obtain ⟨⟨q, -, hw⟩, -⟩ := hk
  exact hw.out_nodup (entries_nodup _)

/-- All sequences. -/
def SharesOk (m : Shm) (s : Shares) : Prop := ∀ k, KeyOk m k (s.seq k) (s.held k)

theorem SharesOk.put {s : Shares} {q : Seq} (hs : SharesOk m s) (hk : KeyOk m k q held) :
    SharesOk m (s.put k q held) := by
  intro k'
  by_cases he : k' = k
  · subst he
    simp only [Shares.put, update_self]
    exact hk
  · simp only [Shares.put, update_of_ne he]
    exact hs k'

theorem SharesOk.right {s : Shares} (hm : Mapped m) (hs : SharesOk m s) : Right m s :=
  fun k => ⟨(hs k).nodup, fun e he => ⟨(s.seq k).given m e, ((hs k).release hm he).1⟩⟩

theorem reset_spec (hm : Mapped m) (c : Fin 2) (s : Shares) :
    ∃ s', shareStep m s (.setCPUReset c) = .ret () s' ∧ s'.held = s.held ∧
      (∀ k, k.cpu = c ∨ k.remote = c → Fresh m k (s'.seq k)) ∧
      ∀ k, ¬ (k.cpu = c ∨ k.remote = c) → s'.seq k = s.seq k := by
  obtain ⟨q, hq, hspec⟩ := initPairs_spec hm (resetPairs c) s.seq
  refine ⟨{ s with seq := q }, by simp only [shareStep, hq], rfl, fun k hk => ?_, fun k hk => ?_⟩
  · exact (hspec k).1 (mem_resetPairs.mpr hk)
  · exact (hspec k).2 fun h => hk (mem_resetPairs.mp h)

theorem SharesOk.reset {c : Fin 2} {s s' : Shares} {r : Unit} (hm : Mapped m) (hs : SharesOk m s)
    (hnone : NoneOut c s) (hstep : shareStep m s (.setCPUReset c) = .ret r s') : SharesOk m s' := by
  obtain ⟨s₁, h₁, hheld, hfresh, hsame⟩ := reset_spec hm c s
  obtain ⟨-, rfl⟩ := Out.ret.inj (h₁.symm.trans hstep)
  intro k
  rw [hheld]
  by_cases hk : k.cpu = c ∨ k.remote = c
  · rw [hnone k hk]
    exact (hfresh k hk).keyOk
  · rw [hsame k hk]
    exact hs k

theorem SharesOk.step {s s' : Shares} {op : ShareOp} {r : Unit} (hm : Mapped m) (hs : SharesOk m s)
    (hok : CalmReset s op) (hstep : shareStep m s op = .ret r s') : SharesOk m s' := by
  obtain ⟨hp, hreset⟩ := hok
  cases op with
  | getFreeCall k =>
    obtain ⟨e, q, hg, hret⟩ := Out.bind_eq_ret hstep
    cases hret
    exact hs.put ((hs k).get hm hg)
  | dispatch k e =>
    cases hstep
    exact hs.put ((hs k).pass hp .inFlight)
  | receive k e =>
    cases hstep
    exact hs.put ((hs k).pass hp .queued)
  | lose k e h =>
    cases hstep
    exact hs.put ((hs k).lose hp.1)
  | releaseFreeCall k e =>
    obtain ⟨hrel, hk⟩ := (hs k).release hm hp
    obtain ⟨_, q, hg, hret⟩ := Out.bind_eq_ret hstep
    obtain ⟨-, rfl⟩ := Out.ret.inj (hrel.symm.trans hg)
    cases hret
    exact hs.put hk
  | setCPUReset c => exact hs.reset hm (hreset c rfl) hstep

theorem queue_run {s : Shares} (hmem : (e, h) ∈ s.held k) :
    ∃ ops s', Run (shareStep m) CalmReset s ops s' ∧ s'.seq = s.seq ∧ (e, .queued) ∈ s'.held k := by
  have hseq : ∀ (s : Shares) (h h' : Holder), (s.pass k e h h').seq = s.seq :=
    fun s h h' => update_eq_self k s.seq
  have hin : ∀ (s : Shares) (h h' : Holder), (e, h') ∈ (s.pass k e h h').held k := by
    intro s h h'
    simp only [Shares.pass, Shares.put, update_self]
    exact List.mem_cons_self ..
  have hreceive : ∀ s : Shares, (e, .inFlight) ∈ s.held k →
      Run (shareStep m) CalmReset s [.receive k e] (s.pass k e .inFlight .queued) :=
    fun s hs => .cons ⟨hs, nofun⟩ rfl .nil
  cases h with
  | queued => exact ⟨[], s, .nil, rfl, hmem⟩
  | inFlight => exact ⟨_, _, hreceive s hmem, hseq .., hin ..⟩
  | cached =>
    have hrun : Run (shareStep m) CalmReset s [.dispatch k e, .receive k e]
        ((s.pass k e .cached .inFlight).pass k e .inFlight .queued) :=
      .cons ⟨hmem, nofun⟩ rfl (hreceive _ (hin ..))
    exact ⟨_, _, hrun, (hseq ..).trans (hseq ..), hin ..⟩

theorem Fresh.release_bug (hm : Mapped m) (hf : Fresh m k s) : commReleaseFreeCall m k.cpu s e = .bug := by
  have hr := hf.remoteCpu
  rw [commReleaseFreeCall_eq hf.localCpu (by omega)]
  exact hf.free.release_full hm (k.inside m) (entries_length _)

end

def bootShares (m : Shm) (q : Key → Seq) : Option Shares :=
  (initPairs m q bootPairs).map fun q => ⟨q, fun _ => []⟩

theorem bootShares_fresh {m : Shm} (hm : Mapped m) (q : Key → Seq) :
    ∃ s, bootShares m q = some s ∧ (∀ k, Fresh m k (s.seq k)) ∧ ∀ k, s.held k = [] := by
  obtain ⟨q', hq, hspec⟩ := initPairs_spec hm bootPairs q
  exact ⟨⟨q', fun _ => []⟩, by rw [bootShares, hq, Option.map_some],
    fun k => (hspec k).1 (mem_bootPairs k), fun _ => rfl⟩

/-- A reset leaves every continuation right exactly when no entry of the CPU's sequences was out. -/
theorem reset_right_iff {m : Shm} (hm : Mapped m) (q : Key → Seq) : ∃ s₀, bootShares m q = some s₀ ∧
      ∀ ops s, Run (shareStep m) CalmReset s₀ ops s → ∀ c, ∃ s₁, shareStep m s (.setCPUReset c) = .ret () s₁ ∧
          ((∀ ops' s', Run (shareStep m) CalmReset s₁ ops' s' → Right m s') ↔ NoneOut c s) := by
  obtain ⟨s₀, hs₀, hfresh₀, hheld₀⟩ := bootShares_fresh hm q
  have hok₀ : SharesOk m s₀ := fun k => hheld₀ k ▸ (hfresh₀ k).keyOk
  refine ⟨s₀, hs₀, fun ops s hr c => ?_⟩
  have hok := hr.inv (fun _ _ _ _ hi hc hs => hi.step hm hc hs) hok₀
  obtain ⟨s₁, hs₁, hheld, hfresh, -⟩ := reset_spec hm c s
  refine ⟨s₁, hs₁, fun hall k hk => ?_, fun hnone ops' s' hr' => ?_⟩
  · -- an entry that is out is brought to the queue and released
    refine List.eq_nil_iff_forall_not_mem.mpr fun ⟨e, h⟩ hmem => ?_
    obtain ⟨ops', s', hr', hseq, hq⟩ := queue_run (m := m) (hheld ▸ hmem : (e, h) ∈ s₁.held k)
    obtain ⟨q', hq'⟩ := (hall ops' s' hr' k).2 e hq
    rw [hseq, (hfresh k hk).release_bug hm] at hq'
    cases hq'
  · have hok₁ := hok.reset hm hnone hs₁
    exact (hr'.inv (fun _ _ _ _ hi hc hs => hi.step hm hc hs) hok₁).right hm

theorem getFreeCall_fresh {m : Shm} (hm : Mapped m) {k : Key} {s : Shares} (hf : Fresh m k (s.seq k)) :
    shareStep m s (.getFreeCall k) = .ret () (s.put k ((s.seq k).taken (entryVir (k.addr m) 0))
        ((entryVir (k.addr m) 0, .cached) :: s.held k)) := by
  have he : entries (k.addr m) =
      entryVir (k.addr m) 0 :: (List.range' 1 19).map (entryVir (k.addr m)) := rfl
  have hg := ((he ▸ hf.free).get_cons hm (k.inside m)).1
  have hne : entryVir (k.addr m) 0 ≠ 0 := by simp [entryVir]
  simp only [shareStep, hg, Out.bind, if_neg hne]

theorem reset_right_iff_otherCpu : ∃ s₀ s s₁, bootShares shmAt64K (fun _ => zeroSeq) = some s₀ ∧
      Run (shareStep shmAt64K) CalmReset s₀ [.getFreeCall ⟨0, 0, 0⟩] s ∧ s.held ⟨0, 0, 0⟩ ≠ [] ∧
      shareStep shmAt64K s (.setCPUReset 1) = .ret () s₁ ∧
      ∀ ops' s', Run (shareStep shmAt64K) CalmReset s₁ ops' s' → Right shmAt64K s' := by
  obtain ⟨s₀, hs₀, hall⟩ := reset_right_iff shmAt64K_mapped (fun _ => zeroSeq)
  obtain ⟨s₀', hs₀', hfresh, hheld⟩ := bootShares_fresh shmAt64K_mapped (fun _ => zeroSeq)
  obtain rfl : s₀ = s₀' := Option.some.inj (hs₀.symm.trans hs₀')
  have htake := getFreeCall_fresh shmAt64K_mapped (hfresh ⟨0, 0, 0⟩)
  have hp : Possible s₀ (.getFreeCall ⟨0, 0, 0⟩) := fun p hp => absurd hp (by simp [hheld])
  have hrun : Run (shareStep shmAt64K) CalmReset s₀ [.getFreeCall ⟨0, 0, 0⟩] _ :=
    .cons ⟨hp, nofun⟩ htake .nil
  obtain ⟨s₁, hs₁, hiff⟩ := hall _ _ hrun 1
  refine ⟨s₀, _, s₁, hs₀, hrun, ?_, hs₁, hiff.mpr fun k hk => ?_⟩
  · simp [Shares.put]
  · have hne : k ≠ ⟨0, 0, 0⟩ := by
      rintro rfl
      revert hk
      decide
    simp only [Shares.put, update_of_ne hne]
    exact hheld k

def mipsCalls : Key := ⟨0, 1, 0⟩

def firstEntry : Nat := entryVir (mipsCalls.addr shmAt64K) 0

theorem release_after_reset_bugs : ∃ s₀ s s', bootShares shmAt64K (fun _ => zeroSeq) = some s₀ ∧
    Run (shareStep shmAt64K) Possible s₀ [.getFreeCall mipsCalls, .dispatch mipsCalls firstEntry,
      .receive mipsCalls firstEntry, .setCPUReset 1] s ∧ s.held mipsCalls = [(firstEntry, .queued)] ∧
    shareStep shmAt64K s (.releaseFreeCall mipsCalls firstEntry) = .bug ∧
    Run (shareStep shmAt64K) Possible s [.getFreeCall mipsCalls] s' ∧
    s'.held mipsCalls = [(firstEntry, .cached), (firstEntry, .queued)] := by
  obtain ⟨s₀, hs₀, hfresh, hheld⟩ := bootShares_fresh shmAt64K_mapped (fun _ => zeroSeq)
  have htake : ∀ s, Fresh shmAt64K mipsCalls (s.seq mipsCalls) → ∃ s',
      shareStep shmAt64K s (.getFreeCall mipsCalls) = .ret () s' ∧
      s'.held mipsCalls = (firstEntry, .cached) :: s.held mipsCalls := fun s hs =>
    ⟨_, getFreeCall_fresh shmAt64K_mapped hs, by simp only [Shares.put, update_self]; rfl⟩
  have hpass : ∀ (s : Shares) (h h' : Holder), s.held mipsCalls = [(firstEntry, h)] →
      (s.pass mipsCalls firstEntry h h').held mipsCalls = [(firstEntry, h')] := by
    intro s h h' hs
    simp [Shares.pass, Shares.put, hs]
  obtain ⟨s₁, hget, h₁⟩ := htake s₀ (hfresh mipsCalls)
  rw [hheld] at h₁
  have h₂ := hpass s₁ .cached .inFlight h₁
  have h₃ := hpass _ .inFlight .queued h₂
  obtain ⟨s, hreset, hsame, hfresh', -⟩ := reset_spec shmAt64K_mapped 1
    ((s₁.pass mipsCalls firstEntry .cached .inFlight).pass mipsCalls firstEntry .inFlight .queued)
  have hqueued : s.held mipsCalls = [(firstEntry, .queued)] := hsame ▸ h₃
  have hnew := hfresh' mipsCalls (.inr rfl)
  obtain ⟨s', hget', h'⟩ := htake s hnew
  refine ⟨s₀, s, s', hs₀, .cons ?_ hget (.cons ?_ rfl (.cons ?_ rfl (.cons trivial hreset .nil))), hqueued, ?_,
    .cons ?_ hget' .nil, hqueued ▸ h'⟩
  · simp [Possible, hheld]
  · simp [Possible, h₁]
  · simp [Possible, h₂]
  · simp only [shareStep, hnew.release_bug shmAt64K_mapped, Out.bind]
  · simp [Possible, hqueued]

end H713.Share
