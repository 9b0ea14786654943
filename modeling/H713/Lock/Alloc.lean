import H713.Lock.Code

/-!
# Lock.Alloc

The lock ids 5..11 as a pool. A request writes the CPU into the owner byte of an id, and every lock and unlock of it
writes "free" there when it leaves. `Alloc` is the lock table with the ids that were obtained and not yet released.
-/

namespace H713.Lock

open Function
open Bytes

inductive AllocOp where
  | request
  | release (id : Nat)
  | lock (id tgid : Nat)
  | unlock (id : Nat)
  deriving DecidableEq, Repr

structure Alloc where
  locks : Locks
  got : List Nat

def allocStep (s : Alloc) : AllocOp → Out Alloc Int
  | .request =>
    (commReqestSpinLock s.locks).bind fun r l => .ret r ⟨l, if r = 255 then s.got else r :: s.got⟩
  | .release id =>
    (commReleaseSpinLock s.locks id).bind fun r l =>
      .ret r ⟨l, if r = 0 then s.got.erase id else s.got⟩
  | .lock id t => (commSpinLock s.locks id t).bind fun _ l => .ret 0 ⟨l, s.got⟩
  | .unlock id => (commSpinUnLock s.locks id).bind fun _ l => .ret 0 ⟨l, s.got⟩

def Spared (s : Alloc) : Prop := ∀ id ∈ firstFree s.locks, id ∉ s.got
deriving Decidable

def OnAllocated (s : Alloc) : AllocOp → Prop
  | .lock id _ | .unlock id => id ∈ s.got
  | .request | .release _ => True

instance (s : Alloc) (op : AllocOp) : Decidable (OnAllocated s op) := by
  cases op <;> unfold OnAllocated <;> infer_instance

/-- Only allocated locks are used, and the lowest id that looks free has not been given out at a request. -/
def Careful (s : Alloc) (op : AllocOp) : Prop :=
  OnAllocated s op ∧ (op = .request → Spared s)
deriving Decidable

section

variable {t t' : Locks} {id tgid : Nat}

theorem commSpinLock_frame (h : commSpinLock t id tgid = .ret () t') :
    ∃ e, t' = update t id e ∧ e.type = (t id).type := by
  obtain ⟨v, l, hl, he⟩ := Out.bind_eq_ret h
  cases he
  obtain ⟨-, -, rfl⟩ | ⟨-, -, -, rfl⟩ | ⟨-, -, rfl⟩ := spinLock_ret hl <;> exact ⟨_, rfl, rfl⟩

theorem unlockEntry_type (e : Entry) : (unlockEntry e).type = e.type := by
  simp only [unlockEntry, leaveCritical]
  split <;> rfl

theorem commSpinUnLock_frame (h : commSpinUnLock t id = .ret () t') :
    ∃ e, t' = update t id e ∧ e.type = (t id).type := by
  obtain ⟨-, rfl⟩ | ⟨-, -, rfl⟩ := commSpinUnLock_ret h
  · exact ⟨_, rfl, rfl⟩
  · exact ⟨_, rfl, unlockEntry_type _⟩

theorem firstFree_mem (h : firstFree t = some id) : id ∈ appIds ∧ (t id).owner = free :=
  ⟨List.mem_of_find?_eq_some h, by simpa using List.find?_some h⟩

end

def Vacant (e : Entry) : Prop := e.owner = free ∧ e.refCount = 0 ∧ e.threadId = noThread

/-- The locks given out differ, and the others are vacant. -/
structure Pool (s : Alloc) : Prop where
  nodup : s.got.Nodup
  range : ∀ id ∈ s.got, id ∈ appIds
  type : ∀ id ∈ appIds, (s.locks id).type = free
  vacant : ∀ id ∈ appIds, id ∉ s.got → Vacant (s.locks id)

namespace Pool

variable {s s' : Alloc} {id : Nat}

theorem request_spared (hp : Pool s) (hf : firstFree s.locks = some id) (hn : id ∉ s.got) :
    commReqestSpinLock s.locks =
      .ret id (update s.locks id { s.locks id with mutex := 0, owner := getCurCPUID }) := by
  obtain ⟨hm, -⟩ := firstFree_mem hf
  obtain ⟨-, hr, ht⟩ := hp.vacant id hm hn
  simp only [commReqestSpinLock, hf, hr, ht, hp.type id hm, ne_eq, not_true_eq_false, if_false]

theorem request_taken (hf : firstFree s.locks = some id) :
    commReqestSpinLock s.locks = .bug ∨ ∃ l, commReqestSpinLock s.locks = .ret id l := by
  simp only [commReqestSpinLock, hf]
  split
  · exact .inl rfl
  split
  · exact .inl rfl
  split
  · exact .inl rfl
  · exact .inr ⟨_, rfl⟩

theorem spared_iff (hp : Pool s) : Spared s ↔ commReqestSpinLock s.locks ≠ .bug ∧
      ∀ r l, commReqestSpinLock s.locks = .ret r l → r ∉ s.got := by
  cases hf : firstFree s.locks with
  | none =>
    have hc : commReqestSpinLock s.locks = .ret 255 s.locks := by simp only [commReqestSpinLock, hf]
    rw [hc]
    refine iff_of_true (fun id hid => ?_) ⟨(fun hb => by cases hb), fun r l h => ?_⟩
    · rw [hf] at hid; cases hid
    · obtain ⟨rfl, -⟩ := Out.ret.inj h
      exact fun hg => absurd (hp.range _ hg) (by decide)
  | some id =>
    have hs : Spared s ↔ id ∉ s.got := by simp only [Spared, hf, Option.mem_some_iff, forall_eq']
    rw [hs]
    constructor
    · intro hn
      rw [hp.request_spared hf hn]
      exact ⟨(fun hb => by cases hb), fun r l h => (Out.ret.inj h).1 ▸ hn⟩
    · rintro ⟨hb, hr⟩
      obtain h | ⟨l, h⟩ := request_taken hf
      · exact absurd h hb
      · exact hr id l h

theorem update_got (hp : Pool s) (hg : id ∈ s.got) {e : Entry} (ht : e.type = (s.locks id).type) :
    Pool ⟨update s.locks id e, s.got⟩ := by
  refine ⟨hp.nodup, hp.range, fun j hj => ?_, fun j hj hn => ?_⟩
  · by_cases h : j = id
    · subst h; simpa [ht] using hp.type j hj
    · simpa [h] using hp.type j hj
  · have h : j ≠ id := fun h => hn (h ▸ hg)
    simpa [h] using hp.vacant j hj hn

theorem request (hp : Pool s) (hs : Spared s) {r : Int} (h : allocStep s .request = .ret r s') : Pool s' := by
  obtain ⟨v, l, hl, he⟩ := Out.bind_eq_ret h
  obtain ⟨-, rfl⟩ := Out.ret.inj he
  cases hf : firstFree s.locks with
  | none =>
    simp only [commReqestSpinLock, hf] at hl
    obtain ⟨rfl, rfl⟩ := Out.ret.inj hl
    exact hp
  | some id =>
    have hn : id ∉ s.got := hs id hf
    obtain ⟨hm, -⟩ := firstFree_mem hf
    rw [hp.request_spared hf hn] at hl
    obtain ⟨rfl, rfl⟩ := Out.ret.inj hl
    have hne : id ≠ 255 := fun h => absurd (h ▸ hm) (by decide)
    rw [if_neg hne]
    have hp' : Pool ⟨s.locks, id :: s.got⟩ :=
      ⟨List.nodup_cons.mpr ⟨hn, hp.nodup⟩, List.forall_mem_cons.mpr ⟨hm, hp.range⟩, hp.type,
        fun j hj hg => hp.vacant j hj fun h => hg (List.mem_cons_of_mem _ h)⟩
    exact hp'.update_got (List.mem_cons_self ..) rfl

theorem release (hp : Pool s) {r : Int} (h : allocStep s (.release id) = .ret r s') : Pool s' := by
  obtain ⟨v, l, hl, he⟩ := Out.bind_eq_ret h
  cases he
  simp only [commReleaseSpinLock] at hl
  split at hl
  · cases hl
  split at hl
  · cases hl
    exact hp
  · rename_i hm hu
    cases hl
    simp only [ne_eq, not_or, not_not] at hm hu
    rw [if_pos rfl]
    refine ⟨hp.nodup.erase id, fun j hj => hp.range j (List.mem_of_mem_erase hj), fun j hj => ?_,
      fun j hj hn => ?_⟩
    · by_cases h : j = id
      · subst h; simpa using hp.type j hj
      · simpa [h] using hp.type j hj
    · by_cases h : j = id
      · subst h; simpa [Vacant] using hu
      · have hn' : j ∉ s.got := fun hg => hn ((List.mem_erase_of_ne h).mpr hg)
        simpa [h] using hp.vacant j hj hn'

theorem step {op : AllocOp} {r : Int} (hp : Pool s) (hc : Careful s op)
    (h : allocStep s op = .ret r s') : Pool s' := by
  cases op with
  | request => exact hp.request (hc.2 rfl) h
  | release id => exact hp.release h
  | lock id t =>
    obtain ⟨_, l, hl, he⟩ := Out.bind_eq_ret h
    cases he
    obtain ⟨e, rfl, ht⟩ := commSpinLock_frame hl
    exact hp.update_got hc.1 ht
  | unlock id =>
    obtain ⟨_, l, hl, he⟩ := Out.bind_eq_ret h
    cases he
    obtain ⟨e, rfl, ht⟩ := commSpinUnLock_frame hl
    exact hp.update_got hc.1 ht

theorem init {hw : Int} {t₀ l₀ : Locks} (h : commInitSpinLock hw t₀ = .ret 0 l₀) : Pool ⟨l₀, []⟩ := by
  have hl : ∀ id ∈ appIds, l₀ id = initEntry := by
    intro id hid
    rw [commInitSpinLock_entries h]
    exact if_pos (by simp only [appIds, List.mem_cons, List.not_mem_nil, or_false] at hid; omega)
  refine ⟨List.nodup_nil, nofun, fun id hid => ?_, fun id hid _ => ?_⟩
  · rw [show (⟨l₀, []⟩ : Alloc).locks id = initEntry from hl id hid]; rfl
  · rw [show (⟨l₀, []⟩ : Alloc).locks id = initEntry from hl id hid]; exact ⟨rfl, rfl, rfl⟩

end Pool

/-- The obtained ids are distinct, and a request goes wrong only by the ids it takes for free. -/
theorem requested_ids_distinct {hw : Int} {t₀ l₀ : Locks} (h₀ : commInitSpinLock hw t₀ = .ret 0 l₀)
    {ops : List AllocOp} {s : Alloc} (hr : Run allocStep Careful ⟨l₀, []⟩ ops s) : s.got.Nodup ∧
      (Spared s ↔ commReqestSpinLock s.locks ≠ .bug ∧
        ∀ r l, commReqestSpinLock s.locks = .ret r l → r ∉ s.got) := by
  have hp : Pool s := hr.inv (fun _ _ _ _ h hc hs => h.step hc hs) (Pool.init h₀)
  exact ⟨hp.nodup, hp.spared_iff⟩

def lockAndReturn : List AllocOp := [.request, .lock 5 7, .unlock 5, .release 5, .request, .request]

theorem requested_ids_distinct_lockAndReturn :
    ∃ s, Run allocStep Careful ⟨freshLocks, []⟩ lockAndReturn s ∧ s.got = [6, 5] ∧
      s.got.Nodup ∧ commReqestSpinLock s.locks ≠ .bug := by
  refine Run.exists_of_exec_imp (P := fun s => s.got = [6, 5] ∧ Spared s) (by decide) fun s hx hend => ?_
  obtain ⟨hg, hs⟩ := hend
  have h := requested_ids_distinct freshLocks_init hx
  exact ⟨hg, h.1, (h.2.mp hs).1⟩

theorem requested_id_given_twice : ∃ s, Run allocStep OnAllocated ⟨freshLocks, []⟩
      [.request, .lock 5 7, .unlock 5, .request] s ∧ s.got = [5, 5] ∧ ¬ s.got.Nodup :=
  Run.exists_of_exec (by decide)

end H713.Lock
