import H713.Mmc.Phase

/-!
# Mmc.Retry

What holds in every run of the driver, from what each move does to the books.
-/

namespace H713.Mmc

def Log.reissues (l : Log) (fifo : Bool) : Nat → Nat := if fifo then l.fifoReissues else l.phaseReissues

theorem bump_apply (f : Nat → Nat) (id i : Nat) : bump f id i = f i + if i = id then 1 else 0 := by
  by_cases h : i = id
  · subst h
    simp [bump]
  · simp [bump, h]

namespace Books

variable {b : Books} {m : Mrq}

@[simp] theorem issued_issue : b.issue.log.issued = b.log.issued + 1 := rfl
@[simp] theorem reissues_issue : b.issue.log.reissues = b.log.reissues := rfl
@[simp] theorem used_issue : b.issue.used = b.used := rfl

@[simp] theorem issued_remap : (b.remap m).log.issued = b.log.issued := rfl
@[simp] theorem reissues_remap : (b.remap m).log.reissues = b.log.reissues := rfl
@[simp] theorem used_remap : (b.remap m).used = b.used := rfl

@[simp] theorem issued_map : (b.map m).log.issued = b.log.issued := by
  unfold Books.map
  split <;> rfl

@[simp] theorem reissues_map : (b.map m).log.reissues = b.log.reissues := by
  unfold Books.map
  split <;> rfl

@[simp] theorem used_map : (b.map m).used = b.used := by
  unfold Books.map
  split <;> rfl

@[simp] theorem issued_unmap : (b.unmap m).log.issued = b.log.issued := by
  unfold Books.unmap
  split <;> rfl

@[simp] theorem reissues_unmap : (b.unmap m).log.reissues = b.log.reissues := by
  unfold Books.unmap
  split <;> rfl

@[simp] theorem used_unmap : (b.unmap m).used = b.used := by
  unfold Books.unmap
  split <;> rfl

@[simp] theorem log_clear : b.clear.log = b.log := rfl

@[simp] theorem used_clear (fifo : Bool) : b.clear.used fifo = 0 := by
  cases fifo <;> rfl

@[simp] theorem log_count (fifo : Bool) : (b.count fifo).log = b.log := by
  cases fifo <;> rfl

theorem used_count (fifo fifo' : Bool) :
    (b.count fifo).used fifo' = b.used fifo' + if fifo' = fifo then 1 else 0 := by
  cases fifo <;> cases fifo' <;> rfl

@[simp] theorem issued_reissue (fifo : Bool) : (b.reissue m fifo).log.issued = b.log.issued := by
  cases fifo <;> rfl

@[simp] theorem used_reissue (fifo : Bool) : (b.reissue m fifo).used = b.used := rfl

theorem reissues_reissue (fifo fifo' : Bool) (i : Nat) : (b.reissue m fifo).log.reissues fifo' i =
      b.log.reissues fifo' i + if fifo' = fifo ∧ i = m.id then 1 else 0 := by
  cases fifo <;> cases fifo' <;> simp [Books.reissue, Log.reissue, Log.reissues, bump_apply]

end Books

namespace Phase

def due (p : Phase) (fifo : Bool) : Nat :=
  match p with
  | retrying _ f _ | reissuing _ f => if fifo = f then 1 else 0
  | _ => 0

def Counting : Phase → Prop
  | idle | returning _ => False
  | _ => True

end Phase

def Place : Phase → Books → Prop
  | .waitRetry _ fifo, b => b.used fifo < retryLimit fifo
  | .retrying _ fifo idx, _ => idx < retryLimit fifo
  | .flight m true, b => ∃ fifo, 0 < b.log.reissues fifo m.id
  | _, _ => True

structure Budget (p : Phase) (b : Books) : Prop where
  cur : ∀ m, p.cur = some m → m.id < b.log.issued
  used : ∀ fifo, b.used fifo ≤ retryLimit fifo
  spent : ∀ m fifo, p.cur = some m → p.Counting → b.log.reissues fifo m.id + p.due fifo ≤ b.used fifo
  reissues : ∀ fifo i, b.log.reissues fifo i ≤ retryLimit fifo
  unborn : ∀ fifo i, b.log.issued ≤ i → b.log.reissues fifo i = 0
  place : Place p b

namespace Budget

theorem init : Budget .idle Sys.init.books := by
  constructor
  all_goals simp [Phase.cur, Sys.init, Sys.books, Books.used, Log.reissues, Place]

variable {p : Phase} {b b' : Books}

theorem issue {m : Mrq} (h : Budget .idle b) (hid : m.id = b.log.issued)
    (hissued : b'.log.issued = b.log.issued + 1) (hre : b'.log.reissues = b.log.reissues)
    (hused : b'.used = b.used) (hcur : p.cur = some m) (hdue : ∀ fifo, p.due fifo = 0) (hplace : Place p b') :
    Budget p b' := by
  refine ⟨?_, hused ▸ h.used, ?_, hre ▸ h.reissues, ?_, hplace⟩
  · intro m' hm'
    obtain rfl : m = m' := Option.some.inj (hcur.symm.trans hm')
    omega
  · intro m' fifo hm' _
    obtain rfl : m = m' := Option.some.inj (hcur.symm.trans hm')
    have := h.unborn fifo m.id hid.ge
    rw [hre, hdue, this]
    omega
  · intro fifo i hi
    rw [hre]
    exact h.unborn fifo i (by omega)

theorem keep {p' : Phase} (h : Budget p b) (hcur : p'.cur = p.cur) (hissued : b'.log.issued = b.log.issued)
    (hre : b'.log.reissues = b.log.reissues) (hused : ∀ fifo, b'.used fifo ≤ retryLimit fifo)
    (hspent : p'.Counting → ∀ m fifo, p.cur = some m → b.log.reissues fifo m.id + p'.due fifo ≤ b'.used fifo)
    (hplace : Place p' b') : Budget p' b' := by
  refine ⟨?_, hused, ?_, hre ▸ h.reissues, ?_, hplace⟩
  · rw [hcur, hissued]
    exact h.cur
  · intro m fifo hm hc
    rw [hre]
    exact hspent hc m fifo (hcur ▸ hm)
  · rw [hissued, hre]
    exact h.unborn

theorem reissue {m : Mrq} {fifo : Bool} (h : Budget (.reissuing m fifo) b) :
    Budget (.flight m true) (b.reissue m fifo) := by
  have hspent : ∀ fifo', (b.reissue m fifo).log.reissues fifo' m.id ≤ b.used fifo' := by
    intro fifo'
    have := h.spent m fifo' rfl trivial
    rw [Books.reissues_reissue]
    simpa [Phase.due] using this
  refine ⟨?_, h.used, ?_, ?_, ?_, fifo, ?_⟩
  · intro m' hm
    rw [Books.issued_reissue]
    exact h.cur m' hm
  · rintro _ fifo' ⟨⟩ _
    exact hspent fifo'
  · intro fifo' i
    by_cases hi : i = m.id
    · rw [hi]
      exact (hspent fifo').trans (h.used fifo')
    · simpa [Books.reissues_reissue, hi] using h.reissues fifo' i
  · intro fifo' i hi
    have hm := h.cur m rfl
    rw [Books.issued_reissue] at hi
    rw [Books.reissues_reissue, if_neg (by omega), h.unborn fifo' i hi]
  · simp [Books.reissues_reissue]

theorem move {a : Actor} {p' : Phase} (hm : Move a p b p' b') (h : Budget p b) : Budget p' b' := by
  have hcleared : ∀ b : Books, ∀ fifo, b.clear.used fifo ≤ retryLimit fifo := by
    intro b fifo
    rw [Books.used_clear]
    omega
  cases hm with
  | stay => exact h
  | start hid | giveUp hid => exact h.issue hid (by simp) (by simp) (by simp) rfl (fun _ => rfl) trivial
  | refuse hid => exact h.issue hid rfl rfl rfl rfl (fun _ => rfl) trivial
  | complete => exact h.keep rfl (by simp) (by simp) (hcleared _) False.elim trivial
  | watchdog | fail => exact h.keep rfl rfl rfl (hcleared _) False.elim trivial
  | retry _ _ hlt =>
    refine h.keep rfl (by simp) (by simp) (by simpa using h.used) (fun _ m fifo hm => ?_) (by simpa [Place])
    simpa [Phase.due] using h.spent m fifo hm trivial
  | stop _ =>
    refine h.keep rfl (by simp) (by simp) (by simpa using h.used) (fun _ m fifo hm => ?_) trivial
    simpa [Phase.due] using h.spent m fifo hm trivial
  | @take m fifo b =>
    -- one more is counted, and the budget had room for it
    have hlt : b.used fifo < retryLimit fifo := h.place
    refine h.keep rfl (by simp) (by simp) (fun fifo' => ?_) (fun _ m' fifo' hm' => ?_) hlt
    · have := h.used fifo'
      rw [Books.used_count]
      split
      · subst fifo'
        omega
      · omega
    · have := h.spent m' fifo' hm' trivial
      rw [Books.used_count]
      exact Nat.add_le_add_right this _
  | reissue => exact h.reissue
  | remap _ | takeStop => exact h.keep rfl rfl rfl h.used (fun _ m fifo hm => h.spent m fifo hm trivial) trivial
  | stopped => exact h.keep rfl rfl rfl h.used False.elim trivial
  | done =>
    refine ⟨?_, h.used, ?_, h.reissues, h.unborn, trivial⟩
    · rintro _ ⟨⟩
    · rintro _ _ ⟨⟩

end Budget

namespace Books

variable {b : Books} {m : Mrq}

@[simp] theorem completed_map : (b.map m).log.completed = b.log.completed := by
  unfold Books.map
  split <;> rfl

@[simp] theorem completed_unmap : (b.unmap m).log.completed = b.log.completed := by
  unfold Books.unmap
  split <;> rfl

@[simp] theorem completed_reissue (fifo : Bool) : (b.reissue m fifo).log.completed = b.log.completed := by
  cases fifo <;> rfl

end Books

structure Returned (p : Phase) (b : Books) : Prop where
  last : ∀ m, p.cur = some m → m.id + 1 = b.log.issued
  count : ∀ i, b.log.completed.count i =
    if i < b.log.issued ∧ ∀ m, p.cur = some m → i ≠ m.id then 1 else 0

namespace Returned

variable {p : Phase} {b b' : Books}

theorem issue {m : Mrq} (h : Returned .idle b) (hid : m.id = b.log.issued)
    (hissued : b'.log.issued = b.log.issued + 1) (hcompleted : b'.log.completed = b.log.completed)
    (hcur : p.cur = some m) : Returned p b' := by
  refine ⟨?_, fun i => ?_⟩
  · intro m' hm'
    obtain rfl : m = m' := Option.some.inj (hcur.symm.trans hm')
    omega
  · have hlt : (i < b'.log.issued ∧ ∀ m, p.cur = some m → i ≠ m.id) ↔
        (i < b.log.issued ∧ ∀ m, Phase.idle.cur = some m → i ≠ m.id) := by
      have hidle : Phase.idle.cur = none := rfl
      simp [hidle, hcur, hissued]
      omega
    rw [hcompleted, h.count i]
    simp only [hlt]

theorem keep {p' : Phase} (h : Returned p b) (hcur : p'.cur = p.cur) (hissued : b'.log.issued = b.log.issued)
    (hcompleted : b'.log.completed = b.log.completed) : Returned p' b' := by
  refine ⟨?_, ?_⟩
  · rw [hcur, hissued]
    exact h.last
  · rw [hcur, hissued, hcompleted]
    exact h.count

theorem done {m : Mrq} (h : Returned (.returning m) b) : Returned .idle (b.complete m) := by
  refine ⟨by rintro _ ⟨⟩, fun i => ?_⟩
  have hlast := h.last m rfl
  have hcount := h.count i
  by_cases hi : i = m.id
  · subst hi
    simp_all [Books.complete, Phase.cur]
    omega
  · simp_all [Books.complete, Phase.cur, List.count_singleton]
    omega

theorem move {a : Actor} {p' : Phase} (hm : Move a p b p' b') (h : Returned p b) : Returned p' b' := by
  cases hm with
  | stay => exact h
  | start hid | giveUp hid => exact h.issue hid (by simp) (by simp; rfl) rfl
  | refuse hid => exact h.issue hid rfl rfl rfl
  | complete | retry _ _ _ | stop _ | take | reissue => exact h.keep rfl (by simp) (by simp)
  | watchdog | fail | takeStop | stopped | remap _ => exact h.keep rfl rfl rfl
  | done => exact h.done

end Returned

namespace Phase

def retried : Phase → Option Mrq
  | flight m true | waitRetry m _ | retrying m _ _ | reissuing m _ => some m
  | _ => none

end Phase

def Cmd53 (p : Phase) : Prop := ∀ m, p.retried = some m → m.data ∧ m.opcode = ioRwExtended

theorem Cmd53.move {a : Actor} {p p' : Phase} {b b' : Books} (hm : Move a p b p' b') (h : Cmd53 p) : Cmd53 p' := by
  cases hm with
  | retry hdata hop _ =>
    rintro _ ⟨⟩
    exact ⟨hdata, hop⟩
  | stay _ | remap _ | take | reissue => exact h
  | _ => rintro _ ⟨⟩

/-- The request is in one place, and the books are in order. -/
structure Inv (s : Sys) (p : Phase) : Prop where
  repr : Represents s p
  budget : Budget p s.books
  returned : Returned p s.books
  cmd53 : Cmd53 p

namespace Inv

variable {s : Sys} {p : Phase}

theorem init : Inv Sys.init .idle := by
  refine ⟨.init, .init, ⟨?_, ?_⟩, ?_⟩
  · rintro _ ⟨⟩
  · intro i
    simp [Sys.books, Sys.init]
  · rintro _ ⟨⟩

theorem step (h : Inv s p) {o : Op} (hp : Possible s o) :
    ∃ s' p', step s o = .ret () s' ∧ Inv s' p' ∧ Move o.actor p s.books p' s'.books := by
  have hidx : ∀ m fifo idx, p = .retrying m fifo idx → idx < retryLimit fifo := by
    rintro m fifo idx rfl
    exact h.budget.place
  obtain ⟨s', p', hs, hr, hm⟩ := h.repr.step hidx hp
  exact ⟨s', p', hs, ⟨hr, .move hm h.budget, .move hm h.returned, .move hm h.cmd53⟩, hm⟩

theorem count (h : Inv s p) (i : Nat) : s.log.completed.count i =
      if i < s.log.issued ∧ s.outstanding.map Mrq.id ≠ some i then 1 else 0 := by
  have hcount := h.returned.count i
  rw [← h.repr.outstanding] at hcount
  refine hcount.trans (if_congr (and_congr_right fun _ => ?_) rfl rfl)
  cases s.outstanding <;> simp [eq_comm]

theorem somewhere (h : Inv s p) {m : Mrq} (hm : s.outstanding = some m) :
    s.host.mrq = some m ∨ (s.thread ≠ .idle ∨ s.wake) ∨ m ∈ s.doing := by
  have hcur := h.repr.outstanding.symm.trans hm
  rw [h.repr.mrq, h.repr.thread, h.repr.wake, h.repr.doing]
  cases p <;> simp_all [Phase.cur, Phase.mrq, Phase.thread, Phase.wake, Phase.doing]

theorem watchdog (h : Inv s p) (hne : s.retryTimeout.doing ≠ s.doing) :
    ∃ m fifo, s.host.mrq = some m ∧ s.outstanding = some m ∧ 0 < s.log.reissues fifo m.id ∧
      s.retryTimeout.doing = s.doing ++ [m] := by
  by_cases hp : p.mrq = none
  · rw [(h.repr.irq_of_none hp 0 0).2] at hne
    exact absurd rfl hne
  obtain ⟨m, r, rfl⟩ : ∃ m r, p = .flight m r := by
    cases p <;> simp_all [Phase.mrq]
  cases r with
  | false =>
    rw [h.repr.timeout_first] at hne
    exact absurd rfl hne
  | true =>
    obtain ⟨fifo, hpos⟩ := h.budget.place
    refine ⟨m, fifo, h.repr.mrq, h.repr.outstanding, hpos, ?_⟩
    rw [h.repr.timeout_reissued.1.doing, h.repr.doing]
    rfl

end Inv

theorem inv_of_run {ops : List Op} {s : Sys} (hr : Run step Possible Sys.init ops s) : ∃ p, Inv s p := by
  refine hr.inv (I := fun s => ∃ p, Inv s p) ?_ ⟨.idle, .init⟩
  rintro s o a s' ⟨p, h⟩ hp hs
  obtain ⟨t, p', ht, h', -⟩ := h.step hp
  cases ht.symm.trans hs
  exact ⟨p', h'⟩

def read53 : Op := .request ⟨0x40, ioRwExtended, true, false, false, true, true⟩

def retryOps : List Op := [.thread ⟨true, true, true⟩, .thread ⟨true, true, true⟩, .thread ⟨true, true, true⟩]

end H713.Mmc
