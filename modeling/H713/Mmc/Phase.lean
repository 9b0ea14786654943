import H713.Mmc.Code

/-!
# Mmc.Phase

The driver as one machine that passes a request on: in flight, with the thread, or on its way back. Every step of
the driver is one of its moves, which also say what happens to the counters and the log.
-/

namespace H713.Mmc

inductive Phase where
  | idle
  | flight (m : Mrq) (reissued : Bool)
  | waitRetry (m : Mrq) (fifo : Bool)
  | retrying (m : Mrq) (fifo : Bool) (idx : Nat)
  | reissuing (m : Mrq) (fifo : Bool)
  | waitStop (m : Mrq)
  | stopping (m : Mrq)
  | returning (m : Mrq)

namespace Phase

def cur : Phase → Option Mrq
  | idle => none
  | flight m _ | waitRetry m _ | retrying m _ _ | reissuing m _ | waitStop m | stopping m | returning m => some m

def mrq : Phase → Option Mrq
  | flight m _ => some m
  | _ => none

def dmaRetry : Phase → Option Mrq
  | waitRetry m _ => some m
  | _ => none

def manualStop : Phase → Option Mrq
  | waitStop m | stopping m => some m
  | _ => none

def retryTimer : Phase → Option Mrq
  | flight m true => some m
  | _ => none

def thread : Phase → Thread
  | retrying m fifo idx => .retry m fifo idx
  | reissuing m fifo => .reissue m fifo
  | stopping m => .stop m
  | _ => .idle

def wake : Phase → Bool
  | waitRetry _ _ | waitStop _ => true
  | _ => false

def doing : Phase → List Mrq
  | returning m => [m]
  | _ => []

end Phase

structure Represents (s : Sys) (p : Phase) : Prop where
  mrq : s.host.mrq = p.mrq
  dmaRetry : s.host.dmaRetryMrq = p.dmaRetry
  manualStop : s.host.manualStopMrq = p.manualStop
  retryTimer : s.host.retryTimerMrq = p.retryTimer
  thread : s.thread = p.thread
  wake : s.wake = p.wake
  doing : s.doing = p.doing
  outstanding : s.outstanding = p.cur
  rint : ∀ m fifo, p = .waitRetry m fifo → isFifoErr s.host.errorRint = fifo

structure Books where
  retryCnt : Nat
  fifoRetryCnt : Nat
  log : Log

namespace Books

def used (b : Books) (fifo : Bool) : Nat := if fifo then b.fifoRetryCnt else b.retryCnt

def clear (b : Books) : Books := { b with retryCnt := 0, fifoRetryCnt := 0 }

def count (b : Books) (fifo : Bool) : Books :=
  if fifo then { b with fifoRetryCnt := b.fifoRetryCnt + 1 } else { b with retryCnt := b.retryCnt + 1 }

def issue (b : Books) : Books := { b with log := { b.log with issued := b.log.issued + 1 } }

def remap (b : Books) (m : Mrq) : Books := { b with log := b.log.map m.id }

def map (b : Books) (m : Mrq) : Books := if m.data then b.remap m else b

def unmap (b : Books) (m : Mrq) : Books := if m.data then { b with log := b.log.unmap m.id } else b

def reissue (b : Books) (m : Mrq) (fifo : Bool) : Books := { b with log := b.log.reissue m.id fifo }

def complete (b : Books) (m : Mrq) : Books :=
  { b with log := { b.log with completed := b.log.completed ++ [m.id] } }

end Books

def Sys.books (s : Sys) : Books := ⟨s.host.retryCnt, s.host.fifoRetryCnt, s.log⟩

inductive Actor where
  | core
  | irq
  | timer
  | thread
deriving DecidableEq

def Op.actor : Op → Actor
  | .request _ | .done _ => .core
  | .irq _ _ => .irq
  | .expire | .timeout => .timer
  | .thread _ => .thread

inductive Move : Actor → Phase → Books → Phase → Books → Prop where
  | stay {a : Actor} {p : Phase} {b : Books} : a = .irq ∨ a = .timer → Move a p b p b
  | start {m : Mrq} {b : Books} : m.id = b.log.issued → Move .core .idle b (.flight m false) (b.issue.map m)
  | refuse {m : Mrq} {b : Books} : m.id = b.log.issued → Move .core .idle b (.returning m) b.issue
  | giveUp {m : Mrq} {b : Books} :
      m.id = b.log.issued → Move .core .idle b (.returning m) ((b.issue.map m).unmap m)
  | complete {m : Mrq} {r : Bool} {b : Books} : Move .irq (.flight m r) b (.returning m) (b.unmap m).clear
  | retry {m : Mrq} {r fifo : Bool} {b : Books} : m.data → m.opcode = ioRwExtended →
      b.used fifo < retryLimit fifo → Move .irq (.flight m r) b (.waitRetry m fifo) (b.unmap m)
  | stop {m : Mrq} {r : Bool} {b : Books} : m.data → Move .irq (.flight m r) b (.waitStop m) (b.unmap m)
  | watchdog {m : Mrq} {b : Books} : Move .timer (.flight m true) b (.returning m) b.clear
  | take {m : Mrq} {fifo : Bool} {b : Books} :
      Move .thread (.waitRetry m fifo) b (.retrying m fifo (b.used fifo)) (b.count fifo)
  | fail {m : Mrq} {fifo : Bool} {idx : Nat} {b : Books} :
      Move .thread (.retrying m fifo idx) b (.returning m) b.clear
  | remap {m : Mrq} {fifo : Bool} {idx : Nat} {b : Books} : idx < retryLimit fifo →
      Move .thread (.retrying m fifo idx) b (.reissuing m fifo) (b.remap m)
  | reissue {m : Mrq} {fifo : Bool} {b : Books} :
      Move .thread (.reissuing m fifo) b (.flight m true) (b.reissue m fifo)
  | takeStop {m : Mrq} {b : Books} : Move .thread (.waitStop m) b (.stopping m) b
  | stopped {m : Mrq} {b : Books} : Move .thread (.stopping m) b (.returning m) b
  | done {m : Mrq} {b : Books} : Move .core (.returning m) b .idle (b.complete m)

def Host.endErr (h : Host) (mskInt : UInt32) : UInt32 :=
  let sum := h.intSum ||| mskInt
  if sum &&& respTimeout ≠ 0 ∧ sum &&& commandDone = 0 then 0 else sum &&& errorBit

namespace Represents

variable {s : Sys} {m : Mrq}

theorem init : Represents Sys.init .idle := by
  refine ⟨rfl, rfl, rfl, rfl, rfl, rfl, rfl, rfl, ?_⟩
  intro m fifo h
  cases h

variable {r fifo : Bool} {p : Phase} {idx : Nat}

section

variable (h : Represents s (.flight m r))

include h

theorem dropTimer : ∃ timer, s.host.dropTimer m = { s.host with timer := timer, retryTimerMrq := none } := by
  have ht := h.retryTimer
  unfold Host.dropTimer
  cases r with
  | false =>
    refine ⟨s.host.timer, ?_⟩
    rw [if_neg (by simp [PointsTo, ht, Phase.retryTimer])]
    cases hh : s.host
    simp_all [Phase.retryTimer]
  | true =>
    refine ⟨false, ?_⟩
    rw [if_pos (by simp [PointsTo, ht, Phase.retryTimer])]

theorem finalize_retry (herr : s.host.intSum &&& errorBit ≠ 0) (hdata : m.data) (hop : m.opcode = ioRwExtended)
    (hused : s.host.retryUsed (isFifoErr (s.host.intSum &&& errorBit)) <
      retryLimit (isFifoErr (s.host.intSum &&& errorBit))) :
    Represents (s.finalizeRequest m) (.waitRetry m (isFifoErr (s.host.intSum &&& errorBit))) ∧
      (s.finalizeRequest m).books = s.books.unmap m := by
  obtain ⟨timer, htimer⟩ := h.dropTimer
  have heq : s.finalizeRequest m =
      { s with
        host := { s.host with
          timer := timer, retryTimerMrq := none, errorRint := s.host.intSum &&& errorBit
          dmaRetryMrq := some m, mrq := none, intSum := 0, waitDma := false }
        log := s.log.unmap m.id
        wake := true } := by
    simp [Sys.finalizeRequest, htimer, herr, hdata, hop, hused]
  rw [heq]
  refine ⟨⟨rfl, rfl, h.manualStop, rfl, h.thread, rfl, h.doing, h.outstanding, ?_⟩, ?_⟩
  · rintro _ _ ⟨⟩
    rfl
  · simp [Sys.books, Books.unmap, hdata]

theorem finalize_stop (herr : s.host.intSum &&& errorBit ≠ 0) (hdata : m.data)
    (hnot : ¬ (m.opcode = ioRwExtended ∧ s.host.retryUsed (isFifoErr (s.host.intSum &&& errorBit)) <
      retryLimit (isFifoErr (s.host.intSum &&& errorBit)))) :
    Represents (s.finalizeRequest m) (.waitStop m) ∧ (s.finalizeRequest m).books = s.books.unmap m := by
  obtain ⟨timer, htimer⟩ := h.dropTimer
  have hdma : s.host.dmaRetryMrq = none := h.dmaRetry
  have heq : s.finalizeRequest m =
      { s with
        host := { s.host with
          timer := timer, retryTimerMrq := none, manualStopMrq := some m
          mrq := none, intSum := 0, waitDma := false }
        log := s.log.unmap m.id
        wake := true } := by
    simp [Sys.finalizeRequest, htimer, herr, hdata, hdma, hnot]
  rw [heq]
  refine ⟨⟨rfl, h.dmaRetry, rfl, rfl, h.thread, rfl, h.doing, h.outstanding, ?_⟩, ?_⟩
  · intro m fifo hp
    cases hp
  · simp [Sys.books, Books.unmap, hdata]

theorem finalize_complete (hok : ¬ (s.host.intSum &&& errorBit ≠ 0 ∧ m.data)) :
    Represents (s.finalizeRequest m) (.returning m) ∧ (s.finalizeRequest m).books = (s.books.unmap m).clear := by
  obtain ⟨timer, htimer⟩ := h.dropTimer
  have hdma : s.host.dmaRetryMrq = none := h.dmaRetry
  have hstop : s.host.manualStopMrq = none := h.manualStop
  have hdoing : s.doing = [] := h.doing
  have heq : s.finalizeRequest m =
      { s with
        host := { s.host with
          timer := timer, retryTimerMrq := none, mrq := none, intSum := 0, waitDma := false
          retryCnt := 0, fifoRetryCnt := 0 }
        log := if m.data then s.log.unmap m.id else s.log
        doing := [m] } := by
    by_cases hd : m.data
    · have he : s.host.intSum &&& errorBit = 0 := by
        by_contra he
        exact hok ⟨he, hd⟩
      simp [Sys.finalizeRequest, htimer, he, hd, hdma, hstop, hdoing, Sys.handBack, Host.clearCounters]
    · simp [Sys.finalizeRequest, htimer, hd, hdma, hstop, hdoing, Sys.handBack, Host.clearCounters]
  rw [heq]
  refine ⟨⟨rfl, h.dmaRetry, h.manualStop, rfl, h.thread, h.wake, rfl, h.outstanding, ?_⟩, ?_⟩
  · intro m fifo hp
    cases hp
  · by_cases hd : m.data <;> simp [Sys.books, Books.unmap, Books.clear, hd]

theorem irq_flight (mskInt idmaInt : UInt32) :
    let fifo := isFifoErr (s.host.endErr mskInt)
    (s.host.endErr mskInt = 0 ∧ Represents (s.irq mskInt idmaInt) (.flight m r) ∧
      (s.irq mskInt idmaInt).books = s.books) ∨
    (¬ (s.host.endErr mskInt ≠ 0 ∧ m.data) ∧ Represents (s.irq mskInt idmaInt) (.returning m) ∧
      (s.irq mskInt idmaInt).books = (s.books.unmap m).clear) ∨
    (s.host.endErr mskInt ≠ 0 ∧ m.data ∧ (m.opcode = ioRwExtended ∧ s.books.used fifo < retryLimit fifo) ∧
      Represents (s.irq mskInt idmaInt) (.waitRetry m fifo) ∧ (s.irq mskInt idmaInt).books = s.books.unmap m) ∨
    (s.host.endErr mskInt ≠ 0 ∧ m.data ∧ ¬ (m.opcode = ioRwExtended ∧ s.books.used fifo < retryLimit fifo) ∧
      Represents (s.irq mskInt idmaInt) (.waitStop m) ∧ (s.irq mskInt idmaInt).books = s.books.unmap m) := by
  have hmrq : s.host.mrq = some m := h.mrq
  have ht : Represents (s.collect mskInt idmaInt) (.flight m r) := { h with }
  have hirq : s.irq mskInt idmaInt =
      if (s.collect mskInt idmaInt).host.intSum &&& respTimeout ≠ 0 ∧
          (s.collect mskInt idmaInt).host.intSum &&& commandDone = 0 then s.collect mskInt idmaInt
      else if (s.collect mskInt idmaInt).host.intSum &&& errorBit ≠ 0 then
        (s.collect mskInt idmaInt).finalizeRequest m
      else if (s.collect mskInt idmaInt).host.intSum &&& doneBit ≠ 0 ∧
          ¬ (s.collect mskInt idmaInt).host.waitDma then (s.collect mskInt idmaInt).finalizeRequest m
      else s.collect mskInt idmaInt := by
    simp only [Sys.irq, hmrq]
  have hbooks : (s.collect mskInt idmaInt).books = s.books := rfl
  have hend : s.host.endErr mskInt =
      if (s.collect mskInt idmaInt).host.intSum &&& respTimeout ≠ 0 ∧
          (s.collect mskInt idmaInt).host.intSum &&& commandDone = 0 then 0
      else (s.collect mskInt idmaInt).host.intSum &&& errorBit := rfl
  rw [hirq, hend, ← hbooks]
  generalize s.collect mskInt idmaInt = t at ht
  by_cases hwait : t.host.intSum &&& respTimeout ≠ 0 ∧ t.host.intSum &&& commandDone = 0
  · simp only [if_pos hwait]
    exact .inl ⟨trivial, ht, trivial⟩
  simp only [if_neg hwait]
  by_cases herr : t.host.intSum &&& errorBit ≠ 0
  · rw [if_pos herr]
    by_cases hdata : m.data
    · by_cases hre : m.opcode = ioRwExtended ∧
          t.books.used (isFifoErr (t.host.intSum &&& errorBit)) <
            retryLimit (isFifoErr (t.host.intSum &&& errorBit))
      · exact .inr (.inr (.inl ⟨herr, hdata, hre, ht.finalize_retry herr hdata hre.1 hre.2⟩))
      · exact .inr (.inr (.inr ⟨herr, hdata, hre, ht.finalize_stop herr hdata hre⟩))
    · exact .inr (.inl ⟨fun hb => hdata hb.2, ht.finalize_complete fun hb => hdata hb.2⟩)
  · rw [if_neg herr]
    split
    · exact .inr (.inl ⟨fun hb => herr hb.1, ht.finalize_complete fun hb => herr hb.1⟩)
    · exact .inl ⟨not_not.mp herr, ht, rfl⟩

end

theorem irq_of_none (h : Represents s p) (hp : p.mrq = none) (mskInt idmaInt : UInt32) :
    s.irq mskInt idmaInt = s ∧ s.retryTimeout = s := by
  have hmrq : s.host.mrq = none := h.mrq.trans hp
  simp [Sys.irq, Sys.retryTimeout, hmrq]

theorem timeout_first (h : Represents s (.flight m false)) : s.retryTimeout = s := by
  have hmrq : s.host.mrq = some m := h.mrq
  have ht : s.host.retryTimerMrq = none := h.retryTimer
  simp [Sys.retryTimeout, hmrq, PointsTo, ht]

theorem timeout_reissued (h : Represents s (.flight m true)) :
    Represents s.retryTimeout (.returning m) ∧ s.retryTimeout.books = s.books.clear := by
  have hmrq : s.host.mrq = some m := h.mrq
  have ht : s.host.retryTimerMrq = some m := h.retryTimer
  have hdoing : s.doing = [] := h.doing
  have heq : s.retryTimeout =
      { s with
        host := { s.host with
          mrq := none, retryTimerMrq := none, dmaRetryMrq := none, manualStopMrq := none
          intSum := 0, waitDma := false, retryCnt := 0, fifoRetryCnt := 0 }
        doing := [m] } := by
    simp [Sys.retryTimeout, hmrq, PointsTo, ht, Sys.handBack, hdoing, Host.clearCounters]
  rw [heq]
  refine ⟨⟨rfl, rfl, rfl, rfl, h.thread, h.wake, rfl, h.outstanding, ?_⟩, rfl⟩
  intro m fifo hp
  cases hp

theorem start_retry (h : Represents s (.waitRetry m fifo)) :
    Represents ({ s with wake := false } : Sys).threadStart (.retrying m fifo (s.books.used fifo)) ∧
      ({ s with wake := false } : Sys).threadStart.books = s.books.count fifo := by
  have hdma : s.host.dmaRetryMrq = some m := h.dmaRetry
  have hrint := h.rint m fifo rfl
  have heq : ({ s with wake := false } : Sys).threadStart =
      { s with
        host := { s.host with
          dmaRetryMrq := none
          retryCnt := (s.books.count fifo).retryCnt, fifoRetryCnt := (s.books.count fifo).fifoRetryCnt }
        thread := .retry m fifo (s.books.used fifo)
        wake := false } := by
    cases fifo <;> simp [Sys.threadStart, hdma, hrint, Sys.books, Books.count, Books.used, Host.retryUsed]
  rw [heq]
  refine ⟨⟨h.mrq, rfl, h.manualStop, h.retryTimer, rfl, rfl, h.doing, h.outstanding, ?_⟩, ?_⟩
  · intro m fifo hp
    cases hp
  · cases fifo <;> rfl

theorem start_stop (h : Represents s (.waitStop m)) :
    Represents ({ s with wake := false } : Sys).threadStart (.stopping m) ∧
      ({ s with wake := false } : Sys).threadStart.books = s.books := by
  have hdma : s.host.dmaRetryMrq = none := h.dmaRetry
  have hstop : s.host.manualStopMrq = some m := h.manualStop
  have heq : ({ s with wake := false } : Sys).threadStart = { s with thread := .stop m, wake := false } := by
    simp [Sys.threadStart, hdma, hstop]
  rw [heq]
  refine ⟨{ h with thread := rfl, wake := rfl, rint := ?_ }, rfl⟩
  intro m fifo hp
  cases hp

section

variable (h : Represents s (.retrying m fifo idx))

include h

theorem fail : Represents (s.threadFail m) (.returning m) ∧ (s.threadFail m).books = s.books.clear := by
  have hdoing : s.doing = [] := h.doing
  refine ⟨{ h with thread := rfl, doing := ?_, rint := ?_ }, rfl⟩
  · simp [Sys.threadFail, Sys.handBack, hdoing, Phase.doing]
  · intro m fifo hp
    cases hp

theorem mapped (ok : Bool) {t : Sys}
    (ht : t = if ¬ ok then s.threadFail m else { s with log := s.log.map m.id, thread := .reissue m fifo }) :
    Represents t (.returning m) ∧ t.books = s.books.clear ∨
      Represents t (.reissuing m fifo) ∧ t.books = s.books.remap m := by
  subst ht
  cases ok with
  | false => exact .inl h.fail
  | true =>
    refine .inr ⟨{ h with thread := rfl, rint := ?_ }, rfl⟩
    intro m fifo hp
    cases hp

theorem retry (hidx : idx < retryLimit fifo) (env : Sys.RetryEnv) :
    ∃ t, s.threadRetry m fifo idx env = .ret () t ∧ (Represents t (.returning m) ∧ t.books = s.books.clear ∨
        Represents t (.reissuing m fifo) ∧ t.books = s.books.remap m) := by
  unfold Sys.threadRetry
  rw [if_neg (by omega)]
  split
  · exact ⟨_, rfl, .inl h.fail⟩
  split
  · exact ⟨_, rfl, .inl h.fail⟩
  cases fifo with
  | true => exact ⟨_, rfl, h.mapped env.map rfl⟩
  | false =>
    have hrow : phaseTable[idx]? = some phaseTable[idx] := List.getElem?_eq_getElem hidx
    rw [hrow]
    have ht : Represents { s with host := { s.host with phase := some phaseTable[idx] } }
        (.retrying m false idx) := { h with }
    exact ⟨_, rfl, ht.mapped env.map rfl⟩

end

theorem reissue (h : Represents s (.reissuing m fifo)) : Represents (s.threadReissue m fifo) (.flight m true) ∧
      (s.threadReissue m fifo).books = s.books.reissue m fifo := by
  refine ⟨⟨rfl, h.dmaRetry, h.manualStop, rfl, rfl, h.wake, h.doing, h.outstanding, ?_⟩, rfl⟩
  intro m fifo hp
  cases hp

theorem stop (h : Represents s (.stopping m)) :
    Represents (s.threadStop m) (.returning m) ∧ (s.threadStop m).books = s.books := by
  have hdoing : s.doing = [] := h.doing
  refine ⟨⟨h.mrq, h.dmaRetry, rfl, h.retryTimer, rfl, h.wake, ?_, h.outstanding, ?_⟩, rfl⟩
  · simp [Sys.threadStop, Sys.handBack, hdoing, Phase.doing]
  · intro m fifo hp
    cases hp

theorem request (h : Represents s .idle) (r : Sys.Start) : ∃ m p, m.id = s.log.issued ∧ Represents (s.request r) p ∧
      (p = .flight m false ∧ (s.request r).books = s.books.issue.map m ∨
        p = .returning m ∧ (s.request r).books = s.books.issue ∨
        p = .returning m ∧ (s.request r).books = (s.books.issue.map m).unmap m) := by
  have hmrq : s.host.mrq = none := h.mrq
  have hstop : s.host.manualStopMrq = none := h.manualStop
  have hdoing : s.doing = [] := h.doing
  obtain ⟨m, hm⟩ : ∃ m : Mrq, m = ⟨s.log.issued, r.addr, r.opcode, r.data, r.write⟩ := ⟨_, rfl⟩
  have hid : m.id = s.log.issued := by rw [hm]
  have hdata : m.data = r.data := by rw [hm]
  -- a request that is handed back at once, whatever was logged
  have hback : ∀ log, Represents { s with outstanding := some m, log := log, doing := [m] } (.returning m) := by
    intro log
    refine { h with doing := rfl, outstanding := rfl, rint := ?_ }
    intro m fifo hp
    cases hp
  by_cases hbad : r.ferror ∨ (r.data ∧ ¬ r.map)
  · have heq : s.request r =
        { s with
          outstanding := some m, log := { s.log with issued := s.log.issued + 1 }, doing := [m] } := by
      obtain hf | ⟨hd, hmap⟩ := hbad
      · simp [Sys.request, hf, Sys.handBack, hdoing, hm]
      · by_cases hf : r.ferror <;> simp [Sys.request, hf, hd, hmap, Sys.handBack, hdoing, hm]
    rw [heq]
    exact ⟨m, _, hid, hback _, .inr (.inl ⟨rfl, rfl⟩)⟩
  · have hf : r.ferror = false := by simpa using fun hf => hbad (.inl hf)
    have hmap : ¬ (r.data ∧ ¬ r.map) := fun hd => hbad (.inr hd)
    by_cases hclk : r.opcode = switchVoltage ∧ ¬ r.oclk
    · have heq : s.request r =
          { s with
            outstanding := some m, log := ((s.books.issue.map m).unmap m).log, doing := [m] } := by
        cases hd : r.data <;>
          simp_all [Sys.request, Sys.handBack, Books.map, Books.remap, Books.unmap, Books.issue, Sys.books]
      have hbooks : s.books.retryCnt = ((s.books.issue.map m).unmap m).retryCnt ∧
          s.books.fifoRetryCnt = ((s.books.issue.map m).unmap m).fifoRetryCnt := by
        cases hd : m.data <;> simp [Books.unmap, Books.map, Books.remap, Books.issue, hd]
      rw [heq]
      refine ⟨m, _, hid, hback _, .inr (.inr ⟨rfl, ?_⟩)⟩
      exact congrArg₂ (fun a b => Books.mk a b ((s.books.issue.map m).unmap m).log) hbooks.1 hbooks.2
    · have heq : s.request r =
          { s with
            outstanding := some m, log := (s.books.issue.map m).log
            host := { s.host with mrq := some m, waitDma := r.data && !r.write } } := by
        cases hd : r.data <;> simp_all [Sys.request, Sys.handBack, Books.map, Books.remap, Books.issue, Sys.books]
      have hbooks : s.books.retryCnt = (s.books.issue.map m).retryCnt ∧
          s.books.fifoRetryCnt = (s.books.issue.map m).fifoRetryCnt := by
        cases hd : m.data <;> simp [Books.map, Books.remap, Books.issue, hd]
      rw [heq]
      refine ⟨m, .flight m false, hid, ?_, .inl ⟨rfl, ?_⟩⟩
      · refine { h with mrq := rfl, outstanding := rfl, rint := ?_ }
        intro m fifo hp
        cases hp
      · exact congrArg₂ (fun a b => Books.mk a b (s.books.issue.map m).log) hbooks.1 hbooks.2

theorem done (h : Represents s (.returning m)) {s' : Sys} (hs : step s (.done m) = .ret () s') :
    Represents s' .idle ∧ s'.books = s.books.complete m := by
  have hdoing : s.doing = [m] := h.doing
  cases hs
  refine ⟨{ h with doing := ?_, outstanding := rfl, rint := ?_ }, rfl⟩
  · simp [hdoing, Phase.doing]
  · intro m fifo hp
    cases hp

theorem irq (h : Represents s p) (mskInt idmaInt : UInt32) :
    ∃ p', Represents (s.irq mskInt idmaInt) p' ∧ Move .irq p s.books p' (s.irq mskInt idmaInt).books := by
  by_cases hp : p.mrq = none
  · rw [(h.irq_of_none hp mskInt idmaInt).1]
    exact ⟨p, h, .stay (.inl rfl)⟩
  · obtain ⟨m, r, rfl⟩ : ∃ m r, p = .flight m r := by
      cases p <;> simp_all [Phase.mrq]
    obtain ⟨-, h', hb⟩ | ⟨-, h', hb⟩ | ⟨-, hd, ⟨hop, hu⟩, h', hb⟩ | ⟨-, hd, -, h', hb⟩ :=
      h.irq_flight mskInt idmaInt
    · exact ⟨_, h', hb ▸ .stay (.inl rfl)⟩
    · exact ⟨_, h', hb ▸ .complete⟩
    · exact ⟨_, h', hb ▸ .retry hd hop hu⟩
    · exact ⟨_, h', hb ▸ .stop hd⟩

theorem timeout (h : Represents s p) :
    ∃ p', Represents s.retryTimeout p' ∧ Move .timer p s.books p' s.retryTimeout.books := by
  by_cases hp : p.mrq = none
  · rw [(h.irq_of_none hp 0 0).2]
    exact ⟨p, h, .stay (.inr rfl)⟩
  · obtain ⟨m, r, rfl⟩ : ∃ m r, p = .flight m r := by
      cases p <;> simp_all [Phase.mrq]
    cases r with
    | false =>
      rw [h.timeout_first]
      exact ⟨_, h, .stay (.inr rfl)⟩
    | true =>
      obtain ⟨h', hb⟩ := h.timeout_reissued
      exact ⟨_, h', hb ▸ .watchdog⟩

theorem thread_step (h : Represents s p) (hidx : ∀ m fifo idx, p = .retrying m fifo idx → idx < retryLimit fifo)
    (env : Sys.RetryEnv) (hp : Possible s (.thread env)) :
    ∃ s' p', step s (.thread env) = .ret () s' ∧ Represents s' p' ∧ Move .thread p s.books p' s'.books := by
  have hth := h.thread
  cases p with
  | idle | flight m r | returning m =>
    have hw := h.wake
    simp [Possible, hth, hw, Phase.thread, Phase.wake] at hp
  | waitRetry m fifo =>
    obtain ⟨h', hb⟩ := h.start_retry
    exact ⟨_, _, by simp only [step, hth, Phase.thread], h', hb ▸ .take⟩
  | waitStop m =>
    obtain ⟨h', hb⟩ := h.start_stop
    exact ⟨_, _, by simp only [step, hth, Phase.thread], h', hb ▸ .takeStop⟩
  | retrying m fifo idx =>
    have hlt := hidx m fifo idx rfl
    obtain ⟨t, ht, ⟨h', hb⟩ | ⟨h', hb⟩⟩ := h.retry hlt env
    · exact ⟨t, _, by simp only [step, hth, Phase.thread, ht], h', hb ▸ .fail⟩
    · exact ⟨t, _, by simp only [step, hth, Phase.thread, ht], h', hb ▸ .remap hlt⟩
  | reissuing m fifo =>
    obtain ⟨h', hb⟩ := h.reissue
    exact ⟨_, _, by simp only [step, hth, Phase.thread], h', hb ▸ .reissue⟩
  | stopping m =>
    obtain ⟨h', hb⟩ := h.stop
    exact ⟨_, _, by simp only [step, hth, Phase.thread], h', hb ▸ .stopped⟩

theorem step (h : Represents s p) (hidx : ∀ m fifo idx, p = .retrying m fifo idx → idx < retryLimit fifo) {o : Op}
    (hp : Possible s o) :
    ∃ s' p', step s o = .ret () s' ∧ Represents s' p' ∧ Move o.actor p s.books p' s'.books := by
  cases o with
  | request r =>
    obtain rfl : p = .idle := by
      have := h.outstanding.symm.trans hp
      cases p <;> simp_all [Phase.cur]
    obtain ⟨m, p', hid, h', ⟨rfl, hb⟩ | ⟨rfl, hb⟩ | ⟨rfl, hb⟩⟩ := h.request r
    · exact ⟨_, _, rfl, h', hb ▸ .start hid⟩
    · exact ⟨_, _, rfl, h', hb ▸ .refuse hid⟩
    · exact ⟨_, _, rfl, h', hb ▸ .giveUp hid⟩
  | irq mskInt idmaInt =>
    obtain ⟨p', h', hm⟩ := h.irq mskInt idmaInt
    exact ⟨_, p', rfl, h', hm⟩
  | expire => exact ⟨_, p, rfl, { h with }, .stay (.inr rfl)⟩
  | timeout =>
    obtain ⟨p', h', hm⟩ := h.timeout
    exact ⟨_, p', rfl, { h' with }, hm⟩
  | thread env => exact h.thread_step hidx env hp
  | done m =>
    obtain rfl : p = .returning m := by
      have hm : m ∈ p.doing := h.doing ▸ hp
      cases p <;> simp_all [Phase.doing]
    obtain ⟨h', hb⟩ := h.done rfl
    exact ⟨_, _, rfl, h', hb ▸ .done⟩

end Represents

end H713.Mmc
