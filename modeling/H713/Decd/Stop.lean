import H713.Decd.Fields
import H713.Decd.Locks

/-!
# Decd.Stop

The shutdown that `dec_frame_manager_stop` asks for with state 3 and waits for, until the state is 0. Only a
split-field stream goes through it.
-/

namespace H713.Decd

open RefCount M H713.Decd.Core

def beat (s : Sys) (op : Op) : Out Sys Int := if Enabled s op then step s op else .ret 0 s

/-- Nothing new is put in: vsyncs and tasklets, and the release work if `w`. -/
def Late (w : Bool) (_ : Sys) : Op → Prop
  | .vsync | .refresh => True
  | .work => w = true
  | _ => False

def rounds : Bool → List Op → Nat
  | _, [] => 0
  | _, .vsync :: ops => rounds true ops
  | due, .refresh :: ops => due.toNat + rounds false ops
  | due, _ :: ops => rounds due ops

/-- The interrupts and tasklets keep coming, however they follow each other. -/
def Goes (w : Bool) (s : Sys) : Prop :=
  ∀ ops s' op, Run beat (Late w) s ops s' → Late w s' op → ∃ r t, beat s' op = .ret r t

/-- They do, and after some number of rounds the wait is over. -/
def Stops (w : Bool) (s : Sys) : Prop :=
  Goes w s ∧ ∃ n, ∀ ops s', Run beat (Late w) s ops s' → n ≤ rounds false ops → s'.dev.m.state = 0

structure Closing (d : Dev) : Prop where
  queue : d.queueLock = false
  counter : d.q.shutdownCounter = 4
  recycle : d.m.recycleFifo.items = []
  state : d.m.state = 3 ∨ d.m.state = 4 ∨ d.m.state = 5 ∨ d.m.state = 0
  fields : d.m.state = 3 → d.q.interlace ≠ 0
  usable : ∀ i, (d.q.slots i).Usable d.heap

def roundsLeft (d : Dev) : Nat :=
  if d.m.state = 3 then 3 else if d.m.state = 4 then 2 else if d.m.state = 5 then 1 else 0

def Due (d : Dev) : Prop := d.q.dirty = 0 ∧ (d.m.state ≠ 0 → d.m.refreshScheduled = true)

variable {d : Dev}

theorem ticked_scheduled {m : DecFrameManager} (h : m.state = 3 ∨ m.state = 4 ∨ m.state = 5) :
    (ticked m).refreshScheduled = true := by
  rcases h with h | h | h
  all_goals
    simp only [ticked, h, Bool.or_eq_true]
    exact .inr (by decide)

theorem Closing.vsync (h : Closing d) : ∃ d', decVsyncProcess d = .ret () d' ∧ Closing d' ∧
    d'.m.state = d.m.state ∧ Due d' := by
  have hsched : d.m.state ≠ 0 → (ticked d.m).refreshScheduled = true := by
    intro h0
    refine ticked_scheduled ?_
    rcases h.state with h3 | h4 | h5 | hz
    · exact .inl h3
    · exact .inr (.inl h4)
    · exact .inr (.inr h5)
    · exact absurd hz h0
  by_cases hdirty : d.q.dirty = 0
  · exact ⟨_, vsync_clean h.queue hdirty, { h with }, rfl, hdirty, hsched⟩
  · exact ⟨_, vsync_shows h.usable h.queue hdirty h.recycle, { h with }, rfl, rfl, hsched⟩

theorem Closing.refresh (h : Closing d) : ∃ d', decFrameQueueRefresh d = .ret () d' ∧ Closing d' ∧
    roundsLeft d' ≤ roundsLeft d ∧ (d.q.dirty = 0 → roundsLeft d' = roundsLeft d - 1) := by
  by_cases hdirty : d.q.dirty = 0
  · have hone : d.m.state ≠ 1 := by rcases h.state with hs | hs | hs | hs <;> simp [hs]
    have heq : refreshLocked (begun d) = refreshStopping (begun d) :=
      (refreshLocked_eq (d := begun d) h.counter hdirty).trans (if_neg hone)
    rcases h.state with h3 | h4 | h5 | h0
    · have hk := stopping_three_fields (d := begun d) h3 (h.fields h3)
      refine ⟨closingFields (cleared d), refresh_done h.queue h.queue (heq.trans hk), ?_, ?_⟩
      · exact ⟨h.queue, h.counter, h.recycle, .inr (.inl rfl), by simp [closingFields], h.usable⟩
      · simp [roundsLeft, closingFields, h3]
    · obtain ⟨q, hk, hcounter, hslots⟩ := stopping_four_any (d := begun d) h4
      refine ⟨{ cleared d with m := { (cleared d).m with state := 5 }, q := q },
        refresh_done h.queue h.queue (heq.trans hk), ?_, ?_⟩
      · refine ⟨h.queue, hcounter.trans h.counter, h.recycle, .inr (.inr (.inl rfl)), by simp, fun i => ?_⟩
        simp [hslots]
      · simp [roundsLeft, h4]
    · obtain ⟨q, hk, hcounter, hslots⟩ := stopping_five_any (d := begun d) h5
      rw [recycle_empty (by exact h.recycle)] at hk
      refine ⟨{ cleared d with m := { (cleared d).m with state := 0 }, q := q, work := true },
        refresh_done h.queue h.queue (heq.trans hk), ?_, ?_⟩
      · refine ⟨h.queue, hcounter.trans h.counter, h.recycle, .inr (.inr (.inr rfl)), by simp, fun i => ?_⟩
        by_cases hi : i = 0
        · simp [hslots, hi]
        · simpa [hslots, Function.update_of_ne hi, begun, cleared] using h.usable i
      · simp [roundsLeft, h5]
    · have hk := stopping_off (d := begun d) (by simp [begun, h0]) (by simp [begun, h0]) (by simp [begun, h0])
      refine ⟨cleared d, refresh_done h.queue h.queue (heq.trans hk), ?_, ?_⟩
      · exact { h with }
      · simp [roundsLeft, cleared, h0]
  · refine ⟨cleared d, refresh_dirty h.queue hdirty, ?_, Nat.le_refl _, fun hd => absurd hd hdirty⟩
    exact { h with }

variable {w : Bool} {s s' : Sys}

def Shutting (w : Bool) (s : Sys) : Prop := Closing s.dev ∧ (w = true → Good s)

variable {op : Op} {d' : Dev}

theorem Shutting.firstFields (h : Shutting w s) (hen : Enabled s op) : FirstFields s op := by
  refine ⟨hen, fun _ hs => ?_⟩
  rcases h.1.state with h' | h' | h' | h'
  all_goals
    have := hs.1.symm.trans h'
    contradiction

theorem Shutting.good (h : Shutting w s) (hen : Enabled s op) {r : Int} (hs : step s op = .ret r s') :
    w = true → Good s' := by
  intro hw
  rcases (h.2 hw).next (h.firstFields hen) with ⟨r', t, ht, hgood⟩ | hspin
  · rw [hs] at ht
    cases ht
    exact hgood
  · rw [hs] at hspin
    cases hspin

theorem beat_enabled (h : Enabled s op) : beat s op = step s op := if_pos h

theorem beat_skips (h : ¬ Enabled s op) : beat s op = .ret 0 s := if_neg h

theorem Shutting.vsync (h : Shutting w s) : ∃ r t, beat s .vsync = .ret r t ∧ Shutting w t ∧
    roundsLeft t.dev = roundsLeft s.dev ∧ Due t.dev := by
  obtain ⟨d', heq, hclosing, hstate, hdue⟩ := h.1.vsync
  have hen : Enabled s .vsync := trivial
  have hs : step s .vsync = .ret 0 { s with dev := d' } := Out.bind_of_ret heq _
  refine ⟨0, _, (beat_enabled hen).trans hs, ⟨hclosing, h.good hen hs⟩, ?_, hdue⟩
  simp only [roundsLeft, hstate]

theorem Shutting.refresh (h : Shutting w s) : ∃ r t, beat s .refresh = .ret r t ∧ Shutting w t ∧
    roundsLeft t.dev ≤ roundsLeft s.dev ∧ (Due s.dev → roundsLeft t.dev = roundsLeft s.dev - 1) := by
  by_cases hen : Enabled s .refresh
  · obtain ⟨d', heq, hclosing, hle, hleft⟩ := h.1.refresh
    have hs : step s .refresh = .ret 0 { s with dev := d' } := Out.bind_of_ret heq _
    exact ⟨0, _, (beat_enabled hen).trans hs, ⟨hclosing, h.good hen hs⟩, hle, fun hdue => hleft hdue.1⟩
  · refine ⟨0, s, beat_skips hen, h, Nat.le_refl _, fun hdue => ?_⟩
    -- the tasklet is not scheduled in state 0 only
    have h0 : s.dev.m.state = 0 := by
      by_contra hne
      exact hen (hdue.2 hne)
    simp [roundsLeft, h0]

theorem work_leaves {v v' : Worker} (h : Worked d v v' d') : d'.m = d.m ∧ d'.queueLock = d.queueLock ∧
    d'.q.dirty = d.q.dirty ∧ d'.q.shutdownCounter = d.q.shutdownCounter ∧ d'.q.interlace = d.q.interlace := by
  cases h <;> exact ⟨rfl, rfl, rfl, rfl, rfl⟩

theorem Shutting.work (h : Shutting true s) : ∃ r t, beat s .work = .ret r t ∧ Shutting true t ∧
    roundsLeft t.dev = roundsLeft s.dev ∧ (Due s.dev → Due t.dev) := by
  by_cases hen : Enabled s .work
  · obtain ⟨hcore, hmode, hhand⟩ := h.2 rfl
    obtain ⟨v', d', heq, hcase, -, -⟩ := hcore.work_cases hmode.queueLock hhand (.inl rfl)
    have hs : step s .work = .ret 0 { s with dev := d', worker := v' } := Out.bind_of_ret heq _
    have hgood := h.good hen hs
    obtain ⟨hm, hlock, hdirty, hcounter, hfields⟩ := work_leaves hcase
    obtain ⟨hqueue, hcounter', hrec, hstate, hfields', -⟩ := h.1
    refine ⟨0, _, (beat_enabled hen).trans hs, ⟨⟨hlock.trans hqueue, hcounter.trans hcounter', ?_, ?_, ?_,
      (hgood rfl).core.usable⟩, hgood⟩, ?_, ?_⟩
    · rwa [hm]
    · rwa [hm]
    · rwa [hm, hfields]
    · simp only [roundsLeft, hm]
    · simp only [Due, hm, hdirty]
      exact id
  · exact ⟨0, s, beat_skips hen, h, rfl, id⟩

theorem Shutting.run {ops : List Op} (hr : Run Decd.beat (Late w) s ops s') (h : Shutting w s) (due : Bool)
    (hdue : due = true → Due s.dev) : Shutting w s' ∧ roundsLeft s'.dev ≤ roundsLeft s.dev - rounds due ops := by
  induction hr generalizing due with
  | nil => exact ⟨h, Nat.le_refl _⟩
  | @cons _ _ _ op _ _ hop hs _ ih =>
    cases op with
    | vsync =>
      obtain ⟨r, t, ht, hnext, hleft, hdue'⟩ := h.vsync
      rw [hs] at ht
      cases ht
      have := ih hnext true fun _ => hdue'
      rwa [hleft] at this
    | refresh =>
      obtain ⟨r, t, ht, hnext, hle, hleft⟩ := h.refresh
      rw [hs] at ht
      cases ht
      obtain ⟨hend, hrest⟩ := ih hnext false (by simp)
      refine ⟨hend, ?_⟩
      cases due with
      | true =>
        have := hleft (hdue rfl)
        simp only [rounds, Bool.toNat_true]
        omega
      | false =>
        simp only [rounds, Bool.toNat_false]
        omega
    | work =>
      have hw : w = true := hop
      subst hw
      obtain ⟨r, t, ht, hnext, hleft, hkeep⟩ := h.work
      rw [hs] at ht
      cases ht
      have := ih hnext due fun hd => hkeep (hdue hd)
      rwa [hleft] at this
    | _ => exact hop.elim

theorem Shutting.stops (h : Shutting w s) : Stops w s := by
  refine ⟨fun ops s' op hr hop => ?_, 3, fun ops s' hr hn => ?_⟩
  · obtain ⟨hend, -⟩ := h.run hr false (by simp)
    cases op with
    | vsync =>
      obtain ⟨r, t, ht, -⟩ := hend.vsync
      exact ⟨r, t, ht⟩
    | refresh =>
      obtain ⟨r, t, ht, -⟩ := hend.refresh
      exact ⟨r, t, ht⟩
    | work =>
      have hw : w = true := hop
      subst hw
      obtain ⟨r, t, ht, -⟩ := hend.work
      exact ⟨r, t, ht⟩
    | _ => exact hop.elim
  · obtain ⟨hend, hleft⟩ := h.run hr false (by simp)
    have hthree : roundsLeft s.dev ≤ 3 := by
      rcases h.1.state with hs | hs | hs | hs <;> simp [roundsLeft, hs]
    have hzero : roundsLeft s'.dev = 0 := by omega
    rcases hend.1.state with hs | hs | hs | hs
    · simp [roundsLeft, hs] at hzero
    · simp [roundsLeft, hs] at hzero
    · simp [roundsLeft, hs] at hzero
    · exact hs

theorem Goes.beat (h : Goes w s) (hop : Late w s op) : ∃ r t, Decd.beat s op = .ret r t ∧ Goes w t := by
  obtain ⟨r, t, ht⟩ := h [] s op .nil hop
  exact ⟨r, t, ht, fun ops s' op' hr => h (op :: ops) s' op' (.cons hop ht hr)⟩

theorem Goes.rounds_exist (h : Goes w s) (n : Nat) :
    ∃ ops s', Run Decd.beat (Late w) s ops s' ∧ rounds false ops = n := by
  induction n generalizing s with
  | zero => exact ⟨[], s, .nil, rfl⟩
  | succ n ih =>
    obtain ⟨r, t, ht, hgoes⟩ := h.beat (show Late w s .vsync from trivial)
    obtain ⟨r', u, hu, hgoes'⟩ := hgoes.beat (show Late w t .refresh from trivial)
    obtain ⟨ops, s', hr, hn⟩ := ih hgoes'
    refine ⟨.vsync :: .refresh :: ops, s', .cons trivial ht (.cons trivial hu hr), ?_⟩
    simp only [rounds, Bool.toNat_true, hn]
    omega

theorem Stops.of_work (h : Stops true s) : Stops false s := by
  have hmono : ∀ {ops s'}, Run beat (Late false) s ops s' → Run beat (Late true) s ops s' := by
    intro ops s' hr
    refine hr.mono fun t op hop => ?_
    cases op with
    | vsync | refresh => trivial
    | work => rfl
    | _ => exact hop.elim
  obtain ⟨hgoes, n, hn⟩ := h
  refine ⟨fun ops s' op hr hop => hgoes ops s' op (hmono hr) ?_, n, fun ops s' hr => hn ops s' (hmono hr)⟩
  cases op with
  | vsync | refresh => trivial
  | work => rfl
  | _ => exact hop.elim

structure Parked (d : Dev) : Prop where
  locked : Locked false false d
  fields : d.q.interlace = 0
  state : d.m.state = 3 ∨ d.m.state = 2

theorem Parked.vsync {r : Unit} (h : Parked d) (hs : decVsyncProcess d = .ret r d') : Parked d' := by
  obtain ⟨⟨hq, hr, hc, hrec⟩, hf, hstate⟩ := h
  by_cases hdirty : d.q.dirty = 0
  · rw [vsync_clean hq hdirty] at hs
    cases hs
    exact ⟨⟨hq, hr, hc, hrec⟩, hf, hstate⟩
  by_cases hu : ∀ i, (d.q.slots i).Usable d.heap
  · by_cases hempty : d.m.recycleFifo.items = []
    · rw [vsync_shows hu hq hdirty hempty] at hs
      cases hs
      exact ⟨⟨hq, hr, hc, hrec⟩, hf, hstate⟩
    · rw [vsync_spins hu hq hdirty hempty hrec] at hs
      cases hs
  · rw [vsync_bugs hu hq hdirty] at hs
    cases hs

theorem Parked.refresh {r : Unit} (h : Parked d) (hs : decFrameQueueRefresh d = .ret r d') : Parked d' := by
  obtain ⟨⟨hq, hr, hc, hrec⟩, hf, hstate⟩ := h
  by_cases hdirty : d.q.dirty = 0
  · have hone : d.m.state ≠ 1 := by rcases hstate with h | h <;> simp [h]
    have heq : refreshLocked (begun d) = refreshStopping (begun d) :=
      (refreshLocked_eq (d := begun d) hc hdirty).trans (if_neg hone)
    rcases hstate with h3 | h2
    · have hk := heq.trans (stopping_three_frames (d := begun d) h3 hf)
      rw [refresh_done (e := { cleared d with m := { (cleared d).m with state := 2 } }) hq hq hk] at hs
      cases hs
      exact ⟨⟨hq, hr, hc, hrec⟩, hf, .inr rfl⟩
    · have hk := heq.trans (stopping_off (d := begun d) (by simp [begun, h2]) (by simp [begun, h2])
        (by simp [begun, h2]))
      rw [refresh_done (e := cleared d) hq hq hk] at hs
      cases hs
      exact ⟨⟨hq, hr, hc, hrec⟩, hf, .inr h2⟩
  · rw [refresh_dirty hq hdirty] at hs
    cases hs
    exact ⟨⟨hq, hr, hc, hrec⟩, hf, hstate⟩

theorem Parked.run {ops : List Op} (hr : Run beat (Late false) s ops s') (h : Parked s.dev) : Parked s'.dev := by
  refine hr.inv (I := fun s => Parked s.dev) (fun s op r s' hp hop hs => ?_) h
  by_cases hen : Enabled s op
  · rw [beat_enabled hen] at hs
    cases op with
    | vsync =>
      obtain ⟨r', d', hv, hret⟩ := Out.bind_eq_ret hs
      cases hret
      exact hp.vsync hv
    | refresh =>
      obtain ⟨r', d', hv, hret⟩ := Out.bind_eq_ret hs
      cases hret
      exact hp.refresh hv
    | work => cases hop
    | _ => exact hop.elim
  · rw [beat_skips hen] at hs
    cases hs
    exact hp

theorem blocked_vsync (hd : Locked false false s.dev) (hdirty : s.dev.q.dirty ≠ 0)
    (hb : ¬ (s.dev.m.recycleFifo.items = [] ∧ ∀ i, (s.dev.q.slots i).Usable s.dev.heap)) {r : Int} :
    beat s .vsync ≠ .ret r s' := by
  have hen : Enabled s .vsync := trivial
  rw [beat_enabled hen]
  intro hs
  obtain ⟨r', d', hv, -⟩ := Out.bind_eq_ret hs
  by_cases hu : ∀ i, (s.dev.q.slots i).Usable s.dev.heap
  · rw [vsync_spins hu hd.queue hdirty (fun he => hb ⟨he, hu⟩) hd.recycled] at hv
    cases hv
  · rw [vsync_bugs hu hd.queue hdirty] at hv
    cases hv

theorem not_blocked (hd : Locked false false s.dev) (h3 : s.dev.m.state = 3) (hf : s.dev.q.interlace ≠ 0)
    (h : Goes false s) : s.dev.m.recycleFifo.items = [] ∧ ∀ i, (s.dev.q.slots i).Usable s.dev.heap := by
  by_contra hb
  obtain ⟨hq, hr, hc, hrec⟩ := hd
  by_cases hdirty : s.dev.q.dirty = 0
  · -- a round leads to state 4, with the slots marked to be shown again
    have hvsync : beat s .vsync = .ret 0 { s with dev := { s.dev with m := ticked s.dev.m } } :=
      Out.bind_of_ret (vsync_clean hq hdirty) _
    have hrefresh : beat { s with dev := { s.dev with m := ticked s.dev.m } } .refresh =
        .ret 0 { s with dev := closingFields (cleared { s.dev with m := ticked s.dev.m }) } := by
      have hen : Enabled { s with dev := { s.dev with m := ticked s.dev.m } } .refresh := ticked_scheduled (.inl h3)
      have hone : s.dev.m.state ≠ 1 := by simp [h3]
      have hk := (refreshLocked_eq (d := begun { s.dev with m := ticked s.dev.m }) hc hdirty).trans (if_neg hone)
      have hthree := hk.trans (stopping_three_fields (d := begun { s.dev with m := ticked s.dev.m }) h3 hf)
      rw [beat_enabled hen]
      exact Out.bind_of_ret (refresh_done (d := { s.dev with m := ticked s.dev.m })
        (e := closingFields (cleared { s.dev with m := ticked s.dev.m })) hq hq hthree) _
    obtain ⟨r, t, ht⟩ := h [.vsync, .refresh] _ .vsync (.cons trivial hvsync (.cons trivial hrefresh .nil)) trivial
    have hlocked : Locked false false (closingFields (cleared { s.dev with m := ticked s.dev.m })) :=
      ⟨hq, hr, hc, hrec⟩
    have hone : (closingFields (cleared { s.dev with m := ticked s.dev.m })).q.dirty ≠ 0 := by simp [closingFields]
    exact blocked_vsync (s := { s with dev := closingFields (cleared { s.dev with m := ticked s.dev.m }) })
      hlocked hone hb ht
  · obtain ⟨r, t, ht, -⟩ := h.beat (show Late false s .vsync from trivial)
    exact blocked_vsync ⟨hq, hr, hc, hrec⟩ hdirty hb ht

theorem stops_needs (hd : Locked false false s.dev) (h3 : s.dev.m.state = 3) (h : Stops false s) :
    s.dev.q.interlace ≠ 0 ∧ s.dev.m.recycleFifo.items = [] ∧ ∀ i, (s.dev.q.slots i).Usable s.dev.heap := by
  have hf : s.dev.q.interlace ≠ 0 := by
    intro hf
    obtain ⟨hgoes, n, hn⟩ := h
    obtain ⟨ops, s', hr, hrounds⟩ := hgoes.rounds_exist n
    have hzero := hn ops s' hr (Nat.le_of_eq hrounds.symm)
    have hparked := Parked.run hr ⟨hd, hf, .inl h3⟩
    rcases hparked.state with hs | hs
    all_goals
      have := hs.symm.trans hzero
      contradiction
  exact ⟨hf, not_blocked hd h3 hf h.1⟩

/-- From every state 3 that can be reached: the shutdown comes to an end if and only if the stream is one of
split-field frames, nothing is in the recycle FIFO, and the frame in the slots is there. -/
theorem stops_iff {size : Nat} {ops : List Op} (hr : Run step Enabled (start size) ops s) (h3 : s.dev.m.state = 3) :
    (Stops false s ↔ s.dev.q.interlace ≠ 0 ∧ s.dev.m.recycleFifo.items = [] ∧
        ∀ i, (s.dev.q.slots i).Usable s.dev.heap) ∧ (Run step FirstFields (start size) ops s →
        (Stops true s ↔ s.dev.q.interlace ≠ 0 ∧ s.dev.m.recycleFifo.items = [])) := by
  have hd := locked_of_run hr
  refine ⟨⟨stops_needs hd h3, fun ⟨hf, hrec, hu⟩ => ?_⟩, fun hfirst => ⟨fun h => ?_, fun ⟨hf, hrec⟩ => ?_⟩⟩
  · exact Shutting.stops ⟨⟨hd.queue, hd.counter, hrec, .inl h3, fun _ => hf, hu⟩, by simp⟩
  · obtain ⟨hf, hrec, -⟩ := stops_needs hd h3 h.of_work
    exact ⟨hf, hrec⟩
  · have hgood := good_of_run hfirst
    exact Shutting.stops ⟨⟨hd.queue, hd.counter, hrec, .inl h3, fun _ => hf, hgood.core.usable⟩, fun _ => hgood⟩

def stopFields : List Op := [.enqueue ⟨true⟩ true, .resume, .stop]

theorem stops_iff_fields : ∃ s, Run step Enabled (start 8) stopFields s ∧ s.dev.m.state = 3 ∧ Stops false s := by
  refine Run.exists_of_exec_imp
    (P := fun s => s.dev.m.state = 3 ∧ s.dev.q.interlace ≠ 0 ∧ s.dev.m.recycleFifo.items = [] ∧
      ∀ i, (s.dev.q.slots i).Usable s.dev.heap)
    (by decide +kernel) fun s hs hend => ?_
  obtain ⟨h3, hcond⟩ := hend
  exact ⟨h3, (stops_iff hs h3).1.mpr hcond⟩

structure Resting (d : Dev) : Prop where
  queue : d.queueLock = false
  counter : d.q.shutdownCounter = 4
  dirty : d.q.dirty = 0
  state : d.m.state = 2

theorem Resting.beat (h : Resting s.dev) (hop : Late false s op) :
    ∃ r t, Decd.beat s op = .ret r t ∧ Resting t.dev := by
  obtain ⟨hq, hc, hdirty, h2⟩ := h
  by_cases hen : Enabled s op
  · rw [beat_enabled hen]
    cases op with
    | vsync => exact ⟨0, _, Out.bind_of_ret (vsync_clean hq hdirty) _, hq, hc, hdirty, h2⟩
    | refresh =>
      have hone : s.dev.m.state ≠ 1 := by simp [h2]
      have hk := ((refreshLocked_eq (d := begun s.dev) hc hdirty).trans (if_neg hone)).trans
        (stopping_off (by simp [begun, h2]) (by simp [begun, h2]) (by simp [begun, h2]))
      have hdone := refresh_done (e := cleared s.dev) hq hq hk
      exact ⟨0, _, Out.bind_of_ret hdone _, hq, hc, hdirty, h2⟩
    | work => cases hop
    | _ => exact hop.elim
  · exact ⟨0, s, beat_skips hen, hq, hc, hdirty, h2⟩

theorem Resting.goes (h : Resting s.dev) : Goes false s := by
  intro ops s' op hr hop
  have hend : Resting s'.dev := by
    refine hr.inv (I := fun s => Resting s.dev) (fun s op r s' hrest hop hs => ?_) h
    obtain ⟨r', t, ht, hnext⟩ := hrest.beat hop
    rw [hs] at ht
    cases ht
    exact hnext
  obtain ⟨r, t, ht, -⟩ := hend.beat hop
  exact ⟨r, t, ht⟩

instance (w : Bool) (s : Sys) : ∀ op, Decidable (Late w s op)
  | .enqueue _ _ | .enqueueInterlace _ _ _ _ | .setStreamType _ | .resume | .stop | .stopped | .timeout | .vsync |
    .refresh | .work => by unfold Late; infer_instance

theorem frames_never_stop : ∃ s t, Run step Enabled (start 8) [.enqueue ⟨false⟩ true, .resume, .stop] s ∧
    s.proc = .waiting ∧ s.dev.m.state = 3 ∧ Run beat (Late false) s [.vsync, .refresh] t ∧ Goes false t ∧
    ∀ ops s', Run beat (Late false) s ops s' → s'.dev.m.state ≠ 0 := by
  obtain ⟨s, hs, hproc, h3, hf, hrun⟩ := Run.exists_of_exec
    (P := fun s => s.proc = .waiting ∧ s.dev.m.state = 3 ∧ s.dev.q.interlace = 0 ∧
      (Run.exec beat (Late false) s [.vsync, .refresh]).any (fun t => t.dev.q.dirty = 0 ∧ t.dev.m.state = 2) = true)
    (by decide +kernel :
      (Run.exec step Enabled (start 8) [.enqueue ⟨false⟩ true, .resume, .stop]).any _ = true)
  have hparked : Parked s.dev := ⟨locked_of_run hs, hf, .inl h3⟩
  obtain ⟨t, ht, hdirty, h2⟩ := Run.exists_of_exec hrun
  have hend := hparked.run ht
  refine ⟨s, t, hs, hproc, h3, ht, Resting.goes ⟨hend.locked.queue, hend.locked.counter, hdirty, h2⟩, ?_⟩
  intro ops s' hr
  rcases (hparked.run hr).state with h | h <;> simp [h]

end H713.Decd
