import H713.Mmc.Retry

/-!
# Mmc.Mapping

Mapping and unmapping of the scatter list. They stay paired on every way a request can take but one: the watchdog
hands a request back with the mapping of its retry (`handed_back_unmapped`).
-/

namespace H713.Mmc

namespace Phase

def mapped (p : Phase) (i : Nat) : Nat :=
  match p with
  | flight m _ => if m.data ∧ i = m.id then 1 else 0
  | reissuing m _ => if i = m.id then 1 else 0
  | _ => 0

end Phase

/-- Each request is mapped as often as it was unmapped, once more while it is in flight. -/
def Balanced (p : Phase) (b : Books) : Prop := ∀ i, b.log.maps i = b.log.unmaps i + p.mapped i

namespace Balanced

variable {b : Books} {m : Mrq} {i : Nat}

theorem maps_map : (b.map m).log.maps i = b.log.maps i + if m.data ∧ i = m.id then 1 else 0 := by
  cases hd : m.data <;> simp [Books.map, Books.remap, hd, Log.map, bump_apply]

theorem unmaps_map : (b.map m).log.unmaps = b.log.unmaps := by
  unfold Books.map
  split <;> rfl

theorem unmaps_unmap : (b.unmap m).log.unmaps i = b.log.unmaps i + if m.data ∧ i = m.id then 1 else 0 := by
  cases hd : m.data <;> simp [Books.unmap, hd, Log.unmap, bump_apply]

theorem maps_unmap : (b.unmap m).log.maps = b.log.maps := by
  unfold Books.unmap
  split <;> rfl

theorem unmap {r : Bool} (h : Balanced (.flight m r) b) {p : Phase} (hp : ∀ i, p.mapped i = 0) :
    Balanced p (b.unmap m) := by
  intro i
  have := h i
  rw [maps_unmap, unmaps_unmap, hp]
  exact this

theorem move {a : Actor} {p p' : Phase} {b' : Books} (hm : Move a p b p' b')
    (ha : ∀ m, a = .timer → p ≠ .flight m true) (hc : Cmd53 p) (h : Balanced p b) : Balanced p' b' := by
  cases hm with
  | stay | refuse _ | fail | takeStop | stopped | done => exact h
  | start _ =>
    intro i
    have : b.log.maps i = b.log.unmaps i := h i
    rw [maps_map, unmaps_map]
    exact congrArg (· + _) this
  | giveUp _ =>
    intro i
    have : b.log.maps i = b.log.unmaps i := h i
    rw [maps_unmap, unmaps_unmap, maps_map, unmaps_map]
    exact congrArg (· + _) this
  | complete | retry _ _ _ | stop _ => exact h.unmap fun _ => rfl
  | watchdog => exact absurd rfl (ha _ rfl)
  | take =>
    intro i
    rw [Books.log_count]
    exact h i
  | remap _ =>
    intro i
    have : b.log.maps i = b.log.unmaps i := h i
    show bump b.log.maps _ i = b.log.unmaps i + _
    rw [bump_apply, this]
    rfl
  | @reissue m fifo =>
    intro i
    have := h i
    have hdata := (hc m rfl).1
    cases fifo <;> simpa [Books.reissue, Log.reissue, Phase.mapped, hdata] using this

end Balanced

/-- The watchdog does not find a re-issued request in flight. -/
def NoExpiry (s : Sys) : Op → Prop
  | .timeout => ∀ m ∈ s.host.mrq, ¬ PointsTo s.host.retryTimerMrq m
  | _ => True

instance (s : Sys) : ∀ op, Decidable (NoExpiry s op)
  | .request _ | .irq _ _ | .expire | .timeout | .thread _ | .done _ => by unfold NoExpiry; infer_instance

namespace Inv

variable {s : Sys} {p : Phase}

theorem noExpiry_iff (h : Inv s p) : NoExpiry s .timeout ↔ ∀ m, p ≠ .flight m true := by
  have hmrq := h.repr.mrq
  have ht := h.repr.retryTimer
  constructor
  · rintro hno m rfl
    exact hno m hmrq (by simp [PointsTo, ht, Phase.retryTimer])
  · intro hp m hm
    cases p with
    | flight m' r =>
      cases r with
      | true => exact absurd rfl (hp m')
      | false => simp [PointsTo, ht, Phase.retryTimer]
    | _ => simp_all [Phase.mrq]

theorem balanced_step (h : Inv s p) (hb : Balanced p s.books) {o : Op} {s' : Sys} (hp : Possible s o)
    (hno : NoExpiry s o) (hs : Mmc.step s o = .ret () s') : ∃ p', Inv s' p' ∧ Balanced p' s'.books := by
  obtain ⟨t, p', ht, h', hm⟩ := h.step hp
  cases ht.symm.trans hs
  cases o with
  | timeout => exact ⟨p', h', hb.move hm (fun m _ => h.noExpiry_iff.mp hno m) h.cmd53⟩
  | expire =>
    cases hs
    exact ⟨p, ⟨{ h.repr with }, h.budget, h.returned, h.cmd53⟩, hb⟩
  | request _ | irq _ _ | thread _ | done _ => exact ⟨p', h', hb.move hm (by rintro _ ⟨⟩) h.cmd53⟩

theorem balanced_doing (h : Inv s p) (hb : Balanced p s.books) {m : Mrq} (hm : m ∈ s.doing) :
    s.log.maps m.id = s.log.unmaps m.id := by
  have := hb m.id
  rw [h.repr.doing] at hm
  cases p <;> simp_all [Phase.doing, Phase.mapped, Sys.books]

theorem expiry_mapped {m : Mrq} (h : Inv s (.flight m true)) (hb : Balanced (.flight m true) s.books) :
    m ∈ s.retryTimeout.doing ∧ s.retryTimeout.log.maps m.id = s.retryTimeout.log.unmaps m.id + 1 := by
  obtain ⟨hr, hbooks⟩ := h.repr.timeout_reissued
  have hlog : s.retryTimeout.log = s.log := congrArg Books.log hbooks
  have hdata : m.data := (h.cmd53 m rfl).1
  refine ⟨?_, ?_⟩
  · rw [hr.doing]
    exact List.mem_singleton.mpr rfl
  · rw [hlog]
    simpa [Phase.mapped, hdata, Sys.books] using hb m.id

end Inv

/-- As long as the watchdog finds no re-issued request in flight, every request handed back has been unmapped
as often as it was mapped; when it finds one, that request is handed back mapped. -/
theorem handed_back_unmapped {ops : List Op} {s : Sys}
    (hr : Run step (fun s o => Possible s o ∧ NoExpiry s o) Sys.init ops s) :
    (∀ i ∈ s.log.completed, s.log.maps i = s.log.unmaps i) ∧ (∀ m ∈ s.doing, s.log.maps m.id = s.log.unmaps m.id) ∧
    ∀ o s', Possible s o → step s o = .ret () s' →
      ((∀ m ∈ s'.doing, s'.log.maps m.id = s'.log.unmaps m.id) ↔ NoExpiry s o) := by
  obtain ⟨p, h, hb⟩ : ∃ p, Inv s p ∧ Balanced p s.books := by
    refine hr.inv (I := fun s => ∃ p, Inv s p ∧ Balanced p s.books) ?_ ⟨.idle, .init, fun _ => rfl⟩
    rintro s o a s' ⟨p, h, hb⟩ ⟨hp, hno⟩ hs
    exact h.balanced_step hb hp hno hs
  refine ⟨fun i hi => ?_, fun m => h.balanced_doing hb, fun o s' hp hs => ⟨fun hall => ?_, fun hno => ?_⟩⟩
  · have hcount := h.returned.count i
    have hpos := List.count_pos_iff.mpr hi
    have hne : ∀ m, p.cur = some m → i ≠ m.id := by
      by_contra hcon
      rw [if_neg (fun hc => hcon hc.2)] at hcount
      exact absurd hcount hpos.ne'
    have := hb i
    cases p <;> simp_all [Phase.mapped, Phase.cur, Sys.books]
  · cases o with
    | timeout =>
      refine h.noExpiry_iff.mpr ?_
      rintro m rfl
      cases hs
      obtain ⟨hm, hmaps⟩ := h.expiry_mapped hb
      have := hall m hm
      exact absurd (this.symm.trans hmaps) (by simp)
    | _ => trivial
  · obtain ⟨p', h', hb'⟩ := h.balanced_step hb hp hno hs
    exact fun m => h'.balanced_doing hb'

theorem handed_back_unmapped_retried : ∃ s, Run step (fun s o => Possible s o ∧ NoExpiry s o) Sys.init
      (read53 :: .irq 0x80 0 :: retryOps ++ [.expire, .irq 0x8 receiveInterrupt, .timeout]) s ∧
    s.doing = [⟨0, 0x40, ioRwExtended, true, false⟩] ∧ ∀ m ∈ s.doing, s.log.maps m.id = s.log.unmaps m.id := by
  refine Run.exists_of_exec_imp
    (P := fun s => s.doing = [⟨0, 0x40, ioRwExtended, true, false⟩]) (by decide +kernel) fun s hr hs => ?_
  exact ⟨hs, (handed_back_unmapped hr).2.1⟩

theorem expired_stays_mapped : ∃ s,
    Run step Possible Sys.init (read53 :: .irq 0x80 0 :: retryOps ++ [.expire, .timeout]) s ∧
    s.doing = [⟨0, 0x40, ioRwExtended, true, false⟩] ∧ s.log.maps 0 = 2 ∧ s.log.unmaps 0 = 1 :=
  Run.exists_of_exec (by decide +kernel)

end H713.Mmc
