import H713.Decd.Accounts

/-!
# Decd.Fences

Who frees a fence. Its item and the files that user space got for it count, but `frame_item_release` frees the
memory itself, whatever the count says.
-/

namespace H713.Decd

open RefCount

namespace Mem

/-- A fence is freed exactly once, when neither its item nor a file has it any more. -/
def FencesRight (m : Mem) : Prop :=
  ∀ f < m.fences, (m.fence f).frees =
    if m.items.Live (m.fence f).item ∨ f ∈ m.files.map Prod.snd then 0 else 1

instance (m : Mem) : Decidable m.FencesRight := inferInstanceAs (Decidable (∀ f < m.fences, _))

def LastFree (m : Mem) (i : Nat) : Prop :=
  m.items.count i = 1 → ∀ f < m.fences, (m.fence f).item = i → f ∉ m.files.map Prod.snd

instance (m : Mem) (i : Nat) : Decidable (m.LastFree i) := inferInstanceAs (Decidable (_ → ∀ f < m.fences, _))

def Closed (m : Mem) : Prop :=
  ∀ f < m.fences, ¬ m.items.Live (m.fence f).item → f ∉ m.files.map Prod.snd

namespace Ok

variable {m m' : Mem}

theorem right_iff (h : m.Ok) : m.FencesRight ↔ m.Closed := by
  refine forall₂_congr fun f hf => ?_
  rw [h.frees f hf]
  by_cases hl : m.items.Live (m.fence f).item <;> by_cases hfile : f ∈ m.files.map Prod.snd <;> simp [hl, hfile]

section

variable (h : m.Ok) (hc : m.Closed)

include h hc

theorem closed_release {i : Nat} {u : Unit} (hr : m.frameItemRelease i = .ret u m') : m'.Closed ↔ m.LastFree i := by
  obtain ⟨h2, rfl⟩ | ⟨h1, fence, rfl, hfence⟩ := release_ret h hr
  · refine iff_of_true (fun f hf hdead => ?_) fun h1 => absurd h1 (by omega)
    exact hc f hf fun hl => hdead ((h.live_decr_shared h2 _).mpr hl)
  · have hitem : ∀ f < m.fences, (fence f).item = (m.fence f).item := by
      intro f hf
      rw [hfence f hf]
      split <;> rfl
    constructor
    · intro hc' _ f hf hfi
      refine hc' f hf ?_
      dsimp only
      rw [hitem f hf, h.live_decr h1]
      exact fun hl => hl.2 hfi
    · intro hlast f hf hdead
      dsimp only at hf hdead ⊢
      rw [hitem f hf, h.live_decr h1] at hdead
      by_cases hfi : (m.fence f).item = i
      · exact hlast h1 f hf hfi
      · exact hc f hf fun hl => hdead ⟨hl, hfi⟩

theorem closed_created (desc : Desc) (dmaBufs fence : Bool) : (m.addItem desc dmaBufs fence).Closed := by
  intro f hf hdead hfile
  rw [files_created] at hfile
  obtain ⟨x, hx, rfl⟩ := List.mem_map.mp hfile
  have hlt := h.files x hx
  rw [fence_created m desc dmaBufs fence hlt] at hdead
  exact hc x.2 hlt (fun hl => hdead ((Heap.live_alloc ..).mpr (.inr hl))) hfile

theorem closed_made_released {desc : Desc} {dmaBufs fence : Bool} {u : Unit}
    (hr : (m.addItem desc dmaBufs fence).frameItemRelease m.items.next = .ret u m') : m'.Closed := by
  refine ((h.created desc dmaBufs fence).closed_release (h.closed_created hc desc dmaBufs fence) hr).mpr ?_
  intro _ f hf hitem hfile
  rw [files_created] at hfile
  obtain ⟨x, hx, rfl⟩ := List.mem_map.mp hfile
  have hlt := h.files x hx
  rw [fence_created m desc dmaBufs fence hlt] at hitem
  exact absurd (h.born x.2 hlt) (hitem ▸ Nat.lt_irrefl _)

theorem closed_fenceFd {i : Nat} {it : FrameItem} (hi : m.items.obj? i = some it) :
    (m.fenceFdCreate it.fence).Closed := by
  cases hfence : it.fence with
  | none => exact hc
  | some g =>
    obtain ⟨hg, hitem⟩ := (h.own i it hi g).mp hfence
    have hlive : m.items.Live (m.fence g).item := by
      rw [hitem]
      by_contra hd
      rw [Heap.obj?_of_not_live hd] at hi
      cases hi
    have hsame : ∀ f, ((m.fenceFdCreate (some g)).fence f).item = (m.fence f).item := by
      intro f
      by_cases hfg : f = g
      · subst hfg
        simp [fenceFdCreate]
      · simp [fenceFdCreate, hfg]
    intro f hf hdead hfile
    rw [hsame f] at hdead
    rw [show (m.fenceFdCreate (some g)).files = m.files ++ [(m.nextFile, g)] from rfl, List.map_append,
      List.mem_append] at hfile
    rcases hfile with hfile | hfile
    · exact hc f hf hdead hfile
    · obtain rfl : f = g := List.mem_singleton.mp hfile
      exact hdead hlive

end

theorem closed_close (hc : m.Closed) {file : Nat} {u : Unit} (hr : m.close file = .ret u m') : m'.Closed := by
  unfold Mem.close at hr
  split at hr
  · cases hr
  rename_i g hlookup
  dsimp only at hr
  split at hr
  · cases hr
  cases hr
  have hsame : ∀ f, (Function.update m.fence g { m.fence g with
      refs := (m.fence g).refs - 1
      frees := if (m.fence g).refs ≤ 1 then (m.fence g).frees + 1 else (m.fence g).frees } f).item =
        (m.fence f).item := by
    intro f
    by_cases hfg : f = g
    · subst hfg
      simp
    · simp [hfg]
  intro f hf hdead hfile
  dsimp only at hf hdead hfile
  rw [hsame f] at hdead
  obtain ⟨x, hx, rfl⟩ := List.mem_map.mp hfile
  exact hc x.2 hf hdead (List.mem_map_of_mem (List.mem_of_mem_erase hx))

theorem file_works (h : m.Ok) (hc : m.Closed) {file : Nat} (hfile : file ∈ m.files.map Prod.fst) :
    m.close file ≠ .bug ∧ m.poll file ≠ .bug := by
  obtain ⟨f, hf⟩ : ∃ f, m.files.lookup file = some f := by
    refine Option.ne_none_iff_exists'.mp fun hnone => ?_
    obtain ⟨x, hx, rfl⟩ := List.mem_map.mp hfile
    simpa using List.lookup_eq_none_iff.mp hnone x hx
  have hmem := mem_of_lookup hf
  have hlive : m.items.Live (m.fence f).item := by
    by_contra hdead
    exact hc f (h.files _ hmem) hdead (List.mem_map_of_mem hmem)
  have hfrees : (m.fence f).frees = 0 := by
    rw [h.frees f (h.files _ hmem), if_pos hlive]
  simp [Mem.close, Mem.poll, hf, hfrees]

end Ok

end Mem

namespace World

def releasing (w : World) : Op → Option Nat
  | .release =>
    match w.call with
    | .release i => some i
    | _ => none
  | .callback => w.pending.head?.bind fun k => w.frames.lookup k
  | _ => none

/-- When the operation drops the last reference to an item, no file has its fence. -/
def FenceFits (w : World) (op : Op) : Prop := ∀ i ∈ w.releasing op, w.mem.LastFree i
deriving Decidable

namespace Inv

variable {w w' : World}

theorem fits_of_none {op : Op} (h : w.releasing op = none) : w.FenceFits op := by
  intro i hi
  rw [h] at hi
  cases hi

theorem fits_iff {op : Op} {i : Nat} (h : w.releasing op = some i) : w.FenceFits op ↔ w.mem.LastFree i := by
  simp [FenceFits, h]

theorem closed_iff (h : Inv w) (hc : w.mem.Closed) {op : Op} (hp : Possible w op)
    (hs : World.step w op = .ret () w') : w'.mem.Closed ↔ w.FenceFits op := by
  cases goes_of_step hp.1 hs with
  | refused | resume | pairResume | pairRefused | enqueuePair | manager | notEnabled | enable | notDisabled | disable
  | exit | poll =>
    exact iff_of_true hc (fits_of_none rfl)
  | made _ dmaBufs fence => exact iff_of_true (h.mem.closed_created hc _ dmaBufs fence) (fits_of_none rfl)
  | enqueue =>
    refine iff_of_true (fun f hf hdead => ?_) (fits_of_none rfl)
    exact hc f hf fun hl => hdead ((Heap.live_incr ..).mpr hl)
  | fence _ hitem =>
    refine iff_of_true ?_ (fits_of_none rfl)
    dsimp only
    split
    · exact h.mem.closed_fenceFd hc hitem
    · exact hc
  | release hcall hm =>
    refine (h.mem.closed_release hc hm).trans (fits_iff ?_).symm
    simp only [releasing, hcall]
  | pairUndone _ _ hm =>
    refine iff_of_true ?_ (fits_of_none rfl)
    rcases hm with rfl | ⟨desc, dmaBufs, fence, hm⟩
    · exact hc
    · exact h.mem.closed_made_released hc hm
  | pairMade _ _ dmaBufs fence dmaBufs' fence' =>
    refine iff_of_true ?_ (fits_of_none rfl)
    exact (h.mem.created _ dmaBufs fence).closed_created (h.mem.closed_created hc _ dmaBufs fence) _ dmaBufs' fence'
  | callback hhead hlookup hm =>
    refine (h.mem.closed_release hc hm).trans (fits_iff ?_).symm
    simp only [releasing, hhead, Option.bind_some, hlookup]
  | close hm => exact iff_of_true (Mem.Ok.closed_close hc hm) (fits_of_none rfl)

end Inv

/-- As long as the last reference to an item goes when its files are closed, each fence is freed exactly once and no
file is left with a freed one; a step is right if and only if it meets that condition. -/
theorem fences_freed {size : Nat} {fenceCtx : Bool} {ops : List Op} {w : World}
    (hr : Run step (fun w op => Possible w op ∧ FenceFits w op) (init size fenceCtx) ops w) :
    w.mem.FencesRight ∧ (∀ file ∈ w.mem.files.map Prod.fst, w.mem.close file ≠ .bug ∧ w.mem.poll file ≠ .bug) ∧
      ∀ op w', Possible w op → step w op = .ret () w' → (w'.mem.FencesRight ↔ FenceFits w op) := by
  obtain ⟨h, hc⟩ : Inv w ∧ w.mem.Closed := by
    refine hr.inv (I := fun w => Inv w ∧ w.mem.Closed) ?_ ⟨.init size fenceCtx, by rintro f ⟨⟩⟩
    rintro w op ⟨⟩ w' ⟨h, hc⟩ ⟨hp, hf⟩ hs
    exact ⟨h.step hp hs, (h.closed_iff hc hp hs).mpr hf⟩
  refine ⟨h.mem.right_iff.mpr hc, fun file hfile => h.mem.file_works hc hfile, fun op w' hp hs => ?_⟩
  rw [(h.step hp hs).mem.right_iff]
  exact h.closed_iff hc hp hs

theorem fences_freed_closed : ∃ w, Run step (fun w op => Possible w op ∧ FenceFits w op) (init 8 true)
      (fourOps.dropLast ++ [.close 0, .callback]) w ∧ (w.mem.fence 0).frees = 1 ∧ w.mem.FencesRight := by
  refine Run.exists_of_exec_imp (P := fun w => (w.mem.fence 0).frees = 1) (by decide +kernel) fun w hr hfrees => ?_
  exact ⟨hfrees, (fences_freed hr).1⟩

theorem open_fence_freed : ∃ w, Run step Possible (init 8 true) fourOps w ∧
    (0, 0) ∈ w.mem.files ∧ (w.mem.fence 0).frees = 1 ∧ ¬ w.mem.FencesRight ∧
      Possible w (.poll 0) ∧ step w (.poll 0) = .bug :=
  Run.exists_of_exec (by decide +kernel)

end World

end H713.Decd
