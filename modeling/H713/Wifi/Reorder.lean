import H713.Lib.Run
import Mathlib.Data.List.Basic

/-!
# Wifi.Reorder

The receive reordering of the aic8800 driver (`rwnx_rx.c`), for one station and TID. Frames carry the low 12 bits of
the sender's count. Each call is a step; `recv_msdu`s are not counted. What leaves the list goes to
`reord_single_frame_ind`, which hands it up, or frees it when its `forward` is 0.
-/

namespace H713.Wifi

def snLess (a b : Nat) : Prop := (a + 0x10000 - b) / 0x800 % 2 = 1
deriving Decidable

def winSize : Nat := 64

structure Frame where
  pkt : Nat
  num : Nat
  rtp : Bool
deriving DecidableEq

def Frame.seq (f : Frame) : Nat := f.num % 0x1000

structure Ctrl where
  enable : Bool
  indSn : Nat
  list : List Frame
  timer : Bool
  work : Bool

structure Rx where
  known : Bool
  ctrl : Ctrl
  top : Nat
  out : List Frame
  past : List (List Frame)
  came : List Frame
  late : List Frame
  lost : List Frame

def initCtrl : Ctrl := ⟨true, 0xffff, [], false, false⟩

def needCheck (indSn seq : Nat) : Bool × Nat :=
  let wend := (indSn + winSize - 1) % 0x1000
  let indSn := if indSn = 0xffff then seq else indSn
  if snLess seq indSn then (true, indSn)
  else if seq = indSn then (false, (indSn + 1) % 0x1000)
  else if snLess wend seq then
    (false, if winSize - 1 ≤ seq then seq - (winSize - 1) else 0xfff - (winSize - (seq + 1)) + 1)
  else (false, indSn)

def enqueue (f : Frame) : List Frame → Option (List Frame)
  | [] => some [f]
  | g :: l =>
    if snLess g.seq f.seq then (enqueue f l).map (g :: ·)
    else if g.seq = f.seq then none
    else some (f :: g :: l)

def advance (indSn : Nat) : List Frame → Bool × Nat
  | [] => (false, indSn)
  | f :: l =>
    if snLess indSn f.seq then (true, indSn)
    else advance (if indSn = f.seq then (indSn + 1) % 0x1000 else indSn) l

def rxframesInd (c : Ctrl) : List Frame × Ctrl :=
  (c.list.takeWhile fun f => ¬ snLess c.indSn f.seq,
    { c with list := c.list.dropWhile fun f => ¬ snLess c.indSn f.seq })

def timeoutWorker (c : Ctrl) : List Frame × Ctrl :=
  let c := { c with work := false }
  match c.list with
  | [] => rxframesInd c
  | f :: _ =>
    let (more, sn) := advance f.seq c.list
    rxframesInd { c with indSn := sn, timer := c.timer || more }

structure Arrival where
  frame : Frame
  whole : Bool
  alloc : Bool
  pae : Bool
  supported : Bool
  initOk : Bool

def reorder (s : Rx) (c : Ctrl) (f : Frame) : List Frame × Rx :=
  let s := { s with known := true, top := max s.top (f.num + 1), came := f :: s.came }
  let (late, sn) := needCheck c.indSn f.seq
  let c := { c with indSn := sn }
  if late then
    if f.rtp ∧ f.seq ≠ sn then ([], { s with ctrl := c, lost := f :: s.lost })
    else ([f], { s with ctrl := c, late := f :: s.late })
  else
    match enqueue f c.list with
    | none => ([], { s with ctrl := c, lost := f :: s.lost })
    | some l =>
      let (more, sn) := advance c.indSn l
      let (up, c) := rxframesInd { c with list := l, indSn := sn, timer := more }
      (up, { s with ctrl := c, out := s.out ++ up })

def findCtrl (s : Rx) : Ctrl :=
  if ¬ s.known then initCtrl
  else if s.ctrl.enable then s.ctrl
  else { s.ctrl with enable := true, indSn := 0xffff }

def processUnit (s : Rx) (a : Arrival) : List Frame × Rx :=
  if ¬ a.whole ∨ ¬ a.alloc then ([], s)
  else if a.pae then ([a.frame], s)
  else if ¬ a.supported ∨ ¬ s.known ∧ ¬ a.initOk then ([], s)
  else reorder s (findCtrl s) a.frame

def flushTid (s : Rx) : List Frame × Rx :=
  if ¬ s.known ∨ ¬ s.ctrl.enable then ([], s)
  else
    let c := { s.ctrl with list := [], enable := false, timer := false, work := false }
    (s.ctrl.list, { s with ctrl := c, top := 0, out := [], past := (s.out ++ s.ctrl.list) :: s.past })

def deinitSta (s : Rx) : Rx :=
  if ¬ s.known then s
  else
    let c := if s.ctrl.enable then { s.ctrl with enable := false, timer := false, work := false } else s.ctrl
    { s with
      known := false, ctrl := { c with list := [] }, top := 0, out := [], past := s.out :: s.past,
      lost := s.ctrl.list ++ s.lost }

inductive Op where
  | frame (a : Arrival)
  | timer
  | work
  | flush
  | deinit

def next (s : Rx) : Op → List Frame × Rx
  | .frame a => processUnit s a
  | .timer => ([], { s with ctrl := { s.ctrl with timer := false, work := true } })
  | .work =>
    let (up, c) := timeoutWorker s.ctrl
    (up, { s with ctrl := c, out := s.out ++ up })
  | .flush => flushTid s
  | .deinit => ([], deinitSta s)

def step (s : Rx) (op : Op) : Out Rx (List Frame) := .ret (next s op).1 (next s op).2

def start : Rx := ⟨false, initCtrl, 0, [], [], [], [], []⟩

variable {n n' top : Nat} {s s' : Rx} {c : Ctrl} {f : Frame} {l up out : List Frame}

theorem snLess_iff {x y : Nat} (h : x < y + 0x800) (h' : y ≤ x + 0x800) :
    snLess (x % 0x1000) (y % 0x1000) ↔ x < y := by
  simp only [snLess]
  omega

def lowSn (n : Nat) : Nat := if n = 0 then 0xffff else n % 0x1000

theorem needCheck_spec {m : Nat} (h : n ≠ 0 → n ≤ m + 0x800 ∧ m < n + 0x800) :
    n ≠ 0 ∧ m < n ∧ needCheck (lowSn n) (m % 0x1000) = (true, n % 0x1000) ∨
    ∃ sn, needCheck (lowSn n) (m % 0x1000) = (false, sn % 0x1000) ∧ (n = 0 ∧ sn = m + 1 ∨ n ≠ 0 ∧ n ≤ m ∧
      (sn = n + 1 ∧ m = n ∨ sn = n ∧ m < n + 64 ∨ n < sn ∧ sn + 63 = m)) := by
  have hsize : winSize = 64 := rfl
  by_cases hn : n = 0
  · have hself : ¬ snLess (m % 0x1000) (m % 0x1000) := by rw [snLess_iff] <;> omega
    exact .inr ⟨m + 1, by simp [needCheck, lowSn, hn, hself], .inl ⟨hn, rfl⟩⟩
  obtain ⟨hlo, hhi⟩ := h hn
  have hend : (n % 0x1000 + winSize - 1) % 0x1000 = (n + 63) % 0x1000 := by omega
  simp only [needCheck, lowSn, hn, if_false, hend, if_neg (by omega : n % 0x1000 ≠ 0xffff), snLess_iff hhi hlo]
  by_cases hlate : m < n
  · exact .inl ⟨hn, hlate, if_pos hlate⟩
  have hbeyond : snLess ((n + 63) % 0x1000) (m % 0x1000) ↔ n + 63 < m := snLess_iff (by omega) (by omega)
  simp only [if_neg hlate, hbeyond]
  right
  split
  · exact ⟨n + 1, by simp, by omega⟩
  split
  · exact ⟨m - 63, by congr 1; split <;> omega, by omega⟩
  · exact ⟨n, rfl, by omega⟩

abbrev Asc (l : List Frame) : Prop := l.Pairwise (·.num < ·.num)

def Close (n : Nat) (l : List Frame) : Prop :=
  ∀ f ∈ l, n < f.num + 0x800 ∧ f.num < n + 0x800 ∧ ∀ g ∈ l, g.num < f.num + 0x7ff

theorem enqueue_perm {l' : List Frame} (h : enqueue f l = some l') : l'.Perm (f :: l) := by
  induction l generalizing l' with
  | nil => cases h; exact .refl _
  | cons g l ih =>
    simp only [enqueue] at h
    split at h
    · obtain ⟨k, hk, rfl⟩ := Option.map_eq_some_iff.mp h
      exact ((ih hk).cons g).trans (.swap ..)
    split at h
    · cases h
    · cases h
      exact .refl _

theorem enqueue_spec (hl : Asc l) (hnear : ∀ g ∈ l, g.num < f.num + 0x800 ∧ f.num < g.num + 0x800) :
    (enqueue f l = none → ∃ g ∈ l, g.num = f.num) ∧ ∀ l', enqueue f l = some l' → Asc l' := by
  induction l with
  | nil => exact ⟨by simp [enqueue], by simp [enqueue]⟩
  | cons g l ih =>
    obtain ⟨hg, hasc⟩ := List.pairwise_cons.mp hl
    obtain ⟨h1, h2⟩ := hnear g List.mem_cons_self
    obtain ⟨hnone, hsome⟩ := ih hasc fun x hx => hnear x (List.mem_cons_of_mem _ hx)
    have hless : snLess g.seq f.seq ↔ g.num < f.num := snLess_iff h1 (by omega)
    have heq : g.seq = f.seq ↔ g.num = f.num := by
      simp only [Frame.seq]
      omega
    simp only [enqueue, hless, heq]
    split
    · rename_i hlt
      refine ⟨fun h => ?_, fun l' h => ?_⟩
      · obtain ⟨x, hx, hnum⟩ := hnone (Option.map_eq_none_iff.mp h)
        exact ⟨x, List.mem_cons_of_mem _ hx, hnum⟩
      · obtain ⟨k, hk, rfl⟩ := Option.map_eq_some_iff.mp h
        refine List.pairwise_cons.mpr ⟨fun x hx => ?_, hsome k hk⟩
        rcases List.mem_cons.mp ((enqueue_perm hk).mem_iff.mp hx) with rfl | hx
        · exact hlt
        · exact hg x hx
    split
    · rename_i hnum
      exact ⟨fun _ => ⟨g, List.mem_cons_self, hnum⟩, by simp⟩
    · refine ⟨by simp, fun l' h => ?_⟩
      cases h
      refine List.pairwise_cons.mpr ⟨List.forall_mem_cons.mpr ⟨by omega, fun x hx => ?_⟩, hl⟩
      have := hg x hx
      omega

theorem advance_spec (h : Asc l) (hclose : Close n l) : ∃ n',
    (advance (n % 0x1000) l).2 = n' % 0x1000 ∧ n ≤ n' ∧ (n' = n ∨ ∃ f ∈ l, n' = f.num + 1) ∧
    ∀ f ∈ l, f.num < n' ∨ n' < f.num ∧ (advance (n % 0x1000) l).1 := by
  induction l generalizing n with
  | nil => exact ⟨n, rfl, Nat.le_refl n, .inl rfl, by simp⟩
  | cons f l ih =>
    obtain ⟨hf, hl⟩ := List.pairwise_cons.mp h
    obtain ⟨h1, h2, -⟩ := hclose f List.mem_cons_self
    have hless : snLess (n % 0x1000) f.seq ↔ n < f.num := snLess_iff h1 (by omega)
    simp only [advance, hless]
    by_cases hgap : n < f.num
    · simp only [if_pos hgap]
      refine ⟨n, rfl, Nat.le_refl n, .inl rfl, List.forall_mem_cons.mpr ⟨.inr ⟨hgap, trivial⟩, fun g hg => .inr ?_⟩⟩
      exact ⟨Nat.lt_trans hgap (hf g hg), trivial⟩
    have hnext : (if n % 0x1000 = f.seq then (n % 0x1000 + 1) % 0x1000 else n % 0x1000) =
        max n (f.num + 1) % 0x1000 := by
      have hseq : f.seq = f.num % 0x1000 := rfl
      split <;> omega
    rw [if_neg hgap, hnext]
    obtain ⟨n', hsn, hle, hlast, hall⟩ := ih (n := max n (f.num + 1)) hl fun g hg => by
      have := hf g hg
      obtain ⟨h3, h4, h5⟩ := hclose g (List.mem_cons_of_mem _ hg)
      exact ⟨by omega, by omega, fun g' hg' => h5 g' (List.mem_cons_of_mem _ hg')⟩
    refine ⟨n', hsn, by omega, ?_, List.forall_mem_cons.mpr ⟨.inl (by omega), hall⟩⟩
    rcases hlast with hlast | ⟨g, hg, hlast⟩
    · by_cases heq : n = f.num
      · exact .inr ⟨f, List.mem_cons_self, by omega⟩
      · exact .inl (by omega)
    · exact .inr ⟨g, List.mem_cons_of_mem _ hg, hlast⟩

structure Settled (n : Nat) (l up : List Frame) (n' : Nat) (c : Ctrl) : Prop where
  sn : c.indSn = n' % 0x1000
  split : l = up ++ c.list
  le : n ≤ n'
  last : n' = n ∨ ∃ f ∈ l, n' = f.num + 1
  behind : ∀ f ∈ up, f.num < n'
  ahead : ∀ f ∈ c.list, n' < f.num
  more : c.list ≠ [] → (advance (n % 0x1000) l).1

theorem lt_of_mem_dropWhile {p : Frame → Bool} (h : Asc l) (hp : ∀ f ∈ l, p f ↔ f.num ≤ n) :
    ∀ f ∈ l.dropWhile p, n < f.num := by
  induction l with
  | nil => simp
  | cons f l ih =>
    obtain ⟨hf, hl⟩ := List.pairwise_cons.mp h
    obtain ⟨hpf, hpl⟩ := List.forall_mem_cons.mp hp
    rw [List.dropWhile_cons]
    split
    · exact ih hl hpl
    · rename_i hgt
      rw [hpf] at hgt
      refine List.forall_mem_cons.mpr ⟨by omega, fun g hg => ?_⟩
      have := hf g hg
      omega

theorem settled (h : Asc l) (hclose : Close n l) (hlist : c.list = l)
    (hsn : c.indSn = (advance (n % 0x1000) l).2) : ∃ n', Settled n l (rxframesInd c).1 n' (rxframesInd c).2 := by
  subst hlist
  obtain ⟨n', hsn', hle, hlast, hall⟩ := advance_spec h hclose
  rw [hsn'] at hsn
  have hless : ∀ f ∈ c.list, decide (¬ snLess c.indSn f.seq) ↔ f.num ≤ n' := by
    intro f hf
    obtain ⟨h1, h2, h3⟩ := hclose f hf
    have hn' : n' < f.num + 0x800 := by
      rcases hlast with hlast | ⟨g, hg, hlast⟩
      · omega
      · have := h3 g hg
        omega
    rw [decide_eq_true_eq, hsn, Frame.seq, snLess_iff hn' (by omega)]
    omega
  have hrest := lt_of_mem_dropWhile h hless
  have hsplit : c.list = (rxframesInd c).1 ++ (rxframesInd c).2.list := List.takeWhile_append_dropWhile.symm
  refine ⟨n', hsn, hsplit, hle, hlast, fun f hf => ?_, hrest, fun hne => ?_⟩
  · have hmem : f ∈ c.list := hsplit ▸ List.mem_append_left _ hf
    have := (hless f hmem).mp (List.all_eq_true.mp List.all_takeWhile f hf)
    rcases hall f hmem with h | h
    · exact h
    · omega
  · obtain ⟨f, hf⟩ := List.exists_mem_of_ne_nil _ hne
    have := hrest f hf
    rcases hall f (hsplit ▸ List.mem_append_right _ hf) with h | h
    · omega
    · exact h.2

/-- What came out and what waits, with `n` the next number and `top` behind the highest that came. -/
structure Fits (n top : Nat) (out : List Frame) (c : Ctrl) : Prop where
  sn : c.indSn = lowSn n
  le : n ≤ top
  size : top ≤ n + 64
  asc : Asc (out ++ c.list)
  behind : ∀ f ∈ out, f.num < n
  within : ∀ f ∈ c.list, n < f.num ∧ f.num < top
  waits : c.list ≠ [] → n ≠ 0 ∧ (c.timer ∨ c.work)

theorem Fits.stays (h : Fits n top out c) (hn : n ≠ 0) (hf : f.num < top) :
    Fits n (max top (f.num + 1)) out { c with indSn := n % 0x1000 } := by
  rw [Nat.max_eq_left hf]
  exact ⟨(if_neg hn).symm, h.le, h.size, h.asc, h.behind, h.within, h.waits⟩

theorem Settled.mem (h : Settled n l up n' c) (hf : f ∈ l) : f ∈ up ∧ f.num < n' ∨ f ∈ c.list ∧ n' < f.num := by
  rw [h.split] at hf
  exact (List.mem_append.mp hf).imp (fun hf => ⟨hf, h.behind f hf⟩) fun hf => ⟨hf, h.ahead f hf⟩

theorem Settled.fits (h : Settled n l up n' c) (hl : Asc (out ++ l)) (hout : ∀ f ∈ out, f.num < n) (hn : n ≠ 0)
    (hle : n ≤ top) (hsize : top ≤ n + 64) (htop : ∀ f ∈ l, f.num < top)
    (hmore : (advance (n % 0x1000) l).1 → c.timer) : Fits n' top (out ++ up) c := by
  have hn' := h.le
  refine ⟨h.sn.trans (if_neg (by omega)).symm, ?_, by omega, ?_, fun f hf => ?_, fun f hf => ⟨h.ahead f hf, ?_⟩,
    fun hne => ⟨by omega, .inl (hmore (h.more hne))⟩⟩
  · rcases h.last with h | ⟨f, hf, h⟩
    · omega
    · have := htop f hf
      omega
  · rwa [List.append_assoc, ← h.split]
  · rcases List.mem_append.mp hf with hf | hf
    · exact Nat.lt_of_lt_of_le (hout f hf) hn'
    · exact h.behind f hf
  · exact htop f (h.split ▸ List.mem_append_right _ hf)

structure Moves (n : Nat) (l : List Frame) (s : Rx) (n' : Nat) (s' : Rx) : Prop where
  le : n ≤ n'
  fits : Fits n' s'.top s'.out s'.ctrl
  past : s'.past = s.past
  out : ∀ f ∈ s.out, f ∈ s'.out
  kept : ∀ f ∈ l, f ∈ s'.out ∨ f ∈ s'.ctrl.list

theorem reorder_moves (hc : Fits n s.top s.out c) (hnear : n ≠ 0 → n ≤ f.num + 0x800 ∧ f.num < n + 0x800) :
    (reorder s c f).2.known ∧ (reorder s c f).2.ctrl.enable = c.enable ∧
      ∃ n', Moves n c.list s n' (reorder s c f).2 := by
  obtain ⟨hsn, hle, hsize, hasc, hbehind, hwithin, hwaits⟩ := id hc
  obtain ⟨hout, hlist, -⟩ := List.pairwise_append.mp hasc
  have hmem : ∀ g ∈ c.list, n ≠ 0 ∧ n < g.num ∧ g.num < s.top := fun g hg =>
    ⟨(hwaits (List.ne_nil_of_mem hg)).1, hwithin g hg⟩
  have hcheck := needCheck_spec hnear
  rw [← hsn] at hcheck
  rcases hcheck with ⟨hn, hlate, hcheck⟩ | ⟨sn, hcheck, hnext⟩
  · have hfits := hc.stays hn (f := f) (by omega)
    simp only [reorder, Frame.seq, hcheck, if_true]
    split <;> exact ⟨rfl, rfl, n, Nat.le_refl n, hfits, rfl, fun _ hf => hf, fun _ hf => .inr hf⟩
  obtain ⟨hnone, hsome⟩ := enqueue_spec (f := f) hlist fun g hg => by
    have := hmem g hg
    omega
  cases hl : enqueue f c.list with
  | none =>
    obtain ⟨g, hg, hnum⟩ := hnone hl
    have := hmem g hg
    have hfits := hc.stays this.1 (f := f) (by omega)
    simp only [reorder, Frame.seq, hcheck, hl, Bool.false_eq_true, if_false, show sn = n by omega]
    exact ⟨trivial, trivial, n, Nat.le_refl n, hfits, rfl, fun _ hf => hf, fun _ hf => .inr hf⟩
  | some l =>
    have hperm := enqueue_perm hl
    have hnew : ∀ g ∈ l, g.num = f.num ∨ n ≠ 0 ∧ n < g.num ∧ g.num < s.top := fun g hg =>
      (List.mem_cons.mp (hperm.mem_iff.mp hg)).imp (congrArg Frame.num) (hmem g)
    have hclose : Close sn l := fun g hg => by
      have := hnew g hg
      exact ⟨by omega, by omega, fun g' hg' => by have := hnew g' hg'; omega⟩
    have hboth : Asc (s.out ++ l) := List.pairwise_append.mpr ⟨hout, hsome l hl, fun g hg g' hg' => by
      have := hbehind g hg
      have := hnew g' hg'
      omega⟩
    obtain ⟨n', hset⟩ := settled (c := { c with
      list := l, indSn := (advance (sn % 0x1000) l).2, timer := (advance (sn % 0x1000) l).1 })
      (hsome l hl) hclose rfl rfl
    have hfits : Fits n' (max s.top (f.num + 1)) _ _ := hset.fits hboth
      (fun g hg => by have := hbehind g hg; omega) (by omega) (by omega) (by omega)
      (fun g hg => by have := hnew g hg; omega) id
    simp only [reorder, Frame.seq, hcheck, hl, Bool.false_eq_true, if_false]
    refine ⟨trivial, rfl, n', Nat.le_trans (by omega) hset.le, hfits, rfl, fun _ hf => List.mem_append_left _ hf,
      fun g hg => ?_⟩
    have hg' := hperm.mem_iff.mpr (List.mem_cons_of_mem _ hg)
    exact (hset.mem hg').imp (fun h => List.mem_append_right _ h.1) And.left

theorem next_work_nil (hl : s.ctrl.list = []) :
    (next s .work).2 = { s with ctrl := { s.ctrl with work := false } } := by
  simp [next, timeoutWorker, rxframesInd, hl]

theorem work_moves (h : Fits n s.top s.out s.ctrl) : ∃ n',
    Moves n s.ctrl.list s n' (next s .work).2 ∧ (s.ctrl.list ≠ [] → n + 2 ≤ n') := by
  obtain ⟨known, ⟨enable, indSn, list, timer, work⟩, top, out, past, came, late, lost⟩ := s
  obtain ⟨hsn, hle, hsize, hasc, hbehind, hwithin, hwaits⟩ := h
  cases list with
  | nil =>
    rw [next_work_nil rfl]
    exact ⟨n, ⟨Nat.le_refl n, ⟨hsn, hle, hsize, hasc, hbehind, hwithin, fun h => absurd rfl h⟩, rfl,
      fun _ hg => hg, fun _ hg => .inr hg⟩, fun h => absurd rfl h⟩
  | cons f l =>
    have hf := hwithin f List.mem_cons_self
    have hclose : Close f.num (f :: l) := fun g hg => by
      have := hwithin g hg
      exact ⟨by omega, by omega, fun g' hg' => by have := hwithin g' hg'; omega⟩
    obtain ⟨n', hset⟩ := settled (c := ⟨enable, (advance (f.num % 0x1000) (f :: l)).2, f :: l,
      timer || (advance (f.num % 0x1000) (f :: l)).1, false⟩) (List.pairwise_append.mp hasc).2.1 hclose rfl rfl
    have hfits := hset.fits hasc (fun g hg => Nat.lt_trans (hbehind g hg) hf.1) (by omega) (by omega) (by omega)
      (fun g hg => (hwithin g hg).2) fun hmore => (Bool.or_eq_true ..).mpr (.inr hmore)
    have hle' := hset.le
    refine ⟨n', ⟨by omega, hfits, rfl, fun _ hg => List.mem_append_left _ hg, fun g hg => ?_⟩, fun _ => ?_⟩
    · exact (hset.mem hg).imp (fun h => List.mem_append_right _ h.1) And.left
    · have := hset.mem List.mem_cons_self
      omega

inductive Ok (n : Nat) (s : Rx) : Prop
  | used (hk : s.known) (he : s.ctrl.enable) (h : Fits n s.top s.out s.ctrl)
  | unused (hs : ¬ s.known ∨ ¬ s.ctrl.enable) (hn : n = 0) (ht : s.top = 0) (ho : s.out = []) (hl : s.ctrl.list = [])

theorem Ok.fits (h : Ok n s) (hf : f ∈ s.ctrl.list) : Fits n s.top s.out s.ctrl := by
  cases h with
  | used _ _ h => exact h
  | unused _ _ _ _ hl => rw [hl] at hf; cases hf

theorem findCtrl_fits (h : Ok n s) :
    (findCtrl s).enable ∧ (findCtrl s).list = s.ctrl.list ∧ Fits n s.top s.out (findCtrl s) := by
  cases h with
  | used hk he h => simp [findCtrl, hk, he, h]
  | unused hs hn ht ho hl =>
    have hfits : ∀ c : Ctrl, c.indSn = 0xffff → c.list = [] → Fits n s.top s.out c := fun c hsn hl => by
      rw [hn, ht, ho]
      exact ⟨hsn, Nat.le_refl 0, Nat.zero_le _, by simp [hl], by simp, by simp [hl], fun hne => absurd hl hne⟩
    unfold findCtrl
    split
    · exact ⟨rfl, hl.symm, hfits _ rfl rfl⟩
    · rename_i hk
      rw [if_neg (hs.resolve_left hk)]
      exact ⟨rfl, rfl, hfits _ rfl hl⟩

/-- A frame has to be this near to the highest one for its 12 bits to tell where it belongs. -/
def Near (s : Rx) : Op → Prop
  | .frame a => s.top ≠ 0 → s.top ≤ a.frame.num + 0x800 ∧ a.frame.num < s.top + 0x7c0
  | _ => True

instance (s : Rx) (op : Op) : Decidable (Near s op) := by
  cases op <;> unfold Near <;> infer_instance

def Op.isWork : Op → Bool
  | .work => true
  | _ => false

def Rx.given (s : Rx) : List Frame := (s.out :: s.past).flatten

structure Inv (n : Nat) (s : Rx) : Prop where
  ok : Ok n s
  past : ∀ l ∈ s.past, Asc l

/-- What a call does to the frames that came out, and to those that wait. -/
structure Goes (n : Nat) (s : Rx) (op : Op) (n' : Nat) (s' : Rx) : Prop where
  inv : Inv n' s'
  given : ∀ f ∈ s.given, f ∈ s'.given
  list : op ≠ .deinit → ∀ f ∈ s.ctrl.list, f ∈ s'.given ∨ f ∈ s'.ctrl.list ∧ n + 2 * op.isWork.toNat ≤ n'

theorem Goes.same {op : Op} (h : Inv n s) (hw : op.isWork = false) : Goes n s op n s :=
  ⟨h, fun _ hf => hf, fun _ f hf => .inr ⟨hf, by simp [hw]⟩⟩

theorem Moves.goes {op : Op} (h : Moves n s.ctrl.list s n' s') (hpast : ∀ l ∈ s.past, Asc l) (hk : s'.known)
    (he : s'.ctrl.enable) (hw : s.ctrl.list ≠ [] → n + 2 * op.isWork.toNat ≤ n') : Goes n s op n' s' := by
  refine ⟨⟨.used hk he h.fits, h.past ▸ hpast⟩, fun f hf => ?_, fun _ f hf => ?_⟩
  · rw [Rx.given, h.past]
    exact List.mem_append.mpr ((List.mem_append.mp hf).imp_left (h.out f))
  · rcases h.kept f hf with hf' | hf'
    · exact .inl (List.mem_append_left _ hf')
    · exact .inr ⟨hf', hw (List.ne_nil_of_mem hf)⟩

theorem next_goes (h : Inv n s) {op : Op} (hop : Near s op) : ∃ n', Goes n s op n' (next s op).2 := by
  obtain ⟨hok, hpast⟩ := id h
  cases op with
  | frame a =>
    simp only [next, processUnit]
    split
    · exact ⟨n, .same h rfl⟩
    split
    · exact ⟨n, .same h rfl⟩
    split
    · exact ⟨n, .same h rfl⟩
    obtain ⟨he, hl, hfits⟩ := findCtrl_fits hok
    have hle := hfits.le
    have hsize := hfits.size
    obtain ⟨hk', he', n', hmoves⟩ := reorder_moves (f := a.frame) hfits fun hn => by have := hop (by omega); omega
    rw [hl] at hmoves
    exact ⟨n', hmoves.goes hpast hk' (he'.trans he) fun _ => hmoves.le⟩
  | timer =>
    refine ⟨n, ⟨?_, hpast⟩, fun _ hf => hf, fun _ _ hf => .inr ⟨hf, Nat.le_refl n⟩⟩
    cases hok with
    | used hk he h =>
      exact .used hk he ⟨h.sn, h.le, h.size, h.asc, h.behind, h.within, fun hl => ⟨(h.waits hl).1, .inr rfl⟩⟩
    | unused hs hn ht ho hl => exact .unused hs hn ht ho hl
  | work =>
    cases hok with
    | used hk he h =>
      obtain ⟨n', hmoves, hgo⟩ := work_moves h
      have he' : (next s .work).2.ctrl.enable = s.ctrl.enable := by
        simp only [next, timeoutWorker]
        split <;> rfl
      exact ⟨n', hmoves.goes hpast hk (he'.trans he) hgo⟩
    | unused hs hn ht ho hl =>
      rw [next_work_nil hl]
      exact ⟨n, ⟨.unused hs hn ht ho hl, hpast⟩, fun _ hf => hf, fun _ f hf => by rw [hl] at hf; cases hf⟩
  | flush =>
    simp only [next, flushTid]
    split
    · exact ⟨n, .same h rfl⟩
    rename_i hs
    cases hok with
    | unused hs' => exact absurd hs' hs
    | used hk he hfits =>
      refine ⟨0, ⟨.unused (.inr (by simp)) rfl rfl rfl rfl, List.forall_mem_cons.mpr ⟨hfits.asc, hpast⟩⟩,
        fun f hf => ?_, fun _ f hf => .inl (by simp [Rx.given, hf])⟩
      simp only [Rx.given, List.flatten_cons, List.nil_append, List.mem_append] at hf ⊢
      exact hf.imp_left .inl
  | deinit =>
    simp only [next, deinitSta]
    split
    · exact ⟨n, .same h rfl⟩
    refine ⟨0, ⟨.unused (.inl (by simp)) rfl rfl rfl rfl, List.forall_mem_cons.mpr ⟨?_, hpast⟩⟩, fun _ hf => hf,
      fun hd => absurd rfl hd⟩
    cases hok with
    | used _ _ hfits => exact (List.pairwise_append.mp hfits.asc).1
    | unused _ _ _ ho => exact ho ▸ .nil

theorem inv_of_run {ops : List Op} (hr : Run step Near start ops s) : ∃ n, Inv n s := by
  refine hr.inv (I := fun s => ∃ n, Inv n s) ?_ ⟨0, .unused (.inl (by simp [start])) rfl rfl rfl rfl, by simp [start]⟩
  rintro s op up s' ⟨n, h⟩ hop hs
  cases hs
  obtain ⟨n', hgoes⟩ := next_goes h hop
  exact ⟨n', hgoes.inv⟩

/-- Whatever the order of frames, timeouts, flushes and removals of the station: what came out of the list in one use
of the control, and then what waits, is in the order it was sent. -/
theorem frames_in_order {ops : List Op} {s : Rx} (hr : Run step Near start ops s) :
    (∀ l ∈ s.past, l.Pairwise (·.num < ·.num)) ∧ (s.out ++ s.ctrl.list).Pairwise (·.num < ·.num) := by
  obtain ⟨n, hok, hpast⟩ := inv_of_run hr
  refine ⟨hpast, ?_⟩
  cases hok with
  | used _ _ h => exact h.asc
  | unused _ _ _ ho hl => simp [ho, hl]

def whole (num : Nat) : Op := .frame ⟨⟨num, num, false⟩, true, true, false, true, true⟩

theorem frames_in_order_wrapped :
    ∃ s, Run step Near start [whole 4094, whole 4097, whole 4096, whole 4095, whole 4099, .flush] s ∧
      s.past = [[4094, 4095, 4096, 4097, 4099].map fun n => ⟨n, n, false⟩] ∧
      ∀ l ∈ s.past, l.Pairwise (·.num < ·.num) :=
  Run.exists_of_exec_imp (P := fun s => s.past = [[4094, 4095, 4096, 4097, 4099].map fun n => ⟨n, n, false⟩])
    (by decide +kernel) fun _ hr hpast => ⟨hpast, (frames_in_order hr).1⟩

theorem given_of_work {ops : List Op} (hr : Run step Near s ops s') (h : Inv n s) {k : Nat}
    (hf : f ∈ s.given ∨ f ∈ s.ctrl.list ∧ f.num < n + 2 * k) (hops : Op.deinit ∉ ops)
    (hwork : k ≤ ops.countP Op.isWork) : f ∈ s'.given := by
  induction hr generalizing n k with
  | nil =>
    rcases hf with hf | ⟨hf, hlt⟩
    · exact hf
    · have := ((h.ok.fits hf).within f hf).1
      simp only [List.countP_nil] at hwork
      omega
  | @cons s _ _ op ops _ hop hs _ ih =>
    cases hs
    obtain ⟨n', hgoes⟩ := next_goes h hop
    simp only [List.mem_cons, not_or] at hops
    rw [List.countP_cons] at hwork
    refine ih (k := k - op.isWork.toNat) hgoes.inv ?_ hops.2 ?_
    · rcases hf with hf | ⟨hf, hlt⟩
      · exact .inl (hgoes.given f hf)
      · exact (hgoes.list (Ne.symm hops.1) f hf).imp_right fun hf' => ⟨hf'.1, by omega⟩
    · cases hw : op.isWork <;> simp [hw] at hwork ⊢ <;> omega

/-- As long as a frame waits the timer or its work is pending, and with 32 runs of the work it comes out, whatever
comes in between, if the station stays. -/
theorem held_frames_leave {before : List Op} {s : Rx} {f : Frame} (hr : Run step Near start before s)
    (hf : f ∈ s.ctrl.list) : (s.ctrl.timer ∨ s.ctrl.work) ∧ ∀ ops s', Run step Near s ops s' → Op.deinit ∉ ops →
      32 ≤ ops.countP Op.isWork → f ∈ s'.given := by
  obtain ⟨n, h⟩ := inv_of_run hr
  have hfits := h.ok.fits hf
  have hsize := hfits.size
  have hlt := (hfits.within f hf).2
  refine ⟨(hfits.waits (List.ne_nil_of_mem hf)).2, fun ops s' hr' hops hwork => ?_⟩
  exact given_of_work hr' h (.inr ⟨hf, by omega⟩) hops hwork

theorem held_frames_leave_one : ∃ s s', Run step Near start [whole 5, whole 7] s ∧ ⟨7, 7, false⟩ ∈ s.ctrl.list ∧
    (s.ctrl.timer ∨ s.ctrl.work) ∧ Run step Near s (List.replicate 32 .work) s' ∧ ⟨7, 7, false⟩ ∈ s'.given := by
  obtain ⟨s, hr, hf, hs⟩ : ∃ s, Run step Near start [whole 5, whole 7] s ∧ ⟨7, 7, false⟩ ∈ s.ctrl.list ∧
      (Run.exec step Near s (List.replicate 32 .work)).isSome := Run.exists_of_exec (by decide +kernel)
  obtain ⟨s', hs'⟩ := Option.isSome_iff_exists.mp hs
  have hr' := Run.of_exec hs'
  have hleave := held_frames_leave hr hf
  exact ⟨s, s', hr, hf, hleave.1, hr', hleave.2 _ s' hr' (by simp) (by decide)⟩

structure Accounted (s : Rx) : Prop where
  unknown : ¬ s.known → s.ctrl.list = []
  count : ∀ f, s.came.count f = s.given.count f + s.ctrl.list.count f + s.late.count f + s.lost.count f

theorem count_rxframesInd (f : Frame) (c : Ctrl) :
    c.list.count f = (rxframesInd c).1.count f + (rxframesInd c).2.list.count f := by
  rw [← List.count_append, rxframesInd, List.takeWhile_append_dropWhile]

theorem count_timeoutWorker (f : Frame) (c : Ctrl) :
    c.list.count f = (timeoutWorker c).1.count f + (timeoutWorker c).2.list.count f := by
  unfold timeoutWorker
  dsimp only
  split <;> rw [← count_rxframesInd]

theorem Accounted.reorder (h : Accounted s) (hc : c.list = s.ctrl.list) : Accounted (reorder s c f).2 := by
  have hcount := hc ▸ h.count
  unfold Wifi.reorder
  dsimp only
  split <;> split <;> refine ⟨fun hk => absurd rfl hk, fun g => ?_⟩ <;> have hg := hcount g <;>
    simp only [Rx.given, List.flatten_cons, List.count_append, List.count_cons] at hg ⊢
  · omega
  · omega
  · omega
  · rename_i l hl
    have hperm := (enqueue_perm hl).count_eq g
    have hsplit := count_rxframesInd g ⟨c.enable, (advance (needCheck c.indSn f.seq).2 l).2, l,
      (advance (needCheck c.indSn f.seq).2 l).1, c.work⟩
    simp only [List.count_cons] at hperm hsplit
    omega

theorem Accounted.next (h : Accounted s) (op : Op) : Accounted (next s op).2 := by
  cases op with
  | frame a =>
    simp only [Wifi.next, processUnit]
    split
    · exact h
    split
    · exact h
    split
    · exact h
    refine h.reorder ?_
    unfold findCtrl
    split
    · rename_i hk
      exact (h.unknown hk).symm
    · split <;> rfl
  | timer => exact ⟨h.unknown, h.count⟩
  | work =>
    refine ⟨fun hk => by rw [next_work_nil (h.unknown hk)]; exact h.unknown hk, fun f => ?_⟩
    have := h.count f
    have := count_timeoutWorker f s.ctrl
    simp only [Wifi.next, Rx.given, List.flatten_cons, List.count_append] at *
    omega
  | flush | deinit =>
    simp only [Wifi.next, flushTid, deinitSta]
    split
    · exact h
    refine ⟨fun _ => rfl, fun f => ?_⟩
    have := h.count f
    simp only [Rx.given, List.flatten_cons, List.count_append, List.count_nil] at this ⊢
    omega

/-- Whatever the numbers and the order of the calls: each frame that got to the reordering came out of the list once,
waits in it, was handed up at once or was dropped, and only one of these. -/
theorem frames_accounted {ok : Rx → Op → Prop} {ops : List Op} {s : Rx} (hr : Run step ok start ops s) :
    s.came.Perm (s.given ++ s.ctrl.list ++ s.late ++ s.lost) := by
  have h : Accounted s := by
    refine hr.inv (fun s op up s' h _ hs => ?_) ⟨fun _ => rfl, fun _ => rfl⟩
    cases hs
    exact h.next op
  exact List.perm_iff_count.mpr fun f => by simp only [List.count_append, h.count f]

theorem frames_accounted_again :
    ∃ s, Run step (fun _ _ => True) start [whole 5, whole 7, whole 7, whole 4, .work] s ∧
      (s.lost = [⟨7, 7, false⟩] ∧ s.late = [⟨4, 4, false⟩]) ∧
      s.came.Perm (s.given ++ s.ctrl.list ++ s.late ++ s.lost) :=
  Run.exists_of_exec_imp (P := fun s => s.lost = [⟨7, 7, false⟩] ∧ s.late = [⟨4, 4, false⟩]) (by decide +kernel)
    fun _ hr hs => ⟨hs, frames_accounted hr⟩

end H713.Wifi
