import H713.Smm.Free

/-!
# Smm.Run

Runs of the shared memory manager from `Trid_SMM_Init` on zeroed memory: clients allocate, free blocks they own, and
write to them.
-/

namespace H713.Smm

inductive Op where
  | malloc (size : Nat)
  | free (a : Nat)
  | write (a x : Nat)

structure Clients where
  heaps : Heaps
  live : List Block

section

variable (s : Shm) (fuel : Nat)

def step (st : Clients) : Op → Out Clients Nat
  | .malloc size =>
    match tridSMMMalloc s fuel st.heaps size with
    | .bug => .bug
    | .spin => .spin
    | .ret a h => .ret a ⟨h, if a = 0 then st.live else ⟨a, size⟩ :: st.live⟩
  | .free a =>
    match tridSMMFree s fuel st.heaps a with
    | .bug => .bug
    | .spin => .spin
    | .ret _ h => .ret 0 ⟨h, st.live.filter fun b => b.addr ≠ a⟩
  | .write a x => .ret 0 { st with heaps.mem := Smm.st st.heaps.mem (s.toVir a) x }

def start (base size : Nat) : Clients := ⟨tridSMMInit s ⟨⟨fun _ => 0⟩, fun _ => ⟨0, 0⟩⟩ base size, []⟩

end

/-- Sizes are `u32`; a client frees and writes blocks that it has. -/
def LiveCall (st : Clients) : Op → Prop
  | .malloc size => size < 2 ^ 32
  | .free a => ∃ b ∈ st.live, b.addr = a
  | .write a _ => a % 4 = 0 ∧ ∃ b ∈ st.live, b.addr ≤ a ∧ a < b.addr + b.size

instance (st : Clients) (op : Op) : Decidable (LiveCall st op) := by
  cases op <;> unfold LiveCall <;> infer_instance

namespace Place

open Dll

variable {s : Shm} {h : Place s} {v : View} {m : Mem} {g : Ghost}

/-- A call of a client after which the heap is still in order. -/
def Safe (h : Place s) (st : Clients) (op : Op) : Prop :=
  LiveCall st op ∧
    match op with
    | .malloc size => h.MallocOk (h.view st.heaps.mem) st.live size
    | .free a => h.FreeOk (h.view st.heaps.mem) a
    | .write _ _ => True

instance (st : Clients) (op : Op) : Decidable (h.Safe st op) := by
  cases op <;> unfold Safe <;> infer_instance

/-- A call after which the books are right too. -/
def Tidies (h : Place s) (st : Clients) : Op → Prop
  | .free a => h.FreeTidy (h.view st.heaps.mem) a
  | _ => True

instance (st : Clients) (op : Op) : Decidable (h.Tidies st op) := by
  cases op <;> unfold Tidies <;> infer_instance

structure Inv (h : Place s) (st : Clients) : Prop where
  slot : st.heaps.slot 0 = ⟨h.phy, h.size⟩
  heap : ∃ g, h.Core (h.view st.heaps.mem) g ∧ h.LiveOk g st.live

theorem view_initHeap : h.view (initHeap s h.vir ⟨fun _ => 0⟩ h.size) =
    ((((((View.mk (fun _ => 0) (fun _ _ => 0) fun _ => 0).setHw 0 (h.phy + 4096)).setHw 1
      (h.phy + 4096)).setHw 2 h.pageCount).setHw 45 (4096 * h.firstPage)).setHw 46 h.size).setHw 47 h.phy := by
  have hv := h.vir_firstPage
  have hp := h.phy_firstPage
  have h2 := h.two_le_firstPage
  have hpc := h.pageCount_lt
  have hle := h.size_le
  have hzero : ∀ P : Nat → Prop, ∀ _ : DecidablePred P, h.view ⟨fun a => if P a then 0 else 0⟩ =
      View.mk (fun _ => 0) (fun _ _ => 0) fun _ => 0 := by
    intro P _
    simp only [view, ite_self]
  have hcount : (h.size + 4095) % 2 ^ 32 / 4096 = h.pageCount := by
    simp only [pageCount]
    omega
  have hbrk : (12 * h.pageCount + 4095) % 2 ^ 32 / 4096 * 4096 + 4096 = 4096 * h.firstPage := by
    rw [Nat.mod_eq_of_lt (by omega)]
    simp only [firstPage]
    omega
  have hphy : s.toPhy h.vir = h.phy := h.toPhy_add (o := 0) (by omega)
  simp only [initHeap, hcount, hbrk, hphy, h.toPhy_add (show h.phy + 4096 < 2 ^ 32 by omega)]
  simp (disch := omega) only [h.view_setWord, hzero, Nat.mod_eq_of_lt]

def fresh (h : Place s) : Ghost := ⟨h.firstPage, fun _ => .none, [], fun _ => []⟩

variable {base a fuel : Nat} {heaps : Heaps}

theorem view_start (hbase : (base + 4095) % 2 ^ 32 / 4096 * 4096 = h.vir) : h.view (start s base h.size).heaps.mem =
      ((((((View.mk (fun _ => 0) (fun _ _ => 0) fun _ => 0).setHw 0 (h.phy + 4096)).setHw 1
        (h.phy + 4096)).setHw 2 h.pageCount).setHw 45 (4096 * h.firstPage)).setHw 46 h.size).setHw 47 h.phy := by
  simp only [start, tridSMMInit, hbase]
  exact view_initHeap

theorem core_start (hbase : (base + 4095) % 2 ^ 32 / 4096 * 4096 = h.vir) :
    h.Core (h.view (start s base h.size).heaps.mem) h.fresh := by
  rw [view_start hbase]
  exact {
    base0 := by simp, base1 := by simp, count := by simp, size := by simp, phy := by simp, brk := by simp [fresh],
    top := .inl ⟨by simp, rfl⟩
    stack := fun c h4 h11 => by
      simp only [View.hw_setHw]
      rw [if_neg (by omega), if_neg (by omega), if_neg (by omega), if_neg (by omega), if_neg (by omega),
        if_neg (by omega)]
      rfl
    block := fun c b hb => by simp [fresh] at hb
    block_nodup := fun c => List.nodup_nil
    spans := ⟨fun p hp => absurd rfl hp, fun p q hp => absurd rfl hp⟩
    entry := fun p => trivial
    sentinel := rfl
    ring := Ring.empty rfl rfl
    mem_runs := fun p => by simp [fresh]
    hint := by simp }

theorem liveOk_start (base : Nat) : h.LiveOk h.fresh (start s base h.size).live :=
  ⟨fun b hb => by simp [start] at hb, List.nodup_nil, fun p n hp => by cases hp⟩

theorem inv_start (hbase : (base + 4095) % 2 ^ 32 / 4096 * 4096 = h.vir) : h.Inv (start s base h.size) := by
  have hphy : s.toPhy h.vir = h.phy := h.toPhy_add (o := 0) (by have := h.phy_firstPage; omega)
  exact ⟨by simp only [start, tridSMMInit, hbase, hphy, Function.update_self], h.fresh, core_start hbase,
    liveOk_start base⟩

theorem Core.live_word (hc : h.Core v g) {b : Block} (hb : h.Holds g b) (ha : a % 4 = 0) (hge : b.addr ≤ a)
    (hlt : a < b.addr + b.size) : h.IsData a ∧ ∀ c b', b' ∈ g.blocks c → a ≠ b' ∧ a ≠ b' + 4 := by
  have hpa := h.phy_aligned
  cases hb with
  | large p n htag haddr hbig hsize =>
    have hsome : g.tag p ≠ .none := by rw [htag]; simp
    have hfirst := (hc.spans.range p hsome).1
    have hle := hc.page_le hsome
    rw [htag] at hle
    simp only [page, Tag.len] at haddr hle
    refine ⟨⟨by omega, by omega, ha⟩, fun c b' hb' => ?_⟩
    obtain ⟨q, hf⟩ := hc.blockFacts (hc.block c b' hb').2
    have hqge := hf.ge
    have hqfits := hf.fits
    have hwide := hf.wide
    have hqp : q ≠ p := by
      rintro rfl
      have := htag.symm.trans hf.tag
      cases this
    simp only [page] at hqge hqfits
    rcases Nat.lt_or_gt_of_ne hqp with hqlt | hqgt
    · omega
    · have hap := hc.spans.apart p q hsome (by rw [hf.tag]; simp) hqgt
      rw [htag] at hap
      simp only [Tag.len] at hap
      omega
  | small d hblock hsize hlive =>
    obtain ⟨p, hf⟩ := hc.blockFacts hblock
    have hsome : g.tag p ≠ .none := by rw [hf.tag]; simp
    have hfirst := (hc.spans.range p hsome).1
    have hle := hc.page_le hsome
    have hge' := hf.ge
    have hfits := hf.fits
    have hal := hf.aligned
    obtain ⟨k, hk⟩ := sixteen_dvd hf.four_le
    rw [hf.tag] at hle
    simp only [page, Tag.len] at hge' hfits hle
    refine ⟨⟨by omega, by omega, ha⟩, fun c b' hb' => ?_⟩
    have hat := (hc.block c b' hb').2
    obtain ⟨q, hf'⟩ := hc.blockFacts hat
    have hwide := hf'.wide
    have hne : b.addr ≠ b' := by
      rintro heq
      rw [← heq] at hat hb'
      rw [hc.class_unique hat hblock] at hb'
      exact hlive hb'
    have := hc.block_apart hblock hat hne
    omega

theorem malloc_eq (hslot : heaps.slot 0 = ⟨h.phy, h.size⟩) (fuel size : Nat) :
    tridSMMMalloc s fuel heaps size = (shmalloc s h.vir fuel heaps.mem size).bind fun r m =>
      .ret (s.smmVir2phy r) { heaps with mem := m } := by
  have hpos := h.phy_pos
  simp only [tridSMMMalloc, smmMalloc, show effectiveSlot 0 0 = some 0 from rfl, hslot, h.mapped]
  rw [if_neg hpos.ne', if_neg (by simp)]
  cases shmalloc s h.vir fuel heaps.mem size <;> rfl

theorem malloc_ret {heaps' : Heaps} {size : Nat} (hslot : heaps.slot 0 = ⟨h.phy, h.size⟩)
    (hm : tridSMMMalloc s fuel heaps size = .ret a heaps') :
    ∃ r m', shmalloc s h.vir fuel heaps.mem size = .ret r m' ∧ a = s.smmVir2phy r ∧
      heaps' = { heaps with mem := m' } := by
  rw [malloc_eq hslot] at hm
  obtain ⟨r, m', hr, hret⟩ := Out.bind_eq_ret hm
  cases hret
  exact ⟨r, m', hr, rfl, rfl⟩

theorem free_eq (hslot : heaps.slot 0 = ⟨h.phy, h.size⟩) (ha : h.IsData a) (fuel : Nat) :
    tridSMMFree s fuel heaps a = (shfree s h.vir fuel heaps.mem (s.toVir a)).bind fun _ m =>
      .ret () { heaps with mem := m } := by
  have hpos := h.phy_pos
  have hpe := h.phy_end
  obtain ⟨h1, h2, _⟩ := ha
  have howner : ownerSlot heaps a = some 0 := by
    simp only [ownerSlot, hslot]
    rw [Nat.mod_eq_of_lt hpe, if_pos (by omega)]
  simp only [tridSMMFree, howner, hslot, h.mapped]
  rw [if_neg (by omega), if_neg hpos.ne']
  cases shfree s h.vir fuel heaps.mem (s.toVir a) <;> rfl

theorem free_ret {heaps' : Heaps} {u : Unit} (hslot : heaps.slot 0 = ⟨h.phy, h.size⟩) (ha : h.IsData a)
    (hm : tridSMMFree s fuel heaps a = .ret u heaps') :
    ∃ m', shfree s h.vir fuel heaps.mem (s.toVir a) = .ret u m' ∧ heaps' = { heaps with mem := m' } := by
  rw [free_eq hslot ha] at hm
  obtain ⟨_, m', hr, hret⟩ := Out.bind_eq_ret hm
  obtain ⟨_, rfl⟩ := Out.ret.inj hret
  exact ⟨m', hr, rfl⟩

theorem Core.step_spec {r : Nat} {st st' : Clients} {op : Op} (hslot : st.heaps.slot 0 = ⟨h.phy, h.size⟩)
    (hc : h.Core (h.view st.heaps.mem) g) (hl : h.LiveOk g st.live) (hsafe : h.Safe st op)
    (hs : Smm.step s fuel st op = .ret r st') :
    st'.heaps.slot 0 = ⟨h.phy, h.size⟩ ∧ ∃ g', h.Core (h.view st'.heaps.mem) g' ∧ h.LiveOk g' st'.live ∧
      (h.Tidies st op → h.Accounts (h.view st.heaps.mem) g st.live →
        h.Accounts (h.view st'.heaps.mem) g' st'.live) := by
  obtain ⟨hcall, hok⟩ := hsafe
  cases op with
  | malloc size =>
    simp only [Smm.step] at hs
    split at hs
    · cases hs
    · cases hs
    · rename_i a heaps hm
      obtain ⟨_, rfl⟩ := Out.ret.inj hs
      obtain ⟨r, m', hr, rfl, rfl⟩ := malloc_ret hslot hm
      rcases hc.shmalloc_spec hl hok hr with ⟨rfl, rfl⟩ | ⟨b, g', hdata, rfl, hcore, hgave, hcharged⟩
      · exact ⟨hslot, g, hc, hl, fun _ ha => ha⟩
      · have hb : b ≠ 0 := by
          have := hdata.1
          have := h.phy_pos
          omega
        rw [h.smmVir2phy_toVir hdata, if_neg hb]
        exact ⟨hslot, g', hcore, hl.gave hgave, fun _ ha => ha.charged hl hcharged⟩
  | free a =>
    obtain ⟨b, hb, rfl⟩ := hcall
    obtain ⟨_, _, _, hdata, _⟩ := hc.holds_page (hl.holds b hb)
    simp only [Smm.step] at hs
    split at hs
    · cases hs
    · cases hs
    · rename_i u heaps hm
      obtain ⟨_, rfl⟩ := Out.ret.inj hs
      obtain ⟨m', hr, rfl⟩ := free_ret hslot hdata hm
      obtain ⟨g', hcore, hrel, hrefund⟩ := hc.shfree_spec (hl.holds b hb) hok hr
      exact ⟨hslot, g', hcore, hl.released hrel, fun htidy ha => ha.refunded hl hb (hrefund htidy)⟩
  | write a x =>
    obtain ⟨_, rfl⟩ := Out.ret.inj hs
    obtain ⟨ha, b, hb, hge, hlt⟩ := hcall
    obtain ⟨hdata, hused⟩ := hc.live_word (hl.holds b hb) ha hge hlt
    simp only
    rw [← st_mod, h.view_st_dat _ hdata (Nat.mod_lt _ (by omega))]
    exact ⟨hslot, g, hc.setDat_used _ hused, hl, fun _ ha => ⟨ha.counts.congr fun _ _ _ => rfl, ha.ordered⟩⟩

theorem Inv.step {r : Nat} {st st' : Clients} {op : Op} (hi : h.Inv st) (hsafe : h.Safe st op)
    (hs : Smm.step s fuel st op = .ret r st') : h.Inv st' := by
  obtain ⟨hslot, g, hc, hl⟩ := hi
  obtain ⟨hslot', g', hc', hl', _⟩ := hc.step_spec hslot hl hsafe hs
  exact ⟨hslot', g', hc', hl'⟩

/-- In every run whose calls are all safe the live blocks keep their room, stay in the data area and do not overlap.
-/
theorem live_blocks_sound {base fuel : Nat} {ops : List Op} {st : Clients}
    (hbase : (base + 4095) % 2 ^ 32 / 4096 * 4096 = h.vir)
    (hrun : Run (Smm.step s fuel) h.Safe (start s base h.size) ops st) : h.Sound (h.view st.heaps.mem) st.live := by
  obtain ⟨_, g, hc, hl⟩ := hrun.inv (fun _ _ _ _ hi hsafe hs => Inv.step hi hsafe hs) (inv_start hbase)
  exact sound_of_inv hc hl

end Place

def lowMemory : Shm := ⟨0, 0⟩

def lowHeap : Place lowMemory where
  vir := 4096
  phy := 4096
  size := 131072
  mapped := rfl
  vir_aligned := rfl
  phy_aligned := rfl
  phy_pos := by decide
  size_pos := by decide
  size_le := by decide
  vir_end := by decide
  phy_end := by decide
  vir_data := by decide
  phy_data := by decide

theorem live_blocks_sound_lowHeap : ∃ st, Run (step lowMemory 100) lowHeap.Safe (start lowMemory 4096 131072)
        [.malloc 9000, .malloc 100, .malloc 100, .write 24576 7, .free 24576, .malloc 70, .free 12288,
          .malloc 5000] st ∧ lowHeap.Sound (lowHeap.view st.heaps.mem) st.live := by
  refine Run.exists_of_exec_imp (P := fun _ => True) (by decide +kernel) ?_
  intro st hrun _
  exact Place.live_blocks_sound (h := lowHeap) (by decide) hrun

theorem same_block_twice : ∃ st, Run (step lowMemory 100) LiveCall (start lowMemory 4096 131072)
        [.malloc 32768, .free 12288, .malloc 32768, .malloc 32768] st ∧
      ¬ lowHeap.Sound (lowHeap.view st.heaps.mem) st.live := by
  refine Run.exists_of_exec_imp (P := fun st => (st.live.map fun b =>
    (b.addr, lowHeap.blockBytes (lowHeap.view st.heaps.mem) b.addr)) = [(12288, 32768), (12288, 32768)])
    (by decide +kernel) ?_
  intro st _ hlive hsound
  have hdisj : (st.live.map fun b => (b.addr, lowHeap.blockBytes (lowHeap.view st.heaps.mem) b.addr)).Pairwise
      fun x y => x.1 + x.2 ≤ y.1 ∨ y.1 + y.2 ≤ x.1 := List.pairwise_map.mpr hsound.disjoint
  rw [hlive] at hdisj
  simp at hdisj

end H713.Smm
