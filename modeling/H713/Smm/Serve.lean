import H713.Smm.Stats

/-!
# Smm.Serve

When `Trid_SMM_Malloc` hands out a block. Above 1024 bytes the class is 12, whose list head is `heap[41]`, the
number of live blocks.
-/

namespace H713.Smm

open Dll

/-- `Trid_SMM_Malloc` hands out a block. -/
def Succeeds (s : Shm) (fuel : Nat) (heaps : Heaps) (size : Nat) : Prop :=
  ∃ a, (tridSMMMalloc s fuel heaps size).value? = some a ∧ a ≠ 0

instance (s : Shm) (fuel : Nat) (heaps : Heaps) (size : Nat) : Decidable (Succeeds s fuel heaps size) :=
  match h : (tridSMMMalloc s fuel heaps size).value? with
  | none => isFalse fun ⟨_, ha, _⟩ => nomatch h.symm.trans ha
  | some a =>
    if ha : a = 0 then isFalse fun ⟨_, hb, hne⟩ => hne ((Option.some.inj (hb.symm.trans h)).trans ha)
    else isTrue ⟨a, h, ha⟩

namespace Place

variable {s : Shm} {h : Place s} {v : View} {m : Mem} {g : Ghost}

variable {fuel size b : Nat}

theorem succeeds_iff {heaps : Heaps} (hslot : heaps.slot 0 = ⟨h.phy, h.size⟩) : Succeeds s fuel heaps size ↔
      ∃ r m', shmalloc s h.vir fuel heaps.mem size = .ret r m' ∧ s.smmVir2phy r ≠ 0 := by
  rw [Succeeds, malloc_eq hslot]
  cases shmalloc s h.vir fuel heaps.mem size with
  | ret r m' | bug | spin => simp [Out.bind, Out.value?]

theorem smmVir2phy_ne {r : Nat} (hr : h.vir < r) (hend : h.phy + (r - h.vir) < 2 ^ 32) : s.smmVir2phy r ≠ 0 := by
  have hpos := h.phy_pos
  obtain ⟨o, rfl⟩ := Nat.exists_eq_add_of_lt hr
  rw [Shm.smmVir2phy, if_neg (by omega), Nat.add_assoc, h.toPhy_add (by omega)]
  omega

theorem Core.findRun_around (hc : h.Core (h.view m) g) {needed start : Nat} : ∀ {fuel cur : Nat},
    cur ∈ 0 :: g.runs → findRun m (h.vir + 4096) needed start fuel cur = some none →
    ∃ k, (fun p => (h.view m).pte p 1)^[k + 1] cur = start ∧
      ∀ i ≤ k, (h.view m).pte ((fun p => (h.view m).pte p 1)^[i] cur) 0 < needed := by
  intro fuel
  induction fuel with
  | zero =>
    intro cur _ hf
    cases hf
  | succ f ih =>
    intro cur hcur hf
    have hlt := hc.run_lt hcur
    simp only [findRun, h.ld_pte m hlt (show 0 < 3 by omega), h.ld_pte m hlt (show 1 < 3 by omega)] at hf
    split at hf
    · cases hf
    · rename_i hsmall
      split at hf
      · obtain ⟨k, hend, hall⟩ := ih (hc.ring.next_mem hcur) hf
        refine ⟨k + 1, hend, fun i hi => ?_⟩
        cases i with
        | zero => exact Nat.lt_of_not_le hsmall
        | succ i => exact hall i (by omega)
      · rename_i hend
        refine ⟨0, (not_not.mp hend).symm, fun i hi => ?_⟩
        obtain rfl : i = 0 := by omega
        exact Nat.lt_of_not_le hsmall

theorem Core.findRun_none (hc : h.Core (h.view m) g) {needed : Nat}
    (hf : findRun m (h.vir + 4096) needed ((h.view m).hw 3) fuel ((h.view m).hw 3) = some none) {p n : Nat}
    (hp : g.tag p = .free n) : n < needed := by
  obtain ⟨k, hend, hall⟩ := hc.findRun_around hc.hint hf
  have hmem := List.mem_cons_of_mem 0 ((hc.mem_runs p).mpr ⟨n, hp⟩)
  obtain ⟨i, hi, rfl⟩ := hc.ring.iterate_cover hc.hint hmem hend
  have hlt := hall i hi
  rwa [hc.free hp] at hlt

theorem Header.growHeap_serves {top : Nat} (hh : h.Header (h.view m) top) {n : Nat} (hn : 0 < n)
    (hroom : 4096 * (top + n) ≤ h.size) :
    ∃ m', growHeap s h.vir m (h.vir + 4096) n = .ret (h.vir + 4096 * top) m' := by
  have hle := h.size_le
  have h2 := hh.top_lt.2.2
  have hmul : n * 4096 % 2 ^ 32 = 4096 * n := by omega
  simp only [growHeap, hmul, hh.morecore_eq hn (by omega), if_pos hroom]
  rw [if_neg (by omega)]
  exact ⟨_, rfl⟩

def HasPages (h : Place s) (g : Ghost) (n : Nat) : Prop :=
  (∃ p k, g.tag p = .free k ∧ n ≤ k) ∨ 4096 * (g.top + n) ≤ h.size

theorem Core.shmallocLarge_serves (hc : h.Core (h.view m) g) (hfuel : h.pageCount + 1 < fuel) (hsize : 0 < size)
    (hfit : 4096 * ((size + 4095) / 4096) < 2 ^ 32) (hpages : h.HasPages g ((size + 4095) / 4096)) :
    ∃ p m', shmallocLarge s h.vir fuel m size = .ret (h.vir + 4096 * p) m' ∧ 2 ≤ p ∧ p ≤ g.top := by
  obtain ⟨hv, hp, h2⟩ := hc.top_lt
  have hmod : (size + 4095) % 2 ^ 32 / 4096 = (size + 4095) / 4096 := by omega
  have hn : 0 < (size + 4095) / 4096 := by omega
  simp only [shmallocLarge, hc.pageTable_eq, hmod, h.word_eq m (show 3 < 1024 by omega)]
  generalize (size + 4095) / 4096 = n at *
  obtain ⟨f, rfl⟩ := Nat.exists_eq_add_of_lt hfuel
  have hends := (hc.searchesEnd (h.pageCount + 1 + f) (by omega) n 0).1
  rw [hc.pageTable_eq, h.word_eq m (by omega)] at hends
  simp only [largeLoop]
  cases hfind : findRun m (h.vir + 4096) n ((h.view m).hw 3) (h.pageCount + 1 + f) ((h.view m).hw 3) with
  | none => exact absurd hfind hends
  | some found =>
    cases found with
    | some cur =>
      obtain ⟨k, htag, _⟩ := hc.findRun_spec hn _ _ _ hc.hint hfind
      have hspan := hc.spans.range cur (by rw [htag]; simp)
      have hfirst := h.two_le_firstPage
      refine ⟨cur, takeRun h.vir m (h.vir + 4096) cur n, ?_, by omega, by omega⟩
      simp only
      rw [hc.dataBase_eq, pageAddr_eq (by omega)]
    | none =>
      simp only [if_pos hc.not_lastAtBreak]
      rcases hpages with ⟨p, k, hp, hk⟩ | hroom
      · have hlt := hc.findRun_none hfind hp
        omega
      · obtain ⟨m', hgrow⟩ := hc.growHeap_serves hn hroom
        exact ⟨g.top, m', hgrow, h2, le_rfl⟩

theorem data_inBounds (hc : h.Core (h.view m) g) (hb : h.IsData b) :
    InBounds s h.vir m (s.toVir b) ∧ s.toVir b % 4 = 0 := by
  have hva := h.vir_aligned
  have hpa := h.phy_aligned
  have h2 := h.two_le_firstPage
  obtain ⟨h1, hend, h4⟩ := hb
  rw [hc.inBounds_iff, h.toVir_data ⟨h1, hend, h4⟩]
  omega

theorem Core.popBlock_passes (hc : h.Core (h.view m) g) {c : Nat} {l : List Nat} (h4 : 4 ≤ c) (h11 : c ≤ 11)
    (hl : g.blocks c = b :: l) : (popBlock s h.vir m (h.vir + 4096) c (s.toVir b)).1 = s.toVir b := by
  obtain ⟨hb, hb4⟩ := hc.block_data (hc.block c b (by rw [hl]; exact List.mem_cons_self)).2
  obtain ⟨hprev, hnext⟩ := hc.next_data h4 h11 hl
  obtain ⟨hin, haligned⟩ := data_inBounds hc hb
  have hpa := h.phy_aligned
  have hpe := h.phy_end
  have h2 := h.two_le_firstPage
  have hroom := hb.1
  have hend := hb.2.1
  have hlink : ld m (s.toVir b + 4) = h.listHead c := by rw [h.toVir_data_four hb hb4, h.ld_dat m hb4, hprev]
  have hhead : ¬ (word h.vir m 47 ≥ h.listHead c ∨
      h.listHead c ≥ (word h.vir m 47 + word h.vir m 46) % 2 ^ 32) := by
    rw [h.word_eq m (by omega), h.word_eq m (by omega), hc.phy, hc.size, Nat.mod_eq_of_lt hpe]
    simp only [listHead]
    omega
  have hsucc : ¬ (s.smmPhy2vir (ld m (s.toVir b)) ≠ 0 ∧ (¬ InBounds s h.vir m (s.smmPhy2vir (ld m (s.toVir b))) ∨
      s.smmPhy2vir (ld m (s.toVir b)) % 4 ≠ 0)) := by
    rw [h.ld_dat m hb]
    by_cases hz : (h.view m).dat b = 0
    · simp [hz, Shm.smmPhy2vir]
    · have hn := (hnext hz).1
      obtain ⟨hin', haligned'⟩ := data_inBounds hc hn
      rw [h.smmPhy2vir_data hn]
      simp [hin', haligned']
  simp only [popBlock, hlink]
  rw [if_neg (not_not.mpr hin), if_neg (not_not.mpr haligned), if_neg hhead,
    if_neg (by simp only [listHead]; omega), if_neg hsucc]

theorem sizeClass_le_iff (hle : size ≤ 2048) : sizeClass (max size 8) ≤ 11 ↔ size ≤ 1024 := by
  simp only [sizeClass]
  constructor
  · intro hclass
    have hlt := lt_shiftRounds 32 (max size 8 - 1) (by omega)
    have hpow : 2 ^ shiftRounds 32 (max size 8 - 1) ≤ 2 ^ 10 := Nat.pow_le_pow_right (by omega) (by omega)
    omega
  · intro hsmall
    have hrounds := shiftRounds_le 32 (max size 8 - 1) 10 (by omega)
    omega

inductive Room (h : Place s) (v : View) (size : Nat) : Prop where
  | block : h.IsData (v.hw (2 * sizeClass (max size 8) + 17)) → Room h v size
  | page (q : Nat) : q ≠ 0 → h.OnFreeList v q → Room h v size
  | unclaimed : v.hw 45 + 4096 ≤ h.size → Room h v size

def PassesForBlock (h : Place s) (m : Mem) (head : Nat) : Prop :=
  (InBounds s h.vir m head ∧ head % 4 = 0) ∧
  (word h.vir m 47 < ld m (head + 4) ∧ ld m (head + 4) < (word h.vir m 47 + word h.vir m 46) % 2 ^ 32 ∧
    ld m (head + 4) % 4 = 0) ∧
  (s.smmPhy2vir (ld m head) ≠ 0 →
    InBounds s h.vir m (s.smmPhy2vir (ld m head)) ∧ s.smmPhy2vir (ld m head) % 4 = 0)

theorem popBlock_ne_iff {pt c head : Nat} (hhead : head ≠ 0) :
    (popBlock s h.vir m pt c head).1 ≠ 0 ↔ h.PassesForBlock m head := by
  simp only [popBlock, PassesForBlock]
  have hzero : ∀ {p : Prop}, ¬ p → ((0, m).1 ≠ 0 ↔ p) := fun hp => iff_of_false (fun h => h rfl) hp
  split
  · rename_i hin
    exact hzero fun hp => hin hp.1.1
  split
  · rename_i h4
    exact hzero fun hp => h4 hp.1.2
  split
  · exact hzero fun hp => by omega
  split
  · rename_i h4
    exact hzero fun hp => h4 hp.2.1.2.2
  split
  · rename_i hnext
    exact hzero fun hp => hnext.2.elim (fun h => h (hp.2.2 hnext.1).1) fun h => h (hp.2.2 hnext.1).2
  · rename_i hin h4 _ _ hnext
    refine iff_of_true hhead ⟨⟨not_not.mp hin, not_not.mp h4⟩, by omega, fun hz => ?_⟩
    have hok := not_or.mp (not_and.mp hnext hz)
    exact ⟨not_not.mp hok.1, not_not.mp hok.2⟩

/-- `heap[41]` as the list head of class 12: it is no address, or what is there passes for a free block. -/
def CountServes (h : Place s) (m : Mem) : Prop :=
  s.smmPhy2vir (word h.vir m 41) = 0 ∨ h.PassesForBlock m (s.smmPhy2vir (word h.vir m 41))

theorem Core.shmallocSmall_page (hc : h.Core (h.view m) g) (hfuel : h.pageCount + 1 < fuel)
    (hempty : ¬ (word h.vir m (2 * sizeClass size + 17) ≠ 0 ∧ s.toVir (word h.vir m (2 * sizeClass size + 17)) ≠ 0))
    (hpages : h.HasPages g 1) :
    ∃ p m', shmallocSmall s h.vir fuel m size = .ret (h.vir + 4096 * p) m' ∧ 2 ≤ p ∧ p ≤ g.top := by
  obtain ⟨p, m', hlarge, hp, htop⟩ := hc.shmallocLarge_serves hfuel (show 0 < 4096 by omega) (by omega) hpages
  simp only [shmallocSmall]
  rw [if_neg hempty, hlarge]
  simp only
  rw [if_neg (by omega)]
  exact ⟨p, _, rfl, hp, htop⟩

theorem Room.pages (hc : h.Core v g) (hroom : h.Room v size)
    (hempty : ¬ h.IsData (v.hw (2 * sizeClass (max size 8) + 17))) : h.HasPages g 1 := by
  cases hroom with
  | block hblock => exact absurd hblock hempty
  | page q hq hfree =>
    obtain ⟨k, _, rfl⟩ := hfree
    have hmem := (List.mem_cons.mp (hc.ring.iterate_mem k)).resolve_left hq
    obtain ⟨n, hn⟩ := (hc.mem_runs _).mp hmem
    have hspan := hc.spans.range _ (by rw [hn]; simp)
    rw [hn] at hspan
    exact .inl ⟨_, n, hn, hspan.2.1⟩
  | unclaimed hbrk =>
    rw [hc.brk] at hbrk
    exact .inr (by omega)

theorem page_phy_ne {p top : Nat} (hh : h.Header v top) (hp : 2 ≤ p) (htop : p ≤ top) :
    s.smmVir2phy (h.vir + 4096 * p) ≠ 0 := by
  have := hh.top_lt
  exact smmVir2phy_ne (h := h) (by omega) (by omega)

theorem popBlock_phy_ne (hc : h.Core (h.view m) g) {pt c : Nat} :
    s.smmVir2phy (popBlock s h.vir m pt c b).1 ≠ 0 ↔ (popBlock s h.vir m pt c b).1 ≠ 0 := by
  refine ⟨fun hne hz => hne (by rw [hz]; rfl), fun hne => ?_⟩
  have hin : InBounds s h.vir m b := by
    by_contra hout
    exact hne (by rw [popBlock_refused fun hb => hout hb.1])
  rw [hc.inBounds_iff] at hin
  have hpe := h.phy_end
  rcases popBlock_cases s h.vir m pt c b with hpop | hpop
  · exact absurd (by rw [hpop]) hne
  · rw [hpop]
    exact smmVir2phy_ne (h := h) hin.1 (by omega)

theorem Core.shmallocSmall_iff (hc : h.Core (h.view m) g) (hfuel : h.pageCount + 1 < fuel) (hle : size ≤ 2048)
    (hroom : h.Room (h.view m) size) :
    (∃ r m', shmallocSmall s h.vir fuel m (max size 8) = .ret r m' ∧ s.smmVir2phy r ≠ 0) ↔
      size ≤ 1024 ∨ h.CountServes m := by
  obtain ⟨h4, h12, _⟩ := sizeClass_spec (show 8 ≤ max size 8 by omega) (by omega)
  have hword := h.word_eq m (show 2 * sizeClass (max size 8) + 17 < 1024 by omega)
  -- without a block on the list the request is served from a page
  have hpage : s.smmPhy2vir (word h.vir m (2 * sizeClass (max size 8) + 17)) = 0 →
      ∃ r m', shmallocSmall s h.vir fuel m (max size 8) = .ret r m' ∧ s.smmVir2phy r ≠ 0 := by
    intro hz
    have hempty : ¬ h.IsData ((h.view m).hw (2 * sizeClass (max size 8) + 17)) := by
      intro hdata
      rw [hword, h.smmPhy2vir_data hdata] at hz
      exact h.toVir_data_pos hdata hz
    have hnone : ¬ (word h.vir m (2 * sizeClass (max size 8) + 17) ≠ 0 ∧
        s.toVir (word h.vir m (2 * sizeClass (max size 8) + 17)) ≠ 0) := by
      rintro ⟨hne, hvir⟩
      rw [Shm.smmPhy2vir, if_neg hne] at hz
      exact hvir hz
    obtain ⟨p, m', hret, hp, htop⟩ := hc.shmallocSmall_page hfuel hnone (hroom.pages hc hempty)
    exact ⟨_, m', hret, page_phy_ne hc.toHeader hp htop⟩
  -- and with one `popBlock` decides
  have hpop : s.smmPhy2vir (word h.vir m (2 * sizeClass (max size 8) + 17)) ≠ 0 →
      ((∃ r m', shmallocSmall s h.vir fuel m (max size 8) = .ret r m' ∧ s.smmVir2phy r ≠ 0) ↔
        (popBlock s h.vir m (h.vir + 4096) (sizeClass (max size 8))
          (s.smmPhy2vir (word h.vir m (2 * sizeClass (max size 8) + 17)))).1 ≠ 0) := by
    intro hz
    have hne : word h.vir m (2 * sizeClass (max size 8) + 17) ≠ 0 := by
      intro h0
      rw [h0] at hz
      exact hz rfl
    have hvir : s.smmPhy2vir (word h.vir m (2 * sizeClass (max size 8) + 17)) =
        s.toVir (word h.vir m (2 * sizeClass (max size 8) + 17)) := by
      rw [Shm.smmPhy2vir, if_neg hne]
    rw [hvir] at hz ⊢
    simp only [shmallocSmall, hc.pageTable_eq, if_pos (And.intro hne hz)]
    rw [← popBlock_phy_ne hc]
    constructor
    · rintro ⟨r, m', hret, hr⟩
      obtain ⟨rfl, _⟩ := Out.ret.inj hret
      exact hr
    · exact fun hr => ⟨_, _, rfl, hr⟩
  by_cases hsmall : size ≤ 1024
  · refine iff_of_true ?_ (.inl hsmall)
    have h11 := (sizeClass_le_iff hle).mpr hsmall
    by_cases hz : s.smmPhy2vir (word h.vir m (2 * sizeClass (max size 8) + 17)) = 0
    · exact hpage hz
    · have hne : (h.view m).hw (2 * sizeClass (max size 8) + 17) ≠ 0 := by
        intro h0
        rw [hword, h0] at hz
        exact hz rfl
      obtain ⟨l, hl⟩ := hc.list_cons h4 h11 hne
      refine (hpop hz).mpr ?_
      rw [hword, h.smmPhy2vir_data (hc.head_data h4 h11 hne).1, hc.popBlock_passes h4 h11 hl]
      exact h.toVir_data_pos (hc.head_data h4 h11 hne).1
  · have hclass : sizeClass (max size 8) = 12 := by
      have hnot := mt (sizeClass_le_iff hle).mp hsmall
      omega
    rw [hclass] at hpage hpop
    rw [or_iff_right hsmall, CountServes]
    by_cases hz : s.smmPhy2vir (word h.vir m 41) = 0
    · exact iff_of_true (hpage hz) (.inl hz)
    · rw [hpop hz, or_iff_right hz, popBlock_ne_iff hz]

/-- In every heap that safe calls lead to, a request for 1 to 2048 bytes with something to serve it from gets
a block if and only if it is for at most 1024 bytes or `heap[41]` does as a list head. -/
theorem small_malloc_iff {base fuel size : Nat} {ops : List Op} {st : Clients}
    (hbase : (base + 4095) % 2 ^ 32 / 4096 * 4096 = h.vir)
    (hrun : Run (Smm.step s fuel) h.Safe (start s base h.size) ops st) (hfuel : h.pageCount + 1 < fuel)
    (hpos : 1 ≤ size) (hle : size ≤ 2048) (hroom : h.Room (h.view st.heaps.mem) size) :
    Succeeds s fuel st.heaps size ↔ size ≤ 1024 ∨ h.CountServes st.heaps.mem := by
  obtain ⟨hslot, g, hc, _⟩ := hrun.inv (fun _ _ _ _ hi hsafe hs => Inv.step hi hsafe hs) (inv_start hbase)
  have hmax : (if size ≤ 7 then 8 else size) = max size 8 := by
    split <;> omega
  rw [succeeds_iff hslot, shmalloc, if_neg (by omega), if_neg (by omega), hmax]
  exact hc.shmallocSmall_iff hfuel hle hroom

end Place

theorem small_malloc_iff_lowHeap :
    ∃ st, Run (step lowMemory 100) lowHeap.Safe (start lowMemory 4096 131072) [.malloc 4096, .malloc 100] st ∧
      lowHeap.Room (lowHeap.view st.heaps.mem) 100 ∧ Succeeds lowMemory 100 st.heaps 100 := by
  refine Run.exists_of_exec_imp
    (P := fun st => (lowHeap.view st.heaps.mem).hw 45 + 4096 ≤ lowHeap.size)
    (by decide +kernel) fun st hrun hbrk => ?_
  exact ⟨.unclaimed hbrk, (Place.small_malloc_iff (h := lowHeap) (by decide) hrun (by decide)
    (by decide) (by decide) (.unclaimed hbrk)).mpr (.inl (by decide))⟩

theorem count_taken_for_block :
    ∃ st, Run (step lowMemory 100) LiveCall (start lowMemory 4096 131072) [.malloc 4096] st ∧
      lowHeap.Room (lowHeap.view st.heaps.mem) 1025 ∧ (lowHeap.view st.heaps.mem).hw 41 = 1 ∧
      ¬ Succeeds lowMemory 100 st.heaps 1025 := by
  refine Run.exists_of_exec_imp
    (P := fun st => (lowHeap.view st.heaps.mem).hw 45 + 29 * 4096 = lowHeap.size ∧
      (lowHeap.view st.heaps.mem).hw 41 = 1 ∧ ¬ Succeeds lowMemory 100 st.heaps 1025)
    (by decide +kernel) fun st hrun hend => ?_
  obtain ⟨hbrk, hcount, hfails⟩ := hend
  exact ⟨.unclaimed (by omega), hcount, hfails⟩

end H713.Smm
