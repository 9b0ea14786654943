import H713.Smm.Loose

/-!
# Smm.Restore

Blocks of more than 2048 bytes are allocated from a new heap and then all freed. A run in front of the break is
never extended, so its pages and those behind the break are lost to a larger request.
-/

namespace H713.Smm

namespace Place

open Bytes

variable {s : Shm} {h : Place s} {v : View} {m : Mem} {live bs : List Block} {top used : Nat}

def Packed (h : Place s) (v : View) : Nat → List Block → Nat → Prop
  | p, [], top => p = top
  | p, b :: bs, top => b.addr = h.page p ∧ v.pte p 0 = 0 ∧ 0 < v.pte p 1 ∧ Packed h v (p + v.pte p 1) bs top

namespace Packed

theorem le : ∀ {bs : List Block} {p : Nat}, h.Packed v p bs top → p ≤ top := by
  intro bs
  induction bs with
  | nil => exact fun hp => Nat.le_of_eq hp
  | cons b bs ih =>
    intro p hp
    have := ih hp.2.2.2
    omega

theorem congr {v' : View} : ∀ {bs : List Block} {p : Nat}, h.Packed v p bs top →
    (∀ q, p ≤ q → q < top → v'.pte q = v.pte q) → h.Packed v' p bs top := by
  intro bs
  induction bs with
  | nil => exact fun hp _ => hp
  | cons b bs ih =>
    intro p hp hsame
    have hle := hp.2.2.2.le
    have hpos := hp.2.2.1
    simp only [Packed, hsame p le_rfl (by omega)]
    exact ⟨hp.1, hp.2.1, hpos, ih hp.2.2.2 fun q hq hlt => hsame q (by omega) hlt⟩

theorem snoc (size : Nat) (h0 : v.pte top 0 = 0) (hpos : 0 < v.pte top 1) : ∀ {bs : List Block} {p : Nat},
    h.Packed v p bs top → h.Packed v p (bs ++ [⟨h.page top, size⟩]) (top + v.pte top 1) := by
  intro bs
  induction bs with
  | nil =>
    intro p hp
    obtain rfl : p = top := hp
    exact ⟨rfl, h0, hpos, rfl⟩
  | cons b bs ih => exact fun hp => ⟨hp.1, hp.2.1, hp.2.2.1, ih hp.2.2.2⟩

theorem block {b : Block} : ∀ {bs : List Block} {p : Nat}, h.Packed v p bs top → b ∈ bs →
    ∃ q, p ≤ q ∧ b.addr = h.page q ∧ v.pte q 0 = 0 ∧ 0 < v.pte q 1 ∧ q + v.pte q 1 ≤ top := by
  intro bs
  induction bs with
  | nil => exact fun _ hb => absurd hb List.not_mem_nil
  | cons b' bs ih =>
    intro p hp hb
    rcases List.mem_cons.mp hb with rfl | hb
    · exact ⟨p, le_rfl, hp.1, hp.2.1, hp.2.2.1, hp.2.2.2.le⟩
    · obtain ⟨q, hq, hrest⟩ := ih hp.2.2.2 hb
      exact ⟨q, by omega, hrest⟩

theorem bytes : ∀ {bs : List Block} {p : Nat}, h.Packed v p bs top →
    (bs.map fun b => h.blockBytes v b.addr).sum + 4096 * p = 4096 * top := by
  intro bs
  induction bs with
  | nil =>
    intro p hp
    obtain rfl : p = top := hp
    simp
  | cons b bs ih =>
    intro p hp
    have hsum := ih hp.2.2.2
    have hbytes : h.blockBytes v b.addr = 4096 * v.pte p 1 := by
      rw [hp.1, blockBytes_page le_rfl (by simp only [page]; omega), if_pos hp.2.1]
    rw [List.map_cons, List.sum_cons, hbytes]
    omega

theorem nodup : ∀ {bs : List Block} {p : Nat}, h.Packed v p bs top → (bs.map Block.addr).Nodup := by
  intro bs
  induction bs with
  | nil => exact fun _ => List.nodup_nil
  | cons b bs ih =>
    intro p hp
    refine List.nodup_cons.mpr ⟨fun hmem => ?_, ih hp.2.2.2⟩
    obtain ⟨b', hb', haddr⟩ := List.mem_map.mp hmem
    obtain ⟨q, hq, haddr', _⟩ := hp.2.2.2.block hb'
    have hpos := hp.2.2.1
    rw [hp.1, haddr'] at haddr
    simp only [page] at haddr
    omega

end Packed

structure Claimed (h : Place s) (v : View) (live : List Block) (limit : Nat) : Prop extends Header h v limit where
  lists : ∀ c, 4 ≤ c → c ≤ 11 → v.hw (2 * c + 17) = 0
  blocks : v.hw 41 = live.length % 2 ^ 32
  hint : v.hw 3 = 0
  bare : ∀ j, v.pte 0 j = 0
  packed : h.Packed v h.firstPage live.reverse limit

namespace Claimed

theorem top_le (hc : h.Claimed v live top) (hne : live ≠ []) : h.firstPage < top ∧ 4096 * top ≤ h.size := by
  obtain ⟨b, hb⟩ := List.exists_mem_of_ne_nil live hne
  obtain ⟨q, hq, _, _, hpos, hend⟩ := hc.packed.block (List.mem_reverse.mpr hb)
  rcases hc.top with ⟨_, ht⟩ | ⟨_, _, hs⟩
  · omega
  · exact ⟨by omega, hs⟩

theorem loose (hc : h.Claimed v live top) : h.Loose v live [0] top live.length where
  toHeader := hc.toHeader
  lists := hc.lists
  blocks := hc.blocks
  zero := List.mem_cons_self
  sentinel := hc.bare 0
  hint := by rw [hc.hint]; exact List.mem_cons_self
  links := fun q hq => by
    rw [List.mem_singleton.mp hq, hc.bare, hc.bare]
    exact ⟨List.mem_cons_self, List.mem_cons_self⟩
  run := fun q hq h0 => absurd (List.mem_singleton.mp hq) h0
  held := fun b hb => by
    obtain ⟨q, hq, haddr, h0, hpos, hend⟩ := hc.packed.block (List.mem_reverse.mpr hb)
    have htop := hc.top_le (List.ne_nil_of_mem hb)
    have h2 := h.two_le_firstPage
    refine ⟨q, haddr, ?_, hq, h0, hpos, by omega⟩
    rw [List.mem_singleton]
    omega

section

variable (hc : h.Claimed (h.view m) live top)

include hc

theorem findRun_eq {n : Nat} (hn : 0 < n) (fuel : Nat) : findRun m (h.vir + 4096) n 0 (fuel + 1) 0 = some none := by
  have hpc := h.pageCount_pos
  simp only [findRun, h.ld_pte m hpc (show 0 < 3 by omega), h.ld_pte m hpc (show 1 < 3 by omega), hc.bare]
  rw [if_neg (by omega), if_neg (by simp)]

theorem serves_iff {n : Nat} (hn : 0 < n) (fuel : Nat) :
    Loose.Serves h m top (fuel + 1) n ↔ 4096 * (top + n) ≤ h.size := by
  rw [Loose.Serves, hc.hint, hc.findRun_eq hn]
  refine ⟨?_, fun hroom => ⟨none, rfl, fun _ => hroom⟩⟩
  rintro ⟨found, hfound, hroom⟩
  exact hroom (Option.some.inj hfound).symm

theorem grown {n size : Nat} (hn : 0 < n) (hroom : 4096 * (top + n) ≤ h.size) {m' : Mem}
    (hm : growHeap s h.vir m (h.vir + 4096) n = .ret (h.vir + 4096 * top) m') :
    h.Claimed (h.view m') (⟨h.page top, size⟩ :: live) (top + n) := by
  have hle := h.size_le
  obtain ⟨hv, _, h2⟩ := hc.top_lt
  have hmul : n * 4096 % 2 ^ 32 = 4096 * n := by omega
  have htop : top < h.pageCount := by
    simp only [pageCount]
    omega
  simp only [growHeap, hmul, hc.morecore_eq hn (by omega), if_pos hroom] at hm
  rw [if_neg (by omega)] at hm
  have hview₁ : h.view (setWord h.vir (setWord h.vir m 45 (4096 * (top + n) % 2 ^ 32)) 4 (top + n)) =
      ((h.view m).setHw 45 (4096 * (top + n))).setHw 4 (top + n) := by
    simp (disch := omega) only [h.view_setWord, Nat.mod_eq_of_lt]
  generalize setWord h.vir (setWord h.vir m 45 (4096 * (top + n) % 2 ^ 32)) 4 (top + n) = m₁ at hm hview₁
  have hdb : dataBase s h.vir m₁ = h.vir + 4096 := dataBase_of_hw (by rw [hview₁]; simpa using hc.base0)
  have hdiv : divPage (sub32 (h.vir + 4096 * top) (h.vir + 4096)) + 1 = top := by
    rw [sub32_eq (by omega) hv, divPage_eq (by omega)]
    omega
  rw [hdb, hdiv] at hm
  obtain ⟨_, rfl⟩ := Out.ret.inj hm
  have hhw : ∀ k, (h.view (addWord h.vir (addWord h.vir (st (st m₁ (pteAddr (h.vir + 4096) top 0) 0)
      (pteAddr (h.vir + 4096) top 1) n) 41 1) 42 (n * 4096))).hw k =
        if k = 42 then ((h.view m).hw 42 + n * 4096) % 2 ^ 32 else if k = 41 then ((h.view m).hw 41 + 1) % 2 ^ 32
        else if k = 4 then top + n else if k = 45 then 4096 * (top + n) else (h.view m).hw k := by
    intro k
    simp (disch := omega) only [hw_addWord, hw_st_pte, hview₁, View.hw_setHw, Nat.reduceEqDiff, if_false]
  have hpte : (h.view (addWord h.vir (addWord h.vir (st (st m₁ (pteAddr (h.vir + 4096) top 0) 0)
      (pteAddr (h.vir + 4096) top 1) n) 41 1) 42 (n * 4096))).pte =
        (((h.view m).setPte top 0 0).setPte top 1 n).pte := by
    simp (disch := omega) only [Smm.addWord, h.view_setWord, View.pte_setHw, h.view_st_pte, hview₁]
    rfl
  generalize h.view (addWord h.vir (addWord h.vir (st (st m₁ (pteAddr (h.vir + 4096) top 0) 0)
    (pteAddr (h.vir + 4096) top 1) n) 41 1) 42 (n * 4096)) = v' at hhw hpte
  have hmark : v'.pte top 0 = 0 ∧ v'.pte top 1 = n := by rw [hpte]; simp
  have hother : ∀ q, q ≠ top → v'.pte q = (h.view m).pte q := by
    intro q hq
    rw [hpte, Loose.pte_setPte_of_ne hq, Loose.pte_setPte_of_ne hq]
  have hfirst := hc.packed.le
  exact {
    base0 := by simpa [hhw] using hc.base0
    base1 := by simpa [hhw] using hc.base1
    count := by simpa [hhw] using hc.count
    size := by simpa [hhw] using hc.size
    phy := by simpa [hhw] using hc.phy
    brk := by simp [hhw]
    top := .inr ⟨by simp [hhw], by omega, hroom⟩
    lists := fun c h4 h11 => by
      rw [hhw, if_neg (by omega), if_neg (by omega), if_neg (by omega), if_neg (by omega)]
      exact hc.lists c h4 h11
    blocks := by
      rw [hhw, if_neg (by omega), if_pos rfl, hc.blocks, List.length_cons]
      omega
    hint := by simpa [hhw] using hc.hint
    bare := fun j => by rw [hother 0 (by omega), hc.bare]
    packed := by
      rw [List.reverse_cons]
      have hold := hc.packed.congr fun q _ hq => hother q (by omega)
      have hnew := Packed.snoc size hmark.1 (by omega) hold
      rwa [hmark.2] at hnew }

theorem shmallocLarge {fuel size r : Nat} {m' : Mem} (hsize : 0 < size)
    (hfit : 4096 * ((size + 4095) / 4096) + 4096 * top ≤ 2 ^ 32)
    (hm : Smm.shmallocLarge s h.vir fuel m size = .ret r m') :
    (r = 0 ∧ m' = m) ∨ r = h.vir + 4096 * top ∧ ∃ top', h.Claimed (h.view m') (⟨h.page top, size⟩ :: live) top' := by
  obtain ⟨hv, _, h2⟩ := hc.top_lt
  have hmod : (size + 4095) % 2 ^ 32 / 4096 = (size + 4095) / 4096 := by omega
  have hn : 0 < (size + 4095) / 4096 := by omega
  simp only [Smm.shmallocLarge, hc.pageTable_eq, hmod, h.word_eq m (show 3 < 1024 by omega), hc.hint] at hm
  generalize (size + 4095) / 4096 = n at *
  cases fuel with
  | zero => cases hm
  | succ f =>
    cases f with
    | zero => cases hm
    | succ f =>
      simp only [largeLoop, hc.findRun_eq hn, if_pos hc.loose.not_lastAtBreak] at hm
      have hmul : n * 4096 % 2 ^ 32 = 4096 * n := by omega
      by_cases hroom : 4096 * (top + n) ≤ h.size
      · obtain ⟨m₁, hgrow⟩ := hc.growHeap_serves hn hroom
        obtain ⟨rfl, rfl⟩ := Out.ret.inj (hgrow.symm.trans hm)
        exact .inr ⟨rfl, _, hc.grown hn hroom hgrow⟩
      · simp only [growHeap, hmul, hc.morecore_eq hn hfit, if_neg hroom] at hm
        split at hm
        · cases hm
        · cases hm
        · rename_i hmore
          split at hmore
          · cases hmore
            rw [if_pos rfl] at hm
            cases hm
            exact .inl ⟨rfl, rfl⟩
          · cases hmore

end

end Claimed

/-- A request for more than 2048 bytes whose pages do not wrap around. -/
def Claims (h : Place s) (st : Clients) : Op → Prop
  | .malloc size => 2048 < size ∧ 4096 * ((size + 4095) / 4096) + (h.view st.heaps.mem).hw 45 ≤ 2 ^ 32
  | _ => False

instance (st : Clients) : ∀ op, Decidable (h.Claims st op)
  | .malloc _ | .free _ | .write _ _ => by unfold Claims; infer_instance

structure Filled (h : Place s) (st : Clients) : Prop where
  slot : st.heaps.slot 0 = ⟨h.phy, h.size⟩
  heap : ∃ top, h.Claimed (h.view st.heaps.mem) st.live top

variable {base fuel : Nat} {st : Clients}

theorem claimed_start (hbase : (base + 4095) % 2 ^ 32 / 4096 * 4096 = h.vir) :
    h.Claimed (h.view (start s base h.size).heaps.mem) [] h.firstPage where
  toHeader := (core_start hbase).toHeader
  lists := fun c h4 h11 => (core_start hbase).stack c h4 h11
  blocks := by rw [view_start hbase]; simp
  hint := by rw [view_start hbase]; simp
  bare := fun j => by rw [view_start hbase]; rfl
  packed := rfl

theorem Filled.step {r : Nat} {st' : Clients} {op : Op} (hi : h.Filled st) (hok : h.Claims st op)
    (hs : Smm.step s fuel st op = .ret r st') : h.Filled st' := by
  obtain ⟨hslot, top, hc⟩ := hi
  cases op with
  | free a | write a x => exact hok.elim
  | malloc size =>
    obtain ⟨hbig, hfit⟩ := hok
    simp only [Smm.step] at hs
    split at hs
    · cases hs
    · cases hs
    · rename_i a heaps hm
      obtain ⟨_, rfl⟩ := Out.ret.inj hs
      obtain ⟨r, m', hr, rfl, rfl⟩ := malloc_ret hslot hm
      rw [shmalloc, if_neg (by omega), if_pos (by omega)] at hr
      rw [hc.brk] at hfit
      rcases hc.shmallocLarge (by omega) hfit hr with ⟨rfl, rfl⟩ | ⟨rfl, top', hc'⟩
      · exact ⟨hslot, top, hc⟩
      · have hlt := hc.top_lt
        have hphy : s.smmVir2phy (h.vir + 4096 * top) = h.page top := by
          rw [Shm.smmVir2phy, if_neg (by omega), h.toPhy_add (by omega), page]
        rw [hphy, if_neg (by simp only [page]; have := h.phy_pos; omega)]
        exact ⟨hslot, top', hc'⟩

structure Draining (h : Place s) (st : Clients) : Prop where
  slot : st.heaps.slot 0 = ⟨h.phy, h.size⟩
  nodup : (st.live.map Block.addr).Nodup
  heap : ∃ nodes top, h.Loose (h.view st.heaps.mem) st.live nodes top st.live.length

theorem Filled.draining (hf : h.Filled st) : h.Draining st := by
  obtain ⟨hslot, top, hc⟩ := hf
  refine ⟨hslot, ?_, [0], top, hc.loose⟩
  have hnd := hc.packed.nodup
  rwa [List.map_reverse, List.nodup_reverse] at hnd

theorem Held.data {nodes : List Nat} {b : Block} {p : Nat} (hp : Held h v nodes b p) : h.IsData b.addr := by
  have hpa := h.phy_aligned
  have hfirst := hp.first
  have hpos := hp.pos
  have hfits := hp.fits
  rw [hp.addr, page]
  refine ⟨?_, ?_, ?_⟩ <;> omega

theorem Draining.step {r : Nat} {st' : Clients} {a : Nat} (hd : h.Draining st) (hcall : LiveCall st (.free a))
    (hs : Smm.step s fuel st (.free a) = .ret r st') :
    h.Draining st' ∧ st'.live = st.live.filter fun b => b.addr ≠ a := by
  obtain ⟨hslot, hnd, nodes, top, hl⟩ := hd
  obtain ⟨b, hb, rfl⟩ := hcall
  obtain ⟨p, hp⟩ := hl.held b hb
  have hperm := Sums.perm_of_key hnd hb
  simp only [Smm.step] at hs
  split at hs
  · cases hs
  · cases hs
  · rename_i u heaps hm
    obtain ⟨_, rfl⟩ := Out.ret.inj hs
    obtain ⟨m', hr, rfl⟩ := free_ret hslot hp.data hm
    rw [hperm.length_eq, List.length_cons] at hl
    exact ⟨⟨hslot, hnd.sublist (List.filter_sublist.map _), hl.shfree hb hr⟩, rfl⟩

theorem Draining.run : ∀ {order : List Nat} {st st' : Clients}, h.Draining st →
    Run (Smm.step s fuel) LiveCall st (order.map .free) st' →
    h.Draining st' ∧ st'.live = st.live.filter fun b => b.addr ∉ order := by
  intro order
  induction order with
  | nil =>
    intro st st' hd hrun
    cases hrun
    exact ⟨hd, by simp⟩
  | cons a order ih =>
    intro st st' hd hrun
    cases hrun with
    | cons hcall hs hrest =>
      obtain ⟨hd₁, hlive⟩ := hd.step hcall hs
      obtain ⟨hd', hlive'⟩ := ih hd₁ hrest
      refine ⟨hd', ?_⟩
      rw [hlive', hlive, List.filter_filter]
      simp [Bool.and_comm]

def dataPages (h : Place s) : Nat := h.size / 4096 - h.firstPage

/-- Every request that a new heap serves is served. -/
def Restored (h : Place s) (fuel base : Nat) (st : Clients) : Prop :=
  ∀ size, 4096 * ((size + 4095) / 4096) + 4096 * h.firstPage ≤ 2 ^ 32 →
    Succeeds s fuel (start s base h.size).heaps size → Succeeds s fuel st.heaps size

theorem Claimed.succeeds_iff {heaps : Heaps} (hslot : heaps.slot 0 = ⟨h.phy, h.size⟩)
    (hc : h.Claimed (h.view heaps.mem) [] h.firstPage) {size : Nat}
    (hfit : 4096 * ((size + 4095) / 4096) + 4096 * h.firstPage ≤ 2 ^ 32) :
    Succeeds s (fuel + 2) heaps size ↔ 0 < size ∧ (size + 4095) / 4096 ≤ h.dataPages := by
  rw [hc.loose.succeeds_iff hslot hfit]
  refine and_congr_right fun hpos => ?_
  rw [hc.serves_iff (by omega), dataPages]
  omega

theorem slot_start (hbase : (base + 4095) % 2 ^ 32 / 4096 * 4096 = h.vir) :
    (start s base h.size).heaps.slot 0 = ⟨h.phy, h.size⟩ := (inv_start hbase).slot

theorem Draining.serves_again_iff {base fuel : Nat} {st : Clients}
    (hbase : (base + 4095) % 2 ^ 32 / 4096 * 4096 = h.vir) (hd : h.Draining st) (hempty : st.live = [])
    (hpages : 0 < h.dataPages) :
    h.Restored (fuel + 2) base st ↔ Succeeds s (fuel + 2) st.heaps (4096 * h.dataPages) := by
  obtain ⟨hslot, _, nodes, top, hl⟩ := hd
  rw [hempty] at hl
  have hle := h.size_le
  have htop := hl.top_lt
  have hroom : 4096 * h.dataPages + 4096 * h.firstPage ≤ h.size := by
    rw [dataPages] at hpages ⊢
    omega
  have htopsize : 4096 * top ≤ h.size := by
    rcases hl.top with ⟨_, ht⟩ | ⟨_, _, hs⟩ <;> omega
  have hceil : (4096 * h.dataPages + 4095) / 4096 = h.dataPages := by omega
  have hnew : ∀ size, 4096 * ((size + 4095) / 4096) + 4096 * h.firstPage ≤ 2 ^ 32 →
      (Succeeds s (fuel + 2) (start s base h.size).heaps size ↔ 0 < size ∧ (size + 4095) / 4096 ≤ h.dataPages) :=
    fun size hfit => (claimed_start hbase).succeeds_iff (slot_start hbase) hfit
  constructor
  · intro hrest
    refine hrest _ (by omega) ((hnew _ (by omega)).mpr ⟨by omega, by omega⟩)
  · intro hall size hfit hsize
    obtain ⟨hpos, hn⟩ := (hnew size hfit).mp hsize
    rw [hl.succeeds_iff hslot (by omega), hceil] at hall
    rw [hl.succeeds_iff hslot (by omega)]
    exact ⟨hpos, hall.2.mono hn⟩

structure OneRun (h : Place s) (v : View) (done : Nat) : Prop where
  next0 : v.pte 0 1 = h.firstPage
  prev0 : v.pte 0 2 = h.firstPage
  next : v.pte h.firstPage 1 = 0
  prev : v.pte h.firstPage 2 = 0
  count : v.pte h.firstPage 0 = done

def Swept (h : Place s) (v : View) (done : Nat) : Prop :=
  done = 0 ∧ (∀ j, v.pte 0 j = 0) ∧ v.hw 3 = 0 ∨ 0 < done ∧ h.OneRun v done ∧ v.hw 3 = h.firstPage

variable {nodes : List Nat} {b : Block} {done n : Nat}

theorem OneRun.congr {v' : View} (ho : h.OneRun v done) (hpte : v'.pte = v.pte) : h.OneRun v' done :=
  ⟨by rw [hpte]; exact ho.next0, by rw [hpte]; exact ho.prev0, by rw [hpte]; exact ho.next,
    by rw [hpte]; exact ho.prev, by rw [hpte]; exact ho.count⟩

theorem Swept.joinPrev (hs : h.Swept (h.view m) done)
    (hp : Held h (h.view m) nodes b (h.firstPage + done)) (hn : (h.view m).pte (h.firstPage + done) 1 = n) :
    ∃ m', Smm.joinPrev h.vir m (h.vir + 4096) (h.firstPage + done) n ((h.view m).pte 0 1) = (h.firstPage, m') ∧
      h.OneRun (h.view m') (done + n) ∧ (∀ k, k ≠ 43 → (h.view m').hw k = (h.view m).hw k) ∧
      ∀ q, q ≠ 0 → q ≠ h.firstPage → (h.view m').pte q = (h.view m).pte q := by
  have h2 := h.two_le_firstPage
  have hle := h.size_le
  have hplt := Loose.held_lt hp
  have hfits := hp.fits
  have hpc := h.pageCount_pos
  rcases hs with ⟨rfl, hbare, _⟩ | ⟨hpos, hone, _⟩
  · simp only [Nat.add_zero, Nat.zero_add] at hn hplt hfits ⊢
    rw [hbare 1]
    obtain ⟨hfst, hview⟩ := view_joinPrev (n := n) hplt hpc (by rw [hbare]; exact hpc) (by rw [hbare, hbare])
      (by omega) (by omega) (by rw [hbare]; omega)
    refine ⟨_, Prod.ext hfst rfl, ?_⟩
    rw [hview, View.insertRun, hbare]
    have h0 : h.firstPage ≠ 0 := by omega
    refine ⟨⟨?_, ?_, ?_, ?_, ?_⟩, fun k hk => ?_, fun q hq0 hq => ?_⟩
    · simp
    · simp
    · simp [h0]
    · simp [h0]
    · simp [h0]
    · simp [hk]
    · funext j
      simp [hq0, hq]
  · have hflt : h.firstPage < h.pageCount := by omega
    simp only [Smm.joinPrev, hone.next0]
    rw [h.ld_pte m hflt (by omega), hone.count, Nat.mod_eq_of_lt (by omega), if_pos rfl]
    refine ⟨_, rfl, ?_⟩
    rw [h.view_st_pte m hflt (by omega) (by omega)]
    have h0 : (0 : Nat) ≠ h.firstPage := by omega
    refine ⟨⟨?_, ?_, ?_, ?_, ?_⟩, fun k _ => rfl, fun q _ hq => ?_⟩
    · simpa [h0] using hone.next0
    · simpa [h0] using hone.prev0
    · simpa using hone.next
    · simpa using hone.prev
    · simp
    · exact Loose.pte_setPte_of_ne hq

theorem OneRun.trim (hl : h.Loose (h.view m) live nodes top used) (hone : h.OneRun (h.view m) done)
    (hmem : h.firstPage ∈ nodes) {m' : Mem} (hm : Smm.trim s h.vir m (h.vir + 4096) h.firstPage = m') :
    m' = m ∨ top = h.firstPage + done ∧ (h.view m').pte 0 1 = 0 ∧
      (∀ q, q ≠ 0 → (h.view m').pte q = (h.view m).pte q) := by
  have h2 := h.two_le_firstPage
  have hlt := hl.node_lt hmem
  have hpc := h.pageCount_pos
  rcases hl.trim_cases hmem (by omega) with htrim | ⟨htop, m₁, m₂, m₃, x, hview, hm₂, hm₃, htrim⟩
  · exact .inl (hm.symm.trans htrim)
  · refine .inr ⟨hone.count ▸ htop, ?_⟩
    have h0 : h.firstPage ≠ 0 := by omega
    have hlinks₁ : ld m₁ (pteAddr (h.vir + 4096) h.firstPage 1) = 0 ∧
        ld m₁ (pteAddr (h.vir + 4096) h.firstPage 2) = 0 := by
      rw [h.ld_pte m₁ hlt (by omega), h.ld_pte m₁ hlt (by omega), hview]
      exact ⟨hone.next, hone.prev⟩
    rw [hlinks₁.1, hlinks₁.2] at hm₂
    have hview₂ : h.view m₂ = (h.view m₁).setPte 0 1 0 := by
      rw [hm₂, h.view_st_pte m₁ hpc (by omega) (by omega)]
    have hlinks₂ : ld m₂ (pteAddr (h.vir + 4096) h.firstPage 1) = 0 ∧
        ld m₂ (pteAddr (h.vir + 4096) h.firstPage 2) = 0 := by
      rw [h.ld_pte m₂ hlt (by omega), h.ld_pte m₂ hlt (by omega), hview₂, Loose.pte_setPte_of_ne h0, hview]
      exact ⟨hone.next, hone.prev⟩
    rw [hlinks₂.1, hlinks₂.2] at hm₃
    have hpte : (h.view m').pte = (((h.view m).setPte 0 1 0).setPte 0 2 0).pte := by
      rw [← hm, htrim, hm₃]
      simp (disch := omega) only [Smm.subWord, h.view_setWord, View.pte_setHw, h.view_st_pte, hview₂, hview]
      rfl
    rw [hpte]
    refine ⟨by simp, fun q hq => ?_⟩
    rw [Loose.pte_setPte_of_ne hq, Loose.pte_setPte_of_ne hq]

theorem Swept.congr {v' : View} (hs : h.Swept v done) (hpte : v'.pte = v.pte) (hhint : v'.hw 3 = v.hw 3) :
    h.Swept v' done := by
  rcases hs with ⟨hz, hbare, h3⟩ | ⟨hpos, hone, h3⟩
  · exact .inl ⟨hz, by rw [hpte]; exact hbare, hhint.trans h3⟩
  · exact .inr ⟨hpos, hone.congr hpte, hhint.trans h3⟩

theorem Swept.searchPlace (hl : h.Loose (h.view m) live nodes top used) (hs : h.Swept (h.view m) done) (fuel : Nat) :
    Smm.searchPlace m (h.vir + 4096) (h.firstPage + done) ((h.view m).hw 3) (fuel + 1) = some 0 := by
  have hstart : (h.view m).hw 3 ≤ h.firstPage ∧ (h.view m).pte ((h.view m).hw 3) 1 = 0 := by
    rcases hs with ⟨_, hbare, h3⟩ | ⟨_, hone, h3⟩
    · rw [h3]
      exact ⟨Nat.zero_le _, hbare 1⟩
    · rw [h3]
      exact ⟨le_rfl, hone.next⟩
  rw [Smm.searchPlace, if_pos (by omega), walkForward, h.ld_pte m (hl.node_lt hl.hint) (by omega), hstart.2]
  rfl

structure SweptTo (h : Place s) (v v' : View) (top done : Nat) : Prop where
  hint : v'.hw 3 = h.firstPage
  other : ∀ q, q ≠ 0 → q ≠ h.firstPage → v'.pte q = v.pte q
  count : v'.pte h.firstPage 0 = done
  next : v'.pte h.firstPage 1 = 0
  list : h.OneRun v' done ∧ v'.hw 45 = v.hw 45 ∨ top = h.firstPage + done ∧ v'.pte 0 1 = 0

theorem Swept.freeRun (hl : h.Loose (h.view m) live nodes top used) (hs : h.Swept (h.view m) done)
    (hp : Held h (h.view m) nodes b (h.firstPage + done)) (hn : (h.view m).pte (h.firstPage + done) 1 = n)
    (fuel : Nat) : ∃ m', Smm.freeRun s h.vir (fuel + 1) m (h.vir + 4096) (h.firstPage + done) n = .ret () m' ∧
      h.SweptTo (h.view m) (h.view m') top (done + n) := by
  have h2 := h.two_le_firstPage
  have hpc := h.pageCount_pos
  have hpcl := h.pageCount_lt
  have hpte : (h.view (addWord h.vir (subWord h.vir m 42 (n * 4096)) 44 (n * 4096))).pte = (h.view m).pte := by
    simp (disch := omega) only [Smm.addWord, Smm.subWord, h.view_setWord, View.pte_setHw]
  have hhw : ∀ k, k ≠ 42 → k ≠ 44 →
      (h.view (addWord h.vir (subWord h.vir m 42 (n * 4096)) 44 (n * 4096))).hw k = (h.view m).hw k := by
    intro k h42 h44
    rw [hw_addWord (by omega), if_neg h44, hw_subWord (by omega), if_neg h42]
  have hl₁ : h.Loose (h.view (addWord h.vir (subWord h.vir m 42 (n * 4096)) 44 (n * 4096))) live nodes top used :=
    (hl.setStat _ (show 42 ≤ 42 by omega) (by omega)).setStat _ (by omega) (by omega)
  simp only [Smm.freeRun]
  generalize addWord h.vir (subWord h.vir m 42 (n * 4096)) 44 (n * 4096) = m₁ at hpte hhw hl₁ ⊢
  have hs₁ := hs.congr hpte (hhw 3 (by omega) (by omega))
  have hp₁ := hp.congr (congrFun hpte _)
  rw [← hpte] at hn
  obtain ⟨m₂, hjoin, hone, hhw₂, hother⟩ := hs₁.joinPrev hp₁ hn
  obtain ⟨nodes', hsub, hmem, _, hl₂⟩ := hl₁.joinPrev hp₁ (hl₁.links 0 hl₁.zero).1 (hn ▸ hjoin)
  simp only at hmem hl₂
  rw [h.word_eq m₁ (by omega), hs₁.searchPlace hl₁]
  simp only [h.ld_pte m₁ hpc (show 1 < 3 by omega), hjoin]
  have hflt := hl₂.node_lt hmem
  have hsum := hl₂.pte_lt hmem
  have hskip : joinNext h.vir m₂ (h.vir + 4096) h.firstPage 0 = m₂ := by
    rw [joinNext, h.ld_pte m₂ hflt (by omega), Nat.mod_eq_of_lt (by omega), if_neg (by omega)]
  rw [hskip]
  refine ⟨_, rfl, ?_⟩
  have htrim := hone.trim hl₂ hmem rfl
  generalize Smm.trim s h.vir m₂ (h.vir + 4096) h.firstPage = m₃ at htrim
  have hview : h.view (setWord h.vir m₃ 3 h.firstPage) = (h.view m₃).setHw 3 h.firstPage := by
    rw [h.view_setWord m₃ _ (by omega), Nat.mod_eq_of_lt (by omega)]
  rw [hview]
  rcases htrim with rfl | ⟨htop, hzero, hkeep⟩
  · refine ⟨by simp, fun q hq0 hq => ?_, hone.count, hone.next, .inl ⟨hone.congr rfl, ?_⟩⟩
    · rw [View.pte_setHw, hother q hq0 hq, hpte]
    · rw [View.hw_setHw, if_neg (by omega), hhw₂ 45 (by omega), hhw 45 (by omega) (by omega)]
  · refine ⟨by simp, fun q hq0 hq => ?_, ?_, ?_, .inr ⟨htop, hzero⟩⟩
    · rw [View.pte_setHw, hkeep q hq0, hother q hq0 hq, hpte]
    · rw [View.pte_setHw, hkeep _ (by omega), hone.count]
    · rw [View.pte_setHw, hkeep _ (by omega), hone.next]

structure Sweeping (h : Place s) (st : Clients) (done limit : Nat) (bs : List Block) : Prop where
  slot : st.heaps.slot 0 = ⟨h.phy, h.size⟩
  heap : ∃ nodes, h.Loose (h.view st.heaps.mem) st.live nodes limit bs.length
  swept : h.Swept (h.view st.heaps.mem) done
  packed : h.Packed (h.view st.heaps.mem) (h.firstPage + done) bs limit
  mem : ∀ b, b ∈ st.live ↔ b ∈ bs

structure Emptied (h : Place s) (st : Clients) (c : Nat) : Prop where
  slot : st.heaps.slot 0 = ⟨h.phy, h.size⟩
  live : st.live = []
  hint : (h.view st.heaps.mem).hw 3 = h.firstPage
  count : (h.view st.heaps.mem).pte h.firstPage 0 = c
  next : (h.view st.heaps.mem).pte h.firstPage 1 = 0
  heap : ∃ nodes top, h.Loose (h.view st.heaps.mem) [] nodes top 0 ∧
    ((h.view st.heaps.mem).pte 0 1 = h.firstPage ∧ top = h.firstPage + c ∨ (h.view st.heaps.mem).pte 0 1 = 0)

theorem Filled.sweeping (hslot : st.heaps.slot 0 = ⟨h.phy, h.size⟩)
    (hc : h.Claimed (h.view st.heaps.mem) st.live top) : h.Sweeping st 0 top st.live.reverse where
  slot := hslot
  heap := ⟨[0], by rw [List.length_reverse]; exact hc.loose⟩
  swept := .inl ⟨rfl, hc.bare, hc.hint⟩
  packed := hc.packed
  mem := fun b => List.mem_reverse.symm

theorem Sweeping.step (hw : h.Sweeping st done top (b :: bs)) (fuel : Nat) :
    ∃ st' n, LiveCall st (.free b.addr) ∧ Smm.step s (fuel + 1) st (.free b.addr) = .ret 0 st' ∧ 0 < n ∧
      (bs ≠ [] → h.Sweeping st' (done + n) top bs) ∧
      (bs = [] → h.firstPage + (done + n) = top ∧ h.Emptied st' (done + n)) := by
  obtain ⟨hslot, ⟨nodes, hl⟩, hs, hpack, hmem⟩ := hw
  rw [List.length_cons] at hl
  have hb : b ∈ st.live := (hmem b).mpr List.mem_cons_self
  obtain ⟨p, hp⟩ := hl.held b hb
  obtain rfl : p = h.firstPage + done := by
    have haddr := hp.addr.symm.trans hpack.1
    simp only [page] at haddr
    omega
  obtain ⟨haddr, hmark, hpos, hrest⟩ := hpack
  generalize hn : (h.view st.heaps.mem).pte (h.firstPage + done) 1 = n at *
  -- the call returns
  obtain ⟨hview, hl₁⟩ := hl.uncount
  have hpte : (h.view (subWord h.vir st.heaps.mem 41 1)).pte = (h.view st.heaps.mem).pte := by
    rw [hview, View.pte_setHw]
  have hhw : ∀ k, k ≠ 41 → (h.view (subWord h.vir st.heaps.mem 41 1)).hw k = (h.view st.heaps.mem).hw k := by
    intro k hk
    rw [hview, View.hw_setHw, if_neg hk]
  obtain ⟨m', hfree, hafter⟩ := (hs.congr hpte (hhw 3 (by omega))).freeRun (n := n) hl₁
    (hp.congr (congrFun hpte _)) (by rw [hpte]; exact hn) fuel
  have hshfree : Smm.shfree s h.vir (fuel + 1) st.heaps.mem (s.toVir b.addr) = .ret () m' := by
    rw [hl.shfree_eq hp, hn]
    exact hfree
  have hstep : Smm.step s (fuel + 1) st (.free b.addr) =
      .ret 0 ⟨{ st.heaps with mem := m' }, st.live.filter fun b' => b'.addr ≠ b.addr⟩ := by
    rw [Smm.step, free_eq hslot hp.data, hshfree]
    rfl
  obtain ⟨nodes', top', hl'⟩ := hl.shfree hb hshfree
  have hlive : ∀ b', b' ∈ (st.live.filter fun b' => b'.addr ≠ b.addr) ↔ b' ∈ bs := by
    intro b'
    rw [List.mem_filter, hmem, List.mem_cons]
    constructor
    · rintro ⟨rfl | hb', hne⟩
      · simp at hne
      · exact hb'
    · intro hb'
      obtain ⟨q, hq, haddr', _⟩ := hrest.block hb'
      refine ⟨.inr hb', decide_eq_true fun he => ?_⟩
      rw [haddr, haddr'] at he
      simp only [page] at he
      omega
  have hother : ∀ q, h.firstPage + done + n ≤ q → (h.view m').pte q = (h.view st.heaps.mem).pte q := by
    intro q hq
    have h2 := h.two_le_firstPage
    rw [hafter.other q (by omega) (by omega), hpte]
  have hbreak : (h.view m').hw 45 = (h.view st.heaps.mem).hw 45 → top' = top := by
    intro h45
    rw [hl'.brk, hl.brk] at h45
    omega
  rw [Nat.add_assoc] at hrest
  refine ⟨_, n, ⟨b, hb, rfl⟩, hstep, hpos, fun hne => ?_, fun hnil => ?_⟩
  · obtain ⟨b', hb'⟩ := List.exists_mem_of_ne_nil bs hne
    obtain ⟨q, hq, _, _, hqpos, hqend⟩ := hrest.block hb'
    rcases hafter.list with ⟨hone, h45⟩ | ⟨htop, _⟩
    · have htop := hbreak (h45.trans (hhw 45 (by omega)))
      rw [htop] at hl'
      exact ⟨hslot, ⟨nodes', hl'⟩, .inr ⟨by omega, hone, hafter.hint⟩,
        hrest.congr fun q hq _ => hother q (by omega), hlive⟩
    · omega
  · subst hnil
    have hnone : (st.live.filter fun b' => b'.addr ≠ b.addr) = [] :=
      List.eq_nil_iff_forall_not_mem.mpr fun b' hb' => absurd ((hlive b').mp hb') List.not_mem_nil
    have hend : h.firstPage + (done + n) = top := hrest
    rw [hnone] at hl'
    refine ⟨hend, hslot, hnone, hafter.hint, hafter.count, hafter.next, nodes', top', hl', ?_⟩
    rcases hafter.list with ⟨hone, h45⟩ | ⟨_, hzero⟩
    · exact .inl ⟨hone.next0, by rw [hbreak (h45.trans (hhw 45 (by omega))), hend]⟩
    · exact .inr hzero

theorem Sweeping.run (fuel : Nat) : ∀ {bs : List Block} {st : Clients} {done : Nat}, bs ≠ [] →
    h.Sweeping st done top bs → ∃ st', Run (Smm.step s (fuel + 1)) LiveCall st (bs.map fun b => .free b.addr) st' ∧
      h.Emptied st' (top - h.firstPage) := by
  intro bs
  induction bs with
  | nil => exact fun hne => absurd rfl hne
  | cons b bs ih =>
    intro st done _ hw
    obtain ⟨st₁, n, hcall, hstep, hpos, hgo, hend⟩ := hw.step fuel
    by_cases hnil : bs = []
    · obtain ⟨htop, hempty⟩ := hend hnil
      subst hnil
      refine ⟨st₁, .cons hcall hstep .nil, ?_⟩
      rwa [show top - h.firstPage = done + n by omega]
    · obtain ⟨st', hrun, hempty⟩ := ih hnil (hgo hnil)
      exact ⟨st', .cons hcall hstep hrun, hempty⟩

theorem findRun_astray {needed start : Nat} (hzero : (h.view m).pte 0 0 < needed) (hloop : (h.view m).pte 0 1 = 0)
    (hstart : start ≠ 0) (fuel : Nat) : findRun m (h.vir + 4096) needed start fuel 0 = none := by
  have hpc := h.pageCount_pos
  induction fuel with
  | zero => rfl
  | succ f ih =>
    rw [findRun, h.ld_pte m hpc (by omega), if_neg (by omega), h.ld_pte m hpc (by omega), hloop, if_pos hstart]
    exact ih

theorem Emptied.succeeds_iff {c : Nat} (he : h.Emptied st c) (hc : 0 < c) (hle : c ≤ h.dataPages) :
    Succeeds s (fuel + 2) st.heaps (4096 * h.dataPages) ↔ c = h.dataPages := by
  obtain ⟨hslot, hlive, hhint, hcount, hnext, nodes, top, hl, hlist⟩ := he
  have hsize := h.size_le
  have h2 := h.two_le_firstPage
  have hpc := h.pageCount_pos
  have hroom : 4096 * (h.dataPages + h.firstPage) ≤ h.size := by
    rw [dataPages] at hle ⊢
    omega
  have htop : 4096 * top ≤ h.size := by
    rcases hl.top with ⟨_, ht⟩ | ⟨_, _, hs⟩ <;> omega
  have hflt : h.firstPage < h.pageCount := by
    simp only [pageCount]
    omega
  have hceil : (4096 * h.dataPages + 4095) / 4096 = h.dataPages := by omega
  rw [hl.succeeds_iff hslot (by omega), hceil, Loose.Serves, hhint, findRun,
    h.ld_pte _ hflt (by omega), h.ld_pte _ hflt (by omega), hcount, hnext]
  constructor
  · rintro ⟨_, found, hfind, hpages⟩
    by_contra hne
    rw [if_neg (by omega), if_pos (by omega)] at hfind
    have hzero := hl.sentinel
    rcases hlist with ⟨hfirst, rfl⟩ | hloop
    · -- the walk comes back, and the pages behind the break are too few
      cases fuel with
      | zero => cases hfind
      | succ f =>
        rw [findRun, h.ld_pte _ hpc (by omega), if_neg (by omega), h.ld_pte _ hpc (by omega), hfirst,
          if_neg (by simp)] at hfind
        have hbehind := hpages (Option.some.inj hfind).symm
        rw [dataPages] at *
        omega
    · rw [findRun_astray (by omega) hloop (by omega)] at hfind
      cases hfind
  · intro hall
    rw [if_pos (by omega)]
    exact ⟨by omega, _, rfl, by simp⟩

theorem Emptied.draining {c : Nat} (he : h.Emptied st c) : h.Draining st := by
  obtain ⟨hslot, hlive, _, _, _, nodes, top, hl, _⟩ := he
  refine ⟨hslot, ?_, nodes, top, ?_⟩
  · rw [hlive]
    exact List.nodup_nil
  · rw [hlive]
    exact hl

theorem Filled.restored (hbase : (base + 4095) % 2 ^ 32 / 4096 * 4096 = h.vir) (hf : h.Filled st)
    (hnone : st.live = []) (fuel : Nat) : h.Restored (fuel + 2) base st := by
  obtain ⟨hslot, top, hc⟩ := hf
  rw [hnone] at hc
  obtain rfl : h.firstPage = top := hc.packed
  intro size hfit hsize
  rw [(claimed_start hbase).succeeds_iff (slot_start hbase) hfit] at hsize
  rwa [hc.succeeds_iff hslot hfit]

/-- Requests for more than 2048 bytes, and then a free of every block: the heap serves what a new heap serves if and
only if no block was handed out or it serves a request for all its pages; in the order of allocation, if and only if
none was or the blocks took up all pages. -/
theorem restored_iff {base fuel : Nat} {ops : List Op} {st₁ : Clients}
    (hbase : (base + 4095) % 2 ^ 32 / 4096 * 4096 = h.vir) (hfuel : 1 < fuel)
    (hrun : Run (Smm.step s fuel) h.Claims (start s base h.size) ops st₁) :
    (∀ (order : List Nat) (st₂ : Clients), order.Perm (st₁.live.map Block.addr) →
      Run (Smm.step s fuel) LiveCall st₁ (order.map .free) st₂ →
      (h.Restored fuel base st₂ ↔ st₁.live = [] ∨ Succeeds s fuel st₂.heaps (4096 * h.dataPages))) ∧
    ∃ st₂, Run (Smm.step s fuel) LiveCall st₁ (st₁.live.reverse.map fun b => .free b.addr) st₂ ∧
      (h.Restored fuel base st₂ ↔ st₁.live = [] ∨
        (st₁.live.map fun b => h.blockBytes (h.view st₁.heaps.mem) b.addr).sum = 4096 * h.dataPages) := by
  obtain ⟨f, rfl⟩ := Nat.exists_eq_add_of_lt hfuel
  rw [show 1 + f + 1 = f + 2 by omega] at *
  have hf : h.Filled st₁ := hrun.inv (fun _ _ _ _ hi hok hs => Filled.step hi hok hs)
    ⟨slot_start hbase, h.firstPage, claimed_start hbase⟩
  obtain ⟨hslot, top, hc⟩ := id hf
  by_cases hnone : st₁.live = []
  · have hnew := hf.restored hbase hnone f
    refine ⟨fun order st₂ hperm hfrees => ?_, st₁, ?_, iff_of_true hnew (.inl hnone)⟩
    · rw [hnone] at hperm
      obtain rfl := hperm.eq_nil
      cases hfrees
      exact iff_of_true hnew (.inl hnone)
    · rw [hnone]
      exact .nil
  · have htop := hc.top_le hnone
    have hpages : 0 < top - h.firstPage ∧ top - h.firstPage ≤ h.dataPages := by
      rw [dataPages]
      omega
    refine ⟨fun order st₂ hperm hfrees => ?_, ?_⟩
    · obtain ⟨hd, hlive⟩ := hf.draining.run hfrees
      have hempty : st₂.live = [] := by
        rw [hlive, List.filter_eq_nil_iff]
        intro b hb
        have hin := hperm.mem_iff.mpr (List.mem_map_of_mem (f := Block.addr) hb)
        simpa using hin
      rw [hd.serves_again_iff hbase hempty (by omega), or_iff_right hnone]
    · obtain ⟨st₂, hfrees, hempty⟩ := Sweeping.run (f + 1) (by simpa using hnone) (Filled.sweeping hslot hc)
      refine ⟨st₂, hfrees, ?_⟩
      rw [hempty.draining.serves_again_iff hbase hempty.live (by omega), hempty.succeeds_iff hpages.1 hpages.2,
        or_iff_right hnone]
      have hbytes := hc.packed.bytes
      rw [List.map_reverse, List.sum_reverse] at hbytes
      omega

end Place

theorem restored_iff_halves : ∃ st₁ st₂, Run (step lowMemory 100) lowHeap.Claims (start lowMemory 4096 131072)
        [.malloc 61440, .malloc 61440] st₁ ∧
      Run (step lowMemory 100) LiveCall st₁ (st₁.live.reverse.map fun b => .free b.addr) st₂ ∧
      lowHeap.Restored 100 4096 st₂ := by
  have hrun : ∃ st₁, Run (step lowMemory 100) lowHeap.Claims (start lowMemory 4096 131072)
      [.malloc 61440, .malloc 61440] st₁ ∧
      (st₁.live.map fun b => lowHeap.blockBytes (lowHeap.view st₁.heaps.mem) b.addr).sum =
        4096 * lowHeap.dataPages :=
    Run.exists_of_exec (by decide +kernel)
  obtain ⟨st₁, hrun, hbytes⟩ := hrun
  obtain ⟨st₂, hfrees, hiff⟩ := (Place.restored_iff (h := lowHeap) (by decide) (by decide) hrun).2
  exact ⟨st₁, st₂, hrun, hfrees, hiff.mpr (.inr hbytes)⟩

theorem pages_not_restored : Succeeds lowMemory 100 (start lowMemory 4096 131072).heaps 122880 ∧
    (∃ st, Run (step lowMemory 100) LiveCall (start lowMemory 4096 131072) [.malloc 4096, .free 12288] st ∧
      st.live.length = 0 ∧ ¬ Succeeds lowMemory 100 st.heaps 122880) ∧
    ∃ st, Run (step lowMemory 100) LiveCall (start lowMemory 4096 131072)
        [.malloc 61440, .malloc 61440, .free 73728, .free 12288] st ∧
      st.live.length = 0 ∧ ¬ Succeeds lowMemory 100 st.heaps 122880 :=
  ⟨by decide +kernel, Run.exists_of_exec (by decide +kernel), Run.exists_of_exec (by decide +kernel)⟩

end H713.Smm
