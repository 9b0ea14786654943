import H713.Smm.Malloc

/-!
# Smm.Free

`Trid_SMM_Free` on a heap in order. The large path looks up the run in front of the freed pages through the wrong
link, which is the right one with at most one free run.
-/

namespace H713.Smm

open Function
open Dll

namespace View

def insertRun (v : View) (p n x : Nat) : View :=
  (((((v.setPte p 0 n).setPte p 1 (v.pte x 1)).setPte p 2 x).setPte x 1 p).setPte (v.pte x 1) 2 p).setHw 43
    ((v.hw 43 + 1) % 2 ^ 32)

def mergeRun (v : View) (p f : Nat) : View :=
  (((v.setPte p 0 (v.pte p 0 + v.pte f 0)).setPte p 1 (v.pte f 1)).setPte (v.pte f 1) 2 p).setHw 43
    (sub32 (v.hw 43) 1)

end View

namespace Place

variable {s : Shm} {h : Place s} {v : View} {m : Mem} {g g' : Ghost} {p c n : Nat}

def Idle : Tag → Prop
  | .none | .free _ => True
  | .large _ | .small _ => False

structure Dropped (g g' : Ghost) (p : Nat) : Prop where
  blocks : g'.blocks = g.blocks
  small : ∀ q c, g.tag q = .small c → g'.tag q = .small c
  large : ∀ q k, g'.tag q = .large k ↔ q ≠ p ∧ g.tag q = .large k

theorem Dropped.first {t : Tag} (l : List Nat) (hp : g.tag p = .large n) (ht : Idle t) :
    Dropped g { g with tag := update g.tag p t, runs := l } p := by
  refine ⟨rfl, fun q c hq => ?_, fun q k => ?_⟩
  · simp only
    rw [update_of_ne, hq]
    rintro rfl
    rw [hp] at hq
    cases hq
  · by_cases hq : q = p
    · subst hq
      simp only [update_self, ne_eq, not_true_eq_false, false_and, iff_false]
      rintro rfl
      exact ht
    · simp only [update_of_ne hq, ne_eq, hq, not_false_eq_true, true_and]

theorem Dropped.next {t : Tag} {r : Nat} (l : List Nat) (hd : Dropped g g' p) (hr : Idle (g'.tag r))
    (ht : Idle t) : Dropped g { g' with tag := update g'.tag r t, runs := l } p := by
  refine ⟨hd.blocks, fun q c hq => ?_, fun q k => ?_⟩
  · have hq' := hd.small q c hq
    simp only
    rw [update_of_ne, hq']
    rintro rfl
    rw [hq'] at hr
    exact hr
  · rw [← hd.large]
    by_cases hq : q = r
    · subst hq
      simp only [update_self]
      refine ⟨?_, fun hq => ?_⟩
      · rintro rfl
        exact ht.elim
      · rw [hq] at hr
        exact hr.elim
    · simp only [update_of_ne hq]

variable {x B N f k fuel a b : Nat} {u : Unit} {m' : Mem}

theorem view_joinPrev (hp : p < h.pageCount) (hx : x < h.pageCount) (hnext : (h.view m).pte x 1 < h.pageCount)
    (hsym : (h.view m).pte x 2 = (h.view m).pte x 1) (hpx : p ≠ x)
    (hn : n < 2 ^ 32) (hne : p ≠ (x + (h.view m).pte x 0) % 2 ^ 32) :
    (joinPrev h.vir m (h.vir + 4096) p n x).1 = p ∧
      h.view (joinPrev h.vir m (h.vir + 4096) p n x).2 = (h.view m).insertRun p n x := by
  have hpc := h.pageCount_lt
  have hxp := hpx.symm
  simp only [joinPrev]
  rw [h.ld_pte m hx (by omega), if_neg hne]
  refine ⟨rfl, ?_⟩
  simp (disch := omega) only [View.insertRun, Smm.addWord, h.ld_pte, h.word_eq, h.view_st_pte, h.view_setWord,
    View.pte_setPte, View.hw_setPte, hsym, hxp, false_and, true_and, Nat.reduceEqDiff, if_false]

theorem Core.joinPrev_insert (hc : h.Core (h.view m) g) (hp : g.tag p = .large n) (hx : x ∈ 0 :: g.runs)
    (hsym : (h.view m).pte x 2 = (h.view m).pte x 1) (hne : p ≠ (x + (h.view m).pte x 0) % 2 ^ 32) :
    ∃ l, (∀ q, q ∈ l ↔ q = p ∨ q ∈ g.runs) ∧ (joinPrev h.vir m (h.vir + 4096) p n x).1 = p ∧
      h.view (joinPrev h.vir m (h.vir + 4096) p n x).2 = (h.view m).insertRun p n x ∧
      h.Core ((h.view m).insertRun p n x)
        { g with tag := update g.tag p (.free n), runs := l } := by
  have hat := hc.starts_large hp
  have hnlt : n < 2 ^ 32 := Nat.lt_of_le_of_lt (Nat.le_add_left n p) hat.len_lt
  have hnew : p ∉ 0 :: g.runs := hc.not_run hat.some (by simp [hp])
  have hpx : p ≠ x := fun heq => hnew (heq ▸ hx)
  obtain ⟨l, hring, hl⟩ := hc.ring.insert_after hx hnew
  obtain ⟨hfst, hview⟩ := view_joinPrev hat.lt (hc.run_lt hx) (hc.run_lt (hc.ring.next_mem hx)) hsym hpx hnlt hne
  refine ⟨l, hl, hfst, hview, ?_⟩
  rw [View.insertRun]
  refine hc.retag [p] rfl (fun k _ hk => ?_) (hc.spans.retag hat.some hat.pos (by rw [hp]; exact le_rfl))
    ?_ ?_ (fun q hq => ?_) (hring.congr (fun q _ => ?_) (fun q _ => ?_)) ?_
  · simp only [Counter] at hk
    simp only [View.hw_setHw, View.hw_setPte]
    rw [if_neg (by omega)]
  · simp [hp, hat.ne_zero]
  · simp [Tag.Entry, hl]
  · rw [List.mem_singleton] at hq
    refine ⟨update_of_ne hq .., by simp [hl, hq], by simp [hq], fun hrun => ?_⟩
    have hqx : q ≠ x := fun he => hrun (he ▸ hx)
    simp [hq, hqx]
  · simp [update_apply]
  · simp [update_apply]
  · simp only [View.hw_setHw, View.hw_setPte, Nat.reduceEqDiff, if_false]
    rcases List.mem_cons.mp hc.hint with h0 | hmem
    · rw [h0]
      exact List.mem_cons_self
    · exact List.mem_cons_of_mem 0 ((hl _).mpr (.inr hmem))

theorem Core.counts_insert (hc : h.Core v g) (hp : g.tag p = .large n) (l : List Nat)
    (hcount : Counts v N B (h.chunks g) (h.freeBytes g + 4096 * n)) :
    Counts (v.insertRun p n x) N B (h.chunks { g with tag := update g.tag p (.free n), runs := l })
      (h.freeBytes { g with tag := update g.tag p (.free n), runs := l }) := by
  have hat := hc.starts_large hp
  have hruns := h.tagSum_update hat.lt Tag.runs g.tag (.free n)
  have hpages := h.tagSum_update hat.lt Tag.freePages g.tag (.free n)
  obtain ⟨h41, h42, h43, h44⟩ := hcount
  simp only [hp, Tag.runs, Tag.freePages] at hruns hpages
  simp only [chunks, freeBytes] at h43 h44 ⊢
  refine ⟨?_, ?_, ?_, ?_⟩ <;> simp [View.insertRun] <;> omega

theorem Core.joinPrev_merge (hc : h.Core (h.view m) g) (hp : g.tag p = .large n) (hf : g.tag f = .free k)
    (hfp : p = f + k) : joinPrev h.vir m (h.vir + 4096) p n f = (f, st m (pteAddr (h.vir + 4096) f 0) (k + n)) ∧
      h.Core (h.view (st m (pteAddr (h.vir + 4096) f 0) (k + n)))
        { g with tag := update (update g.tag p .none) f (.free (k + n)) } := by
  have hat := hc.starts_large hp
  have hfat := hc.starts_free hf
  have hlen := hat.len_lt
  have hflen := hfat.len_lt
  have hpos := hfat.pos
  have hpf : p ≠ f := by omega
  refine ⟨?_, ?_⟩
  · simp only [joinPrev]
    rw [h.ld_pte m hfat.lt (by omega), hc.free hf, Nat.mod_eq_of_lt hflen, if_pos hfp]
  rw [h.view_st_pte m hfat.lt (by omega) (by omega)]
  refine hc.retag [p, f] rfl (fun _ _ _ => rfl)
    (hc.spans.join hfat.some hat.some (by rw [hf]; exact hfp.symm) (by rw [hf, hp]; rfl))
    ?_ ?_ (fun q hq => ?_) (hc.ring.congr (fun q _ => by simp) (fun q _ => by simp)) hc.hint
  · simp [hp, hf, hat.ne_zero, hfat.ne_zero]
  · simp [Tag.Entry, hc.mem_runs, hp, hf, hpf]
  · simp only [List.mem_cons, List.not_mem_nil, or_false, not_or] at hq
    refine ⟨?_, Iff.rfl, by simp [hq.2], fun _ => by simp⟩
    rw [update_of_ne hq.2, update_of_ne hq.1]

theorem tagSum_join (F : Tag → Nat) (hpf : p ≠ f) (hp : p < h.pageCount) (hf : f < h.pageCount)
    (hnone : F .none = 0) : h.tagSum F (update (update g.tag p .none) f (.free k)) + F (g.tag p) + F (g.tag f) =
      h.tagSum F g.tag + F (.free k) := by
  have h1 := h.tagSum_update hp F g.tag .none
  have h2 := h.tagSum_update hf F (update g.tag p .none) (.free k)
  rw [update_of_ne hpf.symm] at h2
  omega

theorem Core.counts_front (hc : h.Core v g) (hp : g.tag p = .large n) (hf : g.tag f = .free k)
    (hcount : Counts v N B (h.chunks g) (h.freeBytes g + 4096 * n)) : Counts (v.setPte f 0 (k + n)) N B
      (h.chunks { g with tag := update (update g.tag p .none) f (.free (k + n)) })
      (h.freeBytes { g with tag := update (update g.tag p .none) f (.free (k + n)) }) := by
  have hpf : p ≠ f := by
    rintro rfl
    rw [hp] at hf
    cases hf
  have hplt := (hc.starts_large hp).lt
  have hflt := (hc.starts_free hf).lt
  have hruns := tagSum_join (h := h) (g := g) (k := k + n) Tag.runs hpf hplt hflt rfl
  have hpages := tagSum_join (h := h) (g := g) (k := k + n) Tag.freePages hpf hplt hflt rfl
  obtain ⟨h41, h42, h43, h44⟩ := hcount
  simp only [hp, hf, Tag.runs, Tag.freePages] at hruns hpages
  simp only [chunks, freeBytes] at h43 h44 ⊢
  refine ⟨h41, h42, ?_, ?_⟩ <;> simp <;> omega

theorem Core.joinNext_merge (hc : h.Core (h.view m) g) (hp : g.tag p = .free n) (hf : g.tag f = .free k)
    (hpf : p + n = f) (hprev : (h.view m).pte f 2 = p) (hhint : (h.view m).hw 3 ≠ f) :
    ∃ l, (∀ q, q ∈ l ↔ q ∈ g.runs ∧ q ≠ f) ∧
      h.view (joinNext h.vir m (h.vir + 4096) p f) = (h.view m).mergeRun p f ∧ h.Core ((h.view m).mergeRun p f)
        { g with tag := update (update g.tag f .none) p (.free (n + k)), runs := l } := by
  have hat := hc.starts_free hp
  have hfat := hc.runAt hf
  have hlen := hfat.len_lt
  have hplt := hat.lt
  have hflt := hfat.lt
  have hnextlt := hfat.next_lt
  have hpos := hat.pos
  have hfp : f ≠ p := by omega
  have hpc := h.pageCount_lt
  have hp0 := hc.free hp
  have hf0 := hc.free hf
  obtain ⟨l, hring, hl⟩ := hc.ring.remove hfat.mem
  have hview : h.view (joinNext h.vir m (h.vir + 4096) p f) = (h.view m).mergeRun p f := by
    have hcond : (p + ld m (pteAddr (h.vir + 4096) p 0)) % 2 ^ 32 = f := by
      rw [h.ld_pte m hplt (by omega), hp0, Nat.mod_eq_of_lt (by omega), hpf]
    simp only [joinNext]
    rw [if_pos hcond]
    simp (disch := omega) only [View.mergeRun, Smm.subWord, h.ld_pte, h.word_eq, h.view_st_pte,
      h.view_setWord, View.pte_setPte, View.hw_setPte, hp0, hf0, hfp, false_and, if_false, sub32_mod]
  refine ⟨l, hl, hview, ?_⟩
  rw [View.mergeRun, hp0, hf0]
  refine hc.retag [p, f] rfl (fun i _ hi => ?_)
    (hc.spans.join hat.some hfat.some (by rw [hp]; exact hpf) (by rw [hf, hp]; rfl))
    ?_ ?_ (fun q hq => ?_) (hring.congr (fun q _ => ?_) (fun q _ => ?_)) ?_
  · simp only [Counter] at hi
    simp only [View.hw_setHw, View.hw_setPte]
    rw [if_neg (by omega)]
  · simp [hp, hf, hat.ne_zero, hfat.ne_zero]
  · simp [Tag.Entry, hl, hc.mem_runs, hp, hfp, hfp.symm]
  · simp only [List.mem_cons, List.not_mem_nil, or_false, not_or] at hq
    refine ⟨?_, by simp [hl, hq.2], by simp [hq.1], fun _ => by simp [hq.1]⟩
    rw [update_of_ne hq.1, update_of_ne hq.2]
  · simp [update_apply, hprev]
  · simp [update_apply, hprev]
  · simp only [View.hw_setHw, View.hw_setPte, Nat.reduceEqDiff, if_false]
    rcases List.mem_cons.mp hc.hint with h0 | hmem
    · rw [h0]
      exact List.mem_cons_self
    · exact List.mem_cons_of_mem 0 ((hl _).mpr ⟨hmem, hhint⟩)

theorem Core.counts_merge (hc : h.Core v g) (hp : g.tag p = .free n) (l : List Nat) (hf : g.tag f = .free k)
    (hfp : f ≠ p) (hcount : Counts v N B (h.chunks g) (h.freeBytes g)) : Counts (v.mergeRun p f) N B
      (h.chunks { g with tag := update (update g.tag f .none) p (.free (n + k)), runs := l })
      (h.freeBytes
        { g with tag := update (update g.tag f .none) p (.free (n + k)), runs := l }) := by
  have hplt := (hc.starts_free hp).lt
  have hflt := (hc.starts_free hf).lt
  have hruns := tagSum_join (h := h) (g := g) (k := n + k) Tag.runs hfp hflt hplt rfl
  have hpages := tagSum_join (h := h) (g := g) (k := n + k) Tag.freePages hfp hflt hplt rfl
  obtain ⟨h41, h42, h43, h44⟩ := hcount
  simp only [hp, hf, Tag.runs, Tag.freePages] at hruns hpages
  simp only [chunks, freeBytes] at h43 h44 ⊢
  refine ⟨?_, ?_, ?_, ?_⟩ <;> simp [View.mergeRun] <;> simp only [h41, h42, h43, h44, sub32] <;> omega

theorem Core.joinNext_skip (hc : h.Core (h.view m) g) (hp : g.tag p = .free n) (hne : p + n ≠ f) :
    joinNext h.vir m (h.vir + 4096) p f = m := by
  have hat := hc.starts_free hp
  have hcond : (p + ld m (pteAddr (h.vir + 4096) p 0)) % 2 ^ 32 = p + n := by
    rw [h.ld_pte m hat.lt (by omega), hc.free hp, Nat.mod_eq_of_lt hat.len_lt]
  simp only [joinNext]
  rw [hcond, if_neg hne]

theorem Core.keep_run (hc : h.Core (h.view m) g) (hp : g.tag p = .free n) (hkeep : n ≤ 7 ∨ p + n ≠ g.top) :
    h.view (Smm.setWord h.vir (trim s h.vir m (h.vir + 4096) p) 3 p) = (h.view m).setHw 3 p ∧
      h.Core ((h.view m).setHw 3 p) g := by
  have hat := hc.starts_free hp
  have hplt := hat.lt
  have hpc := h.pageCount_lt
  have htrim : trim s h.vir m (h.vir + 4096) p = m := by
    simp only [trim]
    rw [h.ld_pte m hplt (by omega), hc.free hp, h.word_eq m (by omega), (hc.top_of_tag hat.some).1,
      Nat.mod_eq_of_lt hat.len_lt, if_neg (by omega)]
  refine ⟨by rw [htrim, h.view_setWord m _ (by omega), Nat.mod_eq_of_lt (by omega)], ?_⟩
  refine hc.change rfl (fun k h3 _ => ?_) hc.spans hc.entry (fun _ _ hq => hq) hc.sentinel hc.ring
    hc.mem_runs ?_
  · rw [View.hw_setHw, if_neg h3]
  · rw [View.hw_setHw, if_pos rfl]
    exact List.mem_cons_of_mem 0 ((hc.mem_runs p).mpr ⟨n, hp⟩)

theorem Core.searchPlace_spec (hc : h.Core (h.view m) g) (hp : p ∉ 0 :: g.runs) {cur : Nat}
    (hone : (h.view m).pte ((h.view m).pte 0 1) 1 = 0)
    (hs : searchPlace m (h.vir + 4096) p ((h.view m).hw 3) fuel = some cur) :
    cur = 0 ∧ ((h.view m).hw 3 = 0 → (h.view m).pte 0 1 < p) ∨
      cur ∈ g.runs ∧ cur = (h.view m).pte 0 1 ∧ p < cur ∧ (h.view m).hw 3 = 0 := by
  obtain ⟨hruns, hsym⟩ := hc.ring.of_next_next hone
  have h0 : (h.view m).pte 0 2 = (h.view m).pte 0 1 := hsym 0 List.mem_cons_self
  have hnext := hc.ring.next_mem (show (0 : Nat) ∈ 0 :: g.runs from List.mem_cons_self)
  have hflt := hc.run_lt hnext
  have hback := hsym _ hnext
  have hzero := h.pageCount_pos
  have hhint := hc.hint
  have hp0 : p ≠ 0 := fun heq => hp (heq ▸ List.mem_cons_self)
  generalize hf : (h.view m).pte 0 1 = f at *
  simp only [hone] at hruns hback hnext
  have hforward : ∀ k, walkForward m (h.vir + 4096) p k f = some cur → cur = 0 := by
    intro k hk
    cases k with
    | zero => cases hk
    | succ k =>
      simp only [walkForward, h.ld_pte m hflt (show 1 < 3 by omega), hone, if_true] at hk
      cases hk
      rfl
  have hcase : (h.view m).hw 3 = 0 ∨ (h.view m).hw 3 = f := by
    rcases hruns with hruns | hruns
    · rw [hruns] at hhint
      exact .inl (by simpa using hhint)
    · rw [hruns] at hhint
      simpa using hhint
  simp only [searchPlace] at hs
  cases fuel with
  | zero =>
    simp only [walkForward, walkBackward] at hs
    split at hs <;> cases hs
  | succ k =>
    rcases hcase with hstart | hstart
    · rw [hstart, if_pos (Nat.zero_le p)] at hs
      simp only [walkForward, h.ld_pte m hzero (show 1 < 3 by omega), hf] at hs
      split at hs
      · rename_i h0
        cases hs
        exact .inl ⟨rfl, fun _ => by omega⟩
      · rename_i hne
        split at hs
        · rename_i hlt
          exact .inl ⟨hforward k hs, fun _ => hlt⟩
        · cases hs
          have hmem := (List.mem_cons.mp hnext).resolve_left hne
          have hpf : p ≠ cur := fun heq => hp (heq ▸ List.mem_cons_of_mem 0 hmem)
          exact .inr ⟨hmem, rfl, by omega, hstart⟩
    · have hhint0 : (h.view m).hw 3 = 0 → f < p := fun h3 => by omega
      rw [hstart] at hs
      split at hs
      · exact .inl ⟨hforward _ hs, hhint0⟩
      · -- back from the run to the sentinel, and from there to what follows the run
        simp only [walkBackward, h.ld_pte m hflt (show 2 < 3 by omega), hback, Nat.not_lt_zero, if_false,
          Option.map_some, h.ld_pte m hzero (show 2 < 3 by omega), h0,
          h.ld_pte m hflt (show 1 < 3 by omega), hone] at hs
        cases hs
        exact .inl ⟨rfl, hhint0⟩

def joined (h : Place s) (m : Mem) (p n prev cur : Nat) : Mem :=
  let r := joinPrev h.vir m (h.vir + 4096) p n prev
  Smm.setWord h.vir (trim s h.vir (joinNext h.vir r.2 (h.vir + 4096) r.1 cur) (h.vir + 4096) r.1) 3 r.1

def Repaid (h : Place s) (v v' : View) (g g' : Ghost) (n : Nat) : Prop :=
  ∀ N B, Counts v N B (h.chunks g) (h.freeBytes g + 4096 * n) → h.Booked v' g' N B

theorem Booked.setHint (hb : h.Booked v g N B) (x : Nat) : h.Booked (v.setHw 3 x) g N B where
  counts := hb.counts.congr fun i h41 _ => by rw [View.hw_setHw, if_neg (by omega)]
  ordered := hb.ordered

section

variable (hc : h.Core (h.view m) g)

include hc

section

variable (hp : g.tag p = .large n)

include hp

theorem Core.joined_front (hf : g.tag f = .free k) (hfp : p = f + k) (hkeep : k + n ≤ 7 ∨ f + (k + n) ≠ g.top)
    (hlast : ∀ q ∈ g.runs, (h.view m).pte q 1 = 0) :
    ∃ g', h.Core (h.view (h.joined m p n f 0)) g' ∧ Dropped g g' p ∧
      h.Repaid (h.view m) (h.view (h.joined m p n f 0)) g g' n := by
  have hat := hc.starts_large hp
  have hlen := hat.len_lt
  have hfat := hc.starts_free hf
  have hf0 := hfat.ne_zero
  obtain ⟨hjoin, hcore⟩ := hc.joinPrev_merge hp hf hfp
  have htag : update (update g.tag p .none) f (.free (k + n)) f = .free (k + n) :=
    update_self ..
  have hidle : Idle (update g.tag p .none f) := by
    rw [update_of_ne (by rintro rfl; rw [hp] at hf; cases hf), hf]
    trivial
  obtain ⟨hview, hcore'⟩ := hcore.keep_run htag hkeep
  simp only [joined, hjoin]
  rw [hcore.joinNext_skip htag (by omega), hview]
  refine ⟨_, hcore', (Dropped.first g.runs hp (t := .none) trivial).next g.runs hidle trivial,
    fun N B hcount => Booked.setHint ⟨?_, fun q hq => .inl ?_⟩ f⟩
  all_goals rw [h.view_st_pte m hfat.lt (by omega) (by omega)]
  · exact hc.counts_front hp hf hcount
  · simpa using hlast q hq

theorem Core.joined_behind (hf : f ∈ 0 :: g.runs) (hsym : (h.view m).pte f 2 = (h.view m).pte f 1)
    (hne : p ≠ (f + (h.view m).pte f 0) % 2 ^ 32) (hkeep : n ≤ 7 ∨ p + n ≠ g.top)
    (honly : ∀ q ∈ g.runs, q = f) (hone : (h.view m).pte f 1 = 0) :
    ∃ g', h.Core (h.view (h.joined m p n f 0)) g' ∧ Dropped g g' p ∧
      (f < p → h.Repaid (h.view m) (h.view (h.joined m p n f 0)) g g' n) := by
  have hat := hc.starts_large hp
  have hp0 := hat.ne_zero
  obtain ⟨l, hl, hfst, hview, hcore⟩ := hc.joinPrev_insert hp hf hsym hne
  have htag : update g.tag p (.free n) p = .free n := update_self ..
  rw [← hview] at hcore
  obtain ⟨hview', hcore'⟩ := hcore.keep_run htag hkeep
  simp only [joined, hfst]
  rw [hcore.joinNext_skip htag (by omega), hview']
  refine ⟨_, hcore', Dropped.first l hp trivial, fun hfp N B hcount => Booked.setHint ⟨?_, fun q hq => ?_⟩ p⟩
  all_goals rw [hview]
  · exact hc.counts_insert hp l hcount
  · rcases (hl q).mp hq with rfl | hq
    · exact .inl (by simp [View.insertRun, hone, hfp.ne'])
    · obtain rfl := honly q hq
      obtain ⟨k, hfree⟩ := (hc.mem_runs q).mp hq
      have hqat := hc.starts_free hfree
      have hap := hc.spans.apart q p hqat.some hat.some hfp
      rw [hfree] at hap
      simp only [Tag.len] at hap
      rw [hc.free hfree, Nat.mod_eq_of_lt hqat.len_lt] at hne
      exact .inr (by simp [View.insertRun, hfp.ne, hfree, Tag.len]; omega)

theorem Core.joined_before (hf : g.tag f = .free k) (hfirst : (h.view m).pte 0 1 = f)
    (hsym : (h.view m).pte 0 2 = f)
    (hpf : p < f) (hhint : (h.view m).hw 3 ≠ f) (hkeep : n + k ≤ 7 ∨ p + n ≠ g.top ∧ f + k ≠ g.top)
    (honly : ∀ q ∈ g.runs, q = f) (hone : (h.view m).pte f 1 = 0) :
    ∃ g', h.Core (h.view (h.joined m p n 0 f)) g' ∧ Dropped g g' p ∧
      h.Repaid (h.view m) (h.view (h.joined m p n 0 f)) g g' n := by
  have hat := hc.starts_large hp
  have hap := hc.spans.apart p f hat.some (hc.starts_free hf).some hpf
  rw [hp] at hap
  simp only [Tag.len] at hap
  have hp0 := hat.ne_zero
  obtain ⟨l, hl, hfst, hview, hcore⟩ := hc.joinPrev_insert hp List.mem_cons_self (hsym.trans hfirst.symm)
    (by rw [hc.sentinel]; omega)
  have hprev : ((h.view m).insertRun p n 0).pte f 2 = p := by simp [View.insertRun, hfirst]
  have hhint' : ((h.view m).insertRun p n 0).hw 3 ≠ f := by simpa [View.insertRun] using hhint
  have htag : update g.tag p (.free n) p = .free n := update_self ..
  have htagf : update g.tag p (.free n) f = .free k := by
    rw [update_of_ne hpf.ne', hf]
  have hdrop := Dropped.first (t := .free n) l hp trivial
  rw [← hview] at hcore hprev hhint'
  simp only [joined, hfst]
  by_cases hadj : p + n = f
  · obtain ⟨l', hl', hview', hcore'⟩ := hcore.joinNext_merge htag htagf hadj hprev hhint'
    rw [← hview'] at hcore'
    have htag' : update (update (update g.tag p (.free n)) f .none) p
        (.free (n + k)) p = .free (n + k) := update_self ..
    obtain ⟨hview'', hcore''⟩ := hcore'.keep_run htag' (by simp only; omega)
    rw [hview'']
    refine ⟨_, hcore'', ?_, fun N B hcount => Booked.setHint ⟨?_, fun q hq => .inl ?_⟩ p⟩
    · refine (hdrop.next (t := .none) l (by simp only [htagf]; trivial) trivial).next l' ?_ trivial
      simp only
      rw [update_of_ne hpf.ne, htag]
      trivial
    all_goals rw [hview']
    · refine hcore.counts_merge htag l' htagf hpf.ne' ?_
      rw [hview]
      exact hc.counts_insert hp l hcount
    · obtain ⟨hq, hqf⟩ := (hl' q).mp hq
      obtain rfl : q = p := ((hl q).mp hq).resolve_right fun hq => hqf (honly q hq)
      rw [hview]
      simp [View.mergeRun, View.insertRun, hone, hpf.ne', show f ≠ 0 by omega]
  · obtain ⟨hview', hcore'⟩ := hcore.keep_run htag (by simp only; omega)
    rw [hcore.joinNext_skip htag hadj, hview']
    refine ⟨_, hcore', hdrop, fun N B hcount => Booked.setHint ⟨?_, fun q hq => ?_⟩ p⟩
    all_goals rw [hview]
    · exact hc.counts_insert hp l hcount
    · rcases (hl q).mp hq with rfl | hq
      · exact .inr (by simp [View.insertRun, hfirst, hp0, Tag.len]; omega)
      · obtain rfl := honly q hq
        exact .inl (by simp [View.insertRun, hone, hpf.ne', show q ≠ 0 by omega])

theorem Core.joinRun {cur : Nat} (hf : (h.view m).pte 0 1 = f) (hk : (h.view m).pte f 0 = k)
    (hone : (h.view m).pte f 1 = 0) (hkeep : n + k ≤ 7 ∨ p + n ≠ g.top ∧ f + k ≠ g.top)
    (hs : searchPlace m (h.vir + 4096) p ((h.view m).hw 3) fuel = some cur) :
    ∃ g', h.Core (h.view (h.joined m p n ((h.view m).pte cur 1) cur)) g' ∧ Dropped g g' p ∧
      (f < p ∨ (h.view m).hw 3 = 0 →
        h.Repaid (h.view m) (h.view (h.joined m p n ((h.view m).pte cur 1) cur)) g g' n) := by
  have hat := hc.starts_large hp
  have hp0 := hat.ne_zero
  have hnew := hc.not_run hat.some (by simp [hp])
  have hnext := hc.ring.next_mem (show (0 : Nat) ∈ 0 :: g.runs from List.mem_cons_self)
  obtain ⟨hruns, hsym⟩ := hc.ring.of_next_next (by simp only [hf, hone])
  simp only [hf] at hnext hruns
  have honly : ∀ q ∈ g.runs, q = f := by
    intro q hq
    rcases hruns with hruns | hruns
    · rw [hruns] at hq
      cases hq
    · rw [hruns] at hq
      exact List.mem_singleton.mp hq
  rcases hc.searchPlace_spec hnew (by rw [hf]; exact hone) hs with ⟨rfl, hlow⟩ | ⟨hmem, rfl, hlt, hhint⟩
  · rw [hf] at hlow ⊢
    by_cases hmerge : f ∈ g.runs ∧ p = f + k
    · obtain ⟨hmem, hfk⟩ := hmerge
      obtain ⟨k', hfree⟩ := (hc.mem_runs f).mp hmem
      obtain rfl : k' = k := (hc.free hfree).symm.trans hk
      obtain ⟨g', hcore, hdrop, hpaid⟩ := hc.joined_front hp hfree hfk (by omega) fun q hq => by
        rw [honly q hq, hone]
      exact ⟨g', hcore, hdrop, fun _ => hpaid⟩
    · have hne : p ≠ (f + (h.view m).pte f 0) % 2 ^ 32 := by
        rcases List.mem_cons.mp hnext with h0 | hmem
        · rw [h0, hc.sentinel]
          omega
        · obtain ⟨k', hfree⟩ := (hc.mem_runs f).mp hmem
          have hflen := (hc.starts_free hfree).len_lt
          rw [← hc.free hfree, hk] at hflen
          rw [hk, Nat.mod_eq_of_lt hflen]
          exact fun heq => hmerge ⟨hmem, heq⟩
      obtain ⟨g', hcore, hdrop, hpaid⟩ := hc.joined_behind hp hnext (hsym f hnext) hne (by omega) honly hone
      exact ⟨g', hcore, hdrop, fun hside => hpaid (hside.elim id hlow)⟩
  · rw [hf] at hmem hlt ⊢
    rw [hone]
    obtain ⟨k', hfree⟩ := (hc.mem_runs f).mp hmem
    obtain rfl : k' = k := (hc.free hfree).symm.trans hk
    obtain ⟨g', hcore, hdrop, hpaid⟩ := hc.joined_before hp hfree hf
      ((hsym 0 List.mem_cons_self).trans hf) hlt (by omega) hkeep honly hone
    exact ⟨g', hcore, hdrop, fun _ => hpaid⟩

end

end

theorem counts_freed {K F : Nat} (hcount : Counts (h.view m) N (B + x) K F) :
    Counts (h.view (Smm.addWord h.vir (Smm.subWord h.vir m 42 x) 44 x)) N B K (F + x) := by
  obtain ⟨h41, h42, h43, h44⟩ := hcount
  refine ⟨?_, ?_, ?_, ?_⟩
  all_goals
    simp (disch := omega) only [hw_addWord, hw_subWord, Nat.reduceEqDiff, if_true, if_false]
  · exact h41
  · rw [h42, sub32]
    omega
  · exact h43
  · rw [h44]
    omega

theorem Core.freeRun_spec (hc : h.Core (h.view m) g) (hp : g.tag p = .large n) (hf : (h.view m).pte 0 1 = f)
    (hk : (h.view m).pte f 0 = k) (hone : (h.view m).pte f 1 = 0)
    (hkeep : n + k ≤ 7 ∨ p + n ≠ g.top ∧ f + k ≠ g.top)
    (hm : freeRun s h.vir fuel m (h.vir + 4096) p n = .ret u m') : ∃ g', h.Core (h.view m') g' ∧ Dropped g g' p ∧
      (f < p ∨ (h.view m).hw 3 = 0 → ∀ N B,
        Counts (h.view m) N (B + 4096 * n) (h.chunks g) (h.freeBytes g) → h.Booked (h.view m') g' N B) := by
  have hcore : h.Core (h.view (Smm.addWord h.vir (Smm.subWord h.vir m 42 (n * 4096)) 44 (n * 4096))) g :=
    (hc.subWord _ (by simp [Counter])).addWord _ (by simp [Counter])
  have hpte : (h.view (Smm.addWord h.vir (Smm.subWord h.vir m 42 (n * 4096)) 44 (n * 4096))).pte =
      (h.view m).pte := by
    simp only [Smm.addWord, Smm.subWord]
    rw [h.view_setWord _ _ (by omega), h.view_setWord _ _ (by omega), View.pte_setHw, View.pte_setHw]
  have hhint : (h.view (Smm.addWord h.vir (Smm.subWord h.vir m 42 (n * 4096)) 44 (n * 4096))).hw 3 =
      (h.view m).hw 3 := by
    rw [hw_addWord (by omega), if_neg (by omega), hw_subWord (by omega), if_neg (by omega)]
  have hcount : ∀ N B K F, Counts (h.view m) N (B + n * 4096) K F → _ := fun _ _ _ _ => counts_freed
  simp only [freeRun] at hm
  generalize Smm.addWord h.vir (Smm.subWord h.vir m 42 (n * 4096)) 44 (n * 4096) = m₁ at *
  rw [h.word_eq m₁ (by omega)] at hm
  split at hm
  · cases hm
  · rename_i cur hs
    have hcur : cur < h.pageCount := by
      have hnew := hc.not_run (hc.starts_large hp).some (by simp [hp])
      rcases hcore.searchPlace_spec hnew (by rw [hpte, hf]; exact hone) hs with ⟨rfl, _⟩ | ⟨hmem, _⟩
      · exact h.pageCount_pos
      · exact hcore.run_lt (List.mem_cons_of_mem 0 hmem)
    rw [h.ld_pte m₁ hcur (by omega)] at hm
    obtain ⟨_, rfl⟩ := Out.ret.inj hm
    obtain ⟨g', hcore', hdrop, hpaid⟩ := hcore.joinRun hp (by rw [hpte]; exact hf) (by rw [hpte]; exact hk)
      (by rw [hpte]; exact hone) hkeep hs
    rw [hhint] at hpaid
    refine ⟨g', hcore', hdrop, fun hside N B hb => hpaid hside N B ?_⟩
    rw [Nat.mul_comm] at hb ⊢
    exact hcount N B _ _ hb

theorem data_inside (ha : h.IsData a) : h.PointsInside a := by
  obtain ⟨h1, h2, h3⟩ := id ha
  have hve := h.vir_end
  have hva := h.vir_aligned
  have hpa := h.phy_aligned
  have hf := h.two_le_firstPage
  rw [PointsInside, h.toVir_data ha]
  omega

theorem view_links (hb : h.IsData b) (hb4 : h.IsData (b + 4)) (hc : c ≤ 12) :
    h.view (st (st m (s.toVir b) x) (s.toVir (b + 4)) (h.listHead c)) =
      ((h.view m).setDat b (x % 2 ^ 32)).setDat (b + 4) (h.listHead c) := by
  rw [h.view_st_dat _ hb4 (h.listHead_lt hc), ← st_mod m, h.view_st_dat m hb (Nat.mod_lt _ (by omega))]

section

variable (hc : h.Core (h.view m) g)

include hc

theorem Core.header_links (hb : h.IsData b) (hb4 : h.IsData (b + 4)) (h12 : c ≤ 12) :
    h.Header (h.view (st (st m (s.toVir b) x) (s.toVir (b + 4)) (h.listHead c))) g.top :=
  hc.toHeader.congr fun _ _ _ => by rw [view_links hb hb4 h12]; rfl

theorem Core.view_pushFree (hat : h.BlockAt g c b) (h4 : 4 ≤ c) (h11 : c ≤ 11) (p : Nat) :
    ∃ m₁ x y, h.view m₁ = (h.view m).push c (h.listHead c) b ∧ pushFree s h.vir m (h.vir + 4096) p c (s.toVir b) =
        st (st m₁ (pteAddr (h.vir + 4096) p 1) x) (pteAddr (h.vir + 4096) p 2) y := by
  obtain ⟨hb, hb4⟩ := hc.block_data hat
  simp only [pushFree, h.word_eq m (show 2 * c + 17 < 1024 by omega), h.toPhy_listHead (show c ≤ 12 by omega),
    h.smmVir2phy_toVir hb, h.toPhy_toVir hb, h.toVir_data_four hb hb4]
  refine ⟨_, _, _, ?_, rfl⟩
  have hblt : b % 2 ^ 32 = b := Nat.mod_eq_of_lt (by have := hb.2.1; have := h.phy_end; omega)
  by_cases hz : (h.view m).hw (2 * c + 17) = 0
  · rw [if_neg fun hold => hold.1 hz, h.view_setWord _ _ (by omega), view_links hb hb4 (by omega), hblt]
    simp only [View.push, hz, ne_eq, not_true_eq_false, if_false, Nat.zero_mod]
  · obtain ⟨ho, ho4⟩ := hc.head_data h4 h11 hz
    have holt : (h.view m).hw (2 * c + 17) % 2 ^ 32 = (h.view m).hw (2 * c + 17) :=
      Nat.mod_eq_of_lt (by have := ho.2.1; have := h.phy_end; omega)
    obtain ⟨hlow, hhigh, haligned⟩ := data_inside ho
    have hbounds := (hc.header_links (x := (h.view m).hw (2 * c + 17)) (c := c) hb hb4
      (by omega)).inBounds_iff (s.toVir ((h.view m).hw (2 * c + 17)))
    rw [if_pos ⟨hz, hbounds.mpr ⟨hlow, hhigh⟩, haligned⟩, h.toVir_data_four ho ho4,
      h.view_setWord _ _ (by omega), h.view_st_dat _ ho4 (by omega), view_links hb hb4 (by omega), hblt, holt]
    simp only [View.push, hz, ne_eq, not_false_eq_true, if_true]
    rfl

theorem Core.pushFree_spec (hat : h.BlockAt g c b) (hp : g.tag p = .small c) (hnew : b ∉ g.blocks c) (h11 : c ≤ 11) :
    h.Core (h.view (pushFree s h.vir m (h.vir + 4096) p c (s.toVir b)))
        { g with blocks := update g.blocks c (b :: g.blocks c) } ∧
      ∀ N B, Ordered (h.view m) g → Counts (h.view m) N B (h.chunks g + 1) (h.freeBytes g + 2 ^ c) →
        h.Booked (h.view (pushFree s h.vir m (h.vir + 4096) p c (s.toVir b)))
          { g with blocks := update g.blocks c (b :: g.blocks c) } N B := by
  have h4 := (hc.small hp).2.1
  have hsome : g.tag p ≠ .none := by rw [hp]; simp
  have hplt := hc.tag_lt hsome
  have hpush := hc.push h4 h11 hat hnew
  have hrun := hpush.not_run (p := p) hsome (by rw [hp]; simp)
  obtain ⟨m₁, x, y, hview, hm⟩ := hc.view_pushFree hat h4 h11 p
  rw [hm]
  rw [← hview] at hpush
  refine ⟨(hpush.st_counter x hplt (by omega) (by omega) hrun (by simp [hp])).st_counter y hplt
    (by omega) (by omega) hrun (by simp [hp]), fun N B ho hcount => ⟨?_, fun q hq => ?_⟩⟩
  · have hone := classSum_update h4 h11 (fun _ => 1) g.blocks (b :: g.blocks c)
    have hbytes := classSum_update h4 h11 (fun c => 2 ^ c) g.blocks (b :: g.blocks c)
    rw [List.length_cons] at hone hbytes
    rw [Nat.mul_succ] at hbytes
    have hsame : Counts (h.view (st (st m₁ (pteAddr (h.vir + 4096) p 1) x) (pteAddr (h.vir + 4096) p 2) y)) N B
        (h.chunks g + 1) (h.freeBytes g + 2 ^ c) := hcount.congr fun i h41 h44 => by
      rw [hw_st_pte hplt (by omega), hw_st_pte hplt (by omega), hview, View.hw_push, if_neg (by omega)]
    convert hsame using 1 <;> simp only [chunks, freeBytes] <;> omega
  · have hqp : q ≠ p := fun he => hrun (he ▸ List.mem_cons_of_mem 0 hq)
    rw [pte_st_pte hplt (by omega) hqp, pte_st_pte hplt (by omega) hqp, hview, View.pte_push]
    exact ho q hq

theorem Core.pushFree_counter (hat : h.BlockAt g 12 b) (hp : g.tag p = .small 12)
    (hbad : (h.view m).hw 41 = 0 ∨ ¬ h.PointsInside ((h.view m).hw 41)) :
    h.Core (h.view (pushFree s h.vir m (h.vir + 4096) p 12 (s.toVir b))) g := by
  obtain ⟨hb, hb4⟩ := hc.block_data hat
  have hsome : g.tag p ≠ .none := by rw [hp]; simp
  have hplt := hc.tag_lt hsome
  have hrun := hc.not_run (p := p) hsome (by rw [hp]; simp)
  have hused : ∀ d b', b' ∈ g.blocks d → b ≠ b' ∧ b ≠ b' + 4 ∧ b + 4 ≠ b' ∧ b + 4 ≠ b' + 4 := by
    intro d b' hb'
    obtain ⟨h11, hat'⟩ := hc.block d b' hb'
    have hne : b ≠ b' := by
      rintro rfl
      have := hc.class_unique hat hat'
      omega
    exact ⟨hne, hc.words_ne hat hat' hne⟩
  simp only [pushFree, h.word_eq m (show 2 * 12 + 17 < 1024 by omega), h.toPhy_listHead le_rfl,
    h.smmVir2phy_toVir hb, h.toPhy_toVir hb, h.toVir_data_four hb hb4]
  refine Core.st_counter (Core.st_counter ?_ _ hplt (by omega) (by omega) hrun (by simp [hp])) _ hplt
    (by omega) (by omega) hrun (by simp [hp])
  have hskip : ¬ ((h.view m).hw (2 * 12 + 17) ≠ 0 ∧
      InBounds s h.vir (st (st m (s.toVir b) ((h.view m).hw (2 * 12 + 17))) (s.toVir (b + 4)) (h.listHead 12))
        (s.toVir ((h.view m).hw (2 * 12 + 17))) ∧ s.toVir ((h.view m).hw (2 * 12 + 17)) % 4 = 0) := by
    rintro ⟨hz, hin, haligned⟩
    rw [(hc.header_links hb hb4 le_rfl).inBounds_iff] at hin
    rcases hbad with h0 | hbad
    · exact hz h0
    · exact hbad ⟨hin.1, hin.2, haligned⟩
  rw [if_neg hskip]
  refine Core.setWord ?_ _ (by simp [Counter])
  rw [view_links hb hb4 le_rfl]
  exact (hc.setDat_used _ fun d b' hb' => ⟨(hused d b' hb').1, (hused d b' hb').2.1⟩).setDat_used _
    fun d b' hb' => (hused d b' hb').2.2

end

def LargeFreeOk (v : View) (p : Nat) : Prop :=
  v.pte (v.pte 0 1) 1 = 0 ∧
    (v.pte p 1 + v.pte (v.pte 0 1) 0 ≤ 7 ∨
      p + v.pte p 1 ≠ v.hw 4 ∧ v.pte 0 1 + v.pte (v.pte 0 1) 0 ≠ v.hw 4)
deriving Decidable

def SmallFreeOk (h : Place s) (v : View) (p c : Nat) : Prop :=
  ¬ (v.pte p 1 = 4096 / 2 ^ c - 1 ∧ 1 < v.hw (2 * c + 5)) ∧
    (c = 12 → sub32 (v.hw 41) 1 = 0 ∨ ¬ h.PointsInside (sub32 (v.hw 41) 1))
deriving Decidable

def FreeOk (h : Place s) (v : View) (a : Nat) : Prop :=
  if v.pte ((a - h.phy) / 4096) 0 = 0 then LargeFreeOk v ((a - h.phy) / 4096)
  else h.SmallFreeOk v ((a - h.phy) / 4096) (v.pte ((a - h.phy) / 4096) 0)
deriving Decidable

def FreeTidy (h : Place s) (v : View) (a : Nat) : Prop :=
  if v.pte ((a - h.phy) / 4096) 0 = 0 then v.pte 0 1 < (a - h.phy) / 4096 ∨ v.hw 3 = 0
  else v.pte ((a - h.phy) / 4096) 0 ≠ 12
deriving Decidable

/-- The block at `a` has been taken back. -/
structure Released (h : Place s) (g g' : Ghost) (a : Nat) : Prop where
  keeps : ∀ x, h.Holds g x → x.addr ≠ a → h.Holds g' x
  large : ∀ p n, g'.tag p = .large n → g.tag p = .large n ∧ h.page p ≠ a

structure Refunded (h : Place s) (v v' : View) (g g' : Ghost) (a : Nat) : Prop where
  held : ∀ x, h.Holds g x → x.addr ≠ a → h.held g' x.addr = h.held g x.addr
  returned : h.Returned v v' g g' (h.held g a)

theorem LiveOk.released {live : List Block} (hl : h.LiveOk g live) (hr : Released h g g' a) :
    h.LiveOk g' (live.filter fun x => x.addr ≠ a) where
  holds := fun x hx => by
    obtain ⟨hx, hne⟩ := List.mem_filter.mp hx
    exact hr.keeps x (hl.holds x hx) (by simpa using hne)
  nodup := hl.nodup.sublist (List.filter_sublist.map _)
  large := fun p n hp => by
    obtain ⟨hp, hne⟩ := hr.large p n hp
    obtain ⟨x, hx, haddr, hbig⟩ := hl.large p n hp
    exact ⟨x, List.mem_filter.mpr ⟨hx, by simpa [haddr] using hne⟩, haddr, hbig⟩

theorem Accounts.refunded {v' : View} {live : List Block} {b : Block} (ha : h.Accounts v g live)
    (hl : h.LiveOk g live) (hb : b ∈ live) (hr : Refunded h v v' g g' b.addr) :
    h.Accounts v' g' (live.filter fun x => x.addr ≠ b.addr) := by
  have hperm := Sums.perm_of_key hl.nodup hb
  have hlen := hperm.length_eq
  have hsum := (hperm.map fun x => h.held g x.addr).sum_eq
  have hsame : ((live.filter fun x => x.addr ≠ b.addr).map fun x => h.held g' x.addr) =
      (live.filter fun x => x.addr ≠ b.addr).map fun x => h.held g x.addr := by
    refine List.map_congr_left fun x hx => ?_
    obtain ⟨hx, hne⟩ := List.mem_filter.mp hx
    exact hr.held x (hl.holds x hx) (by simpa using hne)
  simp only [Accounts] at ha ⊢
  rw [hsame]
  refine hr.returned _ _ ?_
  rw [hlen, hsum, List.length_cons, List.map_cons, List.sum_cons, Nat.add_comm (h.held g b.addr)] at ha
  exact ha

theorem Dropped.released (hd : Dropped g g' p) : Released h g g' (h.page p) where
  keeps := fun x hx hne => by
    cases hx with
    | large q k htag haddr hbig hsize =>
      refine .large q k ((hd.large q k).mpr ⟨?_, htag⟩) haddr hbig hsize
      rintro rfl
      exact hne haddr
    | small d hblock hsize hlive =>
      exact .small d (hblock.mono fun q => hd.small q d) hsize (by rw [hd.blocks]; exact hlive)
  large := fun q k hq => by
    obtain ⟨hqp, hq⟩ := (hd.large q k).mp hq
    refine ⟨hq, ?_⟩
    simp only [page]
    omega

theorem Dropped.held (hd : Dropped g g' p) (hc : h.Core v g) {x : Block} (hx : h.Holds g x)
    (hne : x.addr ≠ h.page p) : h.held g' x.addr = h.held g x.addr :=
  hc.held_keep hx (fun q k haddr hq => (hd.large q k).mpr ⟨fun hqp => hne (hqp ▸ haddr), hq⟩) hd.small

theorem Core.released (hc : h.Core v g) (hat : h.BlockAt g c a) {blocks : Nat → List Nat}
    (hblocks : ∀ d b, b ∈ blocks d → b ∈ g.blocks d ∨ b = a) :
    Released h g { g with blocks := blocks } a where
  keeps := fun x hx hne => by
    cases hx with
    | large q k htag haddr hbig hsize => exact .large q k htag haddr hbig hsize
    | small d hblock hsize hlive =>
      exact .small d hblock hsize fun hmem => (hblocks d _ hmem).elim hlive hne
  large := fun q k hq => by
    refine ⟨hq, ?_⟩
    have hne := hc.block_ne_page (p := q) hat (by rw [show g.tag q = _ from hq]; simp)
    simp only [page] at hne ⊢
    omega

theorem Core.freeBlock_spec (hc : h.Core (h.view m) g) (hat : h.BlockAt g c b) (hp : g.tag p = .small c)
    (hnew : b ∉ g.blocks c) (hpage : ¬ ((h.view m).pte p 1 = 4096 / 2 ^ c - 1 ∧ 1 < (h.view m).hw (2 * c + 5)))
    (hbad : c = 12 → (h.view m).hw 41 = 0 ∨ ¬ h.PointsInside ((h.view m).hw 41))
    (hm : freeBlock s h.vir fuel m (h.vir + 4096) p c (s.toVir b) = .ret u m') :
    ∃ g', h.Core (h.view m') g' ∧ Released h g g' b ∧ g'.tag = g.tag ∧ (c ≠ 12 → ∀ N B, Ordered (h.view m) g →
        Counts (h.view m) N (B + 2 ^ c) (h.chunks g) (h.freeBytes g) → h.Booked (h.view m') g' N B) := by
  obtain ⟨_, h4, h12⟩ := hc.small hp
  have hb := (hc.block_data hat).1
  obtain ⟨hlow, hhigh, haligned⟩ := data_inside hb
  have hplt := hc.tag_lt (p := p) (by rw [hp]; simp)
  have hcore := ((hc.subWord (k := 42) (2 ^ c) (by simp [Counter])).addWord (k := 44) (2 ^ c)
    (by simp [Counter])).addWord (k := 43) 1 (by simp [Counter])
  have hcount : ∀ N B K F, Counts (h.view m) N (B + 2 ^ c) K F → Counts (h.view (Smm.addWord h.vir
      (Smm.addWord h.vir (Smm.subWord h.vir m 42 (2 ^ c)) 44 (2 ^ c)) 43 1)) N B (K + 1) (F + 2 ^ c) := by
    intro N B K F hcount
    obtain ⟨h41, h42, h43, h44⟩ := counts_freed hcount
    refine ⟨?_, ?_, ?_, ?_⟩ <;> rw [hw_addWord (by omega)]
    · exact h41
    · exact h42
    · rw [if_pos rfl, h43]
      omega
    · exact h44
  have hview : ∃ x y z, h.view (Smm.addWord h.vir (Smm.addWord h.vir (Smm.subWord h.vir m 42 (2 ^ c)) 44
      (2 ^ c)) 43 1) = (((h.view m).setHw 42 x).setHw 44 y).setHw 43 z := by
    simp (disch := omega) only [Smm.addWord, Smm.subWord, h.view_setWord]
    exact ⟨_, _, _, rfl⟩
  have hsub : sub32 (4096 / 2 ^ c) 1 = 4096 / 2 ^ c - 1 := by
    have hpos : 0 < 4096 / 2 ^ c :=
      Nat.div_pos (le_trans (Nat.pow_le_pow_right (by omega) h12) (by decide)) (Nat.two_pow_pos c)
    have hle : 4096 / 2 ^ c ≤ 4096 := Nat.div_le_self ..
    exact sub32_eq hpos (by omega)
  simp only [freeBlock, hsub] at hm
  rw [if_neg (by rw [hc.inBounds_iff]; omega)] at hm
  generalize Smm.addWord h.vir (Smm.addWord h.vir (Smm.subWord h.vir m 42 (2 ^ c)) 44 (2 ^ c)) 43 1 = m₁ at *
  obtain ⟨x, y, z, hview⟩ := hview
  have hword : word h.vir m₁ (2 * c + 5) = (h.view m).hw (2 * c + 5) := by
    rw [h.word_eq m₁ (by omega), hview, View.hw_setHw, View.hw_setHw, View.hw_setHw, if_neg (by omega),
      if_neg (by omega), if_neg (by omega)]
  rw [h.ld_pte m hplt (by omega), hword, if_neg hpage] at hm
  obtain ⟨_, rfl⟩ := Out.ret.inj hm
  by_cases h11 : c ≤ 11
  · obtain ⟨hcore', hbooked⟩ := hcore.pushFree_spec hat hp hnew h11
    refine ⟨_, hcore', hc.released hat fun d b' hb' => ?_, rfl, fun _ N B ho hb =>
      hbooked N B (by rw [hview]; exact ho) (hcount N B _ _ hb)⟩
    by_cases hd : d = c
    · subst hd
      rw [update_self] at hb'
      exact (List.mem_cons.mp hb').symm
    · rw [update_of_ne hd] at hb'
      exact .inl hb'
  · obtain rfl : c = 12 := by omega
    refine ⟨g, hcore.pushFree_counter hat hp ?_, hc.released hat fun d b' hb' => .inl hb', rfl,
      fun hne => absurd rfl hne⟩
    rw [hview]
    simpa using hbad rfl

theorem Core.holds_page (hc : h.Core v g) {b : Block} (hb : h.Holds g b) :
    ∃ p, h.page p ≤ b.addr ∧ b.addr < h.page (p + 1) ∧ h.IsData b.addr ∧ g.tag p ≠ .none := by
  cases hb with
  | large p n htag haddr hbig hsize =>
    have hsome : g.tag p ≠ .none := by rw [htag]; simp
    have hdata := hc.page_data hsome
    rw [haddr]
    exact ⟨p, le_rfl, by simp only [page]; omega, hdata, hsome⟩
  | small c hblock hsize hlive =>
    obtain ⟨p, hf⟩ := hc.blockFacts hblock
    have hfits := hf.fits
    have hwide := hf.wide
    exact ⟨p, hf.ge, by omega, (hc.block_data hblock).1, by rw [hf.tag]; simp⟩

theorem Core.shfree_spec (hc : h.Core (h.view m) g) {b : Block} (hb : h.Holds g b) (hok : h.FreeOk (h.view m) b.addr)
    (hm : shfree s h.vir fuel m (s.toVir b.addr) = .ret u m') :
    ∃ g', h.Core (h.view m') g' ∧ Released h g g' b.addr ∧
      (h.FreeTidy (h.view m) b.addr → Refunded h (h.view m) (h.view m') g g' b.addr) := by
  obtain ⟨p, hge, hlt, hdata, hsome⟩ := hc.holds_page hb
  have hplt := hc.tag_lt hsome
  have hp : (b.addr - h.phy) / 4096 = p := by
    simp only [page] at hge hlt
    omega
  have hidx : sub32 (s.toVir b.addr) (h.vir + 4096) / 4096 + 1 = p := by
    obtain ⟨h1, h2, _⟩ := id hdata
    have hve := h.vir_end
    have hf := h.two_le_firstPage
    rw [h.toVir_data hdata, sub32_eq (by omega) (by omega)]
    omega
  have hcore := hc.subWord (k := 41) 1 (by simp [Counter])
  have hview : h.view (Smm.subWord h.vir m 41 1) = (h.view m).setHw 41 (sub32 ((h.view m).hw 41) 1) := by
    rw [Smm.subWord, h.view_setWord m _ (by omega), h.word_eq m (by omega)]
    simp only [sub32, Nat.mod_mod]
  have hcount : ∀ N B K F, Counts (h.view m) (N + 1) B K F →
      Counts ((h.view m).setHw 41 (sub32 ((h.view m).hw 41) 1)) N B K F := by
    rintro N B K F ⟨h41, h42, h43, h44⟩
    refine ⟨?_, h42, h43, h44⟩
    rw [View.hw_setHw, if_pos rfl, h41, sub32]
    omega
  simp only [shfree, hc.pageTable_eq, hc.dataBase_eq, hidx] at hm
  generalize Smm.subWord h.vir m 41 1 = m₁ at *
  rw [h.ld_pte m₁ hplt (by omega), h.ld_pte m₁ hplt (by omega), hview, View.pte_setHw] at hm
  rw [FreeOk, hp] at hok
  rw [FreeTidy, hp]
  cases hb with
  | large q n htag haddr hbig hsize =>
    obtain rfl : q = p := by
      rw [haddr] at hp
      simp only [page] at hp
      omega
    obtain ⟨he0, he1⟩ := hc.large htag
    rw [if_pos he0] at hok hm
    obtain ⟨hone, hkeep⟩ := hok
    rw [he1] at hm hkeep
    rw [(hc.top_of_tag hsome).1] at hkeep
    obtain ⟨g', hcore', hdrop, hpaid⟩ := hcore.freeRun_spec htag (by rw [hview]; rfl) (by rw [hview]; rfl)
      (by rw [hview]; exact hone) hkeep hm
    rw [hview] at hpaid
    refine ⟨g', hcore', haddr ▸ hdrop.released, fun hside => ?_⟩
    rw [if_pos he0] at hside
    refine ⟨fun x hx hne => hdrop.held hc hx (haddr ▸ hne), fun N B hbook => ?_⟩
    rw [haddr, held_page htag] at hbook
    exact hpaid hside N B (hcount N _ _ _ hbook.counts)
  | small c hblock hsize hlive =>
    obtain ⟨q, hf⟩ := hc.blockFacts hblock
    obtain rfl : q = p := hf.page_eq hge hlt
    obtain ⟨he0, h4, h12⟩ := hc.small hf.tag
    rw [he0, if_neg (by omega)] at hok hm
    obtain ⟨hpage, hbad⟩ := hok
    obtain ⟨g', hcore', hrel, htag, hpaid⟩ := hcore.freeBlock_spec hblock hf.tag hlive (by
      rw [hview, View.pte_setHw, View.hw_setHw, if_neg (by omega)]
      exact hpage) (by
      rw [hview, View.hw_setHw, if_pos rfl]
      exact hbad) hm
    refine ⟨g', hcore', hrel, fun hside => ?_⟩
    rw [he0, if_neg (by omega)] at hside
    refine ⟨fun x hx _ => by simp only [held, htag], fun N B hbook => ?_⟩
    rw [held_block h12 hblock] at hbook
    rw [hview] at hpaid
    exact hpaid hside N B hbook.ordered (hcount N _ _ _ hbook.counts)

end Place
end H713.Smm
