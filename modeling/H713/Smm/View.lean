import H713.Smm.Code

/-!
# Smm.View

A heap in its place: `Place` fixes where it lies in both address spaces, `View` is what the allocator sees of the
memory there.
-/

namespace H713.Smm

open Function

/-- A heap of `size` bytes, less than 2 GiB, that does not reach the end of either address space. -/
structure Place (s : Shm) where
  vir : Nat
  phy : Nat
  size : Nat
  mapped : s.toVir phy = vir
  vir_aligned : vir % 4096 = 0
  phy_aligned : phy % 4096 = 0
  phy_pos : 0 < phy
  size_pos : 0 < size
  size_le : size ≤ 2 ^ 31 - 4096
  vir_end : vir + size < 2 ^ 32
  phy_end : phy + size < 2 ^ 32
  vir_data : vir + 4096 * ((12 * ((size + 4095) / 4096) + 4095) / 4096 + 1) < 2 ^ 32
  phy_data : phy + 4096 * ((12 * ((size + 4095) / 4096) + 4095) / 4096 + 1) < 2 ^ 32

structure View where
  hw : Nat → Nat
  pte : Nat → Nat → Nat
  dat : Nat → Nat

namespace View

def setHw (v : View) (k x : Nat) : View := { v with hw := update v.hw k x }

def setPte (v : View) (p j x : Nat) : View :=
  { v with pte := update v.pte p (update (v.pte p) j x) }

def setDat (v : View) (a x : Nat) : View := { v with dat := update v.dat a x }

variable (v : View) (k p j a x : Nat)

@[simp] theorem hw_setHw (k' : Nat) : (v.setHw k x).hw k' = if k' = k then x else v.hw k' :=
  update_apply ..

@[simp] theorem pte_setHw : (v.setHw k x).pte = v.pte := rfl

@[simp] theorem dat_setHw : (v.setHw k x).dat = v.dat := rfl

@[simp] theorem hw_setPte : (v.setPte p j x).hw = v.hw := rfl

@[simp] theorem pte_setPte (q i : Nat) : (v.setPte p j x).pte q i = if q = p ∧ i = j then x else v.pte q i := by
  simp only [setPte, update_apply]
  by_cases hq : q = p
  · subst hq
    simp [update_apply]
  · simp [hq]

@[simp] theorem dat_setPte : (v.setPte p j x).dat = v.dat := rfl

@[simp] theorem hw_setDat : (v.setDat a x).hw = v.hw := rfl

@[simp] theorem pte_setDat : (v.setDat a x).pte = v.pte := rfl

@[simp] theorem dat_setDat (b : Nat) : (v.setDat a x).dat b = if b = a then x else v.dat b :=
  update_apply ..

end View

theorem sub32_eq {x y : Nat} (h : y ≤ x) (hx : x < 2 ^ 32) : sub32 x y = x - y := by
  simp only [sub32]
  omega

theorem st_mod (m : Mem) (a x : Nat) : st m a (x % 2 ^ 32) = st m a x := by
  simp only [st, Nat.mod_mod]

namespace Place

variable {s : Shm} (h : Place s)

def pageCount : Nat := (h.size + 4095) / 4096

def firstPage : Nat := (12 * h.pageCount + 4095) / 4096 + 1

def IsData (a : Nat) : Prop :=
  h.phy + 4096 * h.firstPage ≤ a ∧ a + 4 ≤ h.phy + h.size ∧ a % 4 = 0
deriving Decidable

def page (p : Nat) : Nat := h.phy + 4096 * p

def view (m : Mem) : View where
  hw k := if k < 1024 then m.cell (h.vir + 4 * k) else 0
  pte p j := if p < h.pageCount ∧ j < 3 then m.cell (pteAddr (h.vir + 4096) p j) else 0
  dat a := if h.IsData a then m.cell (h.vir + (a - h.phy)) else 0

theorem pageCount_pos : 0 < h.pageCount := by
  have := h.size_pos
  simp only [pageCount]
  omega

theorem pageCount_lt : h.pageCount < 2 ^ 19 := by
  have := h.size_le
  simp only [pageCount]
  omega

theorem two_le_firstPage : 2 ≤ h.firstPage := by
  have := h.pageCount_pos
  simp only [firstPage]
  omega

theorem vir_firstPage : h.vir + 4096 * h.firstPage < 2 ^ 32 := h.vir_data

theorem phy_firstPage : h.phy + 4096 * h.firstPage < 2 ^ 32 := h.phy_data

variable {j p o a : Nat}

theorem pteAddr_lt (hp : p < h.pageCount) (hj : j < 3) :
    pteAddr (h.vir + 4096) p j + 4 ≤ h.vir + 4096 * h.firstPage := by
  simp only [pteAddr, firstPage]
  omega

theorem toVir_add (ho : h.vir + o < 2 ^ 32) : s.toVir (h.phy + o) = h.vir + o := by
  have hm := h.mapped
  simp only [Shm.toVir, sub32] at hm ⊢
  omega

theorem toPhy_add (ho : h.phy + o < 2 ^ 32) : s.toPhy (h.vir + o) = h.phy + o := by
  have hm := h.mapped
  simp only [Shm.toVir, Shm.toPhy, sub32] at hm ⊢
  omega

theorem smmPhy2vir_add (ho : h.vir + o < 2 ^ 32) : s.smmPhy2vir (h.phy + o) = h.vir + o := by
  have := h.phy_pos
  rw [Shm.smmPhy2vir, if_neg (by omega), h.toVir_add ho]

section

variable (ha : h.IsData a)

include ha

theorem toVir_data : s.toVir a = h.vir + (a - h.phy) := by
  obtain ⟨h1, h2, _⟩ := ha
  have := h.vir_end
  rw [← h.toVir_add (by omega)]
  congr 1
  omega

theorem smmPhy2vir_data : s.smmPhy2vir a = s.toVir a := by
  have := h.phy_pos
  rw [Shm.smmPhy2vir, if_neg (by have := ha.1; omega)]

theorem toVir_data_pos : s.toVir a ≠ 0 := by
  have h2 := h.two_le_firstPage
  rw [h.toVir_data ha]
  have := ha.1
  omega

theorem toPhy_toVir : s.toPhy (s.toVir a) = a := by
  obtain ⟨h1, h2, _⟩ := id ha
  have hend := h.phy_end
  rw [h.toVir_data ha, h.toPhy_add (by omega)]
  omega

theorem smmVir2phy_toVir : s.smmVir2phy (s.toVir a) = a := by
  rw [Shm.smmVir2phy, if_neg (h.toVir_data_pos ha), h.toPhy_toVir ha]

end

variable (m : Mem)

theorem word_eq {k : Nat} (hk : k < 1024) : word h.vir m k = (h.view m).hw k := by
  have := h.vir_firstPage
  have := h.two_le_firstPage
  simp only [word, ld, view]
  rw [if_pos hk, Nat.mod_eq_of_lt (by omega)]

theorem ld_pte (hp : p < h.pageCount) (hj : j < 3) : ld m (pteAddr (h.vir + 4096) p j) = (h.view m).pte p j := by
  have := h.pteAddr_lt hp hj
  have := h.vir_firstPage
  simp only [ld, view]
  rw [if_pos ⟨hp, hj⟩, Nat.mod_eq_of_lt (by omega)]

theorem ld_dat (ha : h.IsData a) : ld m (s.toVir a) = (h.view m).dat a := by
  have hv := h.toVir_data ha
  have := h.vir_end
  simp only [ld, view]
  rw [if_pos ha, hv, Nat.mod_eq_of_lt (by have := ha.2.1; omega)]

theorem toVir_data_four (ha : h.IsData a) (ha' : h.IsData (a + 4)) : s.toVir a + 4 = s.toVir (a + 4) := by
  rw [h.toVir_data ha, h.toVir_data ha']
  have := ha.1
  omega

theorem view_setWord {k : Nat} (x : Nat) (hk : k < 1024) :
    h.view (setWord h.vir m k x) = (h.view m).setHw k (x % 2 ^ 32) := by
  have hf := h.vir_firstPage
  have h2 := h.two_le_firstPage
  have hmod : (h.vir + 4 * k) % 2 ^ 32 = h.vir + 4 * k := Nat.mod_eq_of_lt (by omega)
  simp only [setWord, st, view, View.setHw, hmod]
  congr 1
  · funext k'
    simp only [update_apply]
    by_cases hk' : k' = k
    · subst hk'
      simp [hk]
    · rw [if_neg hk']
      split
      · rw [if_neg (by omega)]
      · rfl
  · funext p j
    split
    · rw [update_of_ne]
      simp only [pteAddr]
      omega
    · rfl
  · funext a
    split
    · rename_i ha
      rw [update_of_ne]
      have := ha.1
      omega
    · rfl

theorem view_st_pte {x : Nat} (hp : p < h.pageCount) (hj : j < 3) (hx : x < 2 ^ 32) :
    h.view (st m (pteAddr (h.vir + 4096) p j) x) = (h.view m).setPte p j x := by
  have hlt := h.pteAddr_lt hp hj
  have hf := h.vir_firstPage
  have hmod : pteAddr (h.vir + 4096) p j % 2 ^ 32 = pteAddr (h.vir + 4096) p j :=
    Nat.mod_eq_of_lt (by omega)
  simp only [st, view, View.setPte, hmod, Nat.mod_eq_of_lt hx]
  congr 1
  · funext k
    split
    · rw [update_of_ne]
      simp only [pteAddr]
      omega
    · rfl
  · funext q i
    by_cases hq : q = p
    · subst hq
      rw [update_self]
      by_cases hi : i = j
      · subst hi
        simp [hp, hj]
      · rw [update_of_ne hi]
        split
        · rw [update_of_ne]
          simp only [pteAddr]
          omega
        · rfl
    · rw [update_of_ne hq]
      split
      · rw [update_of_ne]
        simp only [pteAddr]
        omega
      · rfl
  · funext a
    split
    · rename_i ha
      rw [update_of_ne]
      have := ha.1
      omega
    · rfl

theorem view_st_dat {x : Nat} (ha : h.IsData a) (hx : x < 2 ^ 32) :
    h.view (st m (s.toVir a) x) = (h.view m).setDat a x := by
  have hend := h.vir_end
  obtain ⟨h1, h2, h3⟩ := ha
  have hv := h.toVir_data ⟨h1, h2, h3⟩
  have hmod : s.toVir a % 2 ^ 32 = h.vir + (a - h.phy) := by
    rw [hv]
    exact Nat.mod_eq_of_lt (by omega)
  have h2f := h.two_le_firstPage
  simp only [st, view, View.setDat, hmod, Nat.mod_eq_of_lt hx]
  congr 1
  · funext k
    split
    · rw [update_of_ne]
      omega
    · rfl
  · funext q i
    split
    · rename_i hq
      rw [update_of_ne]
      have := h.pteAddr_lt hq.1 hq.2
      omega
    · rfl
  · funext b
    by_cases hb : b = a
    · subst hb
      rw [update_self, if_pos ⟨h1, h2, h3⟩, update_self]
    · rw [update_of_ne hb]
      split
      · rename_i hb'
        rw [update_of_ne]
        have := hb'.1
        omega
      · rfl

end Place

end H713.Smm
