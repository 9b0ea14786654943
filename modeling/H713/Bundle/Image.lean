import H713.Lib.Bytes

/-!
# Bundle.Image

`make-bundle.py`, which puts the display's files at fixed addresses of one 16 MB image. A file is checked against
the end of the image and not against the next part.
-/

namespace H713.Bundle

def base : Nat := 0x4b100000
def size : Nat := 0x1000000

structure Part where
  addr : Nat
  name : Option String

def PARTS : List Part :=
  [⟨0x4b100000, some "display.bin"⟩, ⟨0x4be01000, some "display_cfg.xml"⟩, ⟨0x4be41000, none⟩,
    ⟨0x4c000000, some "LogoRegData.bin"⟩]

def TSE : List String := ["database.TSE", "projecttable.TSE", "ProjectID_0x0012.TSE", "pq_custom.TSE"]

abbrev Source := String → Option (List Byte)

def Part.data (src : Source) (part : Part) : Option (List Byte) :=
  match part.name with
  | none => (TSE.mapM src).map List.flatten
  | some name => src name

def Part.off (part : Part) : Nat := part.addr - base

def splice (img : List Byte) (off : Nat) (data : List Byte) : List Byte :=
  img.take off ++ data ++ img.drop (off + data.length)

def place (src : Source) (img : List Byte) (part : Part) : Except String (List Byte) :=
  match part.data src with
  | none => .error "FileNotFoundError"
  | some data =>
    if part.off + data.length > size then .error (part.name.getD "TSE" ++ " overruns the bundle")
    else .ok (splice img part.off data)

def placeAll (src : Source) (img : List Byte) : List Part → Except String (List Byte)
  | [] => .ok img
  | part :: parts =>
    match place src img part with
    | .error e => .error e
    | .ok img => placeAll src img parts

def main (src : Source) : Except String (List Byte) := placeAll src (List.replicate size 0) PARTS

def Placed (img : List Byte) (off : Nat) (data : List Byte) : Prop := ∀ i < data.length, img[off + i]? = data[i]?

def Agree (off : Nat) (data : List Byte) (off' : Nat) (data' : List Byte) : Prop :=
  ∀ i < data.length, ∀ j < data'.length, off + i = off' + j → data[i]? = data'[j]?

variable {data img : List Byte} {off : Nat}

section

variable (h : off + data.length ≤ img.length)

include h

theorem length_splice : (splice img off data).length = img.length := by
  simp only [splice, List.length_append, List.length_take, List.length_drop]
  omega

theorem getElem?_splice (k : Nat) :
    (splice img off data)[k]? = if off ≤ k ∧ k < off + data.length then data[k - off]? else img[k]? := by
  have htake : (img.take off).length = off := by simp; omega
  rw [splice, List.append_assoc]
  by_cases hk : k < off
  · rw [List.getElem?_append_left (by omega), List.getElem?_take_of_lt hk, if_neg (by omega)]
  · rw [List.getElem?_append_right (by omega), htake]
    by_cases hin : k < off + data.length
    · rw [List.getElem?_append_left (by omega), if_pos (by omega)]
    · rw [List.getElem?_append_right (by omega), List.getElem?_drop, if_neg (by omega),
        show off + data.length + (k - off - data.length) = k by omega]

theorem splice_places : Placed (splice img off data) off data := by
  intro i hi
  rw [getElem?_splice h, if_pos (by omega), Nat.add_sub_cancel_left]

end

theorem Placed.splice {data' : List Byte} {off' : Nat} (hp : Placed img off data)
    (h : off' + data'.length ≤ img.length) (hagree : Agree off data off' data') :
    Placed (splice img off' data') off data := by
  intro i hi
  rw [getElem?_splice h]
  split
  · exact (hagree i hi (off + i - off') (by omega) (by omega)).symm
  · exact hp i hi

theorem Agree.of_placed {data' : List Byte} {off' : Nat} (hp : Placed img off data) (hp' : Placed img off' data') :
    Agree off data off' data' := by
  intro i hi j hj hij
  rw [← hp i hi, ← hp' j hj, hij]

theorem place_ok {src : Source} {img' : List Byte} {part : Part} (h : place src img part = .ok img') :
    ∃ data, part.data src = some data ∧ part.off + data.length ≤ size ∧ img' = splice img part.off data := by
  unfold place at h
  split at h
  · cases h
  · rename_i data hdata
    split at h
    · cases h
    · rename_i hfit
      exact ⟨data, hdata, Nat.not_lt.mp hfit, (Except.ok.inj h).symm⟩

theorem place_of_fits (src : Source) (part : Part) (img : List Byte) (hdata : part.data src = some data)
    (h : part.off + data.length ≤ size) : place src img part = .ok (splice img part.off data) := by
  simp only [place, hdata, if_neg (Nat.not_lt.mpr h)]

section

variable {src : Source} {img img' : List Byte} {parts : List Part}

theorem Placed.placeAll {data : List Byte} {off : Nat} (hp : Placed img off data) (hlen : img.length = size)
    (h : placeAll src img parts = .ok img')
    (hagree : ∀ q ∈ parts, ∀ e, q.data src = some e → Agree off data q.off e) : Placed img' off data := by
  induction parts generalizing img with
  | nil =>
    cases h
    exact hp
  | cons q parts ih =>
    unfold Bundle.placeAll at h
    split at h
    · cases h
    · rename_i hq
      obtain ⟨e, he, hfit, himg⟩ := place_ok hq
      rw [himg] at h
      have hin : q.off + e.length ≤ img.length := hlen.symm ▸ hfit
      exact ih (hp.splice hin (hagree q List.mem_cons_self e he)) ((length_splice hin).trans hlen) h
        fun q' hq' => hagree q' (List.mem_cons_of_mem _ hq')

theorem placeAll_places {p : Part} (hlen : img.length = size) (h : placeAll src img parts = .ok img')
    (hmem : p ∈ parts)
    (hagree : ∀ d, p.data src = some d → ∀ q ∈ parts, ∀ e, q.data src = some e → Agree p.off d q.off e) :
    ∃ data, p.data src = some data ∧ Placed img' p.off data := by
  induction parts generalizing img with
  | nil => cases hmem
  | cons q parts ih =>
    unfold placeAll at h
    split at h
    · cases h
    · rename_i hq
      obtain ⟨e, he, hfit, himg⟩ := place_ok hq
      rw [himg] at h
      have hin : q.off + e.length ≤ img.length := hlen.symm ▸ hfit
      have hlen' := (length_splice hin).trans hlen
      rcases List.mem_cons.mp hmem with rfl | hmem
      · exact ⟨e, he, (splice_places hin).placeAll hlen' h
          fun q' hq' => hagree e he q' (List.mem_cons_of_mem _ hq')⟩
      · exact ih hlen' h hmem fun d hd q' hq' => hagree d hd q' (List.mem_cons_of_mem _ hq')

end

/-- Every part of the bundle stands in the image at its offset. -/
def Intact (src : Source) (img : List Byte) : Prop :=
  ∀ p ∈ PARTS, ∃ data, p.data src = some data ∧ Placed img p.off data

/-- Where two parts overlap they have the same bytes. -/
def Compatible (src : Source) : Prop :=
  ∀ p ∈ PARTS, ∀ d, p.data src = some d → ∀ q ∈ PARTS, ∀ e, q.data src = some e → Agree p.off d q.off e

theorem Intact.compatible {src : Source} (h : Intact src img) : Compatible src := by
  intro p hp d hd q hq e he
  obtain ⟨d', hd', hplaced⟩ := h p hp
  obtain ⟨e', he', hplaced'⟩ := h q hq
  cases hd.symm.trans hd'
  cases he.symm.trans he'
  exact .of_placed hplaced hplaced'

/-- Every part is in the image that is written, at its own address, exactly when the parts are compatible. -/
theorem main_intact_iff {src : Source} {img : List Byte} (h : main src = .ok img) : Intact src img ↔ Compatible src :=
  ⟨Intact.compatible, fun hc p hp => placeAll_places List.length_replicate h hp (hc p hp)⟩

def sourceOf (bin cfg : List Byte) : Source := fun name =>
  if name = "display.bin" then some bin else if name = "display_cfg.xml" then some cfg else some []

theorem main_sourceOf (bin cfg : List Byte) (hbin : bin.length ≤ size) (hcfg : 0xd01000 + cfg.length ≤ size) :
    ∃ img, main (sourceOf bin cfg) = .ok img := by
  have hbin' := fun img => place_of_fits (sourceOf bin cfg) ⟨0x4b100000, some "display.bin"⟩ img rfl
    (by rwa [show Part.off ⟨0x4b100000, some "display.bin"⟩ = 0 from rfl, Nat.zero_add])
  have hcfg' := fun img => place_of_fits (sourceOf bin cfg) ⟨0x4be01000, some "display_cfg.xml"⟩ img rfl hcfg
  have htse := fun img => place_of_fits (sourceOf bin cfg) ⟨0x4be41000, none⟩ img rfl (by decide)
  have hlogo := fun img => place_of_fits (sourceOf bin cfg) ⟨0x4c000000, some "LogoRegData.bin"⟩ img rfl (by decide)
  simp only [main, PARTS, placeAll, hbin', hcfg', htse, hlogo]
  exact ⟨_, rfl⟩

theorem main_intact_small : ∃ img, main (sourceOf [1] [2]) = .ok img ∧ Intact (sourceOf [1] [2]) img := by
  obtain ⟨img, himg⟩ := main_sourceOf [1] [2] (by decide) (by decide)
  refine ⟨img, himg, (main_intact_iff himg).mpr ?_⟩
  intro p hp d hd q hq e he i hi j hj hij
  have hshort : ∀ p ∈ PARTS, ∀ d, p.data (sourceOf [1] [2]) = some d → d.length ≤ 1 := by
    simp [PARTS, Part.data, sourceOf, TSE]
  have hoff : ∀ p ∈ PARTS, ∀ q ∈ PARTS, p.off = q.off → p.data (sourceOf [1] [2]) = q.data (sourceOf [1] [2]) := by
    simp [PARTS, Part.off, base]
  have hi0 : i = 0 := by
    have := hshort p hp d hd
    omega
  have hj0 : j = 0 := by
    have := hshort q hq e he
    omega
  subst hi0 hj0
  cases hd.symm.trans ((hoff p hp q hq (Nat.add_right_cancel hij)).trans he)
  rfl

theorem main_overwrites : ∃ img, main (sourceOf (List.replicate 0xd01001 1) [0]) = .ok img ∧
    ¬ Intact (sourceOf (List.replicate 0xd01001 1) [0]) img := by
  obtain ⟨img, himg⟩ := main_sourceOf (List.replicate 0xd01001 1) [0] (by rw [List.length_replicate]; decide)
    (by decide)
  refine ⟨img, himg, fun hintact => ?_⟩
  have hagree := hintact.compatible ⟨0x4b100000, some "display.bin"⟩ (by simp [PARTS]) _ rfl
    ⟨0x4be01000, some "display_cfg.xml"⟩ (by simp [PARTS]) _ rfl
  have hbyte := hagree 0xd01000 (by rw [List.length_replicate]; decide) 0 (by decide) rfl
  rw [List.getElem?_replicate, if_pos (by decide)] at hbyte
  cases hbyte

end H713.Bundle
