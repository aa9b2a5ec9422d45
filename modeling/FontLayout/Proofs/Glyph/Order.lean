import FontLayout.Glyph.Order
import Mathlib.Data.List.Induction
import Mathlib.Data.List.Nodup
/-!
# Names and numbers of glyphs

In a glyph order without repeats, names and glyphs stand for each other.

Results:
* `GlyphOrder.name?_of_find?`: a name is that of the glyph it stands for.
* `GlyphOrder.numbers_ofNames`: without repeats, names and glyphs are in bijection.
-/
namespace FontLayout

theorem foldl_places_snd (names : List String) (s : Std.TreeMap String Glyph × Nat) :
    (names.foldl (fun (t, i) name => (t.insert name (UInt16.ofNat i), i + 1)) s).2 =
      s.2 + names.length := by
  induction names generalizing s with
  | nil => rfl
  | cons name names ih =>
    obtain ⟨places, i⟩ := s
    rw [List.foldl_cons, ih, List.length_cons]
    dsimp only
    omega

theorem getElem?_placesOf_concat (names : List String) (last name : String) :
    (placesOf (names ++ [last]))[name]? =
      if last = name then some (UInt16.ofNat names.length) else (placesOf names)[name]? := by
  have hcount := foldl_places_snd names (∅, 0)
  rw [Nat.zero_add] at hcount
  rw [placesOf, List.foldl_append, List.foldl_cons, List.foldl_nil, placesOf, ← hcount]
  simp only [Std.TreeMap.getElem?_insert, Std.LawfulEqCmp.compare_eq_iff_eq]

theorem isSome_placesOf_iff (names : List String) (name : String) :
    (placesOf names)[name]?.isSome = true ↔ name ∈ names := by
  induction names using List.reverseRecOn with
  | nil => simp [placesOf]
  | append_singleton names last ih =>
    rw [getElem?_placesOf_concat]
    split
    · next he => simp [he]
    · next hne =>
      rw [ih, List.mem_append, List.mem_singleton]
      exact (or_iff_left (Ne.symm hne)).symm

/-- A name stands for a place at which it is given, as long as places are glyphs. -/
theorem getElem?_of_placesOf {names : List String} (hlength : names.length ≤ maxGlyphs)
    {name : String} {g : Glyph} (h : (placesOf names)[name]? = some g) :
    names[g.toNat]? = some name := by
  induction names using List.reverseRecOn with
  | nil => simp [placesOf] at h
  | append_singleton names last ih =>
    rw [List.length_append, List.length_singleton] at hlength
    rw [getElem?_placesOf_concat] at h
    split at h
    · next he =>
      cases h
      have hword : names.length < UInt16.size := Nat.lt_of_succ_le hlength
      simp [UInt16.toNat_ofNat_of_lt' hword, he]
    · have hfound := ih (Nat.le_of_succ_le hlength) h
      rw [List.getElem?_append_left (List.getElem?_eq_some_iff.1 hfound).1, hfound]

namespace GlyphOrder

/-- Whether an order numbers some names in turn, and names and glyphs stand for each other. -/
structure Numbers (o : GlyphOrder) (names : List String) : Prop where
  size_eq : o.size = names.length
  size_le : o.size ≤ maxGlyphs
  find?_eq : ∀ i name, names[i]? = some name → o.find? name = some (.ofNat i)
  name?_eq : ∀ i name, names[i]? = some name → o.name? (.ofNat i) = some name
  find?_iff : ∀ name g, o.find? name = some g ↔ o.name? g = some name

section
variable {names : List String} (hlength : names.length ≤ maxGlyphs)
include hlength

/-- A name is that of the glyph it stands for. -/
theorem name?_of_find? {name : String} {g : Glyph} (h : (ofNames names).find? name = some g) :
    (ofNames names).name? g = some name :=
  (name?_ofNames names g).trans (getElem?_of_placesOf hlength h)

theorem lt_of_find? {name : String} {g : Glyph} (h : (ofNames names).find? name = some g) :
    g.toNat < (ofNames names).size :=
  (Array.getElem?_eq_some_iff.1 (name?_of_find? hlength h)).1

theorem find?_of_name? (hnodup : names.Nodup) {name : String} {g : Glyph}
    (h : (ofNames names).name? g = some name) : (ofNames names).find? name = some g := by
  rw [name?_ofNames] at h
  obtain ⟨g', hg'⟩ := Option.isSome_iff_exists.1
    ((isSome_placesOf_iff names name).2 (List.mem_of_getElem? h))
  have hplace := getElem?_of_placesOf hlength hg'
  have hsame : g'.toNat = g.toNat := by
    obtain ⟨hlt, hname⟩ := List.getElem?_eq_some_iff.1 hplace
    obtain ⟨hlt', hname'⟩ := List.getElem?_eq_some_iff.1 h
    exact (hnodup.getElem_inj_iff).1 (hname.trans hname'.symm)
  rw [← UInt16.toNat_inj.1 hsame]
  exact hg'

/-- Names that do not repeat are in bijection with as many glyphs. -/
theorem numbers_ofNames (hnodup : names.Nodup) : (ofNames names).Numbers names := by
  have hname (i : Nat) (name : String) (hi : names[i]? = some name) :
      (ofNames names).name? (.ofNat i) = some name := by
    have hlt : i < UInt16.size :=
      Nat.lt_of_lt_of_le (List.getElem?_eq_some_iff.1 hi).1 hlength
    rw [name?_ofNames, UInt16.toNat_ofNat_of_lt' hlt, hi]
  exact {
    size_eq := by simp [size, ofNames]
    size_le := by simpa [size, ofNames] using hlength
    find?_eq := fun i name hi => find?_of_name? hlength hnodup (hname i name hi)
    name?_eq := hname
    find?_iff := fun name g => ⟨name?_of_find? hlength, find?_of_name? hlength hnodup⟩ }

end
end GlyphOrder
end FontLayout
