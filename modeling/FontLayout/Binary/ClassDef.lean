import FontLayout.Binary.Coverage
import FontLayout.Glyph.Keyed
/-!
# Class definitions

A class definition gives each glyph a class; glyphs it does not mention are in class 0. It is
written either as an array over all glyphs from the first to the last, or as a list of ranges of
glyphs in one class, whichever is smaller.

Results:
* `ClassDef.classOf_ofMap`: a definition made from a map gives the classes of the map.
-/
namespace FontLayout

/-- The class of each glyph that is not in class 0. -/
structure ClassDef where
  classes : ByGlyph UInt16
deriving DecidableEq

namespace ClassDef

/-- The definition that a map of classes describes; class 0 is left out. -/
def ofMap (m : ByGlyph UInt16) : ClassDef := ⟨m.filter (· != 0)⟩

/-- The class of a glyph. -/
def classOf (d : ClassDef) (g : Glyph) : UInt16 := (d.classes.find? g).getD 0

theorem classOf_ofMap (m : ByGlyph UInt16) (g : Glyph) :
    (ofMap m).classOf g = (m.find? g).getD 0 := by
  unfold ofMap classOf
  cases h : m.find? g with
  | none =>
    cases h' : (m.filter (· != 0)).find? g with
    | none => rfl
    | some c =>
      have := ByGlyph.find?_eq_some_iff.1 h'
      simp only [ByGlyph.filter, List.mem_filter] at this
      rw [ByGlyph.find?_eq_some_iff.2 this.1] at h
      cases h
  | some c =>
    by_cases hc : c = 0
    · subst hc
      cases h' : (m.filter (· != 0)).find? g with
      | none => rfl
      | some d =>
        have hm := ByGlyph.find?_eq_some_iff.1 h'
        simp only [ByGlyph.filter, List.mem_filter] at hm
        have := ByGlyph.find?_eq_some_iff.2 hm.1
        rw [h] at this
        cases this
        simp at hm
    · have hm : (g, c) ∈ (m.filter (· != 0)).entries := by
        simpa [ByGlyph.filter, List.mem_filter, hc] using ByGlyph.find?_eq_some_iff.1 h
      rw [ByGlyph.find?_eq_some_iff.2 hm]

/-! ## Ranges -/

/-- A range of glyphs in one class. -/
structure Range where
  first : Glyph
  last : Glyph
  cls : UInt16
deriving DecidableEq

/-- Puts a glyph below ranges: it joins the first if that starts right above it in its class. -/
def extendRanges (entry : Glyph × UInt16) : List Range → List Range
  | r :: rest =>
    if entry.1.toNat + 1 = r.first.toNat ∧ entry.2 = r.cls then ⟨entry.1, r.last, r.cls⟩ :: rest
    else ⟨entry.1, entry.1, entry.2⟩ :: r :: rest
  | [] => [⟨entry.1, entry.1, entry.2⟩]

/-- The maximal ranges of glyphs in one class, ascending. -/
def ranges (d : ClassDef) : List Range := d.classes.entries.foldr extendRanges []

/-! ## Sizes -/

/-- The size of an array over the glyphs from `first` to `last`, if a word can count them. -/
def arraySize? (first last : Glyph) : Option Nat :=
  let span := glyphSpan first last
  if span ≤ 65535 then some (6 + 2 * span) else none

/-- The size of a list of ranges. -/
def rangesSize (n : Nat) : Nat := 4 + 6 * n

/-- A bound on the size of a definition, from the number of its glyphs and its first and last. -/
def sizeBound (glyphs : Nat) (ends : Option (Glyph × Glyph)) : Nat :=
  match ends.bind fun e => arraySize? e.1 e.2 with
  | some array => min array (rangesSize glyphs)
  | none => rangesSize glyphs

/-- The first and the last glyph that a definition mentions. -/
def ends? (d : ClassDef) : Option (Glyph × Glyph) :=
  d.classes.keys.first?.bind fun first => d.classes.keys.last?.map fun last => (first, last)

/-! ## Encoding -/

/-- The class of each glyph from `next` to the last entry; those between entries are in class 0. -/
def arrayFrom (next : Nat) (entries : List (Glyph × UInt16)) : List UInt16 :=
  (entries.zip (next :: entries.map fun e => e.1.toNat + 1)).flatMap fun (e, next) =>
    List.replicate (e.1.toNat - next) 0 ++ [e.2]

/-- The class definition table: an array if that is no larger, and otherwise ranges. -/
def table (d : ClassDef) : Table :=
  let ranges := d.ranges
  let byRange : Table :=
    .word 2 <| .count ranges.length <|
      .words (ranges.flatMap fun r => [r.first, r.last, r.cls]) .done
  match d.ends? with
  | none => byRange
  | some (first, last) =>
    match arraySize? first last with
    | none => byRange
    | some size =>
      if size ≤ rangesSize ranges.length then
        .word 1 <| .word first <| .countedWords (arrayFrom first.toNat d.classes.entries) .done
      else byRange

end ClassDef
end FontLayout
