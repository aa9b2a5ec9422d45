import FontLayout.Glyph.Basic
/-!
# Glyph orders

A glyph order lists the names of a font's glyphs; a glyph's number is its place in that list.
If a name is repeated, it stands for its last place.

Results:
* `GlyphOrder.name?_ofNames`: the name of glyph `i` is the `i`-th name given.
-/
namespace FontLayout

/-- The most glyphs a font can number. -/
def maxGlyphs : Nat := 65536

/-- The place of each name; a later place replaces an earlier one. -/
def placesOf (names : List String) : Std.TreeMap String Glyph :=
  (names.foldl (fun (t, i) name => (t.insert name (UInt16.ofNat i), i + 1))
    ((∅ : Std.TreeMap String Glyph), 0)).1

/-- The names of a font's glyphs, with an index from names to glyphs. -/
structure GlyphOrder where
  names : Array String
  places : Std.TreeMap String Glyph
  places_eq : places = placesOf names.toList

namespace GlyphOrder

/-- The order that lists these names. -/
def ofNames (names : List String) : GlyphOrder :=
  ⟨names.toArray, placesOf names, by simp⟩

instance : Inhabited GlyphOrder := ⟨ofNames []⟩

/-- The number of glyphs. -/
def size (o : GlyphOrder) : Nat := o.names.size

/-- The glyph of a name: the last place at which the name stands. -/
def find? (o : GlyphOrder) (name : String) : Option Glyph := o.places[name]?

/-- The name of a glyph. -/
def name? (o : GlyphOrder) (g : Glyph) : Option String := o.names[g.toNat]?

theorem name?_ofNames (names : List String) (g : Glyph) :
    (ofNames names).name? g = names[g.toNat]? := by
  simp [name?, ofNames]

/-! ## Glyphs in messages -/

/-- A glyph by its name, or by its number if the order does not reach that far. -/
def label (o : GlyphOrder) (g : Glyph) : String :=
  match o.name? g with
  | some name => name
  | none => "gid" ++ toString g.toNat

/-- Several glyphs, with blanks between them. -/
def labels (o : GlyphOrder) (gs : List Glyph) : String :=
  String.intercalate " " (gs.map o.label)

/-- One side of a pair; sets stand in brackets. -/
def tokenLabel (o : GlyphOrder) : Token → String
  | .glyph g => o.label g
  | .set s => "[" ++ o.labels s.members ++ "]"

end GlyphOrder
end FontLayout
