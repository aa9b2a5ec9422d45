import FontLayout.Binary.ClassDef
import FontLayout.Value
/-!
# Subtables

A subtable holds the part of a lookup's rules that is written as one table. There is a shape for
each kind of rule, two for pairs, and one for both kinds of contextual rules. The contents are
what a reader of the font gets back, before any choice of format.
-/
namespace FontLayout

/-! ## Shapes -/

/-- A ligature by its components after the first, and the glyph that replaces them all. -/
structure Ligature where
  trailing : List Glyph
  glyph : Glyph
deriving DecidableEq

/-- A glyph run in its surroundings, and the lookups applied to it. The backtrack is in the order
in which it is matched, the nearest set first. A record is a place in the input and the place of
a lookup in the lookup list. -/
structure ChainSubtable where
  backtrack : List GlyphSet
  input : List GlyphSet
  lookahead : List GlyphSet
  records : List (UInt16 × UInt16)
deriving DecidableEq

/-- Replacements applied from the end of the text. -/
structure ReverseChainSubtable where
  backtrack : List GlyphSet
  lookahead : List GlyphSet
  mapping : ByGlyph Glyph
deriving DecidableEq

/-- The values of a pair, for its first and its second glyph. -/
abbrev PairValues := ValueRecord × ValueRecord

/-- Pairs of classes. The coverage holds the first glyphs, and the record of two classes stands in
the row of the first and the column of the second. -/
structure ClassPairs where
  coverage : GlyphSet
  firstClasses : ClassDef
  secondClasses : ClassDef
  records : List (List PairValues)
deriving DecidableEq

/-- The mark glyphs of a lookup, each with the number of its class and its anchor. -/
abbrev MarkRecords := ByGlyph (UInt16 × Anchor)

/-- One anchor per mark class; some may be missing. -/
abbrev AnchorRow := List (Option Anchor)

/-- Marks, and the glyphs that they attach to. -/
structure MarkAttachment (α : Type) where
  marks : MarkRecords
  classCount : UInt16
  bases : ByGlyph α
deriving DecidableEq

/-- What one subtable holds. -/
inductive Subtable where
  | singleSub (mapping : ByGlyph Glyph)
  | multipleSub (mapping : ByGlyph (List Glyph))
  | alternateSub (mapping : ByGlyph (List Glyph))
  | ligatureSub (sets : ByGlyph (List Ligature))
  | reverseChainSub (content : ReverseChainSubtable)
  | chain (content : ChainSubtable)
  | singlePos (values : ByGlyph ValueRecord)
  | glyphPairs (rows : ByGlyph (ByGlyph PairValues))
  | classPairs (content : ClassPairs)
  | cursive (anchors : ByGlyph (Option Anchor × Option Anchor))
  | markToBase (content : MarkAttachment AnchorRow)
  | markToMark (content : MarkAttachment AnchorRow)
  | markToLigature (content : MarkAttachment (List AnchorRow))
deriving DecidableEq

end FontLayout
