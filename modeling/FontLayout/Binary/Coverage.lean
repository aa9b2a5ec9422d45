import FontLayout.Binary.Table
import FontLayout.Glyph.Basic
/-!
# Coverage tables

A coverage table numbers the glyphs of a set in ascending order. It is written either as the
list of the glyphs or as the list of the ranges they form, whichever is smaller.

Results:
* `GlyphSet.ranges_cons`: how a lower glyph joins, or does not join, the ranges above it.
-/
namespace FontLayout

/-- Puts a glyph below ranges: it joins the first if that starts right above it. -/
def extendRanges (g : Glyph) : List (Glyph × Glyph) → List (Glyph × Glyph)
  | (first, last) :: rest =>
    if g.toNat + 1 = first.toNat then (g, last) :: rest else (g, g) :: (first, last) :: rest
  | [] => [(g, g)]

/-- The maximal ranges of ascending glyphs, each by its first and its last glyph. -/
def rangesOf (gs : List Glyph) : List (Glyph × Glyph) := gs.foldr extendRanges []

/-- The number of glyphs from `first` to `last`. -/
def glyphSpan (first last : Glyph) : Nat := last.toNat + 1 - first.toNat

namespace GlyphSet

/-- The maximal ranges of a set, ascending. -/
def ranges (s : GlyphSet) : List (Glyph × Glyph) := rangesOf s.members

theorem ranges_cons (g : Glyph) (gs : List Glyph) :
    rangesOf (g :: gs) = extendRanges g (rangesOf gs) := rfl

end GlyphSet

namespace Coverage

/-- The number that the first glyph of each range gets: the glyphs in the ranges before it. -/
def startNumbers (ranges : List (Glyph × Glyph)) : List Nat :=
  (ranges.foldl (fun (acc, n) r => (n :: acc, n + glyphSpan r.1 r.2)) ([], 0)).1.reverse

/-- The words of the range records: first glyph, last glyph, number of the first. -/
def rangeWords (ranges : List (Glyph × Glyph)) : List UInt16 :=
  (ranges.zip (startNumbers ranges)).flatMap fun (r, n) => [r.1, r.2, countWord n]

/-- The coverage table of a set: ranges if they are smaller, and otherwise the glyphs. -/
def table (s : GlyphSet) : Table :=
  let ranges := s.ranges
  if ranges.length * 3 < s.size then
    .word 2 <| .count ranges.length <| .words (rangeWords ranges) .done
  else
    .word 1 <| .countedWords s.members .done

/-- The bytes that the coverage table of `n` glyphs takes at most. -/
def sizeBound (n : Nat) : Nat := 4 + 2 * n

end Coverage
end FontLayout
