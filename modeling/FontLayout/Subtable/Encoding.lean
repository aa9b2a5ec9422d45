import FontLayout.Subtable.Basic
/-!
# Encoding subtables

Each subtable becomes a tree of tables. Where the font format offers two forms, the smaller one
is taken if the contents allow it: a single difference for all replacements, a single value for
all glyphs.

Results:
* `Ligature.longestFirst_perm`: sorting the ligatures of a set loses none of them.
-/
namespace FontLayout

/-- A signed amount as a word, in two's complement. -/
def amountWord (x : Int16) : UInt16 := x.toUInt16

namespace Anchor

/-- The table of an anchor; a contour point needs the second form. -/
def table (a : Anchor) : Table :=
  match a.contourPoint with
  | none => .words [1, amountWord a.x, amountWord a.y] .done
  | some point => .words [2, amountWord a.x, amountWord a.y, point] .done

end Anchor

/-- The words of a value record in a given format. -/
def valueWords (f : ValueFormat) (v : ValueRecord) : List UInt16 := (v.amounts f).map amountWord

/-- Puts the words of a value record in a given format before others. -/
def valueWordsOnto (f : ValueFormat) (v : ValueRecord) (rest : List UInt16) : List UInt16 :=
  let rest := if f.yAdvance then amountWord (v.yAdvance.getD 0) :: rest else rest
  let rest := if f.xAdvance then amountWord (v.xAdvance.getD 0) :: rest else rest
  let rest := if f.yPlacement then amountWord (v.yPlacement.getD 0) :: rest else rest
  if f.xPlacement then amountWord (v.xPlacement.getD 0) :: rest else rest

theorem valueWordsOnto_eq (f : ValueFormat) (v : ValueRecord) (rest : List UInt16) :
    valueWordsOnto f v rest = valueWords f v ++ rest := by
  obtain ⟨a, b, c, d⟩ := f
  cases a <;> cases b <;> cases c <;> cases d <;> rfl

/-- A counted list of links to coverage tables, then the rest. -/
def coverages (target : Target) (sets : List GlyphSet) (rest : Table) : Table :=
  .countedLinks (.near target) (sets.map Coverage.table) rest

/-! ## Substitutions -/

/-- The difference that turns a glyph into its replacement, modulo the number of glyphs. -/
def glyphDelta (target replacement : Glyph) : UInt16 := replacement - target

/-- Replacements of one glyph by one: a common difference, or a list. -/
def singleSubTable (mapping : ByGlyph Glyph) : Table :=
  let coverage := Coverage.table mapping.keys
  let deltas := mapping.entries.map fun e => glyphDelta e.1 e.2
  let delta := deltas.headD 0
  if deltas.all (· == delta) then
    .word 1 <| .link (.near .coverage) coverage <| .word delta .done
  else
    .word 2 <| .link (.near .coverage) coverage <| .countedWords mapping.values .done

/-- A glyph sequence for each glyph of a set. -/
def sequencesTable (target : Target) (mapping : ByGlyph (List Glyph)) : Table :=
  .word 1 <| .link (.near .coverage) (Coverage.table mapping.keys) <|
    .countedLinks (.near target) (mapping.values.map fun gs => .countedWords gs .done) .done

namespace Ligature

/-- Ligatures with more components come first; among equals the order is kept. -/
def longestFirst (ligatures : List Ligature) : List Ligature :=
  ligatures.mergeSort fun a b => b.trailing.length ≤ a.trailing.length

theorem longestFirst_perm (ligatures : List Ligature) :
    (longestFirst ligatures).Perm ligatures := List.mergeSort_perm ..

/-- The table of a ligature: its glyph, then all its components but the first. -/
def table (l : Ligature) : Table :=
  .word l.glyph <| .count (l.trailing.length + 1) <| .words l.trailing .done

/-- The table of the ligatures that share a first component. -/
def setTable (ligatures : List Ligature) : Table :=
  .countedLinks (.near .ligature) ((longestFirst ligatures).map table) .done

end Ligature

/-- Ligatures by their first component. -/
def ligatureSubTable (sets : ByGlyph (List Ligature)) : Table :=
  .word 1 <| .link (.near .coverage) (Coverage.table sets.keys) <|
    .countedLinks (.near .ligatureSet) (sets.values.map Ligature.setTable) .done

/-- Replacements in context, applied from the end of the text. -/
def ReverseChainSubtable.table (r : ReverseChainSubtable) : Table :=
  .word 1 <| .link (.near .coverage) (Coverage.table r.mapping.keys) <|
    coverages .backtrackCoverage r.backtrack <|
    coverages .lookaheadCoverage r.lookahead <|
    .countedWords r.mapping.values .done

/-- A glyph run in context, a coverage table for each position. -/
def ChainSubtable.table (c : ChainSubtable) : Table :=
  .word 3 <|
    coverages .backtrackCoverage c.backtrack <|
    coverages .inputCoverage c.input <|
    coverages .lookaheadCoverage c.lookahead <|
    .count c.records.length <| .words (c.records.flatMap fun r => [r.1, r.2]) .done

/-! ## Positionings -/

/-- A value for each glyph of a set: one for all, or a list. -/
def singlePosTable (values : ByGlyph ValueRecord) : Table :=
  let coverage := Coverage.table values.keys
  let format := commonFormat values.values
  let value := values.values.headD .empty
  if values.values.all (· == value) then
    .word 1 <| .link (.near .coverage) coverage <| .word format.code <|
      .words (valueWords format value) .done
  else
    .word 2 <| .link (.near .coverage) coverage <| .word format.code <|
      .count values.size <| .words (values.values.foldr (valueWordsOnto format) []) .done

/-- Formats that hold the values of one more pair; most cells of a matrix hold none. -/
def addPairFormats (f : ValueFormat × ValueFormat) (v : PairValues) : ValueFormat × ValueFormat :=
  if v.1.isEmpty && v.2.isEmpty then f else (f.1.union v.1.format, f.2.union v.2.format)

/-- The least formats that hold the first and the second values of all pairs. -/
def pairFormats (values : List PairValues) : ValueFormat × ValueFormat :=
  values.foldl addPairFormats (.none, .none)

theorem addPairFormats_eq (f : ValueFormat × ValueFormat) (v : PairValues) :
    addPairFormats f v = (f.1.union v.1.format, f.2.union v.2.format) := by
  unfold addPairFormats
  split
  · next h =>
    rw [Bool.and_eq_true] at h
    rw [ValueRecord.format_of_isEmpty h.1, ValueRecord.format_of_isEmpty h.2,
      ValueFormat.union_none, ValueFormat.union_none]
  · rfl

theorem pairFormats_eq (values : List PairValues) :
    pairFormats values =
      (commonFormat (values.map Prod.fst), commonFormat (values.map Prod.snd)) := by
  suffices ∀ f : ValueFormat × ValueFormat, values.foldl addPairFormats f =
      ((values.map Prod.fst).foldl (fun f v => f.union v.format) f.1,
        (values.map Prod.snd).foldl (fun f v => f.union v.format) f.2) from this _
  induction values with
  | nil => exact fun _ => rfl
  | cons v values ih =>
    intro f
    rw [List.foldl_cons, ih, addPairFormats_eq, List.map_cons, List.map_cons, List.foldl_cons,
      List.foldl_cons]

/-- Puts the words of the values of a pair before others. -/
def pairWordsOnto (formats : ValueFormat × ValueFormat) (v : PairValues) (rest : List UInt16) :
    List UInt16 :=
  valueWordsOnto formats.1 v.1 (valueWordsOnto formats.2 v.2 rest)

/-- The pairs that share a first glyph. -/
def pairSetTable (formats : ValueFormat × ValueFormat) (row : ByGlyph PairValues) : Table :=
  .count row.size <|
    .words (row.entries.foldr (fun e rest => e.1 :: pairWordsOnto formats e.2 rest) []) .done

/-- Pairs of glyphs, by their first glyph. -/
def glyphPairsTable (rows : ByGlyph (ByGlyph PairValues)) : Table :=
  let formats := pairFormats (rows.values.flatMap ByGlyph.values)
  .word 1 <| .link (.near .coverage) (Coverage.table rows.keys) <|
    .word formats.1.code <| .word formats.2.code <|
    .countedLinks (.near .pairSet) (rows.values.map (pairSetTable formats)) .done

/-- The number of first classes. -/
def ClassPairs.rowCount (c : ClassPairs) : Nat := c.records.length

/-- The number of second classes, the class of all other glyphs included. -/
def ClassPairs.columnCount (c : ClassPairs) : Nat := (c.records.headD []).length

/-- Pairs of classes: a matrix of values. -/
def ClassPairs.table (c : ClassPairs) : Table :=
  let values := c.records.flatten
  let formats := pairFormats values
  .word 2 <| .link (.near .coverage) (Coverage.table c.coverage) <|
    .word formats.1.code <| .word formats.2.code <|
    .link (.near .firstClasses) c.firstClasses.table <|
    .link (.near .secondClasses) c.secondClasses.table <|
    .count c.rowCount <| .count c.columnCount <|
    .words (values.foldr (pairWordsOnto formats) []) .done

/-- Links to anchors that may be missing, then the rest. -/
def anchorLinks (target : Target) (row : AnchorRow) (rest : Table) : Table :=
  row.foldr (fun a rest => .link? (.near target) (a.map Anchor.table) rest) rest

/-- Entry and exit points, by glyph. -/
def cursiveTable (anchors : ByGlyph (Option Anchor × Option Anchor)) : Table :=
  .word 1 <| .link (.near .coverage) (Coverage.table anchors.keys) <|
    .count anchors.size <|
    anchorLinks .cursiveAnchor (anchors.values.flatMap fun a => [a.1, a.2]) .done

/-- The marks of a lookup: class and anchor of each. -/
def markArrayTable (marks : MarkRecords) : Table :=
  .count marks.size <|
    marks.values.foldr
      (fun m rest => .word m.1 <| .link (.near .anchor) m.2.table rest) .done

/-- A matrix of anchors, a row for each glyph or for each component. -/
def anchorMatrixTable (rows : List AnchorRow) : Table :=
  .count rows.length <| anchorLinks .anchor rows.flatten .done

/-- Marks and what they attach to; `below` writes the latter. -/
def MarkAttachment.table {α : Type} (cover array : Target) (below : ByGlyph α → Table)
    (m : MarkAttachment α) : Table :=
  .word 1 <| .link (.near .markCoverage) (Coverage.table m.marks.keys) <|
    .link (.near cover) (Coverage.table m.bases.keys) <|
    .word m.classCount <|
    .link (.near .markArray) (markArrayTable m.marks) <|
    .link (.near array) (below m.bases) .done

/-- The anchors of bases. -/
def baseArrayTable (bases : ByGlyph AnchorRow) : Table := anchorMatrixTable bases.values

/-- The anchors of the components of ligatures. -/
def ligatureArrayTable (ligatures : ByGlyph (List AnchorRow)) : Table :=
  .countedLinks (.near .ligatureAttach) (ligatures.values.map anchorMatrixTable) .done

/-! ## All subtables -/

/-- The tree of tables of a subtable. -/
def Subtable.table : Subtable → Table
  | .singleSub mapping => singleSubTable mapping
  | .multipleSub mapping => sequencesTable .sequence mapping
  | .alternateSub mapping => sequencesTable .alternateSet mapping
  | .ligatureSub sets => ligatureSubTable sets
  | .reverseChainSub content => content.table
  | .chain content => content.table
  | .singlePos values => singlePosTable values
  | .glyphPairs rows => glyphPairsTable rows
  | .classPairs content => content.table
  | .cursive anchors => cursiveTable anchors
  | .markToBase content => content.table .baseCoverage .baseArray baseArrayTable
  | .markToMark content => content.table .baseMarkCoverage .baseMarkArray baseArrayTable
  | .markToLigature content => content.table .ligatureCoverage .ligatureArray ligatureArrayTable

end FontLayout
