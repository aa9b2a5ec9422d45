import FontLayout.Glyph.Partition
import FontLayout.Packing.Substitution
/-!
# Packing positionings

Gauges for single values, pairs and cursive anchors. Pairs of glyphs and pairs of classes never
share a subtable. Class pairs share one only as long as the classes of either side are equal or
disjoint.
-/
namespace FontLayout.Packing

/-! ## Single values -/

/-- A glyph and its value. -/
def singlePosItem? : RuleBody → Option (Glyph × ValueRecord)
  | .singlePos glyph value => some (glyph, value)
  | _ => none

/-- Glyphs so far, and the amounts that any of their values has. -/
structure SinglePosLoad where
  glyphs : Std.TreeSet Glyph
  format : ValueFormat

/-- Values of single glyphs. -/
def singlePositions : Packer (Glyph × ValueRecord) SinglePosLoad where
  start := ⟨∅, .none⟩
  fit s i :=
    let n := s.glyphs.size + newcomers s.glyphs i.1
    .size (8 + n * (s.format.union i.2.format).recordSize + Coverage.sizeBound n)
  add s i := ⟨s.glyphs.insert i.1, s.format.union i.2.format⟩
  build items := .singlePos (.ofFirst items)

/-! ## Pairs of glyphs -/

/-- The formats of the first and the second values of a subtable. -/
abbrev PairFormats := ValueFormat × ValueFormat

/-- The formats after one more pair. -/
def PairFormats.with (f : PairFormats) (v : PairValues) : PairFormats :=
  (f.1.union v.1.format, f.2.union v.2.format)

/-- The bytes of the values of a pair. -/
def PairFormats.recordSize (f : PairFormats) : Nat :=
  ValueFormat.recordSize f.1 + ValueFormat.recordSize f.2

/-- Pairs of glyphs so far by their first glyph, their number, and their formats. -/
structure GlyphPairLoad where
  pairs : Std.TreeMap Glyph (Std.TreeSet Glyph)
  count : Nat
  formats : PairFormats

namespace GlyphPairLoad

/-- No pair yet. -/
def empty : GlyphPairLoad := ⟨∅, 0, (.none, .none)⟩

/-- The second glyphs that a first glyph is paired with. -/
def row (s : GlyphPairLoad) (first : Glyph) : Std.TreeSet Glyph := s.pairs.getD first ∅

/-- The estimate after one more pair. -/
def sizeWith (s : GlyphPairLoad) (first second : Glyph) (v : PairValues) : Nat :=
  let firsts := s.pairs.size + if s.pairs.contains first then 0 else 1
  let pairs := s.count + newcomers (s.row first) second
  10 + 2 * firsts + Coverage.sizeBound firsts + 2 * firsts
    + pairs * (2 + (s.formats.with v).recordSize)

/-- One more pair. -/
def add (s : GlyphPairLoad) (first second : Glyph) (v : PairValues) : GlyphPairLoad where
  pairs := s.pairs.insert first ((s.row first).insert second)
  count := s.count + newcomers (s.row first) second
  formats := s.formats.with v

end GlyphPairLoad

/-! ## Pairs of classes -/

/-- The classes of class pairs so far, how many glyphs their first classes have, and their
formats. -/
structure ClassPairLoad where
  firsts : Partition
  seconds : Partition
  firstGlyphs : Nat
  formats : PairFormats

namespace ClassPairLoad

/-- No pair yet. -/
def empty : ClassPairLoad := ⟨.empty, .empty, 0, (.none, .none)⟩

/-- How many glyphs a first class brings to the coverage. -/
def firstGlyphsWith (s : ClassPairLoad) (first : GlyphSet) : Nat :=
  s.firstGlyphs + if s.firsts.contains first then 0 else first.size

/-- The number of classes on one side after one more. -/
def classesWith (p : Partition) (c : GlyphSet) : Nat := p.size + if p.contains c then 0 else 1

/-- The estimate after one more pair; column 0 stands for all other glyphs. -/
def sizeWith (s : ClassPairLoad) (first second : GlyphSet) (v : PairValues) : Nat :=
  16 + Coverage.sizeBound (s.firstGlyphsWith first) + s.firsts.sizeBoundWith first
    + s.seconds.sizeBoundWith second
    + classesWith s.firsts first * (classesWith s.seconds second + 1)
      * (s.formats.with v).recordSize

/-- Whether and at what size one more pair fits. -/
def fit (s : ClassPairLoad) (first second : GlyphSet) (v : PairValues) : Fit :=
  if s.firsts.accepts first && s.seconds.accepts second then .size (s.sizeWith first second v)
  else .overlap

/-- One more pair. -/
def add (s : ClassPairLoad) (first second : GlyphSet) (v : PairValues) : ClassPairLoad where
  firsts := s.firsts.add first
  seconds := s.seconds.add second
  firstGlyphs := s.firstGlyphsWith first
  formats := s.formats.with v

end ClassPairLoad

/-! ## Pairs -/

/-- A pair rule by its form: two glyphs, or two classes. -/
inductive PairItem where
  | glyphs (first second : Glyph) (values : PairValues)
  | classes (first second : GlyphSet) (values : PairValues)
deriving DecidableEq

/-- A pair rule in its form; a single glyph beside a set counts as a set. -/
def pairItem? : RuleBody → Option PairItem
  | .pairPos (.glyph first) value1 (.glyph second) value2 =>
    some (.glyphs first second (value1, value2))
  | .pairPos first value1 second value2 =>
    some (.classes first.toSet second.toSet (value1, value2))
  | _ => none

/-- What is known of a run of pairs. -/
inductive PairLoad where
  | unknown
  | glyphs (load : GlyphPairLoad)
  | classes (load : ClassPairLoad)

namespace PairLoad

/-- Whether and at what size one more pair fits; the other form never does. -/
def fit : PairLoad → PairItem → Fit
  | .unknown, _ => .size 0
  | .glyphs s, .glyphs first second v => .size (s.sizeWith first second v)
  | .classes s, .classes first second v => s.fit first second v
  | _, _ => .incompatible

/-- One more pair; one of the other form is left out. -/
def add : PairLoad → PairItem → PairLoad
  | .unknown, .glyphs first second v => .glyphs (GlyphPairLoad.empty.add first second v)
  | .unknown, .classes first second v => .classes (ClassPairLoad.empty.add first second v)
  | .glyphs s, .glyphs first second v => .glyphs (s.add first second v)
  | .classes s, .classes first second v => .classes (s.add first second v)
  | s, _ => s

end PairLoad

/-- The glyph pairs among items, by their first glyph. -/
def glyphPairRows (items : List PairItem) : ByGlyph (ByGlyph PairValues) :=
  let pairs := items.filterMap fun
    | .glyphs first second v => some (first, (second, v))
    | .classes .. => none
  (ByGlyph.group pairs).map ByGlyph.ofFirst

/-- Two classes and their values. -/
structure ClassPair where
  first : GlyphSet
  second : GlyphSet
  values : PairValues
deriving DecidableEq

/-- The class pairs among items. -/
def classPairItems (items : List PairItem) : List ClassPair :=
  items.filterMap fun
    | .classes first second v => some ⟨first, second, v⟩
    | .glyphs .. => none

/-- The classes of one side of class pairs. -/
def sidePartition (classes : List GlyphSet) : Partition := classes.foldl Partition.add .empty

/-- The values at each cell of a matrix, cells counted row by row; a later pair of the same two
classes replaces an earlier one. -/
def classPairCells (rows columns : Std.TreeMap GlyphSet UInt16) (width : Nat)
    (pairs : List ClassPair) : Std.TreeMap Nat PairValues :=
  pairs.foldl (fun cells p =>
    match rows[p.first]?, columns[p.second]? with
    | some row, some column => cells.insert (row.toNat * width + column.toNat) p.values
    | _, _ => cells) ∅

/-- The subtable of class pairs. First classes are numbered from 0, because the coverage already
tells which glyphs are in one; second classes from 1, because 0 stands for all other glyphs. -/
def classPairsOf (pairs : List ClassPair) : ClassPairs :=
  let firsts := sidePartition (pairs.map ClassPair.first)
  let seconds := sidePartition (pairs.map ClassPair.second)
  let width := seconds.size + 1
  let cells := classPairCells (firsts.numbers 0) (seconds.numbers 1) width pairs
  { coverage := firsts.glyphs
    firstClasses := firsts.classDef 0
    secondClasses := seconds.classDef 1
    records := (List.range firsts.size).map fun row =>
      (List.range width).map fun column => cells.getD (row * width + column) (.empty, .empty) }

/-- The subtable of a run of pairs, in the form of the first. -/
def pairSubtable (items : List PairItem) : Subtable :=
  match items with
  | .classes .. :: _ => .classPairs (classPairsOf (classPairItems items))
  | _ => .glyphPairs (glyphPairRows items)

/-- Values of pairs. -/
def pairs : Packer PairItem PairLoad where
  start := .unknown
  fit := PairLoad.fit
  add := PairLoad.add
  build := pairSubtable

/-! ## Cursive anchors -/

/-- A glyph with the anchors at which it is entered and left. -/
def cursiveItem? : RuleBody → Option (Glyph × Option Anchor × Option Anchor)
  | .cursivePos glyph entry exit => some (glyph, entry, exit)
  | _ => none

/-- The bytes of anchors, some of which may be missing. -/
def anchorBytes (anchors : AnchorRow) : Nat :=
  anchors.foldl (fun n a => n + a.elim 0 Anchor.size) 0

/-- Glyphs so far, and the bytes of their anchors. -/
structure CursiveLoad where
  glyphs : Std.TreeSet Glyph
  anchors : Nat

/-- Cursive anchors by glyph; the estimate takes every glyph for a new one. -/
def cursive : Packer (Glyph × Option Anchor × Option Anchor) CursiveLoad where
  start := ⟨∅, 0⟩
  fit s i :=
    let n := s.glyphs.size + 1
    .size (6 + 4 * n + Coverage.sizeBound n + s.anchors + anchorBytes [i.2.1, i.2.2])
  add s i := ⟨s.glyphs.insert i.1, s.anchors + anchorBytes [i.2.1, i.2.2]⟩
  build items := .cursive (.ofFirst items)

end FontLayout.Packing
