import FontLayout.Proofs.Packing.PairSplits
import FontLayout.Proofs.Reading.Glyphs
import FontLayout.RuleSet
import FontLayout.Subtable.Encoding
/-!
# Reading subtables

A reader for each kind of lookup, made after the tables of the font format: it starts at the first
byte of a subtable, looks at the number of the form, and gets the contents back. Tables of glyphs
and their classes are told as lists in the order of the glyphs. A value record is told by all
four amounts, and one that its format lacks is zero. Device tables are not read, because no
subtable has any.

Results:
* `readSubtable`: what a reader gets from the bytes of a subtable.
* `Subtable.reading`: what it ought to get.
-/
namespace FontLayout

/-! ## Contents -/

/-- What a reader gets from a subtable. -/
inductive Reading where
  | singleSub (mapping : List (Glyph × Glyph))
  | sequences (mapping : List (Glyph × List Glyph))
  | ligatures (sets : List (Glyph × List Ligature))
  | chain (backtrack input lookahead : List (List Glyph)) (records : List (UInt16 × UInt16))
  | reverseChain (backtrack lookahead : List (List Glyph)) (mapping : List (Glyph × Glyph))
  | singlePos (values : List (Glyph × List Int16))
  | glyphPairs (rows : List (Glyph × List (Glyph × List Int16 × List Int16)))
  | classPairs (covered : List Glyph) (firsts seconds : List (Glyph × UInt16))
    (records : List (List (List Int16 × List Int16)))
  | cursive (anchors : List (Glyph × Option Anchor × Option Anchor))
  | marks (marks : List (Glyph × UInt16 × Anchor)) (classCount : UInt16)
    (bases : List (Glyph × AnchorRow))
  | ligatureMarks (marks : List (Glyph × UInt16 × Anchor)) (classCount : UInt16)
    (ligatures : List (Glyph × List AnchorRow))

/-- What a subtable holds. Ligatures that share a first component are told longest first. -/
def Subtable.reading : Subtable → Reading
  | .singleSub mapping => .singleSub mapping.entries
  | .multipleSub mapping | .alternateSub mapping => .sequences mapping.entries
  | .ligatureSub sets => .ligatures (sets.entries.map fun e => (e.1, Ligature.longestFirst e.2))
  | .chain c =>
    .chain (c.backtrack.map GlyphSet.members) (c.input.map GlyphSet.members)
      (c.lookahead.map GlyphSet.members) c.records
  | .reverseChainSub c =>
    .reverseChain (c.backtrack.map GlyphSet.members) (c.lookahead.map GlyphSet.members)
      c.mapping.entries
  | .singlePos values => .singlePos (values.entries.map fun e => (e.1, e.2.allAmounts))
  | .glyphPairs rows =>
    .glyphPairs (rows.entries.map fun e =>
      (e.1, e.2.entries.map fun p => (p.1, PairValues.effect p.2)))
  | .classPairs c =>
    .classPairs c.coverage.members c.firstClasses.classes.entries c.secondClasses.classes.entries
      (c.records.map fun row => row.map PairValues.effect)
  | .cursive anchors => .cursive anchors.entries
  | .markToBase c | .markToMark c => .marks c.marks.entries c.classCount c.bases.entries
  | .markToLigature c => .ligatureMarks c.marks.entries c.classCount c.bases.entries

/-! ## Readers -/

namespace Reader
variable {α : Type}

/-- Gives each covered glyph the element that its number tells. -/
def assign (covered : List (Glyph × Nat)) (xs : List α) : Reader (List (Glyph × α)) :=
  lift (covered.mapM fun x => xs[x.2]?.map fun a => (x.1, a))

/-- Reads the glyphs of a coverage table, whose numbers do not matter. -/
def glyphs : Reader (List Glyph) := do
  return (← coverage).map Prod.fst

/-- Reads a counted list of offsets to coverage tables. -/
def glyphSets : Reader (List (List Glyph)) := counted (link glyphs)

/-! ### Substitutions -/

/-- Reads replacements of one glyph by one: by a difference, or by a list. -/
def singleSub : Reader Reading := do
  match ← word with
  | 1 =>
    let covered ← link coverage
    let delta ← word
    return .singleSub (covered.map fun x => (x.1, x.1 + delta))
  | 2 =>
    let covered ← link coverage
    return .singleSub (← assign covered (← counted word))
  | _ => fail

/-- Reads a glyph sequence for each glyph. -/
def sequences : Reader Reading := do
  match ← word with
  | 1 =>
    let covered ← link coverage
    return .sequences (← assign covered (← counted (link (counted word))))
  | _ => fail

/-- Reads a ligature; its count is that of all components, but the first is not listed. -/
def ligature : Reader Ligature := do
  let glyph ← word
  match ← number with
  | 0 => fail
  | n + 1 => return ⟨← times n word, glyph⟩

/-- Reads ligatures by their first component. -/
def ligatures : Reader Reading := do
  match ← word with
  | 1 =>
    let covered ← link coverage
    return .ligatures (← assign covered (← counted (link (counted (link ligature)))))
  | _ => fail

/-- Reads a place in the input, and the place of the lookup that is applied there. -/
def lookupRecord : Reader (UInt16 × UInt16) := do
  let position ← word
  let lookup ← word
  return (position, lookup)

/-- Reads a glyph run in context, in the form with a coverage table for each position. -/
def chain : Reader Reading := do
  match ← word with
  | 3 =>
    let backtrack ← glyphSets
    let input ← glyphSets
    let lookahead ← glyphSets
    return .chain backtrack input lookahead (← counted lookupRecord)
  | _ => fail

/-- Reads replacements that are applied from the end of the text. -/
def reverseChain : Reader Reading := do
  match ← word with
  | 1 =>
    let covered ← link coverage
    let backtrack ← glyphSets
    let lookahead ← glyphSets
    return .reverseChain backtrack lookahead (← assign covered (← counted word))
  | _ => fail

/-! ### Positionings -/

/-- Reads the format of value records. Bits above the lowest four would tell of device tables. -/
def valueFormat : Reader UInt16 := do
  let format ← word
  if format < 16 then return format else fail

/-- Reads an amount if its bit is set in the format. -/
def amount (format bit : UInt16) : Reader Int16 :=
  if format &&& bit = 0 then return 0 else return (← word).toInt16

/-- Reads a value record. -/
def amounts (format : UInt16) : Reader (List Int16) := do
  let xPlacement ← amount format 1
  let yPlacement ← amount format 2
  let xAdvance ← amount format 4
  let yAdvance ← amount format 8
  return [xPlacement, yPlacement, xAdvance, yAdvance]

/-- Reads the value records of a pair. -/
def pairAmounts (format₁ format₂ : UInt16) : Reader (List Int16 × List Int16) := do
  let first ← amounts format₁
  let second ← amounts format₂
  return (first, second)

/-- Reads values of single glyphs: one for all, or a list. -/
def singlePos : Reader Reading := do
  match ← word with
  | 1 =>
    let covered ← link coverage
    let format ← valueFormat
    let value ← amounts format
    return .singlePos (covered.map fun x => (x.1, value))
  | 2 =>
    let covered ← link coverage
    let format ← valueFormat
    return .singlePos (← assign covered (← counted (amounts format)))
  | _ => fail

/-- Reads a second glyph of pairs, and the value records. -/
def pairRecord (format₁ format₂ : UInt16) : Reader (Glyph × List Int16 × List Int16) := do
  let second ← word
  let values ← pairAmounts format₁ format₂
  return (second, values)

/-- Reads pairs: of glyphs, or of classes. -/
def pairPos : Reader Reading := do
  match ← word with
  | 1 =>
    let covered ← link coverage
    let format₁ ← valueFormat
    let format₂ ← valueFormat
    let rows ← counted (link (counted (pairRecord format₁ format₂)))
    return .glyphPairs (← assign covered rows)
  | 2 =>
    let covered ← link glyphs
    let format₁ ← valueFormat
    let format₂ ← valueFormat
    let firsts ← link classes
    let seconds ← link classes
    let rows ← number
    let columns ← number
    let records ← times rows (times columns (pairAmounts format₁ format₂))
    return .classPairs covered firsts seconds records
  | _ => fail

/-- Reads an anchor, with or without a contour point. -/
def anchor : Reader Anchor := do
  match ← word with
  | 1 =>
    let x ← word
    let y ← word
    return ⟨x.toInt16, y.toInt16, none⟩
  | 2 =>
    let x ← word
    let y ← word
    let point ← word
    return ⟨x.toInt16, y.toInt16, some point⟩
  | _ => fail

/-- Reads the points at which a glyph is entered and left; null offsets stand for missing ones. -/
def anchorPair : Reader (Option Anchor × Option Anchor) := do
  let entry ← link? anchor
  let exit ← link? anchor
  return (entry, exit)

/-- Reads entry and exit points. -/
def cursive : Reader Reading := do
  match ← word with
  | 1 =>
    let covered ← link coverage
    return .cursive (← assign covered (← counted anchorPair))
  | _ => fail

/-- Reads the class of a mark, and its anchor. -/
def markRecord : Reader (UInt16 × Anchor) := do
  let c ← word
  let a ← link anchor
  return (c, a)

/-- Reads rows with an anchor for each class; null offsets stand for missing anchors. -/
def anchorRows (classCount : UInt16) : Reader (List AnchorRow) :=
  counted (times classCount.toNat (link? anchor))

/-- Reads marks and what they attach to. -/
def attachment (array : UInt16 → Reader (List α))
    (result : List (Glyph × UInt16 × Anchor) → UInt16 → List (Glyph × α) → Reading) :
    Reader Reading := do
  match ← word with
  | 1 =>
    let markGlyphs ← link coverage
    let baseGlyphs ← link coverage
    let classCount ← word
    let marks ← link (counted markRecord)
    let bases ← link (array classCount)
    let markEntries ← assign markGlyphs marks
    let baseEntries ← assign baseGlyphs bases
    return result markEntries classCount baseEntries
  | _ => fail

/-- Reads a subtable of a kind of lookup. -/
def subtable : Kind → Reader Reading
  | .singleSub => singleSub
  | .multipleSub | .alternateSub => sequences
  | .ligatureSub => ligatures
  | .chainSub | .chainPos => chain
  | .reverseChainSub => reverseChain
  | .singlePos => singlePos
  | .pairPos => pairPos
  | .cursivePos => cursive
  | .markToBase | .markToMark => attachment anchorRows .marks
  | .markToLigature =>
    attachment (fun classCount => counted (link (anchorRows classCount))) .ligatureMarks

end Reader

/-- What a reader gets from the bytes of a subtable. -/
def readSubtable (kind : Kind) (bytes : ByteArray) : Option Reading :=
  (Reader.subtable kind).read bytes.data.toList

end FontLayout
