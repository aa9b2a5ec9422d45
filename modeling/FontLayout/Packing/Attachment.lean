import FontLayout.Lookup.Marks
import FontLayout.Packing.Positioning
/-!
# Packing mark attachment

Rules that attach marks are first gathered by the glyph that the marks attach to, in the order in
which these glyphs first appear. The first anchor that is given for a glyph and a class counts. A
base that has an anchor for some class gets the origin for every class it has none for; a
component of a ligature may stay without. Every subtable carries all marks of the lookup.
-/
namespace FontLayout.Packing

/-! ## Rows of anchors -/

/-- The anchors known for one glyph, or for one component, by the number of the mark class. -/
abbrev AnchorsById := Std.TreeMap UInt16 Anchor

/-- The anchors that a rule gives, by the number of the mark class. -/
def knownAnchors (marks : MarkSet) (anchors : MarkAnchors) : List (UInt16 × Anchor) :=
  anchors.filterMap fun a => (marks.classId? a.1).map fun id => (id, a.2)

/-- Adds anchors for classes that have none yet. -/
def fillRow (anchors : List (UInt16 × Anchor)) (row : AnchorsById) : AnchorsById :=
  anchors.foldl (fun row a => row.insertIfNew a.1 a.2) row

/-- Adds the anchors of components to the rows of a ligature, and rows that are missing. -/
def fillRows (components : List (List (UInt16 × Anchor))) (rows : List AnchorsById) :
    List AnchorsById :=
  let rows := rows ++ List.replicate (components.length - rows.length) ∅
  (rows.zip components).map (fun (row, anchors) => fillRow anchors row)
    ++ rows.drop components.length

/-- A row with the anchor of each class. -/
def anchorRow (marks : MarkSet) (row : AnchorsById) : AnchorRow :=
  (List.range marks.classCount.toNat).map fun id => row[UInt16.ofNat id]?

/-! ## Gathering by glyph -/

/-- What rules say about glyphs: the glyphs in the order of first appearance, last first; for
each what is known of it, and whether a break precedes it; and whether a break waits for the next
new glyph. -/
structure Gathered (α : Type) where
  order : List Glyph
  records : Std.TreeMap Glyph (α × Bool)
  pendingBreak : Bool

namespace Gathered
variable {α : Type}

/-- Nothing is known. -/
def empty : Gathered α := ⟨[], ∅, false⟩

/-- Applies what a rule says to one of its glyphs. -/
def addGlyph (fresh : α) (update : α → α) (s : Gathered α) (g : Glyph) : Gathered α :=
  match s.records[g]? with
  | some (a, b) => { s with records := s.records.insert g (update a, b) }
  | none =>
    { order := g :: s.order
      records := s.records.insert g (update fresh, s.pendingBreak)
      pendingBreak := false }

/-- Applies what a rule says to all its glyphs. -/
def addRule (fresh : α) (update : α → α) (glyphs : GlyphSet) (breakBefore : Bool)
    (s : Gathered α) : Gathered α :=
  glyphs.members.foldl (addGlyph fresh update)
    { s with pendingBreak := s.pendingBreak || breakBefore }

/-- What is known of each glyph, in the order of first appearance. -/
def items (s : Gathered α) : List ((Glyph × α) × Bool) :=
  s.order.reverse.filterMap fun g => s.records[g]?.map fun (a, b) => ((g, a), b)

end Gathered

/-! ## Bases -/

/-- Adds a rule to what is known of the bases. -/
def baseStep (marks : MarkSet) (s : Gathered AnchorsById) (r : Rule) : Gathered AnchorsById :=
  match r.body.baseAnchors? with
  | some (bases, anchors) =>
    s.addRule ∅ (fillRow (knownAnchors marks anchors)) bases r.breakBefore
  | none => s

/-- A row in which the origin stands for every missing anchor. -/
def fullRow (row : AnchorRow) : AnchorRow := row.map fun a => some (a.getD .origin)

/-- Bases with a full row of anchors each. -/
def baseItems (marks : MarkSet) (rules : List Rule) : List ((Glyph × AnchorRow) × Bool) :=
  (rules.foldl (baseStep marks) .empty).items.map fun ((g, row), b) =>
    ((g, fullRow (anchorRow marks row)), b)

/-! ## Ligatures -/

/-- Adds a rule to what is known of the ligatures. -/
def ligatureStep (marks : MarkSet) (s : Gathered (List AnchorsById)) (r : Rule) :
    Gathered (List AnchorsById) :=
  match r.body with
  | .markToLigature ligature components =>
    s.addRule [] (fillRows (components.map (knownAnchors marks))) ligature r.breakBefore
  | _ => s

/-- Ligatures with a row of anchors for each component. -/
def ligatureItems (marks : MarkSet) (rules : List Rule) :
    List ((Glyph × List AnchorRow) × Bool) :=
  (rules.foldl (ligatureStep marks) .empty).items.map fun ((g, rows), b) =>
    ((g, rows.map (anchorRow marks)), b)

/-! ## Gauges -/

/-- The bytes of the marks that every subtable carries, with their coverage. -/
def markBytes (marks : MarkSet) : Nat :=
  let n := marks.marks.size
  Coverage.sizeBound n + 2 + 4 * n + marks.marks.values.foldl (fun n m => n + m.2.size) 0

/-- The bytes of a row of anchors with its offsets. -/
def rowBytes (row : AnchorRow) : Nat := 2 * row.length + anchorBytes row

/-- The bytes of the rows of a ligature, with its own offset and count. -/
def attachBytes (rows : List AnchorRow) : Nat :=
  2 + 2 + rows.foldl (fun n row => n + rowBytes row) 0

/-- How many glyphs marks attach to so far, and the bytes of their anchors. -/
structure AttachmentLoad where
  count : Nat
  bytes : Nat

/-- Marks on glyphs, where `weight` tells the bytes of what is known of a glyph. -/
def attachments {α : Type} (marks : MarkSet) (weight : α → Nat)
    (build : MarkAttachment α → Subtable) : Packer (Glyph × α) AttachmentLoad :=
  let fixed := 12 + markBytes marks
  { start := ⟨0, 0⟩
    fit := fun s i =>
      .size (fixed + Coverage.sizeBound (s.count + 1) + 2 + s.bytes + weight i.2)
    add := fun s i => ⟨s.count + 1, s.bytes + weight i.2⟩
    build := fun items => build ⟨marks.marks, marks.classCount, .ofFirst items⟩ }

end FontLayout.Packing
