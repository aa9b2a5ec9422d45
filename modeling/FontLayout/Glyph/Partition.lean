import FontLayout.Binary.ClassDef
import FontLayout.Glyph.Pages
/-!
# Partitions of glyphs into classes

The classes of one side of a class pair table must not share a glyph. A partition collects such
classes one by one and refuses a class that overlaps another. When it is complete, its classes
are numbered: larger classes first, and among equals the one with the lowest glyph first.

Results:
* `Partition.accepts_iff`: a class is accepted if it is present or shares no glyph with the rest.
-/
namespace FontLayout

/-- Disjoint classes, all their glyphs, how many these are, and the first and last of them. -/
structure Partition where
  classes : Std.TreeSet GlyphSet
  covered : GlyphPages
  count : Nat
  ends : Option (Glyph × Glyph)

namespace Partition

/-- No class at all. -/
def empty : Partition := ⟨∅, .empty, 0, none⟩

/-- Whether a class is one of the partition. -/
def contains (p : Partition) (s : GlyphSet) : Bool := p.classes.contains s

/-- Whether a class is present, or shares no glyph with a class that is. -/
def accepts (p : Partition) (s : GlyphSet) : Bool :=
  p.contains s || p.covered.avoids s.members

theorem accepts_iff {p : Partition} {s : GlyphSet} :
    p.accepts s = true ↔ s ∈ p.classes ∨ ∀ g ∈ s, p.covered.contains g = false := by
  simp only [accepts, contains, Bool.or_eq_true, Std.TreeSet.contains_iff_mem,
    GlyphPages.avoids_iff, GlyphSet.mem_def]

/-- The first and last glyph of two stretches taken together. -/
def joinEnds (ends : Option (Glyph × Glyph)) (first last : Glyph) : Glyph × Glyph :=
  match ends with
  | some (first', last') => (min first' first, max last' last)
  | none => (first, last)

/-- The first and last glyph after a class is added. -/
def endsWith (p : Partition) (s : GlyphSet) : Option (Glyph × Glyph) :=
  match s.first?, s.last? with
  | some first, some last => some (joinEnds p.ends first last)
  | _, _ => p.ends

/-- The partition with a class added, or unchanged if it has the class or does not accept it. -/
def add (p : Partition) (s : GlyphSet) : Partition :=
  if p.contains s then p
  else if p.accepts s then
    { classes := p.classes.insert s
      covered := p.covered.insert s.members
      count := p.count + s.size
      ends := p.endsWith s }
  else p

/-- The glyphs of all classes. -/
def glyphs (p : Partition) : GlyphSet := .ofList (p.classes.toList.flatMap GlyphSet.members)

/-- The number of classes. -/
def size (p : Partition) : Nat := p.classes.size

/-- A bound on the size of the class definition of the partition. -/
def sizeBound (p : Partition) : Nat := ClassDef.sizeBound p.count p.ends

/-- The bound after a class is added that the partition accepts. -/
def sizeBoundWith (p : Partition) (s : GlyphSet) : Nat :=
  if p.contains s || s.isEmpty then p.sizeBound
  else ClassDef.sizeBound (p.count + s.size) (p.endsWith s)

/-! ## Numbering -/

/-- Whether a class is numbered before another: it is larger, or as large and starts lower. -/
def precedes (a b : GlyphSet) : Bool :=
  b.size < a.size || (a.size == b.size && (a.first?.elim 0 (·.toNat + 1)
    ≤ b.first?.elim 0 (·.toNat + 1)))

/-- The classes in the order of their numbers. -/
def ranked (p : Partition) : List GlyphSet := p.classes.toList.mergeSort precedes

/-- Each class with its number, which is a word. Numbering starts at 0 or at 1. -/
def numbered (p : Partition) (start : Nat) : List (GlyphSet × UInt16) :=
  p.ranked.zipIdx start |>.map fun (s, i) => (s, UInt16.ofNat i)

/-- The number of each class. -/
def numbers (p : Partition) (start : Nat) : Std.TreeMap GlyphSet UInt16 :=
  (p.numbered start).foldl (fun t c => t.insert c.1 c.2) ∅

/-- The class definition that gives each glyph the number of its class. -/
def classDef (p : Partition) (start : Nat) : ClassDef :=
  .ofMap <| .ofLast <| (p.numbered start).flatMap fun (s, n) => s.members.map fun g => (g, n)

end Partition
end FontLayout
