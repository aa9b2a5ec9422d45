import FontLayout.RuleSet
/-!
# Mark attachment classes and filtering sets

Lookup flags refer to mark attachment classes and to mark filtering sets by number. Both are
numbered in the order in which the lookups of a rule set first use them, classes from 1 and sets
from 0; equal sets share a number.

Results:
* `Numbering.add_of_mem`: a set that has a number keeps it.
-/
namespace FontLayout

/-- Distinct sets in the order of their numbers, and an index of them. -/
structure Numbering where
  sets : List GlyphSet
  index : Std.TreeMap GlyphSet Nat

namespace Numbering

/-- No set has a number. -/
def empty : Numbering := ⟨[], ∅⟩

/-- Gives a set the next number unless it has one; the sets are kept last first. -/
def add (n : Numbering) (s : GlyphSet) : Numbering :=
  if n.index.contains s then n else ⟨s :: n.sets, n.index.insert s n.index.size⟩

/-- Numbers sets from 0 in the order of first appearance. -/
def ofList (sets : List GlyphSet) : Numbering :=
  let n := sets.foldl add empty
  { n with sets := n.sets.reverse }

/-- The number of a set. -/
def find? (n : Numbering) (s : GlyphSet) : Option Nat := n.index[s]?

theorem add_of_mem {n : Numbering} {s : GlyphSet} (h : s ∈ n.index) : n.add s = n := by
  simp [add, h]

end Numbering

/-- The numbers of all attachment classes and filtering sets of a rule set. -/
structure MarkIds where
  attachments : Numbering
  filterSets : Numbering

namespace MarkIds

/-- Numbers the classes and sets that lookups use. -/
def ofLookups (lookups : List Lookup) : MarkIds where
  attachments := .ofList (lookups.filterMap Lookup.markAttachment)
  filterSets := .ofList (lookups.filterMap Lookup.markFilterSet)

/-- The number of an attachment class as a word; 0 means that there is none. -/
def attachmentId (ids : MarkIds) (l : Lookup) : UInt16 :=
  match l.markAttachment.bind ids.attachments.find? with
  | some n => UInt16.ofNat n + 1
  | none => 0

/-- The number of a lookup's filtering set as a word. -/
def filterSetId? (ids : MarkIds) (l : Lookup) : Option UInt16 :=
  (l.markFilterSet.bind ids.filterSets.find?).map UInt16.ofNat

/-- The flags of a lookup as the font holds them: the filtering flag says whether there is a
filtering set, and the high byte refers to the attachment class. -/
def flags (ids : MarkIds) (l : Lookup) : UInt16 :=
  let own := l.flags &&& ~~~useMarkFilteringSet
  let filtering := if (ids.filterSetId? l).isSome then useMarkFilteringSet else 0
  own ||| filtering ||| (ids.attachmentId l <<< 8)

end MarkIds
end FontLayout
