import FontLayout.Rule
/-!
# Rule sets

A rule set is all that the layout tables of one font are made from: lookups in order, the
features that use them, the mark classes they attach, and what is said about glyphs themselves.
A lookup is referred to by its place in the set.
-/
namespace FontLayout

/-! ## Lookups -/

/-- The flag that says a lookup skips all marks but those of its filtering set. -/
def useMarkFilteringSet : UInt16 := 0x10

/-- Rules of one kind, applied together. -/
structure Lookup where
  name : Option String
  kind : Kind
  flags : UInt16
  markFilterSet : Option GlyphSet
  markAttachment : Option GlyphSet
  rules : List Rule
deriving DecidableEq

/-- A named choice of lookups, with the languages for which it is registered. -/
structure Feature where
  tag : Tag
  languageSystems : List (Tag × Tag)
  lookups : List Nat
deriving DecidableEq

/-- Marks that attach in the same way, each set with the point by which its glyphs attach. -/
structure MarkClass where
  name : String
  members : List (GlyphSet × Anchor)
deriving DecidableEq

/-! ## What is said about glyphs -/

/-- Where the caret stands inside a ligature: at coordinates, or at points of the outline. -/
inductive CaretValues where
  | positions (xs : List Int16)
  | points (ps : List UInt16)
deriving DecidableEq

/-- The carets of one ligature glyph. -/
structure LigatureCaret where
  glyph : Glyph
  carets : CaretValues
  line : Option UInt32
deriving DecidableEq

/-- Glyphs by their role in shaping. -/
structure GlyphClasses where
  base : GlyphSet
  ligature : GlyphSet
  mark : GlyphSet
  component : GlyphSet
deriving DecidableEq, Inhabited

/-- Roles and carets; without roles, they are inferred from the rules. -/
structure GlyphFacts where
  classes : Option GlyphClasses
  carets : List LigatureCaret
deriving DecidableEq, Inhabited

/-! ## Rule sets -/

/-- Everything that the layout tables of a font are made from. -/
structure RuleSet where
  fontName : String
  lookups : List Lookup
  features : List Feature
  markClasses : List MarkClass
  glyphFacts : GlyphFacts
deriving DecidableEq, Inhabited

namespace RuleSet

/-- The rule set of a font about which nothing has been said. -/
def empty (fontName : String) : RuleSet where
  fontName := fontName
  lookups := []
  features := []
  markClasses := []
  glyphFacts := ⟨none, []⟩

/-- The set with further lookups at its end. -/
def addLookups (s : RuleSet) (ls : List Lookup) : RuleSet :=
  { s with lookups := s.lookups ++ ls }

/-- The set with one of its lookups changed, if it has that lookup. -/
def modifyLookup? (s : RuleSet) (i : Nat) (f : Lookup → Lookup) : Option RuleSet :=
  if i < s.lookups.length then some { s with lookups := s.lookups.modify i f } else none

/-- The set with further features at its end. -/
def addFeatures (s : RuleSet) (fs : List Feature) : RuleSet :=
  { s with features := s.features ++ fs }

/-- The classes with one more; a class of the same name is replaced where it stands. -/
def putMarkClass (c : MarkClass) (cs : List MarkClass) : List MarkClass :=
  if cs.any (·.name == c.name) then cs.map fun d => if d.name == c.name then c else d
  else cs ++ [c]

/-- The set with a mark class added, or replaced where it stands. -/
def addMarkClass (s : RuleSet) (c : MarkClass) : RuleSet :=
  { s with markClasses := putMarkClass c s.markClasses }

/-- The lookups of one purpose, each with its place in the set, in order. -/
def lookupsFor (s : RuleSet) (p : Purpose) : List (Lookup × Nat) :=
  s.lookups.zipIdx.filter (·.1.kind.purpose == p)

end RuleSet
end FontLayout
