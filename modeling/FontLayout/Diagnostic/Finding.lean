import FontLayout.Binary.Placement
import FontLayout.Diagnostic.Basic
import FontLayout.Glyph.Order
import FontLayout.Rule
/-!
# Findings

A finding is a cause and the site where it arose. Causes are data; the one function
`Cause.text` puts them into words, and `Cause.level` says how bad each of them is.

Results:
* `Finding.level_diagnose`: putting a finding into words does not change how bad it is.
-/
namespace FontLayout

/-! ## Places of lookups -/

/-- How a lookup is referred to in messages: by the first feature that uses it, and by name. -/
structure LookupPlace where
  feature : Option Tag
  name : Option String
deriving DecidableEq, Inhabited

namespace LookupPlace

/-- The site of a lookup as a whole. -/
def site (p : LookupPlace) : Site := ⟨p.feature, p.name, none⟩

/-- The site of a line of a lookup. -/
def siteAt (p : LookupPlace) (line : Option UInt32) : Site := ⟨p.feature, p.name, line⟩

/-- The place of a lookup inside a sentence. -/
def phrase (p : LookupPlace) : String :=
  match p.feature, p.name with
  | some tag, some name => "in feature '" ++ tag.label ++ "' lookup '" ++ name ++ "'"
  | some tag, none => "in feature '" ++ tag.label ++ "'"
  | none, some name => "in stand-alone lookup '" ++ name ++ "'"
  | none, none => "in stand-alone lookup"

/-- The place of a lookup at the head of a sentence. -/
def heading (p : LookupPlace) : String :=
  let feature := "In feature '" ++ (p.feature.getD .noFeature).label ++ "'"
  match p.name with
  | some name => feature ++ " lookup '" ++ name ++ "'"
  | none => feature

end LookupPlace

/-! ## Causes -/

/-- What can be wrong with a rule document or a rule set. -/
inductive Cause where
  /-- A document: names that mean nothing, or too much. -/
  | repeatedGlyphName (name : String)
  | tooManyGlyphs (count : Nat)
  | unknownGlyph (name : String)
  | unknownGlyphClass (name : String)
  | unknownLookup (name : String)
  | repeatedLookupName (name : String)
  | invalidTag (text : String)
  | unevenSubstitution (targets replacements : Nat)
  /-- A rule set: what its lookups say about each other. -/
  | overlappingAttachment (lookup other : String)
  | tooManyAttachments (count : Nat)
  | missingFilterSet (place : LookupPlace)
  | missingLookup (place : LookupPlace)
  | foreignLookup (place : LookupPlace) (other : String)
  | featureMissingLookup (tag : Tag)
  /-- A lookup: rules that repeat or contradict each other. -/
  | misplacedRule (rule lookup : Kind) (place : LookupPlace)
  | repeatedSubstitution (kind : Kind) (place : LookupPlace) (input : List Glyph)
  | conflictingSubstitution (kind : Kind) (place : LookupPlace) (input : List Glyph)
  | repeatedValue (place : LookupPlace) (glyph : Glyph)
  | conflictingValue (place : LookupPlace) (glyph : Glyph)
  | repeatedPair (place : LookupPlace) (first second : Token)
  | conflictingPair (place : LookupPlace) (first second : Token)
  | repeatedRule (kind : Kind) (place : LookupPlace)
  /-- A lookup that attaches glyphs: anchors that are doubtful. -/
  | repeatedCursive (place : LookupPlace) (glyph : Glyph)
  | undefinedMarkClass (place : LookupPlace) (name : String)
  | markInTwoClasses (place : LookupPlace) (glyph : Glyph) (first second : String)
  | markWithTwoAnchors (place : LookupPlace) (glyph : Glyph) (name : String)
  | baseWithTwoAnchors (kind : Kind) (place : LookupPlace) (glyph : Glyph) (name : String)
  | baseWithoutAnchor (kind : Kind) (place : LookupPlace) (glyph : Glyph) (name : String)
  | repeatedComponentAnchor (place : LookupPlace) (glyph : Glyph) (component : Nat) (name : String)
  | takenComponentAnchor (place : LookupPlace) (glyph : Glyph) (component : Nat) (name : String)
  | repeatedCaret (glyph : Glyph)
  /-- A table: parts that had to be split, or that cannot be written. -/
  | forcedSplit (place : LookupPlace)
  | tableOverflow (tag : Tag) (overflow : Overflow)
  | lookupOverflow (kind : Kind) (place : LookupPlace) (overflow : Overflow)
deriving DecidableEq

namespace Cause

/-- How bad a cause is. -/
def level : Cause → Level
  | .repeatedSubstitution .. | .repeatedValue .. | .repeatedPair .. | .repeatedRule .. => .note
  | .conflictingPair .. | .baseWithoutAnchor .. | .repeatedCaret .. | .forcedSplit .. => .warning
  | .conflictingSubstitution .. | .conflictingValue .. | .tableOverflow ..
  | .lookupOverflow .. => .fatal
  | .repeatedGlyphName .. | .tooManyGlyphs .. | .unknownGlyph .. | .unknownGlyphClass ..
  | .unknownLookup .. | .repeatedLookupName .. | .invalidTag .. | .unevenSubstitution ..
  | .overlappingAttachment .. | .tooManyAttachments .. | .missingFilterSet .. | .missingLookup ..
  | .foreignLookup .. | .featureMissingLookup .. | .misplacedRule .. | .repeatedCursive ..
  | .undefinedMarkClass .. | .markInTwoClasses .. | .markWithTwoAnchors ..
  | .baseWithTwoAnchors .. | .repeatedComponentAnchor .. | .takenComponentAnchor .. => .error

/-- What the bases of a kind of lookup are called. -/
def baseWord (kind : Kind) : String := if kind = .markToMark then "Base mark" else "Base"

/-- A number in base sixteen, in lower case. -/
def hexadecimal (n : Nat) : String := String.ofList (Nat.toDigits 16 n)

/-- The part of a message that tells the size and the target of an offset. -/
def overflowPhrase (o : Overflow) : String :=
  "an offset overflow (0x" ++ hexadecimal o.value ++ ") to " ++ o.target.label

/-- What the rules are called that cause an overflow: all rules of the table if it has too many
subtables, and otherwise those of the lookup. -/
def overflowingRules (kind : Kind) (o : Overflow) : String :=
  if o.target = .subtable then kind.purpose.description else kind.description

/-- A cause in words. -/
def text (glyphs : GlyphOrder) : Cause → String
  | .repeatedGlyphName name =>
    "Glyph '" ++ name ++ "' appears more than once in the glyph order"
  | .tooManyGlyphs count => "Too many glyphs (" ++ toString count ++ ")"
  | .unknownGlyph name => "Unknown glyph '" ++ name ++ "'"
  | .unknownGlyphClass name => "Unknown glyph class '@" ++ name ++ "'"
  | .unknownLookup name => "Unknown lookup '" ++ name ++ "'"
  | .repeatedLookupName name => "Lookup name '" ++ name ++ "' is used more than once"
  | .invalidTag text => "Invalid tag '" ++ text ++ "'"
  | .unevenSubstitution targets replacements =>
    toString targets ++ " target glyphs but " ++ toString replacements
      ++ " replacement glyphs in a substitution"
  | .overlappingAttachment lookup other =>
    "Mark attachment class of lookup '" ++ lookup
      ++ "' overlaps the mark attachment class of lookup '" ++ other ++ "'"
  | .tooManyAttachments count =>
    "Too many mark attachment classes (" ++ toString count
      ++ "); a lookup flag can refer to at most 255"
  | .missingFilterSet place =>
    "UseMarkFilteringSet is set without a mark glyph set " ++ place.phrase
  | .missingLookup place =>
    "Contextual rule " ++ place.phrase ++ " references a lookup that does not exist"
  | .foreignLookup place other =>
    "Contextual rule " ++ place.phrase ++ " references lookup '" ++ other
      ++ "' of the other layout table"
  | .featureMissingLookup tag =>
    "Feature '" ++ tag.label ++ "' references a lookup that does not exist"
  | .misplacedRule rule lookup place =>
    "Rule of kind '" ++ rule.description ++ "' does not belong in a " ++ lookup.description
      ++ " lookup " ++ place.phrase
  | .repeatedSubstitution kind place input =>
    "Removing duplicate " ++ kind.description ++ " " ++ place.phrase ++ ": "
      ++ glyphs.labels input ++ ", " ++ glyphs.labels input
  | .conflictingSubstitution kind place input =>
    "Duplicate target glyph for " ++ kind.description ++ " " ++ place.phrase ++ ": "
      ++ glyphs.labels input
  | .repeatedValue place glyph =>
    "Removing duplicate " ++ Kind.singlePos.description ++ " " ++ place.phrase ++ ": "
      ++ glyphs.label glyph
  | .conflictingValue place glyph =>
    "Conflicting values for " ++ Kind.singlePos.description ++ " " ++ place.phrase ++ ": "
      ++ glyphs.label glyph
  | .repeatedPair place first second =>
    "Removing duplicate " ++ Kind.pairPos.description ++ " " ++ place.phrase ++ ": "
      ++ glyphs.tokenLabel first ++ " " ++ glyphs.tokenLabel second
  | .conflictingPair place first second =>
    "Conflicting " ++ Kind.pairPos.description ++ " " ++ place.phrase ++ ": "
      ++ glyphs.tokenLabel first ++ " " ++ glyphs.tokenLabel second
      ++ "; choosing the first value"
  | .repeatedRule kind place =>
    "Removing duplicate " ++ kind.description ++ " rule " ++ place.phrase
  | .repeatedCursive place glyph =>
    "Cursive positioning " ++ place.phrase
      ++ ": previous statement already referenced the same glyph '" ++ glyphs.label glyph ++ "'"
  | .undefinedMarkClass place name =>
    "Mark class '" ++ name ++ "' is not defined " ++ place.phrase
  | .markInTwoClasses place glyph first second =>
    "Glyph '" ++ glyphs.label glyph ++ "' is in mark classes '" ++ first ++ "' and '" ++ second
      ++ "' " ++ place.phrase
  | .markWithTwoAnchors place glyph name =>
    "Glyph '" ++ glyphs.label glyph ++ "' has two different anchors in mark class '" ++ name
      ++ "' " ++ place.phrase
  | .baseWithTwoAnchors kind place glyph name =>
    baseWord kind ++ " glyph '" ++ glyphs.label glyph
      ++ "' has two different anchors for mark class '" ++ name ++ "' " ++ place.phrase
  | .baseWithoutAnchor kind place glyph name =>
    baseWord kind ++ " glyph '" ++ glyphs.label glyph ++ "' has no anchor for mark class '"
      ++ name ++ "' " ++ place.phrase ++ "; using (0,0)"
  | .repeatedComponentAnchor place glyph component name =>
    "Mark class '" ++ name ++ "' is used twice for component " ++ toString (component + 1)
      ++ " of ligature glyph '" ++ glyphs.label glyph ++ "' in the same statement "
      ++ place.phrase
  | .takenComponentAnchor place glyph component name =>
    "Component " ++ toString (component + 1) ++ " of ligature glyph '" ++ glyphs.label glyph
      ++ "' already has an anchor for mark class '" ++ name ++ "' from a previous statement "
      ++ place.phrase
  | .repeatedCaret glyph =>
    "Ligature caret for glyph '" ++ glyphs.label glyph ++ "' is already defined; ignoring this one"
  | .forcedSplit place =>
    "Pair positioning " ++ place.phrase
      ++ ": forced new subtable by overlapping glyph classes; some pairs may never be accessed"
  | .tableOverflow tag overflow =>
    tag.label ++ " table causes " ++ overflowPhrase overflow
  | .lookupOverflow kind place overflow =>
    place.heading ++ " " ++ overflowingRules kind overflow ++ " rules cause "
      ++ overflowPhrase overflow

end Cause

/-! ## Findings -/

/-- A cause, and where it arose. -/
structure Finding where
  site : Site
  cause : Cause
deriving DecidableEq

namespace Finding

/-- How bad a finding is. -/
def level (f : Finding) : Level := f.cause.level

/-- A finding in words, for the author of a font. -/
def diagnose (font : String) (glyphs : GlyphOrder) (f : Finding) : Diagnostic where
  level := f.level
  font := font
  site := f.site
  text := f.cause.text glyphs

@[simp] theorem level_diagnose (font : String) (glyphs : GlyphOrder) (f : Finding) :
    (f.diagnose font glyphs).level = f.level := rfl

end Finding

/-- The report of findings in the order in which they arose. -/
def reportOf (font : String) (glyphs : GlyphOrder) (limit : Nat) (fs : List Finding) : Report :=
  ⟨fs.map (Finding.diagnose font glyphs), limit⟩

end FontLayout
