import FontLayout.Document.Basic
import FontLayout.Json.Text
/-!
# Reading rule documents

A rule document is a JSON value. Records may be written as objects or as arrays of their first
fields, except for rules, which are objects. Fields may be left out where a default makes sense.
A rule is taken over whole before it is looked at, so nothing in it may be unreadable, not even
what is ignored.
-/
namespace FontLayout

open Document

namespace Json

/-! ## Names and values -/

/-- A list of strings. -/
def asStrings : Json → Option (List String) := asList asString

/-- A glyph set: one name, or a list of names. -/
def asGlyphNames : Json → Option GlyphNames
  | .string s => some (.one s)
  | j => j.asStrings.map .many

/-- A list of glyph sets. -/
def asGlyphSets : Json → Option (List GlyphNames) := asList asGlyphNames

/-- A reference to a lookup: a place, or a name. -/
def asLookupRef : Json → Option LookupRef
  | .string s => some (.name s)
  | j => j.asUInt64.map .index

/-- A kind of rules. -/
def asKind (j : Json) : Option Kind := j.asWord.bind Kind.ofKeyword?

/-- A flag. -/
def asFlag (j : Json) : Option Flag := j.asWord.bind Flag.ofKeyword?

/-- An anchor. -/
def asAnchor (j : Json) : Option Anchor := do
  match ← j.asRecord ["x", "y", "contour_point"] with
  | [x, y, point] =>
    some {
      x := ← required asInt16 x
      y := ← required asInt16 y
      contourPoint := ← optional asUInt16 point }
  | _ => none

/-- A value record. -/
def asValueRecord (j : Json) : Option ValueRecord := do
  match ← j.asRecord ["x_placement", "y_placement", "x_advance", "y_advance"] with
  | [xPlacement, yPlacement, xAdvance, yAdvance] =>
    some
      { xPlacement := ← optional asInt16 xPlacement
        yPlacement := ← optional asInt16 yPlacement
        xAdvance := ← optional asInt16 xAdvance
        yAdvance := ← optional asInt16 yAdvance }
  | _ => none

/-- Glyphs of a mark class that share an anchor. -/
def asMarkMember (j : Json) : Option MarkMember := do
  match ← j.asRecord ["glyphs", "anchor"] with
  | [glyphs, anchor] =>
    some { glyphs := ← required asGlyphNames glyphs, anchor := ← required asAnchor anchor }
  | _ => none

/-- An anchor for the marks of a class. -/
def asMarkAnchor (j : Json) : Option MarkAnchor := do
  match ← j.asRecord ["class", "anchor"] with
  | [markClass, anchor] =>
    some { markClass := ← required asString markClass, anchor := ← required asAnchor anchor }
  | _ => none

/-- Anchors for the marks of classes. -/
def asMarkAnchors : Json → Option (List MarkAnchor) := asList asMarkAnchor

/-- An input position of a contextual rule. -/
def asContextInput (j : Json) : Option Document.ContextInput := do
  match ← j.asRecord ["glyphs", "lookups"] with
  | [glyphs, lookups] =>
    some
      { glyphs := ← required asGlyphNames glyphs
        lookups := ← withDefault [] (asList asLookupRef) lookups }
  | _ => none

/-! ## Rules -/

/-- The surroundings of a contextual rule. -/
def asContext (j : Json) : Option Context := do
  match ← j.asRecord ["backtrack", "input", "lookahead"] with
  | [backtrack, input, lookahead] =>
    some
      { backtrack := ← withDefault [] asGlyphSets backtrack
        input := ← required (asList asContextInput) input
        lookahead := ← withDefault [] asGlyphSets lookahead }
  | _ => none

/-- What a rule of a kind does. -/
def asRuleBody (kind : Kind) (j : Json) : Option Document.RuleBody := do
  match kind with
  | .singleSub =>
    match ← j.asRecord ["target", "replacement"] with
    | [target, replacement] =>
      some (.singleSub (← required asGlyphNames target) (← required asGlyphNames replacement))
    | _ => none
  | .multipleSub =>
    match ← j.asRecord ["target", "replacement"] with
    | [target, replacement] =>
      some (.multipleSub (← required asString target) (← required asStrings replacement))
    | _ => none
  | .alternateSub =>
    match ← j.asRecord ["target", "alternates"] with
    | [target, alternates] =>
      some (.alternateSub (← required asString target) (← required asGlyphNames alternates))
    | _ => none
  | .ligatureSub =>
    match ← j.asRecord ["components", "replacement"] with
    | [components, replacement] =>
      some (.ligatureSub (← required asStrings components) (← required asString replacement))
    | _ => none
  | .chainSub => some (.chainSub (← j.asContext))
  | .reverseChainSub =>
    match ← j.asRecord ["backtrack", "target", "replacement", "lookahead"] with
    | [backtrack, target, replacement, lookahead] =>
      some
        (.reverseChainSub (← withDefault [] asGlyphSets backtrack)
          (← required asGlyphNames target) (← required asGlyphNames replacement)
          (← withDefault [] asGlyphSets lookahead))
    | _ => none
  | .singlePos =>
    match ← j.asRecord ["glyphs", "value"] with
    | [glyphs, value] =>
      some (.singlePos (← required asGlyphNames glyphs) (← required asValueRecord value))
    | _ => none
  | .pairPos =>
    match ← j.asRecord ["first", "second", "value1", "value2"] with
    | [first, second, value1, value2] =>
      some
        (.pairPos (← required asGlyphNames first) (← required asGlyphNames second)
          (← withDefault .empty asValueRecord value1) (← withDefault .empty asValueRecord value2))
    | _ => none
  | .cursivePos =>
    match ← j.asRecord ["glyph", "entry", "exit"] with
    | [glyph, entry, exit] =>
      some
        (.cursivePos (← required asString glyph) (← optional asAnchor entry)
          (← optional asAnchor exit))
    | _ => none
  | .markToBase =>
    match ← j.asRecord ["base", "marks"] with
    | [base, marks] =>
      some (.markToBase (← required asGlyphNames base) (← required asMarkAnchors marks))
    | _ => none
  | .markToLigature =>
    match ← j.asRecord ["ligature", "components"] with
    | [ligature, components] =>
      some
        (.markToLigature (← required asGlyphNames ligature)
          (← required (asList asMarkAnchors) components))
    | _ => none
  | .markToMark =>
    match ← j.asRecord ["base_mark", "marks"] with
    | [baseMark, marks] =>
      some (.markToMark (← required asGlyphNames baseMark) (← required asMarkAnchors marks))
    | _ => none
  | .chainPos => some (.chainPos (← j.asContext))

/-- How deep the parts of a rule may be nested. -/
def maxRuleDepth : Nat := 123

/-- A rule. -/
def asRule (j : Json) : Option Document.Rule := do
  let .object _ := j | none
  if j.isSound maxRuleDepth then
    match ← j.asRecord ["type", "line", "subtable_break"] with
    | [type, line, subtableBreak] =>
      let kind ← (← required asString type) |> Kind.ofKeyword?
      some
        { body := ← j.asRuleBody kind
          line := ← optional asUInt32 line
          subtableBreak := ← withDefault false asBool subtableBreak }
    | _ => none
  else none

/-! ## The parts of a document -/

/-- A lookup. -/
def asLookup (j : Json) : Option Document.Lookup := do
  match ← j.asRecord ["name", "kind", "flags", "mark_filter_set", "mark_attachment", "rules"] with
  | [name, kind, flags, markFilterSet, markAttachment, rules] =>
    some
      { name := ← optional asString name
        kind := ← required asKind kind
        flags := ← withDefault [] (asList asFlag) flags
        markFilterSet := ← optional asGlyphNames markFilterSet
        markAttachment := ← optional asGlyphNames markAttachment
        rules := ← withDefault [] (asList asRule) rules }
  | _ => none

/-- A feature. -/
def asFeature (j : Json) : Option Document.Feature := do
  match ← j.asRecord ["tag", "language_systems", "lookups"] with
  | [tag, languageSystems, lookups] =>
    some
      { tag := ← required asString tag
        languageSystems := ← withDefault [] (asList (asPair asString asString)) languageSystems
        lookups := ← required (asList asLookupRef) lookups }
  | _ => none

/-- Glyphs by their role. -/
def asGlyphClasses (j : Json) : Option Document.GlyphClasses := do
  match ← j.asRecord ["base", "ligature", "mark", "component"] with
  | [base, ligature, mark, component] =>
    some
      { base := ← withDefault (.many []) asGlyphNames base
        ligature := ← withDefault (.many []) asGlyphNames ligature
        mark := ← withDefault (.many []) asGlyphNames mark
        component := ← withDefault (.many []) asGlyphNames component }
  | _ => none

/-- The carets of a ligature. -/
def asCaret (j : Json) : Option Caret := do
  match ← j.asRecord ["glyph", "positions", "contour_points", "line"] with
  | [glyph, positions, contourPoints, line] =>
    some
      { glyph := ← required asString glyph
        positions := ← withDefault [] (asList asInt16) positions
        contourPoints := ← withDefault [] (asList asUInt16) contourPoints
        line := ← optional asUInt32 line }
  | _ => none

/-- Roles and carets. -/
def asGlyphFacts (j : Json) : Option Document.GlyphFacts := do
  match ← j.asRecord ["glyph_classes", "ligature_carets"] with
  | [classes, carets] =>
    some
      { classes := ← optional asGlyphClasses classes
        carets := ← withDefault [] (asList asCaret) carets }
  | _ => none

/-- Values by name; a repeated name keeps its first place and its last value. -/
def asDictionary {α : Type} (read : Json → Option α) : Json → Option (Dictionary α)
  | .object fields => do
    let values ← readAll read (fields.map Prod.snd)
    some (.ofList ((fields.map Prod.fst).zip values))
  | _ => none

/-- A rule document. -/
def asDocument (j : Json) : Option Document := do
  match ← j.asRecord
      ["font_name", "glyph_order", "classes", "mark_classes", "lookups", "features", "gdef"] with
  | [fontName, glyphOrder, classes, markClasses, lookups, features, glyphFacts] =>
    some
      { fontName := ← withDefault "" asString fontName
        glyphOrder := ← required asStrings glyphOrder
        classes := ← withDefault .empty (asDictionary asGlyphNames) classes
        markClasses := ← withDefault .empty (asDictionary (asList asMarkMember)) markClasses
        lookups := ← withDefault [] (asList asLookup) lookups
        features := ← withDefault [] (asList asFeature) features
        glyphFacts := ← withDefault ⟨none, []⟩ asGlyphFacts glyphFacts }
  | _ => none

end Json

/-- The document that a text is the written form of. -/
def Document.ofText? (text : String) : Option Document := (Json.ofText? text).bind Json.asDocument

end FontLayout
