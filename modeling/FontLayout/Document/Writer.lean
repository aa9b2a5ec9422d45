import FontLayout.Document.Basic
import FontLayout.Json.Basic
/-!
# Writing rule documents

A document is written as a JSON value with every field in it, those with a default value
included. Only the parts of anchors and value records that are absent are left out.
-/
namespace FontLayout

/-! ## Names and values -/

/-- A value that may be absent, written as null if it is. -/
def Json.ofOption {α : Type} (write : α → Json) : Option α → Json
  | none => .null
  | some a => write a

/-- A field that is left out if its value is absent. -/
def Json.presentField {α : Type} (name : String) (write : α → Json) :
    Option α → List (String × Json)
  | none => []
  | some a => [(name, write a)]

/-- A list of values. -/
def Json.ofList {α : Type} (write : α → Json) (xs : List α) : Json := .array (xs.map write)

/-- A signed number of sixteen bits. -/
def Json.ofInt16 (x : Int16) : Json := .integer x.toInt

/-- An unsigned number of sixteen bits. -/
def Json.ofUInt16 (x : UInt16) : Json := .integer x.toNat

/-- An unsigned number of thirty-two bits. -/
def Json.ofUInt32 (x : UInt32) : Json := .integer x.toNat

/-- An anchor. -/
def Anchor.toJson (a : Anchor) : Json :=
  .object ([("x", .ofInt16 a.x), ("y", .ofInt16 a.y)]
    ++ Json.presentField "contour_point" .ofUInt16 a.contourPoint)

/-- A value record. -/
def ValueRecord.toJson (v : ValueRecord) : Json :=
  .object (Json.presentField "x_placement" .ofInt16 v.xPlacement
    ++ Json.presentField "y_placement" .ofInt16 v.yPlacement
    ++ Json.presentField "x_advance" .ofInt16 v.xAdvance
    ++ Json.presentField "y_advance" .ofInt16 v.yAdvance)

namespace Document

/-- A glyph set in the form in which it was given. -/
def GlyphNames.toJson : GlyphNames → Json
  | .one name => .string name
  | .many names => .ofList .string names

/-- Glyph sets. -/
def glyphSetsJson (sets : List GlyphNames) : Json := .ofList GlyphNames.toJson sets

/-- A reference to a lookup. -/
def LookupRef.toJson : LookupRef → Json
  | .index i => .integer i.toNat
  | .name s => .string s

/-- Glyphs of a mark class that share an anchor. -/
def MarkMember.toJson (m : MarkMember) : Json :=
  .object [("glyphs", m.glyphs.toJson), ("anchor", m.anchor.toJson)]

/-- An anchor for the marks of a class. -/
def MarkAnchor.toJson (m : MarkAnchor) : Json :=
  .object [("class", .string m.markClass), ("anchor", m.anchor.toJson)]

/-- Anchors for the marks of classes. -/
def markAnchorsJson (marks : List MarkAnchor) : Json := .ofList MarkAnchor.toJson marks

/-- An input position of a contextual rule. -/
def ContextInput.toJson (c : ContextInput) : Json :=
  .object [("glyphs", c.glyphs.toJson), ("lookups", .ofList LookupRef.toJson c.lookups)]

/-! ## Rules -/

/-- The fields of the surroundings of a contextual rule. -/
def Context.fields (c : Context) : List (String × Json) :=
  [("backtrack", glyphSetsJson c.backtrack), ("input", .ofList ContextInput.toJson c.input),
    ("lookahead", glyphSetsJson c.lookahead)]

/-- The kind of lookup that a rule belongs in. -/
def RuleBody.kind : RuleBody → Kind
  | .singleSub .. => .singleSub
  | .multipleSub .. => .multipleSub
  | .alternateSub .. => .alternateSub
  | .ligatureSub .. => .ligatureSub
  | .chainSub .. => .chainSub
  | .reverseChainSub .. => .reverseChainSub
  | .singlePos .. => .singlePos
  | .pairPos .. => .pairPos
  | .cursivePos .. => .cursivePos
  | .markToBase .. => .markToBase
  | .markToLigature .. => .markToLigature
  | .markToMark .. => .markToMark
  | .chainPos .. => .chainPos

/-- The fields of what a rule does. -/
def RuleBody.fields : RuleBody → List (String × Json)
  | .singleSub target replacement =>
    [("target", target.toJson), ("replacement", replacement.toJson)]
  | .multipleSub target replacement =>
    [("target", .string target), ("replacement", .ofList .string replacement)]
  | .alternateSub target alternates =>
    [("target", .string target), ("alternates", alternates.toJson)]
  | .ligatureSub components replacement =>
    [("components", .ofList .string components), ("replacement", .string replacement)]
  | .chainSub context => context.fields
  | .reverseChainSub backtrack target replacement lookahead =>
    [("backtrack", glyphSetsJson backtrack), ("target", target.toJson),
      ("replacement", replacement.toJson), ("lookahead", glyphSetsJson lookahead)]
  | .singlePos glyphs value => [("glyphs", glyphs.toJson), ("value", value.toJson)]
  | .pairPos first second value1 value2 =>
    [("first", first.toJson), ("second", second.toJson), ("value1", value1.toJson),
      ("value2", value2.toJson)]
  | .cursivePos glyph entry exit =>
    [("glyph", .string glyph), ("entry", .ofOption Anchor.toJson entry),
      ("exit", .ofOption Anchor.toJson exit)]
  | .markToBase base marks => [("base", base.toJson), ("marks", markAnchorsJson marks)]
  | .markToLigature ligature components =>
    [("ligature", ligature.toJson), ("components", .ofList markAnchorsJson components)]
  | .markToMark baseMark marks =>
    [("base_mark", baseMark.toJson), ("marks", markAnchorsJson marks)]
  | .chainPos context => context.fields

/-- A rule. -/
def Rule.toJson (r : Rule) : Json :=
  .object (("type", .string r.body.kind.keyword) :: r.body.fields
    ++ [("line", .ofOption .ofUInt32 r.line), ("subtable_break", .bool r.subtableBreak)])

/-! ## The parts of a document -/

/-- A lookup. -/
def Lookup.toJson (l : Lookup) : Json :=
  .object
    [("name", .ofOption .string l.name), ("kind", .string l.kind.keyword),
      ("flags", .ofList (fun f => .string f.keyword) l.flags),
      ("mark_filter_set", .ofOption GlyphNames.toJson l.markFilterSet),
      ("mark_attachment", .ofOption GlyphNames.toJson l.markAttachment),
      ("rules", .ofList Rule.toJson l.rules)]

/-- A feature. -/
def Feature.toJson (f : Feature) : Json :=
  .object
    [("tag", .string f.tag),
      ("language_systems",
        .ofList (fun s => .array [.string s.1, .string s.2]) f.languageSystems),
      ("lookups", .ofList LookupRef.toJson f.lookups)]

/-- Glyphs by their role. -/
def GlyphClasses.toJson (c : GlyphClasses) : Json :=
  .object
    [("base", c.base.toJson), ("ligature", c.ligature.toJson), ("mark", c.mark.toJson),
      ("component", c.component.toJson)]

/-- The carets of a ligature. -/
def Caret.toJson (c : Caret) : Json :=
  .object
    [("glyph", .string c.glyph), ("positions", .ofList .ofInt16 c.positions),
      ("contour_points", .ofList .ofUInt16 c.contourPoints),
      ("line", .ofOption .ofUInt32 c.line)]

/-- Roles and carets. -/
def GlyphFacts.toJson (f : GlyphFacts) : Json :=
  .object
    [("glyph_classes", .ofOption GlyphClasses.toJson f.classes),
      ("ligature_carets", .ofList Caret.toJson f.carets)]

/-- Values by name. -/
def dictionaryJson {α : Type} (write : α → Json) (d : Dictionary α) : Json :=
  .object (d.entries.map fun e => (e.1, write e.2))

end Document

/-- A rule document. -/
def Document.toJson (d : Document) : Json :=
  .object
    [("font_name", .string d.fontName), ("glyph_order", .ofList .string d.glyphOrder),
      ("classes", dictionaryJson GlyphNames.toJson d.classes),
      ("mark_classes", dictionaryJson (Json.ofList MarkMember.toJson) d.markClasses),
      ("lookups", .ofList Lookup.toJson d.lookups),
      ("features", .ofList Feature.toJson d.features), ("gdef", d.glyphFacts.toJson)]

end FontLayout
