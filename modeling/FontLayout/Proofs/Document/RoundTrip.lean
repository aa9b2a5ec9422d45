import FontLayout.Proofs.Json.Written
/-!
# Documents that were written

A document is written as a JSON value and read back from it unchanged: every glyph set in the form
in which it was given, every reference to a lookup as a place or as a name, every absent value
absent, and the entries of its dictionaries in their order. A rule is written as one object, its
type, what it does, its line and its break side by side; each part is read from its own fields. A
rule is only read if it is not nested too deeply, and what is written never is.

Results:
* `Json.restores_ruleBody`: what a rule does is read from among the other fields of the rule.
* `Json.isSound_rule`: how deep a rule is nested.
* `Document.asDocument_toJson`: a document that was written is read back unchanged.
-/
namespace FontLayout

open Document

namespace Json

/-! ## Names and values -/

theorem restores_glyphNames : Restores asGlyphNames GlyphNames.toJson := by
  intro names
  cases names with
  | one name => rfl
  | many names => exact congrArg (Option.map GlyphNames.many) (restores_string.list names)

theorem restores_glyphSets : Restores asGlyphSets glyphSetsJson := restores_glyphNames.list

theorem glyphNames_ne_null (names : GlyphNames) : names.toJson ≠ .null := by
  cases names <;> exact nofun

theorem restores_lookupRef : Restores asLookupRef LookupRef.toJson := by
  intro ref
  cases ref with
  | index i => exact congrArg (Option.map LookupRef.index) (asUInt64_integer i)
  | name s => rfl

theorem restores_kind : Restores asKind fun k => .string k.keyword := Kind.ofKeyword?_keyword

theorem restores_flag : Restores asFlag fun f => .string f.keyword := Flag.ofKeyword?_keyword

theorem restores_line : Restores (orNull asUInt32) (ofOption .ofUInt32) :=
  restores_uint32.orNull nofun

/-! ## Anchors and amounts -/

theorem restores_anchor : Restores asAnchor Anchor.toJson := by
  rintro ⟨x, y, point⟩
  have hx := restores_int16 x
  have hy := restores_int16 y
  cases point with
  | none =>
    have hrecord : (Anchor.mk x y none).toJson.asRecord ["x", "y", "contour_point"] =
        some [some (.ofInt16 x), some (.ofInt16 y), none] := rfl
    rw [asAnchor, hrecord]
    simp [required, optional, withDefault, hx, hy]
  | some p =>
    have hrecord : (Anchor.mk x y (some p)).toJson.asRecord ["x", "y", "contour_point"] =
        some [some (.ofInt16 x), some (.ofInt16 y), some (.ofUInt16 p)] := rfl
    have hp : orNull asUInt16 (.ofUInt16 p) = some (some p) := restores_uint16.orNull nofun (some p)
    rw [asAnchor, hrecord]
    simp [required, optional, withDefault, hx, hy, hp]

theorem anchor_ne_null (a : Anchor) : a.toJson ≠ .null := nofun

/-- Absent amounts are left out, so there are sixteen sorts of records. -/
theorem restores_valueRecord : Restores asValueRecord ValueRecord.toJson := by
  have hamount (x : Int16) : orNull asInt16 (.ofInt16 x) = some (some x) :=
    restores_int16.orNull nofun (some x)
  rintro ⟨_ | xp, _ | yp, _ | xa, _ | ya⟩ <;>
    simp [ValueRecord.toJson, presentField, asValueRecord, asRecord, hasRepeats, List.lookup_cons,
      optional, withDefault, hamount]

/-! ## Parts of rules -/

theorem restores_markMember : Restores asMarkMember MarkMember.toJson := by
  intro m
  have hrecord : m.toJson.asRecord ["glyphs", "anchor"] =
      some [some m.glyphs.toJson, some m.anchor.toJson] := asRecord_eq rfl rfl (by decide)
  rw [asMarkMember, hrecord]
  simp [required, restores_glyphNames m.glyphs, restores_anchor m.anchor]

theorem restores_markAnchor : Restores asMarkAnchor MarkAnchor.toJson := by
  intro m
  have hrecord : m.toJson.asRecord ["class", "anchor"] =
      some [some (.string m.markClass), some m.anchor.toJson] := asRecord_eq rfl rfl (by decide)
  rw [asMarkAnchor, hrecord]
  simp [required, asString, restores_anchor m.anchor]

theorem restores_markAnchors : Restores asMarkAnchors markAnchorsJson := restores_markAnchor.list

theorem restores_contextInput : Restores asContextInput ContextInput.toJson := by
  intro c
  have hrecord : c.toJson.asRecord ["glyphs", "lookups"] =
      some [some c.glyphs.toJson, some (.ofList LookupRef.toJson c.lookups)] :=
    asRecord_eq rfl rfl (by decide)
  rw [asContextInput, hrecord]
  simp [required, withDefault, restores_glyphNames c.glyphs, restores_lookupRef.list c.lookups]

/-! ## Rules -/

/-- The fields of a rule. -/
def ruleFields (r : Document.Rule) : List (String × Json) :=
  ("type", .string r.body.kind.keyword) :: r.body.fields
    ++ [("line", .ofOption .ofUInt32 r.line), ("subtable_break", .bool r.subtableBreak)]

theorem nodup_fieldNames (b : Document.RuleBody) : (b.fields.map Prod.fst).Nodup := by
  cases b <;> simp [Document.RuleBody.fields, Context.fields]

/-- What a rule does is told by fields of their own. -/
theorem asRecord_ruleFields (r : Document.Rule) :
    (object (ruleFields r)).asRecord (r.body.fields.map Prod.fst) =
      some (r.body.fields.map fun f => some f.2) := by
  refine asRecord_eq ?_ rfl (nodup_fieldNames r.body)
  obtain ⟨body, line, subtableBreak⟩ := r
  cases body <;> rfl

theorem asContext_ruleFields {r : Document.Rule} {c : Context} (h : r.body.fields = c.fields) :
    (object (ruleFields r)).asContext = some c := by
  have hrecord := asRecord_ruleFields r
  simp only [h, Context.fields, List.map_cons, List.map_nil] at hrecord
  simp [asContext, hrecord, required, withDefault, restores_glyphSets c.backtrack,
    restores_contextInput.list c.input, restores_glyphSets c.lookahead]

theorem restores_ruleBody (r : Document.Rule) :
    (object (ruleFields r)).asRuleBody r.body.kind = some r.body := by
  have hrecord := asRecord_ruleFields r
  obtain ⟨body, line, subtableBreak⟩ := r
  cases body
  all_goals
    simp only [Document.RuleBody.fields, List.map_cons, List.map_nil] at hrecord
    simp only [Document.RuleBody.kind]
  case singleSub target replacement =>
    simp [asRuleBody, hrecord, required, restores_glyphNames target,
      restores_glyphNames replacement]
  case multipleSub target replacement =>
    simp [asRuleBody, hrecord, required, asString, asStrings, restores_string.list replacement]
  case alternateSub target alternates =>
    simp [asRuleBody, hrecord, required, asString, restores_glyphNames alternates]
  case ligatureSub components replacement =>
    simp [asRuleBody, hrecord, required, asString, asStrings, restores_string.list components]
  case chainSub context =>
    have hcontext := asContext_ruleFields (r := ⟨.chainSub context, line, subtableBreak⟩) rfl
    simp [asRuleBody, hcontext]
  case reverseChainSub backtrack target replacement lookahead =>
    simp [asRuleBody, hrecord, required, withDefault, restores_glyphSets backtrack,
      restores_glyphNames target, restores_glyphNames replacement, restores_glyphSets lookahead]
  case singlePos glyphs value =>
    simp [asRuleBody, hrecord, required, restores_glyphNames glyphs, restores_valueRecord value]
  case pairPos first second value1 value2 =>
    simp [asRuleBody, hrecord, required, withDefault, restores_glyphNames first,
      restores_glyphNames second, restores_valueRecord value1, restores_valueRecord value2]
  case cursivePos glyph entry exit =>
    have hanchor := restores_anchor.orNull anchor_ne_null
    simp [asRuleBody, hrecord, required, optional, withDefault, asString, hanchor entry,
      hanchor exit]
  case markToBase base marks =>
    simp [asRuleBody, hrecord, required, restores_glyphNames base, restores_markAnchors marks]
  case markToLigature ligature components =>
    simp [asRuleBody, hrecord, required, restores_glyphNames ligature,
      restores_markAnchors.list components]
  case markToMark baseMark marks =>
    simp [asRuleBody, hrecord, required, restores_glyphNames baseMark, restores_markAnchors marks]
  case chainPos context =>
    have hcontext := asContext_ruleFields (r := ⟨.chainPos context, line, subtableBreak⟩) rfl
    simp [asRuleBody, hcontext]

/-! ## Nesting of rules -/

theorem isSound_glyphNames (n : Nat) (names : GlyphNames) :
    names.toJson.isSound (n + 1) = true := by
  cases names with
  | one name => rfl
  | many names => exact isSound_ofList (fun _ => rfl) names

theorem isSound_glyphSets (n : Nat) (sets : List GlyphNames) :
    (glyphSetsJson sets).isSound (n + 2) = true := isSound_ofList (isSound_glyphNames n) sets

theorem isSound_presentField {α : Type} {n : Nat} {write : α → Json}
    (h : ∀ a, (write a).isSound n = true) (name : String) (o : Option α) :
    ∀ f ∈ presentField name write o, f.2.isSound n = true := by
  cases o with
  | none => exact nofun
  | some a => exact List.forall_mem_singleton.2 (h a)

theorem isSound_anchor (n : Nat) (a : Anchor) : a.toJson.isSound (n + 1) = true := by
  refine isSound_object (List.forall_mem_append.2 ⟨?_, ?_⟩)
  · simp [ofInt16, isSound]
  · exact isSound_presentField (fun _ => rfl) _ _

theorem isSound_valueRecord (n : Nat) (v : ValueRecord) : v.toJson.isSound (n + 1) = true := by
  have hamount (name : String) (o : Option Int16) :
      ∀ f ∈ presentField name ofInt16 o, f.2.isSound n = true :=
    isSound_presentField (fun _ => rfl) name o
  refine isSound_object ?_
  simp only [List.forall_mem_append]
  exact ⟨⟨⟨hamount _ _, hamount _ _⟩, hamount _ _⟩, hamount _ _⟩

theorem isSound_markAnchors (n : Nat) (marks : List MarkAnchor) :
    (markAnchorsJson marks).isSound (n + 3) = true := by
  refine isSound_ofList (fun m => isSound_object ?_) marks
  simp [isSound, isSound_anchor]

theorem isSound_contextInput (n : Nat) (c : Document.ContextInput) :
    c.toJson.isSound (n + 2) = true := by
  have href (ref : LookupRef) : ref.toJson.isSound n = true := by cases ref <;> rfl
  refine isSound_object ?_
  simp [isSound_glyphNames, isSound_ofList href]

theorem isSound_contextFields (n : Nat) (c : Context) :
    ∀ f ∈ c.fields, f.2.isSound (n + 3) = true := by
  simp [Context.fields, isSound_glyphSets, isSound_ofList (isSound_contextInput n)]

theorem isSound_bodyFields (n : Nat) (b : Document.RuleBody) :
    ∀ f ∈ b.fields, f.2.isSound (n + 4) = true := by
  have hstrings (xs : List String) : (ofList string xs).isSound (n + 4) = true :=
    isSound_ofList (fun _ => rfl) xs
  cases b with
  | chainSub c => exact isSound_contextFields (n + 1) c
  | chainPos c => exact isSound_contextFields (n + 1) c
  | _ =>
    simp [Document.RuleBody.fields, isSound, hstrings, isSound_glyphNames, isSound_glyphSets,
      isSound_valueRecord, isSound_markAnchors, isSound_ofOption (isSound_anchor (n + 3)),
      isSound_ofList (isSound_markAnchors n)]

/-- A rule is nested at most five times. -/
theorem isSound_rule (n : Nat) (r : Document.Rule) : r.toJson.isSound (n + 5) = true := by
  have hline : (ofOption ofUInt32 r.line).isSound (n + 4) = true :=
    isSound_ofOption (fun _ => rfl) _
  refine isSound_object (List.forall_mem_append.2 ⟨List.forall_mem_cons.2 ⟨rfl, ?_⟩, ?_⟩)
  · exact isSound_bodyFields n r.body
  · simp [hline, isSound]

theorem restores_rule : Restores asRule Document.Rule.toJson := by
  intro r
  have hsound : (object (ruleFields r)).isSound maxRuleDepth = true := isSound_rule 118 r
  have hrecord : (object (ruleFields r)).asRecord ["type", "line", "subtable_break"] =
      some [some (.string r.body.kind.keyword), some (.ofOption .ofUInt32 r.line),
        some (.bool r.subtableBreak)] := by
    obtain ⟨body, line, subtableBreak⟩ := r
    cases body <;> exact asRecord_eq rfl rfl (by decide)
  change (object (ruleFields r)).asRule = some r
  simp [asRule, hsound, hrecord, required, optional, withDefault, asString, asBool,
    Kind.ofKeyword?_keyword r.body.kind, restores_ruleBody r, restores_line r.line]

/-! ## The parts of a document -/

theorem restores_lookup : Restores asLookup Document.Lookup.toJson := by
  intro l
  have hrecord : l.toJson.asRecord
      ["name", "kind", "flags", "mark_filter_set", "mark_attachment", "rules"] =
        some [some (.ofOption .string l.name), some (.string l.kind.keyword),
          some (.ofList (fun f => .string f.keyword) l.flags),
          some (.ofOption GlyphNames.toJson l.markFilterSet),
          some (.ofOption GlyphNames.toJson l.markAttachment),
          some (.ofList Document.Rule.toJson l.rules)] := asRecord_eq rfl rfl (by decide)
  have hsets := restores_glyphNames.orNull glyphNames_ne_null
  rw [asLookup, hrecord]
  simp [required, optional, withDefault, restores_string.orNull nofun l.name, restores_kind l.kind,
    restores_flag.list l.flags, hsets l.markFilterSet, hsets l.markAttachment,
    restores_rule.list l.rules]

theorem restores_feature : Restores asFeature Document.Feature.toJson := by
  intro f
  have hrecord : f.toJson.asRecord ["tag", "language_systems", "lookups"] =
      some [some (.string f.tag),
        some (.ofList (fun s => .array [.string s.1, .string s.2]) f.languageSystems),
        some (.ofList LookupRef.toJson f.lookups)] := asRecord_eq rfl rfl (by decide)
  have hsystems := (restores_string.pair restores_string).list f.languageSystems
  rw [asFeature, hrecord]
  simp [required, withDefault, asString, hsystems, restores_lookupRef.list f.lookups]

theorem restores_glyphClasses : Restores asGlyphClasses Document.GlyphClasses.toJson := by
  intro c
  have hrecord : c.toJson.asRecord ["base", "ligature", "mark", "component"] =
      some [some c.base.toJson, some c.ligature.toJson, some c.mark.toJson,
        some c.component.toJson] := asRecord_eq rfl rfl (by decide)
  rw [asGlyphClasses, hrecord]
  simp [withDefault, restores_glyphNames c.base, restores_glyphNames c.ligature,
    restores_glyphNames c.mark, restores_glyphNames c.component]

theorem restores_caret : Restores asCaret Caret.toJson := by
  intro c
  have hrecord : c.toJson.asRecord ["glyph", "positions", "contour_points", "line"] =
      some [some (.string c.glyph), some (.ofList .ofInt16 c.positions),
        some (.ofList .ofUInt16 c.contourPoints), some (.ofOption .ofUInt32 c.line)] :=
    asRecord_eq rfl rfl (by decide)
  rw [asCaret, hrecord]
  simp [required, optional, withDefault, asString, restores_int16.list c.positions,
    restores_uint16.list c.contourPoints, restores_line c.line]

theorem restores_glyphFacts : Restores asGlyphFacts Document.GlyphFacts.toJson := by
  intro f
  have hrecord : f.toJson.asRecord ["glyph_classes", "ligature_carets"] =
      some [some (.ofOption Document.GlyphClasses.toJson f.classes),
        some (.ofList Caret.toJson f.carets)] := asRecord_eq rfl rfl (by decide)
  rw [asGlyphFacts, hrecord]
  simp [optional, withDefault, restores_glyphClasses.orNull nofun f.classes,
    restores_caret.list f.carets]

end Json

/-- A document that was written is read back unchanged. -/
theorem Document.asDocument_toJson (d : Document) : d.toJson.asDocument = some d := by
  have hrecord : d.toJson.asRecord
      ["font_name", "glyph_order", "classes", "mark_classes", "lookups", "features", "gdef"] =
        some [some (.string d.fontName), some (.ofList .string d.glyphOrder),
          some (dictionaryJson GlyphNames.toJson d.classes),
          some (dictionaryJson (Json.ofList MarkMember.toJson) d.markClasses),
          some (.ofList Document.Lookup.toJson d.lookups),
          some (.ofList Document.Feature.toJson d.features), some d.glyphFacts.toJson] :=
    Json.asRecord_eq rfl rfl (by decide)
  rw [Json.asDocument, hrecord]
  simp [Json.required, Json.withDefault, Json.asString, Json.asStrings,
    Json.restores_string.list d.glyphOrder, Json.restores_glyphNames.dictionary d.classes,
    Json.restores_markMember.list.dictionary d.markClasses, Json.restores_lookup.list d.lookups,
    Json.restores_feature.list d.features, Json.restores_glyphFacts d.glyphFacts]

end FontLayout
