import FontLayout.Layout.Assembly
import FontLayout.Layout.GlyphDefinition
import FontLayout.Lookup.Distinct
import FontLayout.Lookup.Validation
/-!
# Compiling a rule set

A rule set is first looked at as a whole. Then each lookup is freed of duplicates and looked at
by itself, up to the first that cannot be mended. From the rest, the substitution table, the
positioning table and the glyph definition table are made, in this order. There are three
outcomes: the tables, a failure with errors, or a stop with one fatal finding at the end.
-/
namespace FontLayout

/-- The layout tables of a font; a table that is not wanted or would be empty is missing. -/
structure LayoutTables where
  gdef : Option ByteArray
  gsub : Option ByteArray
  gpos : Option ByteArray
deriving DecidableEq

namespace LayoutTables

/-- The tables that are there, by tag in ascending order. -/
def toList (t : LayoutTables) : List (Tag × ByteArray) :=
  [(Tag.gdef, t.gdef), (Tag.gpos, t.gpos), (Tag.gsub, t.gsub)].filterMap fun (tag, bytes) =>
    bytes.map fun bytes => (tag, bytes)

end LayoutTables

/-! ## Lookups -/

namespace RuleSet

/-- The first feature that uses each lookup. -/
def firstUses (s : RuleSet) : Std.TreeMap Nat Tag :=
  s.features.foldl (fun t f => f.lookups.foldl (fun t i => t.insertIfNew i f.tag) t) ∅

/-- How messages refer to each lookup. -/
def lookupPlaces (s : RuleSet) : List LookupPlace :=
  let uses := s.firstUses
  s.lookups.zipIdx.map fun (l, i) => ⟨uses[i]?, l.name⟩

end RuleSet

/-- A lookup, the place by which messages refer to it, its distinct rules and its marks. -/
structure ResolvedLookup where
  lookup : Lookup
  place : LookupPlace
  rules : List Rule
  marks : Option MarkSet

/-- Frees a lookup of duplicates and looks at the rest. -/
def resolveLookup (defined : List MarkClass) (l : Lookup × LookupPlace) : Audit ResolvedLookup := do
  let rules ← distinctRules l.1 l.2
  let marks ← validateLookup l.1.kind defined l.2 rules
  Audit.pure ⟨l.1, l.2, rules, marks⟩

/-- All lookups in order, up to the first that cannot be mended. -/
def resolveLookups (s : RuleSet) : Audit (List ResolvedLookup) :=
  Audit.traverse (resolveLookup s.markClasses) (s.lookups.zip s.lookupPlaces)

/-! ## Tables -/

/-- A lookup with the flags that the font holds for it. -/
def ResolvedLookup.prepare (ids : MarkIds) (l : ResolvedLookup) : PreparedLookup where
  kind := l.lookup.kind
  rules := l.rules
  marks := l.marks
  place := l.place
  flags := ids.flags l.lookup
  filterSet := ids.filterSetId? l.lookup

/-- The contents of the table of one purpose. -/
def tableInput (s : RuleSet) (ids : MarkIds) (resolved : List ResolvedLookup) (p : Purpose) :
    TableInput where
  purpose := p
  lookups := (resolved.filter (·.lookup.kind.purpose == p)).map (·.prepare ids)
  features := s.features
  places := s.placesFor p

/-- The table of one purpose, if it is wanted and has lookups. -/
def assembleTable (o : Options) (wanted : Bool) (input : TableInput) :
    Audit (Option ByteArray) :=
  if wanted && !input.lookups.isEmpty then (input.assemble o).map some else .pure none

/-- The tables of a rule set, with everything that is found on the way. -/
def auditRules (s : RuleSet) (o : Options) : Audit LayoutTables := do
  Audit.tell (surveyFindings s) ()
  let resolved ← resolveLookups s
  let ids := MarkIds.ofLookups s.lookups
  let gsub ← assembleTable o o.gsub (tableInput s ids resolved .substitution)
  let gpos ← assembleTable o o.gpos (tableInput s ids resolved .positioning)
  let gdef ← if o.gdef then GlyphDefinition.assemble s ids else Audit.pure none
  Audit.pure ⟨gdef, gsub, gpos⟩

/-! ## Outcomes -/

/-- Why there are no tables: a fatal finding stopped the work, or there are errors. -/
inductive Failure where
  | stopped (report : Report)
  | errors (report : Report)
deriving DecidableEq

namespace Failure

/-- Everything that was found. -/
def report : Failure → Report
  | .stopped report => report
  | .errors report => report

/-- A failure in words, with the report. -/
def message : Failure → String
  | .stopped report => "Compilation stopped by a fatal error\n" ++ report.render
  | .errors report =>
    "Compilation failed with " ++ toString report.errorCount ++ " errors\n" ++ report.render

end Failure

/-- The tables of a font, with notes and warnings. -/
structure Compilation where
  tables : LayoutTables
  report : Report
deriving DecidableEq

/-- Compiles a rule set for a font whose glyphs have these names. -/
def compile (s : RuleSet) (glyphs : GlyphOrder) (o : Options) : Except Failure Compilation :=
  let audit := auditRules s o
  let report := reportOf s.fontName glyphs o.maxMessages audit.findings
  match audit.value with
  | none => .error (.stopped report)
  | some tables => if report.hasErrors then .error (.errors report) else .ok ⟨tables, report⟩

end FontLayout
