import FontLayout.Binary.ClassDef
import FontLayout.Diagnostic.Audit
import FontLayout.Layout.MarkIds
/-!
# The glyph definition table

The glyph definition table tells the role of each glyph, the carets inside ligatures, the mark
attachment classes and the mark filtering sets. Roles that are not given are inferred: a glyph
that marks attach to is a base, one that stands for several others is a ligature, and one in a
mark class is a mark; the last of these that applies counts.

Results:
* `GlyphDefinition.table_version`: the table has version 1.2 exactly when it has filtering sets.
-/
namespace FontLayout

/-! ## Roles -/

/-- The role of a glyph in shaping. -/
inductive Role where
  | base
  | ligature
  | mark
  | component
deriving DecidableEq

/-- The number of a role. -/
def Role.code : Role → UInt16
  | .base => 1
  | .ligature => 2
  | .mark => 3
  | .component => 4

/-- Every glyph of a set, with one role. -/
def GlyphSet.withRole (s : GlyphSet) (role : Role) : List (Glyph × Role) :=
  s.members.map fun g => (g, role)

/-- The roles that are stated. -/
def GlyphClasses.roles (c : GlyphClasses) : List (Glyph × Role) :=
  c.base.withRole .base ++ c.ligature.withRole .ligature ++ c.mark.withRole .mark
    ++ c.component.withRole .component

/-- The bases that a rule attaches marks to. -/
def RuleBody.baseRoles : RuleBody → List (Glyph × Role)
  | .markToBase base _ => base.withRole .base
  | _ => []

/-- The ligatures that a rule forms or attaches marks to. -/
def RuleBody.ligatureRoles : RuleBody → List (Glyph × Role)
  | .markToLigature ligature _ => ligature.withRole .ligature
  | .ligatureSub _ replacement => [(replacement, .ligature)]
  | _ => []

/-- The marks that a rule attaches other marks to. -/
def RuleBody.markRoles : RuleBody → List (Glyph × Role)
  | .markToMark baseMark _ => baseMark.withRole .mark
  | _ => []

/-- The members of a mark class. -/
def MarkClass.roles (c : MarkClass) : List (Glyph × Role) :=
  c.members.flatMap fun m => m.1.withRole .mark

/-- The roles that follow from the rules; a later one replaces an earlier one. -/
def inferredRoles (s : RuleSet) : List (Glyph × Role) :=
  let bodies := s.lookups.flatMap fun l => l.rules.map Rule.body
  bodies.flatMap RuleBody.baseRoles ++ bodies.flatMap RuleBody.ligatureRoles
    ++ bodies.flatMap RuleBody.markRoles ++ s.markClasses.flatMap MarkClass.roles

/-- The role of each glyph, stated or inferred. -/
def glyphRoles (s : RuleSet) : ByGlyph Role :=
  .ofLast (s.glyphFacts.classes.elim (inferredRoles s) GlyphClasses.roles)

/-! ## Contents -/

/-- What the table holds. -/
structure GlyphDefinition where
  roles : ByGlyph Role
  carets : ByGlyph CaretValues
  attachments : ByGlyph UInt16
  filterSets : List GlyphSet
deriving DecidableEq

/-- The glyphs that have carets so far, and the findings, last first. -/
def caretStep (s : Std.TreeSet Glyph × List Finding) (c : LigatureCaret) :
    Std.TreeSet Glyph × List Finding :=
  if s.1.contains c.glyph then
    (s.1, ⟨⟨none, none, c.line⟩, .repeatedCaret c.glyph⟩ :: s.2)
  else (s.1.insert c.glyph, s.2)

/-- A finding for each glyph that is given carets again; the first ones count. -/
def caretFindings (carets : List LigatureCaret) : List Finding :=
  (carets.foldl caretStep (∅, [])).2.reverse

namespace GlyphDefinition

/-- The contents that a rule set asks for. -/
def ofRules (s : RuleSet) (ids : MarkIds) : GlyphDefinition where
  roles := glyphRoles s
  carets := .ofFirst (s.glyphFacts.carets.map fun c => (c.glyph, c.carets))
  attachments := .ofFirst <| ids.attachments.sets.zipIdx.flatMap fun (set, i) =>
    set.members.map fun g => (g, UInt16.ofNat i + 1)
  filterSets := ids.filterSets.sets

/-- Whether there is nothing to write. -/
def isEmpty (d : GlyphDefinition) : Bool :=
  d.roles.isEmpty && d.carets.isEmpty && d.attachments.isEmpty && d.filterSets.isEmpty

/-! ## Encoding -/

/-- The tables of the carets of a ligature. -/
def caretTables : CaretValues → List Table
  | .positions xs => xs.map fun x => .words [1, x.toUInt16] .done
  | .points ps => ps.map fun p => .words [2, p] .done

/-- The table of the carets of all ligatures. -/
def caretListTable (carets : ByGlyph CaretValues) : Table :=
  .link (.near .coverage) (Coverage.table carets.keys) <|
    .countedLinks (.near .ligatureGlyph)
      (carets.values.map fun c => .countedLinks (.near .caretValue) (caretTables c) .done) .done

/-- A long offset to a coverage table that follows at once. -/
def filterSetLink : Link := ⟨.long, .coverage, .near, none⟩

/-- The table of the filtering sets. -/
def filterSetsTable (sets : List GlyphSet) : Table :=
  .word 1 <| .countedLinks filterSetLink (sets.map Coverage.table) .done

/-- The minor version: 2 brings the filtering sets. -/
def minorVersion (d : GlyphDefinition) : UInt16 := if d.filterSets.isEmpty then 0 else 2

/-- The whole table. Parts without content are left out; there is no list of attachment points. -/
def table (d : GlyphDefinition) : Table :=
  let roles := if d.roles.isEmpty then none else some (ClassDef.ofMap (d.roles.map Role.code)).table
  let carets := if d.carets.isEmpty then none else some (caretListTable d.carets)
  let attachments :=
    if d.attachments.isEmpty then none else some (ClassDef.ofMap d.attachments).table
  .words [1, d.minorVersion] <|
    .link? (.near .glyphClasses) roles <|
    .null .short <|
    .link? (.near .caretList) carets <|
    .link? (.near .markAttachClasses) attachments <|
    if d.filterSets.isEmpty then .done
    else .link (.near .markGlyphSets) (filterSetsTable d.filterSets) .done

theorem table_version (d : GlyphDefinition) : d.minorVersion = 2 ↔ d.filterSets ≠ [] := by
  unfold minorVersion
  cases d.filterSets <;> simp

/-- The bytes of the table, unless there is nothing to write. -/
def assemble (s : RuleSet) (ids : MarkIds) : Audit (Option ByteArray) := do
  let d := ofRules s ids
  Audit.tell (caretFindings s.glyphFacts.carets) ()
  if d.isEmpty then Audit.pure none
  else
    match d.table.encode with
    | .ok bytes => Audit.pure (some bytes)
    | .error overflow => Audit.stop ⟨.unknown, .tableOverflow .gdef overflow⟩

end GlyphDefinition
end FontLayout
