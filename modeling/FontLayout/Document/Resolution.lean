import FontLayout.Disk.Basic
import FontLayout.Document.Reader
import FontLayout.Document.Rules
/-!
# From documents to rule sets

Resolving a document replaces the names in it by what they mean: glyphs by the glyph order,
classes by the classes written before, lookups by all lookups of the document. Every name that
means nothing is found in one pass, and with any finding there is no rule set.

Results:
* `Document.resolve_ok`: a rule set comes out only of a document without findings.
-/
namespace FontLayout

namespace Document

/-! ## Glyphs and classes -/

/-- Names seen so far, and a finding for each that was there before, last first. -/
def repeatStep (s : Std.TreeSet String × List Finding) (name : String) :
    Std.TreeSet String × List Finding :=
  if s.1.contains name then (s.1, ⟨.unknown, .repeatedGlyphName name⟩ :: s.2)
  else (s.1.insert name, s.2)

/-- What is wrong with a glyph order. -/
def glyphOrderFindings (names : List String) : List Finding :=
  let repeats := (names.foldl repeatStep (∅, [])).2.reverse
  if maxGlyphs < names.length then repeats ++ [⟨.unknown, .tooManyGlyphs names.length⟩]
  else repeats

/-- The glyph order of a document, as far as glyphs can be numbered. -/
def glyphs (d : Document) : GlyphOrder := .ofNames (d.glyphOrder.take maxGlyphs)

/-- A scope, and the findings on the way to it, by statement, last first. -/
structure ScopeState where
  scope : Scope
  findings : List (List Finding)

/-- Adds one more class, which may refer to those before it. -/
def addClass (s : ScopeState) (c : String × GlyphNames) : ScopeState :=
  let gs := s.scope.glyphList c.2
  { scope := { s.scope with classes := s.scope.classes.insert c.1 gs.value }
    findings := gs.findingsAt .unknown :: s.findings }

/-- The scope of a document before its lookups are known. -/
def classScope (d : Document) : ScopeState :=
  d.classes.entries.foldl addClass ⟨⟨d.glyphs, ∅, ∅, 0⟩, []⟩

/-- The members of a mark class. -/
def markMembers (s : Scope) (c : String × List MarkMember) : Named MarkClass :=
  (Named.traverse (fun m => (s.glyphSet m.glyphs).map fun gs => (gs, m.anchor)) c.2).map
    fun members => ⟨c.1, members⟩

/-! ## Lookups -/

/-- The site of a lookup of a document. -/
def Lookup.site (l : Lookup) : Site := ⟨none, l.name, none⟩

/-- The flags of a lookup; a filtering set brings its flag. -/
def Lookup.flagBits (l : Lookup) : UInt16 :=
  let own := l.flags.foldl (fun bits f => bits ||| f.bit) 0
  if l.markFilterSet.isSome then own ||| useMarkFilteringSet else own

/-- A lookup without its rules. -/
def Lookup.frame (s : Scope) (l : Lookup) : Named FontLayout.Lookup := do
  let filterSet ← s.glyphSet? l.markFilterSet
  let attachment ← s.glyphSet? l.markAttachment
  return {
    name := l.name
    kind := l.kind
    flags := l.flagBits
    markFilterSet := filterSet
    markAttachment := attachment
    rules := [] }

/-- Lookups without rules so far, last first; the places of their names; and the findings, by
lookup, last first. -/
structure FrameState where
  frames : List FontLayout.Lookup
  names : Std.TreeMap String Nat
  count : Nat
  findings : List (List Finding)

/-- Adds one more lookup. A name that is used again stands for the later lookup. -/
def addFrame (scope : Scope) (s : FrameState) (l : Lookup) : FrameState :=
  let frame := l.frame scope
  let repeated : List Finding :=
    match l.name with
    | some name =>
      if s.names.contains name then [⟨l.site, .repeatedLookupName name⟩] else []
    | none => []
  { frames := frame.value :: s.frames
    names := l.name.elim s.names fun name => s.names.insert name s.count
    count := s.count + 1
    findings := (frame.findingsAt l.site ++ repeated) :: s.findings }

/-- The lookups of a document without their rules. -/
def lookupFrames (d : Document) (scope : Scope) : FrameState :=
  d.lookups.foldl (addFrame scope) ⟨[], ∅, 0, []⟩

/-- The rules of a lookup, and the findings at their lines. -/
def Lookup.resolveRules (s : Scope) (l : Lookup) : List FontLayout.Rule × List Finding :=
  let rs := l.rules.map fun r => (s.rules r, l.site.atLine r.line)
  (rs.flatMap fun r => r.1.value, rs.flatMap fun r => r.1.findingsAt r.2)

/-! ## Features -/

/-- A feature, unless its tag is invalid; then nothing else of it is looked at. -/
def Feature.resolve (s : Scope) (f : Feature) : Option FontLayout.Feature × List Finding :=
  let tag := Scope.tag? f.tag
  match tag.value with
  | none => (none, tag.findingsAt .unknown)
  | some t =>
    let site : Site := ⟨some t, none, none⟩
    let systems := Named.traverseSome Scope.system? f.languageSystems
    let lookups := Named.traverseSome s.lookup? f.lookups
    (some ⟨t, systems.value, lookups.value⟩, systems.findingsAt site ++ lookups.findingsAt site)

/-! ## Roles and carets -/

/-- Glyphs by their role. -/
def GlyphClasses.resolve (s : Scope) (c : GlyphClasses) : Named FontLayout.GlyphClasses := do
  let base ← s.glyphSet c.base
  let ligature ← s.glyphSet c.ligature
  let mark ← s.glyphSet c.mark
  let component ← s.glyphSet c.component
  return { base := base, ligature := ligature, mark := mark, component := component }

/-- The roles of a document, if it states them. -/
def GlyphFacts.resolveClasses (s : Scope) (f : GlyphFacts) :
    Named (Option FontLayout.GlyphClasses) :=
  match f.classes with
  | none => .pure none
  | some c => (c.resolve s).map some

/-- The values of carets: points of the outline only if there are no positions. -/
def Caret.values (c : Caret) : CaretValues :=
  if c.positions.isEmpty && !c.contourPoints.isEmpty then .points c.contourPoints
  else .positions c.positions

/-- The carets of a ligature, unless it is unknown. -/
def Caret.resolve (s : Scope) (c : Caret) : Named (Option LigatureCaret) :=
  (s.glyph? c.glyph).map fun g => g.map fun g => ⟨g, c.values, c.line⟩

/-! ## Documents -/

/-- The rule set of a document with unknown names left out, and all findings in order. -/
def audit (d : Document) : RuleSet × List Finding :=
  let classes := d.classScope
  let marks := Named.traverse (markMembers classes.scope) d.markClasses.entries
  let frames := d.lookupFrames classes.scope
  let scope := { classes.scope with lookups := frames.names, lookupCount := frames.count }
  let rules := d.lookups.map (Lookup.resolveRules scope)
  let lookups := (frames.frames.reverse.zip rules).map fun (l, rs) => { l with rules := rs.1 }
  let features := d.features.map (Feature.resolve scope)
  let roles := d.glyphFacts.resolveClasses scope
  let carets := d.glyphFacts.carets.map fun c => (c.resolve scope, Site.unknown.atLine c.line)
  ( { fontName := d.fontName
      lookups := lookups
      features := features.filterMap Prod.fst
      markClasses := marks.value
      glyphFacts := ⟨roles.value, carets.filterMap fun c => c.1.value⟩ },
    glyphOrderFindings d.glyphOrder ++ classes.findings.reverse.flatten
      ++ marks.findingsAt .unknown ++ frames.findings.reverse.flatten
      ++ rules.flatMap Prod.snd ++ features.flatMap Prod.snd ++ roles.findingsAt .unknown
      ++ carets.flatMap fun c => c.1.findingsAt c.2 )

/-- How many findings on a document are printed: all of them. -/
def messageLimit : Nat := 0xFFFFFFFFFFFFFFFF

/-- The rule set and the glyph order of a document, or the report of what is wrong with it. -/
def resolve (d : Document) : Except Report (RuleSet × GlyphOrder) :=
  let (rules, findings) := d.audit
  let report := reportOf d.fontName d.glyphs messageLimit findings
  if report.hasErrors then .error report else .ok (rules, d.glyphs)

theorem resolve_ok {d : Document} {r : RuleSet × GlyphOrder} (h : d.resolve = .ok r) :
    (reportOf d.fontName d.glyphs messageLimit d.audit.2).hasErrors = false := by
  unfold resolve at h
  dsimp only at h
  split at h
  · cases h
  · next hr => simpa using hr

end Document

/-! ## Loading -/

/-- Why there is no rule set: the file cannot be read, it is not text, its text is no document, or
the document has findings. -/
inductive LoadError where
  | unreadable (error : DiskError)
  | notText
  | malformed
  | unresolved (report : Report)
deriving DecidableEq

namespace LoadError

/-- The error in words; the path is that of the file. -/
def message (path : String) : LoadError → String
  | .unreadable error => "Failed to read '" ++ path ++ "': " ++ error.message
  | .notText => "Failed to read '" ++ path ++ "': stream did not contain valid UTF-8"
  | .malformed => "Malformed rule source: not a rule document"
  | .unresolved report =>
    toString report.errorCount ++ " errors in rule source\n" ++ report.render

end LoadError

/-- The rule set of a document in its written form. -/
def loadText (text : String) : Except LoadError (RuleSet × GlyphOrder) :=
  match Document.ofText? text with
  | none => .error .malformed
  | some d => d.resolve.mapError .unresolved

/-- The rule set of a file, given what reading the file brought. -/
def loadFile (content : Except DiskError ByteArray) : Except LoadError (RuleSet × GlyphOrder) :=
  match content with
  | .error e => .error (.unreadable e)
  | .ok bytes =>
    match String.fromUTF8? bytes with
    | none => .error .notText
    | some text => loadText text

end FontLayout
