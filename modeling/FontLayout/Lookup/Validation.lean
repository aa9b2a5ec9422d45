import FontLayout.Lookup.Marks
/-!
# Validation

Validation finds what is doubtful in a rule set without changing it. One part looks across
lookups: mark attachment classes that overlap, filtering flags without a set, references to
lookups that are not there. The other part looks into the lookups that attach glyphs: repeated
cursive glyphs, and anchors that are given twice or not at all. Nothing here stops the work.
-/
namespace FontLayout

/-! ## Across lookups -/

/-- The most mark attachment classes that lookup flags can refer to. -/
def maxAttachmentClasses : Nat := 255

/-- The name of a lookup in messages about several lookups. -/
def Lookup.nameInMessages (l : Lookup) : String := l.name.getD "<anonymous>"

/-- The place of a lookup, when nothing is known of the features that use it. -/
def Lookup.ownPlace (l : Lookup) : LookupPlace := ⟨none, l.name⟩

/-- An attachment class, with the name of the lookup that first used it. -/
abbrev NamedClass := GlyphSet × String

/-- The first attachment class that differs from a class and shares a glyph with it. -/
def overlapping? (seen : List NamedClass) (s : GlyphSet) : Option NamedClass :=
  seen.find? fun c => c.1 ≠ s && c.1.intersects s

/-- The attachment classes after one more lookup, in order. Overlapping classes do not count. -/
def attachmentsWith (seen : List NamedClass) (l : Lookup) : List NamedClass :=
  match l.markAttachment with
  | none => seen
  | some s =>
    if (overlapping? seen s).isSome || seen.any (·.1 == s) then seen
    else seen ++ [(s, l.nameInMessages)]

/-- What a lookup's attachment class says against those before it. -/
def attachmentFindings (seen : List NamedClass) (l : Lookup) : List Finding :=
  match l.markAttachment.bind (overlapping? seen) with
  | none => []
  | some other => [⟨l.ownPlace.site, .overlappingAttachment l.nameInMessages other.2⟩]

/-- A lookup that says it has a filtering set, and has none. -/
def filterSetFindings (l : Lookup) : List Finding :=
  if l.flags &&& useMarkFilteringSet = useMarkFilteringSet ∧ l.markFilterSet.isNone then
    [⟨l.ownPlace.site, .missingFilterSet l.ownPlace⟩]
  else []

/-- What is wrong with one reference from a contextual rule of a lookup. -/
def referenceCause? (lookups : Array Lookup) (l : Lookup) (i : Nat) : Option Cause :=
  match lookups[i]? with
  | none => some (.missingLookup l.ownPlace)
  | some other =>
    if other.kind.purpose ≠ l.kind.purpose then
      some (.foreignLookup l.ownPlace other.nameInMessages)
    else none

/-- What is wrong with the references of a lookup's rules. -/
def referenceFindings (lookups : Array Lookup) (l : Lookup) : List Finding :=
  l.rules.flatMap fun r =>
    (r.body.references.filterMap (referenceCause? lookups l)).map fun cause =>
      ⟨l.ownPlace.siteAt r.line, cause⟩

/-- The state of looking across lookups: the attachment classes, and the findings by lookup, last
first. -/
structure Survey where
  attachments : List NamedClass
  findings : List (List Finding)

/-- Looks at one more lookup. -/
def Survey.step (lookups : Array Lookup) (s : Survey) (l : Lookup) : Survey where
  attachments := attachmentsWith s.attachments l
  findings :=
    (attachmentFindings s.attachments l ++ filterSetFindings l ++ referenceFindings lookups l)
      :: s.findings

/-- Features that use a lookup that does not exist. -/
def featureFindings (s : RuleSet) : List Finding :=
  (s.features.filter fun f => f.lookups.any (s.lookups.length ≤ ·)).map fun f =>
    ⟨⟨some f.tag, none, none⟩, .featureMissingLookup f.tag⟩

/-- What is wrong with a rule set as a whole. -/
def surveyFindings (s : RuleSet) : List Finding :=
  let survey := s.lookups.foldl (Survey.step s.lookups.toArray) ⟨[], []⟩
  let count := survey.attachments.length
  let tooMany : List Finding :=
    if maxAttachmentClasses < count then [⟨.unknown, .tooManyAttachments count⟩] else []
  survey.findings.reverse.flatten ++ tooMany ++ featureFindings s

/-! ## Cursive lookups -/

/-- The cursive glyphs seen so far, and the findings, last first. -/
def cursiveStep (place : LookupPlace) (s : Std.TreeSet Glyph × List Finding) (r : Rule) :
    Std.TreeSet Glyph × List Finding :=
  match r.body with
  | .cursivePos glyph _ _ =>
    if s.1.contains glyph then
      (s.1, ⟨place.siteAt r.line, .repeatedCursive place glyph⟩ :: s.2)
    else (s.1.insert glyph, s.2)
  | _ => s

/-- A finding for each cursive rule whose glyph had one before. -/
def cursiveFindings (place : LookupPlace) (rules : List Rule) : List Finding :=
  (rules.foldl (cursiveStep place) (∅, [])).2.reverse

/-! ## Marks on bases -/

/-- An anchor that a rule gives to a base for the marks of one class. -/
structure BaseAnchor where
  glyph : Glyph
  id : UInt16
  name : String
  anchor : Anchor
  line : Option UInt32
deriving DecidableEq

/-- Every anchor that rules give to bases for the marks of a lookup, in order. -/
def baseAnchors (marks : MarkSet) (rules : List Rule) : List BaseAnchor :=
  rules.flatMap fun r =>
    match r.body.baseAnchors? with
    | none => []
    | some (bases, anchors) =>
      let known := anchors.filterMap fun a => (marks.classId? a.1).map fun id => (id, a)
      bases.members.flatMap fun g => known.map fun (id, a) => ⟨g, id, a.1, a.2, r.line⟩

/-- Anchors seen so far: the first anchor of each base for each class, the bases, last first, and
the findings, last first. -/
structure BaseCheck where
  anchors : Std.TreeMap Glyph (Std.TreeMap UInt16 Anchor)
  bases : List Glyph
  findings : List Finding

/-- Looks at one more anchor. -/
def BaseCheck.step (kind : Kind) (place : LookupPlace) (s : BaseCheck) (a : BaseAnchor) :
    BaseCheck :=
  match s.anchors[a.glyph]? with
  | none =>
    let row : Std.TreeMap UInt16 Anchor := ∅
    { s with
      anchors := s.anchors.insert a.glyph (row.insert a.id a.anchor)
      bases := a.glyph :: s.bases }
  | some row =>
    match row[a.id]? with
    | none => { s with anchors := s.anchors.insert a.glyph (row.insert a.id a.anchor) }
    | some anchor =>
      if anchor ≠ a.anchor then
        let cause := .baseWithTwoAnchors kind place a.glyph a.name
        { s with findings := ⟨place.siteAt a.line, cause⟩ :: s.findings }
      else s

/-- A finding for each base and class of the lookup without an anchor. -/
def missingAnchors (kind : Kind) (place : LookupPlace) (marks : MarkSet) (s : BaseCheck) :
    List Finding :=
  s.bases.reverse.flatMap fun g =>
    let row := s.anchors.getD g ∅
    marks.classes.zipIdx.filterMap fun (name, id) =>
      if row.contains (UInt16.ofNat id) then none
      else some ⟨place.site, .baseWithoutAnchor kind place g name⟩

/-- What is doubtful about the anchors of bases. -/
def baseFindings (kind : Kind) (place : LookupPlace) (marks : MarkSet) (rules : List Rule) :
    List Finding :=
  let s := (baseAnchors marks rules).foldl (BaseCheck.step kind place) ⟨∅, [], []⟩
  s.findings.reverse ++ missingAnchors kind place marks s

/-! ## Marks on ligatures -/

/-- An anchor that a rule gives to a component of a ligature for the marks of one class. The rule
is known by its place in the lookup. -/
structure ComponentAnchor where
  glyph : Glyph
  component : Nat
  id : UInt16
  name : String
  rule : Nat
  line : Option UInt32
deriving DecidableEq

namespace ComponentAnchor

/-- What may have one anchor only: a component of a ligature, for one class. -/
def slot (a : ComponentAnchor) : List Nat := [a.glyph.toNat, a.component, a.id.toNat]

end ComponentAnchor

/-- Every anchor that rules give to components for the marks of a lookup, in order. -/
def componentAnchors (marks : MarkSet) (rules : List Rule) : List ComponentAnchor :=
  rules.zipIdx.flatMap fun (r, i) =>
    match r.body with
    | .markToLigature ligature components =>
      let known := components.zipIdx.flatMap fun (anchors, component) =>
        anchors.filterMap fun a => (marks.classId? a.1).map fun id => (component, id, a.1)
      ligature.members.flatMap fun g =>
        known.map fun (component, id, name) => ⟨g, component, id, name, i, r.line⟩
    | _ => []

/-- The rule that first gave each slot its anchor, and the findings, last first. -/
def componentStep (place : LookupPlace) (s : Std.TreeMap (List Nat) Nat × List Finding)
    (a : ComponentAnchor) : Std.TreeMap (List Nat) Nat × List Finding :=
  match s.1[a.slot]? with
  | none => (s.1.insert a.slot a.rule, s.2)
  | some rule =>
    let cause : Cause :=
      if rule = a.rule then .repeatedComponentAnchor place a.glyph a.component a.name
      else .takenComponentAnchor place a.glyph a.component a.name
    (s.1, ⟨place.siteAt a.line, cause⟩ :: s.2)

/-- A finding for each anchor of a component that has one already. -/
def ligatureFindings (place : LookupPlace) (marks : MarkSet) (rules : List Rule) :
    List Finding :=
  ((componentAnchors marks rules).foldl (componentStep place) (∅, [])).2.reverse

/-! ## One lookup -/

/-- Looks at the rules of one lookup; a lookup that attaches marks gets its marks. -/
def validateLookup (kind : Kind) (defined : List MarkClass) (place : LookupPlace)
    (rules : List Rule) : Audit (Option MarkSet) :=
  match kind with
  | .cursivePos => .tell (cursiveFindings place rules) none
  | .markToBase | .markToMark => do
    let marks ← collectMarks defined place rules
    Audit.tell (baseFindings kind place marks rules) (some marks)
  | .markToLigature => do
    let marks ← collectMarks defined place rules
    Audit.tell (ligatureFindings place marks rules) (some marks)
  | _ => .tell [] none

end FontLayout
