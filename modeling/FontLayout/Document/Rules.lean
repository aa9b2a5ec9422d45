import FontLayout.Document.Scope
/-!
# The rules behind the rules of a document

A rule of a document may stand for several rules of the rule set: a substitution of sets for one
rule per target, a value for a set for one rule per glyph. All others stand for one rule, or for
none if a name in them is unknown.
-/
namespace FontLayout

open Document (GlyphNames)

/-- Targets paired with replacements: one replacement goes with every target, several go with as
many targets in order. Without targets or without replacements there are no pairs, and nothing
is wrong: what is missing was found when the names were resolved. -/
def pairUp (targets replacements : List Glyph) : Named (Option (List (Glyph × Glyph))) :=
  match targets, replacements with
  | [], _ => .pure none
  | _, [] => .pure none
  | targets, [r] => .pure (some (targets.map fun t => (t, r)))
  | targets, replacements =>
    if targets.length = replacements.length then .pure (some (targets.zip replacements))
    else .blame (.unevenSubstitution targets.length replacements.length) none

namespace Document

/-- The anchors for marks, by the names of their classes. -/
def markAnchors (marks : List MarkAnchor) : MarkAnchors :=
  marks.map fun m => (m.markClass, m.anchor)

end Document

namespace Scope

/-- An input position of a contextual rule. -/
def contextInput (s : Scope) (c : Document.ContextInput) : Named ContextInput := do
  let glyphs ← s.glyphSet c.glyphs
  let lookups ← Named.traverseSome s.lookup? c.lookups
  return { glyphs := glyphs, lookups := lookups }

/-- A run of glyphs in its surroundings. -/
def context (s : Scope) (c : Document.Context) : Named ChainContext := do
  let backtrack ← s.glyphSets c.backtrack
  let input ← Named.traverse s.contextInput c.input
  let lookahead ← s.glyphSets c.lookahead
  return { backtrack := backtrack, input := input, lookahead := lookahead }

/-- The pairs of a target and a replacement that two sets give. -/
def substitutions (s : Scope) (target replacement : GlyphNames) :
    Named (Option (List (Glyph × Glyph))) := do
  let targets ← s.glyphList target
  let replacements ← s.glyphList replacement
  pairUp targets replacements

/-- What a rule of a document stands for. -/
def expand (s : Scope) : Document.RuleBody → Named (List RuleBody)
  | .singleSub target replacement => do
    let pairs ← s.substitutions target replacement
    return (pairs.getD []).map fun p => .singleSub p.1 p.2
  | .multipleSub target replacement => do
    let target ← s.glyph? target
    let replacement ← Named.traverseAll s.glyph? replacement
    match target, replacement with
    | some t, some r => return [.multipleSub t r]
    | _, _ => return []
  | .alternateSub target alternates => do
    let alternates ← s.glyphList alternates
    let target ← s.glyph? target
    return target.toList.map fun t => .alternateSub t alternates
  | .ligatureSub components replacement => do
    let components ← Named.traverseAll s.glyph? components
    let replacement ← s.glyph? replacement
    match components, replacement with
    | some c, some r => return [.ligatureSub c r]
    | _, _ => return []
  | .chainSub context => (s.context context).map fun c => [.chainSub c]
  | .reverseChainSub backtrack target replacement lookahead => do
    match ← s.substitutions target replacement with
    | none => return []
    | some pairs =>
      let backtrack ← s.glyphSets backtrack
      let lookahead ← s.glyphSets lookahead
      return [.reverseChainSub backtrack pairs lookahead]
  | .singlePos glyphs value =>
    (s.glyphSet glyphs).map fun gs => gs.members.map fun g => .singlePos g value
  | .pairPos first second value1 value2 => do
    let first ← s.token first
    let second ← s.token second
    return [.pairPos first value1 second value2]
  | .cursivePos glyph entry exit => do
    let glyph ← s.glyph? glyph
    return glyph.toList.map fun g => .cursivePos g entry exit
  | .markToBase base marks =>
    (s.glyphSet base).map fun b => [.markToBase b (Document.markAnchors marks)]
  | .markToLigature ligature components =>
    (s.glyphSet ligature).map fun l => [.markToLigature l (components.map Document.markAnchors)]
  | .markToMark baseMark marks =>
    (s.glyphSet baseMark).map fun b => [.markToMark b (Document.markAnchors marks)]
  | .chainPos context => (s.context context).map fun c => [.chainPos c]

/-- The rules that a rule of a document stands for; a break before it precedes the first. -/
def rules (s : Scope) (r : Document.Rule) : Named (List Rule) :=
  (s.expand r.body).map fun bodies =>
    match bodies with
    | [] => []
    | first :: rest =>
      ⟨first, r.line, r.subtableBreak⟩ :: rest.map fun b => ⟨b, r.line, false⟩

end Scope
end FontLayout
