import FontLayout.Glyph.Basic
import FontLayout.Tag
import FontLayout.Value
/-!
# Rules

A rule changes glyphs or moves them. Every rule has a kind, every lookup holds rules of one kind,
and the kind decides whether the lookup belongs to the substitution or to the positioning table.
-/
namespace FontLayout

/-! ## Purposes and kinds -/

/-- What a lookup does: replace glyphs, or place them. -/
inductive Purpose where
  | substitution
  | positioning
deriving DecidableEq

namespace Purpose

/-- The table that holds lookups of this purpose. -/
def tag : Purpose → Tag
  | .substitution => .gsub
  | .positioning => .gpos

/-- How rules of this purpose are called in messages. -/
def description : Purpose → String
  | .substitution => "substitution"
  | .positioning => "positioning"

/-- The lookup type that stands for an indirect subtable. -/
def extensionType : Purpose → UInt16
  | .substitution => 7
  | .positioning => 9

end Purpose

/-- The kinds of rules, and of the lookups that hold them. -/
inductive Kind where
  | singleSub
  | multipleSub
  | alternateSub
  | ligatureSub
  | chainSub
  | reverseChainSub
  | singlePos
  | pairPos
  | cursivePos
  | markToBase
  | markToLigature
  | markToMark
  | chainPos
deriving DecidableEq

namespace Kind

/-- Every kind, substitutions first. -/
def all : List Kind :=
  [.singleSub, .multipleSub, .alternateSub, .ligatureSub, .chainSub, .reverseChainSub,
    .singlePos, .pairPos, .cursivePos, .markToBase, .markToLigature, .markToMark, .chainPos]

/-- What lookups of this kind do. -/
def purpose : Kind → Purpose
  | .singleSub | .multipleSub | .alternateSub | .ligatureSub | .chainSub | .reverseChainSub =>
    .substitution
  | .singlePos | .pairPos | .cursivePos | .markToBase | .markToLigature | .markToMark
  | .chainPos => .positioning

/-- The lookup type written in the font. -/
def lookupType : Kind → UInt16
  | .singleSub => 1
  | .multipleSub => 2
  | .alternateSub => 3
  | .ligatureSub => 4
  | .chainSub => 6
  | .reverseChainSub => 8
  | .singlePos => 1
  | .pairPos => 2
  | .cursivePos => 3
  | .markToBase => 4
  | .markToLigature => 5
  | .markToMark => 6
  | .chainPos => 8

/-- How rules of this kind are called in messages. -/
def description : Kind → String
  | .singleSub => "single substitution"
  | .multipleSub => "multiple substitution"
  | .alternateSub => "alternate substitution"
  | .ligatureSub => "ligature substitution"
  | .chainSub => "chain contextual substitution"
  | .reverseChainSub => "reverse chain contextual substitution"
  | .singlePos => "single positioning"
  | .pairPos => "pair positioning"
  | .cursivePos => "cursive positioning"
  | .markToBase => "mark to base positioning"
  | .markToLigature => "mark to ligature positioning"
  | .markToMark => "mark to mark positioning"
  | .chainPos => "chain contextual positioning"

/-- How the kind is written in rule documents. -/
def keyword : Kind → String
  | .singleSub => "single_sub"
  | .multipleSub => "multiple_sub"
  | .alternateSub => "alternate_sub"
  | .ligatureSub => "ligature_sub"
  | .chainSub => "chain_context_sub"
  | .reverseChainSub => "reverse_chain_sub"
  | .singlePos => "single_pos"
  | .pairPos => "pair_pos"
  | .cursivePos => "cursive_pos"
  | .markToBase => "mark_to_base"
  | .markToLigature => "mark_to_lig"
  | .markToMark => "mark_to_mark"
  | .chainPos => "chain_context_pos"

/-- The kind that a word of a rule document names. -/
def ofKeyword? (word : String) : Option Kind := all.find? (·.keyword == word)

theorem ofKeyword?_keyword (k : Kind) : ofKeyword? k.keyword = some k := by
  cases k <;> decide

end Kind

/-! ## Rules -/

/-- One input position of a contextual rule, with the lookups applied there in order. A lookup is
named by its place in the rule set. -/
structure ContextInput where
  glyphs : GlyphSet
  lookups : List Nat
deriving DecidableEq

/-- A run of glyphs in its surroundings, all in reading order. -/
structure ChainContext where
  backtrack : List GlyphSet
  input : List ContextInput
  lookahead : List GlyphSet
deriving DecidableEq

/-- Anchors for marks: the name of a mark class, and where its marks attach. -/
abbrev MarkAnchors := List (String × Anchor)

/-- What a rule does. -/
inductive RuleBody where
  | singleSub (target replacement : Glyph)
  | multipleSub (target : Glyph) (replacement : List Glyph)
  | alternateSub (target : Glyph) (alternates : List Glyph)
  | ligatureSub (components : List Glyph) (replacement : Glyph)
  | chainSub (context : ChainContext)
  | reverseChainSub (backtrack : List GlyphSet) (substitutions : List (Glyph × Glyph))
      (lookahead : List GlyphSet)
  | singlePos (glyph : Glyph) (value : ValueRecord)
  | pairPos (first : Token) (value1 : ValueRecord) (second : Token) (value2 : ValueRecord)
  | cursivePos (glyph : Glyph) (entry exit : Option Anchor)
  | markToBase (base : GlyphSet) (marks : MarkAnchors)
  | markToLigature (ligature : GlyphSet) (components : List MarkAnchors)
  | markToMark (baseMark : GlyphSet) (marks : MarkAnchors)
  | chainPos (context : ChainContext)
deriving DecidableEq

/-- The kind of lookup a rule belongs in. -/
def RuleBody.kind : RuleBody → Kind
  | .singleSub .. => .singleSub
  | .multipleSub .. => .multipleSub
  | .alternateSub .. => .alternateSub
  | .ligatureSub .. => .ligatureSub
  | .chainSub .. => .chainSub
  | .reverseChainSub .. => .reverseChainSub
  | .singlePos .. => .singlePos
  | .pairPos .. => .pairPos
  | .cursivePos .. => .cursivePos
  | .markToBase .. => .markToBase
  | .markToLigature .. => .markToLigature
  | .markToMark .. => .markToMark
  | .chainPos .. => .chainPos

/-- The surroundings of a contextual rule. -/
def RuleBody.context? : RuleBody → Option ChainContext
  | .chainSub context | .chainPos context => some context
  | _ => none

/-- The lookups that a rule refers to, in order. -/
def RuleBody.references (b : RuleBody) : List Nat :=
  match b.context? with
  | none => []
  | some context => context.input.flatMap ContextInput.lookups

/-- The glyphs that a rule attaches marks to where these are not ligatures, and the anchors it gives
them. -/
def RuleBody.baseAnchors? : RuleBody → Option (GlyphSet × MarkAnchors)
  | .markToBase base marks => some (base, marks)
  | .markToMark baseMark marks => some (baseMark, marks)
  | _ => none

/-- A rule, the line it was written on, and whether a new subtable was asked for before it. -/
structure Rule where
  body : RuleBody
  line : Option UInt32
  breakBefore : Bool
deriving DecidableEq

end FontLayout
