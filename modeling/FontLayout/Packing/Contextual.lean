import FontLayout.Layout.FeatureList
import FontLayout.Packing.Substitution
/-!
# Packing contextual rules

Every contextual rule gets a subtable of its own, with a coverage table for each position. The
backtrack is written backwards, because it is matched from the input outwards.
-/
namespace FontLayout.Packing

/-! ## Chains -/

/-- For each lookup that a rule refers to, in order: its position in the input, and the place of
the lookup in the table. References to lookups of another table are left out. -/
def lookupRecords (places : LookupPlaces) (input : List ContextInput) : List (UInt16 × UInt16) :=
  input.zipIdx.flatMap fun (position, i) =>
    position.lookups.filterMap fun l => places[l]?.map fun place => (UInt16.ofNat i, place)

/-- The subtable of a contextual rule. -/
def chainSubtable (places : LookupPlaces) (c : ChainContext) : ChainSubtable where
  backtrack := c.backtrack.reverse
  input := c.input.map ContextInput.glyphs
  lookahead := c.lookahead
  records := lookupRecords places c.input

/-- One subtable for each contextual rule. -/
def chains (places : LookupPlaces) : Packer ChainContext Unit where
  start := ()
  fit _ _ := .incompatible
  add _ _ := ()
  build items := .chain (chainSubtable places (items.getLastD ⟨[], [], []⟩))

/-! ## Reverse chains -/

/-- The parts of a rule that is applied from the end of the text. -/
structure ReverseChain where
  backtrack : List GlyphSet
  substitutions : List (Glyph × Glyph)
  lookahead : List GlyphSet
deriving DecidableEq

/-- The parts of a reverse chain rule. -/
def reverseItem? : RuleBody → Option ReverseChain
  | .reverseChainSub backtrack substitutions lookahead =>
    some ⟨backtrack, substitutions, lookahead⟩
  | _ => none

/-- The subtable of a reverse chain rule; the first replacement of a target counts. -/
def reverseSubtable (r : ReverseChain) : ReverseChainSubtable where
  backtrack := r.backtrack.reverse
  lookahead := r.lookahead
  mapping := .ofFirst r.substitutions

/-- One subtable for each reverse chain rule. -/
def reverseChains : Packer ReverseChain Unit where
  start := ()
  fit _ _ := .incompatible
  add _ _ := ()
  build items := .reverseChainSub (reverseSubtable (items.getLastD ⟨[], [], []⟩))

end FontLayout.Packing
