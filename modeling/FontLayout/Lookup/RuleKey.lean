import FontLayout.RuleSet
/-!
# Keys of rules

A lookup answers each input once. The key of a rule is what it answers: the target of a
substitution, the glyph of a single value, the two sides of a pair, and the whole rule for all
other kinds. Rules are filed by labels. A label lists the contents of a key as numbers, names and
glyph sequences, with a sum in front that tells most labels apart at once.

Results:
* `KeyLabel.eq_of_compare`: the order of labels tells different labels apart.
-/
namespace FontLayout

/-! ## Keys -/

/-- What a rule answers. -/
inductive RuleKey where
  | input (glyphs : List Glyph)
  | pair (first second : Token)
  | whole (body : RuleBody)
deriving DecidableEq

/-- The key of a rule. -/
def RuleBody.key : RuleBody → RuleKey
  | .singleSub target _ | .multipleSub target _ | .alternateSub target _ => .input [target]
  | .ligatureSub components _ => .input components
  | .singlePos glyph _ => .input [glyph]
  | .pairPos first _ second _ => .pair first second
  | body => .whole body

/-! ## Labels -/

/-- The contents of a key: a sum over its glyphs, its numbers, its names and its glyphs. -/
structure KeyLabel where
  sum : UInt32
  numbers : List Nat
  names : List String
  glyphs : List (List Glyph)

namespace KeyLabel

/-- By sum, then by numbers, names and glyphs. -/
def cmp : KeyLabel → KeyLabel → Ordering :=
  compareLex (compareOn sum) (compareLex (compareOn numbers)
    (compareLex (compareOn names) (compareOn glyphs)))

instance : Ord KeyLabel := ⟨cmp⟩

instance : Std.TransOrd KeyLabel :=
  inferInstanceAs (Std.TransCmp (compareLex (compareOn sum) (compareLex (compareOn numbers)
    (compareLex (compareOn names) (compareOn glyphs)))))

theorem eq_of_compare {a b : KeyLabel} (h : cmp a b = .eq) : a = b := by
  obtain ⟨_, _, _, _⟩ := a
  obtain ⟨_, _, _, _⟩ := b
  simp only [cmp, compareLex, compareOn, Ordering.then_eq_eq,
    Std.LawfulEqCmp.compare_eq_iff_eq] at h
  simp [h]

instance : Std.LawfulEqOrd KeyLabel := ⟨eq_of_compare⟩

/-- Adds glyphs to a sum. -/
def addGlyphs (n : UInt32) (gs : List Glyph) : UInt32 :=
  gs.foldl (fun n g => n * 65599 + g.toUInt32 + 1) n

/-- The label with these numbers, names and glyphs. -/
def of (numbers : List Nat) (names : List String) (glyphs : List (List Glyph)) : KeyLabel :=
  ⟨glyphs.foldl addGlyphs 0, numbers, names, glyphs⟩

/-- The numbers of an anchor. -/
def ofAnchor (a : Anchor) : List Nat :=
  [a.x.toUInt16.toNat, a.y.toUInt16.toNat, a.contourPoint.elim 0 (·.toNat + 1)]

/-- The numbers of an anchor that may be missing. -/
def ofAnchor? : Option Anchor → List Nat
  | none => [0]
  | some a => 1 :: ofAnchor a

/-- The label of anchors for marks on glyphs, component by component. -/
def ofMarks (glyphs : GlyphSet) (components : List MarkAnchors) : KeyLabel :=
  of (components.flatMap fun marks => marks.length :: marks.flatMap fun m => ofAnchor m.2)
    (components.flatMap fun marks => marks.map Prod.fst) [glyphs.members]

/-- The label of glyphs in their surroundings, with a list of numbers for the glyphs. -/
def ofContext (backtrack input lookahead : List GlyphSet) (numbers : List Nat) : KeyLabel :=
  of (backtrack.length :: input.length :: numbers) []
    ((backtrack ++ input ++ lookahead).map GlyphSet.members)

/-- The label of a whole rule. -/
def ofBody : RuleBody → KeyLabel
  | .cursivePos glyph entry exit => of (ofAnchor? entry ++ ofAnchor? exit) [] [[glyph]]
  | .markToBase base marks => ofMarks base [marks]
  | .markToMark baseMark marks => ofMarks baseMark [marks]
  | .markToLigature ligature components => ofMarks ligature components
  | .reverseChainSub backtrack substitutions lookahead =>
    ofContext backtrack [] lookahead (substitutions.flatMap fun s => [s.1.toNat, s.2.toNat])
  | .chainSub c | .chainPos c =>
    ofContext c.backtrack (c.input.map ContextInput.glyphs) c.lookahead
      (c.input.flatMap fun i => i.lookups.length :: i.lookups)
  | _ => of [] [] []

/-- One for a set and zero for a single glyph. -/
def ofForm : Token → Nat
  | .glyph _ => 0
  | .set _ => 1

end KeyLabel

/-- The label of a key. -/
def RuleKey.label : RuleKey → KeyLabel
  | .input glyphs => .of [] [] [glyphs]
  | .pair first second =>
    .of [KeyLabel.ofForm first, KeyLabel.ofForm second] []
      [first.toSet.members, second.toSet.members]
  | .whole body => .ofBody body

end FontLayout
