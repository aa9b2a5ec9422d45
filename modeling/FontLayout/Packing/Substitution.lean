import FontLayout.Packing.Cut
import FontLayout.RuleSet
/-!
# Packing substitutions

Gauges for the substitutions without context. Every estimate assumes the larger of the two forms
a table may take, so the written subtable never exceeds it.
-/
namespace FontLayout.Packing

/-- What the rules of a lookup contribute to its subtables, in order. -/
def itemsOf {ι : Type} (item? : RuleBody → Option ι) (rules : List Rule) : List (ι × Bool) :=
  rules.filterMap fun r => (item? r.body).map fun i => (i, r.breakBefore)

/-- One if a glyph is new to a tree, and otherwise zero. -/
def newcomers (t : Std.TreeSet Glyph) (g : Glyph) : Nat := if t.contains g then 0 else 1

/-! ## One glyph by one -/

/-- A target and its replacement. -/
def singleItem? : RuleBody → Option (Glyph × Glyph)
  | .singleSub target replacement => some (target, replacement)
  | _ => none

/-- The size of a list of `n` replacements. -/
def singleSize (n : Nat) : Nat := 6 + 2 * n + Coverage.sizeBound n

/-- Replacements of one glyph by one; the estimate knows the targets. -/
def single : Packer (Glyph × Glyph) (Std.TreeSet Glyph) where
  start := ∅
  fit targets i := .size (singleSize (targets.size + newcomers targets i.1))
  add targets i := targets.insert i.1
  build items := .singleSub (.ofFirst items)

/-! ## One glyph by several -/

/-- A target with the glyphs that replace it, or that may replace it. -/
def sequenceItem? : RuleBody → Option (Glyph × List Glyph)
  | .multipleSub target replacement => some (target, replacement)
  | .alternateSub target alternates => some (target, alternates)
  | _ => none

/-- Targets so far, and how many glyphs their sequences have. -/
structure SequenceLoad where
  targets : Std.TreeSet Glyph
  outputs : Nat

/-- The size of sequences with `outputs` glyphs for `targets` targets. -/
def sequenceSize (targets outputs : Nat) : Nat :=
  6 + 2 * targets + Coverage.sizeBound targets + 2 * targets + 2 * outputs

/-- Sequences for single glyphs. -/
def sequences (build : ByGlyph (List Glyph) → Subtable) :
    Packer (Glyph × List Glyph) SequenceLoad where
  start := ⟨∅, 0⟩
  fit s i :=
    if s.targets.contains i.1 then .size (sequenceSize s.targets.size s.outputs)
    else .size (sequenceSize (s.targets.size + 1) (s.outputs + i.2.length))
  add s i :=
    if s.targets.contains i.1 then s
    else ⟨s.targets.insert i.1, s.outputs + i.2.length⟩
  build items := build (.ofFirst items)

/-! ## Several glyphs by one -/

/-- A ligature under its first component; a rule without components contributes nothing. -/
def ligatureItem? : RuleBody → Option (Glyph × Ligature)
  | .ligatureSub (first :: trailing) replacement => some (first, ⟨trailing, replacement⟩)
  | _ => none

/-- First components so far, the number of ligatures, and of all their other components. -/
structure LigatureLoad where
  firsts : Std.TreeSet Glyph
  ligatures : Nat
  trailing : Nat

/-- The size of ligature sets, from the numbers of sets, ligatures and trailing components. -/
def ligatureSize (sets ligatures trailing : Nat) : Nat :=
  6 + 2 * sets + Coverage.sizeBound sets + 2 * sets + 2 * ligatures + 4 * ligatures + 2 * trailing

/-- Ligatures by their first component. -/
def ligatures : Packer (Glyph × Ligature) LigatureLoad where
  start := ⟨∅, 0, 0⟩
  fit s i :=
    .size (ligatureSize (s.firsts.size + newcomers s.firsts i.1) (s.ligatures + 1)
      (s.trailing + i.2.trailing.length))
  add s i :=
    ⟨s.firsts.insert i.1, s.ligatures + 1, s.trailing + i.2.trailing.length⟩
  build items := .ligatureSub (.group items)

end FontLayout.Packing
