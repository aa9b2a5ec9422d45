import FontLayout.Diagnostic.Audit
import FontLayout.Lookup.RuleKey
/-!
# Distinct rules

A lookup answers each input once. Of rules with one key the first is kept. A later one that says
the same is dropped with a note. A later one that says something else stops the work, except among
pairs, where the first value is chosen with a warning. A break before a dropped rule is moved to
the next rule that is kept.

Results:
* `Kept.find?_insert_self`, `Kept.find?_insert_of_ne`: the rules kept so far answer by key.
-/
namespace FontLayout

/-! ## The rules kept so far -/

/-- Rules that have been kept, on shelves by the labels of their keys. -/
structure Kept where
  shelves : Std.TreeMap KeyLabel (List RuleBody)

namespace Kept

/-- No rule yet. -/
def empty : Kept := ⟨∅⟩

/-- The rules on one shelf. -/
def shelf (k : Kept) (label : KeyLabel) : List RuleBody := k.shelves.getD label []

/-- The rule that was kept for a key. -/
def find? (k : Kept) (key : RuleKey) : Option RuleBody :=
  (k.shelf key.label).find? (·.key = key)

/-- Keeps one more rule. -/
def insert (k : Kept) (body : RuleBody) : Kept :=
  let label := body.key.label
  ⟨k.shelves.insert label (body :: k.shelf label)⟩

theorem find?_empty (key : RuleKey) : empty.find? key = none := by
  simp [find?, empty, shelf]

theorem find?_insert_self (k : Kept) (body : RuleBody) :
    (k.insert body).find? body.key = some body := by
  simp [find?, insert, shelf, Std.TreeMap.getD_insert_self]

theorem find?_insert_of_ne (k : Kept) {body : RuleBody} {key : RuleKey} (h : body.key ≠ key) :
    (k.insert body).find? key = k.find? key := by
  simp only [find?, insert, shelf, Std.TreeMap.getD_insert]
  split
  · next he =>
    rw [Std.LawfulEqCmp.compare_eq_iff_eq] at he
    rw [List.find?_cons_of_neg (by simpa using h), ← he]
  · rfl

end Kept

/-! ## Verdicts -/

/-- What becomes of a rule. -/
inductive Verdict where
  | keep
  | drop (cause : Cause)
  | stop (cause : Cause)
deriving DecidableEq

/-- The verdict on a rule that repeats an earlier one word for word. -/
def repeatedVerdict (place : LookupPlace) (body : RuleBody) : Verdict :=
  match body.key with
  | .pair first second => .drop (.repeatedPair place first second)
  | .whole _ => .drop (.repeatedRule body.kind place)
  | .input glyphs =>
    match body with
    | .singlePos glyph _ => .drop (.repeatedValue place glyph)
    | _ => .drop (.repeatedSubstitution body.kind place glyphs)

/-- The verdict on a rule that answers an input in another way than an earlier one. -/
def conflictVerdict (place : LookupPlace) (body : RuleBody) : Verdict :=
  match body.key with
  | .pair first second => .drop (.conflictingPair place first second)
  | .whole _ => .drop (.repeatedRule body.kind place)
  | .input glyphs =>
    match body with
    | .singlePos glyph _ => .stop (.conflictingValue place glyph)
    | _ => .stop (.conflictingSubstitution body.kind place glyphs)

/-- The verdict on a rule, given those kept before it. -/
def verdict (place : LookupPlace) (kept : Kept) (body : RuleBody) : Verdict :=
  match kept.find? body.key with
  | none => .keep
  | some earlier =>
    if earlier = body then repeatedVerdict place body else conflictVerdict place body

/-! ## Sifting -/

/-- The state between two rules: those kept, last first, an index of them, whether a break waits
for the next kept rule, and the findings, last first. -/
structure Sieve where
  rules : List Rule
  kept : Kept
  pendingBreak : Bool
  findings : List Finding

/-- The loop of `distinctRules`. -/
def siftLoop (kind : Kind) (place : LookupPlace) : List Rule → Sieve → Audit (List Rule)
  | [], s => .tell s.findings.reverse s.rules.reverse
  | r :: rest, s =>
    let pending := s.pendingBreak || r.breakBefore
    let found (cause : Cause) : List Finding := ⟨place.siteAt r.line, cause⟩ :: s.findings
    if r.body.kind ≠ kind then
      siftLoop kind place rest
        { s with
          pendingBreak := pending
          findings := found (.misplacedRule r.body.kind kind place) }
    else
      match verdict place s.kept r.body with
      | .keep =>
        siftLoop kind place rest
          { s with
            rules := { r with breakBefore := pending } :: s.rules
            kept := s.kept.insert r.body
            pendingBreak := false }
      | .drop cause =>
        siftLoop kind place rest { s with pendingBreak := pending, findings := found cause }
      | .stop cause => ⟨(found cause).reverse, none⟩

/-- The rules of a lookup, each key once. -/
def distinctRules (lookup : Lookup) (place : LookupPlace) : Audit (List Rule) :=
  siftLoop lookup.kind place lookup.rules ⟨[], .empty, false, []⟩

end FontLayout
