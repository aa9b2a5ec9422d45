import FontLayout.Diagnostic.Audit
import FontLayout.Layout.LookupList
import FontLayout.Options
import FontLayout.Packing.Lookup
/-!
# Assembling a layout table

A layout table is laid out from its lists and the subtables of its lookups. If an offset inside
the subtables of a lookup does not fit, that lookup is packed again with half the budget, as
often as the options allow, until it has more subtables than before; then the table is laid out
again. Every other overflow is fatal, as is one that no further attempt mends.

Results:
* `Attempt.left_lt_of_resplit`: every further layout uses up an attempt, so there is an end.
-/
namespace FontLayout

/-- A lookup ready to be packed: its distinct rules, its marks, how messages refer to it, and its
flags and filtering set as the font holds them. -/
structure PreparedLookup where
  kind : Kind
  rules : List Rule
  marks : Option MarkSet
  place : LookupPlace
  flags : UInt16
  filterSet : Option UInt16

/-- The contents of one layout table. -/
structure TableInput where
  purpose : Purpose
  lookups : List PreparedLookup
  features : List Feature
  places : LookupPlaces

namespace PreparedLookup

/-- The subtables of a lookup under a budget. -/
def pack (l : PreparedLookup) (places : LookupPlaces) (budget : Budget) : Packed :=
  packLookup l.kind l.rules l.marks places budget

/-- The lookup as the font holds it, with its subtables as trees of tables. -/
def record (l : PreparedLookup) (subtables : List Table) : LookupRecord :=
  ⟨l.kind.lookupType, l.flags, l.filterSet, subtables⟩

end PreparedLookup

/-! ## Attempts -/

/-- A lookup with its subtables, the budget that gave them, and how many more attempts it has to
be split further. -/
structure Attempt where
  lookup : PreparedLookup
  subtables : List Table
  budget : Nat
  left : Nat

/-- The first of the next attempts, each with half the budget of the one before, that gives more
subtables than there are. Once the budget is zero, further attempts change nothing. -/
def resplit (lookup : PreparedLookup) (places : LookupPlaces) (count : Nat) :
    Nat → Nat → Option Attempt
  | 0, _ => none
  | left + 1, budget =>
    if budget = 0 then none
    else
      let subtables := (lookup.pack places (some (budget / 2))).subtables
      if count < subtables.length then
        some ⟨lookup, subtables.map Subtable.table, budget / 2, left⟩
      else resplit lookup places count left (budget / 2)

namespace Attempt

/-- Splits a lookup further, if one of its attempts does so. -/
def resplit? (a : Attempt) (places : LookupPlaces) : Option Attempt :=
  resplit a.lookup places a.subtables.length a.left a.budget

theorem left_lt_of_resplit {lookup : PreparedLookup} {places : LookupPlaces} {count left : Nat}
    {budget : Nat} {a : Attempt} (h : resplit lookup places count left budget = some a) :
    a.left < left := by
  induction left generalizing budget with
  | zero => cases h
  | succ n ih =>
    rw [resplit] at h
    split at h
    · cases h
    · dsimp only at h
      split at h
      · cases h; exact Nat.lt_succ_self n
      · exact Nat.lt_succ_of_lt (ih h)

end Attempt

/-- The attempts that all lookups have left. -/
def attemptsLeft : List Attempt → Nat
  | [] => 0
  | a :: as => a.left + attemptsLeft as

theorem attemptsLeft_set (as : List Attempt) (i : Nat) (a b : Attempt) (h : as[i]? = some a) :
    attemptsLeft (as.set i b) + a.left = attemptsLeft as + b.left := by
  induction as generalizing i with
  | nil => simp at h
  | cons c as ih =>
    cases i with
    | zero => simp at h; subst h; simp only [List.set_cons_zero, attemptsLeft]; omega
    | succ i =>
      have := ih i (by simpa using h)
      simp only [List.set_cons_succ, attemptsLeft]
      omega

theorem attemptsLeft_set_lt {as : List Attempt} {i : Nat} {a b : Attempt} (h : as[i]? = some a)
    (hb : b.left < a.left) : attemptsLeft (as.set i b) < attemptsLeft as := by
  have := attemptsLeft_set as i a b h
  omega

/-! ## Layout -/

namespace TableInput

/-- The tree of the whole table, given the lists and the state of the lookups. -/
def layout (t : TableInput) (o : Options) (scripts : ScriptList) (features : FeatureList)
    (as : List Attempt) : Table :=
  let extension := if o.extension then some t.purpose.extensionType else none
  layoutTable scripts features
    (as.map fun a => (a.lookup.record a.subtables).table extension)

/-- The finding for an overflow outside of all lookups. -/
def tableFinding (t : TableInput) (overflow : Overflow) : Finding :=
  ⟨.unknown, .tableOverflow t.purpose.tag overflow⟩

/-- The finding for an overflow that belongs to a lookup. -/
def lookupFinding (l : PreparedLookup) (overflow : Overflow) : Finding :=
  ⟨l.place.site, .lookupOverflow l.kind l.place overflow⟩

/-- Lays the table out, splitting lookups further while offsets in their subtables overflow. -/
def layOut (t : TableInput) (o : Options) (scripts : ScriptList) (features : FeatureList)
    (as : List Attempt) : Audit ByteArray :=
  match (t.layout o scripts features as).encode with
  | .ok bytes => .pure bytes
  | .error overflow =>
    match overflow.lookup with
    | none => .stop (t.tableFinding overflow)
    | some i =>
      match _ha : as[i]? with
      | none => .stop (t.tableFinding overflow)
      | some a =>
        if !o.autoSplit || overflow.target == .subtable then
          .stop (lookupFinding a.lookup overflow)
        else
          match _hb : a.resplit? t.places with
          | none => .stop (lookupFinding a.lookup overflow)
          | some b => t.layOut o scripts features (as.set i b)
termination_by attemptsLeft as
decreasing_by exact attemptsLeft_set_lt _ha (Attempt.left_lt_of_resplit _hb)

/-- The first packing of a lookup; overlapping classes that force a subtable are found here. -/
def firstAttempt (t : TableInput) (o : Options) (l : PreparedLookup) : Audit Attempt :=
  let packed := l.pack t.places o.initialBudget
  .tell (List.replicate packed.forced ⟨l.place.site, .forcedSplit l.place⟩)
    ⟨l, packed.subtables.map Subtable.table, o.budget, o.retries⟩

/-- The bytes of the table. -/
def assemble (t : TableInput) (o : Options) : Audit ByteArray := do
  let registrations := Registrations.ofFeatures t.features t.places
  let attempts ← Audit.traverse (t.firstAttempt o) t.lookups
  t.layOut o registrations.scriptList registrations.featureList attempts

end TableInput
end FontLayout
