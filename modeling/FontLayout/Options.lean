import FontLayout.Packing.Cut
/-!
# Options

What the author of a rule set may choose: which tables are made, how lookups are split into
subtables, and how many diagnostics are printed.
-/
namespace FontLayout

/-- The choices for one compilation. -/
structure Options where
  gsub : Bool
  gpos : Bool
  gdef : Bool
  extension : Bool
  autoSplit : Bool
  budget : Nat
  retries : Nat
  maxMessages : Nat
deriving DecidableEq

namespace Options

/-- All tables, short offsets, subtables as large as a short offset spans, four attempts to
split a lookup further, and a hundred messages. -/
def default : Options where
  gsub := true
  gpos := true
  gdef := true
  extension := false
  autoSplit := true
  budget := 0xFFFF
  retries := 4
  maxMessages := 100

instance : Inhabited Options := ⟨default⟩

/-- The budget of the first packing; without automatic splits there is none. -/
def initialBudget (o : Options) : Budget := if o.autoSplit then some o.budget else none

end Options
end FontLayout
