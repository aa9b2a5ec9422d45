import FontLayout.Tag
/-!
# Diagnostics

A diagnostic tells the author of a rule set what was found wrong with it, how bad that is, and
where. A report lists diagnostics in the order in which they arose, with a limit on how many of
them are printed.

Results:
* `Report.hasErrors_iff`: a report has errors exactly when it counts some.
-/
namespace FontLayout

/-- How bad a finding is. -/
inductive Level where
  | note
  | warning
  | error
  | fatal
deriving DecidableEq

namespace Level

/-- Whether nothing usable can come out of a rule set with such a finding. -/
def isError : Level → Bool
  | .note | .warning => false
  | .error | .fatal => true

/-- The word for a level in printed diagnostics. -/
def label : Level → String
  | .note => "NOTE"
  | .warning => "WARNING"
  | .error => "ERROR"
  | .fatal => "FATAL"

end Level

/-- Where a finding arose, as far as that is known. -/
structure Site where
  feature : Option Tag
  lookup : Option String
  line : Option UInt32
deriving DecidableEq

namespace Site

/-- No place in particular. -/
def unknown : Site := ⟨none, none, none⟩

instance : Inhabited Site := ⟨unknown⟩

/-- The same place at another line. -/
def atLine (s : Site) (line : Option UInt32) : Site := { s with line := line }

end Site

/-- A finding in words. -/
structure Diagnostic where
  level : Level
  font : String
  site : Site
  text : String
deriving DecidableEq

namespace Diagnostic

/-- Whether the diagnostic is an error or worse. -/
def isError (d : Diagnostic) : Bool := d.level.isError

/-- The printed form: level, font, text, and the line if it is known. -/
def render (d : Diagnostic) : String :=
  let head := "[" ++ d.level.label ++ "] <" ++ d.font ++ "> " ++ d.text
  match d.site.line with
  | some line => head ++ " [line " ++ toString line.toNat ++ "]"
  | none => head

end Diagnostic

/-! ## Reports -/

/-- Diagnostics in the order in which they arose, and how many of them are printed. -/
structure Report where
  messages : List Diagnostic
  limit : Nat
deriving DecidableEq

namespace Report

/-- The number of diagnostics of one level. -/
def count (r : Report) (level : Level) : Nat := r.messages.countP (·.level == level)

/-- The number of errors, fatal ones included. -/
def errorCount (r : Report) : Nat := r.messages.countP Diagnostic.isError

/-- Whether any diagnostic is an error. -/
def hasErrors (r : Report) : Bool := r.messages.any Diagnostic.isError

/-- The first fatal diagnostic. -/
def fatal? (r : Report) : Option Diagnostic := r.messages.find? (·.level == .fatal)

/-- The printed form: a line for each diagnostic up to the limit, then how many are left. -/
def render (r : Report) : String :=
  let lines := (r.messages.take r.limit).map fun d => d.render ++ "\n"
  let left := r.messages.length - r.limit
  let rest := if left = 0 then [] else ["... and " ++ toString left ++ " more\n"]
  String.join (lines ++ rest)

theorem hasErrors_iff (r : Report) : r.hasErrors = true ↔ 0 < r.errorCount := by
  simp [hasErrors, errorCount, List.countP_pos_iff]

end Report
end FontLayout
