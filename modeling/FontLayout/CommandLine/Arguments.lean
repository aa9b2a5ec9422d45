import FontLayout.Options
/-!
# Command lines

A command line names one rule document and may say where tables are written and how they are
made. Options come anywhere before `--`, each at most once. A value stands in the same argument
as its option or in the next one, and the next argument is no value if it looks like an option.
-/
namespace FontLayout

/-! ## Options -/

/-- Options that have a value. -/
inductive Setting where
  | outPath
  | tablesDir
  | maxMessages
deriving DecidableEq

/-- Options that have no value. -/
inductive Switch where
  | extensionLookups
  | noAutoSplit
deriving DecidableEq

/-- The setting of a long name. -/
def Setting.ofName? : String → Option Setting
  | "out-path" => some .outPath
  | "tables-dir" => some .tablesDir
  | "max-messages" => some .maxMessages
  | _ => none

/-- The switch of a long name. -/
def Switch.ofName? : String → Option Switch
  | "extension-lookups" => some .extensionLookups
  | "no-auto-split" => some .noAutoSplit
  | _ => none

/-! ## Errors -/

/-- Why a command line asks for nothing that can be done. -/
inductive UsageError where
  | unknownArgument (text : String)
  | repeatedArgument (text : String)
  | missingValue (text : String)
  | unexpectedValue (text : String)
  | invalidValue (value : String)
  | missingInput
deriving DecidableEq

/-- The error in words. -/
def UsageError.message : UsageError → String
  | .unknownArgument text => "error: unexpected argument '" ++ text ++ "'"
  | .repeatedArgument text => "error: the argument '" ++ text ++ "' is given more than once"
  | .missingValue text => "error: a value is required for '" ++ text ++ "'"
  | .unexpectedValue text => "error: no value is allowed in '" ++ text ++ "'"
  | .invalidValue value => "error: invalid value '" ++ value ++ "'"
  | .missingInput => "error: a rule document is required"

/-! ## Single arguments -/

/-- What an argument is by its form. -/
inductive Argument where
  | plain (value : String)
  | setting (s : Setting) (value : Option String)
  | switch (s : Switch)
  | endOfOptions
  | wrong (error : UsageError)
deriving DecidableEq

namespace Argument

/-- A long option, whose value may follow an equals sign. -/
def ofLong (text : String) (name : List Char) (value : Option (List Char)) : Argument :=
  let name := String.ofList name
  match Setting.ofName? name, Switch.ofName? name, value with
  | some s, _, value => .setting s (value.map String.ofList)
  | none, some s, none => .switch s
  | none, some _, some _ => .wrong (.unexpectedValue text)
  | none, none, _ => .wrong (.unknownArgument text)

/-- The part of a text after its first equals sign. -/
def afterEquals? (cs : List Char) : Option (List Char) :=
  match cs.dropWhile (· != '=') with
  | [] => none
  | _ :: rest => some rest

/-- The value that follows the letter of a short option, perhaps after an equals sign. -/
def shortValue? : List Char → Option String
  | [] => none
  | '=' :: value => some (String.ofList value)
  | value => some (String.ofList value)

/-- An argument by its form. -/
def ofString (text : String) : Argument :=
  match text.toList with
  | ['-', '-'] => .endOfOptions
  | '-' :: '-' :: cs => ofLong text (cs.takeWhile (· != '=')) (afterEquals? cs)
  | '-' :: 'o' :: cs => .setting .outPath (shortValue? cs)
  | '-' :: _ :: _ => .wrong (.unknownArgument text)
  | _ => .plain text

end Argument

/-! ## Values -/

/-- The largest number that a command line can give. -/
def maxCount : Nat := 0xFFFFFFFFFFFFFFFF

/-- A number in decimal digits, perhaps after a plus sign. -/
def countOf? (value : String) : Option Nat :=
  let digits := match value.toList with
    | '+' :: cs => cs
    | cs => cs
  if digits.isEmpty || digits.any (fun c => !c.isDigit) then none
  else
    let n := digits.foldl (fun n c => n * 10 + (c.toNat - 48)) 0
    if n ≤ maxCount then some n else none

/-! ## Whole command lines -/

/-- What has been given so far. -/
structure Given where
  input : Option String
  outPath : Option String
  tablesDir : Option String
  maxMessages : Option Nat
  extensionLookups : Bool
  noAutoSplit : Bool
deriving DecidableEq

namespace Given

/-- Nothing has been given. -/
def nothing : Given := ⟨none, none, none, none, false, false⟩

/-- Takes a path, which must not be empty. -/
def asPath (value : String) : Except UsageError String :=
  if value.isEmpty then .error (.invalidValue value) else .ok value

/-- Refuses what has been given before. -/
def unlessGiven (already : Bool) (text : String) (g : Except UsageError Given) :
    Except UsageError Given :=
  if already then .error (.repeatedArgument text) else g

/-- Takes a value for a setting. -/
def set (g : Given) (text value : String) : Setting → Except UsageError Given
  | .outPath => unlessGiven g.outPath.isSome text <|
    (asPath value).map fun path => { g with outPath := some path }
  | .tablesDir => unlessGiven g.tablesDir.isSome text <|
    (asPath value).map fun path => { g with tablesDir := some path }
  | .maxMessages => unlessGiven g.maxMessages.isSome text <|
    match countOf? value with
    | some n => .ok { g with maxMessages := some n }
    | none => .error (.invalidValue value)

/-- Takes a switch. -/
def turnOn (g : Given) (text : String) : Switch → Except UsageError Given
  | .extensionLookups =>
    unlessGiven g.extensionLookups text (.ok { g with extensionLookups := true })
  | .noAutoSplit => unlessGiven g.noAutoSplit text (.ok { g with noAutoSplit := true })

/-- Takes the name of the rule document. -/
def setInput (g : Given) (value : String) : Except UsageError Given :=
  if g.input.isSome then .error (.unknownArgument value)
  else (asPath value).map fun path => { g with input := some path }

/-- Takes the arguments of a command line one by one. -/
def readAll (g : Given) : List String → Except UsageError Given
  | [] => .ok g
  | text :: rest =>
    match Argument.ofString text with
    | .plain value => (g.setInput value).bind fun g => g.readAll rest
    | .setting s (some value) => (g.set text value s).bind fun g => g.readAll rest
    | .setting s none =>
      match rest with
      | [] => .error (.missingValue text)
      | next :: rest =>
        match Argument.ofString next with
        | .plain value => (g.set text value s).bind fun g => g.readAll rest
        | _ => .error (.missingValue text)
    | .switch s => (g.turnOn text s).bind fun g => g.readAll rest
    | .endOfOptions => rest.foldlM setInput g
    | .wrong e => .error e

end Given

/-- What a command line asks for. -/
structure Invocation where
  input : String
  outPath : String
  tablesDir : Option String
  options : Options
deriving DecidableEq

namespace Invocation

/-- Where the font is written if the command line does not say. -/
def defaultOutPath : String := "otl-out.ttf"

/-- What is asked for by what was given. -/
def ofGiven (g : Given) : Except UsageError Invocation :=
  match g.input with
  | none => .error .missingInput
  | some input => .ok {
      input := input
      outPath := g.outPath.getD defaultOutPath
      tablesDir := g.tablesDir
      options := { Options.default with
        extension := g.extensionLookups
        autoSplit := !g.noAutoSplit
        maxMessages := g.maxMessages.getD Options.default.maxMessages } }

/-- What a command line asks for. -/
def read (args : List String) : Except UsageError Invocation :=
  (Given.nothing.readAll args).bind ofGiven

end Invocation
end FontLayout
