import FontLayout.Json.Number
/-!
# Reading JSON text

The reader takes characters from the front of a list and gives back the rest. It accepts the
grammar of JSON and nothing else: no comments, no trailing commas, no characters below the blank
in strings. `Json.ofText?` reads a whole text.
-/
namespace FontLayout.Json.Text

/-- Whether a character may stand between tokens. -/
def isBlank (c : Char) : Bool := c = ' ' || c = '\n' || c = '\t' || c = '\r'

/-- The text after its leading blanks. -/
def skipBlanks (cs : List Char) : List Char := cs.dropWhile isBlank

/-- The text after a word that it has to start with. -/
def word? : List Char → List Char → Option (List Char)
  | [], rest => some rest
  | w :: ws, c :: cs => if w = c then word? ws cs else none
  | _ :: _, [] => none

/-! ## Strings -/

/-- The value of a hexadecimal digit. -/
def hexValue? (c : Char) : Option Nat :=
  if c.isDigit then some (c.toNat - 48)
  else if 'a' ≤ c && c ≤ 'f' then some (c.toNat - 87)
  else if 'A' ≤ c && c ≤ 'F' then some (c.toNat - 55)
  else none

/-- Four hexadecimal digits, and the rest. -/
def hexUnit? : List Char → Option (Nat × List Char)
  | a :: b :: c :: d :: rest => do
    let a ← hexValue? a
    let b ← hexValue? b
    let c ← hexValue? c
    let d ← hexValue? d
    some (((a * 16 + b) * 16 + c) * 16 + d, rest)
  | _ => none

/-- Whether a unit is the first half of a pair of surrogates. -/
def isHighSurrogate (n : Nat) : Bool := 0xD800 ≤ n && n ≤ 0xDBFF

/-- Whether a unit is the second half of a pair of surrogates. -/
def isLowSurrogate (n : Nat) : Bool := 0xDC00 ≤ n && n ≤ 0xDFFF

/-- The character that the units after a reverse solidus and a `u` stand for, and the rest. An
unpaired surrogate stands for none. -/
def escapedUnit? (cs : List Char) : Option (Option Char × List Char) := do
  let (n, rest) ← hexUnit? cs
  if isHighSurrogate n then
    match rest with
    | '\\' :: 'u' :: rest' =>
      let (m, rest'') ← hexUnit? rest'
      if isLowSurrogate m then
        some (some (Char.ofNat (0x10000 + (n - 0xD800) * 0x400 + (m - 0xDC00))), rest'')
      else some (none, rest)
    | _ => some (none, rest)
  else if isLowSurrogate n then some (none, rest)
  else some (some (Char.ofNat n), rest)

/-- The character of a one-letter escape. -/
def escapedChar? : Char → Option Char
  | '"' => some '"'
  | '\\' => some '\\'
  | '/' => some '/'
  | 'b' => some '\x08'
  | 'f' => some '\x0c'
  | 'n' => some '\n'
  | 'r' => some '\r'
  | 't' => some '\t'
  | _ => none

/-- The text of a string up to its closing quote, and the rest. The text is missing if some of it
stands for no character. -/
def stringLoop : Nat → List Char → List Char → Bool → Option (Option String × List Char)
  | 0, _, _, _ => none
  | _ + 1, [], _, _ => none
  | _ + 1, '"' :: rest, done, sound =>
    some (if sound then some (String.ofList done.reverse) else none, rest)
  | fuel + 1, '\\' :: 'u' :: cs, done, sound =>
    match escapedUnit? cs with
    | none => none
    | some (some c, rest) => stringLoop fuel rest (c :: done) sound
    | some (none, rest) => stringLoop fuel rest done false
  | fuel + 1, '\\' :: c :: cs, done, sound =>
    match escapedChar? c with
    | none => none
    | some c => stringLoop fuel cs (c :: done) sound
  | fuel + 1, c :: cs, done, sound =>
    if c.toNat < 32 then none else stringLoop fuel cs (c :: done) sound

/-- A string after its opening quote, and the rest. -/
def string? (fuel : Nat) (cs : List Char) : Option (Option String × List Char) :=
  stringLoop fuel cs [] true

/-! ## Values -/

/-- The value of an object; without the text of a key there is none. -/
def objectOf (fields : List (Option String × Json)) : Json :=
  if fields.all (·.1.isSome) then .object (fields.map fun f => (f.1.getD "", f.2)) else .spoiled

mutual

/-- A value, and the rest. -/
def value? : Nat → List Char → Option (Json × List Char)
  | 0, _ => none
  | fuel + 1, cs =>
    match skipBlanks cs with
    | 'n' :: rest => (word? ['u', 'l', 'l'] rest).map fun rest => (.null, rest)
    | 't' :: rest => (word? ['r', 'u', 'e'] rest).map fun rest => (.bool true, rest)
    | 'f' :: rest => (word? ['a', 'l', 's', 'e'] rest).map fun rest => (.bool false, rest)
    | '"' :: rest =>
      (string? fuel rest).map fun (s, rest) => (s.elim .spoiled .string, rest)
    | '[' :: rest =>
      match skipBlanks rest with
      | ']' :: rest => some (.array [], rest)
      | rest => items? fuel rest []
    | '\x7b' :: rest =>
      match skipBlanks rest with
      | '\x7d' :: rest => some (.object [], rest)
      | rest => fields? fuel rest []
    | cs => number? cs

/-- The items of an array from the next one on, after those in `done`, last first. -/
def items? : Nat → List Char → List Json → Option (Json × List Char)
  | 0, _, _ => none
  | fuel + 1, cs, done =>
    match value? fuel cs with
    | none => none
    | some (j, rest) =>
      match skipBlanks rest with
      | ',' :: rest => items? fuel rest (j :: done)
      | ']' :: rest => some (.array (j :: done).reverse, rest)
      | _ => none

/-- The fields of an object from the next one on, after those in `done`, last first. -/
def fields? : Nat → List Char → List (Option String × Json) → Option (Json × List Char)
  | 0, _, _ => none
  | fuel + 1, cs, done =>
    match skipBlanks cs with
    | '"' :: cs =>
      match string? fuel cs with
      | none => none
      | some (key, rest) =>
        match skipBlanks rest with
        | ':' :: rest =>
          match value? fuel rest with
          | none => none
          | some (j, rest) =>
            match skipBlanks rest with
            | ',' :: rest => fields? fuel rest ((key, j) :: done)
            | '\x7d' :: rest => some (objectOf ((key, j) :: done).reverse, rest)
            | _ => none
        | _ => none
    | _ => none

end

/-- How many steps the reading of a text takes at most. -/
def fuelFor (cs : List Char) : Nat := 2 * cs.length + 2

end FontLayout.Json.Text

namespace FontLayout.Json

/-- The value that a text is the written form of, with nothing but blanks around it. -/
def ofText? (text : String) : Option Json :=
  let cs := text.toList
  match Text.value? (Text.fuelFor cs) cs with
  | some (j, rest) => if (Text.skipBlanks rest).isEmpty then some j else none
  | none => none

end FontLayout.Json
