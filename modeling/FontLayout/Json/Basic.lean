/-!
# JSON values

A JSON value as rule documents use it. Objects keep the order and the repeats of their keys.
Integers are exact. Two sorts of text are well-formed and yet stand for no value: strings with
unpaired surrogates, and numbers beyond the range of a double; they may be skipped, never read.

Results:
* `Json.asRecord_object`: a record is read from its known keys alone.
-/
namespace FontLayout

/-- A JSON value. -/
inductive Json where
  | null
  | bool (b : Bool)
  | integer (n : Int)
  /-- A number written with a fraction, with an exponent, or as a negative zero. -/
  | decimal (text : String)
  | string (s : String)
  | array (items : List Json)
  | object (fields : List (String × Json))
  /-- Well-formed text that stands for no value. -/
  | spoiled

namespace Json

/-! ## Reading -/

/-- The text of a string. -/
def asString : Json → Option String
  | .string s => some s
  | _ => none

/-- A truth value. -/
def asBool : Json → Option Bool
  | .bool b => some b
  | _ => none

/-- An integer from `low` to `high`. -/
def asInt (low high : Int) : Json → Option Int
  | .integer n => if low ≤ n ∧ n ≤ high then some n else none
  | _ => none

/-- A number of sixteen bits, with a sign. -/
def asInt16 (j : Json) : Option Int16 := (j.asInt (-32768) 32767).map Int16.ofInt

/-- A number of sixteen bits. -/
def asUInt16 (j : Json) : Option UInt16 := (j.asInt 0 65535).map fun n => UInt16.ofNat n.toNat

/-- A number of thirty-two bits. -/
def asUInt32 (j : Json) : Option UInt32 :=
  (j.asInt 0 4294967295).map fun n => UInt32.ofNat n.toNat

/-- A number of sixty-four bits. -/
def asUInt64 (j : Json) : Option UInt64 :=
  (j.asInt 0 18446744073709551615).map fun n => UInt64.ofNat n.toNat

/-- The loop of `readAll`, with the results so far, last first. -/
def readAllLoop {α : Type} (read : Json → Option α) : List Json → List α → Option (List α)
  | [], done => some done.reverse
  | j :: rest, done =>
    match read j with
    | some a => readAllLoop read rest (a :: done)
    | none => none

/-- Every item of a list, if all can be read. -/
def readAll {α : Type} (read : Json → Option α) (items : List Json) : Option (List α) :=
  readAllLoop read items []

/-- The items of an array. -/
def asList {α : Type} (read : Json → Option α) : Json → Option (List α)
  | .array items => readAll read items
  | _ => none

/-- The items of an array of exactly two. -/
def asPair {α β : Type} (first : Json → Option α) (second : Json → Option β) :
    Json → Option (α × β)
  | .array [a, b] => (first a).bind fun a => (second b).map fun b => (a, b)
  | _ => none

/-- A value that may be null. -/
def orNull {α : Type} (read : Json → Option α) : Json → Option (Option α)
  | .null => some none
  | j => (read j).map some

/-! ## Records -/

/-- Whether some key of a list is repeated. -/
def hasRepeats : List String → Bool
  | [] => false
  | k :: rest => rest.contains k || hasRepeats rest

/-- The fields of a record, in the order of `names`. A record is an object, whose other keys are
ignored, or an array of its first fields. No known key may be repeated. -/
def asRecord (names : List String) : Json → Option (List (Option Json))
  | .object fields =>
    if hasRepeats ((fields.map Prod.fst).filter names.contains) then none
    else some (names.map fun name => fields.lookup name)
  | .array items =>
    if items.length ≤ names.length then
      some (items.map some ++ List.replicate (names.length - items.length) none)
    else none
  | _ => none

theorem asRecord_object {names : List String} {fields : List (String × Json)}
    (h : hasRepeats ((fields.map Prod.fst).filter names.contains) = false) :
    (Json.object fields).asRecord names = some (names.map fun name => fields.lookup name) := by
  simp [asRecord, h]

/-- A field that must be there. -/
def required {α : Type} (read : Json → Option α) (field : Option Json) : Option α :=
  field.bind read

/-- A field that may be missing. -/
def withDefault {α : Type} (default : α) (read : Json → Option α) : Option Json → Option α
  | none => some default
  | some j => read j

/-- A field that may be missing or null. -/
def optional {α : Type} (read : Json → Option α) : Option Json → Option (Option α) :=
  withDefault none (orNull read)

/-- A word that may also be written as the key of an object with nothing else in it. -/
def asWord : Json → Option String
  | .string s => some s
  | .object [(key, .null)] => some key
  | _ => none

/-! ## Soundness -/

mutual

/-- Whether a value can be taken over whole: nothing in it is spoiled, and it is nested at most
`depth` times. -/
def isSound (depth : Nat) : Json → Bool
  | .spoiled => false
  | .array items =>
    match depth with
    | 0 => false
    | depth + 1 => allSound depth items
  | .object fields =>
    match depth with
    | 0 => false
    | depth + 1 => allFieldsSound depth fields
  | _ => true

/-- Whether all of some values can be taken over whole. -/
def allSound (depth : Nat) : List Json → Bool
  | [] => true
  | j :: rest => isSound depth j && allSound depth rest

/-- Whether the values of all fields can be taken over whole. -/
def allFieldsSound (depth : Nat) : List (String × Json) → Bool
  | [] => true
  | (_, j) :: rest => isSound depth j && allFieldsSound depth rest

end

end Json
end FontLayout
