import FontLayout.Json.Basic
/-!
# Numbers in JSON text

A number with a fraction or an exponent, or with more digits than a word holds, is measured in
double precision: as many of its leading digits as fit a word are multiplied by a power of ten.
A number for which that product is too large stands for no value.
-/
namespace FontLayout.Json.Number

/-! ## Digits -/

/-- The value of a decimal digit. -/
def digitValue (c : Char) : Nat := c.toNat - 48

/-- The value of a run of decimal digits. -/
def digitsValue (ds : List Char) : Nat := ds.foldl (fun n d => 10 * n + digitValue d) 0

/-- The digits in front of a text, and the rest. -/
def digits (cs : List Char) : List Char × List Char := cs.span Char.isDigit

/-- Digits without a needless leading zero, and the rest. -/
def wholePart? (cs : List Char) : Option (List Char × List Char) :=
  match digits cs with
  | ([], _) => none
  | ('0' :: _ :: _, _) => none
  | r => some r

/-- The digits after a point, if there is a point, and the rest. -/
def fraction? : List Char → Option (List Char × List Char)
  | '.' :: cs =>
    match digits cs with
    | ([], _) => none
    | r => some r
  | cs => some ([], cs)

/-- A power of ten, if one is given: its value, and the rest. -/
def exponent? : List Char → Option (Option Int × List Char)
  | c :: cs =>
    if c = 'e' || c = 'E' then
      let (negative, cs) :=
        match cs with
        | '+' :: cs => (false, cs)
        | '-' :: cs => (true, cs)
        | cs => (false, cs)
      match digits cs with
      | ([], _) => none
      | (ds, rest) =>
        let n : Int := digitsValue ds
        some (some (if negative then -n else n), rest)
    else some (none, c :: cs)
  | [] => some (none, [])

/-! ## Leading digits -/

/-- A number as its leading digits times a power of ten. -/
structure Scaled where
  significand : Nat
  power : Int
deriving DecidableEq

/-- One more than the largest significand. -/
def wordBound : Nat := 0x10000000000000000

/-- Adds the digits in front of the point. From the first that the significand cannot take, each
is a factor of ten. -/
def addWhole (n : Nat) : List Char → Scaled
  | [] => ⟨n, 0⟩
  | d :: ds =>
    if 10 * n + digitValue d < wordBound then addWhole (10 * n + digitValue d) ds
    else ⟨n, ds.length + 1⟩

/-- Adds the digits after the point, up to the first that the significand cannot take. -/
def addDecimals (s : Scaled) : List Char → Scaled
  | [] => s
  | d :: ds =>
    if 10 * s.significand + digitValue d < wordBound then
      addDecimals ⟨10 * s.significand + digitValue d, s.power - 1⟩ ds
    else s

/-- The number with these digits in front of and after the point, times a power of ten. -/
def Scaled.ofDigits (whole decimals : List Char) (power : Int) : Scaled :=
  let s := addDecimals (addWhole 0 whole) decimals
  { s with power := s.power + power }

/-! ## Double precision -/

/-- A quotient rounded to the nearest integer; of two that are as near, the even one. -/
def nearestQuotient (n d : Nat) : Nat :=
  if d < 2 * (n % d) ∨ (2 * (n % d) = d ∧ n / d % 2 = 1) then n / d + 1 else n / d

/-- An integer rounded to fifty-three bits, without a bound on its size. -/
def nearestDouble (n : Nat) : Nat :=
  let unit := Nat.pow 2 (Nat.log2 n - 52)
  nearestQuotient n unit * unit

/-- The least integer beyond the range of a double. -/
def doubleBound : Nat := Nat.pow 2 1024

/-- The largest power of ten within the range of a double. -/
def maxPower : Nat := 308

/-- Whether a number is within the range of a double. Both factors are rounded before they are
multiplied, and so is the product. -/
def Scaled.isFinite (s : Scaled) : Bool :=
  s.significand = 0 || s.power ≤ 0 ||
    (s.power ≤ maxPower &&
      nearestDouble (nearestDouble s.significand * nearestDouble (Nat.pow 10 s.power.toNat))
        < doubleBound)

/-! ## Reading -/

/-- A number, after its sign, and the rest. -/
def unsigned? (negative : Bool) (cs : List Char) : Option (Json × List Char) := do
  let (whole, cs₁) ← wholePart? cs
  let (decimals, cs₂) ← fraction? cs₁
  let (power, rest) ← exponent? cs₂
  let n := digitsValue whole
  if !(Scaled.ofDigits whole decimals (power.getD 0)).isFinite then
    some (.spoiled, rest)
  else if decimals.isEmpty && power.isNone && !(negative && n = 0) then
    some (.integer (if negative then -n else n), rest)
  else
    let text := cs.take (cs.length - rest.length)
    some (.decimal (String.ofList (if negative then '-' :: text else text)), rest)

end FontLayout.Json.Number

namespace FontLayout.Json

/-- A number, and the rest of the text. -/
def number? : List Char → Option (Json × List Char)
  | '-' :: cs => Number.unsigned? true cs
  | cs => Number.unsigned? false cs

end FontLayout.Json
