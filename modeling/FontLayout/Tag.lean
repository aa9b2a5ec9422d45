import Std.Data.TreeMap
/-!
# Tags

A tag is four bytes that name a table, a feature, a script or a language system. It is kept as
the number those bytes spell, most significant first, so tags are ordered as their bytes are.

Results:
* `Tag.ext_code`: tags with the same number are the same tag.
* `Tag.length_bytes`: a tag has four bytes.
-/
namespace FontLayout

/-- Four bytes, read as one number with the first byte most significant. -/
structure Tag where
  code : UInt32
deriving DecidableEq, Inhabited

namespace Tag

theorem ext_code {a b : Tag} (h : a.code = b.code) : a = b := by
  cases a; cases b; cases h; rfl

instance : Ord Tag := ⟨compareOn code⟩

instance : Std.TransOrd Tag :=
  inferInstanceAs (Std.TransCmp (compareOn code))

instance : Std.LawfulEqOrd Tag where
  eq_of_compare h := ext_code (@Std.LawfulEqCmp.eq_of_compare _ compare _ _ _ h)

/-- The four bytes of a tag, in order. -/
def bytes (t : Tag) : List UInt8 :=
  [(t.code >>> 24).toUInt8, (t.code >>> 16).toUInt8, (t.code >>> 8).toUInt8, t.code.toUInt8]

@[simp] theorem length_bytes (t : Tag) : t.bytes.length = 4 := rfl

/-- The tag that up to four characters spell, each below 256, with blanks filling the end. -/
def ofChars (cs : List Char) : Tag :=
  ⟨UInt32.ofNat (((cs ++ List.replicate 4 ' ').take 4).foldl (fun n c => n * 256 + c.toNat) 0)⟩

/-! ## Reading a tag from text -/

/-- A printable ASCII character, the blank included. -/
def isPrintable (c : Char) : Bool := 0x20 ≤ c.toNat && c.toNat < 0x7f

/-- Characters that may spell a tag: printable, and none but blanks after the first blank. -/
def spells (cs : List Char) : Bool :=
  cs.all isPrintable && (cs.dropWhile (· != ' ')).all (· == ' ')

/-- One to four printable characters, the first not blank, padded with blanks to four. -/
def ofString? (s : String) : Option Tag :=
  match s.toList with
  | [] => none
  | c :: cs =>
    if c != ' ' && spells (c :: cs) && cs.length < 4 then some (ofChars (c :: cs)) else none

/-! ## Writing a tag for a reader -/

/-- One hexadecimal digit in lower case. -/
def hexDigit (n : Nat) : Char :=
  if n < 10 then Char.ofNat (48 + n) else Char.ofNat (87 + n)

/-- A byte as it appears in messages: itself if printable, and otherwise its escaped number. -/
def byteLabel (b : UInt8) : List Char :=
  let c := Char.ofNat b.toNat
  if isPrintable c then [c]
  else ['\\', 'x', hexDigit (b.toNat / 16), hexDigit (b.toNat % 16)]

/-- The text of a tag in messages. -/
def label (t : Tag) : String := String.ofList (t.bytes.flatMap byteLabel)

/-- A name for the tables that these bytes head: one character per byte. -/
def toString (t : Tag) : String := String.ofList (t.bytes.map fun b => Char.ofNat b.toNat)

instance : ToString Tag := ⟨toString⟩

/-! ## Tags the layout tables are made of -/

/-- The table of glyph classes, carets and mark sets. -/
def gdef : Tag := ofChars ['G', 'D', 'E', 'F']

/-- The table of substitutions. -/
def gsub : Tag := ofChars ['G', 'S', 'U', 'B']

/-- The table of positionings. -/
def gpos : Tag := ofChars ['G', 'P', 'O', 'S']

/-- The script a feature is registered for when it names none. -/
def defaultScript : Tag := ofChars ['D', 'F', 'L', 'T']

/-- The language system every other language of a script falls back to. -/
def defaultLanguage : Tag := ofChars ['d', 'f', 'l', 't']

/-- Stands for the feature of a lookup that no feature uses. -/
def noFeature : Tag := ⟨0xFFFFFFFF⟩

end Tag
end FontLayout
