import FontLayout.Compilation
/-!
# Font files

A font file is a directory of tables, then the tables, each padded to a multiple of four bytes.
The directory tells the place, the length and a checksum of each table.
-/
namespace FontLayout.FontFile

/-- A table with zeros up to a multiple of four bytes. -/
def padded (bytes : ByteArray) : ByteArray :=
  pushBytes bytes (List.replicate ((4 - bytes.size % 4) % 4) 0)

/-- The words of a padded table, summed, and the place in the current word. -/
def checksumStep (s : UInt32 × UInt32) (b : UInt8) : UInt32 × UInt32 :=
  (s.1 + (b.toUInt32 <<< s.2), if s.2 = 0 then 24 else s.2 - 8)

/-- The sum of the four-byte words of a table, modulo the range of a word. -/
def checksum (bytes : ByteArray) : UInt32 := (bytes.foldl checksumStep (0, 24)).1

/-- The offset table: the version, the number of tables, and three numbers for a binary search. -/
def header (n : Nat) : List UInt8 :=
  let log := Nat.log2 n
  let range := 16 * Nat.pow 2 log
  natBytes 4 0x00010000 ++ natBytes 2 n ++ natBytes 2 range ++ natBytes 2 log
    ++ natBytes 2 (if n = 0 then 0 else 16 * n - range)

/-- The directory entry of a table that starts at `start`. -/
def entry (table : Tag × ByteArray) (start : Nat) : List UInt8 :=
  table.1.bytes ++ natBytes 4 (checksum table.2).toNat ++ natBytes 4 start
    ++ natBytes 4 table.2.size

/-- Where each table starts, from the place of the first. -/
def starts (first : Nat) (tables : List (Tag × ByteArray)) : List Nat :=
  (tables.foldl (fun (acc, pos) t => (pos :: acc, pos + (padded t.2).size)) ([], first)).1.reverse

/-- A font file with these tables, which come by tag in ascending order. -/
def encode (tables : List (Tag × ByteArray)) : ByteArray :=
  let n := tables.length
  let entries := (tables.zip (starts (12 + 16 * n) tables)).flatMap fun (t, start) => entry t start
  tables.foldl (fun out t => out ++ padded t.2) (pushBytes .empty (header n ++ entries))

end FontLayout.FontFile
