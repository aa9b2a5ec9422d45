import FontLayout.Binary.Bytes
/-!
# Trees of tables

A layout table is a tree. Each table is a run of fields: bytes, counts of what follows, offsets
that point nowhere, and links, which are offsets to further tables. A link says how wide its
offset is, what it points to, and whether the table it points to follows at once or waits until
everything that follows at once has been written.

Results:
* `sizeFrom_eq`: the size of a table is the sum of the sizes of its fields.
-/
namespace FontLayout

/-! ## Links -/

/-- The width of an offset. -/
inductive Width where
  | short
  | long
deriving DecidableEq

namespace Width

/-- The number of bytes of an offset. -/
def size : Width → Nat
  | .short => 2
  | .long => 4

/-- The greatest distance an offset can hold. -/
def limit : Width → Nat
  | .short => 0xFFFF
  | .long => 0xFFFFFFFF

end Width

/-- Where a table stands that a link points to. -/
inductive Placement where
  /-- Right behind the table that links to it, after the earlier such tables. -/
  | near
  /-- After everything that is reached by near links alone, in the order of the links. -/
  | deferred
deriving DecidableEq

/-- What an offset points to. -/
inductive Target where
  | scriptList
  | script
  | languageSystem
  | featureList
  | feature
  | lookupList
  | lookup
  | subtable
  | coverage
  | backtrackCoverage
  | inputCoverage
  | lookaheadCoverage
  | markCoverage
  | baseCoverage
  | ligatureCoverage
  | baseMarkCoverage
  | firstClasses
  | secondClasses
  | sequence
  | alternateSet
  | ligatureSet
  | ligature
  | pairSet
  | cursiveAnchor
  | markArray
  | baseArray
  | baseMarkArray
  | ligatureArray
  | ligatureAttach
  | anchor
  | glyphClasses
  | caretList
  | ligatureGlyph
  | caretValue
  | markAttachClasses
  | markGlyphSets
deriving DecidableEq

/-- The name of a target in messages. -/
def Target.label : Target → String
  | .scriptList => "a script list"
  | .script => "a script table"
  | .languageSystem => "a language system table"
  | .featureList => "a feature list"
  | .feature => "a feature table"
  | .lookupList => "a lookup list"
  | .lookup => "a lookup table"
  | .subtable => "a lookup subtable"
  | .coverage => "a coverage table"
  | .backtrackCoverage => "a backtrack coverage table"
  | .inputCoverage => "an input coverage table"
  | .lookaheadCoverage => "a lookahead coverage table"
  | .markCoverage => "a mark coverage table"
  | .baseCoverage => "a base coverage table"
  | .ligatureCoverage => "a ligature coverage table"
  | .baseMarkCoverage => "a base mark coverage table"
  | .firstClasses => "a class 1 definition table"
  | .secondClasses => "a class 2 definition table"
  | .sequence => "a sequence table"
  | .alternateSet => "an alternate set table"
  | .ligatureSet => "a ligature set table"
  | .ligature => "a ligature table"
  | .pairSet => "a pair set table"
  | .cursiveAnchor => "a cursive attach table"
  | .markArray => "a mark array"
  | .baseArray => "a base array"
  | .baseMarkArray => "a base mark array"
  | .ligatureArray => "a ligature array"
  | .ligatureAttach => "a ligature attach table"
  | .anchor => "an anchor table"
  | .glyphClasses => "a glyph class definition table"
  | .caretList => "a ligature caret list"
  | .ligatureGlyph => "a ligature glyph table"
  | .caretValue => "a caret value table"
  | .markAttachClasses => "a mark attachment class definition table"
  | .markGlyphSets => "a mark glyph sets table"

/-- An offset field: its width, what it points to, where that stands, and the lookup that owns
the tables from there on, if the link leads into one. -/
structure Link where
  width : Width
  target : Target
  placement : Placement
  lookup : Option Nat
deriving DecidableEq

namespace Link

/-- A short offset to a table that follows at once. -/
def near (target : Target) : Link := ⟨.short, target, .near, none⟩

/-- The lookup that owns the tables behind a link found in a table of `owner`. -/
def ownerBelow (l : Link) (owner : Option Nat) : Option Nat := l.lookup.or owner

end Link

/-! ## Tables -/

/-- A table, as the run of its fields; the tables it links to hang below its links. -/
inductive Table where
  | done
  | bytes (bs : ByteArray) (rest : Table)
  | count (n : Nat) (rest : Table)
  | null (width : Width) (rest : Table)
  | link (l : Link) (child rest : Table)

namespace Table

/-- A word, then the rest. -/
def word (w : UInt16) (rest : Table) : Table := .bytes (pushWord .empty w) rest

/-- Words, then the rest. -/
def words (ws : List UInt16) (rest : Table) : Table := .bytes (bytesOfWords ws) rest

/-- A count, then that many words, then the rest. -/
def countedWords (ws : List UInt16) (rest : Table) : Table := .count ws.length (words ws rest)

/-- A link of one sort to each of several tables, then the rest. -/
def links (l : Link) (children : List Table) (rest : Table) : Table :=
  children.foldr (fun child rest => .link l child rest) rest

/-- A count, then a link to each of that many tables, then the rest. -/
def countedLinks (l : Link) (children : List Table) (rest : Table) : Table :=
  .count children.length (links l children rest)

/-- A link to a table that may be absent; the offset is null if it is. -/
def link? (l : Link) (child : Option Table) (rest : Table) : Table :=
  match child with
  | some child => .link l child rest
  | none => .null l.width rest

/-- The sum of `n` and the bytes of the fields of a table, without the tables below. -/
def sizeFrom (n : Nat) : Table → Nat
  | .done => n
  | .bytes bs rest => sizeFrom (n + bs.size) rest
  | .count _ rest => sizeFrom (n + 2) rest
  | .null width rest => sizeFrom (n + width.size) rest
  | .link l _ rest => sizeFrom (n + l.width.size) rest

/-- The bytes of the fields of a table, without the tables below. -/
def size (t : Table) : Nat := sizeFrom 0 t

theorem sizeFrom_eq (t : Table) (n : Nat) : sizeFrom n t = n + size t := by
  suffices ∀ m, sizeFrom (n + m) t = n + sizeFrom m t by simpa [size] using this 0
  induction t with
  | done => intro m; rfl
  | bytes bs rest ih => intro m; simp only [sizeFrom, Nat.add_assoc, ih]
  | count _ rest ih => intro m; simp only [sizeFrom, Nat.add_assoc, ih]
  | null w rest ih => intro m; simp only [sizeFrom, Nat.add_assoc, ih]
  | link l _ rest _ ih => intro m; simp only [sizeFrom, Nat.add_assoc, ih]

end Table
end FontLayout
