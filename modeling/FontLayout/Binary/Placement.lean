import FontLayout.Binary.Table
/-!
# Placing the tables of a tree

A tree of tables is written as one run of blocks, a block for each table. A table is followed by
the tables behind its near links, each with all that is near to it. Deferred tables wait in a
queue until the whole near part of the tree is written, then come out in the order of their
links, each with its own near part. Sizes alone decide every position, so positions are known
before a byte is written, and an offset that does not fit its field is found without writing.

Results:
* `extentFrom_eq`: the near part of a tree takes the sum of its tables.
* `data_bytesOfBlocks`: what is written is the bytes of the blocks, in order.
-/
namespace FontLayout

/-! ## Measures of a tree -/

namespace Table

/-- The sum of `n` and the bytes of a table's fields and of all that is near to it. -/
def extentFrom (n : Nat) : Table → Nat
  | .done => n
  | .bytes bs rest => extentFrom (n + bs.size) rest
  | .count _ rest => extentFrom (n + 2) rest
  | .null width rest => extentFrom (n + width.size) rest
  | .link l child rest =>
    match l.placement with
    | .near => extentFrom (extentFrom (n + l.width.size) child) rest
    | .deferred => extentFrom (n + l.width.size) rest

/-- The bytes of a table and of all that is near to it. -/
def extent (t : Table) : Nat := extentFrom 0 t

theorem extentFrom_eq (t : Table) (n : Nat) : extentFrom n t = n + extent t := by
  suffices ∀ m, extentFrom (n + m) t = n + extentFrom m t by simpa [extent] using this 0
  induction t with
  | done => intro m; rfl
  | bytes bs rest ih => intro m; simp only [extentFrom, Nat.add_assoc, ih]
  | count _ rest ih => intro m; simp only [extentFrom, Nat.add_assoc, ih]
  | null w rest ih => intro m; simp only [extentFrom, Nat.add_assoc, ih]
  | link l child rest ihc ih =>
    intro m
    cases h : l.placement with
    | near => simp only [extentFrom, h, Nat.add_assoc, ihc, ih]
    | deferred => simp only [extentFrom, h, Nat.add_assoc, ih]

/-- Adds to `acc`, last first, the deferred tables that wait below the near part of a tree, each
with the lookup that owns it. -/
def deferredOnto (owner : Option Nat) (acc : List (Option Nat × Table)) :
    Table → List (Option Nat × Table)
  | .done => acc
  | .bytes _ rest => deferredOnto owner acc rest
  | .count _ rest => deferredOnto owner acc rest
  | .null _ rest => deferredOnto owner acc rest
  | .link l child rest =>
    match l.placement with
    | .near => deferredOnto owner (deferredOnto (l.ownerBelow owner) acc child) rest
    | .deferred => deferredOnto owner ((l.ownerBelow owner, child) :: acc) rest

/-- The deferred tables that wait below the near part of a tree, in the order of their links. -/
def deferred (owner : Option Nat) (t : Table) : List (Option Nat × Table) :=
  (deferredOnto owner [] t).reverse

/-- The sum of `n` and the number of deferred tables below the near part of a tree. -/
def deferredCountFrom (n : Nat) : Table → Nat
  | .done => n
  | .bytes _ rest => deferredCountFrom n rest
  | .count _ rest => deferredCountFrom n rest
  | .null _ rest => deferredCountFrom n rest
  | .link l child rest =>
    match l.placement with
    | .near => deferredCountFrom (deferredCountFrom n child) rest
    | .deferred => deferredCountFrom (n + 1) rest

/-- The number of deferred tables below the near part of a tree. -/
def deferredCount (t : Table) : Nat := deferredCountFrom 0 t

/-- A bound on how often deferred links follow each other down a tree. -/
def depthFrom (n : Nat) : Table → Nat
  | .done => n
  | .bytes _ rest => depthFrom n rest
  | .count _ rest => depthFrom n rest
  | .null _ rest => depthFrom n rest
  | .link _ child rest => depthFrom (max n (depthFrom 0 child + 1)) rest

/-- The greatest number of links on a way down a tree. -/
def depth (t : Table) : Nat := depthFrom 0 t

/-- The tables of a queue, then those that they defer, then those that these defer, and so on
for at most `fuel` rounds. This is the order in which a queue that takes each table's deferred
tables at its end hands them out. -/
def rounds : Nat → List (Option Nat × Table) → List (Option Nat × Table)
  | 0, queue => queue
  | fuel + 1, queue =>
    match queue with
    | [] => []
    | queue => queue ++ rounds fuel (queue.flatMap fun entry => entry.2.deferred entry.1)

/-- The tables that head a near part each: the root, then the deferred tables in the order in
which they are written, each with the lookup that owns it. -/
def heads (t : Table) : List (Option Nat × Table) := rounds t.depth [(none, t)]

end Table

/-! ## Blocks -/

/-- A piece of a block: bytes as they are, or an offset to the block that starts at `goal`. -/
inductive Cell where
  | bytes (bs : ByteArray)
  | offset (width : Width) (target : Target) (goal : Nat)
deriving DecidableEq

/-- A table in its place: where it starts, the lookup that owns it, and its fields. -/
structure Block where
  start : Nat
  owner : Option Nat
  cells : List Cell
deriving DecidableEq

namespace Table

/-- Adds the cells of a table to `acc`, last first. The next near table goes to `near`, and the
deferred tables go to the places of `waiting`, in order. -/
def cellsOnto (near : Nat) (waiting : List Nat) (acc : List Cell) : Table → List Cell
  | .done => acc
  | .bytes bs rest => cellsOnto near waiting (.bytes bs :: acc) rest
  | .count n rest => cellsOnto near waiting (.bytes (pushWord .empty (countWord n)) :: acc) rest
  | .null width rest =>
    cellsOnto near waiting (.bytes (pushBytes .empty (List.replicate width.size 0)) :: acc) rest
  | .link l child rest =>
    match l.placement with
    | .near =>
      cellsOnto (near + child.extent) (waiting.drop child.deferredCount)
        (.offset l.width l.target near :: acc) rest
    | .deferred =>
      cellsOnto near waiting.tail (.offset l.width l.target (waiting.headD 0) :: acc) rest

/-- The block of a table that starts at `start`. -/
def block (owner : Option Nat) (start : Nat) (waiting : List Nat) (t : Table) : Block where
  start := start
  owner := owner
  cells := (cellsOnto (start + t.size) waiting [] t).reverse

/-- Adds to `acc`, last first, the blocks of all tables below the near links of a table. -/
def blocksBelow (owner : Option Nat) (near : Nat) (waiting : List Nat) (acc : List Block) :
    Table → List Block
  | .done => acc
  | .bytes _ rest => blocksBelow owner near waiting acc rest
  | .count _ rest => blocksBelow owner near waiting acc rest
  | .null _ rest => blocksBelow owner near waiting acc rest
  | .link l child rest =>
    match l.placement with
    | .near =>
      let below := l.ownerBelow owner
      blocksBelow owner (near + child.extent) (waiting.drop child.deferredCount)
        (blocksBelow below (near + child.size) waiting (child.block below near waiting :: acc)
          child) rest
    | .deferred => blocksBelow owner near waiting.tail acc rest

/-- Adds to `acc`, last first, the blocks of a table at `start` and of all that is near to it. -/
def blocksOnto (owner : Option Nat) (start : Nat) (waiting : List Nat) (t : Table)
    (acc : List Block) : List Block :=
  blocksBelow owner (start + t.size) waiting (t.block owner start waiting :: acc) t

/-- Where each of a list of tables starts if they are written one after another with all that is
near to them. -/
def starts (ts : List (Option Nat × Table)) : List Nat :=
  (ts.foldl (fun (acc, pos) t => (pos :: acc, pos + t.2.extent)) ([], 0)).1.reverse

/-- The state of writing near parts one after another: the blocks so far, last first, where the
next near part starts, and the places that wait for deferred tables. -/
structure Progress where
  blocks : List Block
  next : Nat
  waiting : List Nat

/-- Writes one more near part. -/
def Progress.step (p : Progress) (head : Option Nat × Table) : Progress where
  blocks := blocksOnto head.1 p.next p.waiting head.2 p.blocks
  next := p.next + head.2.extent
  waiting := p.waiting.drop head.2.deferredCount

/-- The blocks of a tree, in the order in which they are written. -/
def blocks (t : Table) : List Block :=
  let heads := t.heads
  (heads.foldl Progress.step ⟨[], 0, (starts heads).tail⟩).blocks.reverse

end Table

/-! ## Offsets -/

/-- An offset that does not fit its field: the lookup that owns the table holding it, what it
points to, and the distance. -/
structure Overflow where
  lookup : Option Nat
  target : Target
  value : Nat
deriving DecidableEq

namespace Block

/-- The distance that an offset in this block has to hold. -/
def reach (b : Block) (goal : Nat) : Nat := goal - b.start

/-- The overflow of a cell of this block, if it has one. -/
def overflow? (b : Block) : Cell → Option Overflow
  | .bytes _ => none
  | .offset width target goal =>
    if width.limit < b.reach goal then some ⟨b.owner, target, b.reach goal⟩ else none

/-- The bytes of a cell of this block. -/
def cellBytes (b : Block) : Cell → List UInt8
  | .bytes bs => bs.data.toList
  | .offset width _ goal => natBytes width.size (b.reach goal)

/-- The bytes of a block. -/
def bytes (b : Block) : List UInt8 := b.cells.flatMap b.cellBytes

/-- Adds the bytes of a cell of this block at the end. -/
def pushCell (b : Block) (out : ByteArray) : Cell → ByteArray
  | .bytes bs => out ++ bs
  | .offset width _ goal => pushBytes out (natBytes width.size (b.reach goal))

/-- Adds the bytes of a block at the end. -/
def push (out : ByteArray) (b : Block) : ByteArray := b.cells.foldl b.pushCell out

theorem data_pushCell (b : Block) (out : ByteArray) (c : Cell) :
    (b.pushCell out c).data.toList = out.data.toList ++ b.cellBytes c := by
  cases c with
  | bytes bs => simp [pushCell, cellBytes]
  | offset width target goal => exact data_pushBytes _ _

theorem data_push (out : ByteArray) (b : Block) :
    (push out b).data.toList = out.data.toList ++ b.bytes := by
  unfold push bytes
  generalize b.cells = cells
  induction cells generalizing out with
  | nil => simp
  | cons c cells ih =>
    rw [List.foldl_cons, ih, data_pushCell, List.flatMap_cons, List.append_assoc]

end Block

/-- The bytes of blocks, one after another. -/
def bytesOfBlocks (blocks : List Block) : ByteArray := blocks.foldl Block.push .empty

theorem data_bytesOfBlocks (blocks : List Block) :
    (bytesOfBlocks blocks).data.toList = blocks.flatMap Block.bytes := by
  suffices ∀ out, (blocks.foldl Block.push out).data.toList =
      out.data.toList ++ blocks.flatMap Block.bytes from this .empty
  induction blocks with
  | nil => simp
  | cons b blocks ih =>
    intro out
    rw [List.foldl_cons, ih, Block.data_push, List.flatMap_cons, List.append_assoc]

namespace Table

/-- The first offset of a tree that does not fit, in the order of the blocks and, within a
block, of its fields. -/
def overflow? (t : Table) : Option Overflow :=
  t.blocks.findSome? fun b => b.cells.findSome? b.overflow?

/-- The bytes of a tree, or the first offset that does not fit. -/
def encode (t : Table) : Except Overflow ByteArray :=
  let blocks := t.blocks
  match blocks.findSome? fun b => b.cells.findSome? b.overflow? with
  | some o => .error o
  | none => .ok (bytesOfBlocks blocks)

end Table
end FontLayout
