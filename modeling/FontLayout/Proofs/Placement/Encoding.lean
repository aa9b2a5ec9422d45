import FontLayout.Proofs.Placement.Blocks
/-!
# What an encoded tree holds

`Tiles` and `Holds` say what the bytes of a tree are, independently of how they are made: blocks
without gap or overlap in the order of placement, and in each block the bytes that were written
and, in every offset field, the distance to the start of the linked table. `offsetFields` lists
the distances in the order in which they are resolved.

Results:
* `bigEndian_natBytes`: a number that fits its bytes is read back from them.
* `Table.overflow?_eq`: the overflow of a tree is that of the first field that has one.
* `Table.encode_placement`: encoding either tiles its output with all tables, every offset field
  being exact, or reports the first field whose distance does not fit.
-/
namespace FontLayout

/-! ## Numbers in bytes -/

/-- The number that bytes spell, the most significant first. -/
def bigEndian (bs : List UInt8) : Nat := bs.foldl (fun n b => n * 256 + b.toNat) 0

theorem bigEndian_append_singleton (bs : List UInt8) (b : UInt8) :
    bigEndian (bs ++ [b]) = bigEndian bs * 256 + b.toNat := by
  simp [bigEndian, List.foldl_append]

theorem length_natBytes (n x : Nat) : (natBytes n x).length = n := by
  induction n generalizing x with
  | zero => rfl
  | succ n ih => rw [natBytes, List.length_append, ih]; rfl

theorem bigEndian_natBytes {n x : Nat} (h : x < 256 ^ n) : bigEndian (natBytes n x) = x := by
  induction n generalizing x with
  | zero =>
    have : x = 0 := by simpa using h
    rw [this]; rfl
  | succ n ih =>
    have hdiv : x / 256 < 256 ^ n := by
      rw [Nat.div_lt_iff_lt_mul (by decide)]
      simpa [Nat.pow_succ] using h
    have hbyte : (UInt8.ofNat (x % 256)).toNat = x % 256 := by
      rw [UInt8.toNat_ofNat']; omega
    rw [natBytes, bigEndian_append_singleton, ih hdiv, hbyte]
    omega

theorem Width.lt_pow_size {w : Width} {x : Nat} (h : x ≤ w.limit) : x < 256 ^ w.size := by
  cases w <;> simp only [limit, size] at h ⊢ <;> omega

theorem data_pushWord_empty (w : UInt16) :
    (pushWord .empty w).data.toList = wordBytes w := by
  simp [pushWord, wordBytes]

/-! ## Offset fields -/

/-- An offset field: its width, what it points to, the lookup that owns the table it stands in,
and the distance it has to hold. -/
structure OffsetField where
  width : Width
  target : Target
  owner : Option Nat
  value : Nat

/-- The overflow of a field, if its distance does not fit. -/
def OffsetField.overflow? (f : OffsetField) : Option Overflow :=
  if f.width.limit < f.value then some ⟨f.owner, f.target, f.value⟩ else none

theorem OffsetField.overflow?_eq_none_iff {f : OffsetField} :
    f.overflow? = none ↔ f.value ≤ f.width.limit := by
  unfold overflow?; split <;> simp <;> omega

/-- The offset field that a cell of a block is, if it is one. -/
def Block.field? (b : Block) : Cell → Option OffsetField
  | .bytes _ => none
  | .offset width target goal => some ⟨width, target, b.owner, b.reach goal⟩

namespace Table

/-- The offset fields of a table at the end of `path`, where the next link is the `k`-th one and
tables start where `start` says. -/
def fields (start : List Nat → Nat) (path : List Nat) (owner : Option Nat) (k : Nat) :
    Table → List OffsetField
  | .done => []
  | .bytes _ rest | .count _ rest | .null _ rest => fields start path owner k rest
  | .link l _ rest =>
    ⟨l.width, l.target, owner, start (path ++ [k]) - start path⟩ ::
      fields start path owner (k + 1) rest

/-- The offset fields of a tree, table by table in the order of placement. -/
def offsetFields (t : Table) : List OffsetField :=
  t.placementOrder.flatMap fun n => n.table.fields t.start n.path n.owner 0

theorem filterMap_cells (t : Table) (start : List Nat → Nat) (path : List Nat) (k : Nat)
    (b : Block) (hb : b.start = start path) :
    (t.cells start path k).filterMap b.field? = t.fields start path b.owner k := by
  induction t generalizing k with
  | done => rfl
  | bytes _ rest ih | count _ rest ih | null _ rest ih => exact ih k
  | link l child rest _ ih =>
    rw [cells, fields, List.filterMap_cons, ih (k + 1), Block.field?, Block.reach, hb]

/-- The offset fields of a tree can be read off its blocks. -/
theorem offsetFields_of_blocks (t : Table) :
    t.offsetFields = t.blocks.flatMap fun b => b.cells.filterMap b.field? := by
  have hblock (n : Node) : (n.block t.start).cells.filterMap (n.block t.start).field? =
      n.table.fields t.start n.path n.owner 0 := filterMap_cells n.table t.start n.path 0 _ rfl
  rw [blocks_eq, offsetFields, List.flatMap_map]
  simp only [hblock]

/-- The overflow of a tree is that of the first offset field that has one. -/
theorem overflow?_eq (t : Table) :
    t.overflow? = t.offsetFields.findSome? OffsetField.overflow? := by
  have hcell (b : Block) : b.overflow? = fun c => (b.field? c).bind OffsetField.overflow? := by
    funext c
    cases c <;> rfl
  rw [offsetFields_of_blocks, overflow?, ← List.head?_filterMap (f := OffsetField.overflow?),
    List.filterMap_flatMap, List.head?_flatMap]
  simp only [List.filterMap_filterMap, List.head?_filterMap, hcell]

end Table

/-! ## Bytes -/

/-- Whether bytes are the fields of a table at the end of `path`, where the next link is the
`k`-th one and tables start where `start` says. An offset field holds the distance from the start
of its table to that of the table it points to. -/
def Holds (start : List Nat → Nat) (path : List Nat) (k : Nat) : Table → List UInt8 → Prop
  | .done, out => out = []
  | .bytes bs rest, out =>
    ∃ more, out = bs.data.toList ++ more ∧ Holds start path k rest more
  | .count n rest, out =>
    ∃ more, out = wordBytes (countWord n) ++ more ∧ Holds start path k rest more
  | .null width rest, out =>
    ∃ more, out = List.replicate width.size 0 ++ more ∧ Holds start path k rest more
  | .link l _ rest, out =>
    ∃ field more, out = field ++ more ∧ field.length = l.width.size ∧
      start path + bigEndian field = start (path ++ [k]) ∧ Holds start path (k + 1) rest more

/-- Whether bytes are those of tables one after another, the first of which starts at `pos`, with
nothing between them and nothing behind. -/
def Tiles (start : List Nat → Nat) (pos : Nat) : List Node → List UInt8 → Prop
  | [], out => out = []
  | n :: rest, out =>
    start n.path = pos ∧ ∃ block more, out = block ++ more ∧ block.length = n.table.size ∧
      Holds start n.path 0 n.table block ∧ Tiles start (pos + n.table.size) rest more

theorem Table.holds_cells {t : Table} {start : List Nat → Nat} {path : List Nat}
    {owner : Option Nat} {k : Nat} {b : Block} (hb : b.start = start path)
    (hfit : ∀ f ∈ t.fields start path owner k, f.value ≤ f.width.limit)
    (hle : ∀ c ∈ t.childNodes path owner k, start path ≤ start c.path) :
    Holds start path k t ((t.cells start path k).flatMap b.cellBytes) := by
  induction t generalizing k with
  | done => rfl
  | bytes bs rest ih => exact ⟨_, rfl, ih hfit hle⟩
  | count n rest ih =>
    refine ⟨_, ?_, ih hfit hle⟩
    rw [cells, List.flatMap_cons, Block.cellBytes, data_pushWord_empty]
  | null w rest ih =>
    refine ⟨_, ?_, ih hfit hle⟩
    rw [cells, List.flatMap_cons, Block.cellBytes, data_pushBytes]
    simp
  | link l child rest _ ih =>
    rw [fields, List.forall_mem_cons] at hfit
    rw [childNodes, List.forall_mem_cons] at hle
    have hfits : start (path ++ [k]) - start path ≤ l.width.limit := hfit.1
    have hafter : start path ≤ start (path ++ [k]) := hle.1
    refine ⟨natBytes l.width.size (start (path ++ [k]) - start path), _, ?_, length_natBytes ..,
      ?_, ih hfit.2 hle.2⟩
    · rw [cells, List.flatMap_cons, Block.cellBytes, Block.reach, hb]
    · rw [bigEndian_natBytes (Width.lt_pow_size hfits)]
      omega

theorem Table.length_cells (t : Table) (start : List Nat → Nat) (path : List Nat) (k : Nat)
    (b : Block) : ((t.cells start path k).flatMap b.cellBytes).length = t.size := by
  induction t generalizing k with
  | done => rfl
  | bytes bs rest ih =>
    rw [cells, List.flatMap_cons, List.length_append, ih, size_bytes, Block.cellBytes,
      Array.length_toList, ByteArray.size]
  | count n rest ih =>
    rw [cells, List.flatMap_cons, List.length_append, ih, size_count, Block.cellBytes,
      data_pushWord_empty]
    rfl
  | null w rest ih =>
    rw [cells, List.flatMap_cons, List.length_append, ih, size_null, Block.cellBytes,
      data_pushBytes]
    simp
  | link l child rest _ ih =>
    rw [cells, List.flatMap_cons, List.length_append, ih, size_link, Block.cellBytes,
      length_natBytes]

theorem tiles_blocks {start : List Nat → Nat} {pos : Nat} {ns : List Node}
    (hpos : ns.map (fun n => start n.path) = positions pos ns)
    (hfit : ∀ n ∈ ns, ∀ f ∈ n.table.fields start n.path n.owner 0, f.value ≤ f.width.limit)
    (hle : ∀ n ∈ ns, ∀ c ∈ n.children, start n.path ≤ start c.path) :
    Tiles start pos ns ((ns.map (Node.block start)).flatMap Block.bytes) := by
  induction ns generalizing pos with
  | nil => rfl
  | cons n ns ih =>
    rw [List.map_cons, positions, List.cons.injEq] at hpos
    rw [List.forall_mem_cons] at hfit hle
    refine ⟨hpos.1, (n.block start).bytes, _, rfl, ?_, ?_, ih hpos.2 hfit.2 hle.2⟩
    · exact n.table.length_cells start n.path 0 (n.block start)
    · exact Table.holds_cells rfl hfit.1 hle.1

/-! ## Encoding -/

namespace Table

theorem encode_eq (t : Table) :
    t.encode = match t.overflow? with
      | some o => .error o
      | none => .ok (bytesOfBlocks t.blocks) := rfl

/-- **Placement.** Every table of a tree is placed once, and before the tables it links to. The
output consists of the blocks of the tables in that order, and every offset field holds the
distance from its table to the linked one; or some distance does not fit, and the first such
field is reported. -/
theorem encode_placement (t : Table) :
    t.placementOrder.Perm t.root.nodes ∧ (t.placementOrder.map Node.path).Nodup ∧
      (∀ n ∈ t.placementOrder, ∀ c ∈ n.children,
        t.start n.path + n.table.size ≤ t.start c.path) ∧
      match t.encode with
      | .ok out =>
        Tiles t.start 0 t.placementOrder out.data.toList ∧
          ∀ f ∈ t.offsetFields, f.value ≤ f.width.limit
      | .error o =>
        ∃ before f after, t.offsetFields = before ++ f :: after ∧
          (∀ g ∈ before, g.value ≤ g.width.limit) ∧ f.width.limit < f.value ∧
          o.target = f.target ∧ o.value = f.value := by
  have hafter : ∀ n ∈ t.placementOrder, ∀ c ∈ n.children,
      t.start n.path + n.table.size ≤ t.start c.path := fun n hn c hc => t.start_child hn hc
  refine ⟨t.perm_placementOrder, t.nodup_placementOrder, hafter, ?_⟩
  rw [encode_eq, overflow?_eq]
  cases h : t.offsetFields.findSome? OffsetField.overflow? with
  | none =>
    have hfit : ∀ f ∈ t.offsetFields, f.value ≤ f.width.limit := fun f hf =>
      OffsetField.overflow?_eq_none_iff.1 (List.findSome?_eq_none_iff.1 h f hf)
    refine ⟨?_, hfit⟩
    rw [data_bytesOfBlocks, blocks_eq]
    refine tiles_blocks (map_startIn t.nodup_placementOrder) ?_ ?_
    · exact fun n hn f hf => hfit f (List.mem_flatMap.2 ⟨n, hn, hf⟩)
    · exact fun n hn c hc => Nat.le_trans (Nat.le_add_right ..) (hafter n hn c hc)
  | some o =>
    obtain ⟨before, f, after, e, hf, hbefore⟩ := List.findSome?_eq_some_iff.1 h
    refine ⟨before, f, after, e, ?_, ?_⟩
    · exact fun g hg => OffsetField.overflow?_eq_none_iff.1 (hbefore g hg)
    · unfold OffsetField.overflow? at hf
      split at hf
      · next hlt => cases hf; exact ⟨hlt, rfl, rfl⟩
      · cases hf

end Table
end FontLayout
