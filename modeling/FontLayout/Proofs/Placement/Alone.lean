import FontLayout.Proofs.Placement.Near
/-!
# Near parts on their own

A table all of whose links are near is written in one piece, and the piece is the same wherever
it stands: all places in it move together, so the distances between them stay. In a tree the
table overflows where it overflows on its own, and what it is encoded to on its own is found in
the bytes of the tree, from the place on where it starts.

Results:
* `Table.start_under`: all places in a near part move together.
* `Table.prefix_drop_start`: what a table is encoded to on its own stands where it is placed.
* `Table.offsetFields_eq`: the offsets of a tree are those of the root's near part, then those of
  the deferred tables, each as it is on its own.
-/
namespace FontLayout

/-! ## Nodes of a table in a tree -/

/-- A node of a table on its own, as a node of a tree in which the table stands at the end of
`path` and is owned by a lookup. -/
def Node.under (path : List Nat) (owner : Option Nat) (n : Node) : Node :=
  ⟨path ++ n.path, owner, n.table⟩

namespace Table
variable {t : Table} {path : List Nat} {owner : Option Nat} {k : Nat}

theorem AllNear.nearBelow_under (h : t.AllNear) (front path : List Nat) (owner : Option Nat)
    (k : Nat) :
    t.nearBelow (front ++ path) owner k =
      (t.nearBelow path none k).map (Node.under front owner) := by
  induction t generalizing path k with
  | done => rfl
  | bytes _ rest ih | count _ rest ih | null _ rest ih => exact ih h path k
  | link l child rest ihc ih =>
    obtain ⟨hl, hlookup, hc, hr⟩ := h
    have howner (o : Option Nat) : l.ownerBelow o = o := by rw [Link.ownerBelow, hlookup]; rfl
    simp only [nearBelow, hl, howner, List.map_cons, List.map_append]
    rw [← ihc hc, ← ih hr, List.append_assoc]
    rfl

theorem AllNear.deferredBelow_eq (h : t.AllNear) : t.deferredBelow path owner k = [] := by
  induction t generalizing path owner k with
  | done => rfl
  | bytes _ rest ih | count _ rest ih | null _ rest ih => exact ih h
  | link l child rest ihc ih =>
    obtain ⟨hl, -, hc, hr⟩ := h
    simp only [deferredBelow, hl, ihc hc, ih hr, List.append_nil]

end Table

theorem Node.nearPart_under {n : Node} (h : n.table.AllNear) :
    n.nearPart = n.table.root.nearPart.map (Node.under n.path n.owner) := by
  have hbelow := h.nearBelow_under n.path [] n.owner 0
  rw [List.append_nil] at hbelow
  rw [nearPart, hbelow, nearPart, List.map_cons, under]
  simp only [Table.root, List.append_nil]

/-- If nothing is deferred, the queue hands out what it holds. -/
theorem drain_eq_self {queue : List Node} (h : ∀ n ∈ queue, n.table.AllNear) :
    drain queue = queue := by
  have hnone : queue.flatMap Node.deferred = [] :=
    List.flatMap_eq_nil_iff.2 fun n hn => (h n hn).deferredBelow_eq
  rw [drain_round, hnone, drain_nil, List.append_nil]

theorem Table.placementOrder_of_allNear {t : Table} (h : t.AllNear) :
    t.placementOrder = t.root.nearPart := by
  rw [placementOrder, drain_eq_self (List.forall_mem_singleton.2 h), List.flatMap_singleton]

/-! ## Places move together -/

theorem positions_under (pos : Nat) (path : List Nat) (owner : Option Nat) (ns : List Node) :
    positions pos (ns.map (Node.under path owner)) = positions pos ns := by
  induction ns generalizing pos with
  | nil => rfl
  | cons n ns ih =>
    rw [List.map_cons, positions, ih]
    rfl

theorem positions_add (base pos : Nat) (ns : List Node) :
    positions (base + pos) ns = (positions pos ns).map (base + ·) := by
  induction ns generalizing pos with
  | nil => rfl
  | cons n ns ih => rw [positions, positions, Nat.add_assoc, ih, List.map_cons]

namespace Table
variable {t : Table} {n : Node}

/-- All places in the near part of a placed table lie as far behind its start as they lie behind
the start of the bytes if it is written on its own. -/
theorem start_under (hn : n ∈ t.placementOrder) (hnear : n.table.AllNear) {m : Node}
    (hm : m ∈ n.table.placementOrder) :
    t.start (n.path ++ m.path) = t.start n.path + n.table.start m.path := by
  have hplaced := near_positions hn
  have hown : n.table.placementOrder.map (fun m => n.table.start m.path) =
      positions 0 n.table.placementOrder := map_startIn n.table.nodup_placementOrder
  rw [Node.nearPart_under hnear, positions_under, List.map_map,
    ← placementOrder_of_allNear hnear, ← Nat.add_zero (t.start n.path), positions_add, ← hown,
    List.map_map] at hplaced
  exact List.map_inj_left.1 hplaced m hm

/-- The tables that a table of a near part links to are in the near part, too. -/
theorem mem_placementOrder_of_child {c m : Node} (hm : m ∈ t.placementOrder)
    (hc : c ∈ m.children) : c ∈ t.placementOrder :=
  t.perm_placementOrder.mem_iff.2
    (mem_nodes_of_child (t.perm_placementOrder.mem_iff.1 hm) hc)

end Table

/-! ## Offsets and bytes -/

/-- An offset field of a table that is owned by a lookup. -/
def OffsetField.ownedBy (owner : Option Nat) (f : OffsetField) : OffsetField :=
  { f with owner := owner }

namespace Table

section
variable {t : Table} {start own : List Nat → Nat} {front path : List Nat} {base k : Nat}

/-- Where all places have moved together, the offset fields of a table hold the same. -/
theorem fields_under (owner o : Option Nat) (hstart : start (front ++ path) = base + own path)
    (hchild : ∀ c ∈ t.childNodes path o k, start (front ++ c.path) = base + own c.path) :
    t.fields start (front ++ path) owner k =
      (t.fields own path o k).map (OffsetField.ownedBy owner) := by
  induction t generalizing k with
  | done => rfl
  | bytes _ rest ih | count _ rest ih | null _ rest ih => exact ih hchild
  | link l child rest _ ih =>
    rw [childNodes, List.forall_mem_cons] at hchild
    have hgoal : start (front ++ path ++ [k]) = base + own (path ++ [k]) := by
      rw [List.append_assoc]
      exact hchild.1
    rw [fields, fields, List.map_cons, ih hchild.2, hgoal, hstart, Nat.add_sub_add_left]
    rfl

/-- Where all places have moved together, the bytes of a table are the same. -/
theorem cellBytes_under {b b' : Block} (o : Option Nat) (hb : b.start = base + b'.start)
    (hchild : ∀ c ∈ t.childNodes path o k, start (front ++ c.path) = base + own c.path) :
    (t.cells start (front ++ path) k).flatMap b.cellBytes =
      (t.cells own path k).flatMap b'.cellBytes := by
  induction t generalizing k with
  | done => rfl
  | bytes _ rest ih | count _ rest ih | null _ rest ih =>
    rw [cells, cells, List.flatMap_cons, List.flatMap_cons, ih hchild]
    rfl
  | link l child rest _ ih =>
    rw [childNodes, List.forall_mem_cons] at hchild
    have hgoal : start (front ++ path ++ [k]) = base + own (path ++ [k]) := by
      rw [List.append_assoc]
      exact hchild.1
    rw [cells, cells, List.flatMap_cons, List.flatMap_cons, ih hchild.2, Block.cellBytes,
      Block.cellBytes, Block.reach, Block.reach, hgoal, hb, Nat.add_sub_add_left]

end

variable {t : Table} {n : Node}

/-- The offset fields of a near part are those of its table on its own. -/
theorem fields_nearPart (hn : n ∈ t.placementOrder) (hnear : n.table.AllNear) :
    n.nearPart.flatMap (fun m => m.table.fields t.start m.path m.owner 0) =
      n.table.offsetFields.map (OffsetField.ownedBy n.owner) := by
  rw [Node.nearPart_under hnear, List.flatMap_map, offsetFields, List.map_flatMap,
    ← placementOrder_of_allNear hnear]
  refine List.flatMap_congr fun m hm => fields_under _ _ (start_under hn hnear hm) fun c hc => ?_
  exact start_under hn hnear (mem_placementOrder_of_child hm hc)

/-- The bytes of a near part are those of its table on its own. -/
theorem bytes_nearPart (hn : n ∈ t.placementOrder) (hnear : n.table.AllNear) :
    (n.nearPart.map (Node.block t.start)).flatMap Block.bytes =
      n.table.blocks.flatMap Block.bytes := by
  rw [Node.nearPart_under hnear, blocks_eq, placementOrder_of_allNear hnear, List.map_map,
    List.flatMap_map, List.flatMap_map, ← placementOrder_of_allNear hnear]
  refine List.flatMap_congr fun m hm => ?_
  have hb : ((Node.under n.path n.owner m).block t.start).start =
      t.start n.path + (m.block n.table.start).start := start_under hn hnear hm
  refine cellBytes_under m.owner hb fun c hc => ?_
  exact start_under hn hnear (mem_placementOrder_of_child hm hc)

/-! ## Encoding -/

/-- What a placed table is encoded to on its own stands in the bytes of the tree where the table
starts. -/
theorem prefix_drop_start (hn : n ∈ t.placementOrder) (hnear : n.table.AllNear) {out : ByteArray}
    (h : t.encode = .ok out) : ∃ block, n.table.encode = .ok block ∧
      block.data.toList <+: out.data.toList.drop (t.start n.path) := by
  obtain ⟨rfl, hfits⟩ := encode_eq_ok_iff.1 h
  obtain ⟨before, after, horder⟩ := nearPart_of_placed hn
  have hown : ∀ f ∈ n.table.offsetFields, f.value ≤ f.width.limit := fun f hf => by
    have hmem : f.ownedBy n.owner ∈ n.nearPart.flatMap
        fun m => m.table.fields t.start m.path m.owner 0 := by
      rw [fields_nearPart hn hnear]
      exact List.mem_map_of_mem hf
    refine hfits (f.ownedBy n.owner) ?_
    rw [offsetFields, ← horder, List.flatMap_append, List.flatMap_append]
    exact List.mem_append_left _ (List.mem_append_right _ hmem)
  refine ⟨_, encode_eq_ok_iff.2 ⟨rfl, hown⟩, ?_⟩
  -- the bytes before the near part are those of the tables placed before it
  have hlength : ((before.map (Node.block t.start)).flatMap Block.bytes).length =
      t.start n.path := by
    have hsplit : t.placementOrder =
        before ++ n :: (n.table.nearBelow n.path n.owner 0 ++ after) := by
      rw [← horder, Node.nearPart, List.append_assoc, List.cons_append]
    have hstart : t.start n.path = span before :=
      startIn_of_split t.nodup_placementOrder hsplit
    rw [hstart, List.flatMap_map, List.length_flatMap, span]
    exact congrArg List.sum (List.map_congr_left fun m _ =>
      m.table.length_cells t.start m.path 0 (m.block t.start))
  refine ⟨(after.map (Node.block t.start)).flatMap Block.bytes, ?_⟩
  rw [data_bytesOfBlocks, data_bytesOfBlocks, t.blocks_eq, ← bytes_nearPart hn hnear, ← horder,
    List.map_append, List.map_append, List.flatMap_append, List.flatMap_append,
    List.append_assoc, ← hlength, List.drop_left]

/-! ## Deferred tables -/

/-- The offset fields of the root and of all that is near to it. -/
def nearFields (t : Table) : List OffsetField :=
  t.root.nearPart.flatMap fun n => n.table.fields t.start n.path n.owner 0

/-- The offset fields of the tables that the root and all that is near to it defer, as they are
if each of these is written on its own. -/
def deferredFields (t : Table) : List OffsetField :=
  (t.deferred none).flatMap fun d => d.2.offsetFields.map (OffsetField.ownedBy d.1)

/-- If the deferred tables defer nothing, the offset fields of a tree are those of the root's near
part, then those of the deferred tables on their own. -/
theorem offsetFields_eq {t : Table} (h : ∀ d ∈ t.deferred none, d.2.AllNear) :
    t.offsetFields = t.nearFields ++ t.deferredFields := by
  have hentries : t.deferred none = t.root.deferred.map Node.entry := t.root.deferred_entry
  have hnear : ∀ d ∈ t.root.deferred, d.table.AllNear := fun d hd =>
    h d.entry (hentries ▸ List.mem_map_of_mem hd)
  have hdrain : drain [t.root] = t.root :: t.root.deferred := by
    rw [drain_cons, List.nil_append, drain_eq_self hnear]
  have hplaced : ∀ d ∈ t.root.deferred, d ∈ t.placementOrder := fun d hd => by
    rw [placementOrder, hdrain]
    exact List.mem_flatMap.2 ⟨d, List.mem_cons_of_mem _ hd, List.mem_cons_self⟩
  rw [offsetFields, placementOrder, hdrain, List.flatMap_cons, List.flatMap_append,
    deferredFields, hentries, List.flatMap_map, List.flatMap_assoc]
  exact congrArg (t.nearFields ++ ·) <|
    List.flatMap_congr fun d hd => fields_nearPart (hplaced d hd) (hnear d hd)

/-- The deferred tables of a tree that can be encoded can be encoded on their own. -/
theorem encode_deferred {t : Table} (h : ∀ d ∈ t.deferred none, d.2.AllNear) {out : ByteArray}
    (hencode : t.encode = .ok out) {d : Option Nat × Table} (hd : d ∈ t.deferred none) :
    ∃ block, d.2.encode = .ok block := by
  have hfits := (encode_eq_ok_iff.1 hencode).2
  refine ⟨_, encode_eq_ok_iff.2 ⟨rfl, fun f hf => hfits (f.ownedBy d.1) ?_⟩⟩
  rw [offsetFields_eq h]
  exact List.mem_append_right _ (List.mem_flatMap.2 ⟨d, hd, List.mem_map_of_mem hf⟩)

end Table
end FontLayout
