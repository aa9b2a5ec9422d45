import FontLayout.Proofs.Binary.Sizes
import FontLayout.Proofs.Placement.Encoding
/-!
# Near parts in place

Wherever a node stands in a tree, its near part is written in one piece that starts with the node.
So what the offsets of a near part have to hold does not depend on the tree around it, and a table
without deferred links that is small enough never overflows, on its own or in a tree.

Results:
* `near_positions`: the tables of a near part are placed one behind another.
* `fits_of_total`: below a table without deferred links whose total fits a word, all offsets fit.
* `encode_eq_ok_iff`: a table can be encoded exactly if all its offsets fit.
* `exists_encode`: such a table can be encoded on its own.
* `size_encode`: what is written is as long as the total of the table.
-/
namespace FontLayout

/-! ## Near parts are consecutive -/

namespace Table
variable {t : Table} {path : List Nat} {owner : Option Nat} {k : Nat} {n : Node}

/-- The near part of a node below the near links of a table is a piece of what is below them. -/
theorem nearPart_within (h : n ∈ t.nearBelow path owner k) :
    n.nearPart <:+: t.nearBelow path owner k := by
  induction t generalizing path owner k with
  | done => cases h
  | bytes _ rest ih | count _ rest ih | null _ rest ih => exact ih h
  | link l child rest ihc ih =>
    rw [nearBelow] at h ⊢
    cases hl : l.placement with
    | deferred =>
      rw [hl] at h
      exact ih h
    | near =>
      rw [hl] at h
      rcases List.mem_cons.1 h with rfl | h
      · rw [← List.cons_append]
        exact (List.prefix_append ..).isInfix
      · refine List.IsInfix.trans ?_ (List.suffix_cons ..).isInfix
        rcases List.mem_append.1 h with h | h
        · exact (ihc h).trans (List.prefix_append ..).isInfix
        · exact (ih h).trans (List.suffix_append ..).isInfix

/-- The near part of a node of a tree is a piece of the order of placement. -/
theorem nearPart_of_placed (h : n ∈ t.placementOrder) :
    n.nearPart <:+: t.placementOrder := by
  obtain ⟨head, hhead, h⟩ := List.mem_flatMap.1 h
  have hpiece : n.nearPart <:+: head.nearPart := by
    rcases List.mem_cons.1 h with rfl | h
    · exact List.infix_refl _
    · exact (nearPart_within h).trans (List.suffix_cons ..).isInfix
  rw [placementOrder, List.flatMap_def]
  exact hpiece.trans (List.infix_of_mem_flatten (List.mem_map_of_mem hhead))

/-- The tables of a near part are placed one behind another. -/
theorem near_positions (h : n ∈ t.placementOrder) :
    n.nearPart.map (fun m => t.start m.path) = positions (t.start n.path) n.nearPart := by
  obtain ⟨before, after, he⟩ := nearPart_of_placed h
  have hall : t.placementOrder.map (fun m => t.start m.path) = positions 0 t.placementOrder :=
    map_startIn t.nodup_placementOrder
  have hsplit : t.placementOrder =
      before ++ n :: (n.table.nearBelow n.path n.owner 0 ++ after) := by
    rw [← he, Node.nearPart, List.append_assoc, List.cons_append]
  have hstart : t.start n.path = span before := startIn_of_split t.nodup_placementOrder hsplit
  rw [← he, List.map_append, List.map_append, positions_append, positions_append,
    Nat.zero_add] at hall
  have hfront := (List.append_inj' hall (by rw [List.length_map, length_positions])).1
  have hnear := (List.append_inj hfront (by rw [List.length_map, length_positions])).2
  rw [hnear, hstart]

end Table

/-- What is placed from `pos` on starts there or later, and ends within the span. -/
theorem start_of_positions {start : List Nat → Nat} {pos : Nat} {ns : List Node}
    (h : ns.map (fun m => start m.path) = positions pos ns) {m : Node} (hm : m ∈ ns) :
    pos ≤ start m.path ∧ start m.path + m.table.size ≤ pos + span ns := by
  induction ns generalizing pos with
  | nil => cases hm
  | cons n ns ih =>
    rw [List.map_cons, positions, List.cons.injEq] at h
    rw [span_cons]
    rcases List.mem_cons.1 hm with rfl | hm
    · omega
    · have hrest := ih h.2 hm
      omega

/-! ## Tables without deferred links -/

namespace Table

/-- Whether all links of a table and of the tables below it are near, and none of them leads into
another lookup. -/
def AllNear : Table → Prop
  | .done => True
  | .bytes _ rest | .count _ rest | .null _ rest => AllNear rest
  | .link l child rest =>
    l.placement = .near ∧ l.lookup = none ∧ AllNear child ∧ AllNear rest

variable {t child rest : Table} {path : List Nat} {owner : Option Nat} {k : Nat}

theorem AllNear.nodesBelow_eq (h : t.AllNear) (path : List Nat) (owner : Option Nat) (k : Nat) :
    t.nodesBelow path owner k = t.nearBelow path owner k := by
  induction t generalizing path owner k with
  | done => rfl
  | bytes _ rest ih | count _ rest ih | null _ rest ih => exact ih h path owner k
  | link l child rest ihc ih =>
    obtain ⟨hl, -, hc, hr⟩ := h
    simp only [nodesBelow, nearBelow, hl, ihc hc, ih hr]

theorem AllNear.nodes_eq {n : Node} (h : n.table.AllNear) : n.nodes = n.nearPart := by
  rw [Node.nodes, Node.nearPart, h.nodesBelow_eq]

/-- What is near to a table without deferred links is all that is below it. -/
theorem AllNear.extent_eq (h : t.AllNear) : t.extent = t.total := by
  rw [Table.extent_eq t [] none 0, total_eq_size_add t [] none 0, h.nodesBelow_eq]

/-- The nodes right behind the links of a node are among the nodes below it. -/
theorem mem_nodesBelow_of_mem_childNodes {c : Node} (h : c ∈ t.childNodes path owner k) :
    c ∈ t.nodesBelow path owner k := by
  induction t generalizing k with
  | done => cases h
  | bytes _ rest ih | count _ rest ih | null _ rest ih => exact ih h
  | link l child rest _ ih =>
    rcases List.mem_cons.1 h with rfl | h
    · exact List.mem_cons_self
    · exact List.mem_cons_of_mem _ (List.mem_append_right _ (ih h))

/-- The nodes below a node that is below are below. -/
theorem mem_nodesBelow_trans {n m : Node} (hn : n ∈ t.nodesBelow path owner k)
    (hm : m ∈ n.table.nodesBelow n.path n.owner 0) : m ∈ t.nodesBelow path owner k := by
  induction t generalizing path owner k with
  | done => cases hn
  | bytes _ rest ih | count _ rest ih | null _ rest ih => exact ih hn
  | link l child rest ihc ih =>
    rw [nodesBelow, List.mem_cons, List.mem_append] at hn ⊢
    rcases hn with rfl | hn | hn
    · exact .inr (.inl hm)
    · exact .inr (.inl (ihc hn))
    · exact .inr (.inr (ih hn))

theorem mem_nodes_of_child {n m c : Node} (hm : m ∈ n.nodes) (hc : c ∈ m.children) :
    c ∈ n.nodes := by
  have hbelow : c ∈ m.table.nodesBelow m.path m.owner 0 := mem_nodesBelow_of_mem_childNodes hc
  rcases List.mem_cons.1 hm with rfl | hm
  · exact List.mem_cons_of_mem _ hbelow
  · exact List.mem_cons_of_mem _ (mem_nodesBelow_trans hm hbelow)

/-- An offset field holds the distance to a node right behind its table. -/
theorem value_of_mem_fields {start : List Nat → Nat} {f : OffsetField}
    (h : f ∈ t.fields start path owner k) :
    ∃ c ∈ t.childNodes path owner k, f.value = start c.path - start path := by
  induction t generalizing k with
  | done => cases h
  | bytes _ rest ih | count _ rest ih | null _ rest ih => exact ih h
  | link l child rest _ ih =>
    rcases List.mem_cons.1 h with rfl | h
    · exact ⟨_, List.mem_cons_self, rfl⟩
    · obtain ⟨c, hc, he⟩ := ih h
      exact ⟨c, List.mem_cons_of_mem _ hc, he⟩

end Table

theorem Width.word_le_limit (w : Width) : 0xFFFF ≤ w.limit := by
  cases w <;> decide

namespace Table

/-- Below a table without deferred links whose total fits a word, all offsets fit. -/
theorem fits_of_total {t : Table} {n : Node} (hn : n ∈ t.placementOrder) (hnear : n.table.AllNear)
    (htotal : n.table.total ≤ 0xFFFF) {m : Node} (hm : m ∈ n.nodes) {f : OffsetField}
    (hf : f ∈ m.table.fields t.start m.path m.owner 0) : f.value ≤ f.width.limit := by
  have hspan : n.table.total = span n.nearPart := by
    rw [n.table.total_eq_size_add n.path n.owner 0, hnear.nodesBelow_eq, Node.nearPart, span_cons]
  obtain ⟨c, hc, he⟩ := value_of_mem_fields hf
  have hcn := mem_nodes_of_child hm hc
  rw [hnear.nodes_eq] at hm hcn
  have hpos := near_positions hn
  have hstart := (start_of_positions hpos hm).1
  have hend := (start_of_positions hpos hcn).2
  have hlimit := f.width.word_le_limit
  omega

/-- A table can be encoded exactly if all its offsets fit; what is written are its blocks. -/
theorem encode_eq_ok_iff {t : Table} {out : ByteArray} : t.encode = .ok out ↔
    out = bytesOfBlocks t.blocks ∧ ∀ f ∈ t.offsetFields, f.value ≤ f.width.limit := by
  have hfits : t.overflow? = none ↔ ∀ f ∈ t.offsetFields, f.value ≤ f.width.limit := by
    rw [overflow?_eq, List.findSome?_eq_none_iff]
    exact forall₂_congr fun _ _ => OffsetField.overflow?_eq_none_iff
  rw [← hfits, encode_eq]
  cases t.overflow? with
  | none => simp [eq_comm]
  | some o => simp

theorem encode_eq_error_iff {t : Table} {overflow : Overflow} :
    t.encode = .error overflow ↔ t.overflow? = some overflow := by
  rw [encode_eq]
  cases t.overflow? with
  | none => simp
  | some o => simp

/-- A table without deferred links whose total fits a word can be encoded on its own. -/
theorem exists_encode {t : Table} (hnear : t.AllNear) (htotal : t.total ≤ 0xFFFF) :
    ∃ out, t.encode = .ok out := by
  refine ⟨_, encode_eq_ok_iff.2 ⟨rfl, ?_⟩⟩
  intro f hf
  obtain ⟨m, hm, hf⟩ := List.mem_flatMap.1 hf
  have hroot : t.root ∈ t.placementOrder := t.perm_placementOrder.mem_iff.2 List.mem_cons_self
  have hmem : m ∈ t.root.nodes := t.perm_placementOrder.mem_iff.1 hm
  exact fits_of_total hroot hnear htotal hmem hf

/-- What is written is as long as the total of the table. -/
theorem size_encode {t : Table} {out : ByteArray} (h : t.encode = .ok out) :
    out.size = t.total := by
  have hout : out = bytesOfBlocks t.blocks := (encode_eq_ok_iff.1 h).1
  have hbytes : ∀ n : Node, (n.block t.start).bytes.length = n.table.size := fun n =>
    n.table.length_cells t.start n.path 0 (n.block t.start)
  rw [ByteArray.size, ← Array.length_toList, hout, data_bytesOfBlocks, blocks_eq,
    List.length_flatMap, List.map_map]
  simp only [Function.comp_def, hbytes]
  rw [total_eq]
  exact (t.perm_placementOrder.map fun n => n.table.size).sum_nat

/-! ## Tables made of near links -/

section
variable {rest : Table}

theorem allNear_done : AllNear .done := trivial

theorem AllNear.word (w : UInt16) (h : rest.AllNear) : (Table.word w rest).AllNear := h

theorem AllNear.words (ws : List UInt16) (h : rest.AllNear) : (Table.words ws rest).AllNear := h

theorem AllNear.countedWords (ws : List UInt16) (h : rest.AllNear) :
    (Table.countedWords ws rest).AllNear := h

theorem AllNear.near (target : Target) {child : Table} (hc : child.AllNear) (h : rest.AllNear) :
    (Table.link (.near target) child rest).AllNear := ⟨rfl, rfl, hc, h⟩

theorem AllNear.links (target : Target) {children : List Table} (hc : ∀ c ∈ children, c.AllNear)
    (h : rest.AllNear) : (Table.links (.near target) children rest).AllNear := by
  induction children with
  | nil => exact h
  | cons child children ih =>
    rw [List.forall_mem_cons] at hc
    exact .near target hc.1 (ih hc.2)

theorem AllNear.countedLinks (target : Target) {children : List Table}
    (hc : ∀ c ∈ children, c.AllNear) (h : rest.AllNear) :
    (Table.countedLinks (.near target) children rest).AllNear := AllNear.links target hc h

theorem AllNear.link? (target : Target) {child : Option Table}
    (hc : ∀ c, child = some c → c.AllNear) (h : rest.AllNear) :
    (Table.link? (.near target) child rest).AllNear := by
  cases child with
  | none => exact h
  | some child => exact .near target (hc child rfl) h

end

end Table
end FontLayout
