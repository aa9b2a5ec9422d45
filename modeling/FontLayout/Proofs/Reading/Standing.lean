import FontLayout.Proofs.Placement.Alone
/-!
# Tables that stand in a file

`Stands` says of bytes that they hold a tree of tables, the way a reader comes across it: the
fields one after another, and behind every offset, counted from the start of its table, the
linked table. It looks at the bytes alone and does not mention where a table was placed. A count
field holds its count in full, so a tree with a count beyond a word stands nowhere. A tree may
also be told in outline, with the bytes of some of its tables in place of what they hold; then
only the counts that are told have to fit.

Results:
* `Table.stands_outline`: what is written for a tree holds each outline of it whose counts fit.
* `Table.stands_of_encode`: what is written for a tree holds it, if its counts fit.
* `Table.value_pos_of_placed`: no offset to a table is null.
-/
namespace FontLayout

/-- Whether the fields of a table come next in `bytes`, where `file` are all bytes from the start
of the table on, and every offset leads to the table behind its link. -/
def Stands (file : List UInt8) : List UInt8 → Table → Prop
  | _, .done => True
  | bytes, .bytes bs rest => ∃ more, bytes = bs.data.toList ++ more ∧ Stands file more rest
  | bytes, .count n rest =>
    ∃ w more, bytes = wordBytes w ++ more ∧ w.toNat = n ∧ Stands file more rest
  | bytes, .null width rest =>
    ∃ more, bytes = List.replicate width.size 0 ++ more ∧ Stands file more rest
  | bytes, .link l child rest =>
    ∃ field more, bytes = field ++ more ∧ field.length = l.width.size ∧ 0 < bigEndian field ∧
      Stands (file.drop (bigEndian field)) (file.drop (bigEndian field)) child ∧
      Stands file more rest

/-- Whether a word can hold each of the counts in a table and in the tables below it. -/
def Table.CountsFit : Table → Prop
  | .done => True
  | .bytes _ rest | .null _ rest => CountsFit rest
  | .count n rest => n ≤ 0xFFFF ∧ CountsFit rest
  | .link _ child rest => CountsFit child ∧ CountsFit rest

instance Table.decidableCountsFit : (t : Table) → Decidable t.CountsFit
  | .done => .isTrue trivial
  | .bytes _ rest | .null _ rest => decidableCountsFit rest
  | .count n rest => @instDecidableAnd (n ≤ 0xFFFF) _ _ (decidableCountsFit rest)
  | .link _ child rest =>
    @instDecidableAnd _ _ (decidableCountsFit child) (decidableCountsFit rest)

theorem countWord_of_le {n : Nat} (h : n ≤ 0xFFFF) : (countWord n).toNat = n := by
  rw [countWord, UInt16.toNat_ofNat']
  omega

/-! ## Offsets are not null -/

namespace Table

theorem width_pos (w : Width) : 0 < w.size := by
  cases w <;> decide

/-- A table with a link is not empty. -/
theorem size_pos_of_mem_childNodes {t : Table} {path : List Nat} {owner : Option Nat} {k : Nat}
    {c : Node} (h : c ∈ t.childNodes path owner k) : 0 < t.size := by
  induction t generalizing k with
  | done => cases h
  | bytes _ rest ih =>
    have := ih h
    rw [size_bytes]
    omega
  | count _ rest ih =>
    rw [size_count]
    omega
  | null w rest ih =>
    have := width_pos w
    rw [size_null]
    omega
  | link l child rest _ _ =>
    have := width_pos l.width
    rw [size_link]
    omega

/-- A table starts behind the start of a table that links to it. -/
theorem start_lt_child {t : Table} {n c : Node} (hn : n ∈ t.placementOrder)
    (hc : c ∈ n.children) : t.start n.path < t.start c.path := by
  have hend := t.start_child hn hc
  have hsize := size_pos_of_mem_childNodes hc
  omega

/-- No offset to a table is null. -/
theorem value_pos_of_placed {t : Table} {f : OffsetField} (hf : f ∈ t.offsetFields) :
    0 < f.value := by
  obtain ⟨n, hn, hf⟩ := List.mem_flatMap.1 hf
  obtain ⟨c, hc, he⟩ := value_of_mem_fields hf
  have := start_lt_child hn hc
  omega

end Table

/-- The root of a tree is written first. -/
theorem Table.start_root (t : Table) : t.start [] = 0 := by
  have hfirst : t.placementOrder = [] ++ t.root :: (t.placementOrder.tail) := by
    rw [placementOrder, drain_cons, List.flatMap_cons, Node.nearPart]
    rfl
  exact startIn_of_split t.nodup_placementOrder hfirst

/-! ## What is written stands -/

/-- Whether the bytes at the start of a node are its fields. -/
def Placed (start : List Nat → Nat) (out : List UInt8) (n : Node) : Prop :=
  ∃ block more, out.drop (start n.path) = block ++ more ∧ Holds start n.path 0 n.table block

/-- Among blocks without gaps, each is found at its start. -/
theorem placed_of_tiles {start : List Nat → Nat} {pos : Nat} {ns : List Node} {out : List UInt8}
    (h : Tiles start pos ns out) {n : Node} (hn : n ∈ ns) :
    pos ≤ start n.path ∧ ∃ block more, out.drop (start n.path - pos) = block ++ more ∧
      Holds start n.path 0 n.table block := by
  induction ns generalizing pos out with
  | nil => cases hn
  | cons m ns ih =>
    obtain ⟨hstart, block, more, rfl, hlength, hblock, hrest⟩ := h
    rcases List.mem_cons.1 hn with rfl | hn
    · refine ⟨Nat.le_of_eq hstart.symm, block, more, ?_, hblock⟩
      rw [hstart, Nat.sub_self, List.drop_zero]
    · obtain ⟨hle, block', more', he, hblock'⟩ := ih hrest hn
      refine ⟨by omega, block', more', ?_, hblock'⟩
      -- the distance goes over the first block, and then on in the rest
      have hsplit : start n.path - pos = block.length + (start n.path - (pos + m.table.size)) := by
        omega
      rw [hsplit, List.drop_length_add_append, he]

/-- Whether a tree is told by an outline: field by field, and below each link either by an outline
again, or by the bytes that the table there is encoded to on its own, if it defers nothing. -/
inductive Table.Outline : Table → Table → Prop
  | done : Outline .done .done
  | bytes (bs : ByteArray) {rest rest' : Table} (h : Outline rest rest') :
      Outline (.bytes bs rest) (.bytes bs rest')
  | count (n : Nat) {rest rest' : Table} (h : Outline rest rest') :
      Outline (.count n rest) (.count n rest')
  | null (w : Width) {rest rest' : Table} (h : Outline rest rest') :
      Outline (.null w rest) (.null w rest')
  | link (l : Link) {child child' rest rest' : Table} (hc : Outline child child')
      (h : Outline rest rest') : Outline (.link l child rest) (.link l child' rest')
  | block (l : Link) {child rest rest' : Table} {block : ByteArray} (hnear : child.AllNear)
      (hblock : child.encode = .ok block) (h : Outline rest rest') :
      Outline (.link l child rest) (.link l (.bytes block .done) rest')

theorem Table.Outline.refl (t : Table) : t.Outline t := by
  induction t with
  | done => exact .done
  | bytes bs _ ih => exact .bytes bs ih
  | count n _ ih => exact .count n ih
  | null w _ ih => exact .null w ih
  | link l _ _ ihc ih => exact .link l ihc ih

/-- Whether the bytes at a node's start are its fields, and those it is encoded to on its own. -/
structure Found (start : List Nat → Nat) (out : List UInt8) (n : Node) : Prop where
  placed : Placed start out n
  alone {block : ByteArray} (hnear : n.table.AllNear) (h : n.table.encode = .ok block) :
    block.data.toList <+: out.drop (start n.path)

/-- The induction is on the fields of a table; its block is at hand, and those of the nodes below
it are found where they start. -/
theorem Table.Outline.stands {t t' : Table} {start : List Nat → Nat} {out : List UInt8}
    {path : List Nat} {owner : Option Nat} {k : Nat} (ho : t.Outline t') (hfit : t'.CountsFit)
    (hfound : ∀ n ∈ t.nodesBelow path owner k, Found start out n)
    (hchild : ∀ c ∈ t.childNodes path owner k, start path < start c.path)
    (hbelow : ∀ n ∈ t.nodesBelow path owner k, ∀ c ∈ n.children, start n.path < start c.path)
    {bytes : List UInt8} (h : Holds start path k t bytes) (more : List UInt8) :
    Stands (out.drop (start path)) (bytes ++ more) t' := by
  induction ho generalizing path owner k bytes more with
  | done => exact trivial
  | bytes bs _ ih =>
    obtain ⟨left, rfl, hrest⟩ := h
    exact ⟨left ++ more, List.append_assoc .., ih hfit hfound hchild hbelow hrest more⟩
  | count n _ ih =>
    obtain ⟨left, rfl, hrest⟩ := h
    exact ⟨countWord n, left ++ more, List.append_assoc .., countWord_of_le hfit.1,
      ih hfit.2 hfound hchild hbelow hrest more⟩
  | null w _ ih =>
    obtain ⟨left, rfl, hrest⟩ := h
    exact ⟨left ++ more, List.append_assoc .., ih hfit hfound hchild hbelow hrest more⟩
  | link l _ _ ihc ih =>
    obtain ⟨field, left, rfl, hlength, hoffset, hrest⟩ := h
    simp only [nodesBelow, List.forall_mem_cons, List.forall_mem_append] at hfound hbelow
    obtain ⟨⟨⟨block, behind, he, hblock⟩, -⟩, hfoundChild, hfoundRest⟩ := hfound
    obtain ⟨hgrand, hbelowChild, hbelowRest⟩ := hbelow
    rw [childNodes, List.forall_mem_cons] at hchild
    have hpos : start path < start (path ++ [k]) := hchild.1
    have hat : (out.drop (start path)).drop (bigEndian field) = block ++ behind := by
      rw [List.drop_drop, hoffset, he]
    refine ⟨field, left ++ more, List.append_assoc .., hlength, by omega, ?_,
      ih hfit.2 hfoundRest hchild.2 hbelowRest hrest more⟩
    have hstands := ihc hfit.1 hfoundChild hgrand hbelowChild hblock behind
    rwa [← he, ← hoffset, ← List.drop_drop] at hstands
  | block l hnear hencode _ ih =>
    obtain ⟨field, left, rfl, hlength, hoffset, hrest⟩ := h
    simp only [nodesBelow, List.forall_mem_cons, List.forall_mem_append] at hfound hbelow
    rw [childNodes, List.forall_mem_cons] at hchild
    have hpos : start path < start (path ++ [k]) := hchild.1
    refine ⟨field, left ++ more, List.append_assoc .., hlength, by omega, ?_,
      ih hfit.2 hfound.2.2 hchild.2 hbelow.2.2 hrest more⟩
    obtain ⟨behind, he⟩ := hfound.1.alone hnear hencode
    exact ⟨behind, by rw [List.drop_drop, hoffset, he], trivial⟩

/-- **What is written for a tree holds each outline of it**, if a word can hold each of the counts
that are told. -/
theorem Table.stands_outline {t t' : Table} {out : ByteArray} (h : t.encode = .ok out)
    (ho : t.Outline t') (hfit : t'.CountsFit) : Stands out.data.toList out.data.toList t' := by
  have hencode := h
  obtain ⟨rfl, hfits⟩ := encode_eq_ok_iff.1 h
  have htiles : Tiles t.start 0 t.placementOrder (bytesOfBlocks t.blocks).data.toList := by
    rw [data_bytesOfBlocks, blocks_eq]
    refine tiles_blocks (map_startIn t.nodup_placementOrder) ?_ ?_
    · exact fun n hn f hf => hfits f (List.mem_flatMap.2 ⟨n, hn, hf⟩)
    · exact fun n hn c hc => Nat.le_of_lt (start_lt_child hn hc)
  have hfound : ∀ n ∈ t.placementOrder, Found t.start (bytesOfBlocks t.blocks).data.toList n := by
    refine fun n hn => ⟨(placed_of_tiles htiles hn).2, fun {block} hnear hblock => ?_⟩
    obtain ⟨alone, halone, hprefix⟩ := prefix_drop_start hn hnear hencode
    obtain rfl : block = alone := Except.ok.inj (hblock.symm.trans halone)
    exact hprefix
  generalize (bytesOfBlocks t.blocks).data.toList = bytes at hfound
  have hnodes : ∀ n, n ∈ t.placementOrder ↔ n ∈ t.root.nodes :=
    fun n => t.perm_placementOrder.mem_iff
  have hroot : t.root ∈ t.placementOrder := (hnodes _).2 List.mem_cons_self
  obtain ⟨block, more, he, hblock⟩ := (hfound t.root hroot).placed
  have hstands := ho.stands hfit
    (fun n hn => hfound n ((hnodes n).2 (List.mem_cons_of_mem _ hn)))
    (fun c hc => start_lt_child hroot hc)
    (fun n hn c hc => start_lt_child ((hnodes n).2 (List.mem_cons_of_mem _ hn)) hc) hblock more
  rwa [← he, show t.start t.root.path = 0 from t.start_root, List.drop_zero] at hstands

/-- **What is written for a tree holds the tree**, if a word can hold each of its counts. -/
theorem Table.stands_of_encode {t : Table} {out : ByteArray} (h : t.encode = .ok out)
    (hfit : t.CountsFit) : Stands out.data.toList out.data.toList t :=
  stands_outline h (.refl t) hfit

end FontLayout
