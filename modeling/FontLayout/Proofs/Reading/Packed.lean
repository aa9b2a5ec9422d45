import FontLayout.Proofs.Packing.Sizes
import FontLayout.Proofs.Reading.Positionings
/-!
# Packed subtables are read back

A subtable that packing makes is regular: its rows of anchors are as long as there are mark
classes, its matrix of class pairs is rectangular, and its class definitions leave class 0 out. So
whatever its kind, a reader that starts at its first byte gets its contents back, provided that
its offsets and its counts fit. Offsets that do not fit are reported when it is encoded; a count
that does not fit would be written as another number.

Results:
* `Subtable.yields_table`: every regular subtable is read back.
* `regular_of_packed`, `kind_of_packed`: packing makes regular subtables, of the kind it packs.
* `readSubtable_packLookup`: both together, for the bytes of a packed subtable.
-/
namespace FontLayout

/-! ## Regular subtables -/

/-- The kinds of lookup that a shape of subtable is for. -/
def Subtable.kinds : Subtable → List Kind
  | .singleSub _ => [.singleSub]
  | .multipleSub _ => [.multipleSub]
  | .alternateSub _ => [.alternateSub]
  | .ligatureSub _ => [.ligatureSub]
  | .chain _ => [.chainSub, .chainPos]
  | .reverseChainSub _ => [.reverseChainSub]
  | .singlePos _ => [.singlePos]
  | .glyphPairs _ | .classPairs _ => [.pairPos]
  | .cursive _ => [.cursivePos]
  | .markToBase _ => [.markToBase]
  | .markToMark _ => [.markToMark]
  | .markToLigature _ => [.markToLigature]

/-- Whether the contents of a subtable can be told from what is written. -/
def Subtable.Regular : Subtable → Prop
  | .classPairs c => c.Regular
  | .markToBase c | .markToMark c => ∀ row ∈ c.bases.values, row.length = c.classCount.toNat
  | .markToLigature c =>
    ∀ rows ∈ c.bases.values, ∀ row ∈ rows, row.length = c.classCount.toNat
  | _ => True

/-- Every regular subtable is read back. -/
theorem Subtable.yields_table {s : Subtable} (h : s.Regular) {kind : Kind}
    (hkind : kind ∈ s.kinds) : Yields (Reader.subtable kind) s.table s.reading := by
  cases s with
  | singleSub mapping =>
    obtain rfl := List.mem_singleton.1 hkind
    exact yields_singleSubTable mapping
  | multipleSub mapping | alternateSub mapping =>
    obtain rfl := List.mem_singleton.1 hkind
    exact yields_sequencesTable _ mapping
  | ligatureSub sets =>
    obtain rfl := List.mem_singleton.1 hkind
    exact yields_ligatureSubTable sets
  | chain c =>
    rcases List.mem_pair.1 hkind with rfl | rfl
    · exact c.yields_table
    · exact c.yields_table
  | reverseChainSub c =>
    obtain rfl := List.mem_singleton.1 hkind
    exact c.yields_table
  | singlePos values =>
    obtain rfl := List.mem_singleton.1 hkind
    exact yields_singlePosTable values
  | glyphPairs rows =>
    obtain rfl := List.mem_singleton.1 hkind
    exact yields_glyphPairsTable rows
  | classPairs c =>
    obtain rfl := List.mem_singleton.1 hkind
    exact ClassPairs.yields_table h
  | cursive anchors =>
    obtain rfl := List.mem_singleton.1 hkind
    exact yields_cursiveTable anchors
  | markToBase c | markToMark c =>
    obtain rfl := List.mem_singleton.1 hkind
    exact MarkAttachment.yields_table _ _ (yields_anchorMatrixTable h) _
  | markToLigature c =>
    obtain rfl := List.mem_singleton.1 hkind
    have hligatures := Reads.countedLinks .ligatureAttach
      fun rows hrows => yields_anchorMatrixTable (h rows hrows)
    rw [List.map_id'] at hligatures
    exact MarkAttachment.yields_table _ _ hligatures.yields _

/-! ## What packing makes -/

namespace Packing

theorem regular_classPairsOf (ps : List ClassPair) : (classPairsOf ps).Regular := by
  have hrow : ∀ row ∈ (classPairsOf ps).records,
      row.length = (sidePartition (ps.map ClassPair.second)).size + 1 := by
    intro row hrow
    obtain ⟨k, -, rfl⟩ := List.mem_map.1 hrow
    rw [List.length_map, List.length_range]
  refine ⟨fun row hm => ?_, ClassDef.leavesOutZero_ofMap _, ClassDef.leavesOutZero_ofMap _⟩
  rw [ClassPairs.columnCount]
  cases hrecords : (classPairsOf ps).records with
  | nil =>
    rw [hrecords] at hm
    cases hm
  | cons first rest =>
    have hfirst : first ∈ (classPairsOf ps).records := by
      rw [hrecords]
      exact List.mem_cons_self
    rw [List.headD_cons, hrow row hm, hrow first hfirst]

theorem length_anchorRow (marks : MarkSet) (row : AnchorsById) :
    (anchorRow marks row).length = marks.classCount.toNat := by
  rw [anchorRow, List.length_map, List.length_range]

theorem length_of_mem_baseItems {marks : MarkSet} {rules : List Rule}
    {item : (Glyph × AnchorRow) × Bool} (h : item ∈ baseItems marks rules) :
    item.1.2.length = marks.classCount.toNat := by
  obtain ⟨i, -, rfl⟩ := List.mem_map.1 h
  exact (List.length_map _).trans (length_anchorRow marks i.1.2)

theorem length_of_mem_ligatureItems {marks : MarkSet} {rules : List Rule}
    {item : (Glyph × List AnchorRow) × Bool} (h : item ∈ ligatureItems marks rules)
    {row : AnchorRow} (hrow : row ∈ item.1.2) : row.length = marks.classCount.toNat := by
  obtain ⟨i, -, rfl⟩ := List.mem_map.1 h
  obtain ⟨known, -, rfl⟩ := List.mem_map.1 hrow
  exact length_anchorRow marks known

/-- What is kept for a glyph was given for it. -/
theorem exists_of_mem_values {α : Type} {xs : List (Glyph × α)} {a : α}
    (h : a ∈ (ByGlyph.ofFirst xs).values) : ∃ x ∈ xs, x.2 = a := by
  obtain ⟨e, he, rfl⟩ := List.mem_map.1 h
  exact ⟨e, (ByGlyph.subperm_entries_ofFirst xs).subset he, rfl⟩

/-- The items of a run are among those that were packed. -/
theorem mem_items_of_mem_run {p : Plan} {budget : Budget} {run : List p.Item}
    (hrun : run ∈ p.runs budget) {i : p.Item} (hi : i ∈ run) : ∃ item ∈ p.items, item.1 = i := by
  obtain ⟨r, hr, rfl⟩ := List.mem_map.1 hrun
  have hmem : i ∈ p.items.map Prod.fst := by
    rw [← p.packer.items_cut budget]
    exact List.mem_flatMap.2 ⟨r, hr, hi⟩
  exact List.mem_map.1 hmem

variable {kind : Kind} {rules : List Rule} {marks : Option MarkSet} {places : LookupPlaces}
  {budget : Budget} {s : Subtable}

/-- Packing makes subtables of the kind that it packs. -/
theorem kind_of_packed (h : s ∈ (packLookup kind rules marks places budget).subtables) :
    kind ∈ s.kinds := by
  rw [subtables_packLookup] at h
  obtain ⟨run, -, rfl⟩ := List.mem_map.1 h
  cases kind with
  | pairPos =>
    match run with
    | [] => exact List.mem_singleton_self _
    | .glyphs .. :: _ => exact List.mem_singleton_self _
    | .classes .. :: _ => exact List.mem_singleton_self _
  | chainSub => exact List.mem_cons_self
  | chainPos => exact List.mem_cons_of_mem _ (List.mem_singleton_self _)
  | _ => exact List.mem_singleton_self _

/-- Packing makes regular subtables. -/
theorem regular_of_packed (h : s ∈ (packLookup kind rules marks places budget).subtables) :
    s.Regular := by
  rw [subtables_packLookup] at h
  obtain ⟨run, hrun, rfl⟩ := List.mem_map.1 h
  cases kind with
  | pairPos =>
    match run with
    | [] => trivial
    | .glyphs .. :: _ => trivial
    | .classes .. :: _ => exact regular_classPairsOf _
  | markToBase | markToMark =>
    intro row hrow
    obtain ⟨i, hi, rfl⟩ := exists_of_mem_values hrow
    obtain ⟨item, hitem, rfl⟩ := mem_items_of_mem_run hrun hi
    exact length_of_mem_baseItems hitem
  | markToLigature =>
    intro rows hrows row hrow
    obtain ⟨i, hi, rfl⟩ := exists_of_mem_values hrows
    obtain ⟨item, hitem, rfl⟩ := mem_items_of_mem_run hrun hi
    exact length_of_mem_ligatureItems hitem hrow
  | _ => trivial

/-- **Decoding undoes encoding.** Take a subtable that packing makes, in which a word can hold
every count, and whose encoding succeeds. A reader that starts at the first byte, and knows no more
than the kind of the lookup, gets the contents back. Every offset to a table is in its field in
full and is not null, so an anchor that is present is never taken for a missing one. -/
theorem readSubtable_packLookup (hs : s ∈ (packLookup kind rules marks places budget).subtables)
    (hfit : s.table.CountsFit) {bytes : ByteArray} (h : s.table.encode = .ok bytes) :
    readSubtable kind bytes = some s.reading ∧
      ∀ f ∈ s.table.offsetFields, 0 < f.value ∧ f.value ≤ f.width.limit := by
  have hyields := Subtable.yields_table (regular_of_packed hs) (kind_of_packed hs)
  refine ⟨hyields.read_eq (Table.stands_of_encode h hfit), fun f hf => ⟨?_, ?_⟩⟩
  · exact Table.value_pos_of_placed hf
  · exact (Table.encode_eq_ok_iff.1 h).2 f hf

/-- The anchors of two glyphs, one with an entry and one with an exit at a point of its outline. -/
def entryAndExit : List (Glyph × Option Anchor × Option Anchor) :=
  [(5, some ⟨10, -20, none⟩, none), (7, none, some ⟨300, 0, some 4⟩)]

/-- A rule for each of the two glyphs. -/
def entryAndExitRules : List Rule :=
  entryAndExit.map fun e => ⟨.cursivePos e.1 e.2.1 e.2.2, none, false⟩

/-- The anchors of the two glyphs are read back, the missing ones as missing. -/
theorem readSubtable_entryAndExit :
    ∃ s ∈ (packLookup .cursivePos entryAndExitRules none ∅ none).subtables,
      ∃ bytes, s.table.encode = .ok bytes ∧
        readSubtable .cursivePos bytes = some (.cursive entryAndExit) := by
  have hs : Subtable.cursive (.ofFirst entryAndExit) ∈
      (packLookup .cursivePos entryAndExitRules none ∅ none).subtables := List.mem_singleton_self _
  have hfit : (Subtable.cursive (.ofFirst entryAndExit)).table.CountsFit := by decide
  obtain ⟨bytes, hbytes⟩ := Table.exists_encode (Subtable.allNear_table _)
    (show (Subtable.cursive (.ofFirst entryAndExit)).table.total ≤ 0xFFFF by decide)
  exact ⟨_, hs, bytes, hbytes, (readSubtable_packLookup hs hfit hbytes).1⟩

end Packing
end FontLayout
