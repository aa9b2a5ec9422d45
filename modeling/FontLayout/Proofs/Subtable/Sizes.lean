import FontLayout.Packing.Attachment
import FontLayout.Proofs.Placement.Near
import FontLayout.Subtable.Encoding
import Mathlib.Algebra.BigOperators.Ring.List
/-!
# The bytes of a subtable

What each shape of subtable takes in total, in terms of its contents: how many glyphs it covers
and what these bring. Where the font format offers two forms, the bound is that of the larger one.
A subtable never defers a table, so all of it is written in one piece.

Results:
* `Subtable.allNear_table`: all links of a subtable are near.
* `total_singleSubTable_le` and the like: the size of each shape of subtable.
-/
namespace FontLayout

/-! ## All links are near -/

theorem Coverage.allNear_table (s : GlyphSet) : (table s).AllNear := by
  rw [table]
  split <;> exact Table.allNear_done

theorem ClassDef.allNear_table (d : ClassDef) : d.table.AllNear := by
  simp only [table]
  split
  · exact Table.allNear_done
  · split
    · exact Table.allNear_done
    · split <;> exact Table.allNear_done

theorem Anchor.allNear_table (a : Anchor) : a.table.AllNear := by
  rw [table]
  split <;> exact Table.allNear_done

section
variable {rest : Table}

theorem allNear_coverages (target : Target) (sets : List GlyphSet) (h : rest.AllNear) :
    (coverages target sets rest).AllNear := by
  refine Table.AllNear.countedLinks target ?_ h
  intro c hc
  obtain ⟨s, -, rfl⟩ := List.mem_map.1 hc
  exact Coverage.allNear_table s

theorem allNear_anchorLinks (target : Target) (row : AnchorRow) (h : rest.AllNear) :
    (anchorLinks target row rest).AllNear := by
  induction row with
  | nil => exact h
  | cons a row ih =>
    refine Table.AllNear.link? target ?_ ih
    intro c hc
    obtain ⟨anchor, -, rfl⟩ := Option.map_eq_some_iff.1 hc
    exact anchor.allNear_table

end

theorem allNear_anchorMatrixTable (rows : List AnchorRow) : (anchorMatrixTable rows).AllNear :=
  allNear_anchorLinks .anchor rows.flatten Table.allNear_done

theorem allNear_markArrayTable (marks : MarkRecords) : (markArrayTable marks).AllNear := by
  suffices ∀ ms : List (UInt16 × Anchor), (ms.foldr (fun m rest =>
      .word m.1 <| .link (.near .anchor) m.2.table rest) Table.done).AllNear from this _
  intro ms
  induction ms with
  | nil => exact Table.allNear_done
  | cons m ms ih => exact .near .anchor m.2.allNear_table ih

theorem MarkAttachment.allNear_table {α : Type} (cover array : Target)
    {below : ByGlyph α → Table} (h : ∀ bases, (below bases).AllNear) (m : MarkAttachment α) :
    (m.table cover array below).AllNear :=
  .near _ (Coverage.allNear_table _) <| .near _ (Coverage.allNear_table _) <|
    .near _ (allNear_markArrayTable _) <| .near _ (h _) Table.allNear_done

/-- All links of a subtable are near. -/
theorem Subtable.allNear_table (s : Subtable) : s.table.AllNear := by
  have hcoverage (target : Target) (gs : GlyphSet) {rest : Table} (h : rest.AllNear) :
      (Table.link (.near target) (Coverage.table gs) rest).AllNear :=
    .near target (Coverage.allNear_table gs) h
  cases s with
  | singleSub mapping =>
    simp only [table, singleSubTable]
    split <;> exact hcoverage .coverage _ Table.allNear_done
  | multipleSub mapping | alternateSub mapping =>
    refine hcoverage .coverage _ (.countedLinks _ ?_ Table.allNear_done)
    intro c hc
    obtain ⟨gs, -, rfl⟩ := List.mem_map.1 hc
    exact Table.allNear_done
  | ligatureSub sets =>
    refine hcoverage .coverage _ (.countedLinks _ ?_ Table.allNear_done)
    intro c hc
    obtain ⟨ligatures, -, rfl⟩ := List.mem_map.1 hc
    refine .countedLinks _ ?_ Table.allNear_done
    intro c hc
    obtain ⟨l, -, rfl⟩ := List.mem_map.1 hc
    exact Table.allNear_done
  | reverseChainSub content =>
    exact hcoverage .coverage _ <| allNear_coverages _ _ <| allNear_coverages _ _ <|
      Table.allNear_done
  | chain content =>
    exact allNear_coverages _ _ <| allNear_coverages _ _ <| allNear_coverages _ _ <|
      Table.allNear_done
  | singlePos values =>
    simp only [table, singlePosTable]
    split <;> exact hcoverage .coverage _ Table.allNear_done
  | glyphPairs rows =>
    refine hcoverage .coverage _ (Table.AllNear.countedLinks .pairSet ?_ Table.allNear_done)
    intro c hc
    obtain ⟨row, -, rfl⟩ := List.mem_map.1 hc
    exact Table.allNear_done
  | classPairs content =>
    exact hcoverage .coverage _ <| .near _ (ClassDef.allNear_table _) <|
      .near _ (ClassDef.allNear_table _) Table.allNear_done
  | cursive anchors =>
    exact hcoverage .coverage _ (allNear_anchorLinks _ _ Table.allNear_done)
  | markToBase content | markToMark content =>
    exact content.allNear_table _ _ fun _ => allNear_anchorMatrixTable _
  | markToLigature content =>
    refine content.allNear_table _ _ fun bases => .countedLinks _ ?_ Table.allNear_done
    intro c hc
    obtain ⟨rows, -, rfl⟩ := List.mem_map.1 hc
    exact allNear_anchorMatrixTable rows

/-! ## Substitutions -/

open Packing

theorem ByGlyph.size_keys {α : Type} (m : ByGlyph α) : m.keys.size = m.size := by
  rw [GlyphSet.size, keys, List.length_map, size]

theorem ByGlyph.length_values {α : Type} (m : ByGlyph α) : m.values.length = m.size := by
  rw [values, List.length_map, size]

theorem total_coverage_keys_le {α : Type} (m : ByGlyph α) :
    (Coverage.table m.keys).total ≤ Coverage.sizeBound m.size := by
  rw [← m.size_keys]
  exact Coverage.total_table_le m.keys

theorem total_singleSubTable_le (mapping : ByGlyph Glyph) :
    (singleSubTable mapping).total ≤ singleSize mapping.size := by
  have hcov := total_coverage_keys_le mapping
  simp only [singleSubTable, singleSize]
  split
  · simp only [Table.total_word, Table.total_near, Table.total_done]
    omega
  · simp only [Table.total_word, Table.total_near, Table.total_countedWords, Table.total_done,
      ByGlyph.length_values]
    omega

theorem sum_map_const_add {α : Type} (c : Nat) (f : α → Nat) (xs : List α) :
    (xs.map fun x => c + f x).sum = c * xs.length + (xs.map f).sum := by
  rw [List.sum_map_add, List.map_const', List.sum_replicate_nat, Nat.mul_comm]

theorem total_sequencesTable_le (target : Target) (mapping : ByGlyph (List Glyph)) :
    (sequencesTable target mapping).total ≤
      sequenceSize mapping.size (mapping.values.map List.length).sum := by
  have hcov := total_coverage_keys_le mapping
  have hone : (mapping.values.map fun gs => (Table.countedWords gs .done).total).sum =
      2 * mapping.size + 2 * (mapping.values.map List.length).sum := by
    simp only [Table.total_countedWords, Table.total_done, Nat.add_zero]
    rw [sum_map_const_add, List.sum_map_mul_left, ByGlyph.length_values]
  rw [sequencesTable, sequenceSize, Table.total_word, Table.total_near, Table.total_countedLinks,
    Table.total_done, List.length_map, List.map_map, ByGlyph.length_values]
  simp only [Function.comp_def, hone]
  omega

theorem Ligature.total_table (l : Ligature) : l.table.total = 4 + 2 * l.trailing.length := by
  rw [table, Table.total_word, Table.total_count, Table.total_words, Table.total_done]
  omega

/-- The trailing components of ligatures. -/
def trailingCount (ligatures : List Ligature) : Nat :=
  (ligatures.map fun l => l.trailing.length).sum

theorem Ligature.total_setTable (ligatures : List Ligature) :
    (setTable ligatures).total = 2 + 6 * ligatures.length + 2 * trailingCount ligatures := by
  have hsum : ((longestFirst ligatures).map fun l => l.table.total).sum =
      4 * ligatures.length + 2 * trailingCount ligatures := by
    rw [((longestFirst_perm ligatures).map _).sum_nat]
    simp only [total_table]
    rw [sum_map_const_add, List.sum_map_mul_left, trailingCount]
  have hlength := (longestFirst_perm ligatures).length_eq
  rw [setTable, Table.total_countedLinks, Table.total_done, List.length_map, List.map_map]
  simp only [Function.comp_def, hsum, hlength]
  omega

theorem total_ligatureSubTable_le (sets : ByGlyph (List Ligature)) :
    (ligatureSubTable sets).total ≤
      ligatureSize sets.size sets.values.flatten.length (trailingCount sets.values.flatten) := by
  have hcov := total_coverage_keys_le sets
  have hsum : ((sets.values.map Ligature.setTable).map Table.total).sum =
      2 * sets.size + 6 * sets.values.flatten.length + 2 * trailingCount sets.values.flatten := by
    rw [← ByGlyph.length_values]
    induction sets.values with
    | nil => rfl
    | cons ligatures rest ih =>
      simp only [List.map_cons, List.sum_cons, List.length_cons, List.flatten_cons,
        List.length_append, trailingCount, List.map_append, List.sum_append,
        Ligature.total_setTable] at ih ⊢
      omega
  rw [ligatureSubTable, ligatureSize, Table.total_word, Table.total_near,
    Table.total_countedLinks, Table.total_done, List.length_map, ByGlyph.length_values, hsum]
  omega

/-! ## Values -/

theorem length_valueWords (f : ValueFormat) (v : ValueRecord) :
    (valueWords f v).length = f.fieldCount := by
  rw [valueWords, List.length_map, ValueRecord.length_amounts]

theorem length_valueWordsOnto (f : ValueFormat) (v : ValueRecord) (rest : List UInt16) :
    (valueWordsOnto f v rest).length = f.fieldCount + rest.length := by
  rw [valueWordsOnto_eq, List.length_append, length_valueWords]

theorem length_foldr_valueWordsOnto (f : ValueFormat) (vs : List ValueRecord) :
    (vs.foldr (valueWordsOnto f) []).length = f.fieldCount * vs.length := by
  induction vs with
  | nil => rfl
  | cons v vs ih =>
    rw [List.foldr_cons, length_valueWordsOnto, ih, List.length_cons, Nat.mul_succ, Nat.add_comm]

/-- A single value takes no more than a list: a list that is not empty has it, too. -/
theorem total_singlePosTable_le (values : ByGlyph ValueRecord) :
    (singlePosTable values).total ≤
      8 + values.size * (commonFormat values.values).recordSize +
        Coverage.sizeBound values.size := by
  have hcov := total_coverage_keys_le values
  have hlength := values.length_values
  simp only [singlePosTable, ValueFormat.recordSize]
  split
  · simp only [Table.total_word, Table.total_near, Table.total_words, Table.total_done,
      length_valueWords]
    cases hvalues : values.values with
    | nil =>
      rw [hvalues] at hlength
      have hnone : (commonFormat []).fieldCount = 0 := rfl
      rw [hnone]
      omega
    | cons v vs =>
      rw [hvalues, List.length_cons] at hlength
      have hone : 2 * (commonFormat (v :: vs)).fieldCount ≤
          values.size * (2 * (commonFormat (v :: vs)).fieldCount) :=
        Nat.le_mul_of_pos_left _ (by omega)
      omega
  · simp only [Table.total_word, Table.total_near, Table.total_count, Table.total_words,
      Table.total_done, length_foldr_valueWordsOnto, hlength]
    rw [Nat.mul_comm (commonFormat values.values).fieldCount values.size,
      Nat.mul_left_comm values.size]
    omega

/-! ## Pairs -/

theorem length_pairWordsOnto (formats : ValueFormat × ValueFormat) (v : PairValues)
    (rest : List UInt16) :
    2 * (pairWordsOnto formats v rest).length =
      PairFormats.recordSize formats + 2 * rest.length := by
  rw [pairWordsOnto, length_valueWordsOnto, length_valueWordsOnto, PairFormats.recordSize,
    ValueFormat.recordSize, ValueFormat.recordSize]
  omega

theorem total_pairSetTable (formats : ValueFormat × ValueFormat) (row : ByGlyph PairValues) :
    (pairSetTable formats row).total =
      2 + row.size * (2 + PairFormats.recordSize formats) := by
  have hwords : ∀ es : List (Glyph × PairValues),
      2 * (es.foldr (fun e rest => e.1 :: pairWordsOnto formats e.2 rest) []).length =
        es.length * (2 + PairFormats.recordSize formats) := by
    intro es
    induction es with
    | nil => simp
    | cons e es ih =>
      have hstep := length_pairWordsOnto formats e.2
        (es.foldr (fun e rest => e.1 :: pairWordsOnto formats e.2 rest) [])
      rw [List.foldr_cons, List.length_cons, List.length_cons, Nat.add_mul es.length 1, ← ih]
      omega
  rw [pairSetTable, Table.total_count, Table.total_words, Table.total_done, hwords,
    ByGlyph.size, Nat.add_zero]

/-- The number of pairs in rows. -/
def pairCount (rows : List (ByGlyph PairValues)) : Nat := (rows.map ByGlyph.size).sum

theorem total_glyphPairsTable_le (rows : ByGlyph (ByGlyph PairValues)) :
    (glyphPairsTable rows).total ≤
      10 + 2 * rows.size + Coverage.sizeBound rows.size + 2 * rows.size +
        pairCount rows.values *
          (2 + PairFormats.recordSize (pairFormats (rows.values.flatMap ByGlyph.values))) := by
  have hcov := total_coverage_keys_le rows
  simp only [glyphPairsTable]
  generalize pairFormats (rows.values.flatMap ByGlyph.values) = formats
  have hsum : ((rows.values.map (pairSetTable formats)).map Table.total).sum =
      2 * rows.size + pairCount rows.values * (2 + PairFormats.recordSize formats) := by
    rw [List.map_map]
    simp only [Function.comp_def, total_pairSetTable]
    rw [sum_map_const_add, List.sum_map_mul_right, ByGlyph.length_values, pairCount]
  rw [Table.total_word, Table.total_near, Table.total_word, Table.total_word,
    Table.total_countedLinks, Table.total_done, List.length_map, ByGlyph.length_values, hsum]
  omega

theorem ClassPairs.total_table (c : ClassPairs) :
    c.table.total =
      16 + (Coverage.table c.coverage).total + c.firstClasses.table.total +
        c.secondClasses.table.total +
        c.records.flatten.length * PairFormats.recordSize (pairFormats c.records.flatten) := by
  have hwords : ∀ (formats : ValueFormat × ValueFormat) (vs : List PairValues),
      2 * (vs.foldr (pairWordsOnto formats) []).length =
        vs.length * PairFormats.recordSize formats := by
    intro formats vs
    induction vs with
    | nil => simp
    | cons v vs ih =>
      rw [List.foldr_cons, length_pairWordsOnto, ih, List.length_cons, Nat.succ_mul, Nat.add_comm]
  simp only [table]
  rw [Table.total_word, Table.total_near, Table.total_word, Table.total_word, Table.total_near,
    Table.total_near, Table.total_count, Table.total_count, Table.total_words, Table.total_done,
    hwords]
  omega

/-! ## Anchors -/

theorem Anchor.total_table (a : Anchor) : a.table.total = a.size := by
  rw [table, size]
  cases a.contourPoint <;> exact Table.total_words ..

/-- The bytes of anchors are the sum over those that are present. -/
theorem anchorBytes_eq (anchors : AnchorRow) :
    anchorBytes anchors = (anchors.map fun a => a.elim 0 Anchor.size).sum := by
  rw [anchorBytes, List.sum_eq_foldl, List.foldl_map]

theorem anchorBytes_append (row row' : AnchorRow) :
    anchorBytes (row ++ row') = anchorBytes row + anchorBytes row' := by
  simp only [anchorBytes_eq, List.map_append, List.sum_append]

theorem total_anchorLinks (target : Target) (row : AnchorRow) (rest : Table) :
    (anchorLinks target row rest).total = rowBytes row + rest.total := by
  rw [rowBytes, anchorBytes_eq]
  induction row with
  | nil => simp [anchorLinks]
  | cons a row ih =>
    have hanchor : (a.map Anchor.table).elim 0 Table.total = a.elim 0 Anchor.size := by
      cases a with
      | none => rfl
      | some a => exact a.total_table
    rw [anchorLinks, List.foldr_cons, ← anchorLinks, Table.total_link?, ih, hanchor,
      List.length_cons, List.map_cons, List.sum_cons]
    omega

/-- The bytes of rows of anchors. -/
def rowsBytes (rows : List AnchorRow) : Nat := (rows.map rowBytes).sum

theorem rowBytes_flatten (rows : List AnchorRow) : rowBytes rows.flatten = rowsBytes rows := by
  induction rows with
  | nil => rfl
  | cons row rows ih =>
    rw [rowsBytes, List.map_cons, List.sum_cons, ← rowsBytes, ← ih, List.flatten_cons, rowBytes,
      rowBytes, rowBytes, List.length_append, anchorBytes_append]
    omega

theorem attachBytes_eq (rows : List AnchorRow) : attachBytes rows = 4 + rowsBytes rows := by
  rw [attachBytes, rowsBytes, List.sum_eq_foldl, List.foldl_map]

theorem total_anchorMatrixTable (rows : List AnchorRow) :
    (anchorMatrixTable rows).total = 2 + rowsBytes rows := by
  rw [anchorMatrixTable, Table.total_count, total_anchorLinks, Table.total_done,
    rowBytes_flatten, Nat.add_zero]

theorem total_cursiveTable_le (anchors : ByGlyph (Option Anchor × Option Anchor)) :
    (cursiveTable anchors).total ≤
      6 + 4 * anchors.size + Coverage.sizeBound anchors.size +
        (anchors.values.map fun a => anchorBytes [a.1, a.2]).sum := by
  have hcov := total_coverage_keys_le anchors
  have hrow : rowBytes (anchors.values.flatMap fun a => [a.1, a.2]) =
      4 * anchors.size + (anchors.values.map fun a => anchorBytes [a.1, a.2]).sum := by
    rw [List.flatMap_def, rowBytes_flatten, rowsBytes, List.map_map, ← ByGlyph.length_values,
      ← sum_map_const_add]
    rfl
  rw [cursiveTable, Table.total_word, Table.total_near, Table.total_count, total_anchorLinks,
    Table.total_done, hrow]
  omega

/-! ## Marks -/

theorem total_markArrayTable (marks : MarkRecords) :
    (markArrayTable marks).total =
      2 + 4 * marks.size + (marks.values.map fun m => m.2.size).sum := by
  have hrecords : ∀ ms : List (UInt16 × Anchor),
      (ms.foldr (fun m rest => .word m.1 <| .link (.near .anchor) m.2.table rest)
        Table.done).total = 4 * ms.length + (ms.map fun m => m.2.size).sum := by
    intro ms
    induction ms with
    | nil => rfl
    | cons m ms ih =>
      rw [List.foldr_cons, Table.total_word, Table.total_near, ih, Anchor.total_table,
        List.length_cons, List.map_cons, List.sum_cons]
      omega
  rw [markArrayTable, Table.total_count, hrecords, ByGlyph.length_values]
  omega

theorem total_markArrayTable_add_coverage_le (marks : MarkSet) :
    (Coverage.table marks.marks.keys).total + (markArrayTable marks.marks).total ≤
      markBytes marks := by
  have hcov := total_coverage_keys_le marks.marks
  have hsum : marks.marks.values.foldl (fun n m => n + m.2.size) 0 =
      (marks.marks.values.map fun m => m.2.size).sum := by
    rw [List.sum_eq_foldl, List.foldl_map]
  simp only [markBytes]
  rw [total_markArrayTable, hsum]
  omega

theorem MarkAttachment.total_table_le {α : Type} (cover array : Target)
    (below : ByGlyph α → Table) (marks : MarkSet) (bases : ByGlyph α) :
    (MarkAttachment.table cover array below ⟨marks.marks, marks.classCount, bases⟩).total ≤
      12 + markBytes marks + Coverage.sizeBound bases.size + (below bases).total := by
  have hmarks := total_markArrayTable_add_coverage_le marks
  have hcov := total_coverage_keys_le bases
  simp only [table, Table.total_word, Table.total_near, Table.total_done]
  omega

theorem total_baseArrayTable (bases : ByGlyph AnchorRow) :
    (baseArrayTable bases).total = 2 + (bases.values.map rowBytes).sum :=
  total_anchorMatrixTable _

theorem total_ligatureArrayTable (ligatures : ByGlyph (List AnchorRow)) :
    (ligatureArrayTable ligatures).total = 2 + (ligatures.values.map attachBytes).sum := by
  have hsum : ((ligatures.values.map anchorMatrixTable).map Table.total).sum =
      2 * ligatures.size + (ligatures.values.map rowsBytes).sum := by
    rw [List.map_map]
    simp only [Function.comp_def, total_anchorMatrixTable]
    rw [sum_map_const_add, ByGlyph.length_values]
  have hattach : (ligatures.values.map attachBytes).sum =
      4 * ligatures.size + (ligatures.values.map rowsBytes).sum := by
    have hrows : attachBytes = fun rows => 4 + rowsBytes rows := funext attachBytes_eq
    rw [hrows, sum_map_const_add, ByGlyph.length_values]
  rw [ligatureArrayTable, Table.total_countedLinks, Table.total_done, List.length_map, hsum,
    hattach, ByGlyph.length_values]
  omega

end FontLayout
