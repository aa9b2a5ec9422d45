import FontLayout.Proofs.Packing.PairEstimates
import FontLayout.Proofs.Reading.Substitutions
/-!
# Positionings are read back

A record is written in a format that has all its amounts, so nothing is lost: what the format has
beyond the record is written as zero, which is what a reader takes for a missing amount. Anchors
that are missing are null offsets, and the others are found where their offsets lead.

Results:
* `Reads.amounts`: a value record in any format that holds it.
* `yields_singlePosTable`, `yields_glyphPairsTable`, `ClassPairs.yields_table`: values.
* `yields_cursiveTable`, `MarkAttachment.yields_table`: anchors.
-/
namespace FontLayout

open Reader

/-! ## Value records -/

section
variable {f : ValueFormat} {v : ValueRecord}

/-- Every record of a list is held by their common format. -/
theorem ValueFormat.commonFormat_holds {vs : List ValueRecord} (hv : v ∈ vs) :
    (commonFormat vs).Holds v.format := by
  have hkeep : ∀ (vs : List ValueRecord) (f : ValueFormat), f.Holds v.format →
      (vs.foldl (fun (f : ValueFormat) v => f.union v.format) f).Holds v.format := by
    intro vs
    induction vs with
    | nil => exact fun _ hf => hf
    | cons w vs ih => exact fun f hf => ih _ (hf.union_left w.format)
  suffices ∀ f, (vs.foldl (fun (f : ValueFormat) v => f.union v.format) f).Holds v.format from
    this _
  induction vs with
  | nil => cases hv
  | cons w vs ih =>
    intro f
    rcases List.mem_cons.1 hv with rfl | hv
    · exact hkeep vs _ (holds_union_right f v.format)
    · exact ih hv _

/-- Every pair of a list is held by their formats. -/
theorem hold_pairFormats {vs : List PairValues} {v : PairValues} (hv : v ∈ vs) :
    Packing.PairFormats.Hold (pairFormats vs) v := by
  rw [pairFormats_eq]
  exact ⟨ValueFormat.commonFormat_holds (List.mem_map_of_mem hv),
    ValueFormat.commonFormat_holds (List.mem_map_of_mem hv)⟩

theorem Reads.valueFormat (f : ValueFormat) :
    Reads Reader.valueFormat (Table.word f.code) f.code := by
  have hlt : f.code < 16 := by
    obtain ⟨a, b, c, d⟩ := f
    cases a <;> cases b <;> cases c <;> cases d <;> decide
  have hcode : Reads (if f.code < 16 then Pure.pure f.code else fail) id f.code := by
    rw [if_pos hlt]
    exact .pure f.code
  exact .bind (.word f.code) hcode

theorem toInt16_amountWord (x : Int16) : (amountWord x).toInt16 = x := by
  rw [amountWord]
  simp

/-- An amount is written if the format has it; a record without it counts as zero. -/
theorem Reads.amount {format bit : UInt16} {present : Bool} {field : Option Int16}
    (hbit : format &&& bit = 0 ↔ present = false) (hfield : (present || field.isSome) = present) :
    Reads (Reader.amount format bit)
      (Table.words (if present then [amountWord (field.getD 0)] else [])) (field.getD 0) := by
  rw [Reader.amount]
  cases present with
  | false =>
    have hnone : field = none := by simpa using hfield
    rw [if_pos (hbit.2 rfl), hnone]
    exact .nil (.pure 0)
  | true =>
    have hset : ¬ format &&& bit = 0 := fun h => Bool.noConfusion (hbit.1 h)
    have h := (Reads.single (amountWord (field.getD 0))).map UInt16.toInt16
    rw [toInt16_amountWord] at h
    rw [if_neg hset]
    exact h

/-- A value record is read back in any format that has all its amounts. -/
theorem Reads.amounts (h : f.Holds v.format) :
    Reads (Reader.amounts f.code) (Table.words (valueWords f v)) v.allAmounts := by
  have hbits : (f.code &&& 1 = 0 ↔ f.xPlacement = false) ∧
      (f.code &&& 2 = 0 ↔ f.yPlacement = false) ∧ (f.code &&& 4 = 0 ↔ f.xAdvance = false) ∧
      (f.code &&& 8 = 0 ↔ f.yAdvance = false) := by
    obtain ⟨a, b, c, d⟩ := f
    cases a <;> cases b <;> cases c <;> cases d <;> decide
  obtain ⟨h₁, h₂, h₄, h₈⟩ := hbits
  have hwords : valueWords f v =
      (if f.xPlacement then [amountWord (v.xPlacement.getD 0)] else []) ++
        ((if f.yPlacement then [amountWord (v.yPlacement.getD 0)] else []) ++
          ((if f.xAdvance then [amountWord (v.xAdvance.getD 0)] else []) ++
            (if f.yAdvance then [amountWord (v.yAdvance.getD 0)] else []))) := by
    obtain ⟨a, b, c, d⟩ := f
    cases a <;> cases b <;> cases c <;> cases d <;> rfl
  rw [hwords]
  exact .append (.amount h₁ (congrArg ValueFormat.xPlacement h))
    (.append (.amount h₂ (congrArg ValueFormat.yPlacement h))
      (.append (.amount h₄ (congrArg ValueFormat.xAdvance h))
        (.map _ (.amount h₈ (congrArg ValueFormat.yAdvance h)))))

theorem foldr_valueWordsOnto (f : ValueFormat) (vs : List ValueRecord) :
    vs.foldr (valueWordsOnto f) [] = vs.flatMap (valueWords f) := by
  induction vs with
  | nil => rfl
  | cons v vs ih => rw [List.foldr_cons, valueWordsOnto_eq, ih, List.flatMap_cons]

theorem yields_singlePosTable (values : ByGlyph ValueRecord) :
    Yields singlePos (singlePosTable values) (Subtable.singlePos values).reading := by
  have hholds : ∀ v ∈ values.values, (commonFormat values.values).Holds v.format :=
    fun v hv => ValueFormat.commonFormat_holds hv
  simp only [singlePosTable]
  split
  · next hall =>
    generalize hvalue : values.values.headD .empty = value at hall
    have hvalue : (commonFormat values.values).Holds value.format := by
      rw [← hvalue]
      cases hvs : values.values with
      | nil => exact ValueFormat.holds_none _
      | cons v vs => exact ValueFormat.commonFormat_holds List.mem_cons_self
    have hsame : values.keys.members.zipIdx.map (fun x => (x.1, value.allAmounts)) =
        values.entries.map fun e => (e.1, e.2.allAmounts) := by
      rw [map_zipIdx fun g => (g, value.allAmounts), ByGlyph.keys, List.map_map]
      refine List.map_congr_left fun e he => ?_
      have heq := List.all_eq_true.1 hall e.2 (List.mem_map_of_mem he)
      rw [Function.comp_apply, eq_of_beq heq]
    have h : Yields singlePos _ _ := .bind (.word 1) (.bind (.coverage .coverage values.keys)
      (.bind (.valueFormat _) (.bind (.amounts hvalue) (.pure _ .done))))
    rwa [hsame] at h
  · have hread := Reads.flatMap fun v hv => Reads.amounts (hholds v hv)
    rw [← foldr_valueWordsOnto, values.length_values] at hread
    exact .bind (.word 2) (.bind (.coverage .coverage values.keys) (.bind (.valueFormat _)
      (.counted hread (.step (.assign values ValueRecord.allAmounts) (.pure _ _)))))

end

/-! ## Pairs -/

section
variable {formats : ValueFormat × ValueFormat} {v : PairValues}

/-- The words of the values of a pair. -/
def pairWords (formats : ValueFormat × ValueFormat) (v : PairValues) : List UInt16 :=
  valueWords formats.1 v.1 ++ valueWords formats.2 v.2

theorem pairWordsOnto_eq (formats : ValueFormat × ValueFormat) (v : PairValues)
    (rest : List UInt16) : pairWordsOnto formats v rest = pairWords formats v ++ rest := by
  rw [pairWordsOnto, valueWordsOnto_eq, valueWordsOnto_eq, pairWords, List.append_assoc]

theorem Reads.pairAmounts (h : Packing.PairFormats.Hold formats v) :
    Reads (Reader.pairAmounts formats.1.code formats.2.code) (Table.words (pairWords formats v))
      (PairValues.effect v) :=
  .append (.amounts h.1) (.map _ (.amounts h.2))

theorem yields_pairSetTable {row : ByGlyph PairValues}
    (h : ∀ v ∈ row.values, Packing.PairFormats.Hold formats v) :
    Yields (counted (pairRecord formats.1.code formats.2.code)) (pairSetTable formats row)
      (row.entries.map fun p => (p.1, PairValues.effect p.2)) := by
  have hone : ∀ p ∈ row.entries, Reads (pairRecord formats.1.code formats.2.code)
      (Table.words (p.1 :: pairWords formats p.2)) (p.1, PairValues.effect p.2) :=
    fun p hp => .cons (.map _ (.pairAmounts (h p.2 (List.mem_map_of_mem hp))))
  have hwords : row.entries.foldr (fun e rest => e.1 :: pairWordsOnto formats e.2 rest) [] =
      row.entries.flatMap fun p => p.1 :: pairWords formats p.2 := by
    induction row.entries with
    | nil => rfl
    | cons p ps ih =>
      rw [List.foldr_cons, pairWordsOnto_eq, ih, List.flatMap_cons, List.cons_append]
  rw [pairSetTable, hwords]
  exact (Reads.flatMap hone).counted.yields

theorem yields_glyphPairsTable (rows : ByGlyph (ByGlyph PairValues)) :
    Yields pairPos (glyphPairsTable rows) (Subtable.glyphPairs rows).reading := by
  rw [glyphPairsTable]
  have hholds : ∀ row ∈ rows.values, ∀ v ∈ row.values,
      Packing.PairFormats.Hold (pairFormats (rows.values.flatMap ByGlyph.values)) v :=
    fun row hrow v hv => hold_pairFormats (List.mem_flatMap.2 ⟨row, hrow, hv⟩)
  have hrows := Reads.countedLinks .pairSet fun row hrow => yields_pairSetTable (hholds row hrow)
  exact .bind (.word 1) (.bind (.coverage .coverage rows.keys) (.bind (.valueFormat _)
    (.bind (.valueFormat _) (.bind hrows (.step (.assign rows _) (.pure _ _))))))

/-- A matrix is read row by row, if all its rows are equally long. -/
theorem reads_matrix {rows : List (List PairValues)} {columns : Nat}
    (hlength : ∀ row ∈ rows, row.length = columns)
    (h : ∀ v ∈ rows.flatten, Packing.PairFormats.Hold formats v) :
    Reads (times rows.length (times columns
        (Reader.pairAmounts formats.1.code formats.2.code)))
      (Table.words (rows.flatten.foldr (pairWordsOnto formats) []))
      (rows.map fun row => row.map PairValues.effect) := by
  have hrow : ∀ row ∈ rows, Reads (times columns
      (Reader.pairAmounts formats.1.code formats.2.code))
      (Table.words (row.flatMap (pairWords formats))) (row.map PairValues.effect) := by
    intro row hrow
    rw [← hlength row hrow]
    exact .flatMap fun v hv => .pairAmounts (h v (List.mem_flatten.2 ⟨row, hrow, hv⟩))
  have hwords : ∀ vs : List PairValues,
      vs.foldr (pairWordsOnto formats) [] = vs.flatMap (pairWords formats) := by
    intro vs
    induction vs with
    | nil => rfl
    | cons v vs ih => rw [List.foldr_cons, pairWordsOnto_eq, ih, List.flatMap_cons]
  rw [hwords, List.flatMap_def, List.map_flatten, List.flatten_flatten, List.map_map,
    ← List.flatMap_def]
  exact .flatMap hrow

/-- Whether the classes of class pairs can be told from what is written: the rows of the matrix
are equally long, and the definitions do not mention class 0. -/
structure ClassPairs.Regular (c : ClassPairs) : Prop where
  width : ∀ row ∈ c.records, row.length = c.columnCount
  firsts : c.firstClasses.LeavesOutZero
  seconds : c.secondClasses.LeavesOutZero

theorem ClassPairs.yields_table {c : ClassPairs} (h : c.Regular) :
    Yields pairPos c.table (Subtable.classPairs c).reading := by
  have hmatrix := reads_matrix h.width fun v hv => hold_pairFormats hv
  exact .bind (.word 2) (.bind (.near .coverage (yields_glyphs c.coverage))
    (.bind (.valueFormat _) (.bind (.valueFormat _)
      (.bind (.near .firstClasses (ClassDef.yields_table h.firsts))
        (.bind (.near .secondClasses (ClassDef.yields_table h.seconds))
          (.bind (.count _) (.bind (.count _) (.bind hmatrix (.pure _ _)))))))))

end

/-! ## Anchors -/

theorem Anchor.yields_table (a : Anchor) : Yields anchor a.table a := by
  obtain ⟨x, y, point⟩ := a
  cases point with
  | none =>
    have h : Reads anchor (Table.words [1, amountWord x, amountWord y]) _ :=
      .cons (.cons (.cons (.nil (.pure _))))
    simp only [toInt16_amountWord] at h
    exact h.yields
  | some point =>
    have h : Reads anchor (Table.words [2, amountWord x, amountWord y, point]) _ :=
      .cons (.cons (.cons (.cons (.nil (.pure _)))))
    simp only [toInt16_amountWord] at h
    exact h.yields

theorem reads_anchor (target : Target) (a : Option Anchor) :
    Reads (link? anchor) (Table.link? (.near target) (a.map Anchor.table)) a := by
  have h := Reads.link? target Anchor.yields_table a
  rwa [Option.map_id'] at h

theorem reads_anchorLinks (target : Target) (row : AnchorRow) :
    Reads (times row.length (link? anchor)) (anchorLinks target row) row := by
  have h := Reads.times fun a (_ : a ∈ row) => reads_anchor target a
  rwa [List.map_id'] at h

theorem yields_cursiveTable (anchors : ByGlyph (Option Anchor × Option Anchor)) :
    Yields cursive (cursiveTable anchors) (.cursive anchors.entries) := by
  have hpair (a : Option Anchor × Option Anchor) : Reads anchorPair
      (fun rest => .link? (.near .cursiveAnchor) (a.1.map Anchor.table) <|
        .link? (.near .cursiveAnchor) (a.2.map Anchor.table) rest) a :=
    .bind (reads_anchor .cursiveAnchor a.1) (.map (a.1, ·) (reads_anchor .cursiveAnchor a.2))
  have hread := Reads.times fun a (_ : a ∈ anchors.values) => hpair a
  rw [List.map_id', anchors.length_values] at hread
  have hflat : anchorLinks .cursiveAnchor (anchors.values.flatMap fun a => [a.1, a.2]) .done =
      anchors.values.foldr (fun a rest => .link? (.near .cursiveAnchor) (a.1.map Anchor.table) <|
        .link? (.near .cursiveAnchor) (a.2.map Anchor.table) rest) .done := List.foldr_flatMap
  have hall := Yields.bind hread.counted
    (f := fun xs => assign anchors.keys.members.zipIdx xs >>= fun m => pure (Reading.cursive m))
    (.step (.assign_values anchors) (.pure (Reading.cursive anchors.entries) .done))
  rw [cursiveTable, hflat]
  exact .bind (.word 1) (.bind (.coverage .coverage anchors.keys) hall)

/-- A matrix of anchors is read row by row, if all its rows are equally long. -/
theorem yields_anchorMatrixTable {rows : List AnchorRow} {classCount : UInt16}
    (h : ∀ row ∈ rows, row.length = classCount.toNat) :
    Yields (anchorRows classCount) (anchorMatrixTable rows) rows := by
  have hrow : ∀ row ∈ rows, Reads (times classCount.toNat (Reader.link? anchor))
      (anchorLinks .anchor row) row := by
    intro row hrow
    rw [← h row hrow]
    exact reads_anchorLinks .anchor row
  have hread := (Reads.times hrow).counted
  rw [List.map_id'] at hread
  have hflat : anchorLinks .anchor rows.flatten .done =
      rows.foldr (fun row rest => anchorLinks .anchor row rest) .done := List.foldr_flatten
  rw [anchorMatrixTable, hflat]
  exact hread.yields

theorem yields_markArrayTable (marks : MarkRecords) :
    Yields (counted markRecord) (markArrayTable marks) marks.values := by
  have hone (m : UInt16 × Anchor) : Reads markRecord
      (fun rest => .word m.1 <| .link (.near .anchor) m.2.table rest) m :=
    .bind (.word m.1) (.map _ (.near .anchor m.2.yields_table))
  have hread := (Reads.times fun m (_ : m ∈ marks.values) => hone m).counted
  rw [List.map_id', marks.length_values] at hread
  exact hread.yields

theorem MarkAttachment.yields_table {α : Type} (cover array : Target) {below : ByGlyph α → Table}
    {read : UInt16 → Reader (List α)} {m : MarkAttachment α}
    (h : Yields (read m.classCount) (below m.bases) m.bases.values)
    (result : List (Glyph × UInt16 × Anchor) → UInt16 → List (Glyph × α) → Reading) :
    Yields (attachment read result) (m.table cover array below)
      (result m.marks.entries m.classCount m.bases.entries) :=
  .bind (.word 1) (.bind (.coverage .markCoverage m.marks.keys)
    (.bind (.coverage cover m.bases.keys)
      (.bind (.word m.classCount) (.bind (.near .markArray (yields_markArrayTable m.marks))
        (.bind (.near array h) (.step (.assign_values m.marks)
          (.step (.assign_values m.bases) (.pure _ _))))))))

end FontLayout
