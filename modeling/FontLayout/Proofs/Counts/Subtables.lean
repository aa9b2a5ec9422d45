import FontLayout.Proofs.Counts.Tables
import FontLayout.Proofs.Packing.ClassPairs
import FontLayout.Proofs.Packing.Estimates
import FontLayout.Proofs.Reading.Positionings
/-!
# Counts of subtables

In a subtable whose distances fit, a count is wrong only if it is beyond a word at one of few
places: in a table that links to nothing, or where what is counted takes up no bytes. These are the
glyphs of a sequence, the components of a ligature, the second glyphs of a pair set, the second
classes and their ranges, and rows of anchors.

Results:
* `Subtable.Countable`: the places where a count may be wrong.
* `Subtable.countsFit_iff`: all other counts fit if the distances do.
-/
namespace FontLayout

/-- Whether a word can hold those counts of a subtable that its distances do not bound. -/
def Subtable.Countable : Subtable → Prop
  | .multipleSub mapping | .alternateSub mapping => ∀ gs ∈ mapping.values, gs.length ≤ 0xFFFF
  | .ligatureSub sets =>
    ∀ ligatures ∈ sets.values, ∀ l ∈ ligatures, l.trailing.length + 1 ≤ 0xFFFF
  | .glyphPairs rows => ∀ row ∈ rows.values, row.size ≤ 0xFFFF
  | .classPairs c => c.columnCount ≤ 0xFFFF ∧ c.secondClasses.ranges.length ≤ 0xFFFF
  | .markToBase c | .markToMark c => c.bases.size ≤ 0xFFFF
  | .markToLigature c => ∀ rows ∈ c.bases.values, rows.length ≤ 0xFFFF
  | .singleSub _ | .reverseChainSub _ | .chain _ | .singlePos _ | .cursive _ => True

/-- What packing guarantees of counts that are not those of a table's own bytes: a rule without
input has no records, and class definitions of too many first classes are too long. -/
def Subtable.Bound : Subtable → Prop
  | .chain c => c.input = [] → c.records = []
  | .classPairs c => c.firstClasses.table.total ≤ 0xFFFF → c.rowCount ≤ 0xFFFF
  | _ => True

open Table

/-! ## Parts that subtables share -/

section
variable {α : Type} {xs : List α} {table : α → Table} {target : Target} {size near : Nat}

theorem countsFit_countedWords (ws : List UInt16) :
    (countedWords ws .done).CountsFit ↔ ws.length ≤ 0xFFFF := and_iff_left trivial

theorem countsFit_covered (target : Target) {s : GlyphSet} {rest : Table} :
    (Table.link (.near target) (Coverage.table s) rest).CountsFit ↔ rest.CountsFit :=
  and_iff_right (Coverage.countsFit_table s)

/-- Links to one table for each of several elements, at the end of a table that has room for
them: whether the counts fit is up to these tables. -/
theorem countsFit_ofLinks
    (h : OffsetsFit size near (countedLinks (.near target) (xs.map table) .done))
    (hroom : 2 * xs.length ≤ near) :
    (∀ a ∈ xs, (table a).Fits) ∧
      ((countedLinks (.near target) (xs.map table) .done).CountsFit ↔
        ∀ a ∈ xs, (table a).CountsFit) := by
  obtain ⟨hcount, hfits, -⟩ := OffsetsFit.countedLinks h (by rwa [List.length_map])
  refine ⟨List.forall_mem_map.1 hfits, ?_⟩
  rw [countsFit_countedLinks, List.forall_mem_map]
  exact ⟨fun h => h.2.1, fun h => ⟨hcount, h, trivial⟩⟩

theorem countsFit_coverages (target : Target) {sets : List GlyphSet} {rest : Table} :
    (coverages target sets rest).CountsFit ↔ sets.length ≤ 0xFFFF ∧ rest.CountsFit := by
  have hall : ∀ c ∈ sets.map Coverage.table, c.CountsFit :=
    List.forall_mem_map.2 fun s _ => Coverage.countsFit_table s
  rw [coverages, countsFit_countedLinks, List.length_map, and_iff_right hall]

theorem length_coverages {sets : List GlyphSet} {rest : Table}
    (h : OffsetsFit size near (coverages target sets rest)) (hroom : 2 * sets.length ≤ near) :
    sets.length ≤ 0xFFFF ∧ (sets ≠ [] → near ≤ 0xFFFF) ∧
      ∃ next, near ≤ next ∧ OffsetsFit size next rest := by
  obtain ⟨hnear, -, hnext⟩ := OffsetsFit.links h
  obtain ⟨hcount, -⟩ := OffsetsFit.countedLinks h (by rwa [List.length_map])
  rw [List.length_map] at hcount
  exact ⟨hcount, fun hne => hnear fun he => hne (List.map_eq_nil_iff.1 he), hnext⟩

theorem length_flatMap_pair {β : Type} (xs : List α) (f g : α → β) :
    (xs.flatMap fun x => [f x, g x]).length = 2 * xs.length := by
  induction xs with
  | nil => rfl
  | cons x xs ih =>
    rw [List.flatMap_cons, List.length_append, ih, List.length_cons, List.length_cons,
      List.length_cons, List.length_nil]
    omega

theorem size_coverages (sets : List GlyphSet) (rest : Table) :
    (coverages target sets rest).size = 2 + 2 * sets.length + rest.size := by
  rw [coverages, size_countedLinks, List.length_map]
  rfl

end

/-! ## Substitutions -/

theorem countsFit_singleSubTable {mapping : ByGlyph Glyph} (h : (singleSubTable mapping).Fits) :
    (singleSubTable mapping).CountsFit := by
  simp only [singleSubTable] at h ⊢
  split
  · exact (countsFit_covered .coverage).2 trivial
  · next hall =>
    rw [if_neg hall] at h
    have hsize : Table.size _ ≤ 0xFFFF := h.1
    simp only [size_word, size_link, size_countedWords, size_done] at hsize
    exact (countsFit_covered .coverage).2 ((countsFit_countedWords _).2 (by omega))

theorem countsFit_sequencesTable {target : Target} {mapping : ByGlyph (List Glyph)}
    (h : (sequencesTable target mapping).Fits) :
    (sequencesTable target mapping).CountsFit ↔ ∀ gs ∈ mapping.values, gs.length ≤ 0xFFFF := by
  have hsize : (sequencesTable target mapping).size = 6 + 2 * mapping.values.length := by
    simp only [sequencesTable, size_word, size_link, size_countedLinks, size_done, List.length_map,
      Link.near, Width.size]
    omega
  obtain ⟨-, hiff⟩ := countsFit_ofLinks h.2.2 (by omega)
  exact (countsFit_covered .coverage).trans
    (hiff.trans (forall₂_congr fun gs _ => countsFit_countedWords gs))

theorem Ligature.countsFit_setTable {ligatures : List Ligature} (h : (setTable ligatures).Fits) :
    (setTable ligatures).CountsFit ↔ ∀ l ∈ ligatures, l.trailing.length + 1 ≤ 0xFFFF := by
  have hsize : (setTable ligatures).size = 2 + 2 * (longestFirst ligatures).length := by
    simp only [setTable, size_countedLinks, size_done, List.length_map, Link.near, Width.size]
    omega
  have hone (l : Ligature) : l.table.CountsFit ↔ l.trailing.length + 1 ≤ 0xFFFF :=
    and_iff_left trivial
  obtain ⟨-, hiff⟩ := countsFit_ofLinks h (by omega)
  refine hiff.trans ?_
  simp only [hone, (longestFirst_perm ligatures).mem_iff]

theorem countsFit_ligatureSubTable {sets : ByGlyph (List Ligature)}
    (h : (ligatureSubTable sets).Fits) :
    (ligatureSubTable sets).CountsFit ↔
      ∀ ligatures ∈ sets.values, ∀ l ∈ ligatures, l.trailing.length + 1 ≤ 0xFFFF := by
  have hsize : (ligatureSubTable sets).size = 6 + 2 * sets.values.length := by
    simp only [ligatureSubTable, size_word, size_link, size_countedLinks, size_done,
      List.length_map, Link.near, Width.size]
    omega
  obtain ⟨hfits, hiff⟩ := countsFit_ofLinks h.2.2 (by omega)
  exact (countsFit_covered .coverage).trans (hiff.trans
    (forall₂_congr fun ls hls => Ligature.countsFit_setTable (hfits ls hls)))

theorem ReverseChainSubtable.countsFit_table {c : ReverseChainSubtable} (h : c.table.Fits) :
    c.table.CountsFit := by
  have hsize : c.table.size ≤ 0xFFFF := h.1
  simp only [table, size_word, size_link, size_coverages, size_countedWords, size_done] at hsize
  exact (countsFit_covered .coverage).2 ((countsFit_coverages .backtrackCoverage).2 ⟨by omega,
    (countsFit_coverages .lookaheadCoverage).2
      ⟨by omega, (countsFit_countedWords _).2 (by omega)⟩⟩)

theorem ChainSubtable.countsFit_table {c : ChainSubtable} (h : c.table.Fits)
    (hbound : c.input = [] → c.records = []) : c.table.CountsFit := by
  have hsize : c.table.size = 10 + 2 * c.backtrack.length + 2 * c.input.length +
      2 * c.lookahead.length + 4 * c.records.length := by
    simp only [table, size_word, size_coverages, size_count, size_words, size_done,
      length_flatMap_pair]
    omega
  obtain ⟨hbacktrack, -, near, hnear, hrest⟩ := length_coverages h (by omega)
  obtain ⟨hinput, hlink, next, hnext, hrest⟩ := length_coverages hrest (by omega)
  obtain ⟨hlookahead, -⟩ := length_coverages hrest (by omega)
  have hrecords : c.records.length ≤ 0xFFFF := by
    by_cases hempty : c.input = []
    · rw [hbound hempty]
      exact Nat.zero_le _
    · have := hlink hempty
      omega
  exact (countsFit_coverages .backtrackCoverage).2 ⟨hbacktrack,
    (countsFit_coverages .inputCoverage).2 ⟨hinput,
      (countsFit_coverages .lookaheadCoverage).2 ⟨hlookahead, hrecords, trivial⟩⟩⟩

theorem ChainSubtable.length_input_le {c : ChainSubtable} (h : c.table.CountsFit) :
    c.input.length ≤ 0xFFFF :=
  ((countsFit_coverages .inputCoverage).1 ((countsFit_coverages .backtrackCoverage).1 h).2).1

/-! ## Values -/

/-- A format without fields holds only records without amounts. -/
theorem eq_empty_of_fieldCount {f : ValueFormat} {v : ValueRecord} (hf : f.fieldCount = 0)
    (h : f.Holds v.format) : v = .empty := by
  obtain ⟨a, b, c, d⟩ := f
  obtain ⟨x, y, z, w⟩ := v
  cases a <;> cases b <;> cases c <;> cases d <;> cases hf
  simp only [ValueFormat.Holds, ValueFormat.union, ValueRecord.format, Bool.false_or,
    ValueFormat.mk.injEq, Option.isSome_eq_false_iff, Option.isNone_iff_eq_none] at h
  obtain ⟨rfl, rfl, rfl, rfl⟩ := h
  rfl

/-- Values that differ take up bytes, so a list of them is no longer than a word can count. -/
theorem countsFit_singlePosTable {values : ByGlyph ValueRecord} (h : (singlePosTable values).Fits) :
    (singlePosTable values).CountsFit := by
  simp only [singlePosTable] at h ⊢
  split
  · exact (countsFit_covered .coverage).2 trivial
  · next hall =>
    rw [if_neg hall] at h
    have hsize : Table.size _ ≤ 0xFFFF := h.1
    simp only [size_word, size_link, size_count, size_words, size_done,
      length_foldr_valueWordsOnto, values.length_values] at hsize
    have hfields : 0 < (commonFormat values.values).fieldCount := by
      refine Nat.pos_of_ne_zero fun hzero => hall ?_
      have hempty : ∀ v ∈ values.values, v = .empty := fun v hv =>
        eq_empty_of_fieldCount hzero (ValueFormat.commonFormat_holds hv)
      cases hvs : values.values with
      | nil => rfl
      | cons v vs =>
        rw [hvs] at hempty
        rw [List.all_eq_true]
        intro w hw
        rw [List.headD_cons, hempty w hw, hempty v List.mem_cons_self]
        exact beq_self_eq_true _
    have hle : values.size ≤ (commonFormat values.values).fieldCount * values.size :=
      Nat.le_mul_of_pos_left _ hfields
    exact (countsFit_covered .coverage).2 ⟨by omega, trivial⟩

theorem countsFit_glyphPairsTable {rows : ByGlyph (ByGlyph PairValues)}
    (h : (glyphPairsTable rows).Fits) :
    (glyphPairsTable rows).CountsFit ↔ ∀ row ∈ rows.values, row.size ≤ 0xFFFF := by
  have hsize : (glyphPairsTable rows).size = 10 + 2 * rows.values.length := by
    simp only [glyphPairsTable, size_word, size_link, size_countedLinks, size_done,
      List.length_map, Link.near, Width.size]
    omega
  obtain ⟨-, hiff⟩ := countsFit_ofLinks h.2.2 (by omega)
  refine (countsFit_covered .coverage).trans (hiff.trans (forall₂_congr fun row _ => ?_))
  exact and_iff_left trivial

/-- The class definition of the first classes stands before that of the second ones, so its
length is bounded, and with it the number of first classes. -/
theorem ClassPairs.countsFit_table {c : ClassPairs} (h : c.table.Fits)
    (hbound : c.firstClasses.table.total ≤ 0xFFFF → c.rowCount ≤ 0xFFFF) :
    c.table.CountsFit ↔ c.columnCount ≤ 0xFFFF ∧ c.secondClasses.ranges.length ≤ 0xFFFF := by
  obtain ⟨-, -, -, -, hsecond, -⟩ := h
  rw [c.firstClasses.allNear_table.extent_eq] at hsecond
  have htotal : c.firstClasses.table.total ≤ 0xFFFF := by
    have hword : _ ≤ 0xFFFF := hsecond
    omega
  have hranges := c.firstClasses.length_ranges_le_total
  have hfirst := c.firstClasses.countsFit_table_iff.2 (by omega)
  have hrows := hbound htotal
  rw [← ClassDef.countsFit_table_iff]
  constructor
  · rintro ⟨-, -, hseconds, -, hcolumns, -⟩
    exact ⟨hcolumns, hseconds⟩
  · rintro ⟨hcolumns, hseconds⟩
    exact ⟨Coverage.countsFit_table _, hfirst, hseconds, hrows, hcolumns, trivial⟩

/-! ## Anchors -/

theorem Anchor.countsFit_table (a : Anchor) : a.table.CountsFit := by
  rw [table]
  split <;> exact trivial

theorem countsFit_anchorLinks (target : Target) (row : AnchorRow) {rest : Table} :
    (anchorLinks target row rest).CountsFit ↔ rest.CountsFit := by
  induction row with
  | nil => exact Iff.rfl
  | cons a row ih =>
    rw [← ih]
    refine countsFit_link?.trans (and_iff_right ?_)
    intro c hc
    obtain ⟨anchor, -, rfl⟩ := Option.map_eq_some_iff.1 hc
    exact anchor.countsFit_table

theorem size_anchorLinks (target : Target) (row : AnchorRow) (rest : Table) :
    (anchorLinks target row rest).size = 2 * row.length + rest.size := by
  induction row with
  | nil => simp [anchorLinks]
  | cons a row ih =>
    have hlink : (anchorLinks target (a :: row) rest).size =
        2 + (anchorLinks target row rest).size := size_link? ..
    rw [hlink, ih, List.length_cons]
    omega

theorem countsFit_cursiveTable {anchors : ByGlyph (Option Anchor × Option Anchor)}
    (h : (cursiveTable anchors).Fits) : (cursiveTable anchors).CountsFit := by
  have hsize : (cursiveTable anchors).size ≤ 0xFFFF := h.1
  simp only [cursiveTable, size_word, size_link, size_count, size_anchorLinks, size_done,
    length_flatMap_pair, anchors.length_values] at hsize
  exact (countsFit_covered .coverage).2 ⟨by omega, (countsFit_anchorLinks _ _).2 trivial⟩

theorem countsFit_anchorMatrixTable (rows : List AnchorRow) :
    (anchorMatrixTable rows).CountsFit ↔ rows.length ≤ 0xFFFF :=
  and_iff_left ((countsFit_anchorLinks _ _).2 trivial)

/-- The links of a mark array. -/
def markLinks (marks : List (UInt16 × Anchor)) : Table :=
  marks.foldr (fun m rest => .word m.1 <| .link (.near .anchor) m.2.table rest) .done

theorem markArrayTable_eq (marks : MarkRecords) :
    markArrayTable marks = .count marks.size (markLinks marks.values) := rfl

theorem size_markLinks (marks : List (UInt16 × Anchor)) :
    (markLinks marks).size = 4 * marks.length := by
  induction marks with
  | nil => rfl
  | cons m marks ih =>
    rw [markLinks, List.foldr_cons, ← markLinks, size_word, size_link, ih, List.length_cons]
    simp only [Link.near, Width.size]
    omega

theorem countsFit_markLinks (marks : List (UInt16 × Anchor)) : (markLinks marks).CountsFit := by
  induction marks with
  | nil => exact trivial
  | cons m marks ih => exact ⟨m.2.countsFit_table, ih⟩

theorem countsFit_markArrayTable {marks : MarkRecords} (h : (markArrayTable marks).Fits) :
    (markArrayTable marks).CountsFit := by
  have hsize : (markArrayTable marks).size = 2 + 4 * marks.size := by
    rw [markArrayTable_eq, size_count, size_markLinks, marks.length_values]
  have hlinks : OffsetsFit (markArrayTable marks).size (markArrayTable marks).size
      (markLinks marks.values) := h
  rw [hsize] at hlinks
  refine ⟨?_, countsFit_markLinks _⟩
  cases hvalues : marks.values with
  | nil =>
    rw [← marks.length_values, hvalues]
    exact Nat.zero_le _
  | cons m ms =>
    rw [hvalues] at hlinks
    have hword : 2 + 4 * marks.size ≤ 0xFFFF := hlinks.1
    omega

section
variable {α : Type} {cover array : Target} {below : ByGlyph α → Table} {m : MarkAttachment α}

/-- Whether the counts of marks and what they attach to fit is up to the latter. -/
theorem MarkAttachment.countsFit_table (h : (m.table cover array below).Fits) :
    (below m.bases).Fits ∧
      ((m.table cover array below).CountsFit ↔ (below m.bases).CountsFit) := by
  obtain ⟨-, -, -, -, -, hmarks, -, hbelow, -⟩ := h
  refine ⟨hbelow, ?_⟩
  constructor
  · rintro ⟨-, -, -, h, -⟩
    exact h
  · intro h
    exact ⟨Coverage.countsFit_table _, Coverage.countsFit_table _,
      countsFit_markArrayTable hmarks, h, trivial⟩

end

theorem countsFit_baseArrayTable (bases : ByGlyph AnchorRow) :
    (baseArrayTable bases).CountsFit ↔ bases.size ≤ 0xFFFF := by
  rw [baseArrayTable, countsFit_anchorMatrixTable, bases.length_values]

theorem countsFit_ligatureArrayTable {ligatures : ByGlyph (List AnchorRow)}
    (h : (ligatureArrayTable ligatures).Fits) :
    (ligatureArrayTable ligatures).CountsFit ↔
      ∀ rows ∈ ligatures.values, rows.length ≤ 0xFFFF := by
  have hsize : (ligatureArrayTable ligatures).size = 2 + 2 * ligatures.values.length := by
    simp only [ligatureArrayTable, size_countedLinks, size_done, List.length_map, Link.near,
      Width.size]
    omega
  obtain ⟨-, hiff⟩ := countsFit_ofLinks h (by omega)
  exact hiff.trans (forall₂_congr fun rows _ => countsFit_anchorMatrixTable rows)

/-! ## All subtables -/

/-- **Counts of a subtable.** If its distances fit, all its counts do, but for those that
`Countable` asks about. -/
theorem Subtable.countsFit_iff {s : Subtable} (h : s.table.Fits) (hbound : s.Bound) :
    s.table.CountsFit ↔ s.Countable := by
  cases s with
  | singleSub mapping => exact iff_of_true (countsFit_singleSubTable h) trivial
  | multipleSub mapping | alternateSub mapping => exact countsFit_sequencesTable h
  | ligatureSub sets => exact countsFit_ligatureSubTable h
  | reverseChainSub c => exact iff_of_true (c.countsFit_table h) trivial
  | chain c => exact iff_of_true (c.countsFit_table h hbound) trivial
  | singlePos values => exact iff_of_true (countsFit_singlePosTable h) trivial
  | glyphPairs rows => exact countsFit_glyphPairsTable h
  | classPairs c => exact c.countsFit_table h hbound
  | cursive anchors => exact iff_of_true (countsFit_cursiveTable h) trivial
  | markToBase c | markToMark c =>
    exact (MarkAttachment.countsFit_table h).2.trans (countsFit_baseArrayTable c.bases)
  | markToLigature c =>
    obtain ⟨hbelow, hiff⟩ := MarkAttachment.countsFit_table h
    exact hiff.trans (countsFit_ligatureArrayTable hbelow)

end FontLayout
