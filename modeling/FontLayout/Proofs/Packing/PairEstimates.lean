import FontLayout.Proofs.Glyph.ClassSizes
import FontLayout.Proofs.Packing.ClassPairs
import FontLayout.Proofs.Packing.Entries
import FontLayout.Proofs.Packing.Estimates
import Mathlib.Data.Nat.Cast.Basic
/-!
# Estimates for pairs

A run of pairs is of one form. For pairs of glyphs the gauge counts the first glyphs and the pairs
that differ. For pairs of classes it keeps both partitions, and the subtable is a matrix over
their classes. In both forms it knows formats that hold all values.

Results:
* `GlyphPairLoad.Describes.add`, `ClassPairLoad.Describes.add`: what the gauge knows of a run.
* `bounding_pairs`: the size that the gauge gives to a pair bounds the subtable with this pair.
-/
namespace FontLayout

namespace Packing

/-! ## Formats of pairs -/

/-- Whether formats hold the values of a pair. -/
def PairFormats.Hold (f : PairFormats) (v : PairValues) : Prop :=
  f.1.Holds v.1.format ∧ f.2.Holds v.2.format

theorem PairFormats.Hold.with {f : PairFormats} {v : PairValues} (h : f.Hold v) (w : PairValues) :
    (f.with w).Hold v := ⟨h.1.union_left _, h.2.union_left _⟩

theorem PairFormats.hold_with (f : PairFormats) (v : PairValues) : (f.with v).Hold v :=
  ⟨ValueFormat.holds_union_right _ _, ValueFormat.holds_union_right _ _⟩

theorem PairFormats.hold_none (f : PairFormats) : f.Hold (.empty, .empty) :=
  ⟨f.1.holds_none, f.2.holds_none⟩

/-- Formats that hold all values take at least the bytes of the formats that are written. -/
theorem PairFormats.recordSize_le {f : PairFormats} {vs : List PairValues}
    (h : ∀ v ∈ vs, f.Hold v) : PairFormats.recordSize (pairFormats vs) ≤ f.recordSize := by
  have hfirst : f.1.Holds (commonFormat (vs.map Prod.fst)) := by
    refine ValueFormat.holds_commonFormat fun v hv => ?_
    obtain ⟨w, hw, rfl⟩ := List.mem_map.1 hv
    exact (h w hw).1
  have hsecond : f.2.Holds (commonFormat (vs.map Prod.snd)) := by
    refine ValueFormat.holds_commonFormat fun v hv => ?_
    obtain ⟨w, hw, rfl⟩ := List.mem_map.1 hv
    exact (h w hw).2
  rw [pairFormats_eq, recordSize, recordSize]
  exact Nat.add_le_add hfirst.recordSize_le hsecond.recordSize_le

/-! ## Pairs of glyphs -/

theorem mem_glyphPairItems {items : List PairItem} {first second : Glyph} {v : PairValues} :
    (first, second, v) ∈ glyphPairItems items ↔ .glyphs first second v ∈ items := by
  rw [glyphPairItems, List.mem_filterMap]
  constructor
  · rintro ⟨i, hi, he⟩
    cases i with
    | glyphs => cases he; exact hi
    | classes => cases he
  · exact fun h => ⟨_, h, rfl⟩

/-- Every value of a row is that of a pair. -/
theorem mem_of_mem_row {items : List PairItem} {g second : Glyph} {row : ByGlyph PairValues}
    {v : PairValues} (hrow : (g, row) ∈ (glyphPairRows items).entries)
    (hv : (second, v) ∈ row.entries) : .glyphs g second v ∈ items := by
  rw [(mem_entries_glyphPairRows.1 hrow).2] at hv
  have hgiven := (ByGlyph.subperm_entries_ofFirst _).subset hv
  exact mem_glyphPairItems.1 (ByGlyph.mem_valuesOf.1 hgiven)

namespace GlyphPairLoad

/-- What a gauge of glyph pairs knows of a run: which glyphs come first, the number of different
pairs, and formats that hold all values. -/
structure Describes (s : GlyphPairLoad) (items : List PairItem) : Prop where
  firsts : ∀ g, g ∈ s.pairs ↔ ∃ second v, .glyphs g second v ∈ items
  pairs : ∃ pairs : List (Glyph × Glyph), pairs.Nodup ∧ pairs.length = s.count ∧
    (∀ g second, (g, second) ∈ pairs ↔ second ∈ s.row g) ∧
    ∀ g second v, .glyphs g second v ∈ items → (g, second) ∈ pairs
  formats : ∀ g second v, .glyphs g second v ∈ items → s.formats.Hold v

theorem describes_empty : Describes empty [] := by
  refine ⟨?_, ⟨[], List.nodup_nil, rfl, ?_, ?_⟩, ?_⟩
  · simp [empty]
  · simp [empty, row]
  · simp
  · simp

variable {s : GlyphPairLoad} {items : List PairItem} {first second : Glyph} {v : PairValues}

theorem mem_row_add (g other : Glyph) :
    other ∈ (s.add first second v).row g ↔
      other ∈ s.row g ∨ (first = g ∧ second = other) := by
  simp only [row, add, Std.TreeMap.getD_insert, Std.LawfulEqCmp.compare_eq_iff_eq]
  by_cases h : first = g
  · subst h
    simp only [if_true, Std.TreeSet.mem_insert, Std.LawfulEqCmp.compare_eq_iff_eq, true_and]
    exact or_comm
  · simp [h]

theorem Describes.add (h : s.Describes items) (first second : Glyph) (v : PairValues) :
    (s.add first second v).Describes (items ++ [.glyphs first second v]) := by
  obtain ⟨pairs, hnodup, hlength, hrow, hitems⟩ := h.pairs
  refine ⟨fun g => ?_, ?_, fun g other w hm => ?_⟩
  · simp only [GlyphPairLoad.add, Std.TreeMap.mem_insert, Std.LawfulEqCmp.compare_eq_iff_eq,
      h.firsts g, List.mem_append, List.mem_singleton, PairItem.glyphs.injEq]
    constructor
    · rintro (rfl | ⟨other, w, hm⟩)
      · exact ⟨second, v, .inr ⟨rfl, rfl, rfl⟩⟩
      · exact ⟨other, w, .inl hm⟩
    · rintro ⟨other, w, hm | ⟨rfl, -, -⟩⟩
      · exact .inr ⟨other, w, hm⟩
      · exact .inl rfl
  · by_cases hnew : second ∈ s.row first
    · refine ⟨pairs, hnodup, ?_, fun g other => ?_, fun g other w hm => ?_⟩
      · have hold : newcomers (s.row first) second = 0 := by simp [newcomers, hnew]
        rw [GlyphPairLoad.add, hold, hlength, Nat.add_zero]
      · rw [mem_row_add, hrow]
        refine ⟨.inl, ?_⟩
        rintro (hm | ⟨rfl, rfl⟩)
        · exact hm
        · exact hnew
      · rw [List.mem_append, List.mem_singleton, PairItem.glyphs.injEq] at hm
        rcases hm with hm | ⟨rfl, rfl, -⟩
        · exact hitems g other w hm
        · exact (hrow ..).2 hnew
    · refine ⟨(first, second) :: pairs, ?_, ?_, fun g other => ?_, fun g other w hm => ?_⟩
      · exact List.nodup_cons.2 ⟨fun hm => hnew ((hrow ..).1 hm), hnodup⟩
      · have hone : newcomers (s.row first) second = 1 := by simp [newcomers, hnew]
        rw [GlyphPairLoad.add, hone, List.length_cons, hlength]
      · rw [mem_row_add, List.mem_cons, hrow, Prod.mk.injEq, or_comm, eq_comm, @eq_comm _ second]
      · rw [List.mem_append, List.mem_singleton, PairItem.glyphs.injEq] at hm
        rcases hm with hm | ⟨rfl, rfl, -⟩
        · exact List.mem_cons_of_mem _ (hitems g other w hm)
        · exact List.mem_cons_self
  · rw [List.mem_append, List.mem_singleton, PairItem.glyphs.injEq] at hm
    rcases hm with hm | ⟨-, -, rfl⟩
    · exact (h.formats g other w hm).with v
    · exact s.formats.hold_with w

/-- As many rows are written as there are first glyphs. -/
theorem Describes.size_rows (h : s.Describes items) :
    (glyphPairRows items).size = s.pairs.size := by
  have hrows : (glyphPairRows items).size = (ByGlyph.group (glyphPairItems items)).size :=
    List.length_map _
  rw [hrows, ← Std.TreeMap.length_keys]
  refine ByGlyph.size_eq_length ?_ fun g => ?_
  · refine Std.TreeMap.distinct_keys.imp ?_
    rintro g _ hne rfl
    exact hne Std.ReflCmp.compare_self
  · rw [Std.TreeMap.mem_keys, h.firsts, ByGlyph.mem_keys_group, List.mem_map]
    constructor
    · rintro ⟨other, w, hm⟩
      exact ⟨(g, other, w), mem_glyphPairItems.2 hm, rfl⟩
    · rintro ⟨⟨g, other, w⟩, hm, rfl⟩
      exact ⟨other, w, mem_glyphPairItems.1 hm⟩

/-- No more pairs are written than are counted. -/
theorem Describes.pairCount_le (h : s.Describes items) :
    pairCount (glyphPairRows items).values ≤ s.count := by
  obtain ⟨pairs, -, hlength, -, hitems⟩ := h.pairs
  have hcount : pairCount (glyphPairRows items).values =
      ((pairOutputs (glyphPairRows items)).map Entry.key).length := by
    rw [List.length_map, pairOutputs, List.length_flatMap, pairCount, ByGlyph.values,
      List.map_map]
    simp only [List.length_map]
    rfl
  have hsub : (pairOutputs (glyphPairRows items)).map Entry.key ⊆
      pairs.map fun p => [p.1, p.2] := by
    intro key hkey
    obtain ⟨e, he, rfl⟩ := List.mem_map.1 hkey
    obtain ⟨⟨g, row⟩, hrow, he⟩ := List.mem_flatMap.1 he
    obtain ⟨⟨second, v⟩, hv, rfl⟩ := List.mem_map.1 he
    exact List.mem_map.2 ⟨(g, second), hitems g second v (mem_of_mem_row hrow hv), rfl⟩
  have hle := (Subtable.nodup_keys (.glyphPairs (glyphPairRows items))).length_le_of_subset hsub
  rw [List.length_map, List.length_map, hlength] at hle
  rwa [hcount, List.length_map]

theorem Describes.total_le (h : s.Describes items) :
    (glyphPairsTable (glyphPairRows items)).total ≤
      10 + 2 * s.pairs.size + Coverage.sizeBound s.pairs.size + 2 * s.pairs.size +
        s.count * (2 + s.formats.recordSize) := by
  have hle := total_glyphPairsTable_le (glyphPairRows items)
  have hformats : PairFormats.recordSize
      (pairFormats ((glyphPairRows items).values.flatMap ByGlyph.values)) ≤
        s.formats.recordSize := by
    refine PairFormats.recordSize_le fun v hv => ?_
    obtain ⟨row, hrow, hv⟩ := List.mem_flatMap.1 hv
    obtain ⟨⟨g, row⟩, hentry, rfl⟩ := List.mem_map.1 hrow
    obtain ⟨⟨second, v⟩, hvalue, rfl⟩ := List.mem_map.1 hv
    exact h.formats g second v (mem_of_mem_row hentry hvalue)
  have hrecords := Nat.mul_le_mul h.pairCount_le (Nat.add_le_add_left hformats 2)
  rw [h.size_rows] at hle
  exact Nat.le_trans hle (Nat.add_le_add_left hrecords _)

end GlyphPairLoad

/-! ## Pairs of classes -/

namespace ClassPairLoad

/-- What a gauge of class pairs knows of a run, beside the partitions: how many glyphs the first
classes have, and formats that hold all values. -/
structure Describes (s : ClassPairLoad) (ps : List ClassPair) : Prop where
  gauged : Gauged ps s
  firstGlyphs : s.firstGlyphs = s.firsts.count
  formats : ∀ p ∈ ps, s.formats.Hold p.values

variable {s : ClassPairLoad} {ps : List ClassPair}

theorem describes_empty : Describes empty [] := ⟨⟨rfl, rfl⟩, rfl, fun _ h => nomatch h⟩

theorem Describes.add (h : s.Describes ps) (p : ClassPair) (hp : s.firsts.accepts p.first = true) :
    (s.add p.first p.second p.values).Describes (ps ++ [p]) := by
  refine ⟨h.gauged.add p, ?_, fun q hq => ?_⟩
  · simp only [ClassPairLoad.add, firstGlyphsWith, Partition.count_add hp, h.firstGlyphs]
  · rcases List.mem_append.1 hq with hq | hq
    · exact (h.formats q hq).with _
    · rw [List.mem_singleton.1 hq]
      exact PairFormats.hold_with _ _

/-- A record of the matrix is that of a pair, or empty. -/
theorem hold_of_mem_records {f : PairFormats} (h : ∀ p ∈ ps, f.Hold p.values) :
    ∀ v ∈ (classPairsOf ps).records.flatten, f.Hold v := by
  intro v hv
  simp only [classPairsOf, List.mem_flatten, List.mem_map] at hv
  obtain ⟨_, ⟨row, -, rfl⟩, hv⟩ := hv
  obtain ⟨column, -, rfl⟩ := List.mem_map.1 hv
  rw [Std.TreeMap.getD_eq_getD_getElem?, getElem?_classPairCells]
  cases hfind : ps.reverse.find? _ with
  | none => exact f.hold_none
  | some p => exact h p (List.mem_reverse.1 (List.mem_of_find?_eq_some hfind))

theorem length_records (ps : List ClassPair) :
    (classPairsOf ps).records.flatten.length =
      (sidePartition (ps.map ClassPair.first)).size *
        ((sidePartition (ps.map ClassPair.second)).size + 1) := by
  simp [classPairsOf, Function.comp_def, List.length_flatten]

theorem measured_sidePartition (classes : List GlyphSet) : (sidePartition classes).Measured :=
  sidePartition_induction Partition.measured_empty (fun _ s h => h.add s) classes

theorem Describes.total_le (h : s.Describes ps) :
    (classPairsOf ps).table.total ≤
      16 + Coverage.sizeBound s.firstGlyphs + s.firsts.sizeBound + s.seconds.sizeBound +
        s.firsts.size * (s.seconds.size + 1) * s.formats.recordSize := by
  have hfirsts := measured_sidePartition (ps.map ClassPair.first)
  have hseconds := measured_sidePartition (ps.map ClassPair.second)
  have hrecords := length_records ps
  rw [← h.gauged.firsts] at hfirsts hrecords
  rw [← h.gauged.seconds] at hseconds hrecords
  have hcov : (Coverage.table (classPairsOf ps).coverage).total ≤
      Coverage.sizeBound s.firstGlyphs := by
    have hsize : (classPairsOf ps).coverage.size ≤ s.firstGlyphs := by
      rw [h.firstGlyphs, h.gauged.firsts]
      exact Partition.size_glyphs_le (measured_sidePartition _)
    refine Nat.le_trans (Coverage.total_table_le _) ?_
    rw [Coverage.sizeBound, Coverage.sizeBound]
    omega
  have hfirst : (classPairsOf ps).firstClasses.table.total ≤ s.firsts.sizeBound := by
    rw [h.gauged.firsts] at hfirsts ⊢
    exact Partition.total_classDef_le hfirsts 0
  have hsecond : (classPairsOf ps).secondClasses.table.total ≤ s.seconds.sizeBound := by
    rw [h.gauged.seconds] at hseconds ⊢
    exact Partition.total_classDef_le hseconds 1
  have hmatrix := Nat.mul_le_mul_left (s.firsts.size * (s.seconds.size + 1))
    (PairFormats.recordSize_le (hold_of_mem_records h.formats))
  rw [ClassPairs.total_table, hrecords]
  omega

end ClassPairLoad

/-! ## Both forms -/

/-- What the gauge of pairs knows of a run. -/
theorem describes_pairs {budget : Budget} {items : List PairItem} {state : PairLoad}
    (h : pairs.toGauge.Grown budget items state) :
    Holds (fun items load => load.Describes items) (fun ps load => load.Describes ps) items
      state :=
  holds_of_grown GlyphPairLoad.describes_empty
    (fun _ _ first second v hload => hload.add first second v) ClassPairLoad.describes_empty
    (fun _ _ p hload hfirst _ => hload.add p hfirst) h

/-- The size that the gauge gives to a pair bounds the subtable with this pair. -/
theorem bounding_pairs : Bounding pairs := by
  intro budget items state i n hg hfit
  have hstate := describes_pairs hg
  cases state with
  | unknown => exact hstate.elim
  | glyphs load =>
    cases i with
    | classes => cases hfit
    | glyphs first second v =>
      obtain ⟨⟨first', second', v', rest, rfl⟩, hload⟩ := hstate
      have hle := (hload.add first second v).total_le
      have hfirsts : (load.add first second v).pairs.size =
          load.pairs.size + if load.pairs.contains first then 0 else 1 := by
        simp only [GlyphPairLoad.add, Std.TreeMap.size_insert, Std.TreeMap.contains_iff_mem]
        split <;> rfl
      rw [hfirsts] at hle
      cases hfit
      exact hle
  | classes load =>
    cases i with
    | glyphs => cases hfit
    | classes first second v =>
      obtain ⟨ps, -, rfl, hload⟩ := hstate
      have hfit' : load.fit first second v = .size n := hfit
      unfold ClassPairLoad.fit at hfit'
      split at hfit'
      · next ha =>
        rw [Bool.and_eq_true] at ha
        cases hfit'
        let p : ClassPair := ⟨first, second, v⟩
        have hle := (hload.add p ha.1).total_le
        have hbuild : pairs.build (ps.map ClassPair.item ++ [p.item]) =
            .classPairs (classPairsOf (ps ++ [p])) := by
          have hmap : pairSubtable ((ps ++ [p]).map ClassPair.item) =
              .classPairs (classPairsOf (ps ++ [p])) := pairSubtable_map (by simp)
          rwa [List.map_append] at hmap
        change (pairs.build (ps.map ClassPair.item ++ [p.item])).table.total ≤ _
        rw [hbuild]
        simp only [p, ClassPairLoad.add, ← Partition.sizeBound_add ha.1,
          ← Partition.sizeBound_add ha.2, Partition.size_add ha.1, Partition.size_add ha.2] at hle
        exact hle
      · cases hfit'

end Packing
end FontLayout
