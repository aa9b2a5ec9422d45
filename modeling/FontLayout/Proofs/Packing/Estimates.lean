import FontLayout.Proofs.Glyph.Counts
import FontLayout.Proofs.Packing.Runs
import FontLayout.Proofs.Subtable.Sizes
/-!
# Estimates are never too low

A gauge knows a run by a few numbers: how many glyphs it covers, and what these bring. Here the
numbers are related to the items of the run, one item at a time, and the size that the gauge
gives to the next item is shown to bound the subtable that the run becomes with this item. Pairs
are dealt with on their own; for all other kinds the subtable is made from values by glyph.

Results:
* `bounding_single`, `bounding_sequences`, `bounding_ligatures`: substitutions.
* `bounding_singlePositions`, `bounding_cursive`, `bounding_attachments`: positionings.
-/
namespace FontLayout

/-! ## Formats -/

namespace ValueFormat

/-- Whether a format has all amounts of another. -/
def Holds (g f : ValueFormat) : Prop := g.union f = g

variable {f g h : ValueFormat}

theorem holds_union_right (g f : ValueFormat) : (g.union f).Holds f := by
  obtain ⟨a, b, c, d⟩ := g
  simp [Holds, union]

theorem Holds.union_left (hg : g.Holds f) (h : ValueFormat) : (g.union h).Holds f := by
  obtain ⟨a, b, c, d⟩ := g
  obtain ⟨a', b', c', d'⟩ := h
  simp only [Holds, union, mk.injEq] at hg ⊢
  obtain ⟨ha, hb, hc, hd⟩ := hg
  exact ⟨by rw [Bool.or_right_comm, ha], by rw [Bool.or_right_comm, hb],
    by rw [Bool.or_right_comm, hc], by rw [Bool.or_right_comm, hd]⟩

theorem Holds.union (hf : g.Holds f) (hh : g.Holds h) : g.Holds (f.union h) := by
  obtain ⟨a, b, c, d⟩ := g
  simp only [Holds, ValueFormat.union, mk.injEq] at hf hh ⊢
  obtain ⟨ha, hb, hc, hd⟩ := hf
  obtain ⟨ha', hb', hc', hd'⟩ := hh
  refine ⟨?_, ?_, ?_, ?_⟩
  · rw [← Bool.or_assoc, ha, ha']
  · rw [← Bool.or_assoc, hb, hb']
  · rw [← Bool.or_assoc, hc, hc']
  · rw [← Bool.or_assoc, hd, hd']

theorem holds_none (g : ValueFormat) : g.Holds .none := g.union_none

theorem Holds.recordSize_le (hg : g.Holds f) : f.recordSize ≤ g.recordSize := by
  have hle (x y : Bool) : y.toNat ≤ (x || y).toNat := by cases x <;> cases y <;> decide
  have ha := hle g.xPlacement f.xPlacement
  have hb := hle g.yPlacement f.yPlacement
  have hc := hle g.xAdvance f.xAdvance
  have hd := hle g.yAdvance f.yAdvance
  rw [← hg, recordSize, recordSize, fieldCount, fieldCount]
  simp only [ValueFormat.union]
  omega

/-- A format that has the amounts of all records has those of their common format. -/
theorem holds_commonFormat {vs : List ValueRecord} (hg : ∀ v ∈ vs, g.Holds v.format) :
    g.Holds (commonFormat vs) := by
  suffices ∀ f, g.Holds f → g.Holds (vs.foldl (fun f v => f.union v.format) f) from
    this _ g.holds_none
  induction vs with
  | nil => exact fun _ hf => hf
  | cons v vs ih =>
    rw [List.forall_mem_cons] at hg
    exact fun f hf => ih hg.2 _ (hf.union hg.1)

end ValueFormat

namespace Packing

/-- Whether the size that a gauge gives to an item bounds the subtable of the run with the item. -/
def Bounding {ι σ : Type} (p : Packer ι σ) : Prop :=
  ∀ budget items s i n, p.toGauge.Grown budget items s → p.fit s i = .size n →
    (p.build (items ++ [i])).table.total ≤ n

/-! ## Counting glyphs -/

/-- Whether a set holds the glyphs of records, and nothing else. -/
def Counts {α : Type} (t : Std.TreeSet Glyph) (xs : List (Glyph × α)) : Prop :=
  ∀ g, g ∈ t ↔ g ∈ xs.map Prod.fst

section
variable {α : Type} {t : Std.TreeSet Glyph} {xs : List (Glyph × α)}

theorem counts_nil : Counts ∅ ([] : List (Glyph × α)) := by
  intro g
  simp

theorem Counts.concat (h : Counts t xs) (x : Glyph × α) : Counts (t.insert x.1) (xs ++ [x]) := by
  intro g
  rw [Std.TreeSet.mem_insert, Std.LawfulEqCmp.compare_eq_iff_eq, h g, List.map_append,
    List.mem_append, List.map_singleton, List.mem_singleton, or_comm, eq_comm]

theorem size_insert_eq (t : Std.TreeSet Glyph) (g : Glyph) :
    (t.insert g).size = t.size + newcomers t g := by
  rw [Std.TreeSet.size_insert, newcomers]
  simp only [Std.TreeSet.contains_iff_mem]
  split <;> rfl

theorem Counts.size_ofFirst (h : Counts t xs) : (ByGlyph.ofFirst xs).size = t.size :=
  ByGlyph.size_eq_of_mem_iff fun g => (h g).trans ByGlyph.mem_keys_ofFirst.symm

theorem Counts.size_group (h : Counts t xs) : (ByGlyph.group xs).size = t.size :=
  ByGlyph.size_eq_of_mem_iff fun g => (h g).trans ByGlyph.mem_keys_group.symm

theorem Counts.contains_iff (h : Counts t xs) {g : Glyph} :
    t.contains g = true ↔ g ∈ xs.map Prod.fst := h g

end

/-! ## Substitutions -/

theorem bounding_single : Bounding single := by
  intro budget items s i n hg hfit
  have hcounts : Counts s items :=
    hg.preserves (P := fun items s => Counts s items) counts_nil fun _ _ i h => h.concat i
  have hsize := (hcounts.concat i).size_ofFirst
  rw [size_insert_eq] at hsize
  have hle := total_singleSubTable_le (.ofFirst (items ++ [i]))
  rw [hsize] at hle
  cases hfit
  exact hle

/-- What a gauge of sequences knows of a run: the targets, and the glyphs of the sequences that
are kept. -/
structure SequenceLoad.Describes (s : SequenceLoad) (items : List (Glyph × List Glyph)) :
    Prop where
  targets : Counts s.targets items
  outputs : s.outputs = ((ByGlyph.ofFirst items).values.map List.length).sum

theorem SequenceLoad.describes_add (build : ByGlyph (List Glyph) → Subtable) {s : SequenceLoad}
    {items : List (Glyph × List Glyph)} (h : s.Describes items) (i : Glyph × List Glyph) :
    ((sequences build).add s i).Describes (items ++ [i]) := by
  have hsum := ((ByGlyph.entries_ofFirst_concat items i).map fun e => e.2.length).sum_nat
  have hvalues (m : ByGlyph (List Glyph)) :
      (m.values.map List.length).sum = (m.entries.map fun e => e.2.length).sum := by
    rw [ByGlyph.values, List.map_map]
    rfl
  have houtputs := h.outputs
  rw [hvalues] at houtputs
  simp only [sequences]
  split
  · next hi =>
    have hmem := h.targets.contains_iff.1 hi
    rw [if_pos hmem] at hsum
    refine ⟨?_, by rw [hvalues, hsum, houtputs]⟩
    intro g
    rw [h.targets g, List.map_append, List.mem_append, List.map_singleton, List.mem_singleton]
    exact ⟨.inl, fun hg => hg.elim id fun he => he ▸ hmem⟩
  · next hi =>
    have hmem : i.1 ∉ items.map Prod.fst := fun hm => hi (h.targets.contains_iff.2 hm)
    rw [if_neg hmem, List.map_append, List.sum_append] at hsum
    refine ⟨h.targets.concat i, ?_⟩
    rw [hvalues, hsum, houtputs, List.map_singleton, List.sum_singleton]

theorem bounding_sequences {build : ByGlyph (List Glyph) → Subtable} {target : Target}
    (hbuild : ∀ m, (build m).table = sequencesTable target m) : Bounding (sequences build) := by
  intro budget items s i n hg hfit
  have hs : s.Describes items :=
    hg.preserves (P := fun items s => s.Describes items) ⟨counts_nil, rfl⟩
      fun _ _ i h => SequenceLoad.describes_add build h i
  have hnext := SequenceLoad.describes_add build hs i
  have hle := total_sequencesTable_le target (.ofFirst (items ++ [i]))
  rw [hnext.targets.size_ofFirst, ← hnext.outputs] at hle
  have htable : ((sequences build).build (items ++ [i])).table =
      sequencesTable target (.ofFirst (items ++ [i])) := hbuild _
  rw [htable]
  simp only [sequences] at hfit hle
  split at hfit
  · next hi =>
    rw [if_pos hi] at hle
    cases hfit
    exact hle
  · next hi =>
    rw [if_neg hi] at hle
    cases hfit
    have hnew : newcomers s.targets i.1 = 1 := by
      rw [newcomers, if_neg hi]
    simp only [size_insert_eq, hnew] at hle
    exact hle

/-- What a gauge of ligatures knows of a run. -/
structure LigatureLoad.Describes (s : LigatureLoad) (items : List (Glyph × Ligature)) : Prop where
  firsts : Counts s.firsts items
  ligatures : s.ligatures = items.length
  trailing : s.trailing = trailingCount (items.map Prod.snd)

theorem LigatureLoad.describes_add {s : LigatureLoad} {items : List (Glyph × Ligature)}
    (h : s.Describes items) (i : Glyph × Ligature) :
    (Packing.ligatures.add s i).Describes (items ++ [i]) := by
  refine ⟨h.firsts.concat i, ?_, ?_⟩
  · rw [List.length_append, ← h.ligatures]
    rfl
  · rw [List.map_append, trailingCount, List.map_append, List.sum_append, ← trailingCount,
      ← h.trailing]
    rfl

theorem bounding_ligatures : Bounding ligatures := by
  intro budget items s i n hg hfit
  have hs : s.Describes items :=
    hg.preserves (P := fun items s => s.Describes items) ⟨counts_nil, rfl, rfl⟩
      fun _ _ i h => LigatureLoad.describes_add h i
  have hnext := LigatureLoad.describes_add hs i
  have hle := total_ligatureSubTable_le (.group (items ++ [i]))
  have hperm := ByGlyph.perm_values_group (items ++ [i])
  have htrailing : trailingCount (ByGlyph.group (items ++ [i])).values.flatten =
      (Packing.ligatures.add s i).trailing := by
    rw [hnext.trailing, trailingCount, trailingCount]
    exact (hperm.map _).sum_nat
  have hlength : (ByGlyph.group (items ++ [i])).values.flatten.length =
      (Packing.ligatures.add s i).ligatures := by
    rw [hperm.length_eq, List.length_map, hnext.ligatures]
  rw [hnext.firsts.size_group, hlength, htrailing] at hle
  simp only [Packing.ligatures, size_insert_eq] at hle
  cases hfit
  exact hle

/-! ## Positionings -/

/-- What a gauge of single values knows of a run: its glyphs, and a format for all values. -/
structure SinglePosLoad.Describes (s : SinglePosLoad) (items : List (Glyph × ValueRecord)) :
    Prop where
  glyphs : Counts s.glyphs items
  format : ∀ i ∈ items, s.format.Holds i.2.format

theorem SinglePosLoad.describes_add {s : SinglePosLoad} {items : List (Glyph × ValueRecord)}
    (h : s.Describes items) (i : Glyph × ValueRecord) :
    (singlePositions.add s i).Describes (items ++ [i]) := by
  refine ⟨h.glyphs.concat i, ?_⟩
  intro j hj
  rcases List.mem_append.1 hj with hj | hj
  · exact (h.format j hj).union_left _
  · rw [List.mem_singleton.1 hj]
    exact ValueFormat.holds_union_right _ _

theorem bounding_singlePositions : Bounding singlePositions := by
  intro budget items s i n hg hfit
  have hs : s.Describes items :=
    hg.preserves (P := fun items s => s.Describes items) ⟨counts_nil, fun _ h => nomatch h⟩
      fun _ _ i h => SinglePosLoad.describes_add h i
  have hnext := SinglePosLoad.describes_add hs i
  have hsize := hnext.glyphs.size_ofFirst
  have hle := total_singlePosTable_le (.ofFirst (items ++ [i]))
  -- the values that are kept are values of items
  have hformat : (singlePositions.add s i).format.Holds
      (commonFormat (ByGlyph.ofFirst (items ++ [i])).values) := by
    refine ValueFormat.holds_commonFormat fun v hv => ?_
    obtain ⟨e, he, rfl⟩ := List.mem_map.1 hv
    exact hnext.format e ((ByGlyph.subperm_entries_ofFirst _).subset he)
  have hrecords := Nat.mul_le_mul_left (ByGlyph.ofFirst (items ++ [i])).size
    hformat.recordSize_le
  rw [hsize] at hle hrecords
  simp only [singlePositions, size_insert_eq] at hle hrecords
  cases hfit
  exact Nat.le_trans hle (Nat.add_le_add_right (Nat.add_le_add_left hrecords 8) _)

/-- What a gauge of cursive anchors knows of a run: its glyphs, and the bytes of all anchors, also
of those that are not kept. -/
structure CursiveLoad.Describes (s : CursiveLoad)
    (items : List (Glyph × Option Anchor × Option Anchor)) : Prop where
  glyphs : Counts s.glyphs items
  anchors : s.anchors = (items.map fun i => anchorBytes [i.2.1, i.2.2]).sum

theorem CursiveLoad.describes_add {s : CursiveLoad}
    {items : List (Glyph × Option Anchor × Option Anchor)} (h : s.Describes items)
    (i : Glyph × Option Anchor × Option Anchor) :
    (cursive.add s i).Describes (items ++ [i]) := by
  refine ⟨h.glyphs.concat i, ?_⟩
  rw [List.map_append, List.sum_append, ← h.anchors, List.map_singleton, List.sum_singleton]
  rfl

theorem bounding_cursive : Bounding cursive := by
  intro budget items s i n hg hfit
  have hs : s.Describes items :=
    hg.preserves (P := fun items s => s.Describes items) ⟨counts_nil, rfl⟩
      fun _ _ i h => CursiveLoad.describes_add h i
  have hnext := CursiveLoad.describes_add hs i
  have hsize := hnext.glyphs.size_ofFirst
  have hle := total_cursiveTable_le (.ofFirst (items ++ [i]))
  have hanchors := ByGlyph.sum_values_ofFirst_le (fun a => anchorBytes [a.1, a.2]) (items ++ [i])
  rw [← hnext.anchors] at hanchors
  have hnewcomers : newcomers s.glyphs i.1 ≤ 1 := by
    rw [newcomers]
    split <;> omega
  simp only [cursive, size_insert_eq] at hsize hanchors
  have htable : (cursive.build (items ++ [i])).table =
      cursiveTable (.ofFirst (items ++ [i])) := rfl
  rw [htable]
  simp only [Coverage.sizeBound] at hle
  simp only [cursive, Fit.size.injEq, Coverage.sizeBound] at hfit
  omega

/-- What a gauge of attachments knows of a run: how many items it has, and what they weigh. -/
structure AttachmentLoad.Describes {α : Type} (weight : α → Nat) (s : AttachmentLoad)
    (items : List (Glyph × α)) : Prop where
  count : s.count = items.length
  bytes : s.bytes = (items.map fun i => weight i.2).sum

theorem bounding_attachments {α : Type} {marks : MarkSet} {weight : α → Nat}
    {build : MarkAttachment α → Subtable} {cover array : Target} {below : ByGlyph α → Table}
    (hbuild : ∀ m, (build m).table = m.table cover array below)
    (hbelow : ∀ m, (below m).total = 2 + (m.values.map weight).sum) :
    Bounding (attachments marks weight build) := by
  intro budget items s i n hg hfit
  have hs : AttachmentLoad.Describes weight s items := by
    refine hg.preserves (P := fun items s => AttachmentLoad.Describes weight s items) ⟨rfl, rfl⟩ ?_
    intro items s i h
    refine ⟨?_, ?_⟩
    · rw [List.length_append, ← h.count]
      rfl
    · rw [List.map_append, List.sum_append, ← h.bytes, List.map_singleton, List.sum_singleton]
      rfl
  have hle := MarkAttachment.total_table_le cover array below marks (.ofFirst (items ++ [i]))
  have hsize := (ByGlyph.subperm_entries_ofFirst (items ++ [i])).length_le
  have hweight := ByGlyph.sum_values_ofFirst_le weight (items ++ [i])
  rw [List.map_append, List.sum_append, ← hs.bytes, List.map_singleton,
    List.sum_singleton] at hweight
  rw [← ByGlyph.size, List.length_append, ← hs.count, List.length_singleton] at hsize
  have htable : ((attachments marks weight build).build (items ++ [i])).table =
      MarkAttachment.table cover array below
        ⟨marks.marks, marks.classCount, .ofFirst (items ++ [i])⟩ := hbuild _
  rw [htable]
  rw [hbelow] at hle
  simp only [Coverage.sizeBound] at hle
  simp only [attachments, Fit.size.injEq, Coverage.sizeBound] at hfit
  omega

end Packing
end FontLayout
