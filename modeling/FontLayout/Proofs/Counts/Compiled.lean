import FontLayout.Proofs.Compilation
import FontLayout.Proofs.Counts.Layout
/-!
# Counts of compiled tables

All tables that a rule set is compiled to can be encoded, so their distances fit, and with them
all counts but for those few that no distance bounds. Whether these are right can be read off the
packed subtables and the glyph definition.

It does happen that one of them is wrong. A sequence may be longer than the font has glyphs, and
the table that holds it links to nothing.

Results:
* `TableInput.countsFit_treeOf_iff`: which counts of a layout table may not fit.
* `counts_compile`: which counts of a compiled table may be wrong.
* `compile_sequenceRules`: a rule set is compiled however long a sequence in it is.
-/
namespace FontLayout

/-- Bytes that a tree was written as, in which all counts are right on just this condition. -/
structure Table.CountsRightIff (t : Table) (bytes : ByteArray) (condition : Prop) : Prop where
  encode : t.encode = .ok bytes
  countsFit_iff : t.CountsFit ↔ condition
  stands_iff : Stands bytes.data.toList bytes.data.toList t ↔ condition

theorem Table.CountsRightIff.of_countsFit_iff {t : Table} {bytes : ByteArray} {condition : Prop}
    (h : t.encode = .ok bytes) (hiff : t.CountsFit ↔ condition) :
    t.CountsRightIff bytes condition :=
  ⟨h, hiff, (stands_iff_of_encode h).trans hiff⟩

/-! ## Layout tables -/

/-- Lookups with their subtables, as the font holds them: whether the counts fit is up to the
subtables. -/
theorem PreparedLookup.countsFit_table {l : PreparedLookup} {places : LookupPlaces}
    {budget : Budget} {extension : Option UInt16}
    (h : ((l.record ((l.pack places budget).subtables.map Subtable.table)).table extension).Fits) :
    ((l.record ((l.pack places budget).subtables.map Subtable.table)).table extension).CountsFit ↔
      ∀ s ∈ (l.pack places budget).subtables, s.Countable := by
  obtain ⟨hfits, hiff⟩ := LookupRecord.countsFit_table h
  refine hiff.trans (List.forall_mem_map.trans (forall₂_congr fun s hs => ?_))
  exact Subtable.countsFit_iff (hfits _ (List.mem_map_of_mem hs)) (Packing.bound_of_packed hs)

namespace TableInput
variable {t : TableInput} {o : Options} {halvings : List Nat}

theorem exists_of_mem_packedAfter {x : PreparedLookup × List Subtable}
    (hx : x ∈ t.packedAfter o halvings) :
    ∃ budget, x.2 = (x.1.pack t.places budget).subtables := by
  rw [packedAfter, ← List.map_uncurry_zip_eq_zipWith] at hx
  obtain ⟨⟨l, k⟩, -, rfl⟩ := List.mem_map.1 hx
  exact ⟨o.budgetAfter k, rfl⟩

/-- If the distances in a layout table fit, all its counts do, but for those of its subtables that
`Countable` asks about. -/
theorem countsFit_treeOf_iff (h : (t.treeOf o (t.packedAfter o halvings)).Fits) :
    (t.treeOf o (t.packedAfter o halvings)).CountsFit ↔
      ∀ x ∈ t.packedAfter o halvings, ∀ s ∈ x.2, s.Countable := by
  obtain ⟨hfits, hiff⟩ := countsFit_layoutTable_iff h
  refine hiff.trans (List.forall_mem_map.trans (forall₂_congr fun x hx => ?_))
  have hfit := hfits _ (List.mem_map_of_mem hx)
  obtain ⟨budget, hpacked⟩ := exists_of_mem_packedAfter hx
  rw [hpacked] at hfit ⊢
  exact PreparedLookup.countsFit_table hfit

end TableInput

/-! ## Compiled tables -/

section
variable {s : RuleSet} {glyphs : GlyphOrder} {o : Options} {c : Compilation}

/-- The counts in the table of one purpose that lookups were compiled to. -/
def LayoutCounts (s : RuleSet) (o : Options) (resolved : List ResolvedLookup) (p : Purpose)
    (bytes : ByteArray) : Prop :=
  let input := s.input resolved p
  ∃ halvings, input.Allows o halvings ∧
    (input.treeOf o (input.packedAfter o halvings)).CountsRightIff bytes
      (∀ x ∈ input.packedAfter o halvings, ∀ s ∈ x.2, s.Countable)

theorem layoutCounts_of_assemble {resolved : List ResolvedLookup} {p : Purpose}
    {bytes : ByteArray} (hbytes : ((s.input resolved p).assemble o).value = some bytes) :
    LayoutCounts s o resolved p bytes := by
  obtain ⟨halvings, hallows, hencode⟩ := TableInput.encode_of_assemble hbytes
  exact ⟨halvings, hallows, .of_countsFit_iff hencode
    (TableInput.countsFit_treeOf_iff (Table.fits_of_encode hencode))⟩

theorem GlyphDefinition.encode_of_assemble {ids : MarkIds} {bytes : ByteArray}
    (h : (assemble s ids).value = some (some bytes)) :
    (ofRules s ids).table.encode = .ok bytes := by
  obtain ⟨-, -, h⟩ := Audit.value_bind_eq_some.1 h
  split at h
  · cases h
  · split at h
    · next hencode =>
      cases h
      exact hencode
    · cases h

theorem GlyphDefinition.countsRightIff_of_assemble {ids : MarkIds} {bytes : ByteArray}
    (h : (assemble s ids).value = some (some bytes)) :
    (ofRules s ids).table.CountsRightIff bytes (ofRules s ids).Countable :=
  .of_countsFit_iff (encode_of_assemble h)
    (countsFit_table_iff (Table.fits_of_encode (encode_of_assemble h)))

/-- **Counts of compiled tables.** Whatever a rule set is compiled to, the counts in its layout
tables are those of what follows them exactly if the packed subtables have no more elements than
a word can count in those few places that no distance bounds; and so with the glyph definition
table. All other counts are always right. -/
theorem counts_compile (h : compile s glyphs o = .ok c) :
    ∃ resolved, (resolveLookups s).value = some resolved ∧
      (∀ p bytes, c.tables.layout? p = some bytes → LayoutCounts s o resolved p bytes) ∧
      ∀ bytes, c.tables.gdef = some bytes →
        let d := GlyphDefinition.ofRules s (MarkIds.ofLookups s.lookups)
        d.table.CountsRightIff bytes d.Countable := by
  obtain ⟨resolved, hc⟩ := exists_compiledFrom h
  refine ⟨resolved, hc.resolve, fun p bytes hbytes => ?_, fun bytes hbytes => ?_⟩
  · exact layoutCounts_of_assemble (hc.assemble_layout hbytes)
  · exact GlyphDefinition.countsRightIff_of_assemble (hc.assemble_gdef hbytes)

end

/-! ## A sequence of any length -/

/-- A rule set with one rule, which replaces a glyph by a sequence. -/
def sequenceRules (gs : List Glyph) : RuleSet where
  fontName := "Long"
  lookups := [⟨none, .multipleSub, 0, none, none, [⟨.multipleSub 1 gs, none, false⟩]⟩]
  features := [⟨.ofChars ['c', 'c', 'm', 'p'], [], [0]⟩]
  markClasses := []
  glyphFacts := ⟨none, []⟩

/-- The lookup of that rule set, in which nothing is found. -/
def sequenceLookup (gs : List Glyph) : ResolvedLookup where
  lookup := ⟨none, .multipleSub, 0, none, none, [⟨.multipleSub 1 gs, none, false⟩]⟩
  place := ⟨some (.ofChars ['c', 'c', 'm', 'p']), none⟩
  rules := [⟨.multipleSub 1 gs, none, false⟩]
  marks := none

/-- The contents of its substitution table. -/
def sequenceInput (gs : List Glyph) : TableInput :=
  (sequenceRules gs).input [sequenceLookup gs] .substitution

/-- The tree of its substitution table. -/
def sequenceTree (gs : List Glyph) : Table :=
  layoutTable [(.defaultScript, ⟨some [0], []⟩)] [⟨.ofChars ['c', 'c', 'm', 'p'], [0]⟩]
    [(LookupRecord.mk 2 0 none [(Subtable.multipleSub (.ofFirst [(1, gs)])).table]).table none]

/-- The bytes of its substitution table. -/
def sequenceBytes (gs : List Glyph) : ByteArray := bytesOfBlocks (sequenceTree gs).blocks

section
variable (gs : List Glyph)

/-- The sequence stands last of all tables, so its length is in no distance. -/
theorem encode_sequenceTree : (sequenceTree gs).encode = .ok (sequenceBytes gs) := by
  have hfits : (sequenceTree gs).overflow? = none := rfl
  rw [Table.encode, ← Table.overflow?, hfits, sequenceBytes]

/-- What stands last is the count, as far as a word can tell, and the sequence in full. -/
theorem data_sequenceBytes : ∃ front, (sequenceBytes gs).data.toList =
    front ++ wordBytes (countWord gs.length) ++ gs.flatMap wordBytes := by
  have hlast : (sequenceTree gs).blocks.getLast? = some ⟨70, some 0,
      [.bytes (pushWord .empty (countWord gs.length)), .bytes (bytesOfWords gs)]⟩ := rfl
  obtain ⟨front, hblocks⟩ := List.getLast?_eq_some_iff.1 hlast
  refine ⟨front.flatMap Block.bytes, ?_⟩
  rw [sequenceBytes, data_bytesOfBlocks, hblocks, List.flatMap_append, List.append_assoc,
    ← data_bytesOfWords gs]
  simp [Block.bytes, Block.cellBytes, pushWord, wordBytes]

theorem countsFit_sequenceTree : (sequenceTree gs).CountsFit ↔ gs.length ≤ 0xFFFF := by
  obtain ⟨hlookups, hlayout⟩ := countsFit_layoutTable_iff
    (Table.fits_of_encode (encode_sequenceTree gs))
  obtain ⟨hsubtables, hlookup⟩ := LookupRecord.countsFit_table (hlookups _ List.mem_cons_self)
  have hsubtable := Subtable.countsFit_iff (hsubtables _ List.mem_cons_self) trivial
  have hvalues : (ByGlyph.ofFirst [(1, gs)]).values = [gs] := rfl
  refine hlayout.trans ?_
  rw [List.forall_mem_singleton, hlookup, List.forall_mem_singleton, hsubtable, Subtable.Countable,
    hvalues, List.forall_mem_singleton]

theorem surveyFindings_sequenceRules : surveyFindings (sequenceRules gs) = [] := by
  simp [surveyFindings, sequenceRules, Survey.step, attachmentsWith, attachmentFindings,
    filterSetFindings, referenceFindings, featureFindings, RuleBody.references, RuleBody.context?,
    useMarkFilteringSet]

theorem record_sequenceLookup (subtables : List Table) :
    ((sequenceLookup gs).prepare (MarkIds.ofLookups (sequenceRules gs).lookups)).record subtables =
      ⟨2, 0, none, subtables⟩ := by
  have hflags : (MarkIds.ofLookups (sequenceRules gs).lookups).flags (sequenceLookup gs).lookup =
      0 := by
    change (0 : UInt16) &&& ~~~useMarkFilteringSet ||| (0 : UInt16) ||| (0 : UInt16) <<< 8 = 0
    decide
  rw [PreparedLookup.record, ResolvedLookup.prepare, hflags]
  rfl

/-- The first layout of the substitution table is its last. -/
theorem assemble_sequenceInput :
    (sequenceInput gs).assemble .default = ⟨[], some (sequenceBytes gs)⟩ := by
  let attempt : Attempt := ⟨(sequenceLookup gs).prepare (MarkIds.ofLookups
    (sequenceRules gs).lookups), [(Subtable.multipleSub (.ofFirst [(1, gs)])).table], 0xFFFF, 4⟩
  have hfirst : Audit.traverse ((sequenceInput gs).firstAttempt .default)
      (sequenceInput gs).lookups = ⟨[], some [attempt]⟩ := rfl
  have hscripts : (Registrations.ofFeatures (sequenceInput gs).features
      (sequenceInput gs).places).scriptList = [(.defaultScript, ⟨some [0], []⟩)] := rfl
  have hfeatures : (Registrations.ofFeatures (sequenceInput gs).features
      (sequenceInput gs).places).featureList = [⟨.ofChars ['c', 'c', 'm', 'p'], [0]⟩] := rfl
  have hlookup : attempt.lookup.record attempt.subtables = ⟨2, 0, none, attempt.subtables⟩ :=
    record_sequenceLookup gs _
  refine TableInput.assemble_of_encode hfirst ?_
  rw [hscripts, hfeatures, TableInput.layout, List.map_singleton, hlookup]
  exact encode_sequenceTree gs

/-- However long the sequence is, the rule set is compiled, and nothing is found. -/
theorem compile_sequenceRules (glyphs : GlyphOrder) :
    compile (sequenceRules gs) glyphs .default =
      .ok ⟨⟨none, some (sequenceBytes gs), none⟩, ⟨[], 100⟩⟩ := by
  have hresolve : resolveLookups (sequenceRules gs) = ⟨[], some [sequenceLookup gs]⟩ := rfl
  have hgsub : assembleTable .default true (sequenceInput gs) =
      ⟨[], some (some (sequenceBytes gs))⟩ :=
    congrArg (Audit.map some) (assemble_sequenceInput gs)
  have haudit : auditRules (sequenceRules gs) .default =
      ⟨[], some ⟨none, some (sequenceBytes gs), none⟩⟩ := by
    rw [auditRules, surveyFindings_sequenceRules, hresolve]
    change Audit.bind (assembleTable .default true (sequenceInput gs)) _ = _
    rw [hgsub]
    rfl
  rw [compile, haudit]
  rfl

/-- A sequence of more glyphs than a word can count is written in full, behind the greatest
word. -/
theorem data_sequenceBytes_of_lt (h : 0xFFFF < gs.length) : ∃ front,
    (sequenceBytes gs).data.toList = front ++ [0xFF, 0xFF] ++ gs.flatMap wordBytes := by
  have hcount : countWord gs.length = 0xFFFF := by
    rw [countWord, Nat.min_eq_right (Nat.le_of_lt h)]
    rfl
  obtain ⟨front, hdata⟩ := data_sequenceBytes gs
  rw [hcount] at hdata
  exact ⟨front, hdata⟩

end

/-- The rule set with a sequence of two glyphs is compiled, and its counts are right if those of
its subtable fit. -/
theorem counts_compile_twoGlyphs : ∃ c bytes,
    compile (sequenceRules [2, 3]) default .default = .ok c ∧ c.tables.gsub = some bytes ∧
      ∃ resolved, (resolveLookups (sequenceRules [2, 3])).value = some resolved ∧
        LayoutCounts (sequenceRules [2, 3]) .default resolved .substitution bytes := by
  have hcompile := compile_sequenceRules [2, 3] default
  obtain ⟨resolved, hresolved, hlayout, -⟩ := counts_compile hcompile
  exact ⟨_, _, hcompile, rfl, resolved, hresolved, hlayout .substitution _ rfl⟩

/-- The rule set with a sequence of 65536 glyphs is compiled too. The tables are written with the
count 65535, and 65536 glyphs follow. -/
theorem counts_compile_manyGlyphs : ∃ c bytes,
    compile (sequenceRules (List.replicate 65536 2)) default .default = .ok c ∧
      c.tables.gsub = some bytes ∧
      (sequenceTree (List.replicate 65536 2)).encode = .ok bytes ∧
      ¬ (sequenceTree (List.replicate 65536 2)).CountsFit ∧
      ∃ front, bytes.data.toList =
        front ++ [0xFF, 0xFF] ++ (List.replicate 65536 2).flatMap wordBytes := by
  have hlength : 0xFFFF < (List.replicate 65536 (2 : Glyph)).length := by
    rw [List.length_replicate]
    omega
  refine ⟨_, _, compile_sequenceRules _ default, rfl, encode_sequenceTree _, ?_,
    data_sequenceBytes_of_lt _ hlength⟩
  rw [countsFit_sequenceTree]
  omega

end FontLayout
