import FontLayout.Proofs.Reading.Subtables
/-!
# Substitutions are read back

Each table of substitutions yields what it was made from. The proofs follow the tables field by
field, with one step for each step of the reader.

Results:
* `yields_singleSubTable`, `yields_sequencesTable`, `yields_ligatureSubTable`: without context.
* `ChainSubtable.yields_table`, `ReverseChainSubtable.yields_table`: in context.
-/
namespace FontLayout

open Reader

/-! ## Elements by coverage -/

section
variable {α β : Type}

theorem mapM_zipIdx (entries : List (Glyph × β)) (view : β → α) (before : List α) :
    (((entries.map Prod.fst).zipIdx before.length).mapM fun x =>
      (before ++ entries.map fun e => view e.2)[x.2]?.map fun a => (x.1, a)) =
        some (entries.map fun e => (e.1, view e.2)) := by
  induction entries generalizing before with
  | nil => rfl
  | cons e entries ih =>
    have hrest := ih (before ++ [view e.2])
    rw [List.length_append, List.length_singleton, List.append_assoc, List.singleton_append]
      at hrest
    rw [List.map_cons, List.map_cons, List.zipIdx_cons, List.mapM_cons, List.map_cons, hrest]
    simp

theorem Reads.assign (m : ByGlyph β) (view : β → α) :
    Reads (assign m.keys.members.zipIdx (m.values.map view)) id
      (m.entries.map fun e => (e.1, view e.2)) := by
  have h := mapM_zipIdx m.entries view []
  rw [List.nil_append, List.length_nil] at h
  rw [Reader.assign, ByGlyph.keys, ByGlyph.values, List.map_map]
  simp only [Function.comp_def]
  rw [h]
  exact .pure _

theorem Reads.assign_values (m : ByGlyph α) :
    Reads (Reader.assign m.keys.members.zipIdx m.values) id m.entries := by
  have h := Reads.assign m id
  rw [List.map_id] at h
  simp only [id_eq] at h
  rwa [List.map_id' ] at h

theorem map_zipIdx (f : Glyph → α) (gs : List Glyph) :
    (gs.zipIdx.map fun x => f x.1) = gs.map f := by
  have hcomp := List.map_map (f := Prod.fst) (g := f) (l := gs.zipIdx)
  rw [List.zipIdx_map_fst] at hcomp
  exact hcomp.symm

theorem yields_glyphs (s : GlyphSet) : Yields glyphs (Coverage.table s) s.members := by
  have h := (Coverage.yields_table s).map (List.map Prod.fst)
  rwa [List.zipIdx_map_fst] at h

theorem reads_coverages (target : Target) (sets : List GlyphSet) :
    Reads glyphSets (coverages target sets) (sets.map GlyphSet.members) :=
  .countedLinks target fun s _ => yields_glyphs s

theorem Reads.coverage (target : Target) (s : GlyphSet) :
    Reads (link Reader.coverage) (Table.link (.near target) (Coverage.table s))
      s.members.zipIdx := .near target (Coverage.yields_table s)

end

/-! ## Without context -/

theorem yields_singleSubTable (mapping : ByGlyph Glyph) :
    Yields singleSub (singleSubTable mapping) (.singleSub mapping.entries) := by
  simp only [singleSubTable]
  split
  · next hall =>
    generalize (mapping.entries.map fun e => glyphDelta e.1 e.2).headD 0 = delta at hall
    have hsame : mapping.keys.members.zipIdx.map (fun x => (x.1, x.1 + delta)) =
        mapping.entries := by
      rw [map_zipIdx fun g => (g, g + delta), ByGlyph.keys, List.map_map]
      refine (List.map_congr_left fun e he => ?_).trans mapping.entries.map_id
      have hdelta := List.all_eq_true.1 hall _ (List.mem_map_of_mem he)
      have hd : e.2 - e.1 = delta := by simpa [glyphDelta] using hdelta
      rw [Function.comp_apply, ← hd, UInt16.add_comm, UInt16.sub_add_cancel]
      rfl
    have h : Yields singleSub _ _ := .bind (.word 1)
      (.bind (.coverage .coverage mapping.keys) (.bind (.word delta) (.pure _ .done)))
    rwa [hsame] at h
  · exact .bind (.word 2) (.bind (.coverage .coverage mapping.keys)
      (.bind (.countedWords mapping.values) (.step (.assign_values mapping) (.pure _ _))))

theorem yields_sequencesTable (target : Target) (mapping : ByGlyph (List Glyph)) :
    Yields sequences (sequencesTable target mapping) (.sequences mapping.entries) := by
  have hvalues := Reads.countedLinks target fun gs (_ : gs ∈ mapping.values) =>
    (Reads.countedWords gs).yields (t := .done)
  rw [List.map_id'] at hvalues
  exact .bind (.word 1) (.bind (.coverage .coverage mapping.keys)
    (.bind hvalues (.step (.assign_values mapping) (.pure _ _))))

theorem Ligature.yields_table (l : Ligature) : Yields ligature l.table l :=
  .bind (.word l.glyph) (.bind (.count (l.trailing.length + 1))
    (.bind (.words l.trailing) (.pure l .done)))

theorem yields_ligatureSubTable (sets : ByGlyph (List Ligature)) :
    Yields ligatures (ligatureSubTable sets)
      (.ligatures (sets.entries.map fun e => (e.1, Ligature.longestFirst e.2))) := by
  have hset (ls : List Ligature) :
      Yields (counted (link ligature)) (Ligature.setTable ls) (Ligature.longestFirst ls) := by
    have h := Reads.countedLinks .ligature fun l (_ : l ∈ Ligature.longestFirst ls) =>
      l.yields_table
    rw [List.map_id'] at h
    exact h.yields
  have hsets := Reads.countedLinks .ligatureSet fun ls (_ : ls ∈ sets.values) => hset ls
  exact .bind (.word 1) (.bind (.coverage .coverage sets.keys)
    (.bind hsets (.step (.assign sets Ligature.longestFirst) (.pure _ _))))

/-! ## In context -/

theorem ChainSubtable.yields_table (c : ChainSubtable) :
    Yields chain c.table (Subtable.chain c).reading := by
  have hone (r : UInt16 × UInt16) : Reads lookupRecord (Table.words [r.1, r.2]) r :=
    .cons (.cons (.nil (.pure r)))
  have hrecords := Reads.flatMap fun r (_ : r ∈ c.records) => hone r
  rw [List.map_id'] at hrecords
  exact .bind (.word 3) (.bind (reads_coverages _ c.backtrack) (.bind (reads_coverages _ c.input)
    (.bind (reads_coverages _ c.lookahead) (.counted hrecords (.pure _ _)))))

theorem ReverseChainSubtable.yields_table (c : ReverseChainSubtable) :
    Yields reverseChain c.table (Subtable.reverseChainSub c).reading :=
  .bind (.word 1) (.bind (.coverage .coverage c.mapping.keys)
    (.bind (reads_coverages _ c.backtrack) (.bind (reads_coverages _ c.lookahead)
      (.bind (.countedWords c.mapping.values) (.step (.assign_values c.mapping) (.pure _ _))))))

end FontLayout
