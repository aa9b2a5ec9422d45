import FontLayout.Layout.Assembly
import FontLayout.Layout.GlyphDefinition
import FontLayout.Proofs.Counts.Lists
import FontLayout.Proofs.Counts.Packed
/-!
# Counts of whole tables

Above the subtables of a layout table, and in a glyph definition table but for its class
definitions and filtering sets, all counts fit if the distances do. Lists of links bound
themselves, and the lists of places refer to these.

Results:
* `countsFit_layoutTable_iff`: the counts of a layout table fit if those of its lookups do.
* `GlyphDefinition.countsFit_table_iff`: which counts of a glyph definition table may not fit.
-/
namespace FontLayout

open Table

/-! ## Lookups -/

/-- Links to subtables that wait: if there is one, the table itself is no longer than a word. -/
theorem OffsetsFit.deferredSubtables {children : List Table} {rest : Table} {size near : Nat}
    (h : OffsetsFit size near (links deferredSubtable children rest)) :
    (children ≠ [] → size ≤ 0xFFFF) ∧ ∀ c ∈ children, c.Fits := by
  induction children with
  | nil => exact ⟨fun hne => absurd rfl hne, by simp⟩
  | cons child children ih =>
    obtain ⟨hsize, hchild, hrest⟩ := h
    exact ⟨fun _ => hsize, List.forall_mem_cons.2 ⟨hchild, (ih hrest).2⟩⟩

namespace LookupRecord
variable {l : LookupRecord}

theorem size_table (extension : Option UInt16) : (l.table extension).size =
    6 + 2 * l.subtables.length + 2 * l.filterWords.length := by
  cases extension with
  | none =>
    simp only [table, size_words, size_countedLinks, size_done, deferredSubtable, Width.size,
      List.length_cons, List.length_nil]
    omega
  | some type =>
    simp only [table, size_words, size_countedLinks, size_done, Link.near, Width.size,
      List.length_cons, List.length_nil, List.length_map]
    omega

/-- A lookup has no more subtables than it can count: it either links to each of them by a short
offset, or to an extension record that links to it. -/
theorem fits_subtables {extension : Option UInt16} (h : (l.table extension).Fits) :
    l.subtables.length ≤ 0xFFFF ∧ ∀ s ∈ l.subtables, s.Fits := by
  have hsize := l.size_table extension
  cases extension with
  | none =>
    obtain ⟨hroom, hfits⟩ := OffsetsFit.deferredSubtables h
    refine ⟨?_, hfits⟩
    cases hs : l.subtables with
    | nil => exact Nat.zero_le _
    | cons s ss =>
      have hword := hroom (by rw [hs]; exact List.cons_ne_nil s ss)
      rw [hsize, hs] at hword
      omega
  | some type =>
    have hlinks : OffsetsFit (l.table (some type)).size (l.table (some type)).size
      (.countedLinks (.near .subtable) (l.subtables.map (extensionTable l.lookupType))
        (.words l.filterWords .done)) := h
    obtain ⟨hcount, hfits, -⟩ := hlinks.countedLinks (by rw [List.length_map]; omega)
    rw [List.length_map] at hcount
    refine ⟨hcount, fun s hs => ?_⟩
    have hrecord : (extensionTable l.lookupType s).Fits := hfits _ (List.mem_map_of_mem hs)
    exact hrecord.2.1

theorem countsFit_table_iff {extension : Option UInt16} : (l.table extension).CountsFit ↔
    l.subtables.length ≤ 0xFFFF ∧ ∀ s ∈ l.subtables, s.CountsFit := by
  cases extension with
  | none =>
    refine (countsFit_countedLinks (l := deferredSubtable)).trans ?_
    exact and_congr_right' (and_iff_left trivial)
  | some type =>
    have hone (s : Table) : (extensionTable l.lookupType s).CountsFit ↔ s.CountsFit :=
      and_iff_left trivial
    refine (countsFit_countedLinks (l := .near .subtable)).trans ?_
    rw [List.length_map, List.forall_mem_map]
    simp only [hone]
    exact and_congr_right' (and_iff_left trivial)

/-- However a lookup links to its subtables, it counts them in full. -/
theorem countsFit_table {extension : Option UInt16} (h : (l.table extension).Fits) :
    (∀ s ∈ l.subtables, s.Fits) ∧
      ((l.table extension).CountsFit ↔ ∀ s ∈ l.subtables, s.CountsFit) := by
  obtain ⟨hcount, hfits⟩ := fits_subtables h
  exact ⟨hfits, countsFit_table_iff.trans (and_iff_right hcount)⟩

end LookupRecord

/-- The links of a lookup list from the `k`-th lookup on. -/
def lookupLinks (k : Nat) (lookups : List Table) : Table :=
  (lookups.zipIdx k).foldr (fun l rest => .link (lookupLink l.2) l.1 rest) .done

theorem lookupLinks_cons (k : Nat) (l : Table) (lookups : List Table) :
    lookupLinks k (l :: lookups) = .link (lookupLink k) l (lookupLinks (k + 1) lookups) := rfl

theorem size_lookupLinks (k : Nat) (lookups : List Table) :
    (lookupLinks k lookups).size = 2 * lookups.length := by
  induction lookups generalizing k with
  | nil => rfl
  | cons l lookups ih =>
    rw [lookupLinks_cons, size_link, ih, List.length_cons]
    simp only [lookupLink, Width.size]
    omega

theorem countsFit_lookupLinks {k : Nat} {lookups : List Table} :
    (lookupLinks k lookups).CountsFit ↔ ∀ l ∈ lookups, l.CountsFit := by
  induction lookups generalizing k with
  | nil => simp [lookupLinks, CountsFit]
  | cons l lookups ih =>
    rw [List.forall_mem_cons, ← ih (k := k + 1)]
    exact Iff.rfl

theorem OffsetsFit.lookupLinks {size near k : Nat} {lookups : List Table}
    (h : OffsetsFit size near (FontLayout.lookupLinks k lookups)) :
    (lookups ≠ [] → near ≤ 0xFFFF) ∧ ∀ l ∈ lookups, l.Fits := by
  induction lookups generalizing near k with
  | nil => exact ⟨fun hne => absurd rfl hne, by simp⟩
  | cons l lookups ih =>
    obtain ⟨hnear, hlookup, hrest⟩ := h
    exact ⟨fun _ => hnear, List.forall_mem_cons.2 ⟨hlookup, (ih hrest).2⟩⟩

theorem size_lookupListTable (lookups : List Table) :
    (lookupListTable lookups).size = 2 + 2 * lookups.length :=
  (size_count _ _).trans (congrArg (2 + ·) (size_lookupLinks 0 lookups))

/-- Each lookup is linked to, so there are few of them. -/
theorem fits_lookupListTable {lookups : List Table} (h : (lookupListTable lookups).Fits) :
    lookups.length ≤ 0xFFFF ∧ ∀ l ∈ lookups, l.Fits := by
  have hsize := size_lookupListTable lookups
  obtain ⟨hnear, hfits⟩ := OffsetsFit.lookupLinks (k := 0) h
  refine ⟨?_, hfits⟩
  cases lookups with
  | nil => exact Nat.zero_le _
  | cons l lookups =>
    have hword := hnear (List.cons_ne_nil l lookups)
    omega

/-! ## Layout tables -/

section
variable {scripts : ScriptList} {features : FeatureList} {lookups : List Table}

/-- The script list and the feature list stand in front of the lookup list, so the distance to it
bounds them. -/
theorem total_lists_le (h : (layoutTable scripts features lookups).Fits) :
    (scriptListTable scripts).total + (featureListTable features).total ≤ 0xFFFF := by
  obtain ⟨-, -, -, -, hnear, -, -⟩ := h
  rw [(allNear_scriptListTable scripts).extent_eq, (allNear_featureListTable features).extent_eq]
    at hnear
  simp only [Link.near, Width.limit] at hnear
  omega

theorem countsFit_layoutTable : (layoutTable scripts features lookups).CountsFit ↔
    (scriptListTable scripts).CountsFit ∧ (featureListTable features).CountsFit ∧
      lookups.length ≤ 0xFFFF ∧ ∀ l ∈ lookups, l.CountsFit := by
  refine and_congr_right' (and_congr_right' ((and_iff_left trivial).trans ?_))
  exact and_congr_right' (countsFit_lookupLinks (k := 0))

/-- If the distances in a layout table fit, its lists count in full what they hold. -/
theorem fits_layoutTable (h : (layoutTable scripts features lookups).Fits) :
    (scriptListTable scripts).CountsFit ∧ (featureListTable features).CountsFit ∧
      lookups.length ≤ 0xFFFF ∧ ∀ l ∈ lookups, l.Fits := by
  have hlists := total_lists_le h
  obtain ⟨-, hscriptList, -, hfeatureList, -, hlookupList, -⟩ := h
  refine ⟨countsFit_scriptListTable hscriptList fun s hs fs hfs => ?_,
    countsFit_featureListTable hfeatureList fun f hf => ?_, fits_lookupListTable hlookupList⟩
  · have := length_features_le_total hs hfs
    omega
  · have := length_lookups_le_total hf
    omega

/-- The counts of a layout table fit if those of its lookups do. -/
theorem countsFit_layoutTable_iff (h : (layoutTable scripts features lookups).Fits) :
    (∀ l ∈ lookups, l.Fits) ∧
      ((layoutTable scripts features lookups).CountsFit ↔ ∀ l ∈ lookups, l.CountsFit) := by
  obtain ⟨hscripts, hfeatures, hcount, hfits⟩ := fits_layoutTable h
  refine ⟨hfits, countsFit_layoutTable.trans ?_⟩
  exact ⟨fun h => h.2.2.2, fun h => ⟨hscripts, hfeatures, hcount, h⟩⟩

end

/-! ## Glyph definition tables -/

namespace GlyphDefinition

/-- Whether a word can hold those counts of a glyph definition table that its distances do not
bound. -/
def Countable (d : GlyphDefinition) : Prop :=
  (ClassDef.ofMap (d.roles.map Role.code)).ranges.length ≤ 0xFFFF ∧
    (ClassDef.ofMap d.attachments).ranges.length ≤ 0xFFFF ∧ d.filterSets.length ≤ 0xFFFF

theorem countsFit_caretListTable {carets : ByGlyph CaretValues} (h : (caretListTable carets).Fits) :
    (caretListTable carets).CountsFit := by
  have hsize : (caretListTable carets).size = 4 + 2 * carets.values.length := by
    simp only [caretListTable, size_link, size_countedLinks, size_done, List.length_map,
      Link.near, Width.size]
    omega
  obtain ⟨hfits, hiff⟩ := countsFit_ofLinks h.2.2 (by omega)
  refine (countsFit_covered .coverage).2 (hiff.2 fun c hc => ?_)
  have hcaret : ∀ t ∈ caretTables c, t.CountsFit := by
    cases c with
    | positions xs => exact List.forall_mem_map.2 fun _ _ => trivial
    | points ps => exact List.forall_mem_map.2 fun _ _ => trivial
  have hone : (countedLinks (.near .caretValue) (caretTables c) .done).size =
      2 + 2 * (caretTables c).length := by
    simp only [size_countedLinks, size_done, Link.near, Width.size]
    omega
  obtain ⟨hcount, -⟩ := OffsetsFit.countedLinks (hfits c hc) (by omega)
  exact countsFit_countedLinks.2 ⟨hcount, hcaret, trivial⟩

theorem ranges_ofMap_of_isEmpty {m : ByGlyph UInt16} (h : m.isEmpty = true) :
    (ClassDef.ofMap m).ranges = [] := by
  have hentries : m.entries = [] := List.isEmpty_iff.1 h
  simp [ClassDef.ranges, ClassDef.ofMap, ByGlyph.filter, hentries]

/-- The table of a class definition that is left out if no glyph is given a class. -/
theorem countsFit_classes {m : ByGlyph UInt16} {empty : Bool} (hempty : empty = m.isEmpty) :
    (∀ c, (if empty then none else some (ClassDef.ofMap m).table) = some c → c.CountsFit) ↔
      (ClassDef.ofMap m).ranges.length ≤ 0xFFFF := by
  rw [hempty]
  cases h : m.isEmpty with
  | true => simp [ranges_ofMap_of_isEmpty h]
  | false => simp [ClassDef.countsFit_table_iff]

theorem countsFit_filterSetsTable {sets : List GlyphSet} :
    (filterSetsTable sets).CountsFit ↔ sets.length ≤ 0xFFFF := by
  have hsets : ∀ t ∈ sets.map Coverage.table, t.CountsFit :=
    List.forall_mem_map.2 fun s _ => Coverage.countsFit_table s
  refine (countsFit_countedLinks (l := filterSetLink)).trans ?_
  rw [List.length_map]
  exact ⟨fun h => h.1, fun h => ⟨h, hsets, trivial⟩⟩

/-- **Counts of a glyph definition table.** If its distances fit, all its counts do, but for
those that `Countable` asks about. -/
theorem countsFit_table_iff {d : GlyphDefinition} (h : d.table.Fits) :
    d.table.CountsFit ↔ d.Countable := by
  obtain ⟨-, next, -, hnull⟩ := OffsetsFit.link? h
  have hcaretLink : OffsetsFit d.table.size next (.link? (.near .caretList)
    (if d.carets.isEmpty then none else some (caretListTable d.carets)) _) := hnull
  obtain ⟨hcaretsFit, -⟩ := hcaretLink.link?
  have hcarets : ∀ c, (if d.carets.isEmpty then none else some (caretListTable d.carets)) = some c →
      c.CountsFit := fun c hc => by
    have hfits := (hcaretsFit c hc).2
    split at hc
    · cases hc
    · cases hc
      exact countsFit_caretListTable hfits
  have hsets : (if d.filterSets.isEmpty then .done
      else .link (.near .markGlyphSets) (filterSetsTable d.filterSets) .done : Table).CountsFit ↔
      d.filterSets.length ≤ 0xFFFF := by
    split
    · next hempty => simp [List.isEmpty_iff.1 hempty, CountsFit]
    · exact (and_iff_left trivial).trans countsFit_filterSetsTable
  have hroles : d.roles.isEmpty = (d.roles.map Role.code).isEmpty := by
    simp [ByGlyph.isEmpty, ByGlyph.map]
  exact countsFit_link?.trans <| and_congr (countsFit_classes hroles) <|
    (countsFit_link? (l := .near .caretList)).trans <| (and_iff_right hcarets).trans <|
    countsFit_link?.trans <| and_congr (countsFit_classes rfl) hsets

end GlyphDefinition
end FontLayout
