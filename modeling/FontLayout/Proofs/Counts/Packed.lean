import FontLayout.Proofs.Counts.Subtables
import FontLayout.Proofs.Packing.Sizes
/-!
# Counts of packed subtables

What packing guarantees beyond the shape of a subtable. The matrix of class pairs has a row for
each first class. Its rows may take up no bytes, but the first classes do: all of them but one
have glyphs, so their definition has about as many ranges, and it stands before another table.

Results:
* `Partition.length_le_ranges`: a class definition has a range for each class with glyphs.
* `Packing.bound_of_packed`: the counts of packed subtables are bound to their bytes.
-/
namespace FontLayout

namespace Partition
variable {p : Partition}

/-- A class with glyphs has a range, unless its number is zero. -/
theorem mem_classes_ranges (hv : p.Valid) {i : Nat} {s : GlyphSet} (hs : p.ranked[i]? = some s)
    (hne : s.isEmpty = false) (hzero : UInt16.ofNat i ≠ 0) :
    UInt16.ofNat i ∈ (p.classDef 0).ranges.map ClassDef.Range.cls := by
  obtain ⟨g, hg⟩ := Packing.exists_mem_of_isEmpty hne
  have hnumber : (s, UInt16.ofNat i) ∈ p.numbered 0 := mem_numbered.2 ⟨i, hs, by rw [Nat.zero_add]⟩
  have hentry : (g, UInt16.ofNat i) ∈ (p.classDef 0).classes.entries :=
    ByGlyph.find?_eq_some_iff.1 ((find?_classDef hv).2 ⟨hzero, s, hnumber, hg⟩)
  rw [← (ClassDef.entries_ranges (p.classDef 0).classes.entries).2] at hentry
  obtain ⟨r, hr, hg⟩ := List.mem_flatMap.1 hentry
  obtain ⟨g', -, he⟩ := List.mem_map.1 hg
  exact List.mem_map.2 ⟨r, hr, congrArg Prod.snd he⟩

/-- A class definition has a range for each class with glyphs, as far as a word tells their
numbers apart. -/
theorem length_le_ranges (hv : p.Valid) {first n : Nat} (hfirst : 0 < first)
    (hlast : first + n ≤ 65536)
    (h : ∀ i, first ≤ i → i < first + n → ∃ s, p.ranked[i]? = some s ∧ s.isEmpty = false) :
    n ≤ (p.classDef 0).ranges.length := by
  have hsub : (List.range' first n).map UInt16.ofNat ⊆
      (p.classDef 0).ranges.map ClassDef.Range.cls := by
    intro c hc
    obtain ⟨i, hi, rfl⟩ := List.mem_map.1 hc
    have hi := List.mem_range'_1.1 hi
    obtain ⟨s, hs, hne⟩ := h i hi.1 hi.2
    refine mem_classes_ranges hv hs hne fun hzero => ?_
    have hword : i % 65536 = 0 := by simpa using congrArg UInt16.toNat hzero
    omega
  have hnodup : ((List.range' first n).map UInt16.ofNat).Nodup :=
    (ascending_map_ofNat hlast).imp UInt16.ne_of_lt
  have hle := hnodup.length_le_of_subset hsub
  rwa [List.length_map, List.length_range', List.length_map] at hle

/-- No two classes are without glyphs. -/
theorem eq_of_isEmpty {i j : Nat} {s t : GlyphSet} (hs : p.ranked[i]? = some s)
    (ht : p.ranked[j]? = some t) (hs' : s.isEmpty = true) (ht' : t.isEmpty = true) : i = j := by
  have he : s = t := GlyphSet.ext_members
    ((List.isEmpty_iff.1 hs').trans (List.isEmpty_iff.1 ht').symm)
  have hlt : i < p.ranked.length := (List.getElem?_eq_some_iff.1 hs).1
  exact (List.getElem?_inj hlt p.nodup_ranked).1 (hs.trans (he ▸ ht.symm))

/-- Of more classes than a word can tell apart, one half at least has glyphs throughout. -/
theorem exists_half_with_glyphs (h : 65536 ≤ p.size) : ∃ first, 0 < first ∧
    first + 32767 ≤ 65536 ∧ ∀ i, first ≤ i → i < first + 32767 →
      ∃ s, p.ranked[i]? = some s ∧ s.isEmpty = false := by
  obtain ⟨k, hk⟩ : ∃ k, ∀ (i : Nat) (s : GlyphSet), p.ranked[i]? = some s → i ≠ k →
      s.isEmpty = false := by
    by_cases hempty : ∃ (k : Nat) (t : GlyphSet), p.ranked[k]? = some t ∧ t.isEmpty = true
    · obtain ⟨k, t, ht, ht'⟩ := hempty
      refine ⟨k, fun i s hs hne => Bool.eq_false_iff.2 fun hs' => ?_⟩
      exact hne (eq_of_isEmpty hs ht hs' ht')
    · exact ⟨0, fun i s hs _ => Bool.eq_false_iff.2 fun hs' => hempty ⟨i, s, hs, hs'⟩⟩
  have hglyphs : ∀ i, i < 65536 → i ≠ k → ∃ s, p.ranked[i]? = some s ∧ s.isEmpty = false := by
    intro i hi hne
    rw [← length_ranked] at h
    have hs := List.getElem?_eq_getElem (Nat.lt_of_lt_of_le hi h)
    exact ⟨_, hs, hk i _ hs hne⟩
  by_cases hlow : k < 32768
  · exact ⟨32768, by omega, by omega, fun i hle hlt => hglyphs i (by omega) (by omega)⟩
  · exact ⟨1, by omega, by omega, fun i hle hlt => hglyphs i (by omega) (by omega)⟩

/-- If a word can measure the class definition of a partition, it can count the classes. -/
theorem size_le_of_total (hv : p.Valid) (h : (p.classDef 0).table.total ≤ 0xFFFF) :
    p.size ≤ 0xFFFF := by
  by_contra hsize
  obtain ⟨first, hfirst, hlast, hglyphs⟩ := exists_half_with_glyphs (p := p) (by omega)
  have hranges := length_le_ranges hv hfirst hlast hglyphs
  have htotal := (p.classDef 0).length_ranges_le_total
  omega

end Partition

namespace Packing

theorem bound_classPairsOf (ps : List ClassPair) :
    (Subtable.classPairs (classPairsOf ps)).Bound := by
  intro h
  have hrows : (classPairsOf ps).rowCount = (sidePartition (ps.map ClassPair.first)).size := by
    rw [ClassPairs.rowCount, classPairsOf, List.length_map, List.length_range]
  rw [hrows]
  exact Partition.size_le_of_total (valid_sidePartition _) h

theorem bound_chainSubtable (places : LookupPlaces) (c : ChainContext) :
    (Subtable.chain (chainSubtable places c)).Bound := by
  intro h
  have hinput : c.input = [] := List.map_eq_nil_iff.1 h
  rw [chainSubtable, lookupRecords, hinput]
  rfl

/-- The counts of packed subtables are bound to their bytes. -/
theorem bound_of_packed {kind : Kind} {rules : List Rule} {marks : Option MarkSet}
    {places : LookupPlaces} {budget : Budget} {s : Subtable}
    (h : s ∈ (packLookup kind rules marks places budget).subtables) : s.Bound := by
  rw [subtables_packLookup] at h
  obtain ⟨run, -, rfl⟩ := List.mem_map.1 h
  cases kind with
  | pairPos =>
    match run with
    | [] => trivial
    | .glyphs .. :: _ => trivial
    | .classes .. :: _ => exact bound_classPairsOf _
  | chainSub | chainPos => exact bound_chainSubtable places _
  | _ => trivial

end Packing
end FontLayout
