import FontLayout.Proofs.Binary.Sizes
import FontLayout.Proofs.Glyph.Counts
import FontLayout.Proofs.Glyph.Partition
/-!
# How large the classes of a partition are

A partition keeps count of the glyphs of its classes and of the stretch that they cover. Both are
right for a partition that was built class by class, so the size that it predicts for its class
definition bounds what is written, which leaves out the glyphs of class 0.

Results:
* `Partition.Measured.add`: the count and the stretch stay right when a class is added.
* `Partition.size_glyphs_le`, `Partition.total_classDef_le`: the bounds that follow.
* `Partition.sizeBound_add`, `Partition.size_add`: what is predicted for one more class.
-/
namespace FontLayout
namespace Partition

/-! ## Counts and ends -/

/-- What holds of the count and the ends of a partition that was built class by class. -/
structure Measured (p : Partition) : Prop where
  count_eq : p.count = (p.classes.toList.map GlyphSet.size).sum
  ends_bound : ∀ s ∈ p.classes, ∀ g ∈ s, ∃ first last, p.ends = some (first, last) ∧
    first ≤ g ∧ g ≤ last

variable {p : Partition} {s : GlyphSet} {g : Glyph}

theorem measured_empty : Measured empty := by
  refine ⟨rfl, ?_⟩
  intro s hs
  exact absurd hs Std.TreeSet.not_mem_emptyc

theorem min_le_both (a b : Glyph) : min a b ≤ a ∧ min a b ≤ b := by
  have hmin : min a b = if a ≤ b then a else b := rfl
  rw [hmin]
  split
  · next h => exact ⟨UInt16.le_refl a, h⟩
  · next h => exact ⟨UInt16.le_of_lt (UInt16.not_le.1 h), UInt16.le_refl b⟩

theorem both_le_max (a b : Glyph) : a ≤ max a b ∧ b ≤ max a b := by
  have hmax : max a b = if a ≤ b then b else a := rfl
  rw [hmax]
  split
  · next h => exact ⟨h, UInt16.le_refl b⟩
  · next h => exact ⟨UInt16.le_refl a, UInt16.le_of_lt (UInt16.not_le.1 h)⟩

/-- The ends after a class is added: those of the class, joined with those of before. -/
theorem endsWith_of_mem (hg : g ∈ s) : ∃ first last, p.endsWith s = some (first, last) ∧
    (∀ g ∈ s, first ≤ g ∧ g ≤ last) ∧
    ∀ f l, p.ends = some (f, l) → first ≤ f ∧ l ≤ last := by
  obtain ⟨f', l', hf, hl⟩ := GlyphSet.exists_ends hg
  rw [endsWith, hf, hl]
  cases hends : p.ends with
  | none =>
    refine ⟨f', l', rfl, fun g hg => ⟨GlyphSet.first_le hf hg, GlyphSet.le_last hl hg⟩, ?_⟩
    intro f l he
    cases he
  | some ends =>
    obtain ⟨f, l⟩ := ends
    refine ⟨min f f', max l l', rfl, fun g hg => ⟨?_, ?_⟩, ?_⟩
    · exact UInt16.le_trans (min_le_both f f').2 (GlyphSet.first_le hf hg)
    · exact UInt16.le_trans (GlyphSet.le_last hl hg) (both_le_max l l').2
    · rintro _ _ ⟨⟩
      exact ⟨(min_le_both f f').1, (both_le_max l l').1⟩

theorem endsWith_of_empty (hs : s.isEmpty = true) : p.endsWith s = p.ends := by
  have hnil : s.members = [] := List.isEmpty_iff.1 hs
  rw [endsWith, GlyphSet.first?, hnil]
  rfl

theorem add_of_contains (hs : p.contains s = true) : p.add s = p := by
  simp [add, hs]

theorem add_of_accepts (hs : p.contains s = false) (ha : p.accepts s = true) :
    p.add s = ⟨p.classes.insert s, p.covered.insert s.members, p.count + s.size, p.endsWith s⟩ := by
  simp [add, hs, ha]

theorem add_of_refused (hs : p.contains s = false) (ha : p.accepts s = false) : p.add s = p := by
  simp [add, hs, ha]

/-- The count and the stretch stay right when a class is added. -/
theorem Measured.add (h : p.Measured) (s : GlyphSet) : (p.add s).Measured := by
  cases hs : p.contains s with
  | true => rwa [add_of_contains hs]
  | false =>
    cases ha : p.accepts s with
    | false => rwa [add_of_refused hs ha]
    | true =>
      rw [add_of_accepts hs ha]
      refine ⟨?_, fun t ht g hg => ?_⟩
      · have hnew : s ∉ p.classes := Bool.eq_false_iff.1 hs
        have hperm := Std.TreeSet.toList_insert_perm (t := p.classes) (k := s)
        rw [if_neg hnew] at hperm
        rw [(hperm.map GlyphSet.size).sum_nat, List.map_cons, List.sum_cons, ← h.count_eq,
          Nat.add_comm]
      · rcases mem_classes_insert.1 ht with rfl | ht
        · obtain ⟨first, last, he, hbound, -⟩ := endsWith_of_mem (p := p) hg
          exact ⟨first, last, he, hbound g hg⟩
        · obtain ⟨f, l, hends, hf, hl⟩ := h.ends_bound t ht g hg
          cases hempty : s.isEmpty with
          | true => exact ⟨f, l, by rw [endsWith_of_empty hempty, hends], hf, hl⟩
          | false =>
            have hne : s.members ≠ [] := by simpa [GlyphSet.isEmpty] using hempty
            obtain ⟨g', hg'⟩ := List.exists_mem_of_ne_nil _ hne
            obtain ⟨first, last, he, -, hwider⟩ := endsWith_of_mem (p := p) (s := s) hg'
            obtain ⟨hfirst, hlast⟩ := hwider f l hends
            exact ⟨first, last, he, UInt16.le_trans hfirst hf, UInt16.le_trans hl hlast⟩

/-! ## Bounds -/

/-- The partition covers as many glyphs as it counts, at most. -/
theorem size_glyphs_le (h : p.Measured) : p.glyphs.size ≤ p.count := by
  have hsub : p.glyphs.members.Subperm (p.classes.toList.flatMap GlyphSet.members) := by
    refine List.subperm_of_subset (p.glyphs.ascending.imp UInt16.ne_of_lt) fun g hg => ?_
    exact GlyphSet.mem_ofList.1 hg
  rw [GlyphSet.size, h.count_eq]
  refine Nat.le_trans hsub.length_le ?_
  rw [List.length_flatMap]
  exact Nat.le_refl _

theorem sum_ranked (p : Partition) :
    (p.ranked.map GlyphSet.size).sum = (p.classes.toList.map GlyphSet.size).sum :=
  ((List.mergeSort_perm ..).map GlyphSet.size).sum_nat

/-- The glyphs that the class definition mentions, with their classes. -/
theorem entries_classDef_subperm (p : Partition) (start : Nat) :
    (p.classDef start).classes.entries.Subperm (recordsOf (p.numbered start)) :=
  List.filter_sublist.subperm.trans (ByGlyph.subperm_entries_ofLast _)

theorem size_classDef_le (h : p.Measured) (start : Nat) :
    (p.classDef start).classes.size ≤ p.count := by
  have hlength := (p.entries_classDef_subperm start).length_le
  rw [recordsOf, List.length_flatMap] at hlength
  simp only [List.length_map] at hlength
  have hsum : ((p.numbered start).map fun c => c.1.members.length).sum =
      (p.ranked.map GlyphSet.size).sum := by
    rw [← p.map_fst_numbered start, List.map_map]
    rfl
  rw [hsum, sum_ranked, ← h.count_eq] at hlength
  exact hlength

theorem mem_class_of_mem_classDef {start : Nat}
    (h : g ∈ (p.classDef start).classes.keys) : ∃ s ∈ p.classes, g ∈ s := by
  obtain ⟨e, he, rfl⟩ := List.mem_map.1 h
  obtain ⟨s, hs, hg⟩ := mem_recordsOf.1 ((p.entries_classDef_subperm start).subset he)
  exact ⟨s, mem_of_number hs, hg⟩

/-- The class definition is no larger than what the partition predicts. -/
theorem total_classDef_le (h : p.Measured) (start : Nat) :
    (p.classDef start).table.total ≤ p.sizeBound := by
  rw [ClassDef.total_table, sizeBound]
  refine ClassDef.sizeBound_mono ?_ fun f' l' hends => ?_
  · exact Nat.le_trans (ClassDef.length_ranges_le _) (p.size_classDef_le h start)
  · cases he : (p.classDef start).ends? with
    | none =>
      -- without a first glyph there is none, and so there is no range
      refine .inl ?_
      have hempty : (p.classDef start).classes.entries = [] := by
        cases hentries : (p.classDef start).classes.entries with
        | nil => rfl
        | cons e es =>
          have hm : e.1 ∈ (p.classDef start).classes.keys := by
            refine List.mem_map_of_mem ?_
            rw [hentries]
            exact List.mem_cons_self
          obtain ⟨first, last, hf, hl⟩ := GlyphSet.exists_ends hm
          rw [ClassDef.ends?_eq_some_iff.2 ⟨hf, hl⟩] at he
          cases he
      rw [ClassDef.ranges, hempty]
      rfl
    | some ends =>
      obtain ⟨first, last⟩ := ends
      obtain ⟨hfirst, hlast⟩ := ClassDef.ends?_eq_some_iff.1 he
      refine .inr ⟨first, last, rfl, ?_, ?_⟩
      · obtain ⟨s, hs, hg⟩ := mem_class_of_mem_classDef (List.mem_of_head? hfirst)
        obtain ⟨f, l, hends', hle, -⟩ := h.ends_bound s hs first hg
        rw [hends] at hends'
        cases hends'
        exact hle
      · obtain ⟨s, hs, hg⟩ := mem_class_of_mem_classDef (List.mem_of_getLast? hlast)
        obtain ⟨f, l, hends', -, hle⟩ := h.ends_bound s hs last hg
        rw [hends] at hends'
        cases hends'
        exact hle

/-! ## One more class -/

theorem sizeBound_add (h : p.accepts s = true) : p.sizeBoundWith s = (p.add s).sizeBound := by
  rw [sizeBoundWith]
  cases hs : p.contains s with
  | true => rw [add_of_contains hs, Bool.true_or, if_pos rfl]
  | false =>
    rw [add_of_accepts hs h, Bool.false_or, sizeBound, sizeBound]
    split
    · next hempty =>
      have hzero : s.size = 0 := by simpa [GlyphSet.size, GlyphSet.isEmpty] using hempty
      rw [endsWith_of_empty hempty, hzero, Nat.add_zero]
    · rfl

theorem size_add (h : p.accepts s = true) :
    (p.add s).size = p.size + if p.contains s then 0 else 1 := by
  cases hs : p.contains s with
  | true => rw [add_of_contains hs]; rfl
  | false =>
    have hnew : ¬ p.classes.contains s = true := Bool.eq_false_iff.1 hs
    rw [add_of_accepts hs h, size, size, Std.TreeSet.size_insert, if_neg hnew]
    rfl

theorem count_add (h : p.accepts s = true) :
    (p.add s).count = p.count + if p.contains s then 0 else s.size := by
  cases hs : p.contains s with
  | true => rw [add_of_contains hs]; rfl
  | false => rw [add_of_accepts hs h]; rfl

end Partition
end FontLayout
