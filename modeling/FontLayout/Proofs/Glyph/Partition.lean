import FontLayout.Glyph.Partition
import FontLayout.Proofs.Glyph.Keyed
/-!
# Classes and their numbers

A partition that was built class by class holds disjoint classes, so each glyph that it covers is
in one class, and the class definition gives the glyph the number of that class. All other glyphs
are in class 0.

Numbers are words. A side of a class pair table may have one class more than there are words: a
class for each glyph, and the empty class. So two classes may share a number, and `Reaches` says
of a class and a glyph that the number of the one is the class of the other. As long as numbers
do not run out, this is membership.

Results:
* `Partition.Valid.add`, `Partition.mem_add_iff`: an accepted class joins, and all stay disjoint.
* `Partition.Valid.accepts_iff_forall`: which classes are accepted.
* `Partition.find?_classDef`: the records of the class definition.
* `Partition.classOf_of_mem`, `Partition.classOf_of_not_covered`: the class of a glyph.
* `Partition.reaches_iff_mem`: with numbers to spare, the classes that reach a glyph contain it.
-/
namespace FontLayout
namespace Partition

/-! ## Disjoint classes -/

/-- What holds of a partition that was built class by class: it knows the glyphs of its classes,
and no two classes share one. -/
structure Valid (p : Partition) : Prop where
  covered_iff : ∀ g, p.covered.contains g = true ↔ ∃ s ∈ p.classes, g ∈ s
  eq_of_mem : ∀ s ∈ p.classes, ∀ t ∈ p.classes, ∀ g, g ∈ s → g ∈ t → s = t

variable {p : Partition} {s t : GlyphSet} {g : Glyph}

theorem valid_empty : Valid empty := by
  refine ⟨fun g => ?_, fun s hs => ?_⟩
  · simp [empty, GlyphPages.contains_empty]
  · exact absurd hs Std.TreeSet.not_mem_emptyc

/-- Adding a class either leaves the partition as it is or puts in a class of new glyphs. -/
theorem add_cases (p : Partition) (s : GlyphSet) :
    (p.add s = p ∧ (s ∈ p.classes ∨ p.accepts s = false)) ∨
      (s ∉ p.classes ∧ (∀ g ∈ s, p.covered.contains g = false) ∧
        (p.add s).classes = p.classes.insert s ∧
        (p.add s).covered = p.covered.insert s.members) := by
  by_cases hs : s ∈ p.classes
  · have hc : p.contains s = true := hs
    exact .inl ⟨by rw [add, if_pos hc], .inl hs⟩
  · have hc : p.contains s = false := Bool.eq_false_iff.2 hs
    cases ha : p.accepts s with
    | false =>
      refine .inl ⟨?_, .inr rfl⟩
      simp [add, hc, ha]
    | true =>
      refine .inr ⟨hs, ?_, ?_, ?_⟩
      · exact (accepts_iff.1 ha).resolve_left hs
      · simp [add, hc, ha]
      · simp [add, hc, ha]

theorem mem_classes_insert : t ∈ p.classes.insert s ↔ t = s ∨ t ∈ p.classes := by
  rw [Std.TreeSet.mem_insert, Std.LawfulEqCmp.compare_eq_iff_eq, eq_comm]

/-- A class that is added joins exactly if it is accepted. -/
theorem mem_add_iff : t ∈ (p.add s).classes ↔ t ∈ p.classes ∨ (t = s ∧ p.accepts s = true) := by
  obtain ⟨he, hs | hs⟩ | ⟨-, hnew, hclasses, -⟩ := add_cases p s
  · rw [he]
    exact (or_iff_left_of_imp fun h => h.1 ▸ hs).symm
  · rw [he, hs]
    simp
  · have ha : p.accepts s = true := accepts_iff.2 (.inr hnew)
    rw [hclasses, mem_classes_insert, or_comm, and_iff_left ha]

theorem mem_add_of_mem (h : t ∈ p.classes) (s : GlyphSet) : t ∈ (p.add s).classes :=
  mem_add_iff.2 (.inl h)

theorem mem_add_self (h : p.accepts s = true) : s ∈ (p.add s).classes :=
  mem_add_iff.2 (.inr ⟨rfl, h⟩)

theorem mem_of_mem_add (h : t ∈ (p.add s).classes) : t = s ∨ t ∈ p.classes :=
  (mem_add_iff.1 h).symm.imp_left And.left

theorem Valid.add (h : p.Valid) (s : GlyphSet) : (p.add s).Valid := by
  obtain ⟨he, -⟩ | ⟨-, hnew, hclasses, hcovered⟩ := add_cases p s
  · rwa [he]
  · -- a glyph of the new class is in no class of before
    have hdisjoint : ∀ t ∈ p.classes, ∀ g, g ∈ s → g ∉ t := by
      intro t ht g hgs hgt
      have := (h.covered_iff g).2 ⟨t, ht, hgt⟩
      rw [hnew g hgs] at this
      cases this
    refine ⟨fun g => ?_, ?_⟩
    · rw [hcovered, GlyphPages.contains_insert, h.covered_iff, hclasses]
      simp only [mem_classes_insert, or_and_right, exists_or, exists_eq_left, GlyphSet.mem_def]
    · intro a ha b hb g hga hgb
      rw [hclasses, mem_classes_insert] at ha hb
      rcases ha with rfl | ha <;> rcases hb with rfl | hb
      · rfl
      · exact absurd hgb (hdisjoint b hb g hga)
      · exact absurd hga (hdisjoint a ha g hgb)
      · exact h.eq_of_mem a ha b hb g hga hgb

/-- A class is accepted if it is present or shares no glyph with a class that is. -/
theorem Valid.accepts_iff_forall (h : p.Valid) :
    p.accepts s = true ↔ s ∈ p.classes ∨ ∀ t ∈ p.classes, ∀ g ∈ s, g ∉ t := by
  rw [accepts_iff]
  refine or_congr_right ?_
  simp only [← Bool.not_eq_true, h.covered_iff, not_exists, not_and]
  exact ⟨fun hno t ht g hg => hno g hg t ht, fun hno g hg t ht => hno t ht g hg⟩

theorem mem_glyphs : g ∈ p.glyphs ↔ ∃ s ∈ p.classes, g ∈ s := by
  rw [glyphs, GlyphSet.mem_ofList, List.mem_flatMap]
  simp only [Std.TreeSet.mem_toList, GlyphSet.mem_def]

/-! ## Numbers -/

theorem mem_ranked : s ∈ p.ranked ↔ s ∈ p.classes := by
  rw [ranked, (List.mergeSort_perm ..).mem_iff, Std.TreeSet.mem_toList]

theorem length_ranked (p : Partition) : p.ranked.length = p.size := by
  rw [ranked, List.length_mergeSort, Std.TreeSet.length_toList, size]

theorem nodup_ranked (p : Partition) : p.ranked.Nodup :=
  (List.mergeSort_perm ..).nodup_iff.2 (nodup_toList p.classes)

theorem map_fst_numbered (p : Partition) (start : Nat) :
    (p.numbered start).map Prod.fst = p.ranked := by
  rw [numbered, List.map_map]
  exact List.zipIdx_map_fst start p.ranked

/-- A class has a number exactly if it is at the place that the number stands for. -/
theorem mem_numbered {start : Nat} {n : UInt16} :
    (s, n) ∈ p.numbered start ↔
      ∃ i, p.ranked[i]? = some s ∧ UInt16.ofNat (start + i) = n := by
  simp only [numbered, List.mem_map, Prod.mk.injEq, Prod.exists]
  constructor
  · rintro ⟨t, i, hi, rfl, rfl⟩
    obtain ⟨hle, ht⟩ := List.mk_mem_zipIdx_iff_le_and_getElem?_sub.1 hi
    refine ⟨i - start, ht, ?_⟩
    rw [Nat.add_sub_cancel' hle]
  · rintro ⟨i, hi, rfl⟩
    refine ⟨s, start + i, ?_, rfl, rfl⟩
    rw [List.mk_mem_zipIdx_iff_le_and_getElem?_sub]
    exact ⟨by omega, by rwa [Nat.add_sub_cancel_left]⟩

variable {start : Nat} {n m : UInt16}

theorem exists_number (h : s ∈ p.classes) (start : Nat) : ∃ n, (s, n) ∈ p.numbered start := by
  obtain ⟨i, hi⟩ := List.mem_iff_getElem?.1 (mem_ranked.2 h)
  exact ⟨_, mem_numbered.2 ⟨i, hi, rfl⟩⟩

theorem mem_of_number (h : (s, n) ∈ p.numbered start) : s ∈ p.classes := by
  obtain ⟨i, hi, -⟩ := mem_numbered.1 h
  exact mem_ranked.1 (List.mem_of_getElem? hi)

theorem number_lt (h : (s, n) ∈ p.numbered start) : n.toNat < start + p.size := by
  obtain ⟨i, hi, rfl⟩ := mem_numbered.1 h
  have hlt : i < p.ranked.length := (List.getElem?_eq_some_iff.1 hi).1
  have hle : (start + i) % 2 ^ 16 ≤ start + i := Nat.mod_le ..
  rw [length_ranked] at hlt
  rw [UInt16.toNat_ofNat']
  omega

theorem number_unique (h : (s, n) ∈ p.numbered start) (h' : (s, m) ∈ p.numbered start) :
    n = m := by
  obtain ⟨i, hi, rfl⟩ := mem_numbered.1 h
  obtain ⟨j, hj, rfl⟩ := mem_numbered.1 h'
  have hlt : i < p.ranked.length := (List.getElem?_eq_some_iff.1 hi).1
  rw [(List.getElem?_inj hlt p.nodup_ranked).1 (hi.trans hj.symm)]

/-- Different classes have different numbers, if a word can count them all. -/
theorem class_unique (hsize : start + p.size ≤ 65536) (h : (s, n) ∈ p.numbered start)
    (h' : (t, n) ∈ p.numbered start) : s = t := by
  obtain ⟨i, hi, rfl⟩ := mem_numbered.1 h
  obtain ⟨j, hj, hn⟩ := mem_numbered.1 h'
  have hlt : i < p.ranked.length := (List.getElem?_eq_some_iff.1 hi).1
  have hlt' : j < p.ranked.length := (List.getElem?_eq_some_iff.1 hj).1
  have hmod : (start + j) % 2 ^ 16 = (start + i) % 2 ^ 16 := by
    simpa using congrArg UInt16.toNat hn
  rw [length_ranked] at hlt hlt'
  have hij : j = i := by omega
  rw [hij, hi] at hj
  exact Option.some.inj hj

theorem getElem?_numbers :
    (p.numbers start)[s]? = some n ↔ (s, n) ∈ p.numbered start := by
  rw [numbers, getElem?_foldl_insert, Std.TreeMap.getElem?_emptyc, Option.or_none]
  constructor
  · intro h
    obtain ⟨before, after, he, -⟩ := List.lookup_eq_some_iff.1 h
    rw [← List.mem_reverse, he]
    simp
  · intro h
    refine lookup_eq_some_of_unique (List.mem_reverse.2 h) ?_
    exact fun m hm => number_unique (List.mem_reverse.1 hm) h

/-! ## Class definitions -/

/-- The glyphs of numbered classes, each with the number of its class. -/
def recordsOf (ids : List (GlyphSet × UInt16)) : List (Glyph × UInt16) :=
  ids.flatMap fun (s, n) => s.members.map fun g => (g, n)

theorem classDef_eq_ofMap (p : Partition) (start : Nat) :
    p.classDef start = .ofMap (.ofLast (recordsOf (p.numbered start))) := rfl

theorem mem_recordsOf {ids : List (GlyphSet × UInt16)} :
    (g, n) ∈ recordsOf ids ↔ ∃ s, (s, n) ∈ ids ∧ g ∈ s := by
  simp only [recordsOf, List.mem_flatMap, Prod.exists, List.mem_map, Prod.mk.injEq,
    GlyphSet.mem_def]
  constructor
  · rintro ⟨s, _, hs, _, hg, rfl, rfl⟩
    exact ⟨s, hs, hg⟩
  · rintro ⟨s, hs, hg⟩
    exact ⟨s, n, hs, g, hg, rfl, rfl⟩

/-- A glyph is in one class at most, and a class has one number. -/
theorem Valid.record_unique (hv : p.Valid) (hm : (g, m) ∈ recordsOf (p.numbered start))
    (hn : (g, n) ∈ recordsOf (p.numbered start)) : m = n := by
  obtain ⟨s, hs, hgs⟩ := mem_recordsOf.1 hm
  obtain ⟨t, ht, hgt⟩ := mem_recordsOf.1 hn
  rw [hv.eq_of_mem s (mem_of_number hs) t (mem_of_number ht) g hgs hgt] at hs
  exact number_unique hs ht

theorem find?_records (hv : p.Valid) :
    (ByGlyph.ofLast (recordsOf (p.numbered start))).find? g = some n ↔
      ∃ s, (s, n) ∈ p.numbered start ∧ g ∈ s :=
  (ByGlyph.find?_ofLast_eq_some_iff fun _ _ _ => hv.record_unique).trans mem_recordsOf

/-- The record of a glyph in a class definition. -/
theorem find?_classDef (hv : p.Valid) : (p.classDef start).classes.find? g = some n ↔
    n ≠ 0 ∧ ∃ s, (s, n) ∈ p.numbered start ∧ g ∈ s := by
  rw [classDef_eq_ofMap, ClassDef.ofMap, ByGlyph.find?_filter_eq_some_iff, find?_records hv,
    bne_iff_ne, and_comm]

theorem classOf_of_mem (hv : p.Valid) (h : (s, n) ∈ p.numbered start) (hg : g ∈ s) :
    (p.classDef start).classOf g = n := by
  rw [classDef_eq_ofMap, ClassDef.classOf_ofMap, (find?_records hv).2 ⟨s, h, hg⟩, Option.getD_some]

theorem classOf_of_not_covered (h : ∀ s ∈ p.classes, g ∉ s) (start : Nat) :
    (p.classDef start).classOf g = 0 := by
  rw [classDef_eq_ofMap, ClassDef.classOf_ofMap, ByGlyph.find?_ofLast]
  cases hfind : (recordsOf (p.numbered start)).reverse.lookup g with
  | none => rfl
  | some n =>
    obtain ⟨s, hs, hg⟩ := mem_recordsOf.1 (List.mem_reverse.1 (mem_of_lookup hfind))
    exact absurd hg (h s (mem_of_number hs))

/-- Whether the number of a class is the class of a glyph. -/
def Reaches (p : Partition) (start : Nat) (s : GlyphSet) (g : Glyph) : Prop :=
  (s, (p.classDef start).classOf g) ∈ p.numbered start

instance (p : Partition) (start : Nat) (s : GlyphSet) (g : Glyph) :
    Decidable (p.Reaches start s g) :=
  inferInstanceAs (Decidable (_ ∈ p.numbered start))

theorem reaches_of_mem (hv : p.Valid) (hs : s ∈ p.classes) (hg : g ∈ s) : p.Reaches start s g := by
  obtain ⟨n, hn⟩ := exists_number hs start
  rw [Reaches, classOf_of_mem hv hn hg]
  exact hn

theorem reaches_iff_number (h : (s, n) ∈ p.numbered start) :
    p.Reaches start s g ↔ (p.classDef start).classOf g = n := by
  constructor
  · exact fun hr => number_unique hr h
  · rintro rfl
    exact h

/-- If numbers do not run out, a class reaches its own glyphs only. Where numbering starts at 0,
this is said of glyphs in some class: the others are in class 0 as well. -/
theorem reaches_iff_mem (hv : p.Valid) (hsize : start + p.size ≤ 65536) (hs : s ∈ p.classes)
    (hg : start = 0 → ∃ t ∈ p.classes, g ∈ t) : p.Reaches start s g ↔ g ∈ s := by
  refine ⟨fun h => ?_, reaches_of_mem hv hs⟩
  by_cases hc : ∃ t ∈ p.classes, g ∈ t
  · obtain ⟨t, ht, hgt⟩ := hc
    obtain ⟨n, hn⟩ := exists_number ht start
    rw [Reaches, classOf_of_mem hv hn hgt] at h
    rwa [class_unique hsize h hn]
  · have hzero : start ≠ 0 := fun h0 => hc (hg h0)
    have hno : ∀ t ∈ p.classes, g ∉ t := fun t ht hgt => hc ⟨t, ht, hgt⟩
    rw [Reaches, classOf_of_not_covered hno] at h
    -- no class has the number 0 if the first of them has the number 1
    obtain ⟨i, hi, hn⟩ := mem_numbered.1 h
    have hlt : i < p.ranked.length := (List.getElem?_eq_some_iff.1 hi).1
    have hmod : (start + i) % 2 ^ 16 = 0 := by simpa using congrArg UInt16.toNat hn
    rw [length_ranked] at hlt
    omega

end Partition
end FontLayout
