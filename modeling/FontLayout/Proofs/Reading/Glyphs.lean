import FontLayout.Proofs.Binary.Sizes
import FontLayout.Proofs.Reading.Readers
import Mathlib.Data.List.Nodup
import Mathlib.Data.List.Perm.Subperm
/-!
# Reading coverage tables and class definitions

Both come as a list or as ranges. Either way a reader gets back the glyphs, with their numbers or
with their classes: ranges are maximal runs, and what they span is what they were made from.

Results:
* `Coverage.yields_table`: the glyphs of a set, each with its place in the set.
* `ClassDef.yields_table`: the glyphs outside class 0, each with its class.
-/
namespace FontLayout

/-! ## Readers -/

/-- The glyphs from one to another. -/
def glyphsFrom (first last : Glyph) : List Glyph :=
  (List.range' first.toNat (glyphSpan first last)).map UInt16.ofNat

namespace Reader

/-- Reads a range of glyphs and what goes with it. -/
def range {α : Type} (r : Reader α) : Reader (Glyph × Glyph × α) := do
  let first ← word
  let last ← word
  let x ← r
  return (first, last, x)

/-- Reads a coverage table: its glyphs, each with its number. -/
def coverage : Reader (List (Glyph × Nat)) := do
  match ← word with
  | 1 => return (← counted word).zipIdx
  | 2 =>
    let ranges ← counted (range number)
    return ranges.flatMap fun r => (glyphsFrom r.1 r.2.1).zipIdx r.2.2
  | _ => fail

/-- Reads the classes of a class definition, those of class 0 as well. -/
def allClasses : Reader (List (Glyph × UInt16)) := do
  match ← word with
  | 1 =>
    let first ← number
    let classes ← counted word
    return (classes.zipIdx first).map fun x => (UInt16.ofNat x.2, x.1)
  | 2 =>
    let ranges ← counted (range word)
    return ranges.flatMap fun r => (glyphsFrom r.1 r.2.1).map (·, r.2.2)
  | _ => fail

/-- Reads a class definition: the glyphs that are not in class 0, each with its class. -/
def classes : Reader (List (Glyph × UInt16)) := do
  return (← allClasses).filter (·.2 != 0)

end Reader

theorem Reads.range {α : Type} {r : Reader α} {ws : List UInt16} {x : α}
    (h : Reads r (Table.words ws) x) (first last : Glyph) :
    Reads (Reader.range r) (Table.words (first :: last :: ws)) (first, last, x) :=
  .cons (.cons (.map _ h))

/-! ## Ranges -/

theorem length_glyphsFrom (first last : Glyph) :
    (glyphsFrom first last).length = glyphSpan first last := by
  rw [glyphsFrom, List.length_map, List.length_range']

/-- A word tells numbers below 65536 apart, and keeps their order. -/
theorem ascending_map_ofNat {first n : Nat} (h : first + n ≤ 65536) :
    ((List.range' first n).map UInt16.ofNat).Pairwise (· < ·) := by
  refine List.pairwise_map.2 <|
    List.Pairwise.imp_of_mem (fun hi hj hlt => ?_) List.pairwise_lt_range'
  have hi := List.mem_range'_1.1 hi
  have hj := List.mem_range'_1.1 hj
  rw [UInt16.lt_iff_toNat_lt, UInt16.toNat_ofNat', UInt16.toNat_ofNat']
  omega

theorem ascending_glyphsFrom (first last : Glyph) : (glyphsFrom first last).Pairwise (· < ·) := by
  have hfirst := first.toNat_lt
  have hlast := last.toNat_lt
  exact ascending_map_ofNat (by rw [glyphSpan]; omega)

theorem glyphsFrom_self (g : Glyph) : glyphsFrom g g = [g] := by
  have hone : glyphSpan g g = 1 := by
    rw [glyphSpan]
    omega
  rw [glyphsFrom, hone, List.range'_one, List.map_singleton, UInt16.ofNat_toNat]

/-- A range that starts one lower has one more glyph. -/
theorem glyphsFrom_of_succ {g first last : Glyph} (hg : g.toNat + 1 = first.toNat)
    (hle : first ≤ last) : glyphsFrom g last = g :: glyphsFrom first last := by
  have hspan : glyphSpan g last = glyphSpan first last + 1 := by
    rw [UInt16.le_iff_toNat_le] at hle
    rw [glyphSpan, glyphSpan]
    omega
  rw [glyphsFrom, glyphsFrom, hspan, List.range'_succ, List.map_cons, UInt16.ofNat_toNat, hg]

theorem GlyphSet.size_le (s : GlyphSet) : s.size ≤ 65536 := by
  have hnodup : (s.members.map UInt16.toNat).Nodup :=
    (s.ascending.imp fun h => UInt16.ne_of_lt h).map _ fun _ _ h =>
      fun he => h (UInt16.toNat_inj.1 he)
  have hsub : s.members.map UInt16.toNat ⊆ List.range 65536 := by
    intro n hn
    obtain ⟨g, -, rfl⟩ := List.mem_map.1 hn
    exact List.mem_range.2 g.toNat_lt
  have hle := hnodup.length_le_of_subset hsub
  rwa [List.length_map, List.length_range] at hle

/-! ## Coverage tables -/

/-- No range is empty, and together they span what they were made from. -/
theorem span_rangesOf (gs : List Glyph) : (∀ r ∈ rangesOf gs, r.1 ≤ r.2) ∧
    (rangesOf gs).flatMap (fun r => glyphsFrom r.1 r.2) = gs := by
  induction gs with
  | nil => simp [rangesOf]
  | cons g gs ih =>
    obtain ⟨hle, hspan⟩ := ih
    rw [GlyphSet.ranges_cons, extendRanges.eq_def]
    have hself : g ≤ g := UInt16.le_refl g
    split
    · next first last rest he =>
      rw [he, List.forall_mem_cons] at hle
      rw [he, List.flatMap_cons] at hspan
      split
      · next hg =>
        have hfirst : first ≤ last := hle.1
        have hlow : g ≤ last := by
          rw [UInt16.le_iff_toNat_le] at hfirst ⊢
          omega
        refine ⟨List.forall_mem_cons.2 ⟨hlow, hle.2⟩, ?_⟩
        rw [List.flatMap_cons, glyphsFrom_of_succ hg hle.1, List.cons_append, hspan]
      · refine ⟨List.forall_mem_cons.2 ⟨hself, List.forall_mem_cons.2 hle⟩, ?_⟩
        rw [List.flatMap_cons, List.flatMap_cons, glyphsFrom_self, hspan, List.singleton_append]
    · next he =>
      rw [he] at hspan
      refine ⟨List.forall_mem_singleton.2 hself, ?_⟩
      rw [List.flatMap_singleton, glyphsFrom_self, ← hspan, List.flatMap_nil]

namespace Coverage

/-- The number of the first glyph of each range, if numbering starts at `n`. -/
def startsFrom : Nat → List (Glyph × Glyph) → List Nat
  | _, [] => []
  | n, r :: ranges => n :: startsFrom (n + glyphSpan r.1 r.2) ranges

theorem startNumbers_eq (ranges : List (Glyph × Glyph)) :
    startNumbers ranges = startsFrom 0 ranges := by
  suffices ∀ acc n, (ranges.foldl (fun (s : List Nat × Nat) r =>
      (s.2 :: s.1, s.2 + glyphSpan r.1 r.2)) (acc, n)).1.reverse =
        acc.reverse ++ startsFrom n ranges from this [] 0
  induction ranges with
  | nil => simp [startsFrom]
  | cons r ranges ih =>
    intro acc n
    rw [List.foldl_cons, ih, List.reverse_cons, List.append_assoc, List.singleton_append,
      startsFrom]

/-- A range starts before the last of the glyphs that the ranges span. -/
theorem lt_of_mem_startsFrom {n k : Nat} {ranges : List (Glyph × Glyph)}
    (hle : ∀ r ∈ ranges, r.1 ≤ r.2) (hk : k ∈ startsFrom n ranges) :
    k < n + (ranges.flatMap fun r => glyphsFrom r.1 r.2).length := by
  induction ranges generalizing n with
  | nil => cases hk
  | cons r ranges ih =>
    rw [List.forall_mem_cons, UInt16.le_iff_toNat_le] at hle
    rw [List.flatMap_cons, List.length_append, length_glyphsFrom]
    rcases List.mem_cons.1 hk with rfl | hk
    · rw [glyphSpan]
      omega
    · have := ih hle.2 hk
      omega

/-- Ranges number the glyphs that they span one after another. -/
theorem flatMap_zip_startsFrom (ranges : List (Glyph × Glyph)) (n : Nat) :
    ((ranges.zip (startsFrom n ranges)).flatMap fun r => (glyphsFrom r.1.1 r.1.2).zipIdx r.2) =
      (ranges.flatMap fun r => glyphsFrom r.1 r.2).zipIdx n := by
  induction ranges generalizing n with
  | nil => rfl
  | cons r ranges ih =>
    rw [startsFrom, List.zip_cons_cons, List.flatMap_cons, ih, List.flatMap_cons,
      List.zipIdx_append, length_glyphsFrom]

/-- **Coverage.** The glyphs of a set, each with its place in the set. -/
theorem yields_table (s : GlyphSet) : Yields Reader.coverage (table s) s.members.zipIdx := by
  rw [table]
  split
  · -- the start numbers are places of members, so a word holds them
    obtain ⟨hle, hspan⟩ := span_rangesOf s.members
    have hstart : ∀ r ∈ s.ranges.zip (startNumbers s.ranges), (countWord r.2).toNat = r.2 := by
      intro r hr
      have hk : r.2 ∈ startsFrom 0 (rangesOf s.members) := by
        rw [← startNumbers_eq]
        exact (List.of_mem_zip hr).2
      have hlt := lt_of_mem_startsFrom hle hk
      have hsize : s.members.length ≤ 65536 := s.size_le
      rw [hspan] at hlt
      exact countWord_of_le (by omega)
    have hranges : Reads (Reader.times (s.ranges.zip (startNumbers s.ranges)).length
        (Reader.range Reader.number)) (Table.words (rangeWords s.ranges))
        ((s.ranges.zip (startNumbers s.ranges)).map fun r => (r.1.1, r.1.2, r.2)) := by
      refine .flatMap fun r hr => ?_
      have hnumber := Reads.number (countWord r.2)
      rw [hstart r hr] at hnumber
      exact .range hnumber r.1.1 r.1.2
    have hlength : (s.ranges.zip (startNumbers s.ranges)).length = s.ranges.length := by
      rw [List.length_zip, length_startNumbers, Nat.min_self]
    rw [hlength] at hranges
    have hresult : s.members.zipIdx = ((s.ranges.zip (startNumbers s.ranges)).map
        fun r => (r.1.1, r.1.2, r.2)).flatMap
          fun r => (glyphsFrom r.1 r.2.1).zipIdx r.2.2 := by
      rw [List.flatMap_map, startNumbers_eq, flatMap_zip_startsFrom, GlyphSet.ranges, hspan]
    rw [hresult]
    exact .bind (.word 2) (.counted hranges (.pure _ _))
  · exact .bind (.word 1) (.bind (.countedWords _) (.pure _ _))

end Coverage

/-! ## Class definitions -/

namespace ClassDef

/-- Whether a definition leaves class 0 out. -/
def LeavesOutZero (d : ClassDef) : Prop := ∀ e ∈ d.classes.entries, e.2 ≠ 0

theorem leavesOutZero_ofMap (m : ByGlyph UInt16) : (ofMap m).LeavesOutZero := by
  intro e he
  have hne := (List.mem_filter.1 he).2
  simpa using hne

/-- The glyphs of a range, each with the class. -/
def Range.entries (r : Range) : List (Glyph × UInt16) :=
  (glyphsFrom r.first r.last).map (·, r.cls)

theorem Range.entries_self (g : Glyph) (c : UInt16) : Range.entries ⟨g, g, c⟩ = [(g, c)] := by
  rw [entries, glyphsFrom_self, List.map_singleton]

/-- No range is empty, and together they hold the entries that they were made from. -/
theorem entries_ranges (entries : List (Glyph × UInt16)) :
    (∀ r ∈ entries.foldr extendRanges [], r.first ≤ r.last) ∧
      (entries.foldr extendRanges []).flatMap Range.entries = entries := by
  induction entries with
  | nil => simp
  | cons e entries ih =>
    obtain ⟨hle, hspan⟩ := ih
    have hself : e.1 ≤ e.1 := UInt16.le_refl e.1
    rw [List.foldr_cons, extendRanges.eq_def]
    split
    · next r rest he =>
      rw [he, List.forall_mem_cons] at hle
      rw [he, List.flatMap_cons] at hspan
      split
      · next hg =>
        have hlow : e.1 ≤ r.last := by
          have := hle.1
          rw [UInt16.le_iff_toNat_le] at this ⊢
          omega
        refine ⟨List.forall_mem_cons.2 ⟨hlow, hle.2⟩, ?_⟩
        rw [List.flatMap_cons, Range.entries, glyphsFrom_of_succ hg.1 hle.1, List.map_cons,
          ← hg.2, List.cons_append]
        rw [Range.entries, ← hg.2] at hspan
        rw [hspan]
      · refine ⟨List.forall_mem_cons.2 ⟨hself, List.forall_mem_cons.2 hle⟩, ?_⟩
        rw [List.flatMap_cons, List.flatMap_cons, Range.entries_self, hspan, List.singleton_append]
    · next he =>
      rw [he] at hspan
      refine ⟨List.forall_mem_singleton.2 hself, ?_⟩
      rw [List.flatMap_singleton, Range.entries_self, ← hspan, List.flatMap_nil]

/-- The numbers of an array are those of the glyphs from the first on; between the entries there
is class 0. -/
theorem filter_arrayFrom {next : Nat} {entries : List (Glyph × UInt16)}
    (h : (entries.map Prod.fst).Pairwise (· < ·)) (hnext : ∀ e ∈ entries, next ≤ e.1.toNat)
    (hzero : ∀ e ∈ entries, e.2 ≠ 0) :
    (((arrayFrom next entries).zipIdx next).map fun x => (UInt16.ofNat x.2, x.1)).filter
      (·.2 != 0) = entries := by
  induction entries generalizing next with
  | nil => rfl
  | cons e entries ih =>
    rw [List.map_cons, List.pairwise_cons] at h
    rw [List.forall_mem_cons] at hnext hzero
    have habove : ∀ x ∈ entries, e.1.toNat + 1 ≤ x.1.toNat := fun x hx =>
      UInt16.lt_iff_toNat_lt.1 (h.1 x.1 (List.mem_map_of_mem hx))
    have hplace : next + (e.1.toNat - next) = e.1.toNat := by omega
    have hgap : (((List.replicate (e.1.toNat - next) (0 : UInt16)).zipIdx next).map
        fun x => (UInt16.ofNat x.2, x.1)).filter (·.2 != 0) = [] := by
      rw [List.filter_eq_nil_iff]
      intro x hx
      obtain ⟨y, hy, rfl⟩ := List.mem_map.1 hx
      have hc : y.1 = 0 := (List.mem_replicate.1 (List.fst_mem_of_mem_zipIdx hy)).2
      simp [hc]
    rw [arrayFrom_cons, List.append_assoc, List.zipIdx_append, List.map_append, List.filter_append,
      hgap, List.nil_append, List.singleton_append, List.length_replicate, hplace,
      List.zipIdx_cons, List.map_cons, List.filter_cons_of_pos (by simpa using hzero.1),
      ih h.2 habove hzero.2, UInt16.ofNat_toNat]

/-- An array is read as the classes of the glyphs from the first on. -/
theorem yields_array (d : ClassDef) (first : Glyph) :
    Yields Reader.allClasses (d.arrayTable first)
      (((arrayFrom first.toNat d.classes.entries).zipIdx first.toNat).map
        fun x => (UInt16.ofNat x.2, x.1)) :=
  .bind (.word 1) <| .bind (.map UInt16.toNat (.word first)) <|
    .bind (.countedWords _) (.pure _ .done)

/-- As many ranges are read as are counted, whatever follows them. -/
theorem yields_ranges (rs : List Range) (rest : Table) :
    Yields Reader.allClasses
      (.word 2 <| .count rs.length <| .words (rs.flatMap fun r => [r.first, r.last, r.cls]) rest)
      (rs.flatMap Range.entries) := by
  have hread : Reads (Reader.times rs.length (Reader.range Reader.word))
      (Table.words (rs.flatMap fun r => [r.first, r.last, r.cls]))
      (rs.map fun r => (r.first, r.last, r.cls)) :=
    .flatMap fun r _ => .range (.single r.cls) r.first r.last
  have hall : Yields Reader.allClasses _ _ := .bind (.word 2) (.counted hread (.pure _ rest))
  rwa [List.flatMap_map] at hall

/-- **Class definitions.** The glyphs that are not in class 0, each with its class. -/
theorem yields_table {d : ClassDef} (h : d.LeavesOutZero) :
    Yields Reader.classes d.table d.classes.entries := by
  obtain ⟨first, last, hends, -, -, htable⟩ | ⟨-, htable⟩ := d.table_cases
  · have hfirst := (ends?_eq_some_iff.1 hends).1
    have hnext : ∀ e ∈ d.classes.entries, first.toNat ≤ e.1.toNat := fun e he =>
      UInt16.le_iff_toNat_le.1 (GlyphSet.first_le hfirst (List.mem_map_of_mem he))
    have harray := (d.yields_array first).map (List.filter (·.2 != 0))
    rwa [filter_arrayFrom d.classes.ascending hnext h, ← htable] at harray
  · have hsame : d.classes.entries.filter (·.2 != 0) = d.classes.entries :=
      List.filter_eq_self.2 fun e he => by simpa using h e he
    have hranges := (yields_ranges d.ranges .done).map (List.filter (·.2 != 0))
    rwa [ranges, (entries_ranges d.classes.entries).2, hsame, ← ranges, ← rangesTable,
      ← htable] at hranges

end ClassDef
end FontLayout
