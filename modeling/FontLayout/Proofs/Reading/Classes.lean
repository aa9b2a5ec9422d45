import FontLayout.Proofs.Counts.Tables
/-!
# Classes of any map

A class definition is made from any map of glyphs to classes, up to all glyphs there are. Its size
is that of the smaller form: an array over the glyphs outside class 0, if a word can count them,
or a range for each run of glyphs in one class.

One map cannot be written in either form. If all glyphs are outside class 0 and no two neighbours
are in one class, there are 65536 runs, and a word counts 65535 of them. The ranges are written in
full behind the count of 65535, so the last glyph is read in class 0.

Results:
* `ClassDef.length_ranges_ofMap`: there is a range for each run.
* `ClassDef.lt_length_ranges_iff`: a word cannot count the runs if each glyph ends one.
* `ClassDef.classes_ofMap`: what a reader gets from the definition of any map.
-/
namespace FontLayout

/-! ## Runs -/

/-- The class that a list of classes gives a glyph; a glyph that is not in it is in class 0. -/
def classIn (classes : List (Glyph × UInt16)) (g : Glyph) : UInt16 := (classes.lookup g).getD 0

/-- Whether a glyph is the last of a run of glyphs in one class other than 0. -/
def EndsRun (cls : Glyph → UInt16) (g : Glyph) : Prop :=
  cls g ≠ 0 ∧ (g ≠ 0xFFFF → cls (g + 1) ≠ cls g)

instance (cls : Glyph → UInt16) (g : Glyph) : Decidable (EndsRun cls g) :=
  inferInstanceAs (Decidable (_ ∧ _))

/-- The number of runs of glyphs in one class other than 0. -/
def ByGlyph.runCount (m : ByGlyph UInt16) : Nat :=
  m.keys.members.countP fun g => EndsRun (classIn m.entries) g

/-- Whether the glyphs outside class 0 reach from one to another. -/
structure Spans (cls : Glyph → UInt16) (first last : Glyph) : Prop where
  first_ne : cls first ≠ 0
  last_ne : cls last ≠ 0
  bounds (g : Glyph) (h : cls g ≠ 0) : first ≤ g ∧ g ≤ last

/-- A class other than 0 is in the list. -/
theorem classIn_eq_iff {entries : List (Glyph × UInt16)}
    (h : (entries.map Prod.fst).Pairwise (· < ·)) {g : Glyph} {c : UInt16} (hc : c ≠ 0) :
    classIn entries g = c ↔ (g, c) ∈ entries := by
  rw [classIn, ← ByGlyph.lookup_eq_some_iff h]
  cases entries.lookup g with
  | none => simp [hc.symm]
  | some d => simp

theorem classIn_cons_of_ne {e : Glyph × UInt16} {entries : List (Glyph × UInt16)} {g : Glyph}
    (h : g ≠ e.1) : classIn (e :: entries) g = classIn entries g := by
  have hb : (g == e.1) = false := by simpa using h
  rw [classIn, List.lookup_cons, hb, classIn]

/-- The next glyph of one that is not the last is above it. -/
theorem toNat_succ {g : Glyph} (h : g ≠ 0xFFFF) : (g + 1).toNat = g.toNat + 1 := by
  have hlt := g.toNat_lt
  have hne : g.toNat ≠ 65535 := fun he => h (UInt16.toNat_inj.1 he)
  rw [UInt16.toNat_add]
  simp
  omega

theorem classIn_cons_self (e : Glyph × UInt16) (entries : List (Glyph × UInt16)) :
    classIn (e :: entries) e.1 = e.2 := by
  rw [classIn, List.lookup_cons, beq_self_eq_true]
  rfl

section
variable {e : Glyph × UInt16} {entries : List (Glyph × UInt16)}

/-- The lowest glyph ends no run if the next one comes second and is in its class. -/
theorem endsRun_cons_self_iff (h : ((e :: entries).map Prod.fst).Pairwise (· < ·))
    (hzero : e.2 ≠ 0) : EndsRun (classIn (e :: entries)) e.1 ↔
      ¬ ∃ x ∈ entries.head?, e.1.toNat + 1 = x.1.toNat ∧ e.2 = x.2 := by
  rw [EndsRun, classIn_cons_self, and_iff_right hzero]
  constructor
  · rintro hends ⟨x, hx, hnext, hcls⟩
    have hlast : e.1 ≠ 0xFFFF := by
      intro he
      have := x.1.toNat_lt
      rw [← hnext, he] at this
      exact absurd this (by decide)
    have hx' : x = (e.1 + 1, e.2) :=
      Prod.ext (UInt16.toNat_inj.1 (by rw [toNat_succ hlast, hnext])) hcls.symm
    refine hends hlast ((classIn_eq_iff h hzero).2 (List.mem_cons_of_mem _ ?_))
    exact hx' ▸ List.mem_of_mem_head? hx
  · intro hno hlast hcls
    have hnext := toNat_succ hlast
    rcases List.mem_cons.1 ((classIn_eq_iff h hzero).1 hcls) with he | hm
    · have := congrArg (fun x : Glyph × UInt16 => x.1.toNat) he
      simp only at this
      omega
    · rw [List.map_cons, List.pairwise_cons] at h
      cases entries with
      | nil => cases hm
      | cons x entries =>
        rcases List.mem_cons.1 hm with rfl | hm
        · exact hno ⟨_, rfl, hnext.symm, rfl⟩
        · -- there is no glyph between one and the next
          have hlow := UInt16.lt_iff_toNat_lt.1 (h.1 x.1 List.mem_cons_self)
          have hhigh := UInt16.lt_iff_toNat_lt.1
            ((List.pairwise_cons.1 h.2).1 _ (List.mem_map_of_mem hm))
          simp only at hhigh
          omega

/-- A glyph below others changes nothing for them. -/
theorem endsRun_cons_iff (h : ((e :: entries).map Prod.fst).Pairwise (· < ·))
    {x : Glyph × UInt16} (hx : x ∈ entries) :
    EndsRun (classIn (e :: entries)) x.1 ↔ EndsRun (classIn entries) x.1 := by
  rw [List.map_cons, List.pairwise_cons] at h
  have hlt := UInt16.lt_iff_toNat_lt.1 (h.1 x.1 (List.mem_map_of_mem hx))
  have hne : x.1 ≠ e.1 := fun he => by rw [he] at hlt; omega
  have hsucc (hlast : x.1 ≠ 0xFFFF) : x.1 + 1 ≠ e.1 := fun he => by
    have := toNat_succ hlast
    rw [he] at this
    omega
  rw [EndsRun, EndsRun, classIn_cons_of_ne hne]
  exact and_congr_right' (forall_congr' fun hlast => by rw [classIn_cons_of_ne (hsucc hlast)])

end

namespace ClassDef

/-- The first of the ranges starts with the first entry. -/
theorem head?_foldr_extendRanges (entries : List (Glyph × UInt16)) :
    (entries.foldr extendRanges []).head?.map (fun r => (r.first, r.cls)) = entries.head? := by
  cases entries with
  | nil => rfl
  | cons e entries =>
    rw [List.foldr_cons, extendRanges.eq_def]
    split
    · split
      · next h => simp [← h.2]
      · rfl
    · rfl

/-- A glyph below others has a range of its own, unless the next one comes first and is in its
class. -/
theorem length_foldr_extendRanges_cons (e : Glyph × UInt16) (entries : List (Glyph × UInt16)) :
    ((e :: entries).foldr extendRanges []).length = (entries.foldr extendRanges []).length +
      if ∃ x ∈ entries.head?, e.1.toNat + 1 = x.1.toNat ∧ e.2 = x.2 then 0 else 1 := by
  rw [← head?_foldr_extendRanges, List.foldr_cons]
  cases entries.foldr extendRanges [] with
  | nil => rfl
  | cons r rs =>
    rw [extendRanges]
    split
    · next h => simp [h]
    · next h => simp [h]

/-- There is a range for each glyph that ends a run. The induction goes down from the highest
glyph. -/
theorem length_foldr_extendRanges {entries : List (Glyph × UInt16)}
    (h : (entries.map Prod.fst).Pairwise (· < ·)) (hzero : ∀ e ∈ entries, e.2 ≠ 0) :
    (entries.foldr extendRanges []).length =
      entries.countP fun e => EndsRun (classIn entries) e.1 := by
  induction entries with
  | nil => rfl
  | cons e entries ih =>
    rw [List.forall_mem_cons] at hzero
    have hrest : entries.countP (fun x => EndsRun (classIn (e :: entries)) x.1) =
        entries.countP fun x => EndsRun (classIn entries) x.1 :=
      List.countP_congr fun x hx => by simp [endsRun_cons_iff h hx]
    rw [length_foldr_extendRanges_cons, List.countP_cons, hrest,
      ih (List.pairwise_cons.1 h).2 hzero.2]
    simp only [endsRun_cons_self_iff h hzero.1, decide_eq_true_eq, ite_not]

theorem classIn_ofMap (m : ByGlyph UInt16) :
    classIn (ofMap m).classes.entries = classIn m.entries :=
  funext (classOf_ofMap m)

/-- **Ranges.** The definition of a map has a range for each run. -/
theorem length_ranges_ofMap (m : ByGlyph UInt16) : (ofMap m).ranges.length = m.runCount := by
  rw [ranges, length_foldr_extendRanges (ofMap m).classes.ascending (leavesOutZero_ofMap m),
    classIn_ofMap, ByGlyph.runCount, ByGlyph.keys, List.countP_map]
  refine (List.countP_filter ..).trans (List.countP_congr fun e he => ?_)
  -- a glyph of the map that ends a run is not in class 0
  have hclass : classIn m.entries e.1 = e.2 := by
    rw [classIn, (ByGlyph.lookup_eq_some_iff m.ascending).2 he, Option.getD_some]
  simp only [Function.comp_apply, EndsRun, hclass, Bool.and_eq_true, decide_eq_true_eq, bne_iff_ne]
  tauto

theorem mem_keys_ofMap {m : ByGlyph UInt16} {g : Glyph} :
    g ∈ (ofMap m).classes.keys ↔ classIn m.entries g ≠ 0 := by
  rw [← classIn_ofMap, ByGlyph.mem_keys_iff, Option.isSome_iff_exists]
  constructor
  · rintro ⟨c, hc⟩
    rw [classIn, show (ofMap m).classes.entries.lookup g = some c from hc, Option.getD_some]
    exact leavesOutZero_ofMap m _ (ByGlyph.find?_eq_some_iff.1 hc)
  · intro hne
    exact ⟨_, ByGlyph.find?_eq_some_iff.2 ((classIn_eq_iff (ofMap m).classes.ascending hne).1 rfl)⟩

end ClassDef

/-! ## All glyphs -/

theorem mem_glyphsFrom_all (g : Glyph) : g ∈ glyphsFrom 0 0xFFFF := by
  refine List.mem_map.2 ⟨g.toNat, List.mem_range'_1.2 ⟨Nat.zero_le _, ?_⟩, UInt16.ofNat_toNat⟩
  exact g.toNat_lt

/-- A set of more glyphs than a word can count has all of them. -/
theorem GlyphSet.mem_of_lt_size {s : GlyphSet} (h : 0xFFFF < s.size) (g : Glyph) : g ∈ s := by
  have hsub : s.members.Subperm (glyphsFrom 0 0xFFFF) :=
    List.subperm_of_subset (s.ascending.imp UInt16.ne_of_lt) fun g _ => mem_glyphsFrom_all g
  have hperm := hsub.perm_of_length_le (by rw [length_glyphsFrom]; exact h)
  exact hperm.mem_iff.2 (mem_glyphsFrom_all g)

/-- A word cannot count the ranges of a definition exactly if each glyph ends a run. -/
theorem ClassDef.lt_length_ranges_iff {m : ByGlyph UInt16} :
    0xFFFF < (ofMap m).ranges.length ↔ ∀ g, EndsRun (classIn m.entries) g := by
  rw [length_ranges_ofMap, ByGlyph.runCount]
  constructor
  · intro h g
    have hle : m.keys.members.length ≤ 65536 := m.keys.size_le
    have hcount := List.countP_le_length (l := m.keys.members)
      (p := fun g => decide (EndsRun (classIn m.entries) g))
    have hall := List.countP_eq_length.1 (Nat.le_antisymm hcount (by omega)) g
      (m.keys.mem_of_lt_size (show 0xFFFF < m.keys.members.length by omega) g)
    simpa using hall
  · intro h
    have hkeys : glyphsFrom 0 0xFFFF ⊆ m.keys.members := by
      intro g _
      refine ByGlyph.mem_keys_iff.2 (Option.isSome_iff_ne_none.2 fun hnone => (h g).1 ?_)
      rw [classIn, show m.entries.lookup g = none from hnone, Option.getD_none]
    have hle := (List.subperm_of_subset
      ((ascending_glyphsFrom 0 0xFFFF).imp UInt16.ne_of_lt) hkeys).length_le
    rw [length_glyphsFrom] at hle
    rw [List.countP_eq_length.2 fun g _ => by simpa using h g]
    exact hle

namespace ClassDef

/-! ## Reading -/

theorem length_le_flatMap_entries {rs : List Range} (h : ∀ r ∈ rs, r.first ≤ r.last) :
    rs.length ≤ (rs.flatMap Range.entries).length := by
  induction rs with
  | nil => exact Nat.le_refl 0
  | cons r rs ih =>
    rw [List.forall_mem_cons] at h
    have hle := UInt16.le_iff_toNat_le.1 h.1
    have := ih h.2
    rw [List.flatMap_cons, List.length_append, Range.entries, List.length_map, length_glyphsFrom,
      glyphSpan, List.length_cons]
    omega

/-- If a word cannot count the ranges, those that it counts hold all entries but that of the last
glyph. -/
theorem entries_eq_concat {d : ClassDef} (h : 0xFFFF < d.ranges.length) :
    ∃ c, d.classes.entries = (d.ranges.take 0xFFFF).flatMap Range.entries ++ [(0xFFFF, c)] := by
  obtain ⟨hle, hspan⟩ := entries_ranges d.classes.entries
  rw [← ranges] at hle hspan
  -- no range is empty, and there is an entry for each glyph at most
  have hlow := @length_le_flatMap_entries (d.ranges.take 0xFFFF)
    fun r hr => hle r (List.mem_of_mem_take hr)
  have hhigh := @length_le_flatMap_entries (d.ranges.drop 0xFFFF)
    fun r hr => hle r (List.mem_of_mem_drop hr)
  rw [← List.take_append_drop 0xFFFF d.ranges, List.flatMap_append] at hspan
  generalize (d.ranges.take 0xFFFF).flatMap Range.entries = before at hspan hlow ⊢
  generalize (d.ranges.drop 0xFFFF).flatMap Range.entries = after at hspan hhigh
  have hkeys : d.classes.keys.members = (before ++ after).map Prod.fst := by
    rw [hspan, ByGlyph.keys]
  have hsize := d.classes.keys.size_le
  rw [GlyphSet.size, hkeys, List.length_map, List.length_append] at hsize
  rw [List.length_take] at hlow
  rw [List.length_drop] at hhigh
  obtain ⟨⟨g, c⟩, rfl⟩ := List.length_eq_one_iff.1 (show after.length = 1 by omega)
  refine ⟨c, ?_⟩
  have hlast : d.classes.keys.last? = some g := by
    rw [GlyphSet.last?, hkeys, List.map_append, List.map_singleton, List.getLast?_concat]
  have hmem : 0xFFFF ∈ d.classes.keys := by
    refine GlyphSet.mem_of_lt_size ?_ _
    rw [GlyphSet.size, hkeys, List.length_map, List.length_append, List.length_singleton]
    omega
  have hle := UInt16.le_iff_toNat_le.1 (GlyphSet.le_last hlast hmem)
  have hlt := g.toNat_lt
  have hg : g = 0xFFFF := UInt16.toNat_inj.1 (by simp at hle ⊢; omega)
  rw [← hspan, hg]

/-- The ranges that a word counts give each glyph its class, but for the last glyph if they are
not all. -/
theorem classIn_take_ranges (d : ClassDef) (g : Glyph) :
    classIn ((d.ranges.take 0xFFFF).flatMap Range.entries) g =
      if g = 0xFFFF ∧ 0xFFFF < d.ranges.length then 0 else classIn d.classes.entries g := by
  by_cases h : 0xFFFF < d.ranges.length
  · obtain ⟨c, he⟩ := entries_eq_concat h
    have hnodup := d.classes.nodup_keys
    rw [he, List.map_append, List.map_singleton, List.nodup_append] at hnodup
    split
    · next hg =>
      rw [classIn, List.lookup_eq_none_iff.2 fun x hx => ?_, Option.getD_none]
      rw [bne_iff_ne, hg.1]
      exact (hnodup.2.2 x.1 (List.mem_map_of_mem hx) _ (List.mem_singleton_self _)).symm
    · next hg =>
      have hb : (g == 0xFFFF) = false := by simpa using fun hg' => hg ⟨hg', h⟩
      rw [he, classIn, classIn, List.lookup_append, List.lookup_cons, hb, List.lookup_nil,
        Option.or_none]
  · rw [if_neg fun hg => h hg.2, List.take_of_length_le (Nat.not_lt.1 h), ranges,
      (entries_ranges d.classes.entries).2]

/-- An array gives each glyph its class, the glyphs between the entries class 0. -/
theorem classIn_array {d : ClassDef} (hzero : d.LeavesOutZero) {first last : Glyph}
    (hends : d.ends? = some (first, last)) :
    classIn (((arrayFrom first.toNat d.classes.entries).zipIdx first.toNat).map
      fun x => (UInt16.ofNat x.2, x.1)) = classIn d.classes.entries := by
  have hnext : ∀ e ∈ d.classes.entries, first.toNat ≤ e.1.toNat := fun e he =>
    UInt16.le_iff_toNat_le.1
      (GlyphSet.first_le (ends?_eq_some_iff.1 hends).1 (List.mem_map_of_mem he))
  have hfilter := filter_arrayFrom d.classes.ascending hnext hzero
  have hkeys : (((arrayFrom first.toNat d.classes.entries).zipIdx first.toNat).map
      fun x => (UInt16.ofNat x.2, x.1)).map Prod.fst = glyphsFrom first last := by
    rw [List.map_map, glyphsFrom, ← length_arrayFrom_of_ends hends, ← List.zipIdx_map_snd,
      List.map_map]
    rfl
  generalize ((arrayFrom first.toNat d.classes.entries).zipIdx first.toNat).map
    (fun x => (UInt16.ofNat x.2, x.1)) = array at hfilter hkeys ⊢
  have hascending := hkeys ▸ ascending_glyphsFrom first last
  rw [← hfilter]
  exact (classIn_ofMap ⟨array, hascending⟩).symm

theorem exists_encode (d : ClassDef) : ∃ bytes, d.table.encode = .ok bytes := by
  obtain ⟨first, last, -, -, -, htable⟩ | ⟨-, htable⟩ := d.table_cases
  · rw [htable]
    exact ⟨_, rfl⟩
  · rw [htable]
    exact ⟨_, rfl⟩

/-- Of the ranges, the bytes tell those that a word counts; the others stand behind them. -/
theorem stands_rangesTable {d : ClassDef} {bytes : ByteArray}
    (h : d.rangesTable.encode = .ok bytes) :
    Stands bytes.data.toList bytes.data.toList
      (.word 2 <| .count (d.ranges.take 0xFFFF).length <|
        .words ((d.ranges.take 0xFFFF).flatMap fun r => [r.first, r.last, r.cls]) <|
        .words ((d.ranges.drop 0xFFFF).flatMap fun r => [r.first, r.last, r.cls]) .done) := by
  have hencode (n : Nat) (ws : List UInt16) : (Table.word 2 <| .count n <| .words ws .done).encode =
      .ok (bytesOfBlocks [⟨0, none, [.bytes (pushWord .empty 2),
        .bytes (pushWord .empty (countWord n)), .bytes (bytesOfWords ws)]⟩]) := rfl
  have hcount : countWord d.ranges.length = countWord (d.ranges.take 0xFFFF).length := by
    rw [List.length_take, countWord, countWord]
    congr 1
    omega
  rw [rangesTable, hencode, hcount, ← hencode] at h
  have hstands := Table.stands_of_encode h ⟨by rw [List.length_take]; omega, trivial⟩
  rw [← List.take_append_drop 0xFFFF d.ranges, List.flatMap_append] at hstands
  obtain ⟨more, hbytes, w, more', hmore, hw, hs⟩ := hstands
  exact ⟨more, hbytes, w, more', hmore, by simpa using hw, hs.of_words_append⟩

/-- What a reader gets from a class definition. -/
theorem read_table {d : ClassDef} (hzero : d.LeavesOutZero) {bytes : ByteArray}
    (h : d.table.encode = .ok bytes) :
    ∃ classes, Reader.allClasses.read bytes.data.toList = some classes ∧
      ∀ g, classIn classes g =
        if g = 0xFFFF ∧ 0xFFFF < d.ranges.length then 0 else classIn d.classes.entries g := by
  obtain ⟨first, last, hends, hspan, -, htable⟩ | ⟨-, htable⟩ := d.table_cases
  · have hle : d.ranges.length ≤ 0xFFFF := by
      have := d.length_ranges_le
      have := size_le_of_ends hends
      omega
    have hstands := Table.stands_of_encode h (d.countsFit_table_iff.2 hle)
    rw [htable] at hstands
    refine ⟨_, (d.yields_array first).read_eq hstands, fun g => ?_⟩
    rw [if_neg (by omega), classIn_array hzero hends]
  · rw [htable] at h
    exact ⟨_, (yields_ranges _ _).read_eq (stands_rangesTable h), d.classIn_take_ranges⟩

/-- Which form a class definition has. -/
theorem read_form {d : ClassDef} {first last : Glyph} (hends : d.ends? = some (first, last))
    {bytes : ByteArray} (h : d.table.encode = .ok bytes) :
    Reader.word.read bytes.data.toList = some
      (if glyphSpan first last ≤ 65535 ∧ 6 + 2 * glyphSpan first last ≤ rangesSize d.ranges.length
        then 1 else 2) := by
  obtain ⟨f, l, he, hspan, hle, htable⟩ | ⟨hlt, htable⟩ := d.table_cases
  · rw [hends] at he
    cases he
    have hranges : d.ranges.length ≤ 0xFFFF := by
      have := d.length_ranges_le
      have := size_le_of_ends hends
      omega
    have hstands := Table.stands_of_encode h (d.countsFit_table_iff.2 hranges)
    rw [htable] at hstands
    rw [if_pos ⟨hspan, hle⟩]
    exact (Reads.word 1).yields.read_eq hstands
  · rw [htable] at h
    rw [if_neg fun hboth => absurd hboth.2 (Nat.not_le.2 (hlt first last hends hboth.1))]
    exact (Reads.word 2).yields.read_eq (stands_rangesTable h)

theorem ends?_ofMap {m : ByGlyph UInt16} {first last : Glyph}
    (h : Spans (classIn m.entries) first last) : (ofMap m).ends? = some (first, last) := by
  obtain ⟨f, l, hf, hl⟩ := GlyphSet.exists_ends (mem_keys_ofMap.2 h.first_ne)
  have hfirst := (h.bounds f (mem_keys_ofMap.1 (List.mem_of_head? hf))).1
  have hlast := (h.bounds l (mem_keys_ofMap.1 (List.mem_of_getLast? hl))).2
  have hf' := GlyphSet.first_le hf (mem_keys_ofMap.2 h.first_ne)
  have hl' := GlyphSet.le_last hl (mem_keys_ofMap.2 h.last_ne)
  rw [ends?_eq_some_iff, hf, hl, UInt16.le_antisymm hfirst hf', UInt16.le_antisymm hl' hlast]
  exact ⟨rfl, rfl⟩

/-- **Classes of any map.** What is written for a map is read as a definition that gives each glyph
its class, and class 0 to glyphs that have none, but for the last glyph if each glyph ends a run:
it is read in another class then. The definition is an array exactly if a word can count the
glyphs from the first to the last outside class 0 and the array is no larger than a range for each
run; so it has the size of the smaller form, if a word can count them. -/
theorem classes_ofMap (m : ByGlyph UInt16) :
    ∃ bytes, (ofMap m).table.encode = .ok bytes ∧
      (∃ classes, Reader.allClasses.read bytes.data.toList = some classes ∧
        ∀ g, classIn classes g = classIn m.entries g ↔
          (g = 0xFFFF → ¬ ∀ h, EndsRun (classIn m.entries) h)) ∧
      ∀ first last, Spans (classIn m.entries) first last →
        let array := 6 + 2 * glyphSpan first last
        let byRange := 4 + 6 * m.runCount
        Reader.word.read bytes.data.toList =
            some (if glyphSpan first last ≤ 65535 ∧ array ≤ byRange then 1 else 2) ∧
          (glyphSpan first last ≤ 65535 → bytes.size = min array byRange) := by
  obtain ⟨bytes, hbytes⟩ := exists_encode (ofMap m)
  obtain ⟨classes, hread, hclasses⟩ := read_table (leavesOutZero_ofMap m) hbytes
  refine ⟨bytes, hbytes, ⟨classes, hread, fun g => ?_⟩, fun first last hspans => ?_⟩
  · rw [hclasses, ← lt_length_ranges_iff, classIn_ofMap]
    by_cases hlost : g = 0xFFFF ∧ 0xFFFF < (ofMap m).ranges.length
    · rw [if_pos hlost]
      exact iff_of_false (lt_length_ranges_iff.1 hlost.2 g).1.symm fun hno => hno hlost.1 hlost.2
    · rw [if_neg hlost]
      exact iff_of_true rfl (not_and.1 hlost)
  · have hends := ends?_ofMap hspans
    have hform := read_form hends hbytes
    rw [length_ranges_ofMap, rangesSize] at hform
    refine ⟨hform, fun hspan => ?_⟩
    rw [Table.size_encode hbytes, total_table, hends, sizeBound, Option.bind_some,
      arraySize?_eq_some_iff.2 ⟨hspan, rfl⟩, length_ranges_ofMap, rangesSize]

/-! ## A map that cannot be written -/

/-- All even glyphs in class 1, all odd ones in class 3, as for bases and marks in turn. -/
def alternating : ByGlyph UInt16 where
  entries := (glyphsFrom 0 0xFFFF).map fun g => (g, if g.toNat % 2 = 0 then 1 else 3)
  ascending := List.pairwise_map.2 (List.pairwise_map.2 (ascending_glyphsFrom 0 0xFFFF))

theorem classIn_alternating (g : Glyph) :
    classIn alternating.entries g = if g.toNat % 2 = 0 then 1 else 3 := by
  refine (classIn_eq_iff alternating.ascending ?_).2 (List.mem_map_of_mem (mem_glyphsFrom_all g))
  split <;> decide

theorem endsRun_alternating (g : Glyph) : EndsRun (classIn alternating.entries) g := by
  rw [EndsRun, classIn_alternating, classIn_alternating]
  refine ⟨by split <;> decide, fun hlast => ?_⟩
  have hparity : (g + 1).toNat % 2 = 0 ↔ ¬ g.toNat % 2 = 0 := by
    rw [toNat_succ hlast]
    omega
  by_cases hg : g.toNat % 2 = 0
  · rw [if_pos hg, if_neg (mt hparity.1 (not_not.2 hg))]
    decide
  · rw [if_neg hg, if_pos (hparity.2 hg)]
    decide

/-- The last glyph is in class 3, and is read in class 0. -/
theorem classes_alternating : ∃ bytes classes, (ofMap alternating).table.encode = .ok bytes ∧
    Reader.allClasses.read bytes.data.toList = some classes ∧
    classIn alternating.entries 0xFFFF = 3 ∧ classIn classes 0xFFFF = 0 := by
  obtain ⟨bytes, hbytes⟩ := exists_encode (ofMap alternating)
  obtain ⟨classes, hread, hclasses⟩ := read_table (leavesOutZero_ofMap alternating) hbytes
  refine ⟨bytes, classes, hbytes, hread, ?_, ?_⟩
  · rw [classIn_alternating]
    decide
  · rw [hclasses, if_pos ⟨rfl, lt_length_ranges_iff.2 endsRun_alternating⟩]

end ClassDef
end FontLayout
