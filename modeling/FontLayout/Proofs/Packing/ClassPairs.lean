import FontLayout.Packing.Lookup
import FontLayout.Proofs.Glyph.Partition
import FontLayout.Proofs.Lookup.Distinct
import FontLayout.Proofs.Packing.Runs
/-!
# Pairs of classes in one subtable

A subtable of class pairs has a matrix with a row for each first class and a column for each
second class. Pairs are put into it in the order of their rules, and a pair replaces another one of
the same two classes. So of the rules that a subtable holds for two glyphs, the last one counts.

Rules with the same key never reach the packing, but the key of a rule tells a glyph from the set
of this glyph alone, and a class does not. So two rules for the same two classes differ in how a
side is written.

Results:
* `holds_of_grown`: what each pair preserves holds of every run of pairs.
* `grown_pairs`: a run of class pairs is never refused one of its classes.
* `record?_classPairsOf`: the record of two glyphs is that of the last pair that takes them.
* `record?_subtable`: the coverage, the classes and the records of a packed subtable.
-/
namespace FontLayout
namespace Packing

/-! ## The classes of one side -/

/-- Whether no class of a list is refused: each is in the partition at the end. -/
def Accepted (classes : List GlyphSet) : Prop :=
  ∀ s ∈ classes, s ∈ (sidePartition classes).classes

variable {classes : List GlyphSet} {s : GlyphSet}

theorem sidePartition_concat :
    sidePartition (classes ++ [s]) = (sidePartition classes).add s := by
  rw [sidePartition, List.foldl_append]
  rfl

/-- What each class preserves holds of the classes of one side. -/
theorem sidePartition_induction {P : Partition → Prop} (hempty : P .empty)
    (hadd : ∀ p s, P p → P (p.add s)) (classes : List GlyphSet) : P (sidePartition classes) :=
  List.foldlRecOn classes Partition.add hempty fun p hp s _ => hadd p s hp

theorem valid_sidePartition (classes : List GlyphSet) : (sidePartition classes).Valid :=
  sidePartition_induction Partition.valid_empty (fun _ s h => h.add s) classes

theorem mem_of_mem_sidePartition (h : s ∈ (sidePartition classes).classes) : s ∈ classes := by
  suffices ∀ p : Partition, s ∈ (classes.foldl Partition.add p).classes →
      s ∈ classes ∨ s ∈ p.classes from
    (this _ h).resolve_right Std.TreeSet.not_mem_emptyc
  clear h
  induction classes with
  | nil => exact fun _ h => .inr h
  | cons t classes ih =>
    intro p h
    rcases ih _ h with h | h
    · exact .inl (List.mem_cons_of_mem _ h)
    · rcases Partition.mem_of_mem_add h with rfl | h
      · exact .inl List.mem_cons_self
      · exact .inr h

theorem accepted_nil : Accepted [] := by
  intro s hs
  cases hs

theorem Accepted.concat (h : Accepted classes) (ha : (sidePartition classes).accepts s = true) :
    Accepted (classes ++ [s]) := by
  intro t ht
  rw [sidePartition_concat]
  rcases List.mem_append.1 ht with ht | ht
  · exact Partition.mem_add_of_mem (h t ht) s
  · rw [List.mem_singleton.1 ht]
    exact Partition.mem_add_self ha

theorem accepts_empty (s : GlyphSet) : Partition.empty.accepts s = true :=
  Partition.accepts_iff.2 (.inr fun g _ => GlyphPages.contains_empty g)

theorem Accepted.mem_iff (h : Accepted classes) :
    s ∈ (sidePartition classes).classes ↔ s ∈ classes :=
  ⟨mem_of_mem_sidePartition, h s⟩

/-! ## The pairs of a run -/

/-- The item of a pair of classes. -/
def ClassPair.item (p : ClassPair) : PairItem := .classes p.first p.second p.values

/-- Whether pairs can share a subtable: no class of either side is refused. -/
structure Coherent (ps : List ClassPair) : Prop where
  firsts : Accepted (ps.map ClassPair.first)
  seconds : Accepted (ps.map ClassPair.second)

/-- First classes of coherent pairs that share a glyph are the same. -/
theorem Coherent.first_eq {ps : List ClassPair} (h : Coherent ps) {p q : ClassPair} (hp : p ∈ ps)
    (hq : q ∈ ps) {g : Glyph} (hgp : g ∈ p.first) (hgq : g ∈ q.first) : p.first = q.first :=
  (valid_sidePartition _).eq_of_mem _ (h.firsts _ (List.mem_map_of_mem hp)) _
    (h.firsts _ (List.mem_map_of_mem hq)) g hgp hgq

/-- Second classes of coherent pairs that share a glyph are the same. -/
theorem Coherent.second_eq {ps : List ClassPair} (h : Coherent ps) {p q : ClassPair} (hp : p ∈ ps)
    (hq : q ∈ ps) {g : Glyph} (hgp : g ∈ p.second) (hgq : g ∈ q.second) : p.second = q.second :=
  (valid_sidePartition _).eq_of_mem _ (h.seconds _ (List.mem_map_of_mem hp)) _
    (h.seconds _ (List.mem_map_of_mem hq)) g hgp hgq

/-- The gauge of class pairs, after some of them, holds the partitions of their sides. -/
structure Gauged (ps : List ClassPair) (load : ClassPairLoad) : Prop where
  firsts : load.firsts = sidePartition (ps.map ClassPair.first)
  seconds : load.seconds = sidePartition (ps.map ClassPair.second)

variable {ps : List ClassPair} {load : ClassPairLoad}

theorem Gauged.add (h : Gauged ps load) (p : ClassPair) :
    Gauged (ps ++ [p]) (load.add p.first p.second p.values) := by
  refine ⟨?_, ?_⟩
  · rw [List.map_append, List.map_singleton, sidePartition_concat, ← h.firsts]
    rfl
  · rw [List.map_append, List.map_singleton, sidePartition_concat, ← h.seconds]
    rfl

theorem Coherent.add (h : Coherent ps) (hl : Gauged ps load) {p : ClassPair}
    (hfirst : load.firsts.accepts p.first = true)
    (hsecond : load.seconds.accepts p.second = true) : Coherent (ps ++ [p]) := by
  rw [hl.firsts] at hfirst
  rw [hl.seconds] at hsecond
  refine ⟨?_, ?_⟩
  · simpa using h.firsts.concat hfirst
  · simpa using h.seconds.concat hsecond

/-- A pair of classes that the gauge gives a size is refused on neither side. -/
theorem accepts_of_fit {first second : GlyphSet} {v : PairValues} {n : Nat}
    (h : load.fit first second v = .size n) :
    load.firsts.accepts first = true ∧ load.seconds.accepts second = true := by
  unfold ClassPairLoad.fit at h
  split at h
  · next ha => rwa [Bool.and_eq_true] at ha
  · cases h

/-! ## Runs of pairs -/

section
variable {ofGlyphs : List PairItem → GlyphPairLoad → Prop}
  {ofClasses : List ClassPair → ClassPairLoad → Prop} {budget : Budget} {items : List PairItem}
  {state : PairLoad}

/-- What is known of a run of pairs: one property if it starts with a pair of glyphs, and another
if it has pairs of classes only. -/
def Holds (ofGlyphs : List PairItem → GlyphPairLoad → Prop)
    (ofClasses : List ClassPair → ClassPairLoad → Prop) (items : List PairItem) : PairLoad → Prop
  | .unknown => False
  | .glyphs load =>
    (∃ first second v rest, items = .glyphs first second v :: rest) ∧ ofGlyphs items load
  | .classes load => ∃ ps, ps ≠ [] ∧ items = ps.map ClassPair.item ∧ ofClasses ps load

/-- The induction along runs of pairs. No pair of one form joins a run of the other, and a pair of
classes joins only if both are accepted. -/
theorem holds_of_grown (hglyphs : ofGlyphs [] .empty)
    (hglyph : ∀ items load first second v, ofGlyphs items load →
      ofGlyphs (items ++ [.glyphs first second v]) (load.add first second v))
    (hclasses : ofClasses [] .empty)
    (hclass : ∀ ps load (p : ClassPair), ofClasses ps load →
      load.firsts.accepts p.first = true → load.seconds.accepts p.second = true →
      ofClasses (ps ++ [p]) (load.add p.first p.second p.values))
    (h : pairs.toGauge.Grown budget items state) : Holds ofGlyphs ofClasses items state := by
  induction h with
  | start i =>
    cases i with
    | glyphs first second v =>
      exact ⟨⟨first, second, v, [], rfl⟩, hglyph [] _ first second v hglyphs⟩
    | classes first second v =>
      exact ⟨[⟨first, second, v⟩], by simp, rfl, hclass [] _ ⟨first, second, v⟩ hclasses
        (accepts_empty first) (accepts_empty second)⟩
  | @join items state i n _ hfit _ ih =>
    cases state with
    | unknown => exact ih.elim
    | glyphs load =>
      cases i with
      | classes => cases hfit
      | glyphs first second v =>
        obtain ⟨⟨first', second', v', rest, rfl⟩, hall⟩ := ih
        exact ⟨⟨first', second', v', rest ++ [_], rfl⟩, hglyph _ _ first second v hall⟩
    | classes load =>
      cases i with
      | glyphs => cases hfit
      | classes first second v =>
        obtain ⟨ps, -, rfl, hall⟩ := ih
        obtain ⟨hfirst, hsecond⟩ := accepts_of_fit hfit
        exact ⟨ps ++ [⟨first, second, v⟩], by simp, by rw [List.map_append]; rfl,
          hclass ps load ⟨first, second, v⟩ hall hfirst hsecond⟩

/-- A run has pairs of glyphs only, or class pairs only, whose classes are all accepted. -/
theorem grown_pairs (h : pairs.toGauge.Grown budget items state) :
    Holds (fun items _ => ∀ i ∈ items, ∃ first second v, i = .glyphs first second v)
      (fun ps load => Coherent ps ∧ Gauged ps load) items state := by
  refine holds_of_grown (by simp) (fun items _ first second v hall i hi => ?_)
    ⟨⟨accepted_nil, accepted_nil⟩, ⟨rfl, rfl⟩⟩ (fun ps load p hall hfirst hsecond => ?_) h
  · rcases List.mem_append.1 hi with hi | hi
    · exact hall i hi
    · exact ⟨first, second, v, List.mem_singleton.1 hi⟩
  · exact ⟨hall.1.add hall.2 hfirst hsecond, hall.2.add p⟩

end

/-- The runs that the pairs of some rules are cut into. -/
def pairRuns (budget : Budget) (rules : List Rule) : List (List PairItem) :=
  (pairs.cut budget (itemsOf pairItem? rules)).map Run.items

theorem subtables_pairPos {rules : List Rule} {marks : Option MarkSet} {places : LookupPlaces}
    (budget : Budget) :
    (packLookup .pairPos rules marks places budget).subtables =
      (pairRuns budget rules).map pairSubtable := by
  rw [pairRuns, List.map_map]
  rfl

theorem flatten_pairRuns {rules : List Rule} (budget : Budget) :
    (pairRuns budget rules).flatten = rules.filterMap fun r => pairItem? r.body :=
  flatten_cut _ budget

theorem classPairItems_map (ps : List ClassPair) : classPairItems (ps.map ClassPair.item) = ps := by
  simp [classPairItems, ClassPair.item, Function.comp_def]

theorem pairSubtable_map (h : ps ≠ []) :
    pairSubtable (ps.map ClassPair.item) = .classPairs (classPairsOf ps) := by
  cases ps with
  | nil => exact absurd rfl h
  | cons p ps =>
    have hitems := classPairItems_map (p :: ps)
    rw [List.map_cons, ClassPair.item] at hitems ⊢
    rw [pairSubtable, hitems]

/-- A run that becomes a subtable of class pairs holds nothing else. -/
theorem classPairs_of_run {budget : Budget} {rules : List Rule} {run : List PairItem}
    (hr : run ∈ pairRuns budget rules) {c : ClassPairs} (hc : pairSubtable run = .classPairs c) :
    run = (classPairItems run).map ClassPair.item ∧ Coherent (classPairItems run) ∧
      c = classPairsOf (classPairItems run) := by
  obtain ⟨r, hmem, rfl⟩ := List.mem_map.1 hr
  obtain ⟨state, hgrown⟩ := Gauge.grown_of_mem_cut hmem
  have hg := grown_pairs hgrown
  cases state with
  | unknown => exact hg.elim
  | glyphs =>
    obtain ⟨⟨first, second, v, rest, he⟩, -⟩ := hg
    rw [he] at hc
    cases hc
  | classes =>
    obtain ⟨ps, hne, he, hcoh, -⟩ := hg
    rw [he, pairSubtable_map hne] at hc
    rw [he, classPairItems_map]
    exact ⟨rfl, hcoh, (Subtable.classPairs.inj hc).symm⟩

/-! ## The matrix -/

/-- The cell that a pair is put in, counted row by row. -/
def cell? (rows columns : Std.TreeMap GlyphSet UInt16) (width : Nat) (p : ClassPair) :
    Option Nat :=
  rows[p.first]?.bind fun row => columns[p.second]?.map fun column =>
    row.toNat * width + column.toNat

section
variable (rows columns : Std.TreeMap GlyphSet UInt16) (width : Nat)

theorem getElem?_classPairCells_concat (ps : List ClassPair) (p : ClassPair) (k : Nat) :
    (classPairCells rows columns width (ps ++ [p]))[k]? =
      if cell? rows columns width p = some k then some p.values
      else (classPairCells rows columns width ps)[k]? := by
  rw [classPairCells, List.foldl_append, ← classPairCells, List.foldl_cons, List.foldl_nil, cell?]
  cases rows[p.first]? with
  | none => rfl
  | some row =>
    cases columns[p.second]? with
    | none => rfl
    | some column =>
      simp only [Std.TreeMap.getElem?_insert, Std.LawfulEqCmp.compare_eq_iff_eq,
        Option.bind_some, Option.map_some, Option.some.injEq]

/-- A cell holds what the last of the pairs says that are put in it. -/
theorem getElem?_classPairCells (ps : List ClassPair) (k : Nat) :
    (classPairCells rows columns width ps)[k]? =
      (ps.reverse.find? fun p => cell? rows columns width p = some k).map ClassPair.values := by
  suffices ∀ qs : List ClassPair, (classPairCells rows columns width qs.reverse)[k]? =
      (qs.find? fun p => cell? rows columns width p = some k).map ClassPair.values by
    rw [← this, List.reverse_reverse]
  intro qs
  induction qs with
  | nil => rfl
  | cons q qs ih =>
    rw [List.reverse_cons, getElem?_classPairCells_concat, ih, List.find?_cons]
    by_cases h : cell? rows columns width q = some k
    · simp [h]
    · simp [h]

end

theorem find?_congr {α : Type} {xs : List α} {f f' : α → Bool} (h : ∀ x ∈ xs, f x = f' x) :
    xs.find? f = xs.find? f' := by
  induction xs with
  | nil => rfl
  | cons x xs ih =>
    rw [List.forall_mem_cons] at h
    rw [List.find?_cons, List.find?_cons, h.1, ih h.2]

/-- Where one element at most passes a test, it does not matter from which end it is searched. -/
theorem find?_reverse_of_pairwise {α : Type} {xs : List α} {f : α → Bool}
    (h : xs.Pairwise fun x y => ¬ (f x = true ∧ f y = true)) : xs.reverse.find? f = xs.find? f := by
  induction xs with
  | nil => rfl
  | cons x xs ih =>
    rw [List.pairwise_cons] at h
    rw [List.reverse_cons, List.find?_append, ih h.2, List.find?_cons, List.find?_cons]
    cases hx : f x with
    | false => simp
    | true =>
      have hnone : xs.find? f = none :=
        List.find?_eq_none.2 fun y hy hf => h.1 y hy ⟨hx, hf⟩
      simp [hnone]

theorem cell_inj {width a b c d : Nat} (hb : b < width) (hd : d < width)
    (h : a * width + b = c * width + d) : a = c ∧ b = d := by
  have ha : (a * width + b) / width = a := by
    rw [Nat.mul_comm, Nat.mul_add_div (by omega), Nat.div_eq_of_lt hb, Nat.add_zero]
  have hc : (c * width + d) / width = c := by
    rw [Nat.mul_comm, Nat.mul_add_div (by omega), Nat.div_eq_of_lt hd, Nat.add_zero]
  have hac : a = c := by rw [← ha, ← hc, h]
  subst hac
  omega

end Packing

/-! ## Reading -/

/-- The record in the row of the class of the first glyph and the column of that of the second. -/
def ClassPairs.record? (c : ClassPairs) (g₁ g₂ : Glyph) : Option PairValues :=
  c.records[(c.firstClasses.classOf g₁).toNat]?.bind (·[(c.secondClasses.classOf g₂).toNat]?)

namespace Packing

/-- The values of a pair that has none. -/
def noValues : PairValues := (.empty, .empty)

/-- Whether a glyph is in one of the first classes. -/
def Names (ps : List ClassPair) (g : Glyph) : Prop := ∃ p ∈ ps, g ∈ p.first

instance (ps : List ClassPair) (g : Glyph) : Decidable (Names ps g) :=
  inferInstanceAs (Decidable (∃ p ∈ ps, g ∈ p.first))

/-- Whether the classes of a pair are those of two glyphs, as classes are numbered if a list of
pairs shares a subtable. -/
def Takes (ps : List ClassPair) (p : ClassPair) (g₁ g₂ : Glyph) : Prop :=
  (sidePartition (ps.map ClassPair.first)).Reaches 0 p.first g₁ ∧
    (sidePartition (ps.map ClassPair.second)).Reaches 1 p.second g₂

instance (ps : List ClassPair) (p : ClassPair) (g₁ g₂ : Glyph) : Decidable (Takes ps p g₁ g₂) :=
  inferInstanceAs (Decidable (_ ∧ _))

/-- What the last pair says that takes two glyphs. -/
def lastValues (ps : List ClassPair) (g₁ g₂ : Glyph) : PairValues :=
  ((ps.reverse.find? fun p => Takes ps p g₁ g₂).map ClassPair.values).getD noValues

/-- What the first pair says whose classes hold two glyphs. -/
def firstValues (ps : List ClassPair) (g₁ g₂ : Glyph) : PairValues :=
  ((ps.find? fun p => g₁ ∈ p.first ∧ g₂ ∈ p.second).map ClassPair.values).getD noValues

/-- Whether words suffice to number the classes of either side. -/
structure Numberable (ps : List ClassPair) : Prop where
  firsts : (sidePartition (ps.map ClassPair.first)).size ≤ 65536
  seconds : (sidePartition (ps.map ClassPair.second)).size < 65536

section
variable {ps : List ClassPair} (h : Coherent ps) {g₁ g₂ : Glyph}

include h

/-- The coverage holds the glyphs of all first classes. -/
theorem mem_coverage {g : Glyph} :
    g ∈ (classPairsOf ps).coverage ↔ Names ps g := by
  rw [classPairsOf, Partition.mem_glyphs, Names]
  simp only [h.firsts.mem_iff, List.mem_map]
  constructor
  · rintro ⟨_, ⟨p, hp, rfl⟩, hg⟩
    exact ⟨p, hp, hg⟩
  · rintro ⟨p, hp, hg⟩
    exact ⟨_, ⟨p, hp, rfl⟩, hg⟩

/-- The classes of a pair have numbers, within the bounds of the matrix. -/
theorem exists_numbers {p : ClassPair} (hp : p ∈ ps) :
    ∃ row column,
      (p.first, row) ∈ (sidePartition (ps.map ClassPair.first)).numbered 0 ∧
      (p.second, column) ∈ (sidePartition (ps.map ClassPair.second)).numbered 1 := by
  obtain ⟨row, hrow⟩ := Partition.exists_number (h.firsts _ (List.mem_map_of_mem hp)) 0
  obtain ⟨column, hcolumn⟩ := Partition.exists_number (h.seconds _ (List.mem_map_of_mem hp)) 1
  exact ⟨row, column, hrow, hcolumn⟩

/-- A first glyph of the coverage has the number of a row. -/
theorem firstClass_lt (hg : Names ps g₁) :
    ((classPairsOf ps).firstClasses.classOf g₁).toNat <
      (sidePartition (ps.map ClassPair.first)).size := by
  obtain ⟨p, hp, hg⟩ := hg
  obtain ⟨row, _, hrow, -⟩ := exists_numbers h hp
  have hlt := Partition.number_lt hrow
  rw [Nat.zero_add] at hlt
  rwa [classPairsOf, Partition.classOf_of_mem (valid_sidePartition _) hrow hg]

omit h in
/-- Every second glyph has the number of a column. -/
theorem secondClass_lt :
    ((classPairsOf ps).secondClasses.classOf g₂).toNat <
      (sidePartition (ps.map ClassPair.second)).size + 1 := by
  rw [classPairsOf]
  by_cases hg : ∃ s ∈ (sidePartition (ps.map ClassPair.second)).classes, g₂ ∈ s
  · obtain ⟨s, hs, hg⟩ := hg
    obtain ⟨column, hcolumn⟩ := Partition.exists_number hs 1
    rw [Partition.classOf_of_mem (valid_sidePartition _) hcolumn hg, Nat.add_comm]
    exact Partition.number_lt hcolumn
  · rw [Partition.classOf_of_not_covered fun s hs hm => hg ⟨s, hs, hm⟩]
    exact Nat.succ_pos _

/-- A pair takes two glyphs exactly if it is put in their cell. -/
theorem cell?_eq_iff_takes {p : ClassPair} (hp : p ∈ ps) :
    cell? ((sidePartition (ps.map ClassPair.first)).numbers 0)
        ((sidePartition (ps.map ClassPair.second)).numbers 1)
        ((sidePartition (ps.map ClassPair.second)).size + 1) p =
      some (((classPairsOf ps).firstClasses.classOf g₁).toNat *
          ((sidePartition (ps.map ClassPair.second)).size + 1) +
        ((classPairsOf ps).secondClasses.classOf g₂).toNat) ↔
      Takes ps p g₁ g₂ := by
  obtain ⟨row, column, hrow, hcolumn⟩ := exists_numbers h hp
  have hlt := Partition.number_lt hcolumn
  rw [Takes, Partition.reaches_iff_number hrow, Partition.reaches_iff_number hcolumn, cell?,
    Partition.getElem?_numbers.2 hrow, Partition.getElem?_numbers.2 hcolumn, Option.bind_some,
    Option.map_some, Option.some.injEq]
  constructor
  · intro he
    obtain ⟨hr, hc⟩ := cell_inj (by omega) secondClass_lt he
    exact ⟨(UInt16.toNat_inj.1 hr).symm, (UInt16.toNat_inj.1 hc).symm⟩
  · rintro ⟨rfl, rfl⟩
    rfl

/-- The record of two glyphs is what the last pair says that takes them. -/
theorem record?_classPairsOf (hg : Names ps g₁) :
    (classPairsOf ps).record? g₁ g₂ = some (lastValues ps g₁ g₂) := by
  have hrow := firstClass_lt h hg
  have hcolumn := @secondClass_lt ps g₂
  have hfind : (ps.reverse.find? fun p =>
      cell? ((sidePartition (ps.map ClassPair.first)).numbers 0)
          ((sidePartition (ps.map ClassPair.second)).numbers 1)
          ((sidePartition (ps.map ClassPair.second)).size + 1) p =
        some (((classPairsOf ps).firstClasses.classOf g₁).toNat *
            ((sidePartition (ps.map ClassPair.second)).size + 1) +
          ((classPairsOf ps).secondClasses.classOf g₂).toNat)) =
      ps.reverse.find? fun p => Takes ps p g₁ g₂ :=
    find?_congr fun p hp => decide_eq_decide.2 (cell?_eq_iff_takes h (List.mem_reverse.1 hp))
  rw [ClassPairs.record?, lastValues, ← hfind, ← getElem?_classPairCells]
  simp only [classPairsOf] at hrow hcolumn ⊢
  rw [List.getElem?_map, List.getElem?_range hrow, Option.map_some, Option.bind_some,
    List.getElem?_map, List.getElem?_range hcolumn, Option.map_some,
    Std.TreeMap.getD_eq_getD_getElem?]
  rfl

/-- If numbers do not run out, the pairs that take two glyphs are those whose classes hold them. -/
theorem takes_iff_mem (hn : Numberable ps) {p : ClassPair} (hp : p ∈ ps)
    (hg : Names ps g₁) : Takes ps p g₁ g₂ ↔ g₁ ∈ p.first ∧ g₂ ∈ p.second := by
  obtain ⟨q, hq, hgq⟩ := hg
  have hcovered : ∃ t ∈ (sidePartition (ps.map ClassPair.first)).classes, g₁ ∈ t :=
    ⟨_, h.firsts _ (List.mem_map_of_mem hq), hgq⟩
  have hfirsts := hn.firsts
  have hseconds := hn.seconds
  rw [Takes,
    Partition.reaches_iff_mem (valid_sidePartition _) (by omega)
      (h.firsts _ (List.mem_map_of_mem hp)) fun _ => hcovered,
    Partition.reaches_iff_mem (valid_sidePartition _) (by omega)
      (h.seconds _ (List.mem_map_of_mem hp)) fun h => absurd h (by decide)]

theorem lastValues_of_mem (hn : Numberable ps) (hg : Names ps g₁) :
    lastValues ps g₁ g₂ =
      ((ps.reverse.find? fun p => g₁ ∈ p.first ∧ g₂ ∈ p.second).map ClassPair.values).getD
        noValues := by
  have htakes : (ps.reverse.find? fun p => Takes ps p g₁ g₂) =
      ps.reverse.find? fun p => g₁ ∈ p.first ∧ g₂ ∈ p.second :=
    find?_congr fun p hp => decide_eq_decide.2 (takes_iff_mem h hn (List.mem_reverse.1 hp) hg)
  rw [lastValues, htakes]

/-- If no two pairs have the same classes, no two glyphs are held by two of them. -/
theorem lastValues_eq_firstValues (hn : Numberable ps)
    (hd : ps.Pairwise fun p q => ¬ (p.first = q.first ∧ p.second = q.second))
    (hg : Names ps g₁) : lastValues ps g₁ g₂ = firstValues ps g₁ g₂ := by
  rw [lastValues_of_mem h hn hg, firstValues, find?_reverse_of_pairwise]
  refine hd.imp_of_mem ?_
  intro p q hp hq hne hboth
  simp only [decide_eq_true_eq] at hboth
  obtain ⟨⟨hp₁, hp₂⟩, hq₁, hq₂⟩ := hboth
  exact hne ⟨h.first_eq hp hq hp₁ hq₁, h.second_eq hp hq hp₂ hq₂⟩

end

/-! ## Rules that share their classes -/

/-- Whether rules for the same sets are written alike: no glyph stands in one of them where a set
of it alone stands in the other. -/
def Alike (rules : List Rule) : Prop :=
  ∀ r ∈ rules, ∀ r' ∈ rules, ∀ first v second w first' v' second' w',
    r.body = .pairPos first v second w → r'.body = .pairPos first' v' second' w' →
    first.toSet = first'.toSet → second.toSet = second'.toSet →
    first = first' ∧ second = second'

theorem body_of_classes {body : RuleBody} {p : ClassPair} (h : pairItem? body = some p.item) :
    ∃ first v second w, body = .pairPos first v second w ∧ first.toSet = p.first ∧
      second.toSet = p.second := by
  unfold pairItem? at h
  split at h
  · cases h
  · next first v second w _ =>
    rw [Option.some.injEq, ClassPair.item, PairItem.classes.injEq] at h
    exact ⟨first, v, second, w, rfl, h.1, h.2.1⟩
  · cases h

/-- If rules are written alike, the different keys of rules are different pairs of classes. -/
theorem pairwise_of_alike {rules : List Rule}
    (hk : rules.Pairwise fun r r' => r.body.key ≠ r'.body.key) (ha : Alike rules)
    {budget : Budget} {run : List PairItem} (hr : run ∈ pairRuns budget rules)
    {ps : List ClassPair} (hps : run = ps.map ClassPair.item) :
    ps.Pairwise fun p q => ¬ (p.first = q.first ∧ p.second = q.second) := by
  have hitems : (rules.filterMap fun r => pairItem? r.body).Pairwise fun i j =>
      ∀ p q : ClassPair, i = p.item → j = q.item → ¬ (p.first = q.first ∧ p.second = q.second) := by
    rw [List.pairwise_filterMap]
    refine hk.imp_of_mem ?_
    intro r r' hr hr' hne i hi j hj p q hp hq he
    subst hp hq
    obtain ⟨first, v, second, w, hbody, hf, hs⟩ := body_of_classes hi
    obtain ⟨first', v', second', w', hbody', hf', hs'⟩ := body_of_classes hj
    obtain ⟨rfl, rfl⟩ := ha r hr r' hr' _ _ _ _ _ _ _ _ hbody hbody'
      (by rw [hf, hf', he.1]) (by rw [hs, hs', he.2])
    rw [hbody, hbody'] at hne
    exact hne rfl
  have hrun := hitems.sublist (flatten_pairRuns budget ▸ List.sublist_flatten_of_mem hr)
  rw [hps, List.pairwise_map] at hrun
  exact hrun.imp fun hpq => hpq _ _ rfl rfl

/-! ## Packing a lookup -/

/-- **The records of a class pair subtable.** It covers the glyphs of its first classes and has
all others in class 0, and no rule loses its place in the matrix. The record of a glyph that it
covers is what the *last* rule of the subtable says that takes the two glyphs. So the first rule
wins exactly where the last one agrees with it. That is everywhere if the rules of the lookup are
written alike and each class has a number of its own. -/
theorem record?_subtable {lookup : Lookup} {place : LookupPlace} {rules : List Rule}
    (h : (distinctRules lookup place).value = some rules) {marks : Option MarkSet}
    {places : LookupPlaces} {budget : Budget} {k : Nat} {c : ClassPairs}
    (hc : (packLookup .pairPos rules marks places budget).subtables[k]? = some (.classPairs c)) :
    ∃ ps : List ClassPair, (pairRuns budget rules)[k]? = some (ps.map ClassPair.item) ∧
      (∀ g, g ∈ c.coverage ↔ ∃ p ∈ ps, g ∈ p.first) ∧
      (∀ g, g ∉ c.coverage → c.firstClasses.classOf g = 0) ∧
      (∀ p ∈ ps, ∃ row column,
        (p.first, row) ∈ (sidePartition (ps.map ClassPair.first)).numbered 0 ∧
        (p.second, column) ∈ (sidePartition (ps.map ClassPair.second)).numbered 1 ∧
        (∀ g ∈ p.first, c.firstClasses.classOf g = row) ∧
        (∀ g ∈ p.second, c.secondClasses.classOf g = column)) ∧
      (∀ g₁ ∈ c.coverage, ∀ g₂, c.record? g₁ g₂ = some (lastValues ps g₁ g₂) ∧
        (c.record? g₁ g₂ = some (firstValues ps g₁ g₂) ↔
          lastValues ps g₁ g₂ = firstValues ps g₁ g₂)) ∧
      (Alike rules → Numberable ps →
        ∀ g₁ ∈ c.coverage, ∀ g₂, c.record? g₁ g₂ = some (firstValues ps g₁ g₂)) := by
  rw [subtables_pairPos, List.getElem?_map, Option.map_eq_some_iff] at hc
  obtain ⟨run, hrun, hc⟩ := hc
  have hmem := List.mem_of_getElem? hrun
  obtain ⟨hps, hcoh, rfl⟩ := classPairs_of_run hmem hc
  refine ⟨classPairItems run, by rw [← hps, hrun], fun g => mem_coverage hcoh, ?_, ?_, ?_, ?_⟩
  · intro g hg
    refine Partition.classOf_of_not_covered ?_ 0
    exact fun s hs hm => hg (Partition.mem_glyphs.2 ⟨s, hs, hm⟩)
  · intro p hp
    obtain ⟨row, column, hrow, hcolumn⟩ := exists_numbers hcoh hp
    refine ⟨row, column, hrow, hcolumn, ?_, ?_⟩
    · exact fun g hg => Partition.classOf_of_mem (valid_sidePartition _) hrow hg
    · exact fun g hg => Partition.classOf_of_mem (valid_sidePartition _) hcolumn hg
  · intro g₁ hg₁ g₂
    rw [record?_classPairsOf hcoh ((mem_coverage hcoh).1 hg₁)]
    exact ⟨rfl, by rw [Option.some.injEq]⟩
  · intro ha hn g₁ hg₁ g₂
    have hcovered := (mem_coverage hcoh).1 hg₁
    have hd := pairwise_of_alike (keys_distinctRules h) ha hmem hps
    rw [record?_classPairsOf hcoh hcovered, lastValues_eq_firstValues hcoh hn hd hcovered]

/-- A lookup that lists these rules and has no name. -/
def pairLookup (rules : List Rule) : Lookup := ⟨none, .pairPos, 0, none, none, rules⟩

/-- A rule that gives the first glyph of a pair this advance. -/
def kern (first second : Token) (advance : Int16) : Rule :=
  ⟨.pairPos first ⟨none, none, some advance, none⟩ second .empty, none, false⟩

/-- A glyph beside a set, then the set of this glyph alone beside the same set. -/
def glyphThenSet : List Rule :=
  [kern (.glyph 1) (.set (.ofList [2, 3])) 10, kern (.set (.ofList [1])) (.set (.ofList [2, 3])) 20]

/-- What these two rules say, as pairs of classes. -/
def glyphThenSetPairs : List ClassPair :=
  [⟨.ofList [1], .ofList [2, 3], ⟨none, none, some 10, none⟩, .empty⟩,
    ⟨.ofList [1], .ofList [2, 3], ⟨none, none, some 20, none⟩, .empty⟩]

/-- Of the two rules, the second is what the subtable says about the pair. -/
theorem record?_glyphThenSet :
    (distinctRules (pairLookup glyphThenSet) ⟨none, none⟩).value = some glyphThenSet ∧
      (packLookup .pairPos glyphThenSet none ∅ none).subtables[0]? =
        some (.classPairs (classPairsOf glyphThenSetPairs)) ∧
      ∃ ps : List ClassPair, (pairRuns none glyphThenSet)[0]? = some (ps.map ClassPair.item) ∧
        (classPairsOf glyphThenSetPairs).record? 1 2 = some (lastValues ps 1 2) := by
  have h : (distinctRules (pairLookup glyphThenSet) ⟨none, none⟩).value = some glyphThenSet := by
    rfl
  have hc : (packLookup .pairPos glyphThenSet none ∅ none).subtables[0]? =
      some (.classPairs (classPairsOf glyphThenSetPairs)) := by
    decide +kernel
  obtain ⟨ps, hps, -, -, -, hrecord, -⟩ := record?_subtable h hc
  exact ⟨h, hc, ps, hps, (hrecord 1 (by decide +kernel) 2).1⟩

/-- The first of the two rules does not win, although nothing but the second differs from it. -/
theorem record?_glyphThenSet_ne_first :
    (distinctRules (pairLookup glyphThenSet) ⟨none, none⟩).value = some glyphThenSet ∧
      (packLookup .pairPos glyphThenSet none ∅ none).subtables =
        [.classPairs (classPairsOf glyphThenSetPairs)] ∧
      pairRuns none glyphThenSet = [glyphThenSetPairs.map ClassPair.item] ∧
      1 ∈ (classPairsOf glyphThenSetPairs).coverage ∧
      (classPairsOf glyphThenSetPairs).record? 1 2 = some (⟨none, none, some 20, none⟩, .empty) ∧
      firstValues glyphThenSetPairs 1 2 = (⟨none, none, some 10, none⟩, .empty) := by
  refine ⟨?_, ?_, ?_, ?_, ?_, ?_⟩
  · rfl
  · decide +kernel
  · decide +kernel
  · decide +kernel
  · decide +kernel
  · decide

end Packing
end FontLayout
