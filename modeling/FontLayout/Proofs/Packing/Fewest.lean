import FontLayout.Proofs.Glyph.Parts
import FontLayout.Proofs.Packing.Greedy
/-!
# Lookups are packed into as few subtables as possible

Without its first item, a run of any kind grows as before: no gauge counts or measures more of fewer
items, and classes that overlap no class of a run overlap none of a part of it. Sequences are the one
exception. The gauge leaves out an item whose target it has seen, so it may ask more for this item
if the other one of that target is gone. The rules of a lookup that were sifted have different
targets.

Results:
* `lightens_single`, `lightens_sequences`, `lightens_ligatures`: substitutions.
* `lightens_singlePositions`, `lightens_cursive`, `lightens_attachments`: positionings.
* `lightens_pairs`: pairs of glyphs and of classes.
* `fewest_packLookup`: no way of cutting the items of a lookup gives fewer subtables.
-/
namespace FontLayout
namespace Packing

/-- Whether less is known of a run than of another, in gauges that need no new items. -/
abbrev Lighter {ι σ : Type} (p : Packer ι σ) (R : σ → σ → Prop) : Prop :=
  p.toGauge.Lightens (fun _ _ => True) R

theorem sizeBound_mono {n m : Nat} (h : n ≤ m) : Coverage.sizeBound n ≤ Coverage.sizeBound m := by
  rw [Coverage.sizeBound, Coverage.sizeBound]
  omega

/-! ## Substitutions -/

theorem lightens_single : Lighter single fun s t => Inside t s := by
  refine Gauge.lightens_of_size (fun s => singleSize s.size) ?_ ?_ ?_ ?_
  · intro s i
    simp only [single, size_insert_eq]
  · intro s t h
    have hcover := sizeBound_mono h.size_le
    have hsize := h.size_le
    simp only [singleSize]
    omega
  · exact fun i => inside_empty _
  · exact fun s t i h _ => h.insert i.1

/-- Sequences know less without some of their targets. -/
structure SequenceLoad.Lightens (s t : SequenceLoad) : Prop where
  targets : Inside t.targets s.targets
  outputs : t.outputs ≤ s.outputs

theorem lightens_sequences (build : ByGlyph (List Glyph) → Subtable) :
    (sequences build).Lightens (fun s i => s.targets.contains i.1 = false)
      SequenceLoad.Lightens := by
  refine Gauge.lightens_of_size (fun s => sequenceSize s.targets.size s.outputs) ?_ ?_ ?_ ?_
  · intro s i
    simp only [sequences]
    split
    · rfl
    · next hi => simp [size_insert_eq, newcomers, hi]
  · intro s t h
    have hsize := h.targets.size_le
    have hcover := sizeBound_mono hsize
    have houtputs := h.outputs
    simp only [sequenceSize]
    omega
  · exact fun i => ⟨inside_empty _, Nat.zero_le _⟩
  · intro s t i h hi
    have hi' : t.targets.contains i.1 = false := by
      refine Bool.eq_false_iff.2 fun hm => ?_
      have hs : s.targets.contains i.1 = true := h.targets i.1 hm
      rw [hi] at hs
      cases hs
    simp only [sequences, hi, hi', Bool.false_eq_true, if_false]
    exact ⟨h.targets.insert i.1, Nat.add_le_add_right h.outputs _⟩

/-- Ligatures know less without some of them. -/
structure LigatureLoad.Lightens (s t : LigatureLoad) : Prop where
  firsts : Inside t.firsts s.firsts
  ligatures : t.ligatures ≤ s.ligatures
  trailing : t.trailing ≤ s.trailing

theorem lightens_ligatures : Lighter ligatures LigatureLoad.Lightens := by
  refine Gauge.lightens_of_size
    (fun s => ligatureSize s.firsts.size s.ligatures s.trailing) ?_ ?_ ?_ ?_
  · intro s i
    simp only [ligatures, size_insert_eq]
  · intro s t h
    have hsize := h.firsts.size_le
    have hcover := sizeBound_mono hsize
    have hligatures := h.ligatures
    have htrailing := h.trailing
    simp only [ligatureSize]
    omega
  · exact fun i => ⟨inside_empty _, Nat.zero_le _, Nat.zero_le _⟩
  · exact fun s t i h _ => ⟨h.firsts.insert i.1, Nat.add_le_add_right h.ligatures 1,
      Nat.add_le_add_right h.trailing _⟩

/-- Rules that never share a subtable have no estimate. -/
theorem lightens_of_incompatible {ι σ : Type} {p : Packer ι σ}
    (hp : ∀ s i, p.fit s i = .incompatible) : Lighter p fun _ _ => True := by
  refine ⟨fun _ => trivial, ?_, fun _ _ _ _ _ _ _ => trivial⟩
  intro s t i n _ _ hn
  rw [hp] at hn
  cases hn

/-! ## Positionings -/

/-- A format that has the amounts of another still has them when both take up a value. -/
theorem holds_union_union {f g : ValueFormat} (h : f.Holds g) (v : ValueFormat) :
    (f.union v).Holds (g.union v) :=
  (h.union_left v).union (ValueFormat.holds_union_right f v)

/-- Single values know less without some of their glyphs. -/
structure SinglePosLoad.Lightens (s t : SinglePosLoad) : Prop where
  glyphs : Inside t.glyphs s.glyphs
  format : s.format.Holds t.format

theorem lightens_singlePositions : Lighter singlePositions SinglePosLoad.Lightens := by
  refine Gauge.lightens_of_size (fun s =>
    8 + s.glyphs.size * s.format.recordSize + Coverage.sizeBound s.glyphs.size) ?_ ?_ ?_ ?_
  · intro s i
    simp only [singlePositions, size_insert_eq]
  · intro s t h
    have hsize := h.glyphs.size_le
    have hcover := sizeBound_mono hsize
    have hrecords := Nat.mul_le_mul hsize h.format.recordSize_le
    omega
  · exact fun i => ⟨inside_empty _, ValueFormat.holds_none _⟩
  · exact fun s t i h _ => ⟨h.glyphs.insert i.1, holds_union_union h.format _⟩

/-- Cursive anchors know less without some of their glyphs. -/
structure CursiveLoad.Lightens (s t : CursiveLoad) : Prop where
  glyphs : Inside t.glyphs s.glyphs
  anchors : t.anchors ≤ s.anchors

/-- The estimate takes every glyph for a new one, so it is not that of the state with the item. -/
theorem lightens_cursive : Lighter cursive CursiveLoad.Lightens := by
  refine ⟨fun i => ⟨inside_empty _, Nat.zero_le _⟩, ?_, ?_⟩
  · intro s t i n h _ hn
    have hsize := h.glyphs.size_le
    have hanchors := h.anchors
    refine ⟨_, ?_, rfl⟩
    simp only [cursive, Fit.size.injEq, Coverage.sizeBound] at hn ⊢
    omega
  · exact fun s t i _ h _ _ => ⟨h.glyphs.insert i.1, Nat.add_le_add_right h.anchors _⟩

/-- Marks know less without some of the glyphs that they attach to. -/
structure AttachmentLoad.Lightens (s t : AttachmentLoad) : Prop where
  count : t.count ≤ s.count
  bytes : t.bytes ≤ s.bytes

theorem lightens_attachments {α : Type} (marks : MarkSet) (weight : α → Nat)
    (build : MarkAttachment α → Subtable) :
    Lighter (attachments marks weight build) AttachmentLoad.Lightens := by
  refine Gauge.lightens_of_size (fun s =>
    12 + markBytes marks + Coverage.sizeBound s.count + 2 + s.bytes) ?_ ?_ ?_ ?_
  · intro s i
    simp only [attachments, Nat.add_assoc]
  · intro s t h
    have hcover := sizeBound_mono h.count
    have hbytes := h.bytes
    omega
  · exact fun i => ⟨Nat.zero_le _, Nat.zero_le _⟩
  · exact fun s t i h _ =>
      ⟨Nat.add_le_add_right h.count 1, Nat.add_le_add_right h.bytes _⟩

/-! ## Pairs of glyphs -/

/-- Whether formats have the amounts of others. -/
def PairFormats.Cover (f g : PairFormats) : Prop := f.1.Holds g.1 ∧ f.2.Holds g.2

theorem PairFormats.cover_none (f : PairFormats) : f.Cover (.none, .none) :=
  ⟨f.1.holds_none, f.2.holds_none⟩

theorem PairFormats.Cover.with {f g : PairFormats} (h : f.Cover g) (v : PairValues) :
    (f.with v).Cover (g.with v) :=
  ⟨holds_union_union h.1 _, holds_union_union h.2 _⟩

theorem PairFormats.Cover.recordSize_le {f g : PairFormats} (h : f.Cover g) :
    g.recordSize ≤ f.recordSize :=
  Nat.add_le_add h.1.recordSize_le h.2.recordSize_le

namespace GlyphPairLoad
variable {s t : GlyphPairLoad} {first second : Glyph} {v : PairValues}

/-- The estimate of a run of glyph pairs. -/
def size (s : GlyphPairLoad) : Nat :=
  10 + 2 * s.pairs.size + Coverage.sizeBound s.pairs.size + 2 * s.pairs.size
    + s.count * (2 + s.formats.recordSize)

theorem sizeWith_eq (s : GlyphPairLoad) (first second : Glyph) (v : PairValues) :
    s.sizeWith first second v = (s.add first second v).size := by
  have hfirsts : (s.add first second v).pairs.size =
      s.pairs.size + if s.pairs.contains first then 0 else 1 := by
    simp only [add, Std.TreeMap.size_insert, Std.TreeMap.contains_iff_mem]
    split <;> rfl
  rw [size, hfirsts]
  rfl

/-- Glyph pairs know less without some of them. -/
structure Lightens (s t : GlyphPairLoad) : Prop where
  describes : ∃ items, s.Describes items
  describes' : ∃ items, t.Describes items
  firsts : ∀ g ∈ t.pairs, g ∈ s.pairs
  rows : ∀ g, Inside (t.row g) (s.row g)
  formats : s.formats.Cover t.formats

theorem lightens_empty (h : ∃ items, s.Describes items) : s.Lightens empty := by
  refine ⟨h, ⟨[], describes_empty⟩, fun g hg => ?_, fun g => ?_, s.formats.cover_none⟩
  · exact absurd hg Std.TreeMap.not_mem_emptyc
  · exact inside_empty _

theorem Lightens.add (h : s.Lightens t) (first second : Glyph) (v : PairValues) :
    (s.add first second v).Lightens (t.add first second v) := by
  obtain ⟨items, hs⟩ := h.describes
  obtain ⟨items', ht⟩ := h.describes'
  refine ⟨⟨_, hs.add first second v⟩, ⟨_, ht.add first second v⟩, fun g hg => ?_, fun g k hk => ?_,
    h.formats.with v⟩
  · simp only [GlyphPairLoad.add, Std.TreeMap.mem_insert] at hg ⊢
    exact hg.imp id (h.firsts g)
  · rw [mem_row_add] at hk ⊢
    exact hk.imp (h.rows g k) id

/-- Fewer first glyphs, and fewer pairs. -/
theorem Lightens.size_le (h : s.Lightens t) : t.size ≤ s.size := by
  obtain ⟨items, hs⟩ := h.describes
  obtain ⟨items', ht⟩ := h.describes'
  have hfirsts : t.pairs.size ≤ s.pairs.size := by
    rw [← Std.TreeMap.length_keys, ← Std.TreeMap.length_keys]
    refine (List.subperm_of_subset ?_ fun g hg => ?_).length_le
    · refine Std.TreeMap.distinct_keys.imp ?_
      rintro g _ hne rfl
      exact hne Std.ReflCmp.compare_self
    · exact Std.TreeMap.mem_keys.2 (h.firsts g (Std.TreeMap.mem_keys.1 hg))
  have hcount : t.count ≤ s.count := by
    obtain ⟨pairs, -, hlength, hrow, -⟩ := hs.pairs
    obtain ⟨pairs', hnodup, hlength', hrow', -⟩ := ht.pairs
    rw [← hlength, ← hlength']
    refine (List.subperm_of_subset hnodup fun p hp => ?_).length_le
    exact (hrow p.1 p.2).2 (h.rows p.1 p.2 ((hrow' p.1 p.2).1 hp))
  have hcover := sizeBound_mono hfirsts
  have hrecords := Nat.mul_le_mul hcount (Nat.add_le_add_left h.formats.recordSize_le 2)
  simp only [size]
  omega

theorem Lightens.sizeWith_le (h : s.Lightens t) (first second : Glyph) (v : PairValues) :
    t.sizeWith first second v ≤ s.sizeWith first second v := by
  rw [sizeWith_eq, sizeWith_eq]
  exact (h.add first second v).size_le

end GlyphPairLoad

/-! ## Pairs of classes -/

theorem tight_sidePartition (classes : List GlyphSet) : (sidePartition classes).Tight :=
  sidePartition_induction Partition.tight_empty (fun _ s h => h.add s) classes

/-- What classes of one side are estimated to take is no more for a part of them. -/
theorem sizeBound_le_of_partOf {classes classes' : List GlyphSet}
    (h : (sidePartition classes').PartOf (sidePartition classes)) :
    (sidePartition classes').sizeBound ≤ (sidePartition classes).sizeBound :=
  h.sizeBound_le (ClassPairLoad.measured_sidePartition _) (tight_sidePartition _)
    (ClassPairLoad.measured_sidePartition _)

namespace ClassPairLoad
variable {s t : ClassPairLoad}

/-- The estimate of a run of class pairs. -/
def size (s : ClassPairLoad) : Nat :=
  16 + Coverage.sizeBound s.firstGlyphs + s.firsts.sizeBound + s.seconds.sizeBound
    + s.firsts.size * (s.seconds.size + 1) * s.formats.recordSize

theorem sizeWith_eq {first second : GlyphSet} (v : PairValues)
    (hfirst : s.firsts.accepts first = true) (hsecond : s.seconds.accepts second = true) :
    s.sizeWith first second v = (s.add first second v).size := by
  simp only [sizeWith, size, add, classesWith, Partition.sizeBound_add hfirst,
    Partition.sizeBound_add hsecond, Partition.size_add hfirst, Partition.size_add hsecond]

/-- Class pairs know less without some of them. -/
structure Lightens (s t : ClassPairLoad) : Prop where
  describes : ∃ ps, s.Describes ps
  describes' : ∃ ps, t.Describes ps
  firsts : t.firsts.PartOf s.firsts
  seconds : t.seconds.PartOf s.seconds
  formats : s.formats.Cover t.formats

theorem lightens_empty (h : ∃ ps, s.Describes ps) : s.Lightens empty :=
  ⟨h, ⟨[], describes_empty⟩, Partition.partOf_empty _, Partition.partOf_empty _,
    s.formats.cover_none⟩

/-- Classes that overlap no class of a run overlap none of a part of it. -/
theorem Lightens.accepts (h : s.Lightens t) {first second : GlyphSet}
    (hfirst : s.firsts.accepts first = true) (hsecond : s.seconds.accepts second = true) :
    t.firsts.accepts first = true ∧ t.seconds.accepts second = true := by
  obtain ⟨ps, hs⟩ := h.describes
  obtain ⟨ps', ht⟩ := h.describes'
  have hfirsts := h.firsts
  have hseconds := h.seconds
  rw [hs.gauged.firsts] at hfirst hfirsts
  rw [hs.gauged.seconds] at hsecond hseconds
  rw [ht.gauged.firsts] at hfirsts ⊢
  rw [ht.gauged.seconds] at hseconds ⊢
  exact ⟨hfirsts.accepts (valid_sidePartition _) (valid_sidePartition _) hfirst,
    hseconds.accepts (valid_sidePartition _) (valid_sidePartition _) hsecond⟩

theorem Lightens.add (h : s.Lightens t) (p : ClassPair)
    (hfirst : s.firsts.accepts p.first = true) (hsecond : s.seconds.accepts p.second = true) :
    (s.add p.first p.second p.values).Lightens (t.add p.first p.second p.values) := by
  obtain ⟨ps, hs⟩ := h.describes
  obtain ⟨ps', ht⟩ := h.describes'
  obtain ⟨hfirst', -⟩ := h.accepts hfirst hsecond
  exact ⟨⟨_, hs.add p hfirst⟩, ⟨_, ht.add p hfirst'⟩, h.firsts.add hfirst, h.seconds.add hsecond,
    h.formats.with p.values⟩

theorem Lightens.size_le (h : s.Lightens t) : t.size ≤ s.size := by
  obtain ⟨ps, hs⟩ := h.describes
  obtain ⟨ps', ht⟩ := h.describes'
  have hfirsts := h.firsts
  have hseconds := h.seconds
  rw [hs.gauged.firsts, ht.gauged.firsts] at hfirsts
  rw [hs.gauged.seconds, ht.gauged.seconds] at hseconds
  have hcount := hfirsts.count_le (measured_sidePartition _) (measured_sidePartition _)
  have hcover := sizeBound_mono hcount
  have hfirst := sizeBound_le_of_partOf hfirsts
  have hsecond := sizeBound_le_of_partOf hseconds
  have hmatrix := Nat.mul_le_mul
    (Nat.mul_le_mul hfirsts.size_le (Nat.add_le_add_right hseconds.size_le 1))
    h.formats.recordSize_le
  rw [size, size, hs.firstGlyphs, ht.firstGlyphs, hs.gauged.firsts, ht.gauged.firsts,
    hs.gauged.seconds, ht.gauged.seconds]
  omega

theorem fit_of_accepts {first second : GlyphSet} (v : PairValues)
    (hfirst : s.firsts.accepts first = true) (hsecond : s.seconds.accepts second = true) :
    s.fit first second v = .size (s.add first second v).size := by
  rw [fit, hfirst, hsecond, ← sizeWith_eq v hfirst hsecond]
  rfl

theorem Lightens.fit_le (h : s.Lightens t) (p : ClassPair) {n : Nat}
    (hn : s.fit p.first p.second p.values = .size n) :
    ∃ m ≤ n, t.fit p.first p.second p.values = .size m := by
  obtain ⟨hfirst, hsecond⟩ := accepts_of_fit hn
  obtain ⟨hfirst', hsecond'⟩ := h.accepts hfirst hsecond
  rw [fit_of_accepts _ hfirst hsecond] at hn
  cases hn
  exact ⟨_, (h.add p hfirst hsecond).size_le, fit_of_accepts _ hfirst' hsecond'⟩

end ClassPairLoad

/-! ## Both forms -/

/-- Pairs know less without some of them; before the first, nothing is known. -/
def PairLoad.Lightens : PairLoad → PairLoad → Prop
  | .glyphs s, .glyphs t => s.Lightens t
  | .glyphs s, .unknown => ∃ items, s.Describes items
  | .classes s, .classes t => s.Lightens t
  | .classes s, .unknown => ∃ ps, s.Describes ps
  | _, _ => False

namespace PairLoad
variable {s t : PairLoad}

theorem Lightens.fit_le (h : s.Lightens t) (i : PairItem) {n : Nat} (hn : s.fit i = .size n) :
    ∃ m ≤ n, t.fit i = .size m := by
  cases t with
  | unknown => exact ⟨0, Nat.zero_le n, rfl⟩
  | glyphs t =>
    cases s with
    | unknown | classes => exact h.elim
    | glyphs s =>
      cases i with
      | classes => cases hn
      | glyphs first second v =>
        cases hn
        exact ⟨_, GlyphPairLoad.Lightens.sizeWith_le h first second v, rfl⟩
  | classes t =>
    cases s with
    | unknown | glyphs => exact h.elim
    | classes s =>
      cases i with
      | glyphs => cases hn
      | classes first second v => exact ClassPairLoad.Lightens.fit_le h ⟨first, second, v⟩ hn

theorem Lightens.add (h : s.Lightens t) (i : PairItem) {n : Nat} (hn : s.fit i = .size n) :
    (s.add i).Lightens (t.add i) := by
  cases s with
  | unknown => exact h.elim
  | glyphs s =>
    cases i with
    | classes => cases hn
    | glyphs first second v =>
      cases t with
      | unknown => exact (GlyphPairLoad.lightens_empty h).add first second v
      | glyphs t => exact GlyphPairLoad.Lightens.add h first second v
      | classes => exact h.elim
  | classes s =>
    cases i with
    | glyphs => cases hn
    | classes first second v =>
      obtain ⟨hfirst, hsecond⟩ := accepts_of_fit hn
      cases t with
      | unknown => exact (ClassPairLoad.lightens_empty h).add ⟨first, second, v⟩ hfirst hsecond
      | glyphs => exact h.elim
      | classes t => exact ClassPairLoad.Lightens.add h ⟨first, second, v⟩ hfirst hsecond

end PairLoad

theorem lightens_pairs : Lighter pairs PairLoad.Lightens := by
  refine ⟨fun i => ?_, fun s t i n h _ hn => h.fit_le i hn, fun s t i n h _ hn => h.add i hn⟩
  cases i with
  | glyphs first second v => exact ⟨_, GlyphPairLoad.describes_empty.add first second v⟩
  | classes first second v =>
    exact ⟨_, ClassPairLoad.describes_empty.add ⟨first, second, v⟩ (accepts_empty first)⟩

/-! ## Lookups -/

theorem Lighter.hereditary {ι σ : Type} {p : Packer ι σ} {R : σ → σ → Prop} (h : Lighter p R)
    (budget : Budget) (all : List ι) : p.Hereditary budget all :=
  Gauge.Lightens.hereditary h fun _ _ _ _ _ => trivial

/-- Sequences for different targets are new to the run before them. -/
theorem hereditary_sequences (build : ByGlyph (List Glyph) → Subtable) (budget : Budget)
    {all : List (Glyph × List Glyph)} (h : (all.map Prod.fst).Nodup) :
    (sequences build).Hereditary budget all := by
  refine (lightens_sequences build).hereditary fun items s i hs hitems => ?_
  have hdescribes : s.Describes items :=
    hs.preserves (P := fun items s => s.Describes items) ⟨counts_nil, rfl⟩
      fun _ _ i h => SequenceLoad.describes_add build h i
  refine Bool.eq_false_iff.2 fun hm => ?_
  have hmem := hdescribes.targets.contains_iff.1 hm
  have hnodup := h.sublist (hitems.sublist.map Prod.fst)
  rw [List.map_append, List.nodup_append] at hnodup
  exact hnodup.2.2 _ hmem i.1 (by simp) rfl

section
variable {lookup : Lookup} {place : LookupPlace} {rules : List Rule}
  (h : (distinctRules lookup place).value = some rules)

include h

theorem nodup_targets : (((itemsOf sequenceItem? rules).map Prod.fst).map Prod.fst).Nodup := by
  have hinputs : (inputs (toEntries (glyphEntry .sequence) (itemsOf sequenceItem? rules))).Nodup := by
    refine nodup_inputs_itemsOf (keys_distinctRules h) .input ?_
    intro body i e hi he
    cases body <;> cases hi
    all_goals cases he; rfl
  rw [inputs, filterMap_toEntries] at hinputs
  exact nodup_of_glyphEntries hinputs

/-- Runs of a sifted lookup grow without their first items, whatever its kind. -/
theorem hereditary_planOf (marks : Option MarkSet) (places : LookupPlaces) (budget : Budget) :
    (planOf lookup.kind rules marks places).packer.Hereditary budget
      ((planOf lookup.kind rules marks places).items.map Prod.fst) := by
  cases lookup.kind with
  | singleSub => exact lightens_single.hereditary _ _
  | multipleSub | alternateSub => exact hereditary_sequences _ budget (nodup_targets h)
  | ligatureSub => exact lightens_ligatures.hereditary _ _
  | chainSub | chainPos =>
    exact (lightens_of_incompatible (p := chains places) fun _ _ => rfl).hereditary _ _
  | reverseChainSub =>
    exact (lightens_of_incompatible (p := reverseChains) fun _ _ => rfl).hereditary _ _
  | singlePos => exact lightens_singlePositions.hereditary _ _
  | pairPos => exact lightens_pairs.hereditary _ _
  | cursivePos => exact lightens_cursive.hereditary _ _
  | markToBase | markToMark | markToLigature => exact (lightens_attachments ..).hereditary _ _

/-- **Greedy packing is optimal.** The subtables of a sifted lookup are those of one way of cutting
its items into runs, where breaks precede first items only, and each further item of a run fits the
items before it within the budget. No way of cutting them has fewer runs. So a lower budget never
gives fewer subtables. -/
theorem fewest_packLookup (marks : Option MarkSet) (places : LookupPlaces) (budget : Budget) :
    (∃ runs, (planOf lookup.kind rules marks places).packer.Partitions budget
        (planOf lookup.kind rules marks places).items runs ∧
      (packLookup lookup.kind rules marks places budget).subtables = runs.map fun run =>
        (planOf lookup.kind rules marks places).packer.build (run.map Prod.fst)) ∧
    (∀ runs, (planOf lookup.kind rules marks places).packer.Partitions budget
        (planOf lookup.kind rules marks places).items runs →
      (packLookup lookup.kind rules marks places budget).subtables.length ≤ runs.length) ∧
    ∀ lower : Budget, lower.AtMost budget →
      (packLookup lookup.kind rules marks places budget).subtables.length ≤
        (packLookup lookup.kind rules marks places lower).subtables.length := by
  have hall := hereditary_planOf h marks places budget
  simp only [subtables_packLookup, Plan.runs, List.length_map]
  refine ⟨?_, fun runs hruns => Gauge.length_cut_le hall hruns, fun lower hlower =>
    Gauge.length_cut_antitone hall hlower⟩
  obtain ⟨runs, hruns, hitems⟩ := Gauge.exists_partitions_cut
    (planOf lookup.kind rules marks places).packer.toGauge budget
    (planOf lookup.kind rules marks places).items
  refine ⟨runs, hruns, ?_⟩
  rw [hitems, List.map_map]
  rfl

end

/-- Three pairs of classes, the last with a first class that overlaps that of the first. -/
def overlappingFirsts : List Rule :=
  [kern (.set (.ofList [1, 2])) (.set (.ofList [11])) 10,
    kern (.set (.ofList [3])) (.set (.ofList [11])) 20,
    kern (.set (.ofList [2])) (.set (.ofList [11])) 30]

/-- The overlap takes a second subtable, however the pairs are cut; with no room for two pairs,
there is a third. -/
theorem fewest_overlappingFirsts :
    (distinctRules (pairLookup overlappingFirsts) ⟨none, none⟩).value = some overlappingFirsts ∧
      (packLookup .pairPos overlappingFirsts none ∅ none).subtables.length = 2 ∧
      (∀ runs, (planOf .pairPos overlappingFirsts none ∅).packer.Partitions none
        (planOf .pairPos overlappingFirsts none ∅).items runs → 2 ≤ runs.length) ∧
      2 ≤ (packLookup .pairPos overlappingFirsts none ∅ (some 0)).subtables.length := by
  have h : (distinctRules (pairLookup overlappingFirsts) ⟨none, none⟩).value =
      some overlappingFirsts := by rfl
  have htwo : (packLookup .pairPos overlappingFirsts none ∅ none).subtables.length = 2 := by
    decide +kernel
  obtain ⟨-, hruns, hlower⟩ := fewest_packLookup h none ∅ none
  refine ⟨h, htwo, fun runs hr => ?_, ?_⟩
  · exact htwo ▸ hruns runs hr
  · exact htwo ▸ hlower (some 0) fun bound hbound => nomatch hbound

end Packing
end FontLayout
