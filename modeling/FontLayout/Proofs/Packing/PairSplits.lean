import FontLayout.Proofs.Packing.ClassPairs
/-!
# Which values a pair gets

A reader tries the subtables of a lookup in order. A subtable of class pairs that covers the first
glyph ends the search, even if the classes of the two glyphs have no values; one of glyph pairs
does so only for a pair that it lists. So if class pairs are cut into several subtables, a pair gets
the values that the first subtable with its first glyph holds, and later ones are not asked.

Results:
* `pairValues?_runs`: what is read from subtables of class pairs, in terms of the pairs.
* `keeps_iff_settled`: whether cutting keeps all values, as a test on classes.
* `pairValues?_split_iff`: when splitting a lookup into subtables keeps the values of a pair.
-/
namespace FontLayout

/-! ## Reading -/

/-- What a subtable says of two glyphs. -/
def Subtable.pairValues? (s : Subtable) (g₁ g₂ : Glyph) : Option PairValues :=
  match s with
  | .classPairs c =>
    if g₁ ∈ c.coverage then some ((c.record? g₁ g₂).getD (.empty, .empty)) else none
  | .glyphPairs rows => (rows.find? g₁).bind (·.find? g₂)
  | _ => none

/-- What the first subtable says that says something of two glyphs. -/
def pairValues? (subtables : List Subtable) (g₁ g₂ : Glyph) : Option PairValues :=
  subtables.findSome? (·.pairValues? g₁ g₂)

/-- The four amounts of a record; one that the record lacks counts as zero. -/
def ValueRecord.allAmounts (v : ValueRecord) : List Int16 := v.amounts ⟨true, true, true, true⟩

/-- The amounts by which the two glyphs of a pair are moved and resized. -/
def PairValues.effect (v : PairValues) : List Int16 × List Int16 :=
  (v.1.allAmounts, v.2.allAmounts)

namespace Packing

theorem pairValues?_classPairsOf {ps : List ClassPair} (h : Coherent ps) (g₁ g₂ : Glyph) :
    (Subtable.classPairs (classPairsOf ps)).pairValues? g₁ g₂ =
      if Names ps g₁ then some (lastValues ps g₁ g₂) else none := by
  rw [Subtable.pairValues?]
  by_cases hg : Names ps g₁
  · rw [if_pos ((mem_coverage h).2 hg), if_pos hg, record?_classPairsOf h hg, Option.getD_some]
  · rw [if_neg fun hm => hg ((mem_coverage h).1 hm), if_neg hg]

/-- Class pairs in several subtables: the first one that names the first glyph is asked. -/
theorem pairValues?_runs {runs : List (List ClassPair)} (h : ∀ ps ∈ runs, Coherent ps)
    (g₁ g₂ : Glyph) :
    pairValues? (runs.map fun ps => .classPairs (classPairsOf ps)) g₁ g₂ =
      (runs.find? fun ps => Names ps g₁).map fun ps => lastValues ps g₁ g₂ := by
  induction runs with
  | nil => rfl
  | cons ps runs ih =>
    rw [List.forall_mem_cons] at h
    rw [pairValues?, List.map_cons, List.findSome?_cons, ← pairValues?, ih h.2,
      pairValues?_classPairsOf h.1, List.find?_cons]
    by_cases hg : Names ps g₁
    · simp [hg]
    · simp [hg]

/-! ## Runs of class pairs -/

/-- Whether cutting keeps the values of two glyphs: in the first run that names the first glyph,
the last pair that takes both has the effect of the last one of all. -/
def Keeps (runs : List (List ClassPair)) (g₁ g₂ : Glyph) : Prop :=
  ∀ ps, runs.find? (fun ps => Names ps g₁) = some ps →
    (lastValues ps g₁ g₂).effect = (lastValues runs.flatten g₁ g₂).effect

theorem find?_names_none {runs : List (List ClassPair)} {g : Glyph}
    (h : runs.find? (fun ps => Names ps g) = none) : ¬ Names runs.flatten g := by
  rintro ⟨p, hp, hg⟩
  obtain ⟨ps, hps, hp⟩ := List.mem_flatten.1 hp
  have := List.find?_eq_none.1 h ps hps
  rw [decide_eq_true_eq] at this
  exact this ⟨p, hp, hg⟩

theorem names_of_find? {runs : List (List ClassPair)} {ps : List ClassPair} {g : Glyph}
    (h : runs.find? (fun ps => Names ps g) = some ps) : Names ps g ∧ ps ∈ runs :=
  ⟨by simpa using List.find?_some h, List.mem_of_find?_eq_some h⟩

theorem names_flatten {runs : List (List ClassPair)} {ps : List ClassPair} {g : Glyph}
    (hps : ps ∈ runs) (h : Names ps g) : Names runs.flatten g := by
  obtain ⟨p, hp, hg⟩ := h
  exact ⟨p, List.mem_flatten.2 ⟨ps, hps, hp⟩, hg⟩

theorem effect_runs_iff {runs : List (List ClassPair)} (h : ∀ ps ∈ runs, Coherent ps)
    (hall : Coherent runs.flatten) (g₁ g₂ : Glyph) :
    (pairValues? (runs.map fun ps => .classPairs (classPairsOf ps)) g₁ g₂).map PairValues.effect =
      ((Subtable.classPairs (classPairsOf runs.flatten)).pairValues? g₁ g₂).map
        PairValues.effect ↔ Keeps runs g₁ g₂ := by
  rw [pairValues?_runs h, pairValues?_classPairsOf hall, Keeps]
  cases hfind : runs.find? fun ps => Names ps g₁ with
  | none => simp [find?_names_none hfind]
  | some ps =>
    obtain ⟨hg, hps⟩ := names_of_find? hfind
    simp [names_flatten hps hg]

/-! ## A test on classes -/

/-- What the last pair of two classes says. -/
def lastOf (ps : List ClassPair) (s t : GlyphSet) : PairValues :=
  ((ps.reverse.find? fun p => p.first = s ∧ p.second = t).map ClassPair.values).getD noValues

/-- The first run that has a first class. -/
def firstRun (runs : List (List ClassPair)) (s : GlyphSet) : List ClassPair :=
  (runs.find? fun ps => ∃ p ∈ ps, p.first = s).getD []

/-- Whether the first run of each first class holds all that counts: the last pair of two classes
in this run has the effect of the last one of all. Empty classes do not matter. -/
def Settled (runs : List (List ClassPair)) : Prop :=
  ∀ p ∈ runs.flatten, p.first.isEmpty = false → p.second.isEmpty = false →
    (lastOf (firstRun runs p.first) p.first p.second).effect =
      (lastOf runs.flatten p.first p.second).effect

instance (runs : List (List ClassPair)) : Decidable (Settled runs) :=
  inferInstanceAs (Decidable (∀ p ∈ runs.flatten, p.first.isEmpty = false →
    p.second.isEmpty = false → (lastOf (firstRun runs p.first) p.first p.second).effect =
      (lastOf runs.flatten p.first p.second).effect))

theorem size_sidePartition_le {classes classes' : List GlyphSet} (hsub : classes ⊆ classes')
    (h : Accepted classes') : (sidePartition classes).size ≤ (sidePartition classes').size := by
  rw [← Partition.length_ranked, ← Partition.length_ranked]
  refine List.Nodup.length_le_of_subset (Partition.nodup_ranked _) ?_
  intro s hs
  rw [Partition.mem_ranked] at hs ⊢
  exact h s (hsub (mem_of_mem_sidePartition hs))

theorem Numberable.mono {ps qs : List ClassPair} (h : Numberable qs) (hq : Coherent qs)
    (hsub : ps ⊆ qs) : Numberable ps :=
  ⟨Nat.le_trans (size_sidePartition_le (List.map_subset _ hsub) hq.firsts) h.firsts,
    Nat.lt_of_le_of_lt (size_sidePartition_le (List.map_subset _ hsub) hq.seconds) h.seconds⟩

section
variable {ps qs : List ClassPair} {g₁ g₂ : Glyph}

theorem lastValues_eq_lastOf (h : Coherent ps) (hn : Numberable ps) (hg : Names ps g₁)
    (hq : Coherent qs) (hsub : ps ⊆ qs) {p : ClassPair} (hp : p ∈ qs) (h₁ : g₁ ∈ p.first)
    (h₂ : g₂ ∈ p.second) : lastValues ps g₁ g₂ = lastOf ps p.first p.second := by
  have hsame : (ps.reverse.find? fun q => g₁ ∈ q.first ∧ g₂ ∈ q.second) =
      ps.reverse.find? fun q => q.first = p.first ∧ q.second = p.second := by
    refine find?_congr fun q hqs => decide_eq_decide.2 ⟨?_, ?_⟩
    · have hqs := hsub (List.mem_reverse.1 hqs)
      exact fun hm => ⟨hq.first_eq hqs hp hm.1 h₁, hq.second_eq hqs hp hm.2 h₂⟩
    · rintro ⟨hf, hs⟩
      exact ⟨hf ▸ h₁, hs ▸ h₂⟩
  rw [lastValues_of_mem h hn hg, hsame, lastOf]

theorem lastValues_eq_noValues (h : Coherent ps) (hn : Numberable ps) (hg : Names ps g₁)
    (hno : ∀ p ∈ ps, g₁ ∈ p.first → g₂ ∉ p.second) : lastValues ps g₁ g₂ = noValues := by
  have hnone : (ps.reverse.find? fun p => g₁ ∈ p.first ∧ g₂ ∈ p.second) = none := by
    refine List.find?_eq_none.2 fun p hp hm => ?_
    rw [decide_eq_true_eq] at hm
    exact hno p (List.mem_reverse.1 hp) hm.1 hm.2
  rw [lastValues_of_mem h hn hg, hnone]
  rfl

end

theorem exists_mem_of_isEmpty {s : GlyphSet} (h : s.isEmpty = false) : ∃ g, g ∈ s :=
  List.exists_mem_of_ne_nil _ (by simpa [GlyphSet.isEmpty] using h)

theorem isEmpty_of_mem {s : GlyphSet} {g : Glyph} (h : g ∈ s) : s.isEmpty = false := by
  have := List.ne_nil_of_mem (GlyphSet.mem_def.1 h)
  simpa [GlyphSet.isEmpty] using this

section
variable {runs : List (List ClassPair)} (h : ∀ ps ∈ runs, Coherent ps)
  (hall : Coherent runs.flatten) (hn : Numberable runs.flatten)

include hall in
/-- The first run that names a glyph is the first that has its class. -/
theorem find?_names {p : ClassPair} (hp : p ∈ runs.flatten) {g : Glyph} (hg : g ∈ p.first) :
    (runs.find? fun ps => Names ps g) = runs.find? fun ps => ∃ q ∈ ps, q.first = p.first := by
  refine find?_congr fun ps hps => decide_eq_decide.2 ⟨?_, ?_⟩
  · rintro ⟨q, hq, hgq⟩
    exact ⟨q, hq, hall.first_eq (List.mem_flatten.2 ⟨ps, hps, hq⟩) hp hgq hg⟩
  · rintro ⟨q, hq, he⟩
    exact ⟨q, hq, he ▸ hg⟩

include h hall hn

/-- For two glyphs of the classes of a pair, what counts is what is said of these classes. -/
theorem keeps_iff {p : ClassPair} (hp : p ∈ runs.flatten) {g₁ g₂ : Glyph} (h₁ : g₁ ∈ p.first)
    (h₂ : g₂ ∈ p.second) :
    Keeps runs g₁ g₂ ↔ (lastOf (firstRun runs p.first) p.first p.second).effect =
      (lastOf runs.flatten p.first p.second).effect := by
  rw [Keeps, firstRun, ← find?_names hall hp h₁]
  cases hfind : runs.find? fun ps => Names ps g₁ with
  | none => exact absurd ⟨p, hp, h₁⟩ (find?_names_none hfind)
  | some ps =>
    obtain ⟨hg, hps⟩ := names_of_find? hfind
    have hsub : ps ⊆ runs.flatten := fun q hq => List.mem_flatten.2 ⟨ps, hps, hq⟩
    have hrun : lastValues ps g₁ g₂ = lastOf ps p.first p.second :=
      lastValues_eq_lastOf (h ps hps) (hn.mono hall hsub) hg hall hsub hp h₁ h₂
    have hflat : lastValues runs.flatten g₁ g₂ = lastOf runs.flatten p.first p.second :=
      lastValues_eq_lastOf hall hn ⟨p, hp, h₁⟩ hall (List.Subset.refl _) hp h₁ h₂
    rw [Option.getD_some, ← hrun, ← hflat]
    simp

/-- Cutting keeps all values exactly if the first run of each first class holds all that counts. -/
theorem keeps_iff_settled : (∀ g₁ g₂, Keeps runs g₁ g₂) ↔ Settled runs := by
  constructor
  · intro hk p hp he₁ he₂
    obtain ⟨g₁, h₁⟩ := exists_mem_of_isEmpty he₁
    obtain ⟨g₂, h₂⟩ := exists_mem_of_isEmpty he₂
    exact (keeps_iff h hall hn hp h₁ h₂).1 (hk g₁ g₂)
  · intro hs g₁ g₂
    by_cases hex : ∃ p ∈ runs.flatten, g₁ ∈ p.first ∧ g₂ ∈ p.second
    · obtain ⟨p, hp, h₁, h₂⟩ := hex
      exact (keeps_iff h hall hn hp h₁ h₂).2 (hs p hp (isEmpty_of_mem h₁) (isEmpty_of_mem h₂))
    · -- no pair holds both glyphs, here or there
      have hno : ∀ p ∈ runs.flatten, g₁ ∈ p.first → g₂ ∉ p.second :=
        fun p hp h₁ h₂ => hex ⟨p, hp, h₁, h₂⟩
      intro ps hfind
      obtain ⟨hg, hps⟩ := names_of_find? hfind
      have hsub : ps ⊆ runs.flatten := fun q hq => List.mem_flatten.2 ⟨ps, hps, hq⟩
      rw [lastValues_eq_noValues (h ps hps) (hn.mono hall hsub) hg fun p hp => hno p (hsub hp),
        lastValues_eq_noValues hall hn (names_flatten hps hg) hno]

end

/-! ## Packing a lookup -/

/-- The runs that the class pairs of some rules are cut into. -/
def classRuns (budget : Budget) (rules : List Rule) : List (List ClassPair) :=
  (pairRuns budget rules).map classPairItems

section
variable {rules : List Rule} {marks : Option MarkSet} {places : LookupPlaces}

theorem flatten_classRuns (budget budget' : Budget) :
    (classRuns budget rules).flatten = (classRuns budget' rules).flatten := by
  rw [classRuns, classRuns]
  unfold classPairItems
  rw [← List.filterMap_flatten, ← List.filterMap_flatten, flatten_pairRuns, flatten_pairRuns]

theorem pairSubtable_of_classes {run : List PairItem} (hne : run ≠ [])
    (h : ∀ i ∈ run, ∃ p : ClassPair, i = p.item) : ∃ c, pairSubtable run = .classPairs c := by
  cases run with
  | nil => exact absurd rfl hne
  | cons i run =>
    obtain ⟨p, rfl⟩ := h i List.mem_cons_self
    exact ⟨_, rfl⟩

/-- If all rules are for classes, every run becomes a subtable of its class pairs. -/
theorem subtables_classRuns (budget : Budget)
    (h : ∀ r ∈ rules, ∀ i, pairItem? r.body = some i → ∃ p : ClassPair, i = p.item) :
    (packLookup .pairPos rules marks places budget).subtables =
        (classRuns budget rules).map (fun ps => .classPairs (classPairsOf ps)) ∧
      ∀ ps ∈ classRuns budget rules, Coherent ps := by
  have hrun : ∀ run ∈ pairRuns budget rules, Coherent (classPairItems run) ∧
      pairSubtable run = .classPairs (classPairsOf (classPairItems run)) := by
    intro run hrun
    have hne : run ≠ [] := by
      obtain ⟨r, hr, rfl⟩ := List.mem_map.1 hrun
      exact Gauge.run_ne_nil _ _ _ r hr
    have hclasses : ∀ i ∈ run, ∃ p : ClassPair, i = p.item := by
      intro i hi
      have hflat : i ∈ (pairRuns budget rules).flatten := List.mem_flatten.2 ⟨run, hrun, hi⟩
      rw [flatten_pairRuns, List.mem_filterMap] at hflat
      obtain ⟨r, hr, hri⟩ := hflat
      exact h r hr i hri
    obtain ⟨c, hc⟩ := pairSubtable_of_classes hne hclasses
    obtain ⟨-, hcoh, rfl⟩ := classPairs_of_run hrun hc
    exact ⟨hcoh, hc⟩
  constructor
  · rw [subtables_pairPos, classRuns, List.map_map]
    exact List.map_congr_left fun run hr => (hrun run hr).2
  · intro ps hps
    obtain ⟨run, hr, rfl⟩ := List.mem_map.1 hps
    exact (hrun run hr).1

/-- If one subtable of class pairs holds all rules, then all are for classes, which share it. -/
theorem classes_of_single {c : ClassPairs}
    (hone : (packLookup .pairPos rules marks places none).subtables = [.classPairs c]) :
    (∀ r ∈ rules, ∀ i, pairItem? r.body = some i → ∃ p : ClassPair, i = p.item) ∧
      Coherent (classRuns none rules).flatten ∧
      c = classPairsOf (classRuns none rules).flatten := by
  rw [subtables_pairPos, List.map_eq_singleton_iff] at hone
  obtain ⟨run, hruns, hc⟩ := hone
  obtain ⟨hps, hcoh, rfl⟩ := classPairs_of_run (by rw [hruns]; exact List.mem_singleton_self _) hc
  have hflat := @flatten_pairRuns rules none
  rw [hruns, List.flatten_singleton] at hflat
  refine ⟨?_, ?_⟩
  · intro r hr i hi
    have hmem : i ∈ run := hflat ▸ List.mem_filterMap.2 ⟨r, hr, hi⟩
    rw [hps] at hmem
    obtain ⟨p, -, rfl⟩ := List.mem_map.1 hmem
    exact ⟨p, rfl⟩
  · rw [classRuns, hruns, List.map_singleton, List.flatten_singleton]
    exact ⟨hcoh, rfl⟩

/-- **Splitting a lookup into subtables.** Where one subtable could hold all rules, cutting keeps
the values of two glyphs exactly if the first run that names the first glyph has the last word on
both. If each class has a number of its own, all values are kept exactly if for each first class
the first run that has it holds all that counts. -/
theorem pairValues?_split_iff {c : ClassPairs}
    (hone : (packLookup .pairPos rules marks places none).subtables = [.classPairs c])
    (budget : Budget) :
    let read (b : Budget) (g₁ g₂ : Glyph) :=
      (pairValues? (packLookup .pairPos rules marks places b).subtables g₁ g₂).map
        PairValues.effect
    (∀ g₁ g₂, read budget g₁ g₂ = read none g₁ g₂ ↔ Keeps (classRuns budget rules) g₁ g₂) ∧
      (Numberable (classRuns budget rules).flatten →
        ((∀ g₁ g₂, read budget g₁ g₂ = read none g₁ g₂) ↔ Settled (classRuns budget rules))) := by
  obtain ⟨hclasses, hall, rfl⟩ := classes_of_single hone
  obtain ⟨hsub, hcoh⟩ := @subtables_classRuns rules marks places budget hclasses
  rw [flatten_classRuns none budget] at hall hone
  have hkeeps (g₁ g₂ : Glyph) :
      (pairValues? (packLookup .pairPos rules marks places budget).subtables g₁ g₂).map
          PairValues.effect =
        (pairValues? (packLookup .pairPos rules marks places none).subtables g₁ g₂).map
          PairValues.effect ↔ Keeps (classRuns budget rules) g₁ g₂ := by
    rw [hsub, hone, ← effect_runs_iff hcoh hall]
    simp [pairValues?]
  refine ⟨hkeeps, fun hn => ?_⟩
  rw [← keeps_iff_settled hcoh hall hn]
  exact forall_congr' fun g₁ => forall_congr' fun g₂ => hkeeps g₁ g₂

end

/-- Two first classes with a pair each. -/
def twoFirstClasses : List Rule :=
  [kern (.set (.ofList [1])) (.set (.ofList [11])) 10,
    kern (.set (.ofList [2])) (.set (.ofList [11])) 20]

/-- A first class with two pairs. -/
def oneFirstClass : List Rule :=
  [kern (.set (.ofList [1])) (.set (.ofList [11])) 10,
    kern (.set (.ofList [1])) (.set (.ofList [12])) 30]

/-- A subtable for each of two first classes does no harm. -/
theorem pairValues?_twoFirstClasses :
    (packLookup .pairPos twoFirstClasses none ∅ none).subtables =
        [.classPairs (classPairsOf (classRuns none twoFirstClasses).flatten)] ∧
      Numberable (classRuns (some 0) twoFirstClasses).flatten ∧
      (packLookup .pairPos twoFirstClasses none ∅ (some 0)).subtables.length = 2 ∧
      ∀ g₁ g₂,
        (pairValues? (packLookup .pairPos twoFirstClasses none ∅ (some 0)).subtables g₁ g₂).map
            PairValues.effect =
          (pairValues? (packLookup .pairPos twoFirstClasses none ∅ none).subtables g₁ g₂).map
            PairValues.effect := by
  have hone : (packLookup .pairPos twoFirstClasses none ∅ none).subtables =
      [.classPairs (classPairsOf (classRuns none twoFirstClasses).flatten)] := by
    rfl
  have hn : Numberable (classRuns (some 0) twoFirstClasses).flatten :=
    ⟨by decide +kernel, by decide +kernel⟩
  have hs : Settled (classRuns (some 0) twoFirstClasses) := by
    decide +kernel
  exact ⟨hone, hn, by decide +kernel, ((pairValues?_split_iff hone (some 0)).2 hn).2 hs⟩

/-- A subtable for each pair of one first class hides the second pair. -/
theorem pairValues?_oneFirstClass :
    (distinctRules (pairLookup oneFirstClass) ⟨none, none⟩).value = some oneFirstClass ∧
      (∀ r ∈ oneFirstClass, r.breakBefore = false) ∧
      (packLookup .pairPos oneFirstClass none ∅ none).subtables =
        [.classPairs (classPairsOf (classRuns none oneFirstClass).flatten)] ∧
      (pairValues? (packLookup .pairPos oneFirstClass none ∅ (some 0)).subtables 1 12).map
        PairValues.effect = some ([0, 0, 0, 0], [0, 0, 0, 0]) ∧
      (pairValues? (packLookup .pairPos oneFirstClass none ∅ none).subtables 1 12).map
        PairValues.effect = some ([0, 0, 30, 0], [0, 0, 0, 0]) := by
  have hone : (packLookup .pairPos oneFirstClass none ∅ none).subtables =
      [.classPairs (classPairsOf (classRuns none oneFirstClass).flatten)] := by
    rfl
  have hall : Coherent (classRuns none oneFirstClass).flatten := (classes_of_single hone).2.1
  have hn : Numberable (classRuns none oneFirstClass).flatten :=
    ⟨by decide +kernel, by decide +kernel⟩
  have hnames : Names (classRuns none oneFirstClass).flatten 1 := by decide +kernel
  refine ⟨?_, ?_, hone, ?_, ?_⟩
  · rfl
  · decide
  · decide +kernel
  · rw [hone, pairValues?, List.findSome?_singleton, pairValues?_classPairsOf hall,
      if_pos hnames, lastValues_of_mem hall hn hnames]
    decide +kernel

end Packing
end FontLayout
