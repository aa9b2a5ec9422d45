import FontLayout.Packing.Lookup
import FontLayout.Proofs.Glyph.Keyed
import FontLayout.Proofs.Lookup.Distinct
import FontLayout.Proofs.Packing.Runs
import FontLayout.Subtable.Encoding
/-!
# Which ligature is formed

A reader tries the subtables of a lookup in order. In a subtable it looks up the set of the first
glyph at hand, and takes the first ligature of the set, as written, whose other components come
next. Within a set the longer ligatures are written first, so one subtable always forms a longest
ligature. Runs are cut in the order of the rules, so a subtable may form a ligature although a
later one holds a longer ligature that begins with it. This is the only way in which cutting shows.

Results:
* `ligature?_group`: what one subtable forms is a longest match.
* `formedByRuns_iff`: cut runs form what all items together form exactly if no item begins
  an item of a later run.
* `unhidden_of_ordered`: this is so for rules none of which begins a later one.
* `formedLigature_split_iff`: splitting a lookup into subtables changes nothing exactly if this
  is so.
-/
namespace FontLayout

/-! ## Reading -/

/-- The ligature that a subtable forms at the beginning of a run of glyphs, if any. -/
def Subtable.ligature? (s : Subtable) (text : List Glyph) : Option Ligature :=
  match s, text with
  | .ligatureSub sets, g :: rest =>
    (sets.find? g).bind fun set =>
      (Ligature.longestFirst set).find? (·.trailing.isPrefixOf rest)
  | _, _ => none

/-- The ligature that the first subtable to form one forms. -/
def formedLigature (subtables : List Subtable) (text : List Glyph) : Option Ligature :=
  subtables.findSome? (·.ligature? text)

namespace Packing

/-- All components of a ligature that is filed under the first of them. -/
def components (item : Glyph × Ligature) : List Glyph := item.1 :: item.2.trailing

/-- Whether an item matches the beginning of a text, and no item that does so has more
components. -/
structure Longest (items : List (Glyph × Ligature)) (text : List Glyph) (i : Glyph × Ligature) :
    Prop where
  mem : i ∈ items
  matched : components i <+: text
  length_le : ∀ j ∈ items, components j <+: text → (components j).length ≤ (components i).length

variable {items : List (Glyph × Ligature)} {text : List Glyph}

/-! ## One subtable -/

theorem mem_valuesOf {g : Glyph} {l : Ligature} :
    l ∈ ByGlyph.valuesOf items g ↔ (g, l) ∈ items := by
  simp only [ByGlyph.valuesOf, List.mem_map, List.mem_filter, beq_iff_eq]
  constructor
  · rintro ⟨⟨g', l'⟩, ⟨h, rfl⟩, rfl⟩
    exact h
  · exact fun h => ⟨(g, l), ⟨h, rfl⟩, rfl⟩

theorem sorted_longestFirst (set : List Ligature) :
    (Ligature.longestFirst set).Pairwise fun a b => b.trailing.length ≤ a.trailing.length := by
  have := @List.pairwise_mergeSort Ligature
    (fun a b => decide (b.trailing.length ≤ a.trailing.length))
    (fun a b c hab hbc => by
      simp only [decide_eq_true_eq] at *
      omega)
    (fun a b => by
      simp only [Bool.or_eq_true, decide_eq_true_eq]
      omega)
    set
  simpa [Ligature.longestFirst] using this

/-- In a list that goes down in length, the first element that passes a test is a longest one. -/
theorem find?_longest {set : List Ligature}
    (hs : set.Pairwise fun a b => b.trailing.length ≤ a.trailing.length) {p : Ligature → Bool}
    {l : Ligature} (h : set.find? p = some l) :
    ∀ m ∈ set, p m = true → m.trailing.length ≤ l.trailing.length := by
  obtain ⟨-, before, after, rfl, hbefore⟩ := List.find?_eq_some_iff_append.1 h
  intro m hm hp
  rcases List.mem_append.1 hm with hm | hm
  · exact absurd hp (by simpa using hbefore m hm)
  · rcases List.mem_cons.1 hm with rfl | hm
    · exact Nat.le_refl _
    · exact (List.pairwise_cons.1 (List.pairwise_append.1 hs).2.1).1 m hm

/-- Whether the subtable of some items forms a ligature, and which. -/
theorem ligature?_group :
    match (Subtable.ligatureSub (.group items)).ligature? text with
    | none => ∀ i ∈ items, ¬ components i <+: text
    | some l => ∃ i, Longest items text i ∧ i.2 = l := by
  cases text with
  | nil =>
    intro i _ h
    simp [components] at h
  | cons g rest =>
    have hbegins {i : Glyph × Ligature} :
        components i <+: g :: rest ↔ i.1 = g ∧ i.2.trailing.isPrefixOf rest = true := by
      rw [components, List.cons_prefix_cons, List.isPrefixOf_iff_prefix]
    have hmem {l : Ligature} :
        l ∈ Ligature.longestFirst (ByGlyph.valuesOf items g) ↔ (g, l) ∈ items :=
      (Ligature.longestFirst_perm _).mem_iff.trans mem_valuesOf
    rw [Subtable.ligature?, ByGlyph.find?_group]
    split
    · next h =>
      split at h
      · next hnil =>
        intro i hi hm
        have : i.2 ∈ ByGlyph.valuesOf items g := mem_valuesOf.2 ((hbegins.1 hm).1 ▸ hi)
        rw [hnil] at this
        cases this
      · intro i hi hm
        obtain ⟨rfl, hp⟩ := hbegins.1 hm
        rw [Option.bind_some] at h
        exact List.find?_eq_none.1 h i.2 (hmem.2 hi) hp
    · next l h =>
      split at h
      · cases h
      · rw [Option.bind_some] at h
        have hl : (g, l) ∈ items := hmem.1 (List.mem_of_find?_eq_some h)
        have hp : l.trailing.isPrefixOf rest = true := by simpa using List.find?_some h
        refine ⟨(g, l), ⟨hl, hbegins.2 ⟨rfl, hp⟩, ?_⟩, rfl⟩
        intro j hj hm
        obtain ⟨rfl, hp⟩ := hbegins.1 hm
        have := find?_longest (sorted_longestFirst _) h j.2 (hmem.2 hj) hp
        simp only [components, List.length_cons]
        omega

/-! ## Items with different components -/

/-- Whether no two items have the same components. -/
def Distinct (items : List (Glyph × Ligature)) : Prop := (items.map components).Nodup

theorem Distinct.eq_of_components {i j : Glyph × Ligature} (hd : Distinct items) (hi : i ∈ items)
    (hj : j ∈ items) (h : components i = components j) : i = j :=
  List.inj_on_of_nodup_map hd hi hj h

/-- There is at most one longest match: two of one length are the same part of the text. -/
theorem Longest.unique {i j : Glyph × Ligature} (hd : Distinct items) (hi : Longest items text i)
    (hj : Longest items text j) : i = j := by
  have hlen : (components i).length = (components j).length :=
    Nat.le_antisymm (hj.length_le i hi.mem hi.matched) (hi.length_le j hj.mem hj.matched)
  refine hd.eq_of_components hi.mem hj.mem ?_
  rw [List.prefix_iff_eq_take.1 hi.matched, List.prefix_iff_eq_take.1 hj.matched, hlen]

theorem ligature?_of_longest (hd : Distinct items) {i : Glyph × Ligature}
    (hi : Longest items text i) :
    (Subtable.ligatureSub (.group items)).ligature? text = some i.2 := by
  have := @ligature?_group items text
  split at this
  · exact absurd hi.matched (this i hi.mem)
  · next l h =>
    obtain ⟨j, hj, rfl⟩ := this
    rw [h, hj.unique hd hi]

theorem ligature?_eq_none (h : ∀ i ∈ items, ¬ components i <+: text) :
    (Subtable.ligatureSub (.group items)).ligature? text = none := by
  have := @ligature?_group items text
  split at this
  · assumption
  · obtain ⟨i, hi, -⟩ := this
    exact absurd hi.matched (h i hi.mem)

/-- A text that is just the components of an item is the item's own. -/
theorem Longest.self {i : Glyph × Ligature} (hi : i ∈ items) : Longest items (components i) i :=
  ⟨hi, List.prefix_refl _, fun _ _ h => h.length_le⟩

/-- An item is known from its ligature and a text that it matches. -/
theorem eq_of_matched {i j : Glyph × Ligature} (hi : components i <+: text)
    (hj : components j <+: text) (h : i.2 = j.2) : i = j := by
  obtain ⟨more, rfl⟩ := hi
  rw [components, components, List.cons_append, List.cons_prefix_cons] at hj
  exact Prod.ext hj.1.symm h

/-! ## Several runs -/

/-- What the subtables of runs of items form. -/
def formedByRuns (runs : List (List (Glyph × Ligature))) (text : List Glyph) : Option Ligature :=
  formedLigature (runs.map fun run => .ligatureSub (.group run)) text

/-- Whether no item begins an item of a later run. -/
def Unhidden (runs : List (List (Glyph × Ligature))) : Prop :=
  runs.Pairwise fun earlier later =>
    ∀ i ∈ earlier, ∀ j ∈ later, ¬ components i <+: components j

instance (runs : List (List (Glyph × Ligature))) : Decidable (Unhidden runs) :=
  inferInstanceAs (Decidable (runs.Pairwise fun earlier later =>
    ∀ i ∈ earlier, ∀ j ∈ later, ¬ components i <+: components j))

theorem formedByRuns_cons (run : List (Glyph × Ligature))
    (runs : List (List (Glyph × Ligature))) (text : List Glyph) :
    formedByRuns (run :: runs) text =
      ((Subtable.ligatureSub (.group run)).ligature? text).or (formedByRuns runs text) := by
  rw [formedByRuns, List.map_cons, formedLigature, List.findSome?_cons]
  cases (Subtable.ligatureSub (.group run)).ligature? text <;> rfl

/-- If no item is hidden, the first run that forms a ligature forms the longest of all. -/
theorem formedByRuns_of_unhidden {runs : List (List (Glyph × Ligature))}
    (hd : Distinct runs.flatten) (hu : Unhidden runs) (text : List Glyph) :
    formedByRuns runs text = (Subtable.ligatureSub (.group runs.flatten)).ligature? text := by
  induction runs with
  | nil =>
    have hnone : ∀ i ∈ ([] : List (Glyph × Ligature)), ¬ components i <+: text := by
      intro i hi
      cases hi
    exact (ligature?_eq_none hnone).symm
  | cons run runs ih =>
    rw [Unhidden, List.pairwise_cons] at hu
    have hd' : Distinct runs.flatten := by
      rw [Distinct, List.flatten_cons, List.map_append] at hd
      exact hd.of_append_right
    rw [formedByRuns_cons, ih hd' hu.2]
    have hrun := @ligature?_group run text
    split at hrun
    · next hnone =>
      rw [hnone, Option.none_or]
      have hrest := @ligature?_group runs.flatten text
      split at hrest
      · next h =>
        rw [h, ligature?_eq_none]
        intro i hi
        rcases List.mem_append.1 hi with hi | hi
        · exact hrun i hi
        · exact hrest i hi
      · next l h =>
        obtain ⟨i, hi, rfl⟩ := hrest
        rw [h, ligature?_of_longest hd]
        refine ⟨List.mem_append_right _ hi.mem, hi.matched, fun j hj hm => ?_⟩
        rcases List.mem_append.1 hj with hj | hj
        · exact absurd hm (hrun j hj)
        · exact hi.length_le j hj hm
    · next l hsome =>
      obtain ⟨i, hi, rfl⟩ := hrun
      rw [hsome, Option.some_or, ligature?_of_longest hd]
      refine ⟨List.mem_append_left _ hi.mem, hi.matched, fun j hj hm => ?_⟩
      rcases List.mem_append.1 hj with hj | hj
      · exact hi.length_le j hj hm
      · -- one of two matches begins the other, and `i` begins nothing that comes later
        obtain ⟨later, hlater, hj⟩ := List.mem_flatten.1 hj
        rcases List.prefix_or_prefix_of_prefix hi.matched hm with h | h
        · exact absurd h (hu.1 later hlater i hi.mem j hj)
        · exact h.length_le

/-- If each item is formed from its own components, no item is hidden. -/
theorem unhidden_of_formedByRuns {runs : List (List (Glyph × Ligature))}
    (hd : Distinct runs.flatten)
    (h : ∀ j ∈ runs.flatten, formedByRuns runs (components j) = some j.2) : Unhidden runs := by
  induction runs with
  | nil => exact .nil
  | cons run runs ih =>
    rw [Distinct, List.flatten_cons, List.map_append, List.nodup_append] at hd
    have hfirst : ∀ i ∈ run, ∀ j ∈ runs.flatten, ¬ components i <+: components j := by
      intro i hi j hj hm
      have hj' := h j (List.mem_append_right _ hj)
      have hrun := @ligature?_group run (components j)
      rw [formedByRuns_cons] at hj'
      split at hrun
      · exact hrun i hi hm
      · next l hl =>
        obtain ⟨k, hk, rfl⟩ := hrun
        rw [hl, Option.some_or, Option.some.injEq] at hj'
        -- the item that is formed would stand in the first run and in a later one
        have hkj : k = j := eq_of_matched hk.matched (List.prefix_refl _) hj'
        subst hkj
        exact hd.2.2 _ (List.mem_map_of_mem hk.mem) _ (List.mem_map_of_mem hj) rfl
    refine List.pairwise_cons.2 ⟨?_, ih hd.2.1 fun j hj => ?_⟩
    · intro later hlater i hi j hj
      exact hfirst i hi j (List.mem_flatten.2 ⟨later, hlater, hj⟩)
    · have hj' := h j (List.mem_append_right _ hj)
      rw [formedByRuns_cons, ligature?_eq_none fun i hi => hfirst i hi j hj] at hj'
      exact hj'

theorem formedByRuns_iff {runs : List (List (Glyph × Ligature))} (hd : Distinct runs.flatten) :
    (∀ text, formedByRuns runs text =
      (Subtable.ligatureSub (.group runs.flatten)).ligature? text) ↔ Unhidden runs := by
  refine ⟨fun h => unhidden_of_formedByRuns hd fun j hj => ?_, formedByRuns_of_unhidden hd⟩
  rw [h, ligature?_of_longest hd (.self hj)]

/-! ## Packing a lookup -/

/-- The runs that the ligatures of some rules are cut into. -/
def ligatureRuns (budget : Budget) (rules : List Rule) : List (List (Glyph × Ligature)) :=
  (ligatures.cut budget (itemsOf ligatureItem? rules)).map Run.items

section
variable {rules : List Rule} {marks : Option MarkSet} {places : LookupPlaces}

theorem subtables_ligatureSub (budget : Budget) :
    (packLookup .ligatureSub rules marks places budget).subtables =
      (ligatureRuns budget rules).map fun run => .ligatureSub (.group run) := by
  rw [ligatureRuns, List.map_map]
  rfl

theorem flatten_ligatureRuns (budget : Budget) :
    (ligatureRuns budget rules).flatten = rules.filterMap fun r => ligatureItem? r.body :=
  flatten_cut _ budget

/-- Without a budget and breaks there is one run at most. -/
theorem unhidden_ligatureRuns_none (hb : ∀ r ∈ rules, r.breakBefore = false) :
    Unhidden (ligatureRuns none rules) := by
  rw [ligatureRuns, Gauge.cut_of_fits (fun s i => ⟨_, rfl⟩) (break_of_mem_itemsOf hb)]
  split
  · exact .nil
  · exact List.pairwise_singleton ..

theorem ligatureItem?_eq_some {body : RuleBody} {i : Glyph × Ligature} :
    ligatureItem? body = some i ↔ body = .ligatureSub (components i) i.2.glyph := by
  obtain ⟨g, trailing, l⟩ := i
  constructor
  · intro h
    unfold ligatureItem? at h
    split at h
    · cases h
      rfl
    · cases h
  · rintro rfl
    rfl

/-- Rules with different keys contribute items with different components. -/
theorem distinct_of_keys (hk : rules.Pairwise fun r r' => r.body.key ≠ r'.body.key) :
    Distinct (rules.filterMap fun r => ligatureItem? r.body) := by
  rw [Distinct, List.Nodup, List.pairwise_map, List.pairwise_filterMap]
  refine hk.imp ?_
  intro r r' hne i hi i' hi' he
  rw [ligatureItem?_eq_some] at hi hi'
  rw [hi, hi'] at hne
  exact hne (congrArg RuleKey.input he)

/-- If no rule begins a later one, no item is hidden, wherever the runs are cut. -/
theorem unhidden_of_ordered (budget : Budget)
    (h : rules.Pairwise fun r r' => ∀ cs cs' l l', cs ≠ [] → r.body = .ligatureSub cs l →
      r'.body = .ligatureSub cs' l' → ¬ cs <+: cs') : Unhidden (ligatureRuns budget rules) := by
  have hflat : (ligatureRuns budget rules).flatten.Pairwise fun i j =>
      ¬ components i <+: components j := by
    rw [flatten_ligatureRuns, List.pairwise_filterMap]
    refine h.imp ?_
    intro r r' hr i hi i' hi'
    rw [ligatureItem?_eq_some] at hi hi'
    exact hr _ _ _ _ (List.cons_ne_nil _ _) hi hi'
  rw [List.pairwise_flatten] at hflat
  exact hflat.2

/-- Whether a rule forms a ligature at the beginning of a text, and which. -/
def Forms (r : Rule) (text components : List Glyph) (glyph : Glyph) : Prop :=
  r.body = .ligatureSub components glyph ∧ components ≠ [] ∧ components <+: text

theorem forms_iff {r : Rule} {text cs : List Glyph} {glyph : Glyph} :
    Forms r text cs glyph ↔
      ∃ i, ligatureItem? r.body = some i ∧ components i = cs ∧ i.2.glyph = glyph ∧
        components i <+: text := by
  constructor
  · rintro ⟨hbody, hne, hm⟩
    cases cs with
    | nil => exact absurd rfl hne
    | cons g trailing => exact ⟨(g, ⟨trailing, glyph⟩), by rw [hbody]; rfl, rfl, rfl, hm⟩
  · rintro ⟨i, hi, rfl, rfl, hm⟩
    exact ⟨ligatureItem?_eq_some.1 hi, List.cons_ne_nil _ _, hm⟩

/-- **Splitting a lookup into subtables.** Without a budget, the ligature that is formed has the
most components of all that match. With a budget the same ligatures are formed exactly if no rule
begins a rule that comes to stand in a later subtable. -/
theorem formedLigature_split_iff {lookup : Lookup} {place : LookupPlace}
    (h : (distinctRules lookup place).value = some rules)
    (hb : ∀ r ∈ rules, r.breakBefore = false) (budget : Budget) :
    let packed (b : Budget) := (packLookup .ligatureSub rules marks places b).subtables
    (∀ text, match formedLigature (packed none) text with
      | none => ∀ r ∈ rules, ∀ cs glyph, ¬ Forms r text cs glyph
      | some l => ∃ r ∈ rules, ∃ cs, Forms r text cs l.glyph ∧ cs.tail = l.trailing ∧
          ∀ r' ∈ rules, ∀ cs' glyph', Forms r' text cs' glyph' → cs'.length ≤ cs.length) ∧
    ((∀ text, formedLigature (packed budget) text = formedLigature (packed none) text) ↔
      Unhidden (ligatureRuns budget rules)) := by
  have hd := distinct_of_keys (keys_distinctRules h)
  have hread (b : Budget) (text : List Glyph) :
      formedLigature (packLookup .ligatureSub rules marks places b).subtables text =
        formedByRuns (ligatureRuns b rules) text := by
    rw [subtables_ligatureSub, formedByRuns]
  have hnone (text : List Glyph) : formedByRuns (ligatureRuns none rules) text =
      (Subtable.ligatureSub (.group (rules.filterMap fun r => ligatureItem? r.body))).ligature?
        text := by
    rw [formedByRuns_of_unhidden _ (unhidden_ligatureRuns_none hb), flatten_ligatureRuns]
    rwa [flatten_ligatureRuns]
  simp only [hread]
  constructor
  · intro text
    have hlongest := @ligature?_group (rules.filterMap fun r => ligatureItem? r.body) text
    rw [hnone]
    split at hlongest
    · intro r hr cs glyph hf
      obtain ⟨i, hi, -, -, hm⟩ := forms_iff.1 hf
      exact hlongest i (List.mem_filterMap.2 ⟨r, hr, hi⟩) hm
    · obtain ⟨i, hi, rfl⟩ := hlongest
      obtain ⟨r, hr, hri⟩ := List.mem_filterMap.1 hi.mem
      refine ⟨r, hr, components i, forms_iff.2 ⟨i, hri, rfl, rfl, hi.matched⟩, rfl, ?_⟩
      intro r' hr' cs' glyph' hf
      obtain ⟨j, hj, rfl, -, hm⟩ := forms_iff.1 hf
      exact hi.length_le j (List.mem_filterMap.2 ⟨r', hr', hj⟩) hm
  · simp only [hnone, ← flatten_ligatureRuns budget]
    refine formedByRuns_iff ?_
    rwa [flatten_ligatureRuns]

end

/-- A lookup that lists these rules and has no name. -/
def ligatureLookup (rules : List Rule) : Lookup := ⟨none, .ligatureSub, 0, none, none, rules⟩

/-- Three components before the first two of them. -/
def longerFirst : List Rule :=
  [⟨.ligatureSub [1, 2, 3] 11, none, false⟩, ⟨.ligatureSub [1, 2] 10, none, false⟩]

/-- Two components before three that begin with them. -/
def shorterFirst : List Rule :=
  [⟨.ligatureSub [1, 2] 10, none, false⟩, ⟨.ligatureSub [1, 2, 3] 11, none, false⟩]

/-- If the longer rule comes first, a subtable for each rule does no harm. -/
theorem formedLigature_longerFirst :
    (distinctRules (ligatureLookup longerFirst) ⟨none, none⟩).value = some longerFirst ∧
      (packLookup .ligatureSub longerFirst none ∅ (some 0)).subtables.length = 2 ∧
      ∀ text, formedLigature (packLookup .ligatureSub longerFirst none ∅ (some 0)).subtables text =
        formedLigature (packLookup .ligatureSub longerFirst none ∅ none).subtables text := by
  have h : (distinctRules (ligatureLookup longerFirst) ⟨none, none⟩).value = some longerFirst := by
    rfl
  exact ⟨h, by rfl, (formedLigature_split_iff h (by decide) (some 0)).2.2 (by decide +kernel)⟩

/-- If the shorter rule comes first, a subtable for each rule hides the longer one. -/
theorem formedLigature_shorterFirst :
    (distinctRules (ligatureLookup shorterFirst) ⟨none, none⟩).value = some shorterFirst ∧
      (∀ r ∈ shorterFirst, r.breakBefore = false) ∧
      formedLigature (packLookup .ligatureSub shorterFirst none ∅ (some 0)).subtables [1, 2, 3] =
        some ⟨[2], 10⟩ ∧
      formedLigature (packLookup .ligatureSub shorterFirst none ∅ none).subtables [1, 2, 3] =
        some ⟨[2, 3], 11⟩ := by
  let items : List (Glyph × Ligature) := [(1, ⟨[2], 10⟩), (1, ⟨[2, 3], 11⟩)]
  have hone : (packLookup .ligatureSub shorterFirst none ∅ none).subtables =
      [.ligatureSub (.group items)] := by
    rfl
  have hd : Distinct items := by
    rw [Distinct]
    decide
  have hi : (1, ⟨[2, 3], 11⟩) ∈ items := by decide
  refine ⟨by rfl, by decide, by decide +kernel, ?_⟩
  rw [hone, formedLigature, List.findSome?_singleton]
  exact ligature?_of_longest hd (.self hi)

end Packing
end FontLayout
