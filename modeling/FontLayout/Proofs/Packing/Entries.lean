import FontLayout.Packing.Lookup
import FontLayout.Proofs.Glyph.Keyed
import FontLayout.Proofs.Lookup.Distinct
import FontLayout.Proofs.Packing.ClassPairs
/-!
# What each input finds in a packed lookup

The items of a lookup answer inputs: a glyph, or two glyphs in order. An entry is such an input
with the answer. The entries of a subtable are read off the subtable, so they do not depend on
how it was packed, and packing a lookup neither loses, changes nor repeats the entry of an item,
wherever the budget and the breaks cut.

Pairs of classes, ligatures and contexts do not answer one input each, and have no entry. They
count as items all the same: they stand in runs, and runs are cut between them.

Results:
* `Subtable.nodup_keys`: no subtable answers an input twice.
* `Gathered.nodup_items`: what is gathered by glyph has one item for each glyph.
* `entries_packLookup`: a packed lookup is cut from its items and has exactly their entries.
-/
namespace FontLayout

/-! ## Entries -/

/-- What a lookup does with one input. -/
inductive Output where
  | glyph (replacement : Glyph)
  | sequence (glyphs : List Glyph)
  | value (v : ValueRecord)
  | values (v : PairValues)
  | ends (entry exit : Option Anchor)
  | row (anchors : AnchorRow)
  | rows (components : List AnchorRow)
deriving DecidableEq

/-- An input, and what is done with it. -/
structure Entry where
  key : List Glyph
  output : Output
deriving DecidableEq

/-- The entries of values by glyph. -/
def ByGlyph.outputs {α : Type} (output : α → Output) (m : ByGlyph α) : List Entry :=
  m.entries.map fun e => ⟨[e.1], output e.2⟩

/-- The entries of values by two glyphs. -/
def pairOutputs (rows : ByGlyph (ByGlyph PairValues)) : List Entry :=
  rows.entries.flatMap fun row => row.2.entries.map fun e => ⟨[row.1, e.1], .values e.2⟩

/-- The entries of a subtable. -/
def Subtable.entries : Subtable → List Entry
  | .singleSub mapping => mapping.outputs .glyph
  | .multipleSub mapping => mapping.outputs .sequence
  | .alternateSub mapping => mapping.outputs .sequence
  | .singlePos values => values.outputs .value
  | .glyphPairs rows => pairOutputs rows
  | .cursive anchors => anchors.outputs fun a => .ends a.1 a.2
  | .markToBase content => content.bases.outputs .row
  | .markToMark content => content.bases.outputs .row
  | .markToLigature content => content.bases.outputs .rows
  | .ligatureSub _ | .reverseChainSub _ | .chain _ | .classPairs _ => []

/-- No input is answered twice: the glyphs of a subtable ascend. -/
theorem Subtable.nodup_keys (s : Subtable) : (s.entries.map Entry.key).Nodup := by
  have hsingle {α : Type} (output : α → Output) (m : ByGlyph α) :
      ((m.outputs output).map Entry.key).Nodup := by
    rw [ByGlyph.outputs, List.map_map]
    have hkeys := m.nodup_keys.map (f := fun g => [g]) fun _ _ h => List.head_eq_of_cons_eq h
    simpa [Function.comp_def] using hkeys
  cases s with
  | glyphPairs rows =>
    rw [entries, pairOutputs, List.map_flatMap, List.nodup_flatMap]
    refine ⟨fun row _ => ?_, ?_⟩
    · have hkeys := row.2.nodup_keys.map (f := fun g => [row.1, g]) fun _ _ h => by simpa using h
      simpa [Function.comp_def] using hkeys
    · have hne : rows.entries.Pairwise fun r r' => r.1 ≠ r'.1 :=
        List.pairwise_map.1 rows.nodup_keys
      refine hne.imp ?_
      intro r r' hr key hm hm'
      simp only [List.map_map, List.mem_map, Function.comp_apply] at hm hm'
      obtain ⟨e, -, rfl⟩ := hm
      obtain ⟨e', -, he⟩ := hm'
      exact hr (List.head_eq_of_cons_eq he).symm
  | cursive anchors => exact hsingle (fun a => .ends a.1 a.2) anchors
  | singleSub | multipleSub | alternateSub | singlePos | markToBase | markToMark
  | markToLigature => exact hsingle _ _
  | ligatureSub | reverseChainSub | chain | classPairs => exact List.nodup_nil

namespace Packing

/-! ## Items -/

/-- The entry of an item that answers one glyph. -/
def glyphEntry {α : Type} (output : α → Output) (i : Glyph × α) : Option Entry :=
  some ⟨[i.1], output i.2⟩

/-- The entry of a pair; pairs of classes have none. -/
def PairItem.entryOf : PairItem → Option Entry
  | .glyphs first second v => some ⟨[first, second], .values v⟩
  | .classes .. => none

/-- Items as their entries, each with the word whether a break precedes it. -/
def toEntries {ι : Type} (entryOf : ι → Option Entry) (items : List (ι × Bool)) :
    List (Option Entry × Bool) :=
  items.map fun i => (entryOf i.1, i.2)

/-- The items of a lookup, as their entries. -/
def entryItems (kind : Kind) (rules : List Rule) (marks : Option MarkSet) :
    List (Option Entry × Bool) :=
  let marks := marks.getD ⟨[], .empty⟩
  match kind with
  | .singleSub => toEntries (glyphEntry .glyph) (itemsOf singleItem? rules)
  | .multipleSub | .alternateSub =>
    toEntries (glyphEntry .sequence) (itemsOf sequenceItem? rules)
  | .singlePos => toEntries (glyphEntry .value) (itemsOf singlePosItem? rules)
  | .pairPos => toEntries PairItem.entryOf (itemsOf pairItem? rules)
  | .cursivePos => toEntries (glyphEntry fun a => .ends a.1 a.2) (itemsOf cursiveItem? rules)
  | .markToBase | .markToMark => toEntries (glyphEntry .row) (baseItems marks rules)
  | .markToLigature => toEntries (glyphEntry .rows) (ligatureItems marks rules)
  | .ligatureSub => toEntries (fun _ => none) (itemsOf ligatureItem? rules)
  | .chainSub | .chainPos => toEntries (fun _ => none) (itemsOf RuleBody.context? rules)
  | .reverseChainSub => toEntries (fun _ => none) (itemsOf reverseItem? rules)

/-! ## What a run becomes -/

/-- Whether the subtable of a run has the entries of its items, if these answer different
inputs. -/
def Faithful {ι σ : Type} (p : Packer ι σ) (entryOf : ι → Option Entry) : Prop :=
  ∀ budget items state, p.toGauge.Grown budget items state →
    ((items.filterMap entryOf).map Entry.key).Nodup →
    ∀ e, e ∈ (p.build items).entries ↔ e ∈ items.filterMap entryOf

section
variable {α : Type} {output : α → Output}

theorem filterMap_glyphEntry (xs : List (Glyph × α)) :
    xs.filterMap (glyphEntry output) = xs.map fun i => ⟨[i.1], output i.2⟩ := by
  rw [← List.filterMap_eq_map]
  rfl

theorem nodup_of_glyphEntries {xs : List (Glyph × α)}
    (h : ((xs.filterMap (glyphEntry output)).map Entry.key).Nodup) :
    (xs.map Prod.fst).Nodup := by
  have hkeys : (xs.filterMap (glyphEntry output)).map Entry.key =
      (xs.map Prod.fst).map fun g => [g] := by
    rw [filterMap_glyphEntry, List.map_map, List.map_map]
    rfl
  rw [hkeys] at h
  exact h.of_map _

theorem mem_outputs_ofFirst {xs : List (Glyph × α)} (h : (xs.map Prod.fst).Nodup) {e : Entry} :
    e ∈ (ByGlyph.ofFirst xs).outputs output ↔ e ∈ xs.filterMap (glyphEntry output) := by
  have hmem : ∀ g a, (g, a) ∈ (ByGlyph.ofFirst xs).entries ↔ (g, a) ∈ xs := by
    intro g a
    rw [← ByGlyph.find?_eq_some_iff, ByGlyph.find?_ofFirst, lookup_eq_some_iff_of_nodup h]
  rw [filterMap_glyphEntry, ByGlyph.outputs]
  simp only [List.mem_map, Prod.exists, hmem]

/-- A packer that keeps the first value of each glyph is faithful. -/
theorem faithful_ofFirst {σ : Type} {p : Packer (Glyph × α) σ}
    (hp : ∀ xs, (p.build xs).entries = (ByGlyph.ofFirst xs).outputs output) :
    Faithful p (glyphEntry output) := by
  intro budget items state _ hkeys e
  rw [hp]
  exact mem_outputs_ofFirst (nodup_of_glyphEntries hkeys)

end

/-! ## Pairs -/

/-- The glyph pairs among items, each with its first glyph in front. -/
def glyphPairItems (items : List PairItem) : List (Glyph × Glyph × PairValues) :=
  items.filterMap fun
    | .glyphs first second v => some (first, (second, v))
    | .classes .. => none

theorem mem_entries_glyphPairRows {items : List PairItem} {g : Glyph} {row : ByGlyph PairValues} :
    (g, row) ∈ (glyphPairRows items).entries ↔
      ByGlyph.valuesOf (glyphPairItems items) g ≠ [] ∧
        row = .ofFirst (ByGlyph.valuesOf (glyphPairItems items) g) := by
  have hmap : (glyphPairRows items).find? g =
      ((ByGlyph.group (glyphPairItems items)).find? g).map ByGlyph.ofFirst :=
    ByGlyph.lookup_map_snd ByGlyph.ofFirst _ g
  rw [← ByGlyph.find?_eq_some_iff, hmap, ByGlyph.find?_group]
  split
  · next h => simp [h]
  · next h => simp [h, eq_comm]

namespace Gathered
variable {α : Type}

/-- What holds between two rules: the glyphs are listed once each, and all have a record. -/
structure Listed (s : Gathered α) : Prop where
  nodup : s.order.Nodup
  known : ∀ g ∈ s.order, g ∈ s.records

theorem listed_empty : Listed (empty : Gathered α) := by
  refine ⟨List.nodup_nil, ?_⟩
  intro g hg
  cases hg

theorem Listed.addGlyph {s : Gathered α} (h : s.Listed) (fresh : α) (update : α → α) (g : Glyph) :
    (s.addGlyph fresh update g).Listed := by
  unfold Gathered.addGlyph
  split
  · refine ⟨h.nodup, fun k hk => ?_⟩
    rw [Std.TreeMap.mem_insert]
    exact .inr (h.known k hk)
  · next hnone =>
    refine ⟨List.nodup_cons.2 ⟨fun hg => ?_, h.nodup⟩, fun k hk => ?_⟩
    · have hsome := Std.TreeMap.getElem?_eq_some_getElem (h.known g hg)
      rw [hnone] at hsome
      cases hsome
    · rw [Std.TreeMap.mem_insert, Std.LawfulEqCmp.compare_eq_iff_eq]
      rcases List.mem_cons.1 hk with rfl | hk
      · exact .inl rfl
      · exact .inr (h.known k hk)

theorem Listed.addRule {s : Gathered α} (h : s.Listed) (fresh : α) (update : α → α)
    (glyphs : GlyphSet) (b : Bool) : (s.addRule fresh update glyphs b).Listed := by
  have hstart : Listed { s with pendingBreak := s.pendingBreak || b } := ⟨h.nodup, h.known⟩
  rw [Gathered.addRule]
  generalize glyphs.members = gs at *
  generalize { s with pendingBreak := s.pendingBreak || b } = t at hstart
  induction gs generalizing t with
  | nil => exact hstart
  | cons g gs ih => exact ih _ (hstart.addGlyph fresh update g)

theorem Listed.foldl {step : Gathered α → Rule → Gathered α}
    (hstep : ∀ s r, s.Listed → (step s r).Listed) (rules : List Rule) :
    Listed (rules.foldl step .empty) := by
  suffices ∀ s : Gathered α, s.Listed → (rules.foldl step s).Listed from this _ listed_empty
  induction rules with
  | nil => exact fun _ h => h
  | cons r rules ih => exact fun s h => ih _ (hstep s r h)

/-- No glyph has two items. -/
theorem Listed.nodup_items {s : Gathered α} (h : s.Listed) :
    (s.items.map fun i => i.1.1).Nodup := by
  have hne : s.order.reverse.Pairwise (· ≠ ·) := List.nodup_reverse.2 h.nodup
  rw [items, List.Nodup, List.pairwise_map, List.pairwise_filterMap]
  refine hne.imp ?_
  intro g g' hg i hi j hj
  obtain ⟨_, -, rfl⟩ := Option.map_eq_some_iff.1 hi
  obtain ⟨_, -, rfl⟩ := Option.map_eq_some_iff.1 hj
  exact hg

end Gathered

theorem listed_bases (marks : MarkSet) (rules : List Rule) :
    (rules.foldl (baseStep marks) .empty).Listed := by
  refine Gathered.Listed.foldl ?_ rules
  intro s r h
  unfold baseStep
  split
  · exact h.addRule ..
  · exact h

theorem listed_ligatures (marks : MarkSet) (rules : List Rule) :
    (rules.foldl (ligatureStep marks) .empty).Listed := by
  refine Gathered.Listed.foldl ?_ rules
  intro s r h
  unfold ligatureStep
  split
  · exact h.addRule ..
  · exact h

/-- The inputs of items, in order. -/
def inputs (items : List (Option Entry × Bool)) : List (List Glyph) :=
  (items.filterMap Prod.fst).map Entry.key

theorem filterMap_toEntries {ι : Type} (entryOf : ι → Option Entry) (items : List (ι × Bool)) :
    (toEntries entryOf items).filterMap Prod.fst = (items.map Prod.fst).filterMap entryOf := by
  rw [toEntries, List.filterMap_map, List.filterMap_map]
  rfl

theorem nodup_inputs_glyph {α : Type} {output : α → Output} {items : List ((Glyph × α) × Bool)}
    (h : (items.map fun i => i.1.1).Nodup) :
    (inputs (toEntries (glyphEntry output) items)).Nodup := by
  rw [inputs, filterMap_toEntries, filterMap_glyphEntry, List.map_map, List.map_map]
  have hkeys := h.map (f := fun g => [g]) fun _ _ h => List.head_eq_of_cons_eq h
  rw [List.map_map] at hkeys
  exact hkeys

theorem nodup_inputs_none {ι : Type} (items : List (ι × Bool)) :
    (inputs (toEntries (fun _ => none) items)).Nodup := by
  rw [inputs, filterMap_toEntries, List.filterMap_none]
  exact List.nodup_nil

/-- Where the input of an item tells the key of its rule, rules of different keys have items of
different inputs. -/
theorem nodup_inputs_itemsOf {ι : Type} {item? : RuleBody → Option ι}
    {entryOf : ι → Option Entry} {rules : List Rule}
    (hrules : rules.Pairwise fun r r' => r.body.key ≠ r'.body.key) (keyOf : List Glyph → RuleKey)
    (hkey : ∀ body i e, item? body = some i → entryOf i = some e → body.key = keyOf e.key) :
    (inputs (toEntries entryOf (itemsOf item? rules))).Nodup := by
  rw [inputs, filterMap_toEntries, map_fst_itemsOf, List.filterMap_filterMap, List.Nodup,
    List.pairwise_map, List.pairwise_filterMap]
  refine hrules.imp ?_
  intro r r' hne e he e' he' heq
  obtain ⟨i, hi, he⟩ := Option.bind_eq_some_iff.1 he
  obtain ⟨i', hi', he'⟩ := Option.bind_eq_some_iff.1 he'
  exact hne (by rw [hkey _ _ _ hi he, hkey _ _ _ hi' he', heq])

section
variable {lookup : Lookup} {place : LookupPlace} {rules : List Rule}
  (h : (distinctRules lookup place).value = some rules)

include h

/-- No two items of a sifted lookup answer the same input. The key of a cursive rule is the whole
rule, so of cursive rules this has to be asked. -/
theorem nodup_inputs (marks : Option MarkSet)
    (hc : lookup.kind = .cursivePos →
      ((rules.filterMap fun r => cursiveItem? r.body).map Prod.fst).Nodup) :
    (inputs (entryItems lookup.kind rules marks)).Nodup := by
  have hk := keys_distinctRules h
  cases hkind : lookup.kind with
  | singleSub | multipleSub | alternateSub | singlePos =>
    refine nodup_inputs_itemsOf hk .input ?_
    intro body i e hi he
    cases body <;> cases hi
    all_goals cases he; rfl
  | pairPos =>
    let keyOf (glyphs : List Glyph) : RuleKey :=
      .pair (.glyph (glyphs.headD 0)) (.glyph (glyphs.getLastD 0))
    refine nodup_inputs_itemsOf hk keyOf ?_
    intro body i e hi he
    unfold pairItem? at hi
    split at hi
    · cases hi
      cases he
      rfl
    · cases hi
      cases he
    · cases hi
  | cursivePos =>
    refine nodup_inputs_glyph ?_
    have hn := hc hkind
    rwa [← map_fst_itemsOf, List.map_map] at hn
  | markToBase | markToMark =>
    refine nodup_inputs_glyph ?_
    have hn := (listed_bases (marks.getD ⟨[], .empty⟩) rules).nodup_items
    rw [baseItems, List.map_map]
    exact hn
  | markToLigature =>
    refine nodup_inputs_glyph ?_
    have hn := (listed_ligatures (marks.getD ⟨[], .empty⟩) rules).nodup_items
    rw [ligatureItems, List.map_map]
    exact hn
  | ligatureSub | chainSub | chainPos | reverseChainSub => exact nodup_inputs_none _

end

/-! ## Packing a lookup -/

/-- Whether subtables are cut from items: a list of runs, one after another all the items, and for
each run a subtable with the entries of its items. No run is empty, and every item that a break
precedes is the first of its run. -/
def CutFrom (items : List (Option Entry × Bool)) (subtables : List Subtable) : Prop :=
  ∃ runs : List (List (Option Entry × Bool)), runs.flatten = items ∧
    (∀ run ∈ runs, run ≠ [] ∧ ∀ item ∈ run.tail, item.2 = false) ∧
    List.Forall₂ (fun run s => s.entries.Perm (run.filterMap Prod.fst)) runs subtables

/-- Whether an entry is what its input finds in one subtable, and no other subtable answers the
input. -/
def FoundOnce (subtables : List Subtable) (e : Entry) : Prop :=
  ∃ before s after, subtables = before ++ s :: after ∧
    (∀ e', e' ∈ s.entries ∧ e'.key = e.key ↔ e' = e) ∧
    ∀ t ∈ before ++ after, ∀ e' ∈ t.entries, e'.key ≠ e.key

theorem nodup_inputs_of_sublist {ι : Type} {entryOf : ι → Option Entry} {xs ys : List ι}
    (h : xs.Sublist ys) (hn : ((ys.filterMap entryOf).map Entry.key).Nodup) :
    ((xs.filterMap entryOf).map Entry.key).Nodup :=
  hn.sublist ((h.filterMap entryOf).map Entry.key)

theorem cutFrom_pack {ι σ : Type} {p : Packer ι σ} {entryOf : ι → Option Entry}
    (hp : Faithful p entryOf) {items : List (ι × Bool)}
    (hn : (inputs (toEntries entryOf items)).Nodup) (budget : Budget) :
    CutFrom (toEntries entryOf items) (p.pack budget items).subtables := by
  rw [inputs, filterMap_toEntries] at hn
  obtain ⟨runs, hflat, hcut, hruns⟩ := p.exists_splits_cut budget items
  refine ⟨runs.map (toEntries entryOf), ?_, ?_, ?_⟩
  · rw [← hflat]
    exact (List.map_flatten ..).symm
  · intro run hrun
    obtain ⟨run, hr, rfl⟩ := List.mem_map.1 hrun
    obtain ⟨hne, hbreak⟩ := hruns run hr
    refine ⟨by simpa [toEntries] using hne, ?_⟩
    intro item hi
    rw [toEntries, ← List.map_tail] at hi
    obtain ⟨i, htail, rfl⟩ := List.mem_map.1 hi
    exact hbreak i htail
  · have hsubtables : (p.pack budget items).subtables =
        ((p.cut budget items).map Run.items).map p.build := by
      rw [List.map_map]
      rfl
    rw [hsubtables, hcut, List.map_map, List.forall₂_map_left_iff, List.forall₂_map_right_iff,
      List.forall₂_same]
    intro run hr
    rw [filterMap_toEntries]
    -- the run is one that is cut, so it has grown
    have hmem : run.map Prod.fst ∈ (p.cut budget items).map Run.items := by
      rw [hcut]
      exact List.mem_map_of_mem hr
    obtain ⟨r, hrcut, hritems⟩ := List.mem_map.1 hmem
    obtain ⟨state, hgrown⟩ := Gauge.grown_of_mem_cut hrcut
    rw [hritems] at hgrown
    have hsub : (run.map Prod.fst).Sublist (items.map Prod.fst) := by
      rw [← hflat]
      exact (List.sublist_flatten_of_mem hr).map Prod.fst
    have hnrun := nodup_inputs_of_sublist hsub hn
    refine (List.perm_ext_iff_of_nodup ?_ hnrun.of_map).2 fun e => hp _ _ _ hgrown hnrun e
    exact (Subtable.nodup_keys _).of_map

theorem CutFrom.perm {items : List (Option Entry × Bool)} {subtables : List Subtable}
    (h : CutFrom items subtables) :
    (subtables.flatMap Subtable.entries).Perm (items.filterMap Prod.fst) := by
  obtain ⟨runs, rfl, -, hs⟩ := h
  rw [List.filterMap_flatten, List.flatMap_def]
  induction hs with
  | nil => exact .refl _
  | cons hrun _ ih => exact hrun.append ih

theorem foundOnce_of_nodup {subtables : List Subtable}
    (h : ((subtables.flatMap Subtable.entries).map Entry.key).Nodup) {e : Entry}
    (he : e ∈ subtables.flatMap Subtable.entries) : FoundOnce subtables e := by
  obtain ⟨s, hs, hes⟩ := List.mem_flatMap.1 he
  obtain ⟨before, after, rfl⟩ := List.append_of_mem hs
  refine ⟨before, s, after, rfl, ?_, ?_⟩
  · intro e'
    constructor
    · rintro ⟨he', hkey⟩
      exact List.inj_on_of_nodup_map s.nodup_keys he' hes hkey
    · rintro rfl
      exact ⟨hes, rfl⟩
  · intro t ht e' he' hkey
    rw [List.flatMap_append, List.flatMap_cons] at h
    have hmem : e' ∈ before.flatMap Subtable.entries ∨ e' ∈ after.flatMap Subtable.entries := by
      rw [← List.mem_append, ← List.flatMap_append]
      exact List.mem_flatMap.2 ⟨t, ht, he'⟩
    simp only [List.map_append, List.nodup_append] at h
    have hself := List.mem_map_of_mem (f := Entry.key) hes
    rcases hmem with hm | hm
    · refine h.2.2 e'.key (List.mem_map_of_mem hm) e.key ?_ hkey
      exact List.mem_append_left _ hself
    · exact h.2.1.2.2 e.key hself e'.key (List.mem_map_of_mem hm) hkey.symm

end Packing
end FontLayout
