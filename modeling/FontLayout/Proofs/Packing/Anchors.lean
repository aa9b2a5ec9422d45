import FontLayout.Proofs.Packing.Gathering
import FontLayout.Proofs.Packing.Sizes
/-!
# The anchors of a packed lookup

Validation and packing read the same rules, but not together: each has its own idea of which bases
there are, of what comes first and of the numbers of mark classes. If validation finds no error,
what is packed is what the rules give, to the last anchor.

Validation also warns of every class for which a base has no anchor, because packing puts the
origin there. It takes for a base what is given an anchor of some class. Packing takes for a base
whatever a rule attaches marks to, and a base that is given no anchor at all gets the origin
everywhere without a warning.

Results:
* `anchoredOnce_of_entry`: what is gathered for a glyph stands in one subtable.
* `anchors_of_validateLookup`: without errors, no anchor is lost or overruled.
* `defaulted_iff`: which bases get the origin that no rule gives them, and which of them are
  reported.
-/
namespace FontLayout

/-! ## Reading subtables -/

/-- The anchors that an output holds for each component. -/
def Output.rows? : Output → Option (List AnchorRow)
  | .row anchors => some [anchors]
  | .rows components => some components
  | _ => none

namespace Subtable

/-- The marks that a subtable carries. -/
def marks? : Subtable → Option MarkRecords
  | .markToBase content | .markToMark content => some content.marks
  | .markToLigature content => some content.marks
  | _ => none

/-- The anchors that a subtable has for a glyph, a row for each component. -/
def anchorRows? (s : Subtable) (g : Glyph) : Option (List AnchorRow) :=
  match s with
  | .markToBase content | .markToMark content => (content.bases.find? g).map fun row => [row]
  | .markToLigature content => content.bases.find? g
  | _ => none

theorem mem_outputs {α : Type} {output : α → Output} {m : ByGlyph α} {g : Glyph} {o : Output} :
    ⟨[g], o⟩ ∈ m.outputs output ↔ ∃ a, m.find? g = some a ∧ output a = o := by
  simp only [ByGlyph.outputs, List.mem_map, Entry.mk.injEq, List.cons.injEq, and_true,
    ByGlyph.find?_eq_some_iff, Prod.exists]
  constructor
  · rintro ⟨_, a, ha, rfl, rfl⟩
    exact ⟨a, ha, rfl⟩
  · rintro ⟨a, ha, rfl⟩
    exact ⟨g, a, ha, rfl, rfl⟩

/-- A subtable has anchors for the glyphs that its entries have anchors for. -/
theorem anchorRows?_eq_some_iff {s : Subtable} {g : Glyph} {rows : List AnchorRow} :
    s.anchorRows? g = some rows ↔ ∃ o, ⟨[g], o⟩ ∈ s.entries ∧ o.rows? = some rows := by
  cases s with
  | glyphPairs table =>
    refine iff_of_false (by simp [anchorRows?]) ?_
    rintro ⟨o, ho, -⟩
    simp [entries, pairOutputs] at ho
  | _ => simp [anchorRows?, entries, mem_outputs, Output.rows?]

end Subtable

/-- Whether a glyph has these anchors in one subtable, and none in any other. -/
def AnchoredOnce (subtables : List Subtable) (g : Glyph) (rows : List AnchorRow) : Prop :=
  ∃ before s after, subtables = before ++ s :: after ∧ s.anchorRows? g = some rows ∧
    ∀ t ∈ before ++ after, t.anchorRows? g = none

namespace Packing

theorem anchoredOnce_of_foundOnce {subtables : List Subtable} {g : Glyph} {o : Output}
    {rows : List AnchorRow} (h : FoundOnce subtables ⟨[g], o⟩) (ho : o.rows? = some rows) :
    AnchoredOnce subtables g rows := by
  obtain ⟨before, s, after, rfl, hs, hothers⟩ := h
  refine ⟨before, s, after, rfl, ?_, fun t ht => ?_⟩
  · exact Subtable.anchorRows?_eq_some_iff.2 ⟨o, ((hs _).2 rfl).1, ho⟩
  · cases hrows : t.anchorRows? g with
    | none => rfl
    | some rows =>
      obtain ⟨o', ho', -⟩ := Subtable.anchorRows?_eq_some_iff.1 hrows
      exact (hothers t ht _ ho' rfl).elim

/-! ## What is packed -/

theorem mem_toEntries {α : Type} {output : α → Output} {items : List ((Glyph × α) × Bool)}
    {g : Glyph} {o : Output} :
    ⟨[g], o⟩ ∈ (toEntries (glyphEntry output) items).filterMap Prod.fst ↔
      ∃ a, (∃ b, ((g, a), b) ∈ items) ∧ output a = o := by
  rw [filterMap_toEntries, filterMap_glyphEntry]
  simp only [List.mem_map, Entry.mk.injEq, List.cons.injEq, and_true, Prod.exists,
    exists_and_right, exists_eq_right]
  constructor
  · rintro ⟨_, a, hb, rfl, rfl⟩
    exact ⟨a, hb, rfl⟩
  · rintro ⟨a, hb, rfl⟩
    exact ⟨g, a, hb, rfl, rfl⟩

section
variable {lookup : Lookup} {place : LookupPlace} {rules : List Rule}
  (h : (distinctRules lookup place).value = some rules)
  (hkind : lookup.kind ∈ Kind.attaching)

include h hkind

theorem nodup_inputs_attaching (marks : MarkSet) :
    (inputs (entryItems lookup.kind rules (some marks))).Nodup := by
  refine nodup_inputs h (some marks) fun hcursive => ?_
  rw [hcursive] at hkind
  exact absurd hkind (by decide)

/-- A lookup that attaches marks has exactly the entries of its items. -/
theorem perm_entries_attaching (marks : MarkSet) (places : LookupPlaces) (budget : Budget) :
    ((packLookup lookup.kind rules (some marks) places budget).subtables.flatMap
      Subtable.entries).Perm
      ((entryItems lookup.kind rules (some marks)).filterMap Prod.fst) := by
  refine CutFrom.perm ?_
  have hn := nodup_inputs_attaching h hkind marks
  simp only [Kind.attaching, List.mem_cons, List.not_mem_nil, or_false] at hkind
  rcases hkind with hk | hk | hk
  all_goals
    rw [hk] at hn ⊢
    exact cutFrom_pack (faithful_ofFirst fun _ => rfl) hn budget

/-- What is gathered for a glyph stands in one subtable. -/
theorem anchoredOnce_of_entry {marks : MarkSet} {g : Glyph} {o : Output} {rows : List AnchorRow}
    (ho : ⟨[g], o⟩ ∈ (entryItems lookup.kind rules (some marks)).filterMap Prod.fst)
    (hrows : o.rows? = some rows) (places : LookupPlaces) (budget : Budget) :
    AnchoredOnce (packLookup lookup.kind rules (some marks) places budget).subtables g rows := by
  have hperm := perm_entries_attaching h hkind marks places budget
  have hn := nodup_inputs_attaching h hkind marks
  refine anchoredOnce_of_foundOnce (foundOnce_of_nodup ?_ (hperm.mem_iff.2 ho)) hrows
  exact (hperm.map Entry.key).nodup_iff.2 hn

end

/-- The marks of the lookup are in each of its subtables. -/
theorem marks?_of_packed {kind : Kind} (hkind : kind ∈ Kind.attaching) {rules : List Rule}
    {marks : MarkSet} {places : LookupPlaces} {budget : Budget} {s : Subtable}
    (hs : s ∈ (packLookup kind rules (some marks) places budget).subtables) :
    s.marks? = some marks.marks := by
  rw [subtables_packLookup] at hs
  obtain ⟨run, -, rfl⟩ := List.mem_map.1 hs
  simp only [Kind.attaching, List.mem_cons, List.not_mem_nil, or_false] at hkind
  rcases hkind with rfl | rfl | rfl <;> rfl

/-! ## Rows -/

theorem getElem?_fullRow (row : AnchorRow) (i : Nat) :
    (fullRow row)[i]? = row[i]?.map fun a => some (a.getD .origin) := by
  rw [fullRow, List.getElem?_map]

section
variable {lookup : Lookup} {place : LookupPlace} {rules : List Rule}
  (h : (distinctRules lookup place).value = some rules)
  (hkind : lookup.kind ∈ Kind.attaching)

include h hkind

/-- Where rules give anchors for a component of a glyph, the one subtable with that glyph has a
row for the component, and in it for each class the first anchor. -/
theorem exists_row_of_anchorsOf {marks : MarkSet} {g : Glyph} {k : Nat}
    (hne : anchorsOf marks rules g k ≠ []) (places : LookupPlaces) (budget : Budget) :
    ∃ rows row,
      AnchoredOnce (packLookup lookup.kind rules (some marks) places budget).subtables g rows ∧
      rows[k]? = some row ∧ ∀ i < marks.classCount.toNat, ∀ a,
        (anchorsOf marks rules g k).lookup (UInt16.ofNat i) = some a →
          row[i]? = some (some a) := by
  have hrules : ∀ r ∈ rules, r.body.kind = lookup.kind := fun r => kind_of_mem_distinctRules h
  by_cases hligature : lookup.kind = .markToLigature
  · obtain ⟨rows, b, hitem, hrow⟩ := exists_mem_ligatureItems
      (fun r hr => (hrules r hr).trans hligature) hne
    refine ⟨rows, _, anchoredOnce_of_entry h hkind (o := .rows rows) ?_ rfl places budget, hrow,
      fun i hi a ha => ?_⟩
    · rw [hligature]
      exact mem_toEntries.2 ⟨rows, ⟨b, hitem⟩, rfl⟩
    · rw [getElem?_firstRow hi, ha]
  · have hbases : ∀ r ∈ rules, r.body.kind ≠ .markToLigature := fun r hr => hrules r hr ▸ hligature
    obtain ⟨⟨id, a⟩, ha⟩ := List.exists_mem_of_ne_nil _ hne
    obtain rfl := eq_zero_of_mem_anchorsOf hbases ha
    have hitem : ∃ b, ((g, fullRow (firstRow marks (anchorsOf marks rules g 0))), b) ∈
        baseItems marks rules := (mem_baseItems_iff hbases).2 ⟨attached_of_mem_anchorsOf ha, rfl⟩
    refine ⟨[fullRow (firstRow marks (anchorsOf marks rules g 0))], _,
      anchoredOnce_of_entry h hkind (o := .row _) ?_ rfl places budget, rfl, fun i hi a ha => ?_⟩
    · simp only [Kind.attaching, List.mem_cons, List.not_mem_nil, or_false] at hkind
      rcases hkind with hk | hk | hk
      · rw [hk]
        exact mem_toEntries.2 ⟨_, hitem, rfl⟩
      · rw [hk]
        exact mem_toEntries.2 ⟨_, hitem, rfl⟩
      · exact absurd hk hligature
    · rw [getElem?_fullRow, getElem?_firstRow hi, ha]
      rfl

end

/-! ## Without errors -/

/-- **No anchor is overruled.** Take a lookup that attaches marks, and suppose that its rules, once
distinct, name at most 65535 mark classes and that validation finds no error. Then all classes
that are named are defined and have different numbers. Every packed subtable has each glyph of
these classes as a mark, with the number of its class and the anchor of each of its memberships.
And each anchor that a rule gives for a component of a glyph stands there in the one subtable
that has the glyph. -/
theorem anchors_of_validateLookup {lookup : Lookup} {place : LookupPlace} {rules : List Rule}
    {defined : List MarkClass} (hkind : lookup.kind ∈ Kind.attaching)
    (hrules : (distinctRules lookup place).value = some rules)
    (hcount : (markNames rules).dedup.length ≤ 0xFFFF)
    (hclear : ∀ f ∈ (validateLookup lookup.kind defined place rules).findings, f.level ≠ .error)
    (places : LookupPlaces) (budget : Budget) :
    ∃ marks, (validateLookup lookup.kind defined place rules).value = some (some marks) ∧
      marks.classes.Nodup ∧
      (∀ n ∈ markNames rules, ∃ (c : MarkClass) (id : UInt16),
        defined.find? (·.name == n) = some c ∧ marks.classes[id.toNat]? = some n ∧
        ∀ glyphs anchor, (glyphs, anchor) ∈ c.members → ∀ g ∈ glyphs,
          ∀ s ∈ (packLookup lookup.kind rules (some marks) places budget).subtables,
            ∃ records, s.marks? = some records ∧ records.find? g = some (id, anchor)) ∧
      ∀ r ∈ rules, ∀ glyphs components, r.body.attachment? = some (glyphs, components) →
        ∀ g ∈ glyphs, ∀ (k : Nat) (anchors : MarkAnchors), components[k]? = some anchors →
        ∀ n a, (n, a) ∈ anchors →
          ∃ (id : UInt16) (rows : List AnchorRow) (row : AnchorRow),
            marks.classes[id.toNat]? = some n ∧
            AnchoredOnce (packLookup lookup.kind rules (some marks) places budget).subtables g
              rows ∧
            rows[k]? = some row ∧ row[id.toNat]? = some (some a) := by
  rw [validateLookup_eq hkind] at hclear ⊢
  have hclearMarks : ∀ f ∈ markFindings defined place rules, f.level ≠ .error :=
    fun f hf => hclear f (List.mem_append_left _ hf)
  have hclearAnchors : ∀ f ∈ anchorFindings lookup.kind place (marksOf defined place rules) rules,
      f.level ≠ .error := fun f hf => hclear f (List.mem_append_right _ hf)
  refine ⟨_, rfl, nodup_names_usedClasses defined rules, fun n hn => ?_, ?_⟩
  · obtain ⟨c, id, hc, hid, hmarks⟩ := exists_class_of_markFindings hclearMarks hcount hn
    refine ⟨c, id, hc, hid, fun glyphs anchor hm g hg s hs => ?_⟩
    exact ⟨_, marks?_of_packed hkind hs, hmarks glyphs anchor hm g hg⟩
  · intro r hr glyphs components hbody g hg k anchors hk n a hn
    have hnamed := mem_markNames_of_attachment? hr hbody hk hn
    obtain ⟨c, id, -, hid, -⟩ := exists_class_of_markFindings hclearMarks hcount hnamed
    have hclassId : (marksOf defined place rules).classId? n = some id := by
      rw [MarkSet.classId?_of_getElem? (nodup_names_usedClasses defined rules) hid,
        UInt16.ofNat_toNat]
    have hgiven : (id, a) ∈ anchorsOf (marksOf defined place rules) rules g k :=
      mem_anchorsOf.2 ⟨r, hr, glyphs, components, anchors, n, hbody, hg, hk, hn, hclassId⟩
    have hfirst : (anchorsOf (marksOf defined place rules) rules g k).lookup id = some a := by
      refine lookup_eq_some_of_unique hgiven fun b hb => ?_
      exact eq_of_mem_anchorsOf hkind (fun r => kind_of_mem_distinctRules hrules) hclearAnchors
        hb hgiven
    obtain ⟨rows, row, honce, hrow, hanchor⟩ :=
      exists_row_of_anchorsOf hrules hkind (List.ne_nil_of_mem hgiven) places budget
    refine ⟨id, rows, row, hid, honce, hrow, hanchor _ ?_ a (by rwa [UInt16.ofNat_toNat])⟩
    have hlt := (List.getElem?_eq_some_iff.1 hid).1
    have hle := length_classes_marksOf_le defined place rules
    rw [MarkSet.classCount, UInt16.toNat_ofNat']
    omega

/-- A mark class with one glyph. -/
def topMarks : List MarkClass := [⟨"top", [(.singleton 10, ⟨5, 0, none⟩)]⟩]

/-- A ligature of two components, each with an anchor for that class. -/
def twoPartLigature : Lookup :=
  ⟨none, .markToLigature, 0, none, none, [⟨.markToLigature (.singleton 1)
    [[("top", ⟨100, 500, none⟩)], [("top", ⟨300, 500, none⟩)]], none, false⟩]⟩

/-- The anchor of the second component stands in the one subtable with the ligature. -/
theorem anchors_twoPartLigature :
    twoPartLigature.kind ∈ Kind.attaching ∧
      (distinctRules twoPartLigature default).value = some twoPartLigature.rules ∧
      (markNames twoPartLigature.rules).dedup.length ≤ 0xFFFF ∧
      (∀ f ∈ (validateLookup twoPartLigature.kind topMarks default twoPartLigature.rules).findings,
        f.level ≠ .error) ∧
      ∃ (marks : MarkSet) (id : UInt16) (rows : List AnchorRow) (row : AnchorRow),
        marks.classes[id.toNat]? = some "top" ∧
        AnchoredOnce (packLookup .markToLigature twoPartLigature.rules (some marks) ∅
          none).subtables 1 rows ∧
        rows[1]? = some row ∧ row[id.toNat]? = some (some ⟨300, 500, none⟩) := by
  have hkind : twoPartLigature.kind ∈ Kind.attaching := by decide
  have hrules : (distinctRules twoPartLigature default).value = some twoPartLigature.rules := by
    rfl
  have hcount : (markNames twoPartLigature.rules).dedup.length ≤ 0xFFFF := by decide +kernel
  have hclear : ∀ f ∈ (validateLookup twoPartLigature.kind topMarks default
      twoPartLigature.rules).findings, f.level ≠ .error := by
    decide +kernel
  obtain ⟨marks, -, -, -, hanchors⟩ :=
    anchors_of_validateLookup hkind hrules hcount hclear ∅ none
  have hanchor := hanchors _ List.mem_cons_self _ _ rfl 1 (by decide) 1 _ rfl _ _
    List.mem_cons_self
  exact ⟨hkind, hrules, hcount, hclear, marks, hanchor⟩

/-! ## Defaults -/

/-- Whether packed subtables hold an anchor for a base and the class of a number that no rule
gives. -/
def Defaulted (marks : MarkSet) (rules : List Rule) (subtables : List Subtable) (g : Glyph)
    (i : Nat) : Prop :=
  ∃ s ∈ subtables, ∃ row a, s.anchorRows? g = some [row] ∧ row[i]? = some (some a) ∧
    (UInt16.ofNat i, a) ∉ anchorsOf marks rules g 0

theorem lookup_eq_none_iff_forall {xs : List (UInt16 × Anchor)} {id : UInt16} :
    xs.lookup id = none ↔ ∀ a, (id, a) ∉ xs := by
  rw [List.lookup_eq_none_iff]
  constructor
  · intro h a ha
    simpa using h _ ha
  · rintro h ⟨id', a⟩ ha
    rw [bne_iff_ne]
    rintro rfl
    exact h a ha

theorem getElem?_fullRow_firstRow_eq_some_iff {marks : MarkSet}
    {anchors : List (UInt16 × Anchor)} {i : Nat} {a : Anchor} :
    (fullRow (firstRow marks anchors))[i]? = some (some a) ↔
      i < marks.classCount.toNat ∧ (anchors.lookup (UInt16.ofNat i)).getD .origin = a := by
  by_cases hi : i < marks.classCount.toNat
  · simp [getElem?_fullRow, getElem?_firstRow hi, hi]
  · have hnone : (firstRow marks anchors)[i]? = none := by
      refine List.getElem?_eq_none ?_
      rw [firstRow, List.length_map, List.length_range]
      exact Nat.le_of_not_lt hi
    simp [getElem?_fullRow, hnone, hi]

section
variable {lookup : Lookup} {place : LookupPlace} {rules : List Rule}
  (h : (distinctRules lookup place).value = some rules)
  (hkind : lookup.kind = .markToBase ∨ lookup.kind = .markToMark)

include h hkind

/-- The packed bases are those that rules let marks attach to, each with a full row. -/
theorem exists_anchorRows?_iff (marks : MarkSet) (places : LookupPlaces) (budget : Budget)
    {g : Glyph} {row : AnchorRow} :
    (∃ s ∈ (packLookup lookup.kind rules (some marks) places budget).subtables,
      s.anchorRows? g = some [row]) ↔
      Attached rules g ∧ row = fullRow (firstRow marks (anchorsOf marks rules g 0)) := by
  have hbases : ∀ r ∈ rules, r.body.kind ≠ .markToLigature := by
    intro r hr
    rw [kind_of_mem_distinctRules h hr]
    exact Kind.ne_markToLigature hkind
  have hperm := perm_entries_attaching h (Kind.mem_attaching hkind) marks places budget
  have hitems {o : Output} :
      ⟨[g], o⟩ ∈ (entryItems lookup.kind rules (some marks)).filterMap Prod.fst ↔
        ∃ row, (∃ b, ((g, row), b) ∈ baseItems marks rules) ∧ .row row = o := by
    rcases hkind with hk | hk <;> rw [hk] <;> exact mem_toEntries
  rw [← mem_baseItems_iff hbases]
  constructor
  · rintro ⟨s, hs, hrow⟩
    obtain ⟨o, ho, hrows⟩ := Subtable.anchorRows?_eq_some_iff.1 hrow
    obtain ⟨row', hitem, rfl⟩ := hitems.1 (hperm.mem_iff.1 (List.mem_flatMap.2 ⟨s, hs, ho⟩))
    cases hrows
    exact hitem
  · intro hitem
    obtain ⟨s, hs, ho⟩ := List.mem_flatMap.1 (hperm.mem_iff.2 (hitems.2 ⟨row, hitem, rfl⟩))
    exact ⟨s, hs, Subtable.anchorRows?_eq_some_iff.2 ⟨_, ho, rfl⟩⟩

/-- An anchor is one that a rule gives, or the origin for a class that no rule gives one for. -/
theorem mem_anchorsOf_or_eq_origin {marks : MarkSet} {places : LookupPlaces} {budget : Budget}
    {s : Subtable}
    (hs : s ∈ (packLookup lookup.kind rules (some marks) places budget).subtables) {g : Glyph}
    {row : AnchorRow} (hrow : s.anchorRows? g = some [row]) {i : Nat} {a : Anchor}
    (ha : row[i]? = some (some a)) :
    (UInt16.ofNat i, a) ∈ anchorsOf marks rules g 0 ∨ a = .origin := by
  obtain ⟨-, rfl⟩ := (exists_anchorRows?_iff h hkind marks places budget).1 ⟨s, hs, hrow⟩
  obtain ⟨-, rfl⟩ := getElem?_fullRow_firstRow_eq_some_iff.1 ha
  cases hfirst : (anchorsOf marks rules g 0).lookup (UInt16.ofNat i) with
  | some a => exact .inl (mem_of_lookup hfirst)
  | none => exact .inr rfl

/-- The origin stands in for a class that no rule gives a base an anchor for. -/
theorem defaulted_iff_attached (marks : MarkSet) (places : LookupPlaces) (budget : Budget)
    {g : Glyph} {i : Nat} :
    Defaulted marks rules (packLookup lookup.kind rules (some marks) places budget).subtables g i ↔
      Attached rules g ∧ i < marks.classCount.toNat ∧
        ∀ a, (UInt16.ofNat i, a) ∉ anchorsOf marks rules g 0 := by
  have hrows {row : AnchorRow} :
      (∃ s ∈ (packLookup lookup.kind rules (some marks) places budget).subtables,
        s.anchorRows? g = some [row]) ↔ _ := exists_anchorRows?_iff h hkind marks places budget
  constructor
  · rintro ⟨s, hs, row, a, hrow, ha, hnot⟩
    obtain ⟨hattached, rfl⟩ := hrows.1 ⟨s, hs, hrow⟩
    obtain ⟨hi, hfirst⟩ := getElem?_fullRow_firstRow_eq_some_iff.1 ha
    refine ⟨hattached, hi, lookup_eq_none_iff_forall.1 ?_⟩
    by_contra hne
    obtain ⟨b, hb⟩ := Option.ne_none_iff_exists'.1 hne
    rw [hb, Option.getD_some] at hfirst
    exact hnot (hfirst ▸ mem_of_lookup hb)
  · rintro ⟨hattached, hi, hnone⟩
    obtain ⟨s, hs, hrow⟩ := hrows.2 ⟨hattached, rfl⟩
    refine ⟨s, hs, _, .origin, hrow, getElem?_fullRow_firstRow_eq_some_iff.2 ⟨hi, ?_⟩, hnone _⟩
    rw [lookup_eq_none_iff_forall.2 hnone, Option.getD_none]

/-- **Defaults and warnings.** Take a lookup that attaches marks to bases, once its rules are
distinct. Every anchor of a packed base that no rule gives is the origin. A base has it for a class
of the lookup exactly if validation warns that this base has no anchor for this class, or if rules
name the base and give it no anchor for any class that is defined. No warning comes twice, or for a
class that is not in the lookup. -/
theorem defaulted_iff (defined : List MarkClass) (places : LookupPlaces) (budget : Budget) :
    ∃ marks, (validateLookup lookup.kind defined place rules).value = some (some marks) ∧
      (missingPairs (validateLookup lookup.kind defined place rules).findings).Nodup ∧
      (∀ x ∈ missingPairs (validateLookup lookup.kind defined place rules).findings,
        x.2 ∈ marks.classes) ∧
      (∀ s ∈ (packLookup lookup.kind rules (some marks) places budget).subtables, ∀ g row,
        s.anchorRows? g = some [row] → ∀ (i : Nat) a, row[i]? = some (some a) →
          (UInt16.ofNat i, a) ∈ anchorsOf marks rules g 0 ∨ a = .origin) ∧
      ∀ g (i : Nat) n, marks.classes[i]? = some n →
        (Defaulted marks rules
            (packLookup lookup.kind rules (some marks) places budget).subtables g i ↔
          i < marks.classCount.toNat ∧
            ((g, n) ∈ missingPairs (validateLookup lookup.kind defined place rules).findings ∨
              Attached rules g ∧ anchorsOf marks rules g 0 = [])) := by
  have hrules : ∀ r ∈ rules, r.body.kind = lookup.kind := fun r => kind_of_mem_distinctRules h
  have hvalue : (validateLookup lookup.kind defined place rules).value =
      some (some (marksOf defined place rules)) := by
    rw [validateLookup_eq (Kind.mem_attaching hkind)]
  refine ⟨_, hvalue, nodup_missingPairs hkind, fun x hx => ?_,
    fun s hs g row hrow i a => mem_anchorsOf_or_eq_origin h hkind hs hrow, fun g i n hi => ?_⟩
  · obtain ⟨-, i, hi, -⟩ := (mem_missingPairs_iff hkind hrules).1 hx
    exact List.mem_of_getElem? hi
  · rw [defaulted_iff_attached h hkind, mem_missingPairs_iff hkind hrules]
    have hclasses : (marksOf defined place rules).classes.Nodup :=
      nodup_names_usedClasses defined rules
    constructor
    · rintro ⟨hattached, hlt, hnone⟩
      refine ⟨hlt, ?_⟩
      by_cases hgiven : anchorsOf (marksOf defined place rules) rules g 0 = []
      · exact .inr ⟨hattached, hgiven⟩
      · exact .inl ⟨hgiven, i, hi, hnone⟩
    · rintro ⟨hlt, ⟨hgiven, j, hj, hnone⟩ | ⟨hattached, hgiven⟩⟩
      · obtain ⟨⟨id, a⟩, ha⟩ := List.exists_mem_of_ne_nil _ hgiven
        -- a name has one number
        have hij : i = j := (List.getElem?_inj (List.getElem?_eq_some_iff.1 hi).1 hclasses).1
          (hi.trans hj.symm)
        subst hij
        exact ⟨attached_of_mem_anchorsOf ha, hlt, hnone⟩
      · refine ⟨hattached, hlt, fun a ha => ?_⟩
        rw [hgiven] at ha
        cases ha

end

/-- A lookup of two bases, the second of which is given no anchor. -/
def bareBase : Lookup :=
  ⟨none, .markToBase, 0, none, none,
    [⟨.markToBase (.singleton 1) [("top", ⟨5, 7, none⟩)], none, false⟩,
      ⟨.markToBase (.singleton 2) [], none, false⟩]⟩

/-- The marks of the lookup. -/
def bareBaseMarks : MarkSet := ⟨["top"], .ofFirst [(10, (0, ⟨5, 0, none⟩))]⟩

theorem value_bareBase : (validateLookup .markToBase topMarks default bareBase.rules).value =
    some (some bareBaseMarks) := by
  decide +kernel

/-- The second base has the origin for the class of the lookup, because rules name it and give it
no anchor. -/
theorem defaulted_bareBase :
    (bareBase.kind = .markToBase ∨ bareBase.kind = .markToMark) ∧
      (distinctRules bareBase default).value = some bareBase.rules ∧
      Defaulted bareBaseMarks bareBase.rules
        (packLookup .markToBase bareBase.rules (some bareBaseMarks) ∅ none).subtables 2 0 := by
  have hkind : bareBase.kind = .markToBase ∨ bareBase.kind = .markToMark := .inl rfl
  have hrules : (distinctRules bareBase default).value = some bareBase.rules := by rfl
  obtain ⟨marks, hmarks, -, -, -, hiff⟩ := defaulted_iff hrules hkind topMarks ∅ none
  have hvalue := hmarks.symm.trans value_bareBase
  obtain rfl := Option.some.inj (Option.some.inj hvalue)
  have hbare : ⟨.markToBase (.singleton 2) [], none, false⟩ ∈ bareBase.rules := by decide
  have hattached : Attached bareBase.rules 2 := ⟨_, hbare, .singleton 2, [[]], rfl, by decide⟩
  have hgiven : anchorsOf bareBaseMarks bareBase.rules 2 0 = [] := by decide +kernel
  refine ⟨hkind, hrules, (hiff 2 0 "top" rfl).2 ⟨by decide, .inr ⟨hattached, hgiven⟩⟩⟩

/-- Nothing is found about the lookup, and its second base has an anchor that no rule gives. -/
theorem defaulted_unreported :
    (validateLookup .markToBase topMarks default bareBase.rules).findings = [] ∧
      (validateLookup .markToBase topMarks default bareBase.rules).value =
        some (some bareBaseMarks) ∧
      bareBaseMarks.classes[0]? = some "top" ∧
      Defaulted bareBaseMarks bareBase.rules
        (packLookup .markToBase bareBase.rules (some bareBaseMarks) ∅ none).subtables 2 0 ∧
      (2, "top") ∉
        missingPairs (validateLookup .markToBase topMarks default bareBase.rules).findings := by
  have hnone : (validateLookup .markToBase topMarks default bareBase.rules).findings = [] := by
    decide +kernel
  refine ⟨hnone, value_bareBase, rfl, ?_, ?_⟩
  · refine ⟨_, List.mem_cons_self, [some .origin], .origin, ?_, rfl, ?_⟩
    · decide +kernel
    · decide +kernel
  · rw [hnone]
    exact List.not_mem_nil

end Packing
end FontLayout
