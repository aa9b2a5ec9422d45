import FontLayout.Proofs.Lookup.Validation
import FontLayout.Proofs.Packing.Entries
import Mathlib.Data.List.GetD
/-!
# What is gathered for a glyph

Packing gathers what rules say about a glyph before it cuts the lookup into subtables. Whatever
the order in which rules name glyphs, the record of a glyph depends on the rules that name it and
on nothing else: it has for each component and each class the first anchor that they give.

Results:
* `Gathered.known?_addRule`: what a rule does to the record of a glyph.
* `mem_baseItems_iff`: the rows of bases; a base is there even if no rule gives it an anchor.
* `exists_mem_ligatureItems`: the rows of ligatures.
-/
namespace FontLayout.Packing

/-! ## Records -/

namespace Gathered
variable {α : Type} {fresh : α} {update : α → α} {s : Gathered α} {g : Glyph}

/-- What is known of a glyph. -/
def known? (s : Gathered α) (g : Glyph) : Option α := s.records[g]?.map Prod.fst

theorem known?_addGlyph (h : Glyph) :
    (s.addGlyph fresh update h).known? g =
      if h = g then some (update ((s.known? g).getD fresh)) else s.known? g := by
  unfold addGlyph known?
  by_cases hg : h = g
  · subst hg
    split <;> simp_all
  · split <;> simp [Std.TreeMap.getElem?_insert, hg]

/-- A rule changes the records of its own glyphs, each once. -/
theorem known?_addRule (glyphs : GlyphSet) (b : Bool) :
    (s.addRule fresh update glyphs b).known? g =
      if g ∈ glyphs then some (update ((s.known? g).getD fresh)) else s.known? g := by
  have hstart : s.known? g =
      Gathered.known? { s with pendingBreak := s.pendingBreak || b } g := rfl
  have hnodup : glyphs.members.Nodup := glyphs.ascending.imp UInt16.ne_of_lt
  rw [addRule, hstart]
  simp only [GlyphSet.mem_def]
  generalize { s with pendingBreak := s.pendingBreak || b } = t
  generalize glyphs.members = gs at hnodup
  induction gs generalizing t with
  | nil => simp
  | cons h gs ih =>
    obtain ⟨hnew, hnodup⟩ := List.nodup_cons.1 hnodup
    rw [List.foldl_cons, ih _ hnodup, known?_addGlyph]
    by_cases hg : h = g
    · subst hg
      simp [hnew]
    · simp [hg, Ne.symm hg]

/-- Every glyph that has a record is listed. -/
def Covered (s : Gathered α) : Prop := ∀ g ∈ s.records, g ∈ s.order

theorem Covered.addGlyph (h : s.Covered) (g : Glyph) : (s.addGlyph fresh update g).Covered := by
  unfold Gathered.addGlyph
  split
  · next hsome =>
    intro k hk
    rw [Std.TreeMap.mem_insert, Std.LawfulEqCmp.compare_eq_iff_eq] at hk
    rcases hk with rfl | hk
    · refine h g ?_
      rw [Std.TreeMap.mem_iff_isSome_getElem?, hsome]
      rfl
    · exact h k hk
  · intro k hk
    rw [Std.TreeMap.mem_insert, Std.LawfulEqCmp.compare_eq_iff_eq] at hk
    rcases hk with rfl | hk
    · exact List.mem_cons_self
    · exact List.mem_cons_of_mem _ (h k hk)

theorem Covered.addRule (h : s.Covered) (glyphs : GlyphSet) (b : Bool) :
    (s.addRule fresh update glyphs b).Covered := by
  have hstart : Covered { s with pendingBreak := s.pendingBreak || b } := h
  rw [Gathered.addRule]
  generalize glyphs.members = gs
  generalize { s with pendingBreak := s.pendingBreak || b } = t at hstart
  induction gs generalizing t with
  | nil => exact hstart
  | cons g gs ih => exact ih _ (hstart.addGlyph g)

theorem Covered.foldl {step : Gathered α → Rule → Gathered α}
    (hstep : ∀ s r, s.Covered → (step s r).Covered) (rules : List Rule) :
    Covered (rules.foldl step .empty) := by
  suffices ∀ s : Gathered α, s.Covered → (rules.foldl step s).Covered by
    refine this _ fun g hg => ?_
    exact absurd hg Std.TreeMap.not_mem_emptyc
  induction rules with
  | nil => exact fun _ h => h
  | cons r rules ih => exact fun s h => ih _ (hstep s r h)

/-- The items are the records. -/
theorem Covered.exists_mem_items_iff (h : s.Covered) {a : α} :
    (∃ b, ((g, a), b) ∈ s.items) ↔ s.known? g = some a := by
  rw [known?, Option.map_eq_some_iff]
  constructor
  · rintro ⟨b, hb⟩
    obtain ⟨_, -, hg⟩ := List.mem_filterMap.1 hb
    obtain ⟨x, hx, he⟩ := Option.map_eq_some_iff.1 hg
    cases he
    exact ⟨x, hx, rfl⟩
  · rintro ⟨x, hx, rfl⟩
    have hg : g ∈ s.order := by
      refine h g ?_
      rw [Std.TreeMap.mem_iff_isSome_getElem?, hx]
      rfl
    refine ⟨x.2, List.mem_filterMap.2 ⟨g, List.mem_reverse.2 hg, ?_⟩⟩
    rw [hx]
    rfl

end Gathered

/-- What a run of rules adds up to, if each rule only fills in what is not known yet. -/
theorem foldl_or_lookup {σ : Type} {step : σ → Rule → σ} (look : σ → Option Anchor)
    {given : Rule → List (UInt16 × Anchor)} {id : UInt16} {rules : List Rule}
    (h : ∀ s, ∀ r ∈ rules, look (step s r) = (look s).or ((given r).lookup id)) (s : σ) :
    look (rules.foldl step s) = (look s).or ((rules.flatMap given).lookup id) := by
  induction rules generalizing s with
  | nil => simp
  | cons r rules ih =>
    rw [List.foldl_cons, ih (fun s r hr => h s r (List.mem_cons_of_mem _ hr)),
      h s r List.mem_cons_self, List.flatMap_cons, List.lookup_append, Option.or_assoc]

/-! ## Bases -/

/-- The row of the first anchor for each class. -/
def firstRow (marks : MarkSet) (anchors : List (UInt16 × Anchor)) : AnchorRow :=
  (List.range marks.classCount.toNat).map fun id => anchors.lookup (UInt16.ofNat id)

theorem getElem?_firstRow {marks : MarkSet} {anchors : List (UInt16 × Anchor)} {i : Nat}
    (h : i < marks.classCount.toNat) :
    (firstRow marks anchors)[i]? = some (anchors.lookup (UInt16.ofNat i)) := by
  rw [firstRow, List.getElem?_map, List.getElem?_range h]
  rfl

theorem anchorRow_eq {marks : MarkSet} {row : AnchorsById} {anchors : List (UInt16 × Anchor)}
    (h : ∀ id, row[id]? = anchors.lookup id) : anchorRow marks row = firstRow marks anchors := by
  simp only [anchorRow, firstRow, h]

section
variable {marks : MarkSet} {rules : List Rule} {g : Glyph}

theorem getElem?_fillRow (anchors : List (UInt16 × Anchor)) (row : AnchorsById) (id : UInt16) :
    (fillRow anchors row)[id]? = row[id]?.or (anchors.lookup id) :=
  getElem?_foldl_insertIfNew anchors row id

theorem attachment?_of_baseAnchors?_eq_none {body : RuleBody} (h : body.baseAnchors? = none)
    (hkind : body.kind ≠ .markToLigature) : body.attachment? = none := by
  cases body with
  | markToLigature => exact absurd rfl hkind
  | markToBase | markToMark => cases h
  | _ => rfl

/-- The record of a base. -/
theorem known?_baseStep {s : Gathered AnchorsById} {r : Rule}
    (hkind : r.body.kind ≠ .markToLigature) (id : UInt16) :
    ((baseStep marks s r).known? g).bind (·[id]?) =
      ((s.known? g).bind (·[id]?)).or ((anchorsFrom marks g 0 r).lookup id) := by
  unfold baseStep anchorsFrom
  split
  · next bases anchors hbody =>
    rw [attachment?_of_baseAnchors? hbody, Gathered.known?_addRule]
    by_cases hg : g ∈ bases
    · rw [if_pos hg, Option.bind_some, getElem?_fillRow]
      cases s.known? g <;> simp [hg]
    · simp [hg]
  · next hbody =>
    rw [attachment?_of_baseAnchors?_eq_none hbody hkind]
    simp

theorem isSome_known?_baseStep {s : Gathered AnchorsById} {r : Rule} :
    ((baseStep marks s r).known? g).isSome = true ↔
      (∃ bases anchors, r.body.baseAnchors? = some (bases, anchors) ∧ g ∈ bases) ∨
        (s.known? g).isSome = true := by
  unfold baseStep
  split
  · next bases anchors hbody =>
    rw [Gathered.known?_addRule]
    by_cases hg : g ∈ bases
    · simp [hbody, hg]
    · simp [hbody, hg]
  · next hbody => simp [hbody]

/-- The bases are the glyphs that rules let marks attach to, whether they are given anchors or
not. -/
theorem isSome_known?_bases (marks : MarkSet) (g : Glyph)
    (hkind : ∀ r ∈ rules, r.body.kind ≠ .markToLigature) (s : Gathered AnchorsById) :
    ((rules.foldl (baseStep marks) s).known? g).isSome = true ↔
      Attached rules g ∨ (s.known? g).isSome = true := by
  induction rules generalizing s with
  | nil => simp [Attached]
  | cons r rules ih =>
    have hr : (∃ bases anchors, r.body.baseAnchors? = some (bases, anchors) ∧ g ∈ bases) ↔
        ∃ glyphs components, r.body.attachment? = some (glyphs, components) ∧ g ∈ glyphs := by
      constructor
      · rintro ⟨bases, anchors, h, hg⟩
        exact ⟨bases, [anchors], attachment?_of_baseAnchors? h, hg⟩
      · rintro ⟨glyphs, components, h, hg⟩
        obtain ⟨anchors, rfl, hbases⟩ := exists_baseAnchors? (hkind r List.mem_cons_self) h
        exact ⟨glyphs, anchors, hbases, hg⟩
    rw [List.foldl_cons, ih (fun r hr => hkind r (List.mem_cons_of_mem _ hr)),
      isSome_known?_baseStep, hr, Attached, Attached, List.exists_mem_cons_iff, ← or_assoc,
      or_comm (a := ∃ r ∈ rules, _)]

theorem covered_bases (marks : MarkSet) (rules : List Rule) :
    (rules.foldl (baseStep marks) .empty).Covered := by
  refine Gathered.Covered.foldl (fun s r h => ?_) rules
  unfold baseStep
  split
  · exact h.addRule _ _
  · exact h

/-- A base has a row in which the origin stands for each class that no rule gives it an anchor
for, even if no rule gives it any. -/
theorem mem_baseItems_iff (hkind : ∀ r ∈ rules, r.body.kind ≠ .markToLigature) {row : AnchorRow} :
    (∃ b, ((g, row), b) ∈ baseItems marks rules) ↔
      Attached rules g ∧ row = fullRow (firstRow marks (anchorsOf marks rules g 0)) := by
  have hitems {known : AnchorsById} :=
    (covered_bases marks rules).exists_mem_items_iff (g := g) (a := known)
  have hlook (id : UInt16) : ((rules.foldl (baseStep marks) .empty).known? g).bind (·[id]?) =
      (anchorsOf marks rules g 0).lookup id := by
    rw [foldl_or_lookup (fun s => (Gathered.known? s g).bind (·[id]?))
      fun s r hr => known?_baseStep (hkind r hr) id]
    simp [Gathered.known?, Gathered.empty, anchorsOf]
  have hsome := isSome_known?_bases marks g hkind .empty
  rw [or_iff_left (by simp [Gathered.known?, Gathered.empty]), Option.isSome_iff_exists] at hsome
  have hrow {known : AnchorsById}
      (h : (rules.foldl (baseStep marks) .empty).known? g = some known) :
      anchorRow marks known = firstRow marks (anchorsOf marks rules g 0) :=
    anchorRow_eq fun id => by rw [← hlook, h, Option.bind_some]
  rw [baseItems, ← hsome]
  constructor
  · rintro ⟨b, hb⟩
    obtain ⟨⟨⟨g', known⟩, b'⟩, hi, he⟩ := List.mem_map.1 hb
    cases he
    have hknown := hitems.1 ⟨_, hi⟩
    exact ⟨⟨known, hknown⟩, congrArg fullRow (hrow hknown)⟩
  · rintro ⟨⟨known, hknown⟩, rfl⟩
    obtain ⟨b, hb⟩ := hitems.2 hknown
    rw [← hrow hknown]
    exact ⟨b, List.mem_map.2 ⟨_, hb, rfl⟩⟩

/-! ## Ligatures -/

/-- The anchors known of a component of a ligature. -/
def component (rows : List AnchorsById) (k : Nat) : AnchorsById := rows.getD k ∅

theorem component_append_empty (rows : List AnchorsById) (n k : Nat) :
    component (rows ++ List.replicate n ∅) k = component rows k := by
  simp only [component, List.getD_eq_getElem?_getD, List.getElem?_append, List.getElem?_replicate]
  split
  · rfl
  · next h =>
    rw [List.getElem?_eq_none (Nat.le_of_not_lt h)]
    split <;> rfl

theorem getElem?_fillRows (components : List (List (UInt16 × Anchor))) (rows : List AnchorsById)
    (k : Nat) (id : UInt16) :
    (component (fillRows components rows) k)[id]? =
      (component rows k)[id]?.or ((components.getD k []).lookup id) := by
  rw [fillRows, ← component_append_empty rows (components.length - rows.length)]
  generalize hrows : rows ++ List.replicate (components.length - rows.length) ∅ = all
  have hlength : components.length ≤ all.length := by
    rw [← hrows, List.length_append, List.length_replicate]
    omega
  have hfilled : ((all.zip components).map fun x => fillRow x.2 x.1).length =
      components.length := by
    rw [List.length_map, List.length_zip, Nat.min_eq_right hlength]
  simp only [component, List.getD_eq_getElem?_getD]
  rw [List.getElem?_append, hfilled]
  split
  · next hk =>
    have hzip : (all.zip components)[k]? = some (all[k], components[k]) :=
      List.getElem?_zip_eq_some.2 ⟨List.getElem?_eq_getElem _, List.getElem?_eq_getElem _⟩
    rw [List.getElem?_map, hzip, List.getElem?_eq_getElem hk,
      List.getElem?_eq_getElem (Nat.lt_of_lt_of_le hk hlength)]
    exact getElem?_fillRow _ _ _
  · next hk =>
    rw [List.getElem?_drop, Nat.add_sub_cancel' (Nat.le_of_not_lt hk),
      List.getElem?_eq_none (l := components) (Nat.le_of_not_lt hk), Option.getD_none,
      List.lookup_nil, Option.or_none]

/-- The record of a component. -/
theorem known?_ligatureStep {s : Gathered (List AnchorsById)} {r : Rule}
    (hkind : r.body.kind = .markToLigature) (k : Nat) (id : UInt16) :
    ((ligatureStep marks s r).known? g).bind (fun rows => (component rows k)[id]?) =
      ((s.known? g).bind fun rows => (component rows k)[id]?).or
        ((anchorsFrom marks g k r).lookup id) := by
  obtain ⟨body, line, b⟩ := r
  cases body <;> cases hkind
  next ligature components =>
  rw [ligatureStep, anchorsFrom_eq rfl, Gathered.known?_addRule]
  have hget : (components.map (knownAnchors marks)).getD k [] =
      knownAnchors marks (components.getD k []) := List.getD_map components [] (knownAnchors marks)
  by_cases hg : g ∈ ligature
  · rw [if_pos hg, if_pos hg, Option.bind_some, getElem?_fillRows, hget]
    cases s.known? g <;> simp [component]
  · rw [if_neg hg, if_neg hg, List.lookup_nil, Option.or_none]

theorem covered_ligatures (marks : MarkSet) (rules : List Rule) :
    (rules.foldl (ligatureStep marks) .empty).Covered := by
  refine Gathered.Covered.foldl (fun s r h => ?_) rules
  unfold ligatureStep
  split
  · exact h.addRule _ _
  · exact h

/-- A ligature that rules give an anchor has a row for each component with an anchor. -/
theorem exists_mem_ligatureItems (hkind : ∀ r ∈ rules, r.body.kind = .markToLigature)
    {k : Nat} (hne : anchorsOf marks rules g k ≠ []) :
    ∃ rows b, ((g, rows), b) ∈ ligatureItems marks rules ∧
      rows[k]? = some (firstRow marks (anchorsOf marks rules g k)) := by
  have hlook (id : UInt16) : ((rules.foldl (ligatureStep marks) .empty).known? g).bind
      (fun rows => (component rows k)[id]?) = (anchorsOf marks rules g k).lookup id := by
    rw [foldl_or_lookup (fun s => (Gathered.known? s g).bind
      fun rows => (component rows k)[id]?) fun s r hr => known?_ligatureStep (hkind r hr) k id]
    simp [Gathered.known?, Gathered.empty, anchorsOf]
  obtain ⟨⟨id, a⟩, ha⟩ := List.exists_mem_of_ne_nil _ hne
  have hsome : (anchorsOf marks rules g k).lookup id ≠ none := by
    intro hnone
    simpa using List.lookup_eq_none_iff.1 hnone _ ha
  cases hknown : (rules.foldl (ligatureStep marks) .empty).known? g with
  | none =>
    rw [← hlook, hknown] at hsome
    exact absurd rfl hsome
  | some known =>
    simp only [hknown, Option.bind_some] at hlook
    obtain ⟨b, hb⟩ := (covered_ligatures marks rules).exists_mem_items_iff.2 hknown
    refine ⟨_, b, List.mem_map.2 ⟨_, hb, rfl⟩, ?_⟩
    rw [List.getElem?_map, ← anchorRow_eq hlook, component, List.getD_eq_getElem?_getD]
    cases hk : known[k]? with
    | some row => rfl
    | none =>
      rw [← hlook, component, List.getD_eq_getElem?_getD, hk] at hsome
      exact absurd Std.TreeMap.getElem?_emptyc hsome

end
end FontLayout.Packing
