import FontLayout.Lookup.Validation
import FontLayout.Packing.Attachment
import FontLayout.Proofs.Lookup.Distinct
import FontLayout.Proofs.Lookup.Marks
import Mathlib.Data.List.Dedup
import Mathlib.Data.List.Flatten
import Mathlib.Data.List.Nodup
/-!
# The anchors that rules give

A rule gives anchors to the glyphs that it lets marks attach to. A base has one component, a
ligature may have several. Where two rules give different anchors to one component for one class,
validation finds an error, and without errors no anchor is overruled.

Results:
* `mem_anchorsOf`: the anchors that rules give for a component of a glyph.
* `BaseCheck.found?_foldl`: the first anchor that a base is given for a class counts.
* `BaseCheck.found?_of_clear`, `nodup_slots_of_clear`: without errors, no anchor is overruled.
-/
namespace FontLayout

/-! ## What rules give -/

/-- The glyphs that a rule lets marks attach to, and the anchors that it gives for each of their
components. A base has one component. -/
def RuleBody.attachment? : RuleBody → Option (GlyphSet × List MarkAnchors)
  | .markToBase base marks => some (base, [marks])
  | .markToMark baseMark marks => some (baseMark, [marks])
  | .markToLigature ligature components => some (ligature, components)
  | _ => none

/-- The anchors that a rule gives for a component of a glyph, by the number of the class. -/
def anchorsFrom (marks : MarkSet) (g : Glyph) (k : Nat) (r : Rule) : List (UInt16 × Anchor) :=
  match r.body.attachment? with
  | none => []
  | some (glyphs, components) =>
    if g ∈ glyphs then Packing.knownAnchors marks (components.getD k []) else []

/-- The anchors that rules give for a component of a glyph, in order. -/
def anchorsOf (marks : MarkSet) (rules : List Rule) (g : Glyph) (k : Nat) :
    List (UInt16 × Anchor) :=
  rules.flatMap (anchorsFrom marks g k)

/-- Whether some rule lets marks attach to a glyph. -/
def Attached (rules : List Rule) (g : Glyph) : Prop :=
  ∃ r ∈ rules, ∃ glyphs components, r.body.attachment? = some (glyphs, components) ∧ g ∈ glyphs

section
variable {marks : MarkSet} {rules : List Rule} {g : Glyph} {k : Nat} {id : UInt16} {a : Anchor}

theorem anchorsFrom_eq {r : Rule} {glyphs : GlyphSet} {components : List MarkAnchors}
    (h : r.body.attachment? = some (glyphs, components)) :
    anchorsFrom marks g k r =
      if g ∈ glyphs then Packing.knownAnchors marks (components.getD k []) else [] := by
  rw [anchorsFrom, h]

theorem mem_knownAnchors {anchors : MarkAnchors} :
    (id, a) ∈ Packing.knownAnchors marks anchors ↔
      ∃ n, (n, a) ∈ anchors ∧ marks.classId? n = some id := by
  simp [Packing.knownAnchors]

theorem mem_anchorsFrom {r : Rule} : (id, a) ∈ anchorsFrom marks g k r ↔
    ∃ glyphs components anchors n, r.body.attachment? = some (glyphs, components) ∧
      g ∈ glyphs ∧ components[k]? = some anchors ∧ (n, a) ∈ anchors ∧
      marks.classId? n = some id := by
  unfold anchorsFrom
  split
  · next hnone => simp [hnone]
  · next glyphs components hsome =>
    have hget : components.getD k [] = (components[k]?).getD [] := List.getD_eq_getElem?_getD
    by_cases hg : g ∈ glyphs
    · rw [if_pos hg, mem_knownAnchors, hget]
      cases hk : components[k]? with
      | none => simp [hsome, hk]
      | some anchors => simp [hsome, hk, hg]
    · rw [if_neg hg]
      simp [hsome, hg]

/-- The anchors that rules give for a component of a glyph. -/
theorem mem_anchorsOf : (id, a) ∈ anchorsOf marks rules g k ↔
    ∃ r ∈ rules, ∃ glyphs components anchors n,
      r.body.attachment? = some (glyphs, components) ∧ g ∈ glyphs ∧
      components[k]? = some anchors ∧ (n, a) ∈ anchors ∧ marks.classId? n = some id := by
  rw [anchorsOf, List.mem_flatMap]
  exact exists_congr fun r => and_congr_right fun _ => mem_anchorsFrom

theorem attached_of_mem_anchorsOf (h : (id, a) ∈ anchorsOf marks rules g k) :
    Attached rules g := by
  obtain ⟨r, hr, glyphs, components, -, -, hbody, hg, -⟩ := mem_anchorsOf.1 h
  exact ⟨r, hr, glyphs, components, hbody, hg⟩

end

/-- The components of a rule give the anchors for all mark classes that it names. -/
theorem flatten_of_attachment? {body : RuleBody} {glyphs : GlyphSet}
    {components : List MarkAnchors} (h : body.attachment? = some (glyphs, components)) :
    components.flatten = body.markAnchors := by
  cases body <;> cases h <;> simp [RuleBody.markAnchors]

theorem mem_markNames_of_attachment? {rules : List Rule} {r : Rule} (hr : r ∈ rules)
    {glyphs : GlyphSet} {components : List MarkAnchors}
    (h : r.body.attachment? = some (glyphs, components)) {k : Nat} {anchors : MarkAnchors}
    (hk : components[k]? = some anchors) {n : String} {a : Anchor} (hn : (n, a) ∈ anchors) :
    n ∈ markNames rules := by
  refine List.mem_flatMap.2 ⟨r, hr, List.mem_map.2 ⟨(n, a), ?_, rfl⟩⟩
  rw [← flatten_of_attachment? h]
  exact List.mem_flatten.2 ⟨anchors, List.mem_of_getElem? hk, hn⟩

/-! ## Bases -/

theorem attachment?_of_baseAnchors? {body : RuleBody} {bases : GlyphSet} {anchors : MarkAnchors}
    (h : body.baseAnchors? = some (bases, anchors)) :
    body.attachment? = some (bases, [anchors]) := by
  cases body <;> cases h <;> rfl

theorem exists_baseAnchors? {body : RuleBody} (hkind : body.kind ≠ .markToLigature)
    {glyphs : GlyphSet} {components : List MarkAnchors}
    (h : body.attachment? = some (glyphs, components)) :
    ∃ anchors, components = [anchors] ∧ body.baseAnchors? = some (glyphs, anchors) := by
  cases body <;> cases h
  · exact ⟨_, rfl, rfl⟩
  · exact absurd rfl hkind
  · exact ⟨_, rfl, rfl⟩

section
variable {marks : MarkSet} {rules : List Rule}

theorem mem_baseAnchors {b : BaseAnchor} : b ∈ baseAnchors marks rules ↔
    ∃ r ∈ rules, ∃ bases anchors, r.body.baseAnchors? = some (bases, anchors) ∧
      b.glyph ∈ bases ∧ (b.name, b.anchor) ∈ anchors ∧ marks.classId? b.name = some b.id ∧
      b.line = r.line := by
  rw [baseAnchors, List.mem_flatMap]
  refine exists_congr fun r => and_congr_right fun _ => ?_
  split
  · next hnone => simp [hnone]
  · next bases anchors hsome =>
    simp only [hsome, Option.some.injEq, Prod.mk.injEq, List.mem_flatMap, List.mem_map,
      List.mem_filterMap, Option.map_eq_some_iff]
    constructor
    · rintro ⟨g, hg, -, ⟨⟨n, a⟩, hn, id, hid, rfl⟩, rfl⟩
      exact ⟨bases, anchors, ⟨rfl, rfl⟩, hg, hn, hid, rfl⟩
    · rintro ⟨bases, anchors, ⟨rfl, rfl⟩, hg, hn, hid, hline⟩
      refine ⟨b.glyph, hg, (b.id, b.name, b.anchor), ⟨_, hn, b.id, hid, rfl⟩, ?_⟩
      cases b
      cases hline
      rfl

variable (hkind : ∀ r ∈ rules, r.body.kind ≠ .markToLigature)

include hkind

/-- A base has no component but the first. -/
theorem eq_zero_of_mem_anchorsOf {g : Glyph} {k : Nat} {id : UInt16} {a : Anchor}
    (h : (id, a) ∈ anchorsOf marks rules g k) : k = 0 := by
  obtain ⟨r, hr, glyphs, components, anchors, n, hbody, -, hk, -⟩ := mem_anchorsOf.1 h
  obtain ⟨anchors', rfl, -⟩ := exists_baseAnchors? (hkind r hr) hbody
  have hlt := (List.getElem?_eq_some_iff.1 hk).1
  simpa using hlt

/-- Among rules for bases, validation looks at just the anchors that rules give. -/
theorem exists_baseAnchor_iff {g : Glyph} {id : UInt16} {a : Anchor} :
    (∃ b ∈ baseAnchors marks rules, b.glyph = g ∧ b.id = id ∧ b.anchor = a) ↔
      (id, a) ∈ anchorsOf marks rules g 0 := by
  rw [mem_anchorsOf]
  constructor
  · rintro ⟨b, hb, rfl, rfl, rfl⟩
    obtain ⟨r, hr, bases, anchors, hbody, hg, hn, hid, -⟩ := mem_baseAnchors.1 hb
    exact ⟨r, hr, bases, [anchors], anchors, b.name, attachment?_of_baseAnchors? hbody, hg, rfl,
      hn, hid⟩
  · rintro ⟨r, hr, glyphs, components, anchors, n, hbody, hg, hk, hn, hid⟩
    obtain ⟨anchors', rfl, hbase⟩ := exists_baseAnchors? (hkind r hr) hbody
    cases hk
    exact ⟨⟨g, id, n, a, r.line⟩, mem_baseAnchors.2 ⟨r, hr, glyphs, anchors, hbase, hg, hn, hid,
      rfl⟩, rfl, rfl, rfl⟩

end

namespace BaseCheck
variable {kind : Kind} {place : LookupPlace}

/-- The anchor that is known of a base for the class of a number. -/
def found? (s : BaseCheck) (g : Glyph) (id : UInt16) : Option Anchor := (s.anchors.getD g ∅)[id]?

/-- What one more anchor does: it is the first for its base and class, or it agrees with what is
known, or there is a conflict. -/
theorem step_cases (kind : Kind) (place : LookupPlace) (s : BaseCheck) (b : BaseAnchor) :
    (s.found? b.glyph b.id = none ∧ s.step kind place b =
      { anchors := s.anchors.insert b.glyph ((s.anchors.getD b.glyph ∅).insert b.id b.anchor)
        bases := if b.glyph ∈ s.anchors then s.bases else b.glyph :: s.bases
        findings := s.findings }) ∨
    (s.found? b.glyph b.id = some b.anchor ∧ s.step kind place b = s) ∨
    ∃ f : Finding, f.cause = .baseWithTwoAnchors kind place b.glyph b.name ∧
      (∃ anchor, s.found? b.glyph b.id = some anchor ∧ anchor ≠ b.anchor) ∧
      s.step kind place b = { s with findings := f :: s.findings } := by
  unfold step found?
  rw [Std.TreeMap.getD_eq_getD_getElem?]
  split
  · next hnone =>
    have hm : b.glyph ∉ s.anchors := by simpa using hnone
    rw [hnone, if_neg hm]
    exact .inl ⟨Std.TreeMap.getElem?_emptyc, rfl⟩
  · next row hrow =>
    have hm : b.glyph ∈ s.anchors := by
      rw [Std.TreeMap.mem_iff_isSome_getElem?, hrow]
      rfl
    rw [hrow, if_pos hm, Option.getD_some]
    split
    · next hnone => exact .inl ⟨hnone, rfl⟩
    · next anchor hsome =>
      split
      · next hanchor => exact .inr (.inr ⟨_, rfl, ⟨anchor, hsome, hanchor⟩, rfl⟩)
      · next hanchor => exact .inr (.inl ⟨by rw [hsome, Decidable.not_not.1 hanchor], rfl⟩)

/-- A base has for each class the anchor that it was given first. -/
theorem found?_step (s : BaseCheck) (b : BaseAnchor) (g : Glyph) (id : UInt16) :
    (s.step kind place b).found? g id =
      (s.found? g id).or (if b.glyph = g ∧ b.id = id then some b.anchor else none) := by
  have hkept (anchor : Anchor) (hsome : s.found? b.glyph b.id = some anchor) :
      s.found? g id =
        (s.found? g id).or (if b.glyph = g ∧ b.id = id then some b.anchor else none) := by
    split
    · next hb =>
      obtain ⟨rfl, rfl⟩ := hb
      rw [hsome]
      rfl
    · rw [Option.or_none]
  obtain ⟨hnone, h⟩ | ⟨hsome, h⟩ | ⟨f, -, ⟨anchor, hsome, -⟩, h⟩ :=
    step_cases kind place s b <;> rw [h]
  · unfold found? at hnone ⊢
    rw [Std.TreeMap.getD_insert]
    by_cases hg : b.glyph = g
    · subst hg
      rw [if_pos Std.ReflCmp.compare_self, Std.TreeMap.getElem?_insert]
      by_cases hid : b.id = id
      · subst hid
        rw [if_pos Std.ReflCmp.compare_self, hnone, if_pos ⟨rfl, rfl⟩]
        rfl
      · rw [if_neg (mt Std.LawfulEqCmp.compare_eq_iff_eq.1 hid), if_neg (fun h => hid h.2),
          Option.or_none]
    · rw [if_neg (mt Std.LawfulEqCmp.compare_eq_iff_eq.1 hg), if_neg (fun h => hg h.1),
        Option.or_none]
  · exact hkept _ hsome
  · exact hkept _ hsome

theorem findings_step_subset (s : BaseCheck) (b : BaseAnchor) :
    s.findings ⊆ (s.step kind place b).findings := by
  obtain ⟨-, h⟩ | ⟨-, h⟩ | ⟨f, -, -, h⟩ := step_cases kind place s b <;> rw [h]
  · exact List.Subset.refl _
  · exact List.Subset.refl _
  · exact List.subset_cons_self f _

/-- Every finding of the check is a base with two anchors. -/
theorem exists_of_mem_findings {bs : List BaseAnchor} {s : BaseCheck}
    (h : ∀ f ∈ s.findings, ∃ g n, f.cause = .baseWithTwoAnchors kind place g n) :
    ∀ f ∈ (bs.foldl (step kind place) s).findings,
      ∃ g n, f.cause = .baseWithTwoAnchors kind place g n := by
  induction bs generalizing s with
  | nil => exact h
  | cons b bs ih =>
    refine ih ?_
    obtain ⟨-, hs⟩ | ⟨-, hs⟩ | ⟨f, hf, -, hs⟩ :=
      step_cases kind place s b <;> rw [hs]
    · exact h
    · exact h
    · exact List.forall_mem_cons.2 ⟨⟨_, _, hf⟩, h⟩

/-- The first anchor that a base is given for a class counts. -/
theorem found?_foldl (bs : List BaseAnchor) (s : BaseCheck) (g : Glyph) (id : UInt16) :
    (bs.foldl (step kind place) s).found? g id =
      (s.found? g id).or ((bs.find? fun b => b.glyph = g ∧ b.id = id).map BaseAnchor.anchor) := by
  induction bs generalizing s with
  | nil => simp
  | cons b bs ih =>
    rw [List.foldl_cons, ih, found?_step, Option.or_assoc, List.find?_cons]
    by_cases hb : b.glyph = g ∧ b.id = id
    · simp [hb]
    · simp [hb]

/-- Without errors, each anchor is what is known of its base for its class. -/
theorem found?_of_clear {bs : List BaseAnchor} {s : BaseCheck}
    (hclear : ∀ f ∈ (bs.foldl (step kind place) s).findings, f.level ≠ .error) {b : BaseAnchor}
    (hb : b ∈ bs) : (bs.foldl (step kind place) s).found? b.glyph b.id = some b.anchor := by
  induction bs generalizing s with
  | nil => cases hb
  | cons b' bs ih =>
    rcases List.mem_cons.1 hb with rfl | hb
    · rw [List.foldl_cons] at hclear ⊢
      have hstep : (s.step kind place b).found? b.glyph b.id = some b.anchor := by
        obtain ⟨hnone, -⟩ | ⟨hsome, -⟩ | ⟨f, hf, -, h⟩ :=
          step_cases kind place s b
        · rw [found?_step, hnone, if_pos ⟨rfl, rfl⟩]
          rfl
        · rw [found?_step, hsome]
          rfl
        · have hfound : f ∈ (s.step kind place b).findings := by
            rw [h]
            exact List.mem_cons_self
          have hfinal : f ∈ (bs.foldl (step kind place) (s.step kind place b)).findings :=
            subset_foldl findings findings_step_subset bs _ hfound
          exact absurd (congrArg Cause.level hf) (hclear f hfinal)
      rw [found?_foldl, hstep]
      rfl
    · exact ih hclear hb

/-- The bases are those of which an anchor is known, each once. -/
structure Listed (s : BaseCheck) : Prop where
  nodup : s.bases.Nodup
  mem_anchors : ∀ g, g ∈ s.bases ↔ g ∈ s.anchors
  known : ∀ g ∈ s.bases, ∃ id a, s.found? g id = some a

theorem Listed.step {s : BaseCheck} (h : s.Listed) (b : BaseAnchor) :
    (s.step kind place b).Listed := by
  have hkept : ∀ g ∈ s.bases, ∃ id a, (s.step kind place b).found? g id = some a := by
    intro g hg
    obtain ⟨id, a, ha⟩ := h.known g hg
    exact ⟨id, a, by rw [found?_step, ha]; rfl⟩
  have hstep := step_cases kind place s b
  obtain ⟨hnone, hs⟩ | ⟨-, hs⟩ | ⟨f, -, -, hs⟩ := hstep
  · have hnew : (s.step kind place b).found? b.glyph b.id = some b.anchor := by
      rw [found?_step, hnone, if_pos ⟨rfl, rfl⟩]
      rfl
    rw [hs] at hkept hnew ⊢
    refine ⟨?_, fun g => ?_, ?_⟩
    · split
      · exact h.nodup
      · next hb => exact List.nodup_cons.2 ⟨mt (h.mem_anchors _).1 hb, h.nodup⟩
    · rw [Std.TreeMap.mem_insert, Std.LawfulEqCmp.compare_eq_iff_eq, ← h.mem_anchors g]
      split
      · next hb =>
        refine ⟨.inr, ?_⟩
        rintro (rfl | hg)
        · exact (h.mem_anchors _).2 hb
        · exact hg
      · rw [List.mem_cons, eq_comm]
    · intro g hg
      split at hg
      · exact hkept g hg
      · rcases List.mem_cons.1 hg with rfl | hg
        · exact ⟨b.id, b.anchor, hnew⟩
        · exact hkept g hg
  · rw [hs]
    exact h
  · rw [hs]
    exact ⟨h.nodup, h.mem_anchors, h.known⟩

theorem Listed.foldl {s : BaseCheck} (h : s.Listed) (bs : List BaseAnchor) :
    (bs.foldl (BaseCheck.step kind place) s).Listed := by
  induction bs generalizing s with
  | nil => exact h
  | cons b bs ih => exact ih (h.step b)

/-- What is known once all anchors have been looked at. -/
def ofAnchors (kind : Kind) (place : LookupPlace) (bs : List BaseAnchor) : BaseCheck :=
  bs.foldl (step kind place) ⟨∅, [], []⟩

theorem listed_ofAnchors (kind : Kind) (place : LookupPlace) (bs : List BaseAnchor) :
    (ofAnchors kind place bs).Listed := by
  refine Listed.foldl ⟨List.nodup_nil, fun g => ?_, ?_⟩ bs
  · simp
  · intro g hg
    cases hg

theorem found?_ofAnchors_eq_none_iff {bs : List BaseAnchor} {g : Glyph} {id : UInt16} :
    (ofAnchors kind place bs).found? g id = none ↔ ∀ b ∈ bs, ¬ (b.glyph = g ∧ b.id = id) := by
  rw [ofAnchors, found?_foldl]
  simp [found?]

/-- The bases are those that are given an anchor. -/
theorem mem_bases_ofAnchors {bs : List BaseAnchor} {g : Glyph} :
    g ∈ (ofAnchors kind place bs).bases ↔ ∃ b ∈ bs, b.glyph = g := by
  have hlisted := listed_ofAnchors kind place bs
  constructor
  · intro hg
    obtain ⟨id, a, ha⟩ := hlisted.known g hg
    by_contra hnone
    have hfound : (ofAnchors kind place bs).found? g id = none :=
      found?_ofAnchors_eq_none_iff.2 fun b hb h => hnone ⟨b, hb, h.1⟩
    rw [hfound] at ha
    cases ha
  · rintro ⟨b, hb, rfl⟩
    rw [hlisted.mem_anchors]
    by_contra hnone
    have hfound : (ofAnchors kind place bs).found? b.glyph b.id = none := by
      rw [found?, Std.TreeMap.getD_eq_fallback hnone]
      exact Std.TreeMap.getElem?_emptyc
    exact found?_ofAnchors_eq_none_iff.1 hfound b hb ⟨rfl, rfl⟩

end BaseCheck

theorem baseFindings_eq (kind : Kind) (place : LookupPlace) (marks : MarkSet)
    (rules : List Rule) :
    baseFindings kind place marks rules =
      (BaseCheck.ofAnchors kind place (baseAnchors marks rules)).findings.reverse ++
        missingAnchors kind place marks
          (BaseCheck.ofAnchors kind place (baseAnchors marks rules)) := rfl

/-- Without errors, a base has one anchor for each class. -/
theorem anchor_eq_of_baseFindings {kind : Kind} {place : LookupPlace} {marks : MarkSet}
    {rules : List Rule} (hclear : ∀ f ∈ baseFindings kind place marks rules, f.level ≠ .error)
    {b b' : BaseAnchor} (hb : b ∈ baseAnchors marks rules) (hb' : b' ∈ baseAnchors marks rules)
    (hglyph : b.glyph = b'.glyph) (hid : b.id = b'.id) : b.anchor = b'.anchor := by
  have hfound {b : BaseAnchor} (hb : b ∈ baseAnchors marks rules) :
      (BaseCheck.ofAnchors kind place (baseAnchors marks rules)).found? b.glyph b.id =
        some b.anchor := by
    refine BaseCheck.found?_of_clear (fun f hf => hclear f ?_) hb
    rw [baseFindings_eq]
    exact List.mem_append_left _ (List.mem_reverse.2 hf)
  have hone := hfound hb
  rw [hglyph, hid, hfound hb'] at hone
  exact (Option.some.inj hone).symm

/-! ## Ligatures -/

section
variable {place : LookupPlace} {marks : MarkSet} {rules : List Rule}

theorem componentStep_cases (place : LookupPlace) (s : Std.TreeMap (List Nat) Nat × List Finding)
    (a : ComponentAnchor) :
    (a.slot ∉ s.1 ∧ componentStep place s a = (s.1.insert a.slot a.rule, s.2)) ∨
      a.slot ∈ s.1 ∧ ∃ f : Finding, f.level = .error ∧
        componentStep place s a = (s.1, f :: s.2) := by
  unfold componentStep
  split
  · next hnone => exact .inl ⟨by simpa using hnone, rfl⟩
  · next hsome =>
    have hm : a.slot ∈ s.1 := by
      rw [Std.TreeMap.mem_iff_isSome_getElem?, hsome]
      rfl
    refine .inr ⟨hm, _, ?_, rfl⟩
    split <;> rfl

theorem componentStep_subset (s : Std.TreeMap (List Nat) Nat × List Finding)
    (a : ComponentAnchor) : s.2 ⊆ (componentStep place s a).2 := by
  obtain ⟨-, h⟩ | ⟨-, f, -, h⟩ := componentStep_cases place s a <;> rw [h]
  · exact List.Subset.refl _
  · exact List.subset_cons_self f _

/-- Without errors, no component is given two anchors for one class, not even the same one. -/
theorem nodup_slots_of_clear {as : List ComponentAnchor}
    {s : Std.TreeMap (List Nat) Nat × List Finding}
    (hclear : ∀ f ∈ (as.foldl (componentStep place) s).2, f.level ≠ .error) :
    (as.map ComponentAnchor.slot).Nodup ∧ ∀ a ∈ as, a.slot ∉ s.1 := by
  induction as generalizing s with
  | nil =>
    refine ⟨List.nodup_nil, ?_⟩
    intro a ha
    cases ha
  | cons a as ih =>
    rw [List.foldl_cons] at hclear
    obtain ⟨hnodup, hfree⟩ := ih hclear
    obtain ⟨hnew, h⟩ | ⟨-, f, hf, h⟩ := componentStep_cases place s a
    · have hother : ∀ b ∈ as, b.slot ≠ a.slot ∧ b.slot ∉ s.1 := by
        intro b hb
        have hb := hfree b hb
        rw [h, Std.TreeMap.mem_insert, Std.LawfulEqCmp.compare_eq_iff_eq, not_or] at hb
        exact ⟨Ne.symm hb.1, hb.2⟩
      refine ⟨List.nodup_cons.2 ⟨fun hm => ?_, hnodup⟩, ?_⟩
      · obtain ⟨b, hb, he⟩ := List.mem_map.1 hm
        exact (hother b hb).1 he
      · exact List.forall_mem_cons.2 ⟨hnew, fun b hb => (hother b hb).2⟩
    · have hfound : f ∈ (componentStep place s a).2 := by
        rw [h]
        exact List.mem_cons_self
      exact absurd hf (hclear f (subset_foldl Prod.snd componentStep_subset as _ hfound))

/-- The classes that a component has anchors for, with their numbers. -/
def numbered (marks : MarkSet) (k : Nat) (anchors : MarkAnchors) : List (Nat × UInt16 × String) :=
  anchors.filterMap fun a => (marks.classId? a.1).map fun id => (k, id, a.1)

theorem slots_numbered (g : Glyph) (k : Nat) (anchors : MarkAnchors) (i : Nat)
    (line : Option UInt32) :
    (((numbered marks k anchors).map fun x =>
      (⟨g, x.1, x.2.1, x.2.2, i, line⟩ : ComponentAnchor)).map ComponentAnchor.slot) =
      (Packing.knownAnchors marks anchors).map fun x => [g.toNat, k, x.1.toNat] := by
  simp [numbered, Packing.knownAnchors, List.map_filterMap, Function.comp_def,
    ComponentAnchor.slot]

theorem sublist_flatMap_of_mem {α β : Type} {l : List α} {x : α} (h : x ∈ l)
    (f : α → List β) : (f x).Sublist (l.flatMap f) := by
  rw [List.flatMap_def]
  exact List.sublist_flatten_of_mem (List.mem_map_of_mem h)

/-- The anchors that rules give for a component of a glyph stand among all that validation looks
at, in their order. -/
theorem sublist_slots (hkind : ∀ r ∈ rules, r.body.kind = .markToLigature) (g : Glyph) (k : Nat) :
    ((anchorsOf marks rules g k).map fun x => [g.toNat, k, x.1.toNat]).Sublist
      ((componentAnchors marks rules).map ComponentAnchor.slot) := by
  have hrules : anchorsOf marks rules g k =
      rules.zipIdx.flatMap fun x => anchorsFrom marks g k x.1 := by
    rw [anchorsOf]
    conv_lhs => rw [← List.zipIdx_map_fst 0 rules]
    rw [List.flatMap_map]
  rw [hrules, componentAnchors, List.map_flatMap, List.map_flatMap]
  refine List.Sublist.flatMap_right _ ?_
  rintro ⟨r, i⟩ hr
  have hr := hkind r (List.fst_mem_of_mem_zipIdx hr)
  obtain ⟨body, line, b⟩ := r
  cases body <;> cases hr
  next ligature components =>
  by_cases hg : g ∈ ligature
  · rw [anchorsFrom_eq rfl, if_pos hg]
    cases hk : components[k]? with
    | none =>
      rw [List.getD_eq_getElem?_getD, hk]
      exact List.nil_sublist _
    | some anchors =>
      rw [List.getD_eq_getElem?_getD, hk, Option.getD_some]
      refine List.Sublist.trans ?_ ((sublist_flatMap_of_mem hg fun g =>
        (components.zipIdx.flatMap fun x => numbered marks x.2 x.1).map fun x =>
          (⟨g, x.1, x.2.1, x.2.2, i, line⟩ : ComponentAnchor)).map ComponentAnchor.slot)
      have hnumbered : (numbered marks k anchors).Sublist
          (components.zipIdx.flatMap fun x => numbered marks x.2 x.1) :=
        sublist_flatMap_of_mem (List.mk_mem_zipIdx_iff_getElem?.2 hk)
          fun x => numbered marks x.2 x.1
      rw [← slots_numbered]
      exact (hnumbered.map _).map _
  · rw [anchorsFrom_eq rfl, if_neg hg]
    exact List.nil_sublist _

end

end FontLayout
