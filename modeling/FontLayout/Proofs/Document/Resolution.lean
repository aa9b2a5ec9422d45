import FontLayout.Document.Resolution
import FontLayout.Proofs.Diagnostic.Audits
import FontLayout.Proofs.Document.Scope
import FontLayout.Proofs.Lookup.Survey
/-!
# Documents that resolve

A document that resolves has no findings that are errors, so its glyph order repeats no name and is
not too long. Its scope is closed: classes are made of its glyphs, and names of lookups stand for
lookups. Hence the rule set that comes out of it is closed, and each of its lookups has the rules
behind the rules of the lookup at the same place.

Results:
* `Document.closed_scope`: the scope of a document.
* `Document.forall₂_lookups`: the lookups of a document and of its rule set.
* `Document.resolve_closed`: a document that resolves gives a closed rule set.
-/
namespace FontLayout

namespace Document

/-! ## Glyph orders -/

theorem repeatStep_cases (s : Std.TreeSet String × List Finding) (name : String) :
    (name ∈ s.1 ∧ ∃ f, repeatStep s name = (s.1, f :: s.2)) ∨
      (name ∉ s.1 ∧ repeatStep s name = (s.1.insert name, s.2)) := by
  unfold repeatStep
  split
  · next h => exact .inl ⟨Std.TreeSet.mem_iff_contains.2 h, _, rfl⟩
  · next h => exact .inr ⟨fun hm => h (Std.TreeSet.mem_iff_contains.1 hm), rfl⟩

theorem findings_repeatStep_subset (s : Std.TreeSet String × List Finding) (name : String) :
    s.2 ⊆ (repeatStep s name).2 := by
  obtain ⟨-, f, h⟩ | ⟨-, h⟩ := repeatStep_cases s name <;> rw [h]
  · exact List.subset_cons_self _ _
  · exact List.Subset.refl _

theorem nodup_of_repeats {names : List String} {s : Std.TreeSet String × List Finding}
    (h : (names.foldl repeatStep s).2 = []) : names.Nodup ∧ ∀ n ∈ names, n ∉ s.1 := by
  induction names generalizing s with
  | nil => exact ⟨List.nodup_nil, nofun⟩
  | cons name names ih =>
    rw [List.foldl_cons] at h
    obtain ⟨hnodup, hnew⟩ := ih h
    obtain ⟨-, f, hstep⟩ | ⟨hname, hstep⟩ := repeatStep_cases s name
    · have hsub := subset_foldl Prod.snd findings_repeatStep_subset names (repeatStep s name)
      rw [h, hstep] at hsub
      -- a finding that was made is never lost, and none is left
      cases hsub List.mem_cons_self
    · rw [hstep] at hnew
      have hne : ∀ n ∈ names, n ≠ name ∧ n ∉ s.1 := by
        intro n hn
        have hnot := hnew n hn
        simp only [Std.TreeSet.mem_insert, Std.LawfulEqCmp.compare_eq_iff_eq, not_or] at hnot
        exact ⟨Ne.symm hnot.1, hnot.2⟩
      refine ⟨List.nodup_cons.2 ⟨fun hmem => (hne name hmem).1 rfl, hnodup⟩, ?_⟩
      exact List.forall_mem_cons.2 ⟨hname, fun n hn => (hne n hn).2⟩

/-- An order with which nothing is wrong repeats no name and can be numbered. -/
theorem of_glyphOrderFindings {names : List String} (h : glyphOrderFindings names = []) :
    names.Nodup ∧ names.length ≤ maxGlyphs := by
  unfold glyphOrderFindings at h
  dsimp only at h
  split at h
  · cases (List.append_eq_nil_iff.1 h).2
  · next hlength =>
    exact ⟨(nodup_of_repeats (List.reverse_eq_nil_iff.1 h)).1, Nat.le_of_not_lt hlength⟩

theorem level_of_mem_glyphOrderFindings {names : List String} {f : Finding}
    (hf : f ∈ glyphOrderFindings names) : f.level = .error := by
  have hall : ∀ f ∈ (names.foldl repeatStep (∅, [])).2, f.level = .error := by
    refine List.foldlRecOn (motive := fun s : Std.TreeSet String × List Finding =>
      ∀ f ∈ s.2, f.level = .error) _ _ ?_ fun s h name _ => ?_
    · simp
    · unfold repeatStep
      split
      · exact List.forall_mem_cons.2 ⟨rfl, h⟩
      · exact h
  unfold glyphOrderFindings at hf
  dsimp only at hf
  split at hf
  · rcases List.mem_append.1 hf with hf | hf
    · exact hall f (List.mem_reverse.1 hf)
    · rw [List.mem_singleton.1 hf]
      rfl
  · exact hall f (List.mem_reverse.1 hf)

/-! ## The scope of a document -/

theorem closed_glyphs (d : Document) : Scope.Closed ⟨d.glyphs, ∅, ∅, 0⟩ where
  glyph_lt hg := GlyphOrder.lt_of_find? (List.length_take_le _ _) hg
  class_lt hgs := by simp at hgs
  lookup_lt hi := by simp at hi

theorem closed_addClass {s : ScopeState} (h : s.scope.Closed) (c : String × GlyphNames) :
    (addClass s c).scope.Closed where
  glyph_lt hg := h.glyph_lt hg
  class_lt hgs := by
    simp only [addClass, Std.TreeMap.getElem?_insert] at hgs
    split at hgs
    · cases hgs
      exact h.glyphList c.2
    · exact h.class_lt hgs
  lookup_lt hi := h.lookup_lt hi

theorem closed_classScope (d : Document) : d.classScope.scope.Closed :=
  List.foldlRecOn (motive := fun s : ScopeState => s.scope.Closed) _ _ (closed_glyphs d)
    fun _ h c _ => closed_addClass h c

theorem glyphs_classScope (d : Document) : d.classScope.scope.glyphs = d.glyphs :=
  List.foldlRecOn (motive := fun s : ScopeState => s.scope.glyphs = d.glyphs) _ _ rfl
    fun _ h _ _ => h

/-- What holds of the lookups that have been seen: they are numbered in turn, and their names stand
for some of them. -/
structure FrameState.Follows (s : FrameState) (scope : Scope) (done : List Lookup) : Prop where
  frames_eq : s.frames.reverse = done.map fun l => (l.frame scope).value
  count_eq : s.count = done.length
  name_lt {name : String} {i : Nat} (hi : s.names[name]? = some i) : i < s.count

theorem FrameState.Follows.add {s : FrameState} {scope : Scope} {done : List Lookup}
    (h : s.Follows scope done) (l : Lookup) : (addFrame scope s l).Follows scope (done ++ [l]) where
  frames_eq := by simp [addFrame, h.frames_eq]
  count_eq := by simp [addFrame, h.count_eq]
  name_lt {name i} hi := by
    dsimp only [addFrame] at hi ⊢
    cases hname : l.name with
    | none =>
      rw [hname] at hi
      exact Nat.lt_succ_of_lt (h.name_lt hi)
    | some own =>
      rw [hname, Option.elim_some, Std.TreeMap.getElem?_insert] at hi
      split at hi
      · cases hi
        exact Nat.lt_succ_self _
      · exact Nat.lt_succ_of_lt (h.name_lt hi)

theorem follows_foldl (scope : Scope) (ls : List Lookup) :
    (ls.foldl (addFrame scope) ⟨[], ∅, 0, []⟩).Follows scope ls := by
  induction ls using List.reverseRecOn with
  | nil => exact ⟨rfl, rfl, fun hi => by simp at hi⟩
  | append_singleton ls l ih =>
    rw [List.foldl_append]
    exact ih.add l

theorem follows_lookupFrames (d : Document) (scope : Scope) :
    (d.lookupFrames scope).Follows scope d.lookups := follows_foldl scope d.lookups

/-- What the names of a document mean. -/
def scope (d : Document) : Scope :=
  let frames := d.lookupFrames d.classScope.scope
  { d.classScope.scope with lookups := frames.names, lookupCount := frames.count }

theorem closed_scope (d : Document) : d.scope.Closed where
  glyph_lt hg := (closed_classScope d).glyph_lt hg
  class_lt hgs := (closed_classScope d).class_lt hgs
  lookup_lt hi := (follows_lookupFrames d d.classScope.scope).name_lt hi

theorem glyphs_scope (d : Document) : d.scope.glyphs = d.glyphs := glyphs_classScope d

theorem lookupCount_scope (d : Document) : d.scope.lookupCount = d.lookups.length :=
  (follows_lookupFrames d d.classScope.scope).count_eq

end Document

/-! ## What is in a rule set -/

/-- The glyphs of a lookup: those of its rules and of its sets. -/
def Lookup.glyphs (l : Lookup) : List Glyph :=
  l.rules.flatMap (fun r => r.body.glyphs)
    ++ glyphsOfSets (l.markFilterSet.toList ++ l.markAttachment.toList)

/-- The glyphs that are in some role. -/
def GlyphClasses.glyphs (c : GlyphClasses) : List Glyph :=
  glyphsOfSets [c.base, c.ligature, c.mark, c.component]

namespace RuleSet

/-- All glyphs of a rule set. -/
def glyphs (s : RuleSet) : List Glyph :=
  s.lookups.flatMap Lookup.glyphs
    ++ s.markClasses.flatMap (fun c => glyphsOfSets (c.members.map Prod.fst))
    ++ s.glyphFacts.classes.toList.flatMap GlyphClasses.glyphs
    ++ s.glyphFacts.carets.map LigatureCaret.glyph

/-- All lookups that the features and the rules of a rule set refer to. -/
def references (s : RuleSet) : List Nat :=
  s.features.flatMap Feature.lookups
    ++ s.lookups.flatMap fun l => l.rules.flatMap fun r => r.body.references

end RuleSet

namespace Document

/-- Whether a lookup of a rule set is that of a document: it has its name and its kind, and the
rules behind its rules, in order. -/
structure Lookup.StandsFor (scope : Scope) (l : Lookup) (l' : FontLayout.Lookup) : Prop where
  name_eq : l'.name = l.name
  kind_eq : l'.kind = l.kind
  rules_eq : l'.rules = l.rules.flatMap fun r => (scope.rules r).value

/-- Each rule of a lookup has the line and the kind of a rule of the lookup it stands for. -/
theorem Lookup.StandsFor.exists_rule {scope : Scope} {l : Lookup} {l' : FontLayout.Lookup}
    (h : l.StandsFor scope l') {x : FontLayout.Rule} (hx : x ∈ l'.rules) :
    ∃ r ∈ l.rules, x.line = r.line ∧ x.body.kind = r.body.kind := by
  rw [h.rules_eq] at hx
  obtain ⟨r, hr, hx⟩ := List.mem_flatMap.1 hx
  exact ⟨r, hr, scope.line_of_mem_rules r x hx,
    scope.kind_of_mem_expand r.body _ (Scope.body_mem_expand hx)⟩

theorem lookups_audit (d : Document) : d.audit.1.lookups =
    d.lookups.map fun l => { (l.frame d.classScope.scope).value with
      rules := l.rules.flatMap fun r => (d.scope.rules r).value } := by
  have hframes := (follows_lookupFrames d d.classScope.scope).frames_eq
  change List.map _ (List.zip _ (d.lookups.map (Lookup.resolveRules d.scope))) = _
  rw [hframes, List.zip_map', List.map_map]
  simp [Function.comp_def, Lookup.resolveRules, List.flatMap_map]

theorem length_lookups_audit (d : Document) : d.audit.1.lookups.length = d.lookups.length := by
  rw [lookups_audit, List.length_map]

/-- The lookups of a document and of its rule set, one by one. -/
theorem forall₂_lookups (d : Document) :
    List.Forall₂ (Lookup.StandsFor d.scope) d.lookups d.audit.1.lookups := by
  rw [lookups_audit, List.forall₂_map_right_iff]
  exact List.forall₂_same.2 fun l _ => ⟨rfl, rfl, rfl⟩

end Document

/-! ## What a closed scope gives -/

namespace Scope.Closed
open Document (GlyphNames)
variable {s : Scope} (h : s.Closed)
include h

theorem glyphSet? (names : Option GlyphNames) :
    ∀ g ∈ glyphsOfSets (s.glyphSet? names).value.toList, g.toNat < s.glyphs.size := by
  cases names with
  | none => exact nofun
  | some names =>
    change ∀ g ∈ glyphsOfSets [(s.glyphSet names).value], _
    simpa [glyphsOfSets] using h.glyphSet names

theorem frame (l : Document.Lookup) :
    ∀ g ∈ glyphsOfSets ((l.frame s).value.markFilterSet.toList
      ++ (l.frame s).value.markAttachment.toList), g.toNat < s.glyphs.size := by
  rw [glyphsOfSets, List.flatMap_append]
  exact List.forall_mem_append.2 ⟨h.glyphSet? l.markFilterSet, h.glyphSet? l.markAttachment⟩

theorem markMembers (c : String × List Document.MarkMember) :
    ∀ g ∈ glyphsOfSets ((Document.markMembers s c).value.members.map Prod.fst),
      g.toNat < s.glyphs.size := by
  simp only [Document.markMembers, Named.value_map, Named.value_traverse, glyphsOfSets,
    List.map_map, List.forall_mem_flatMap, List.forall_mem_map]
  exact fun m _ => h.glyphSet m.glyphs

theorem glyphClasses (c : Document.GlyphClasses) :
    ∀ g ∈ (c.resolve s).value.glyphs, g.toNat < s.glyphs.size := by
  simp only [Document.GlyphClasses.resolve, GlyphClasses.glyphs, glyphsOfSets, Named.value_bind,
    Named.value_pure, List.forall_mem_flatMap, List.forall_mem_cons]
  exact ⟨h.glyphSet c.base, h.glyphSet c.ligature, h.glyphSet c.mark, h.glyphSet c.component,
    List.forall_mem_nil _⟩

theorem roles (f : Document.GlyphFacts) :
    ∀ c ∈ (f.resolveClasses s).value, ∀ g ∈ c.glyphs, g.toNat < s.glyphs.size := by
  intro c hc
  unfold Document.GlyphFacts.resolveClasses at hc
  split at hc
  · cases hc
  · next stated _ =>
    rw [Named.value_map] at hc
    cases hc
    exact h.glyphClasses stated

theorem caret (c : Document.Caret) {x : LigatureCaret} (hx : (c.resolve s).value = some x) :
    x.glyph.toNat < s.glyphs.size := by
  rw [Document.Caret.resolve, Named.value_map] at hx
  obtain ⟨g, hg, rfl⟩ := Option.map_eq_some_iff.1 hx
  exact h.glyph? hg

theorem feature (f : Document.Feature) {x : Feature} (hx : (f.resolve s).1 = some x) :
    ∀ i ∈ x.lookups, i < s.lookupCount := by
  unfold Document.Feature.resolve at hx
  dsimp only at hx
  split at hx
  · cases hx
  · cases hx
    intro i hi
    obtain ⟨ref, -, hi⟩ := Named.mem_traverseSome.1 hi
    exact h.lookup? hi

end Scope.Closed

namespace Document

theorem lt_of_mem_glyphs_audit (d : Document) :
    ∀ g ∈ d.audit.1.glyphs, g.toNat < d.glyphs.size := by
  have hscope := closed_scope d
  have hclasses := closed_classScope d
  have hlookups : ∀ g ∈ d.audit.1.lookups.flatMap Lookup.glyphs, g.toNat < d.glyphs.size := by
    rw [lookups_audit, ← glyphs_scope d]
    simp only [List.forall_mem_flatMap, List.forall_mem_map, Lookup.glyphs,
      List.forall_mem_append]
    exact fun l _ => ⟨fun r _ x hx => hscope.lt_of_mem_expand r.body _ (Scope.body_mem_expand hx),
      glyphs_classScope d ▸ hclasses.frame l⟩
  have hmarks : ∀ g ∈ d.audit.1.markClasses.flatMap fun c => glyphsOfSets (c.members.map Prod.fst),
      g.toNat < d.glyphs.size := by
    simp only [audit, Named.value_traverse, List.forall_mem_flatMap, List.forall_mem_map]
    exact fun c _ => glyphs_classScope d ▸ hclasses.markMembers c
  have hroles : ∀ g ∈ d.audit.1.glyphFacts.classes.toList.flatMap GlyphClasses.glyphs,
      g.toNat < d.glyphs.size := by
    rw [← glyphs_scope d]
    simp only [List.forall_mem_flatMap, Option.mem_toList]
    exact hscope.roles d.glyphFacts
  have hcarets : ∀ g ∈ d.audit.1.glyphFacts.carets.map LigatureCaret.glyph,
      g.toNat < d.glyphs.size := by
    rw [← glyphs_scope d]
    simp only [audit, List.forall_mem_map, List.mem_filterMap]
    rintro x ⟨y, hy, hx⟩
    obtain ⟨c, -, rfl⟩ := List.mem_map.1 hy
    exact hscope.caret c hx
  exact List.forall_mem_append.2 ⟨List.forall_mem_append.2
    ⟨List.forall_mem_append.2 ⟨hlookups, hmarks⟩, hroles⟩, hcarets⟩

theorem lt_of_mem_references_audit (d : Document) :
    ∀ i ∈ d.audit.1.references, i < d.audit.1.lookups.length := by
  have hscope := closed_scope d
  rw [length_lookups_audit, ← lookupCount_scope d]
  have hfeatures : ∀ i ∈ d.audit.1.features.flatMap FontLayout.Feature.lookups,
      i < d.scope.lookupCount := by
    simp only [audit, List.forall_mem_flatMap, List.mem_filterMap]
    rintro x ⟨y, hy, hx⟩
    obtain ⟨f, -, rfl⟩ := List.mem_map.1 hy
    exact hscope.feature f hx
  have hrules : ∀ i ∈ d.audit.1.lookups.flatMap fun l => l.rules.flatMap fun r => r.body.references,
      i < d.scope.lookupCount := by
    rw [lookups_audit]
    simp only [List.forall_mem_flatMap, List.forall_mem_map]
    exact fun l _ r _ x hx => hscope.lt_of_mem_references r.body _ (Scope.body_mem_expand hx)
  exact List.forall_mem_append.2 ⟨hfeatures, hrules⟩

end Document

/-! ## Documents that resolve -/

namespace Document

/-- In a document that resolves, nothing is wrong with the glyph order. -/
theorem glyphOrderFindings_of_resolve {d : Document} {r : RuleSet × GlyphOrder}
    (h : d.resolve = .ok r) : glyphOrderFindings d.glyphOrder = [] := by
  have hreport := resolve_ok h
  rw [Report.hasErrors, List.any_eq_false, reportOf, List.forall_mem_map] at hreport
  refine List.eq_nil_iff_forall_not_mem.2 fun f hf => hreport f ?_ ?_
  · simp only [audit, List.append_assoc]
    exact List.mem_append_left _ hf
  · rw [Diagnostic.isError, Finding.level_diagnose, level_of_mem_glyphOrderFindings hf]
    rfl

/-- A document that resolves gives a closed rule set: its glyph order numbers the glyphs, all glyphs
and lookups in the rule set are there, and each lookup has the rules behind the rules of the lookup
at its place. -/
theorem resolve_closed {d : Document} {rules : RuleSet} {glyphs : GlyphOrder}
    (h : d.resolve = .ok (rules, glyphs)) :
    glyphs.Numbers d.glyphOrder ∧
      (∀ g ∈ rules.glyphs, g.toNat < glyphs.size) ∧
      (∀ i ∈ rules.references, i < rules.lookups.length) ∧
      List.Forall₂ (Lookup.StandsFor d.scope) d.lookups rules.lookups ∧
      ∀ f ∈ surveyFindings rules, ¬ f.cause.IsMissingLookup := by
  obtain ⟨hnodup, hlength⟩ := of_glyphOrderFindings (glyphOrderFindings_of_resolve h)
  have hresult : (rules, glyphs) = (d.audit.1, d.glyphs) := by
    unfold resolve at h
    dsimp only at h
    split at h <;> cases h
    rfl
  cases hresult
  have hreferences := lt_of_mem_references_audit d
  refine ⟨?_, lt_of_mem_glyphs_audit d, hreferences, forall₂_lookups d, fun f hf => ?_⟩
  · rw [glyphs, List.take_of_length_le hlength]
    exact GlyphOrder.numbers_ofNames hlength hnodup
  · obtain ⟨hfeatures, hrules⟩ := List.forall_mem_append.1 hreferences
    refine not_isMissingLookup_of_mem_surveyFindings (List.forall_mem_flatMap.1 hfeatures) ?_ hf
    exact fun l hl => List.forall_mem_flatMap.1 (List.forall_mem_flatMap.1 hrules l hl)

/-- A contextual lookup that refers by name to the lookup after it. -/
def contextBefore : Document where
  fontName := "Demo"
  glyphOrder := ["a", "b"]
  classes := ⟨[("both", .many ["a", "b"])], by decide⟩
  markClasses := .empty
  lookups := [
    { name := some "context"
      kind := .chainSub
      flags := []
      markFilterSet := none
      markAttachment := none
      rules := [⟨.chainSub ⟨[], [⟨.one "@both", [.name "swap"]⟩], []⟩, none, false⟩] },
    { name := some "swap"
      kind := .singleSub
      flags := []
      markFilterSet := none
      markAttachment := none
      rules := [⟨.singleSub (.one "a") (.one "b"), none, false⟩] }]
  features := [⟨"calt", [], [.index 0]⟩]
  glyphFacts := ⟨none, []⟩

/-- A name may stand for a lookup that comes later. -/
theorem resolve_contextBefore :
    ∃ rules glyphs, contextBefore.resolve = .ok (rules, glyphs) ∧
      rules.references = [0, 1] ∧ rules.glyphs = [0, 1, 0, 1] ∧
      glyphs.Numbers ["a", "b"] ∧
      (∀ g ∈ rules.glyphs, g.toNat < glyphs.size) ∧
      (∀ i ∈ rules.references, i < rules.lookups.length) ∧
      List.Forall₂ (Lookup.StandsFor contextBefore.scope) contextBefore.lookups rules.lookups ∧
      ∀ f ∈ surveyFindings rules, ¬ f.cause.IsMissingLookup := by
  have h : contextBefore.resolve = .ok (contextBefore.audit.1, contextBefore.glyphs) := by rfl
  exact ⟨_, _, h, by rfl, by rfl, resolve_closed h⟩

end Document
end FontLayout
