import FontLayout.Layout.GlyphDefinition
import FontLayout.Proofs.Glyph.Keyed
import Mathlib.Data.List.Forall2
/-!
# Roles that follow from the rules

Where roles are not stated, each glyph takes the highest of the roles that the rules and the mark
classes give it: a mark before a ligature, a ligature before a base. The passes that find them write
over each other, and each pass gives one role only. So it is the passes that are ordered, and
neither the lookups, nor their rules, nor the mark classes.

Results:
* `mem_pass`: a pass gives its role to the glyphs of which some rule or class says it.
* `lookup_inferredRoles`: the highest of these roles counts.
* `inferred_roles`: the role of each glyph, and that no reordering changes it.
-/
namespace FontLayout

/-! ## What rules say -/

/-- Whether a lookup is another with its rules in some other order. -/
def Lookup.Reorders (a b : Lookup) : Prop :=
  ∃ rules : List Rule, rules.Perm b.rules ∧ a = { b with rules }

namespace RuleSet

/-- Whether a rule is in some lookup. -/
def HasRule (s : RuleSet) (body : RuleBody) : Prop :=
  ∃ l ∈ s.lookups, ∃ r ∈ l.rules, r.body = body

/-- The roles that rules and mark classes give a glyph, each taken alone. -/
inductive Says (s : RuleSet) (g : Glyph) : Role → Prop where
  | markToBase {base : GlyphSet} {marks : MarkAnchors} (h : s.HasRule (.markToBase base marks))
      (hg : g ∈ base) : Says s g .base
  | markToLigature {ligature : GlyphSet} {components : List MarkAnchors}
      (h : s.HasRule (.markToLigature ligature components)) (hg : g ∈ ligature) : Says s g .ligature
  | ligatureSub {components : List Glyph} (h : s.HasRule (.ligatureSub components g)) :
      Says s g .ligature
  | markToMark {baseMark : GlyphSet} {marks : MarkAnchors}
      (h : s.HasRule (.markToMark baseMark marks)) (hg : g ∈ baseMark) : Says s g .mark
  | markClass {c : MarkClass} (hc : c ∈ s.markClasses) {m : GlyphSet × Anchor} (hm : m ∈ c.members)
      (hg : g ∈ m.1) : Says s g .mark

/-- Whether a set has the lookups of another, the rules of each and the mark classes in some other
order. Features count the lookups, so they may differ. -/
structure Reorders (t s : RuleSet) : Prop where
  lookups : ∃ ls : List Lookup, ls.Perm s.lookups ∧ List.Forall₂ Lookup.Reorders t.lookups ls
  markClasses : t.markClasses.Perm s.markClasses
  glyphFacts : t.glyphFacts = s.glyphFacts

variable {s t : RuleSet} {g : Glyph} {role : Role}

theorem Says.mono (h : s.Says g role) (hrules : ∀ body, s.HasRule body → t.HasRule body)
    (hclasses : s.markClasses ⊆ t.markClasses) : t.Says g role := by
  cases h with
  | markToBase hr hg => exact .markToBase (hrules _ hr) hg
  | markToLigature hr hg => exact .markToLigature (hrules _ hr) hg
  | ligatureSub hr => exact .ligatureSub (hrules _ hr)
  | markToMark hr hg => exact .markToMark (hrules _ hr) hg
  | markClass hc hm hg => exact .markClass (hclasses hc) hm hg

theorem exists_rule_iff {ls ls' : List Lookup} (h : List.Forall₂ Lookup.Reorders ls ls')
    (body : RuleBody) : (∃ l ∈ ls, ∃ r ∈ l.rules, r.body = body) ↔
      ∃ l ∈ ls', ∃ r ∈ l.rules, r.body = body := by
  induction h with
  | nil => rfl
  | cons hl _ ih =>
    obtain ⟨rules, hperm, rfl⟩ := hl
    simp only [List.exists_mem_cons_iff, hperm.mem_iff, ih]

theorem Reorders.hasRule_iff (h : t.Reorders s) (body : RuleBody) :
    t.HasRule body ↔ s.HasRule body := by
  obtain ⟨ls, hperm, hrules⟩ := h.lookups
  rw [HasRule, exists_rule_iff hrules]
  simp only [hperm.mem_iff, HasRule]

/-- Reordering leaves what is said. -/
theorem Reorders.says_iff (h : t.Reorders s) : t.Says g role ↔ s.Says g role :=
  ⟨fun hs => hs.mono (fun body => (h.hasRule_iff body).1) h.markClasses.subset,
    fun hs => hs.mono (fun body => (h.hasRule_iff body).2) h.markClasses.symm.subset⟩

end RuleSet

/-! ## Passes -/

variable {s : RuleSet} {g : Glyph} {role r : Role}

theorem GlyphSet.mem_withRole {xs : GlyphSet} : (g, r) ∈ xs.withRole role ↔ r = role ∧ g ∈ xs := by
  simp [withRole, mem_def, and_comm, eq_comm]

/-- The records of the pass that gives a role. -/
def pass (s : RuleSet) : Role → List (Glyph × Role)
  | .base => (s.lookups.flatMap fun l => l.rules.map Rule.body).flatMap RuleBody.baseRoles
  | .ligature => (s.lookups.flatMap fun l => l.rules.map Rule.body).flatMap RuleBody.ligatureRoles
  | .mark => (s.lookups.flatMap fun l => l.rules.map Rule.body).flatMap RuleBody.markRoles
      ++ s.markClasses.flatMap MarkClass.roles
  | .component => []

theorem inferredRoles_eq (s : RuleSet) :
    inferredRoles s = pass s .base ++ (pass s .ligature ++ pass s .mark) := by
  simp only [inferredRoles, pass, List.append_assoc]

theorem mem_bodies {body : RuleBody} :
    body ∈ (s.lookups.flatMap fun l => l.rules.map Rule.body) ↔ s.HasRule body := by
  simp only [List.mem_flatMap, List.mem_map, RuleSet.HasRule]

section
variable {body : RuleBody}

theorem mem_baseRoles : (g, r) ∈ body.baseRoles ↔
    r = .base ∧ ∃ base marks, body = .markToBase base marks ∧ g ∈ base := by
  cases body <;> simp [RuleBody.baseRoles, GlyphSet.mem_withRole]

theorem mem_ligatureRoles : (g, r) ∈ body.ligatureRoles ↔
    r = .ligature ∧ ((∃ ligature components, body = .markToLigature ligature components ∧
      g ∈ ligature) ∨ ∃ components, body = .ligatureSub components g) := by
  cases body <;>
    simp [RuleBody.ligatureRoles, GlyphSet.mem_withRole, and_comm, @eq_comm Glyph g]

theorem mem_markRoles : (g, r) ∈ body.markRoles ↔
    r = .mark ∧ ∃ baseMark marks, body = .markToMark baseMark marks ∧ g ∈ baseMark := by
  cases body <;> simp [RuleBody.markRoles, GlyphSet.mem_withRole]

end

theorem mem_classRoles {c : MarkClass} :
    (g, r) ∈ c.roles ↔ r = .mark ∧ ∃ m ∈ c.members, g ∈ m.1 := by
  simp only [MarkClass.roles, List.mem_flatMap, GlyphSet.mem_withRole, and_left_comm,
    exists_and_left]

/-- A pass lists the glyphs that are said to have its role, and gives them no other. -/
theorem mem_pass : (g, r) ∈ pass s role ↔ r = role ∧ s.Says g role := by
  cases role with
  | base =>
    simp only [pass, List.mem_flatMap (l := List.flatMap ..), mem_bodies, mem_baseRoles]
    constructor
    · rintro ⟨_, hr, rfl, base, marks, rfl, hg⟩
      exact ⟨rfl, .markToBase hr hg⟩
    · rintro ⟨rfl, hsays⟩
      cases hsays with
      | markToBase hr hg => exact ⟨_, hr, rfl, _, _, rfl, hg⟩
  | ligature =>
    simp only [pass, List.mem_flatMap (l := List.flatMap ..), mem_bodies, mem_ligatureRoles]
    constructor
    · rintro ⟨_, hr, rfl, ⟨ligature, components, rfl, hg⟩ | ⟨components, rfl⟩⟩
      · exact ⟨rfl, .markToLigature hr hg⟩
      · exact ⟨rfl, .ligatureSub hr⟩
    · rintro ⟨rfl, hsays⟩
      cases hsays with
      | markToLigature hr hg => exact ⟨_, hr, rfl, .inl ⟨_, _, rfl, hg⟩⟩
      | ligatureSub hr => exact ⟨_, hr, rfl, .inr ⟨_, rfl⟩⟩
  | mark =>
    simp only [pass, List.mem_append, List.mem_flatMap (l := List.flatMap ..),
      List.mem_flatMap (l := s.markClasses), mem_bodies, mem_markRoles, mem_classRoles]
    constructor
    · rintro (⟨_, hr, rfl, baseMark, marks, rfl, hg⟩ | ⟨c, hc, rfl, m, hm, hg⟩)
      · exact ⟨rfl, .markToMark hr hg⟩
      · exact ⟨rfl, .markClass hc hm hg⟩
    · rintro ⟨rfl, hsays⟩
      cases hsays with
      | markToMark hr hg => exact .inl ⟨_, hr, rfl, _, _, rfl, hg⟩
      | markClass hc hm hg => exact .inr ⟨_, hc, rfl, _, hm, hg⟩
  | component =>
    simp only [pass, List.not_mem_nil, false_iff, not_and]
    intro _ hsays
    cases hsays

instance (s : RuleSet) (g : Glyph) (role : Role) : Decidable (s.Says g role) :=
  decidable_of_iff ((g, role) ∈ pass s role) (mem_pass.trans (and_iff_right rfl))

theorem lookup_pass (s : RuleSet) (role : Role) (g : Glyph) :
    (pass s role).reverse.lookup g = if s.Says g role then some role else none := by
  split
  · next h =>
    refine lookup_eq_some_of_unique (List.mem_reverse.2 (mem_pass.2 ⟨rfl, h⟩)) fun r hr => ?_
    exact (mem_pass.1 (List.mem_reverse.1 hr)).1
  · next h =>
    refine Option.eq_none_iff_forall_ne_some.2 fun r hr => h ?_
    exact (mem_pass.1 (List.mem_reverse.1 (mem_of_lookup hr))).2

/-! ## Roles -/

/-- The role that a glyph has by all that is said of it: the highest, if there is any. -/
def RuleSet.impliedRole (s : RuleSet) (g : Glyph) : Option Role :=
  if s.Says g .mark then some .mark
  else if s.Says g .ligature then some .ligature
  else if s.Says g .base then some .base
  else none

/-- The last pass that has a glyph counts. -/
theorem lookup_inferredRoles (s : RuleSet) (g : Glyph) :
    (inferredRoles s).reverse.lookup g = s.impliedRole g := by
  rw [inferredRoles_eq, List.reverse_append, List.reverse_append, List.lookup_append,
    List.lookup_append, lookup_pass, lookup_pass, lookup_pass, RuleSet.impliedRole]
  split
  · rfl
  · split <;> rfl

theorem find?_glyphRoles (h : s.glyphFacts.classes = none) (g : Glyph) :
    (glyphRoles s).find? g = s.impliedRole g := by
  rw [glyphRoles, h, ByGlyph.find?_ofLast]
  exact lookup_inferredRoles s g

theorem RuleSet.Reorders.impliedRole_eq {t : RuleSet} (h : t.Reorders s) (g : Glyph) :
    t.impliedRole g = s.impliedRole g := by
  simp only [impliedRole, h.says_iff]

/-- Where roles are not stated, each glyph has the highest role that follows for it from a rule or a
mark class, whatever the order of lookups, rules and mark classes. -/
theorem inferred_roles (s : RuleSet) (h : s.glyphFacts.classes = none) :
    (∀ g, (glyphRoles s).find? g = s.impliedRole g) ∧
      ∀ t : RuleSet, t.Reorders s → glyphRoles t = glyphRoles s := by
  refine ⟨find?_glyphRoles h, fun t ht => ByGlyph.ext_find? fun g => ?_⟩
  have ht' : t.glyphFacts.classes = none := by rw [ht.glyphFacts, h]
  rw [find?_glyphRoles ht', find?_glyphRoles h, ht.impliedRole_eq]

/-- The set with its lookups, the rules of each and the mark classes last first. -/
def RuleSet.reversed (s : RuleSet) : RuleSet :=
  { s with
    lookups := s.lookups.reverse.map fun l => { l with rules := l.rules.reverse }
    markClasses := s.markClasses.reverse }

theorem RuleSet.reversed_reorders (s : RuleSet) : s.reversed.Reorders s where
  lookups := ⟨s.lookups.reverse, List.reverse_perm _, List.forall₂_map_left_iff.2 <|
    List.forall₂_same.2 fun l _ => ⟨l.rules.reverse, List.reverse_perm _, rfl⟩⟩
  markClasses := List.reverse_perm _
  glyphFacts := rfl

/-- Glyph 2 is a base and a ligature, glyph 6 is those and a mark. -/
def contendedRoles : RuleSet where
  fontName := "F"
  lookups := [
    ⟨none, .ligatureSub, 0, none, none,
      [⟨.ligatureSub [1, 2] 2, none, false⟩, ⟨.ligatureSub [1, 3] 6, none, false⟩]⟩,
    ⟨none, .markToBase, 0, none, none,
      [⟨.markToBase (.ofList [1, 2, 6]) [("TOP", ⟨0, 600, none⟩)], none, false⟩]⟩,
    ⟨none, .markToMark, 0, none, none,
      [⟨.markToMark (.ofList [7]) [("TOP", ⟨0, 800, none⟩)], none, false⟩]⟩]
  features := []
  markClasses := [⟨"TOP", [(.ofList [5, 6], ⟨0, 500, none⟩)]⟩]
  glyphFacts := ⟨none, []⟩

theorem inferred_roles_contended : contendedRoles.glyphFacts.classes = none ∧
    [1, 2, 3, 5, 6, 7].map (glyphRoles contendedRoles).find? =
      [some .base, some .ligature, none, some .mark, some .mark, some .mark] ∧
    glyphRoles contendedRoles.reversed = glyphRoles contendedRoles := by
  obtain ⟨hroles, hreorder⟩ := inferred_roles contendedRoles rfl
  refine ⟨rfl, ?_, hreorder _ contendedRoles.reversed_reorders⟩
  simp only [List.map_cons, List.map_nil, hroles]
  decide

end FontLayout
