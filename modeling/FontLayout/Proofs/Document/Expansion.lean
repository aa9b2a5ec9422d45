import FontLayout.Proofs.Document.Meaning
/-!
# The rules behind the rules of a document

In a document that resolves, every rule has the rules behind it that it stands for, in order and
with its line, and a void rule has none. A break before a rule precedes the first rule behind it, so
a break before a void rule is lost.

Results:
* `Scope.Stem.nil_iff`: void rules are those without any rule behind them.
* `Document.stems_of_resolve`: the rules of a lookup are those behind its rules, one after another.
* `Document.breaks_of_resolve`: which break the first rule behind several rules has.
-/
namespace FontLayout

namespace Scope
variable {s : Scope}

/-! ## Stems -/

/-- What is behind a rule: the rules it stands for, and none if it is void. All have its line, and
the first has its break. -/
structure Stem (s : Scope) (r : Document.Rule) (xs : List Rule) : Prop where
  void : s.Void r.body → xs = []
  standsFor : ¬ s.Void r.body → s.StandsFor r.body (xs.map Rule.body)
  line_eq : ∀ x ∈ xs, x.line = r.line
  breaks : ∀ x rest, xs = x :: rest →
    x.breakBefore = r.subtableBreak ∧ ∀ y ∈ rest, y.breakBefore = false

theorem stem_of_clear {r : Document.Rule} (h : (s.rules r).causes = []) :
    s.Stem r (s.rules r).value := by
  have hbody : (s.expand r.body).causes = [] := h
  have hbodies := standsFor_of_clear hbody
  rw [← map_body_rules] at hbodies
  refine ⟨fun hvoid => List.map_eq_nil_iff.1 (hbodies.1 hvoid), hbodies.2,
    line_of_mem_rules s r, fun x rest hx => ?_⟩
  rw [rules, Named.value_map] at hx
  split at hx
  · cases hx
  · obtain ⟨rfl, rfl⟩ := List.cons.inj hx
    exact ⟨rfl, List.forall_mem_map.2 fun _ _ => rfl⟩

/-- A rule has nothing behind it exactly if it is void. -/
theorem Stem.nil_iff {r : Document.Rule} {xs : List Rule} (h : s.Stem r xs) :
    xs = [] ↔ s.Void r.body := by
  refine ⟨fun hnil => ?_, h.void⟩
  by_contra hvoid
  exact (h.standsFor hvoid).ne_nil hvoid (by rw [hnil, List.map_nil])

/-- The rules behind several rules, one after another. -/
def Stems (s : Scope) (rs : List Document.Rule) (xs : List Rule) : Prop :=
  ∃ stems, xs = stems.flatten ∧ List.Forall₂ s.Stem rs stems

theorem stems_of_clear {rs : List Document.Rule} (h : ∀ r ∈ rs, (s.rules r).causes = []) :
    s.Stems rs (rs.flatMap fun r => (s.rules r).value) :=
  ⟨_, rfl, List.forall₂_map_right_iff.2 (List.forall₂_same.2 fun r hr => stem_of_clear (h r hr))⟩

theorem Stems.append_split {rs rs' : List Document.Rule} {xs : List Rule}
    (h : s.Stems (rs ++ rs') xs) :
    ∃ earlier later, xs = earlier ++ later ∧ s.Stems rs earlier ∧ s.Stems rs' later := by
  obtain ⟨stems, rfl, hstems⟩ := h
  refine ⟨_, _, ?_, ⟨stems.take rs.length, rfl, ?_⟩, ⟨stems.drop rs.length, rfl, ?_⟩⟩
  · rw [← List.flatten_append, List.take_append_drop]
  · have htake := List.forall₂_take rs.length hstems
    rwa [List.take_left] at htake
  · have hdrop := List.forall₂_drop rs.length hstems
    rwa [List.drop_left] at hdrop

/-- The first rule behind several rules has the break of the first of them that is not void. -/
theorem Stems.break_eq {rs : List Document.Rule} {x : Rule} {rest : List Rule}
    (h : s.Stems rs (x :: rest)) :
    ∃ void k after, rs = void ++ k :: after ∧ (∀ r ∈ void, s.Void r.body) ∧ ¬ s.Void k.body ∧
      x.breakBefore = k.subtableBreak := by
  obtain ⟨stems, hx, hstems⟩ := h
  induction hstems with
  | nil => cases hx
  | @cons r xs rs stems hstem _ ih =>
    cases xs with
    | nil =>
      obtain ⟨void, k, after, rfl, hvoid, hk, hbreak⟩ := ih hx
      refine ⟨r :: void, k, after, rfl, List.forall_mem_cons.2 ⟨?_, hvoid⟩, hk, hbreak⟩
      exact hstem.nil_iff.1 rfl
    | cons y ys =>
      obtain ⟨rfl, -⟩ := List.cons.inj hx
      refine ⟨[], r, rs, rfl, List.forall_mem_nil _, fun hvoid => ?_,
        (hstem.breaks x ys rfl).1⟩
      cases hstem.void hvoid

end Scope

namespace Document

/-! ## Rules behind rules -/

/-- **No rule disappears, but for void ones.** The scope of a document that resolves knows the
document. The rules of each lookup are, one after another and in order, those behind its rules:
the ones that a rule stands for in this scope, with its line, and none behind a void rule. -/
theorem stems_of_resolve {d : Document} {rules : RuleSet} {glyphs : GlyphOrder}
    (h : d.resolve = .ok (rules, glyphs)) :
    d.scope.Knows d ∧
      List.Forall₂ (fun l l' => d.scope.Stems l.rules l'.rules) d.lookups rules.lookups := by
  obtain ⟨-, -, hrules⟩ := clear_of_resolve h
  refine ⟨knows_of_resolve h, ?_⟩
  rw [(Prod.mk.inj (resolve_eq_ok_iff.1 h).2).1, lookups_audit, List.forall₂_map_right_iff]
  exact List.forall₂_same.2 fun l hl => Scope.stems_of_clear (hrules l hl)

/-- A document with a single lookup of some rules, for three glyphs. -/
def singleLookup (kind : Kind) (rules : List Rule) : Document where
  fontName := "Demo"
  glyphOrder := ["a", "b", "c"]
  classes := ⟨[("both", .many ["a", "b"])], List.nodup_singleton "both"⟩
  markClasses := .empty
  lookups := [⟨none, kind, [], none, none, rules⟩]
  features := []
  glyphFacts := ⟨none, []⟩

/-- A set replaced by another, and a set replaced by one glyph. -/
def setsForSets : Document :=
  singleLookup .singleSub [⟨.singleSub (.one "@both") (.many ["b", "c"]), some 3, false⟩,
    ⟨.singleSub (.many ["c", "a"]) (.one "b"), some 4, true⟩]

/-- Glyphs are paired with those at the same place, or all with the only one. -/
theorem stems_setsForSets :
    ∃ rules glyphs, setsForSets.resolve = .ok (rules, glyphs) ∧
      rules.lookups.map FontLayout.Lookup.rules =
        [[⟨.singleSub 0 1, some 3, false⟩, ⟨.singleSub 1 2, some 3, false⟩,
          ⟨.singleSub 2 1, some 4, true⟩, ⟨.singleSub 0 1, some 4, false⟩]] ∧
      setsForSets.scope.Knows setsForSets ∧
      List.Forall₂ (fun l l' => setsForSets.scope.Stems l.rules l'.rules) setsForSets.lookups
        rules.lookups := by
  have h : setsForSets.resolve = .ok (setsForSets.audit.1, setsForSets.glyphs) := by rfl
  exact ⟨_, _, h, by rfl, stems_of_resolve h⟩

/-- Two glyphs replaced by nothing. -/
def emptyReplacement : Document :=
  singleLookup .singleSub [⟨.singleSub (.one "@both") (.many []), none, false⟩]

/-- The document resolves, and neither of the two targets has a rule. -/
theorem stems_emptyReplacement :
    ∃ rules glyphs, emptyReplacement.resolve = .ok (rules, glyphs) ∧
      emptyReplacement.scope.Lists (.one "@both") [0, 1] ∧
      rules.lookups.map FontLayout.Lookup.rules = [[]] := by
  have h : emptyReplacement.resolve =
      .ok (emptyReplacement.audit.1, emptyReplacement.glyphs) := by rfl
  exact ⟨_, _, h, .ofClass (by rfl) (by rfl), by rfl⟩

/-! ## Breaks -/

/-- What becomes of the breaks of a lookup. Take a rule with a break before it. The rules behind it
and the rules after it follow those behind the rules before it. The first of them, if there is one,
has the break of the first rule from there on that is not void. -/
def Lookup.BreaksKept (s : Scope) (l : Lookup) (l' : FontLayout.Lookup) : Prop :=
  ∀ before r after, l.rules = before ++ r :: after → r.subtableBreak = true →
    ∃ earlier later, l'.rules = earlier ++ later ∧ s.Stems before earlier ∧
      s.Stems (r :: after) later ∧ ∀ x rest, later = x :: rest →
        (∃ void k others, r :: after = void ++ k :: others ∧ (∀ v ∈ void, s.Void v.body) ∧
          ¬ s.Void k.body ∧ x.breakBefore = k.subtableBreak) ∧
        (¬ s.Void r.body → x.breakBefore = true)

/-- **A break survives unless its rule is void.** In a document that resolves, the first rule behind
a rule with a break, or else behind the rules after it, has a break exactly if the first of these
rules that is not void has one. So it has one if the rule with the break is not void itself. -/
theorem breaks_of_resolve {d : Document} {rules : RuleSet} {glyphs : GlyphOrder}
    (h : d.resolve = .ok (rules, glyphs)) :
    List.Forall₂ (Lookup.BreaksKept d.scope) d.lookups rules.lookups := by
  refine (stems_of_resolve h).2.imp fun l l' hstems before r after hl hbreak => ?_
  rw [hl] at hstems
  obtain ⟨earlier, later, hrules, hearlier, hlater⟩ := hstems.append_split
  refine ⟨earlier, later, hrules, hearlier, hlater, ?_⟩
  rintro x rest rfl
  obtain ⟨void, k, others, hafter, hvoid, hk, hx⟩ := hlater.break_eq
  refine ⟨⟨void, k, others, hafter, hvoid, hk, hx⟩, fun hr => ?_⟩
  cases void with
  | nil =>
    obtain ⟨rfl, -⟩ := List.cons.inj hafter
    rw [hx, hbreak]
  | cons v void =>
    obtain ⟨rfl, -⟩ := List.cons.inj hafter
    exact absurd (hvoid r List.mem_cons_self) hr

/-- Some advance. -/
def wider : ValueRecord := ⟨none, none, some 10, none⟩

/-- A value for one glyph, and after a break one for two. -/
def breakBeforeSet : Document :=
  singleLookup .singlePos [⟨.singlePos (.one "c") wider, none, false⟩,
    ⟨.singlePos (.one "@both") wider, none, true⟩]

/-- The break precedes the first of the two rules. -/
theorem breaks_breakBeforeSet :
    ∃ rules glyphs, breakBeforeSet.resolve = .ok (rules, glyphs) ∧
      rules.lookups.map FontLayout.Lookup.rules =
        [[⟨.singlePos 2 wider, none, false⟩, ⟨.singlePos 0 wider, none, true⟩,
          ⟨.singlePos 1 wider, none, false⟩]] ∧
      List.Forall₂ (Lookup.BreaksKept breakBeforeSet.scope) breakBeforeSet.lookups
        rules.lookups := by
  have h : breakBeforeSet.resolve = .ok (breakBeforeSet.audit.1, breakBeforeSet.glyphs) := by rfl
  exact ⟨_, _, h, by rfl, breaks_of_resolve h⟩

/-- A value for one glyph, after a break one for no glyph, and one for another glyph. -/
def breakBeforeVoid : Document :=
  singleLookup .singlePos [⟨.singlePos (.one "a") wider, none, false⟩,
    ⟨.singlePos (.many []) wider, none, true⟩, ⟨.singlePos (.one "b") wider, none, false⟩]

/-- The break is lost between the two rules that are left. -/
theorem breaks_breakBeforeVoid :
    ∃ rules glyphs, breakBeforeVoid.resolve = .ok (rules, glyphs) ∧
      breakBeforeVoid.lookups.map (fun l => l.rules.map Rule.subtableBreak) =
        [[false, true, false]] ∧
      rules.lookups.map FontLayout.Lookup.rules =
        [[⟨.singlePos 0 wider, none, false⟩, ⟨.singlePos 1 wider, none, false⟩]] := by
  have h : breakBeforeVoid.resolve =
      .ok (breakBeforeVoid.audit.1, breakBeforeVoid.glyphs) := by rfl
  exact ⟨_, _, h, by rfl, by rfl⟩

end Document
end FontLayout
