import FontLayout.Document.Rules
import FontLayout.Document.Writer
import FontLayout.Lookup.Validation
import FontLayout.Proofs.Glyph.Order
/-!
# What names bring into rules

A scope is closed if the glyphs and lookups that its names mean are there. What is made from the
names of a rule in a closed scope has no other glyphs and refers to no other lookups, whatever the
rule and however many of its names are unknown.

Results:
* `Scope.Closed.lt_of_mem_expand`: the glyphs of the rules behind a rule.
* `Scope.Closed.lt_of_mem_references`: the lookups they refer to.
* `Scope.body_mem_expand`: where a rule comes from.
-/
namespace FontLayout

/-! ## Values made from names -/

namespace Named
variable {α β : Type}

@[simp] theorem value_pure (a : α) : (Pure.pure a : Named α).value = a := rfl

@[simp] theorem value_bind (x : Named α) (f : α → Named β) : (x >>= f).value = (f x.value).value :=
  rfl

@[simp] theorem value_map (f : α → β) (x : Named α) : (x.map f).value = f x.value := rfl

theorem mem_traverseSome {f : α → Named (Option β)} {xs : List α} {b : β} :
    b ∈ (traverseSome f xs).value ↔ ∃ x ∈ xs, (f x).value = some b := by
  simp [traverseSome]

theorem exists_of_mem_traverseAll {f : α → Named (Option β)} {xs : List α} {bs : List β}
    (h : (traverseAll f xs).value = some bs) {b : β} (hb : b ∈ bs) :
    ∃ x ∈ xs, (f x).value = some b := by
  rw [traverseAll, value_map, value_traverse] at h
  split at h
  · cases h
    simpa using hb
  · cases h

end Named

/-! ## The glyphs and lookups of a rule -/

/-- The glyphs of some sets. -/
def glyphsOfSets (sets : List GlyphSet) : List Glyph := sets.flatMap GlyphSet.members

/-- The glyphs of a run in its surroundings. -/
def ChainContext.glyphs (c : ChainContext) : List Glyph :=
  glyphsOfSets c.backtrack ++ glyphsOfSets (c.input.map ContextInput.glyphs)
    ++ glyphsOfSets c.lookahead

/-- The glyphs that a rule says something about. -/
def RuleBody.glyphs : RuleBody → List Glyph
  | .singleSub target replacement => [target, replacement]
  | .multipleSub target replacement => target :: replacement
  | .alternateSub target alternates => target :: alternates
  | .ligatureSub components replacement => replacement :: components
  | .chainSub c | .chainPos c => c.glyphs
  | .reverseChainSub backtrack substitutions lookahead =>
    glyphsOfSets backtrack ++ substitutions.flatMap (fun s => [s.1, s.2])
      ++ glyphsOfSets lookahead
  | .singlePos glyph _ => [glyph]
  | .pairPos first _ second _ => first.toSet.members ++ second.toSet.members
  | .cursivePos glyph _ _ => [glyph]
  | .markToBase base _ => base.members
  | .markToLigature ligature _ => ligature.members
  | .markToMark baseMark _ => baseMark.members

theorem RuleBody.references_eq_nil {b : RuleBody} (hsub : b.kind ≠ .chainSub)
    (hpos : b.kind ≠ .chainPos) : b.references = [] := by
  cases b with
  | chainSub c => exact (hsub rfl).elim
  | chainPos c => exact (hpos rfl).elim
  | _ => rfl

/-! ## Closed scopes -/

namespace Scope
open Document (GlyphNames LookupRef)

/-- Whether all that the names of a scope mean is there. -/
structure Closed (s : Scope) : Prop where
  glyph_lt {name : String} {g : Glyph} (hg : s.glyphs.find? name = some g) :
    g.toNat < s.glyphs.size
  class_lt {name : String} {gs : List Glyph} (hgs : s.classes[name]? = some gs) :
    ∀ g ∈ gs, g.toNat < s.glyphs.size
  lookup_lt {name : String} {i : Nat} (hi : s.lookups[name]? = some i) : i < s.lookupCount

theorem value_glyph? (s : Scope) (name : String) :
    (s.glyph? name).value = s.glyphs.find? name := by
  unfold glyph?
  split
  · next g hg => exact hg.symm
  · next hnone => exact hnone.symm

theorem value_glyphClass (s : Scope) (name : String) :
    (s.glyphClass name).value = s.classes[name]?.getD [] := by
  unfold glyphClass
  split
  · next gs hgs => rw [hgs]; rfl
  · next hnone => rw [hnone]; rfl

theorem value_context (s : Scope) (c : Document.Context) :
    (s.context c).value =
      { backtrack := (s.glyphSets c.backtrack).value
        input := c.input.map fun x => (s.contextInput x).value
        lookahead := (s.glyphSets c.lookahead).value } := by
  simp [context]

namespace Closed
variable {s : Scope} (h : s.Closed)
include h

theorem glyph? {name : String} {g : Glyph} (hg : (s.glyph? name).value = some g) :
    g.toNat < s.glyphs.size := h.glyph_lt (value_glyph? s name ▸ hg)

theorem glyphClass {name : String} : ∀ g ∈ (s.glyphClass name).value, g.toNat < s.glyphs.size := by
  rw [value_glyphClass]
  cases hclass : s.classes[name]? with
  | none => exact nofun
  | some gs => exact h.class_lt hclass

theorem glyphSeq {names : List String} {gs : List Glyph}
    (hgs : (Named.traverseAll s.glyph? names).value = some gs) :
    ∀ g ∈ gs, g.toNat < s.glyphs.size := by
  intro g hg
  obtain ⟨name, -, hg⟩ := Named.exists_of_mem_traverseAll hgs hg
  exact h.glyph? hg

theorem glyphList (names : GlyphNames) :
    ∀ g ∈ (s.glyphList names).value, g.toNat < s.glyphs.size := by
  intro g hg
  cases names with
  | one name =>
    rw [Scope.glyphList] at hg
    split at hg
    · exact h.glyphClass g hg
    · exact h.glyph? (Option.mem_toList.1 hg)
  | many names =>
    obtain ⟨name, -, hg⟩ := Named.mem_traverseSome.1 hg
    exact h.glyph? hg

theorem glyphSet (names : GlyphNames) :
    ∀ g ∈ (s.glyphSet names).value.members, g.toNat < s.glyphs.size :=
  fun g hg => h.glyphList names g (GlyphSet.mem_ofList.1 hg)

theorem glyphSets (sets : List GlyphNames) :
    ∀ g ∈ glyphsOfSets (s.glyphSets sets).value, g.toNat < s.glyphs.size := by
  intro g hg
  rw [Scope.glyphSets, Named.value_traverse, glyphsOfSets, List.mem_flatMap] at hg
  obtain ⟨gs, hgs, hg⟩ := hg
  obtain ⟨names, -, rfl⟩ := List.mem_map.1 hgs
  exact h.glyphSet names g hg

theorem token (names : GlyphNames) :
    ∀ g ∈ (s.token names).value.toSet.members, g.toNat < s.glyphs.size := by
  intro g hg
  cases names with
  | one name =>
    rw [Scope.token] at hg
    split at hg
    · exact h.glyphClass g (GlyphSet.mem_ofList.1 hg)
    · rw [Named.value_map] at hg
      cases hname : (s.glyph? name).value with
      | none => rw [hname] at hg; cases hg
      | some g' =>
        rw [hname] at hg
        rw [List.mem_singleton.1 hg]
        exact h.glyph? hname
  | many names => exact h.glyphSet (.many names) g hg

theorem lookup? {ref : LookupRef} {i : Nat} (hi : (s.lookup? ref).value = some i) :
    i < s.lookupCount := by
  unfold Scope.lookup? at hi
  dsimp only at hi
  split at hi
  · next j hj =>
    cases hi
    cases ref with
    | index k =>
      dsimp only at hj
      split at hj
      · next hlt => cases hj; exact hlt
      · cases hj
    | name name => exact h.lookup_lt hj
  · cases hi

theorem contextInput (c : Document.ContextInput) :
    (∀ g ∈ (s.contextInput c).value.glyphs.members, g.toNat < s.glyphs.size) ∧
      ∀ i ∈ (s.contextInput c).value.lookups, i < s.lookupCount := by
  refine ⟨h.glyphSet c.glyphs, fun i hi => ?_⟩
  obtain ⟨ref, -, hi⟩ := Named.mem_traverseSome.1 hi
  exact h.lookup? hi

theorem context (c : Document.Context) :
    (∀ g ∈ (s.context c).value.glyphs, g.toNat < s.glyphs.size) ∧
      ∀ i ∈ (s.context c).value.input.flatMap ContextInput.lookups, i < s.lookupCount := by
  rw [value_context]
  refine ⟨List.forall_mem_append.2 ⟨List.forall_mem_append.2 ⟨h.glyphSets c.backtrack, ?_⟩,
    h.glyphSets c.lookahead⟩, ?_⟩
  · simp only [glyphsOfSets, List.map_map, List.forall_mem_flatMap, List.forall_mem_map]
    exact fun x _ => (h.contextInput x).1
  · simp only [List.forall_mem_flatMap, List.forall_mem_map]
    exact fun x _ => (h.contextInput x).2

end Closed

/-! ## The rules behind a rule -/

/-- Pairs are made of the targets and the replacements that are paired. -/
theorem mem_of_pairUp {targets replacements : List Glyph} {pairs : List (Glyph × Glyph)}
    (h : (pairUp targets replacements).value = some pairs) {p : Glyph × Glyph} (hp : p ∈ pairs) :
    p.1 ∈ targets ∧ p.2 ∈ replacements := by
  unfold pairUp at h
  split at h
  · cases h
  · cases h
  · cases h
    obtain ⟨t, ht, rfl⟩ := List.mem_map.1 hp
    exact ⟨ht, List.mem_singleton_self _⟩
  · split at h
    · cases h
      exact List.of_mem_zip hp
    · cases h

/-- The rules behind a rule are of its kind. -/
theorem kind_of_mem_expand (s : Scope) (body : Document.RuleBody) :
    ∀ b ∈ (s.expand body).value, b.kind = body.kind := by
  intro b hb
  cases body
  all_goals
    simp only [expand, Named.value_bind, Named.value_pure, Named.value_map, List.mem_singleton,
      List.mem_map] at hb
  case multipleSub | ligatureSub | reverseChainSub =>
    split at hb <;>
      simp only [Named.value_bind, Named.value_pure, List.mem_singleton, List.not_mem_nil] at hb
    rw [hb]
    rfl
  case singleSub | alternateSub | singlePos | cursivePos =>
    obtain ⟨_, -, rfl⟩ := hb
    rfl
  all_goals
    rw [hb]
    rfl

namespace Closed
variable {s : Scope} (h : s.Closed)
include h

theorem substitutions {target replacement : GlyphNames} {pairs : List (Glyph × Glyph)}
    (hpairs : (s.substitutions target replacement).value = some pairs) {p : Glyph × Glyph}
    (hp : p ∈ pairs) : p.1.toNat < s.glyphs.size ∧ p.2.toNat < s.glyphs.size := by
  obtain ⟨htarget, hreplacement⟩ := mem_of_pairUp hpairs hp
  exact ⟨h.glyphList target _ htarget, h.glyphList replacement _ hreplacement⟩

/-- The glyphs of the rules behind a rule are there. -/
theorem lt_of_mem_expand (body : Document.RuleBody) :
    ∀ b ∈ (s.expand body).value, ∀ g ∈ b.glyphs, g.toNat < s.glyphs.size := by
  intro b hb
  cases body
  all_goals
    simp only [expand, Named.value_bind, Named.value_pure, Named.value_map, List.mem_singleton,
      List.mem_map, Option.mem_toList] at hb
  case singleSub target replacement =>
    obtain ⟨p, hp, rfl⟩ := hb
    cases hpairs : (s.substitutions target replacement).value with
    | none => rw [hpairs] at hp; cases hp
    | some pairs =>
      rw [hpairs] at hp
      obtain ⟨htarget, hreplacement⟩ := h.substitutions hpairs hp
      exact List.forall_mem_cons.2 ⟨htarget, List.forall_mem_singleton.2 hreplacement⟩
  case multipleSub target replacement =>
    split at hb
    · next t r ht hr =>
      obtain rfl := List.mem_singleton.1 hb
      exact List.forall_mem_cons.2 ⟨h.glyph? ht, h.glyphSeq hr⟩
    · cases hb
  case alternateSub target alternates =>
    obtain ⟨t, ht, rfl⟩ := hb
    exact List.forall_mem_cons.2 ⟨h.glyph? ht, h.glyphList alternates⟩
  case ligatureSub components replacement =>
    split at hb
    · next c r hc hr =>
      obtain rfl := List.mem_singleton.1 hb
      exact List.forall_mem_cons.2 ⟨h.glyph? hr, h.glyphSeq hc⟩
    · cases hb
  case reverseChainSub backtrack target replacement lookahead =>
    split at hb
    · cases hb
    · next pairs hpairs =>
      obtain rfl := List.mem_singleton.1 hb
      refine List.forall_mem_append.2 ⟨List.forall_mem_append.2 ⟨h.glyphSets backtrack, ?_⟩,
        h.glyphSets lookahead⟩
      refine List.forall_mem_flatMap.2 fun p hp => ?_
      obtain ⟨htarget, hreplacement⟩ := h.substitutions hpairs hp
      exact List.forall_mem_cons.2 ⟨htarget, List.forall_mem_singleton.2 hreplacement⟩
  case singlePos glyphs value =>
    obtain ⟨g, hg, rfl⟩ := hb
    exact List.forall_mem_singleton.2 (h.glyphSet glyphs g hg)
  case pairPos first second value1 value2 =>
    subst hb
    exact List.forall_mem_append.2 ⟨h.token first, h.token second⟩
  case cursivePos glyph entry exit =>
    obtain ⟨g, hg, rfl⟩ := hb
    exact List.forall_mem_singleton.2 (h.glyph? hg)
  case chainSub context => exact hb ▸ (h.context context).1
  case chainPos context => exact hb ▸ (h.context context).1
  case markToBase base marks => exact hb ▸ h.glyphSet base
  case markToLigature ligature components => exact hb ▸ h.glyphSet ligature
  case markToMark baseMark marks => exact hb ▸ h.glyphSet baseMark

/-- The lookups that the rules behind a rule refer to are there. -/
theorem lt_of_mem_references (body : Document.RuleBody) :
    ∀ b ∈ (s.expand body).value, ∀ i ∈ b.references, i < s.lookupCount := by
  intro b hb
  have hkind := kind_of_mem_expand s body b hb
  cases body with
  | chainSub context => exact List.mem_singleton.1 hb ▸ (h.context context).2
  | chainPos context => exact List.mem_singleton.1 hb ▸ (h.context context).2
  | _ =>
    rw [RuleBody.references_eq_nil (by rw [hkind]; exact nofun) (by rw [hkind]; exact nofun)]
    exact nofun

end Closed

/-! ## Whole rules -/

theorem map_body_rules (s : Scope) (r : Document.Rule) :
    (s.rules r).value.map Rule.body = (s.expand r.body).value := by
  rw [rules, Named.value_map]
  split
  · next hnil => rw [hnil]; rfl
  · next first rest hcons =>
    rw [hcons, List.map_cons, List.map_map]
    simp [Function.comp_def]

theorem line_of_mem_rules (s : Scope) (r : Document.Rule) :
    ∀ x ∈ (s.rules r).value, x.line = r.line := by
  rw [rules, Named.value_map]
  split
  · exact List.forall_mem_nil _
  · exact List.forall_mem_cons.2 ⟨rfl, List.forall_mem_map.2 fun _ _ => rfl⟩

/-- Where a rule comes from. -/
theorem body_mem_expand {s : Scope} {r : Document.Rule} {x : Rule} (hx : x ∈ (s.rules r).value) :
    x.body ∈ (s.expand r.body).value := map_body_rules s r ▸ List.mem_map_of_mem hx

end Scope
end FontLayout
