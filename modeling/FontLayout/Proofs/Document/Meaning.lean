import FontLayout.Proofs.Document.Errors
import FontLayout.Proofs.Glyph.Keyed
import Mathlib.Data.List.Forall2
/-!
# What the names of a document mean

Here it is said, without the resolver, what names mean in a scope, and which rules a rule by name
stands for. The resolver agrees where it finds nothing wrong, unless a rule is void. A substitution
with an empty side is void, as well as a value for no glyph; there are no rules behind a void rule.
Nothing is found in a substitution with one empty side, although the other may have glyphs.

Results:
* `Scope.lists_of_clear`, `Scope.frames_of_clear`: names without anything wrong.
* `Scope.standsFor_of_clear`: the rules behind a rule without anything wrong.
* `Document.knows_of_resolve`: a document that resolves has the scope that it says it has.
-/
namespace FontLayout

namespace Scope
open Document (GlyphNames LookupRef)

/-! ## What names mean -/

/-- The glyphs of some names. -/
def Names (s : Scope) (names : List String) (gs : List Glyph) : Prop :=
  List.Forall₂ (fun name g => s.glyphs.find? name = some g) names gs

/-- The glyphs that a set lists, as they are written. -/
inductive Lists (s : Scope) : GlyphNames → List Glyph → Prop where
  | ofClass {name cls : String} {gs : List Glyph} : classNameOf? name = some cls →
      s.classes[cls]? = some gs → s.Lists (.one name) gs
  | glyph {name : String} {g : Glyph} : classNameOf? name = none →
      s.glyphs.find? name = some g → s.Lists (.one name) [g]
  | glyphs {names : List String} {gs : List Glyph} : s.Names names gs → s.Lists (.many names) gs

/-- The set of the glyphs that a set lists. -/
def Covers (s : Scope) (names : GlyphNames) (set : GlyphSet) : Prop :=
  ∃ gs, s.Lists names gs ∧ ∀ g, g ∈ set ↔ g ∈ gs

/-- The side of a pair: a glyph if it is written as the name of one, and otherwise a set. -/
inductive Side (s : Scope) : GlyphNames → Token → Prop where
  | glyph {name : String} {g : Glyph} : classNameOf? name = none →
      s.glyphs.find? name = some g → s.Side (.one name) (.glyph g)
  | ofClass {name cls : String} {set : GlyphSet} : classNameOf? name = some cls →
      s.Covers (.one name) set → s.Side (.one name) (.set set)
  | glyphs {names : List String} {set : GlyphSet} : s.Covers (.many names) set →
      s.Side (.many names) (.set set)

/-- The place that a reference to a lookup stands for. -/
inductive Refers (s : Scope) : LookupRef → Nat → Prop where
  | index {i : UInt64} : i.toNat < s.lookupCount → s.Refers (.index i) i.toNat
  | name {name : String} {i : Nat} : s.lookups[name]? = some i → s.Refers (.name name) i

/-- The context that a context by name stands for. -/
structure Frames (s : Scope) (c : Document.Context) (c' : ChainContext) : Prop where
  backtrack : List.Forall₂ s.Covers c.backtrack c'.backtrack
  input : List.Forall₂ (fun i i' => s.Covers i.glyphs i'.glyphs ∧
    List.Forall₂ s.Refers i.lookups i'.lookups) c.input c'.input
  lookahead : List.Forall₂ s.Covers c.lookahead c'.lookahead

/-- Targets with their replacements: each with the one at its place, or all with the only one. -/
structure Paired (targets replacements : List Glyph) (pairs : List (Glyph × Glyph)) : Prop where
  targets_eq : pairs.map Prod.fst = targets
  replacements_eq : pairs.map Prod.snd = replacements ∨
    ∃ r, replacements = [r] ∧ pairs.map Prod.snd = List.replicate targets.length r

/-- The rules that a rule by name stands for. -/
inductive StandsFor (s : Scope) : Document.RuleBody → List RuleBody → Prop where
  | singleSub {target replacement : GlyphNames} {ts rs : List Glyph}
      {pairs : List (Glyph × Glyph)} : s.Lists target ts → s.Lists replacement rs →
      Paired ts rs pairs →
      s.StandsFor (.singleSub target replacement) (pairs.map fun p => .singleSub p.1 p.2)
  | multipleSub {target : String} {replacement : List String} {t : Glyph} {rs : List Glyph} :
      s.glyphs.find? target = some t → s.Names replacement rs →
      s.StandsFor (.multipleSub target replacement) [.multipleSub t rs]
  | alternateSub {target : String} {alternates : GlyphNames} {t : Glyph} {gs : List Glyph} :
      s.glyphs.find? target = some t → s.Lists alternates gs →
      s.StandsFor (.alternateSub target alternates) [.alternateSub t gs]
  | ligatureSub {components : List String} {replacement : String} {cs : List Glyph} {r : Glyph} :
      s.Names components cs → s.glyphs.find? replacement = some r →
      s.StandsFor (.ligatureSub components replacement) [.ligatureSub cs r]
  | chainSub {context : Document.Context} {c : ChainContext} : s.Frames context c →
      s.StandsFor (.chainSub context) [.chainSub c]
  | reverseChainSub {backtrack lookahead : List GlyphNames} {target replacement : GlyphNames}
      {before after : List GlyphSet} {ts rs : List Glyph} {pairs : List (Glyph × Glyph)} :
      List.Forall₂ s.Covers backtrack before → s.Lists target ts → s.Lists replacement rs →
      Paired ts rs pairs → List.Forall₂ s.Covers lookahead after →
      s.StandsFor (.reverseChainSub backtrack target replacement lookahead)
        [.reverseChainSub before pairs after]
  | singlePos {glyphs : GlyphNames} {value : ValueRecord} {gs members : List Glyph} :
      s.Lists glyphs gs → members.Pairwise (· < ·) → (∀ g, g ∈ members ↔ g ∈ gs) →
      s.StandsFor (.singlePos glyphs value) (members.map fun g => .singlePos g value)
  | pairPos {first second : GlyphNames} {value1 value2 : ValueRecord} {x y : Token} :
      s.Side first x → s.Side second y →
      s.StandsFor (.pairPos first second value1 value2) [.pairPos x value1 y value2]
  | cursivePos {glyph : String} {entry exit : Option Anchor} {g : Glyph} :
      s.glyphs.find? glyph = some g →
      s.StandsFor (.cursivePos glyph entry exit) [.cursivePos g entry exit]
  | markToBase {base : GlyphNames} {marks : List Document.MarkAnchor} {set : GlyphSet} :
      s.Covers base set →
      s.StandsFor (.markToBase base marks)
        [.markToBase set (marks.map fun m => (m.markClass, m.anchor))]
  | markToLigature {ligature : GlyphNames} {components : List (List Document.MarkAnchor)}
      {set : GlyphSet} : s.Covers ligature set →
      s.StandsFor (.markToLigature ligature components) [.markToLigature set
        (components.map fun marks => marks.map fun m => (m.markClass, m.anchor))]
  | markToMark {baseMark : GlyphNames} {marks : List Document.MarkAnchor} {set : GlyphSet} :
      s.Covers baseMark set →
      s.StandsFor (.markToMark baseMark marks)
        [.markToMark set (marks.map fun m => (m.markClass, m.anchor))]
  | chainPos {context : Document.Context} {c : ChainContext} : s.Frames context c →
      s.StandsFor (.chainPos context) [.chainPos c]

/-- Whether a rule says nothing: a substitution with an empty side, or a value for no glyph. -/
def Void (s : Scope) : Document.RuleBody → Prop
  | .singleSub target replacement | .reverseChainSub _ target replacement _ =>
    s.Lists target [] ∨ s.Lists replacement []
  | .singlePos glyphs _ => s.Lists glyphs []
  | _ => False

variable {s : Scope}

theorem Names.unique {names : List String} {gs gs' : List Glyph} (h : s.Names names gs)
    (h' : s.Names names gs') : gs = gs' := by
  induction h generalizing gs' with
  | nil =>
    cases h'
    rfl
  | cons hg _ ih =>
    obtain _ | ⟨hg', hrest⟩ := h'
    rw [hg] at hg'
    cases hg'
    rw [ih hrest]

theorem Lists.unique {names : GlyphNames} {gs gs' : List Glyph} (h : s.Lists names gs)
    (h' : s.Lists names gs') : gs = gs' := by
  cases h with
  | ofClass hname hgs =>
    cases h' with
    | ofClass hname' hgs' =>
      cases hname.symm.trans hname'
      exact Option.some.inj (hgs.symm.trans hgs')
    | glyph hname' => cases hname.symm.trans hname'
  | glyph hname hg =>
    cases h' with
    | ofClass hname' => cases hname.symm.trans hname'
    | glyph hname' hg' => rw [Option.some.inj (hg.symm.trans hg')]
  | glyphs hgs =>
    cases h' with
    | glyphs hgs' => exact hgs.unique hgs'

end Scope

/-! ## Names without anything wrong -/

namespace Named
variable {α β : Type} {R : α → β → Prop} {xs : List α}

theorem forall₂_of_clear {f : α → Named β} (hf : ∀ a, (f a).causes = [] → R a (f a).value)
    (h : (traverse f xs).causes = []) : List.Forall₂ R xs (traverse f xs).value := by
  rw [causes_traverse, List.flatMap_eq_nil_iff] at h
  rw [value_traverse, List.forall₂_map_right_iff]
  exact List.forall₂_same.2 fun a ha => hf a (h a ha)

theorem forall₂_some_of_clear {f : α → Named (Option β)}
    (hf : ∀ a, (f a).causes = [] → ∃ b, (f a).value = some b ∧ R a b)
    (h : (traverseSome f xs).causes = []) : List.Forall₂ R xs (traverseSome f xs).value := by
  rw [causes_traverseSome, List.flatMap_eq_nil_iff] at h
  rw [traverseSome, value_map, value_traverse]
  induction xs with
  | nil => exact .nil
  | cons a xs ih =>
    rw [List.forall_mem_cons] at h
    obtain ⟨b, hvalue, hb⟩ := hf a h.1
    rw [List.map_cons, hvalue]
    exact .cons hb (ih h.2)

theorem exists_forall₂_of_clear {f : α → Named (Option β)}
    (hf : ∀ a, (f a).causes = [] → ∃ b, (f a).value = some b ∧ R a b)
    (h : (traverseAll f xs).causes = []) :
    ∃ bs, (traverseAll f xs).value = some bs ∧ List.Forall₂ R xs bs := by
  refine ⟨(traverseSome f xs).value, ?_, forall₂_some_of_clear hf h⟩
  rw [causes_traverseAll, List.flatMap_eq_nil_iff] at h
  have hall : (xs.map fun a => (f a).value).all Option.isSome = true := by
    rw [List.all_map, List.all_eq_true]
    intro a ha
    obtain ⟨b, hvalue, -⟩ := hf a (h a ha)
    simp [hvalue]
  rw [traverseAll, traverseSome, value_map, value_map, value_traverse, if_pos hall]

end Named

namespace Scope
open Document (GlyphNames LookupRef)
variable {s : Scope}

theorem find?_of_clear (name : String) (h : (s.glyph? name).causes = []) :
    ∃ g, (s.glyph? name).value = some g ∧ s.glyphs.find? name = some g := by
  unfold glyph? at h ⊢
  cases hfind : s.glyphs.find? name with
  | none => simp [hfind, Named.blame] at h
  | some g => exact ⟨g, rfl, rfl⟩

theorem class_of_clear {name : String} (h : (s.glyphClass name).causes = []) :
    s.classes[name]? = some (s.glyphClass name).value := by
  unfold glyphClass at h ⊢
  cases hclass : s.classes[name]? with
  | none => simp [hclass, Named.blame] at h
  | some gs => rfl

theorem lists_of_clear {names : GlyphNames} (h : (s.glyphList names).causes = []) :
    s.Lists names (s.glyphList names).value := by
  cases names with
  | one name =>
    rw [glyphList] at h ⊢
    split at h
    · next cls hname => exact .ofClass hname (class_of_clear h)
    · next hname =>
      obtain ⟨g, hvalue, hg⟩ := find?_of_clear name h
      rw [Named.value_map, hvalue]
      exact .glyph hname hg
  | many names => exact .glyphs (Named.forall₂_some_of_clear find?_of_clear h)

theorem covers_of_clear (names : GlyphNames) (h : (s.glyphSet names).causes = []) :
    s.Covers names (s.glyphSet names).value :=
  ⟨_, lists_of_clear h, fun _ => GlyphSet.mem_ofList⟩

theorem side_of_clear {names : GlyphNames} (h : (s.token names).causes = []) :
    s.Side names (s.token names).value := by
  cases names with
  | one name =>
    rw [token] at h ⊢
    split at h
    · next cls hname =>
      exact .ofClass hname ⟨_, .ofClass hname (class_of_clear h), fun _ => GlyphSet.mem_ofList⟩
    · next hname =>
      obtain ⟨g, hvalue, hg⟩ := find?_of_clear name h
      rw [Named.value_map, hvalue]
      exact .glyph hname hg
  | many names => exact .glyphs (covers_of_clear (.many names) h)

theorem refers_of_clear (ref : LookupRef) (h : (s.lookup? ref).causes = []) :
    ∃ i, (s.lookup? ref).value = some i ∧ s.Refers ref i := by
  unfold lookup? at h ⊢
  cases ref with
  | index i =>
    by_cases hi : i.toNat < s.lookupCount
    · exact ⟨i.toNat, by simp [hi, Named.pure], .index hi⟩
    · simp [hi, Named.blame] at h
  | name name =>
    cases hname : s.lookups[name]? with
    | none => simp [hname, Named.blame] at h
    | some i => exact ⟨i, by simp [hname, Named.pure], .name hname⟩

theorem frames_of_clear {c : Document.Context} (h : (s.context c).causes = []) :
    s.Frames c (s.context c).value := by
  simp only [context, Named.causes_bind, List.append_eq_nil_iff] at h
  obtain ⟨hbacktrack, hinput, hlookahead, -⟩ := h
  refine ⟨Named.forall₂_of_clear covers_of_clear hbacktrack,
    Named.forall₂_of_clear (fun i hi => ?_) hinput,
    Named.forall₂_of_clear covers_of_clear hlookahead⟩
  simp only [contextInput, Named.causes_bind, List.append_eq_nil_iff] at hi
  obtain ⟨hglyphs, hlookups, -⟩ := hi
  exact ⟨covers_of_clear i.glyphs hglyphs, Named.forall₂_some_of_clear refers_of_clear hlookups⟩

/-! ## Rules without anything wrong -/

/-- Two sides are paired unless one of them is empty. -/
theorem pairUp_of_clear {targets replacements : List Glyph}
    (h : (pairUp targets replacements).causes = []) :
    ((targets = [] ∨ replacements = []) ∧ (pairUp targets replacements).value = none) ∨
      targets ≠ [] ∧ replacements ≠ [] ∧ ∃ pairs,
        (pairUp targets replacements).value = some pairs ∧ Paired targets replacements pairs := by
  cases targets with
  | nil => exact .inl ⟨.inl rfl, rfl⟩
  | cons t ts =>
    cases replacements with
    | nil => exact .inl ⟨.inr rfl, rfl⟩
    | cons r rs =>
      refine .inr ⟨List.cons_ne_nil _ _, List.cons_ne_nil _ _, ?_⟩
      cases rs with
      | nil =>
        refine ⟨_, rfl, ?_, .inr ⟨r, rfl, ?_⟩⟩
        · simp [Function.comp_def]
        · simp [Function.comp_def, List.map_const', List.replicate_succ]
      | cons r' rs =>
        have heq : pairUp (t :: ts) (r :: r' :: rs) =
            if (t :: ts).length = (r :: r' :: rs).length then
              .pure (some ((t :: ts).zip (r :: r' :: rs)))
            else .blame (.unevenSubstitution (t :: ts).length (r :: r' :: rs).length) none := rfl
        rw [heq] at h ⊢
        by_cases hlength : (t :: ts).length = (r :: r' :: rs).length
        · rw [if_pos hlength]
          exact ⟨_, rfl, List.map_fst_zip (Nat.le_of_eq hlength),
            .inl (List.map_snd_zip (Nat.le_of_eq hlength.symm))⟩
        · rw [if_neg hlength] at h
          cases h

/-- Substitutions of which nothing is wrong are made of the pairs of their sides, or void. -/
theorem substitutions_of_clear {target replacement : GlyphNames}
    (h : (s.substitutions target replacement).causes = []) :
    ((s.Lists target [] ∨ s.Lists replacement []) ∧
        (s.substitutions target replacement).value = none) ∨
      ¬ (s.Lists target [] ∨ s.Lists replacement []) ∧ ∃ ts rs pairs,
        (s.substitutions target replacement).value = some pairs ∧ s.Lists target ts ∧
          s.Lists replacement rs ∧ Paired ts rs pairs := by
  simp only [substitutions, Named.causes_bind, List.append_eq_nil_iff] at h
  obtain ⟨htarget, hreplacement, hpair⟩ := h
  have ht := lists_of_clear htarget
  have hr := lists_of_clear hreplacement
  obtain ⟨hempty, hvalue⟩ | ⟨hts, hrs, pairs, hvalue, hpairs⟩ := pairUp_of_clear hpair
  · refine .inl ⟨?_, hvalue⟩
    rcases hempty with hempty | hempty
    · exact .inl (hempty ▸ ht)
    · exact .inr (hempty ▸ hr)
  · refine .inr ⟨?_, _, _, pairs, hvalue, ht, hr, hpairs⟩
    rintro (hempty | hempty)
    · exact hts (ht.unique hempty)
    · exact hrs (hr.unique hempty)

/-- The rules behind a rule of which nothing is wrong: those it stands for, and none if it is
void. -/
theorem standsFor_of_clear {body : Document.RuleBody} (h : (s.expand body).causes = []) :
    (s.Void body → (s.expand body).value = []) ∧
      (¬ s.Void body → s.StandsFor body (s.expand body).value) := by
  cases body with
  | singleSub target replacement =>
    simp only [expand, Named.causes_bind, Named.causes_pure, List.append_nil] at h
    obtain ⟨hvoid, hvalue⟩ | ⟨hvoid, ts, rs, pairs, hvalue, ht, hr, hpairs⟩ :=
      substitutions_of_clear h
    · refine ⟨fun _ => ?_, fun hnot => absurd hvoid hnot⟩
      rw [expand, Named.value_bind, hvalue]
      rfl
    · refine ⟨fun hv => absurd hv hvoid, fun _ => ?_⟩
      rw [expand, Named.value_bind, hvalue]
      exact .singleSub ht hr hpairs
  | multipleSub target replacement =>
    refine ⟨False.elim, fun _ => ?_⟩
    simp only [expand, Named.causes_bind, List.append_eq_nil_iff] at h
    obtain ⟨t, ht, htarget⟩ := find?_of_clear target h.1
    obtain ⟨rs, hr, hreplacement⟩ := Named.exists_forall₂_of_clear find?_of_clear h.2.1
    rw [expand, Named.value_bind, Named.value_bind, ht, hr]
    exact .multipleSub htarget hreplacement
  | alternateSub target alternates =>
    refine ⟨False.elim, fun _ => ?_⟩
    simp only [expand, Named.causes_bind, List.append_eq_nil_iff] at h
    obtain ⟨t, ht, htarget⟩ := find?_of_clear target h.2.1
    rw [expand, Named.value_bind, Named.value_bind, ht]
    exact .alternateSub htarget (lists_of_clear h.1)
  | ligatureSub components replacement =>
    refine ⟨False.elim, fun _ => ?_⟩
    simp only [expand, Named.causes_bind, List.append_eq_nil_iff] at h
    obtain ⟨cs, hc, hcomponents⟩ := Named.exists_forall₂_of_clear find?_of_clear h.1
    obtain ⟨r, hr, hreplacement⟩ := find?_of_clear replacement h.2.1
    rw [expand, Named.value_bind, Named.value_bind, hc, hr]
    exact .ligatureSub hcomponents hreplacement
  | chainSub context => exact ⟨False.elim, fun _ => .chainSub (frames_of_clear h)⟩
  | reverseChainSub backtrack target replacement lookahead =>
    simp only [expand, Named.causes_bind, List.append_eq_nil_iff] at h
    obtain ⟨hsides, hcontext⟩ := h
    obtain ⟨hvoid, hvalue⟩ | ⟨hvoid, ts, rs, pairs, hvalue, ht, hr, hpairs⟩ :=
      substitutions_of_clear hsides
    · refine ⟨fun _ => ?_, fun hnot => absurd hvoid hnot⟩
      rw [expand, Named.value_bind, hvalue]
      rfl
    · refine ⟨fun hv => absurd hv hvoid, fun _ => ?_⟩
      rw [hvalue] at hcontext
      simp only [Named.causes_bind, List.append_eq_nil_iff] at hcontext
      rw [expand, Named.value_bind, hvalue]
      exact .reverseChainSub (Named.forall₂_of_clear covers_of_clear hcontext.1) ht hr hpairs
        (Named.forall₂_of_clear covers_of_clear hcontext.2.1)
  | singlePos glyphs value =>
    have hgs : s.Lists glyphs (s.glyphList glyphs).value := lists_of_clear h
    refine ⟨fun hvoid => ?_, fun _ => ?_⟩
    · rw [expand, Named.value_map, glyphSet, Named.value_map, hgs.unique hvoid]
      rfl
    · exact .singlePos hgs (GlyphSet.ascending _) fun _ => GlyphSet.mem_ofList
  | pairPos first second value1 value2 =>
    refine ⟨False.elim, fun _ => ?_⟩
    simp only [expand, Named.causes_bind, List.append_eq_nil_iff] at h
    exact .pairPos (side_of_clear h.1) (side_of_clear h.2.1)
  | cursivePos glyph entry exit =>
    refine ⟨False.elim, fun _ => ?_⟩
    simp only [expand, Named.causes_bind, List.append_eq_nil_iff] at h
    obtain ⟨g, hvalue, hg⟩ := find?_of_clear glyph h.1
    rw [expand, Named.value_bind, hvalue]
    exact .cursivePos hg
  | markToBase base marks => exact ⟨False.elim, fun _ => .markToBase (covers_of_clear base h)⟩
  | markToLigature ligature components =>
    exact ⟨False.elim, fun _ => .markToLigature (covers_of_clear ligature h)⟩
  | markToMark baseMark marks =>
    exact ⟨False.elim, fun _ => .markToMark (covers_of_clear baseMark h)⟩
  | chainPos context => exact ⟨False.elim, fun _ => .chainPos (frames_of_clear h)⟩

/-- Only a void rule stands for nothing. -/
theorem StandsFor.ne_nil {body : Document.RuleBody} {bodies : List RuleBody}
    (h : s.StandsFor body bodies) (hvoid : ¬ s.Void body) : bodies ≠ [] := by
  rintro rfl
  generalize hnil : ([] : List RuleBody) = bodies at h
  cases h with
  | singleSub ht hr hpairs =>
    cases List.map_eq_nil_iff.1 hnil.symm
    cases hpairs.targets_eq
    exact hvoid (.inl ht)
  | @singlePos _ _ gs members hgs _ hmem =>
    have hmembers := List.map_eq_nil_iff.1 hnil.symm
    have hgs' : gs = [] := by
      refine List.eq_nil_iff_forall_not_mem.2 fun g hg => ?_
      have hg' := (hmem g).2 hg
      rw [hmembers] at hg'
      cases hg'
    subst hgs'
    exact hvoid hgs
  | _ => cases hnil

/-- A list in one scope is the same in another that knows all names of the first. -/
theorem Lists.mono {s' : Scope} (hglyphs : s'.glyphs = s.glyphs)
    (hclasses : ∀ (cls : String) gs, s.classes[cls]? = some gs → s'.classes[cls]? = some gs)
    {names : GlyphNames} {gs : List Glyph} (h : s.Lists names gs) : s'.Lists names gs := by
  cases h with
  | ofClass hname hgs => exact .ofClass hname (hclasses _ _ hgs)
  | glyph hname hg => exact .glyph hname (hglyphs ▸ hg)
  | glyphs hgs => exact .glyphs (hgs.imp fun _ _ hg => hglyphs ▸ hg)

/-- Whether a scope knows a document: its glyphs by their order, its classes by what they list, and
its lookups by their places. -/
structure Knows (s : Scope) (d : Document) : Prop where
  glyphs : s.glyphs.Numbers d.glyphOrder
  classes : ∀ c ∈ d.classes.entries, ∃ gs, s.classes[c.1]? = some gs ∧ s.Lists c.2 gs
  lookups : ∀ (i : Nat) l name, d.lookups[i]? = some l → l.name = some name →
    s.lookups[name]? = some i
  lookupCount : s.lookupCount = d.lookups.length

end Scope

namespace Document

/-! ## Scopes of documents without anything wrong -/

/-- What holds of the classes that have been seen, if nothing is found in them: the scope knows
them, and no others. -/
structure ScopeState.Knows (s : ScopeState) (done : List (String × GlyphNames)) : Prop where
  classes : ∀ c ∈ done, ∃ gs, s.scope.classes[c.1]? = some gs ∧ s.scope.Lists c.2 gs
  mem : ∀ (cls : String) gs, s.scope.classes[cls]? = some gs → cls ∈ done.map Prod.fst

theorem ScopeState.Knows.add {s : ScopeState} {done : List (String × GlyphNames)}
    (h : s.Knows done) {c : String × GlyphNames} (hnew : c.1 ∉ done.map Prod.fst)
    (hclear : (s.scope.glyphList c.2).causes = []) : (addClass s c).Knows (done ++ [c]) := by
  have hkeep : ∀ (cls : String) gs, s.scope.classes[cls]? = some gs →
      (addClass s c).scope.classes[cls]? = some gs := by
    intro cls gs hgs
    have hne : c.1 ≠ cls := fun he => hnew (he ▸ h.mem cls gs hgs)
    simp only [addClass, Std.TreeMap.getElem?_insert, Std.LawfulEqCmp.compare_eq_iff_eq, if_neg hne]
    exact hgs
  have hglyphs : (addClass s c).scope.glyphs = s.scope.glyphs := rfl
  refine ⟨fun x hx => ?_, fun cls gs hgs => ?_⟩
  · rcases List.mem_append.1 hx with hx | hx
    · obtain ⟨gs, hgs, hlists⟩ := h.classes x hx
      exact ⟨gs, hkeep _ _ hgs, hlists.mono hglyphs hkeep⟩
    · cases List.mem_singleton.1 hx
      refine ⟨(s.scope.glyphList c.2).value, ?_,
        (Scope.lists_of_clear hclear).mono hglyphs hkeep⟩
      simp [addClass]
  · simp only [addClass, Std.TreeMap.getElem?_insert, Std.LawfulEqCmp.compare_eq_iff_eq] at hgs
    rw [List.map_append, List.mem_append]
    split at hgs
    · next he => exact .inr (List.mem_singleton.2 he.symm)
    · exact .inl (h.mem cls gs hgs)

theorem knows_foldl {glyphs : GlyphOrder} {cs : List (String × GlyphNames)}
    (hnodup : (cs.map Prod.fst).Nodup)
    (hclear : ∀ fs ∈ (cs.foldl addClass ⟨⟨glyphs, ∅, ∅, 0⟩, []⟩).findings, fs = []) :
    (cs.foldl addClass ⟨⟨glyphs, ∅, ∅, 0⟩, []⟩).Knows cs := by
  induction cs using List.reverseRecOn with
  | nil => exact ⟨List.forall_mem_nil _, fun _ _ hgs => by simp at hgs⟩
  | append_singleton cs c ih =>
    rw [List.foldl_append, List.foldl_cons, List.foldl_nil] at hclear ⊢
    obtain ⟨hc, hcs⟩ := List.forall_mem_cons.1 hclear
    rw [List.map_append, List.nodup_append] at hnodup
    obtain ⟨hearlier, -, hdisjoint⟩ := hnodup
    have hnew : c.1 ∉ cs.map Prod.fst := fun hm =>
      hdisjoint _ hm c.1 (List.mem_singleton_self _) rfl
    exact (ih hearlier hcs).add hnew (List.map_eq_nil_iff.1 hc)

theorem knows_classScope {d : Document} (h : d.classScope.findings.reverse.flatten = []) :
    d.classScope.Knows d.classes.entries :=
  knows_foldl d.classes.nodup fun fs hfs =>
    List.flatten_eq_nil_iff.1 h fs (List.mem_reverse.2 hfs)

/-- What holds of the lookups that have been seen, if nothing is found in them: every name stands
for the lookup that has it. -/
def FrameState.Names (s : FrameState) (done : List Lookup) : Prop :=
  ∀ (i : Nat) l name, done[i]? = some l → l.name = some name → s.names[name]? = some i

theorem FrameState.Names.add {s : FrameState} {scope : Scope} {done : List Lookup}
    (h : s.Names done) (hcount : s.count = done.length) {l : Lookup}
    (hclear : ∀ own, l.name = some own → own ∉ s.names) :
    (addFrame scope s l).Names (done ++ [l]) := by
  intro i x name hi hname
  dsimp only [addFrame]
  rcases getElem?_concat_eq_some.1 hi with hi | ⟨rfl, rfl⟩
  · have hfound := h i x name hi hname
    cases hown : l.name with
    | none => exact hfound
    | some own =>
      have hne : own ≠ name := by
        rintro rfl
        exact hclear own hown (Std.TreeMap.mem_iff_isSome_getElem?.2 (by rw [hfound]; rfl))
      rw [Option.elim_some, Std.TreeMap.getElem?_insert,
        if_neg fun he => hne (Std.LawfulEqCmp.compare_eq_iff_eq.1 he)]
      exact hfound
  · rw [hname, Option.elim_some, Std.TreeMap.getElem?_insert_self, hcount]

theorem names_foldl {scope : Scope} {ls : List Lookup}
    (hclear : ∀ fs ∈ (ls.foldl (addFrame scope) ⟨[], ∅, 0, []⟩).findings, fs = []) :
    (ls.foldl (addFrame scope) ⟨[], ∅, 0, []⟩).Names ls := by
  induction ls using List.reverseRecOn with
  | nil => exact fun i l name hi => by simp at hi
  | append_singleton ls l ih =>
    rw [List.foldl_append, List.foldl_cons, List.foldl_nil] at hclear ⊢
    obtain ⟨hl, hls⟩ := List.forall_mem_cons.1 hclear
    have hrepeated := (List.append_eq_nil_iff.1 hl).2
    refine (ih hls).add (follows_foldl scope ls).count_eq fun own hown hmem => ?_
    rw [hown] at hrepeated
    simp [hmem] at hrepeated

theorem names_lookupFrames {d : Document} {scope : Scope}
    (h : (d.lookupFrames scope).findings.reverse.flatten = []) :
    (d.lookupFrames scope).Names d.lookups :=
  names_foldl fun fs hfs => List.flatten_eq_nil_iff.1 h fs (List.mem_reverse.2 hfs)

/-- The findings on the parts of a document in which nothing is found. -/
theorem clear_of_resolve {d : Document} {r : RuleSet × GlyphOrder} (h : d.resolve = .ok r) :
    d.classScope.findings.reverse.flatten = [] ∧
      (d.lookupFrames d.classScope.scope).findings.reverse.flatten = [] ∧
      ∀ l ∈ d.lookups, ∀ x ∈ l.rules, (d.scope.rules x).causes = [] := by
  have hnil := (resolve_eq_ok_iff.1 h).1
  simp only [audit, List.append_eq_nil_iff] at hnil
  obtain ⟨⟨⟨⟨⟨⟨⟨-, hclasses⟩, -⟩, hframes⟩, hrules⟩, -⟩, -⟩, -⟩ := hnil
  refine ⟨hclasses, hframes, fun l hl x hx => ?_⟩
  have hl' := List.flatMap_eq_nil_iff.1 hrules _ (List.mem_map_of_mem hl)
  have hx' := List.flatMap_eq_nil_iff.1 hl' _ (List.mem_map_of_mem hx)
  exact List.map_eq_nil_iff.1 hx'

theorem knows_of_resolve {d : Document} {r : RuleSet × GlyphOrder} (h : d.resolve = .ok r) :
    d.scope.Knows d := by
  obtain ⟨hclasses, hframes, -⟩ := clear_of_resolve h
  have hglyphs : d.scope.glyphs.Numbers d.glyphOrder := by
    rw [glyphs_scope, ← (Prod.mk.inj (resolve_eq_ok_iff.1 h).2).2]
    exact (resolve_closed h).1
  refine ⟨hglyphs, fun c hc => ?_, names_lookupFrames hframes, lookupCount_scope d⟩
  obtain ⟨gs, hgs, hlists⟩ := (knows_classScope hclasses).classes c hc
  have hsame : d.scope.glyphs = d.classScope.scope.glyphs := rfl
  exact ⟨gs, hgs, hlists.mono hsame fun _ _ hgs => hgs⟩

end Document
end FontLayout
