import FontLayout.Proofs.Document.Errors
/-!
# Names that mean nothing

Every place of a document where a name stands is an occurrence of the name. What is known there is
said by the document alone: the names in the glyph order, the names of the classes written before
or of all classes, the names and the number of the lookups, and the form of tags. Of the occurrences
of names that are not known there, the resolver reports each one, in order, but for those that it
never looks at, which are hidden:
* all of a feature after its tag, if the tag is invalid;
* the language of a language system, if its script is invalid;
* the context of a reverse chain substitution, if its targets and replacements cannot be paired.

Results:
* `Scope.FitsAll.named_rules`, `Document.Feature.namesIn_resolve`: what is reported of the names in a
  rule and in a feature.
* `Document.fits_scope`: the scope of a document knows what the document says.
* `Document.reported_unresolved`: what is reported of the names in a document.
-/
namespace FontLayout

/-- Whether something is wrong because a name means nothing. -/
def Cause.isName : Cause → Bool
  | .unknownGlyph _ | .unknownGlyphClass _ | .unknownLookup _ | .invalidTag _ => true
  | _ => false

namespace Document

/-! ## Occurrences -/

/-- A name, by what it should name. -/
inductive Mention where
  | glyph (name : String)
  | glyphClass (name : String)
  | lookup (ref : LookupRef)
  | tag (text : String)
deriving DecidableEq

/-- What is wrong if a name means nothing. -/
def Mention.cause : Mention → Cause
  | .glyph name => .unknownGlyph name
  | .glyphClass name => .unknownGlyphClass name
  | .lookup ref => .unknownLookup (Scope.refLabel ref)
  | .tag text => .invalidTag text

/-- A name at one place, and whether the place is hidden. -/
structure Occurrence where
  mention : Mention
  hidden : Bool
deriving DecidableEq

/-- Names at places that are all hidden, or all not. -/
def behind (hidden : Bool) (ms : List Mention) : List Occurrence := ms.map fun m => ⟨m, hidden⟩

/-- The names that a glyph set is written with. -/
def GlyphNames.mentions : GlyphNames → List Mention
  | .one name =>
    match classNameOf? name with
    | some cls => [.glyphClass cls]
    | none => [.glyph name]
  | .many names => names.map .glyph

/-- The names at an input position. -/
def ContextInput.mentions (i : ContextInput) : List Mention :=
  i.glyphs.mentions ++ i.lookups.map .lookup

/-- The names in a context. -/
def Context.mentions (c : Context) : List Mention :=
  c.backtrack.flatMap GlyphNames.mentions ++ c.input.flatMap ContextInput.mentions
    ++ c.lookahead.flatMap GlyphNames.mentions

/-- Whether targets and replacements cannot be paired: one side has no glyph that is known, or both
have several and not the same number. -/
def unpaired (s : Scope) (target replacement : GlyphNames) : Bool :=
  let targets := (s.glyphList target).value.length
  let replacements := (s.glyphList replacement).value.length
  targets = 0 || replacements = 0 || (replacements ≠ 1 && targets ≠ replacements)

/-- The occurrences in a rule. -/
def RuleBody.occurrences (s : Scope) : RuleBody → List Occurrence
  | .singleSub target replacement => behind false (target.mentions ++ replacement.mentions)
  | .multipleSub target replacement => behind false (.glyph target :: replacement.map .glyph)
  | .alternateSub target alternates => behind false (alternates.mentions ++ [.glyph target])
  | .ligatureSub components replacement =>
    behind false (components.map .glyph ++ [.glyph replacement])
  | .chainSub context | .chainPos context => behind false context.mentions
  | .reverseChainSub backtrack target replacement lookahead =>
    behind false (target.mentions ++ replacement.mentions)
      ++ behind (unpaired s target replacement)
        (backtrack.flatMap GlyphNames.mentions ++ lookahead.flatMap GlyphNames.mentions)
  | .singlePos glyphs _ => behind false glyphs.mentions
  | .pairPos first second _ _ => behind false (first.mentions ++ second.mentions)
  | .cursivePos glyph _ _ => behind false [.glyph glyph]
  | .markToBase glyphs _ | .markToLigature glyphs _ | .markToMark glyphs _ =>
    behind false glyphs.mentions

/-- The occurrences in the sets of a lookup. -/
def Lookup.setOccurrences (l : Lookup) : List Occurrence :=
  behind false ((l.markFilterSet.toList ++ l.markAttachment.toList).flatMap GlyphNames.mentions)

/-- Whether a text is no tag. -/
def badTag (text : String) : Bool := (Tag.ofString? text).isNone

/-- The occurrences in a language system. -/
def systemOccurrences (hidden : Bool) (system : String × String) : List Occurrence :=
  behind hidden [.tag system.1] ++ behind (hidden || badTag system.1) [.tag system.2]

/-- The occurrences in a feature. -/
def Feature.occurrences (f : Feature) : List Occurrence :=
  behind false [.tag f.tag] ++ f.languageSystems.flatMap (systemOccurrences (badTag f.tag))
    ++ behind (badTag f.tag) (f.lookups.map .lookup)

/-- The occurrences in the roles of glyphs. -/
def GlyphClasses.occurrences (c : GlyphClasses) : List Occurrence :=
  behind false ([c.base, c.ligature, c.mark, c.component].flatMap GlyphNames.mentions)

/-! ## What is known -/

/-- The names that mean something at some place. -/
structure Vocabulary where
  glyphs : List String
  classes : List String
  lookups : List String
  lookupCount : Nat

/-- Whether a name means something. -/
def Vocabulary.knows (v : Vocabulary) : Mention → Bool
  | .glyph name => name ∈ v.glyphs
  | .glyphClass name => name ∈ v.classes
  | .lookup (.index i) => i.toNat < v.lookupCount
  | .lookup (.name name) => name ∈ v.lookups
  | .tag text => !badTag text

/-- The occurrences of names that mean nothing. -/
def Vocabulary.unresolved (v : Vocabulary) (os : List Occurrence) : List Occurrence :=
  os.filter fun o => !v.knows o.mention

/-- The names that are known in all of a document but the definitions of its classes. -/
def vocabulary (d : Document) : Vocabulary where
  glyphs := d.glyphOrder.take maxGlyphs
  classes := d.classes.entries.map Prod.fst
  lookups := d.lookups.filterMap Lookup.name
  lookupCount := d.lookups.length

/-- The unresolved occurrences in definitions of classes, each of which may use those before it. -/
def unresolvedClasses (v : Vocabulary) : List (String × GlyphNames) → List Occurrence
  | [] => []
  | c :: cs => v.unresolved (behind false c.2.mentions)
    ++ unresolvedClasses { v with classes := v.classes ++ [c.1] } cs

/-- The occurrences in a document outside the definitions of its classes. -/
def occurrences (d : Document) : List Occurrence :=
  d.markClasses.entries.flatMap (fun c =>
      behind false (c.2.flatMap fun m => m.glyphs.mentions))
    ++ d.lookups.flatMap Lookup.setOccurrences
    ++ d.lookups.flatMap (fun l => l.rules.flatMap fun r => r.body.occurrences d.scope)
    ++ d.features.flatMap Feature.occurrences
    ++ d.glyphFacts.classes.toList.flatMap GlyphClasses.occurrences
    ++ d.glyphFacts.carets.flatMap fun c => behind false [.glyph c.glyph]

/-- All occurrences in a document of names that mean nothing where they stand, in order. -/
def unresolved (d : Document) : List Occurrence :=
  unresolvedClasses { d.vocabulary with classes := [] } d.classes.entries
    ++ d.vocabulary.unresolved d.occurrences

/-- What is wrong at the places that are not hidden. -/
def reported (os : List Occurrence) : List Cause :=
  (os.filter fun o => !o.hidden).map fun o => o.mention.cause

/-- What is wrong because a name means nothing, among all that is wrong. -/
def named (cs : List Cause) : List Cause := cs.filter Cause.isName

/-- What is wrong because names mean nothing. -/
def Vocabulary.missing (v : Vocabulary) (ms : List Mention) : List Cause :=
  (ms.filter fun m => !v.knows m).map Mention.cause

section
variable {v : Vocabulary}

theorem Vocabulary.missing_cons (m : Mention) (ms : List Mention) :
    v.missing (m :: ms) = v.missing [m] ++ v.missing ms := by
  rw [missing, missing, missing, List.filter_cons, List.filter_cons]
  split <;> rfl

@[simp] theorem Vocabulary.missing_append (ms ms' : List Mention) :
    v.missing (ms ++ ms') = v.missing ms ++ v.missing ms' := by
  rw [missing, List.filter_append, List.map_append]
  rfl

@[simp] theorem Vocabulary.missing_flatMap {α : Type} (f : α → List Mention) (xs : List α) :
    v.missing (xs.flatMap f) = xs.flatMap fun x => v.missing (f x) := by
  induction xs with
  | nil => rfl
  | cons x xs ih => rw [List.flatMap_cons, missing_append, ih, List.flatMap_cons]

@[simp] theorem Vocabulary.missing_map {α : Type} (f : α → Mention) (xs : List α) :
    v.missing (xs.map f) = xs.flatMap fun x => v.missing [f x] := by
  rw [← missing_flatMap, ← List.map_eq_flatMap]

theorem Vocabulary.missing_singleton (m : Mention) :
    v.missing [m] = if v.knows m then [] else [m.cause] := by
  rw [missing, List.filter_singleton]
  cases v.knows m <;> rfl

@[simp] theorem named_nil : named [] = [] := rfl

@[simp] theorem named_append (cs cs' : List Cause) : named (cs ++ cs') = named cs ++ named cs' :=
  List.filter_append ..

theorem Mention.isName_cause (m : Mention) : m.cause.isName = true := by
  cases m <;> rfl

@[simp] theorem named_missing (ms : List Mention) : named (v.missing ms) = v.missing ms :=
  List.filter_eq_self.2 (List.forall_mem_map.2 fun m _ => m.isName_cause)

@[simp] theorem named_reported (os : List Occurrence) : named (reported os) = reported os :=
  List.filter_eq_self.2 (List.forall_mem_map.2 fun o _ => o.mention.isName_cause)

@[simp] theorem reported_append (os os' : List Occurrence) :
    reported (os ++ os') = reported os ++ reported os' := by
  rw [reported, List.filter_append, List.map_append]
  rfl

@[simp] theorem Vocabulary.unresolved_append (os os' : List Occurrence) :
    v.unresolved (os ++ os') = v.unresolved os ++ v.unresolved os' := List.filter_append ..

/-- What is reported of hidden places is nothing, and of others all that is missing. -/
@[simp] theorem reported_behind (hidden : Bool) (ms : List Mention) :
    reported (v.unresolved (behind hidden ms)) = if hidden then [] else v.missing ms := by
  induction ms with
  | nil => cases hidden <;> rfl
  | cons m ms ih =>
    have hcons : behind hidden (m :: ms) = [⟨m, hidden⟩] ++ behind hidden ms := rfl
    rw [hcons, Vocabulary.unresolved_append, reported_append, ih, Vocabulary.missing_cons,
      Vocabulary.missing_singleton]
    simp only [reported, Vocabulary.unresolved, List.filter_singleton]
    cases hidden <;> cases v.knows m <;> rfl

/-- What is reported of several parts is what is reported of each. -/
theorem reported_flatMap {α : Type} (f : α → List Occurrence) (xs : List α) :
    reported (v.unresolved (xs.flatMap f)) = xs.flatMap fun x => reported (v.unresolved (f x)) := by
  induction xs with
  | nil => rfl
  | cons x xs ih =>
    rw [List.flatMap_cons, Vocabulary.unresolved_append, reported_append, ih, List.flatMap_cons]

@[simp] theorem named_flatMap {α : Type} (f : α → List Cause) (xs : List α) :
    named (xs.flatMap f) = xs.flatMap fun x => named (f x) := by
  rw [named, List.filter_flatMap]
  rfl

end

end Document

/-! ## What the resolver finds -/

namespace Scope
open Document (GlyphNames LookupRef Vocabulary named named_append reported reported_append
  reported_behind unpaired badTag systemOccurrences)

/-- Whether a scope knows the glyphs and the classes of a vocabulary. -/
structure Fits (s : Scope) (v : Vocabulary) : Prop where
  find?_isSome : ∀ name, (s.glyphs.find? name).isSome = decide (name ∈ v.glyphs)
  class?_isSome : ∀ name : String, s.classes[name]?.isSome = decide (name ∈ v.classes)

/-- Whether a scope knows the lookups of a vocabulary as well. -/
structure FitsAll (s : Scope) (v : Vocabulary) : Prop extends s.Fits v where
  lookup?_isSome : ∀ name : String, s.lookups[name]?.isSome = decide (name ∈ v.lookups)
  lookupCount_eq : s.lookupCount = v.lookupCount

section
variable {s : Scope} {v : Vocabulary} (h : s.Fits v)
include h

theorem Fits.causes_glyph? (name : String) : (s.glyph? name).causes = v.missing [.glyph name] := by
  have hname := h.find?_isSome name
  rw [Vocabulary.missing_singleton, Vocabulary.knows, ← hname, glyph?]
  cases s.glyphs.find? name <;> rfl

theorem Fits.causes_glyphClass (name : String) :
    (s.glyphClass name).causes = v.missing [.glyphClass name] := by
  have hname := h.class?_isSome name
  rw [Vocabulary.missing_singleton, Vocabulary.knows, ← hname, glyphClass]
  cases s.classes[name]? <;> rfl

theorem Fits.causes_glyphList (names : GlyphNames) :
    (s.glyphList names).causes = v.missing names.mentions := by
  cases names with
  | one name =>
    rw [glyphList, GlyphNames.mentions]
    cases classNameOf? name with
    | some cls => exact h.causes_glyphClass cls
    | none => exact h.causes_glyph? name
  | many names => simp [glyphList, GlyphNames.mentions, h.causes_glyph?]

theorem Fits.causes_glyphSet (names : GlyphNames) :
    (s.glyphSet names).causes = v.missing names.mentions := h.causes_glyphList names

theorem Fits.causes_glyphSets (sets : List GlyphNames) :
    (s.glyphSets sets).causes = v.missing (sets.flatMap GlyphNames.mentions) := by
  simp [glyphSets, h.causes_glyphSet]

theorem Fits.causes_glyphSet? (names : Option GlyphNames) :
    (s.glyphSet? names).causes = v.missing (names.toList.flatMap GlyphNames.mentions) := by
  cases names with
  | none => rfl
  | some names => simp [glyphSet?, h.causes_glyphSet]

theorem Fits.causes_token (names : GlyphNames) :
    (s.token names).causes = v.missing names.mentions := by
  cases names with
  | one name =>
    rw [token, GlyphNames.mentions]
    cases classNameOf? name with
    | some cls => exact h.causes_glyphClass cls
    | none => exact h.causes_glyph? name
  | many names => exact h.causes_glyphSet (.many names)

end

section
variable {s : Scope} {v : Vocabulary} (h : s.FitsAll v)
include h

theorem FitsAll.causes_lookup? (ref : LookupRef) :
    (s.lookup? ref).causes = v.missing [.lookup ref] := by
  rw [Vocabulary.missing_singleton]
  unfold lookup?
  cases ref with
  | index i =>
    simp only [Vocabulary.knows, ← h.lookupCount_eq]
    by_cases hi : i.toNat < s.lookupCount
    · simp [hi, Named.pure]
    · simp [hi, Named.blame, Document.Mention.cause]
  | name name =>
    simp only [Vocabulary.knows, ← h.lookup?_isSome name]
    cases s.lookups[name]? <;> rfl

theorem FitsAll.causes_context (c : Document.Context) :
    (s.context c).causes = v.missing c.mentions := by
  simp [context, contextInput, Document.Context.mentions, Document.ContextInput.mentions,
    h.causes_glyphSets, h.causes_glyphSet, h.causes_lookup?]

end

theorem named_pairUp (targets replacements : List Glyph) :
    named (pairUp targets replacements).causes = [] := by
  unfold pairUp
  split
  · rfl
  · rfl
  · rfl
  · split <;> rfl

/-- Sides are paired exactly if they are not as the document says. -/
theorem isNone_substitutions (s : Scope) (target replacement : GlyphNames) :
    (s.substitutions target replacement).value.isNone = unpaired s target replacement := by
  simp only [substitutions, Named.value_bind, unpaired]
  generalize (s.glyphList target).value = targets
  generalize (s.glyphList replacement).value = replacements
  unfold pairUp
  split
  · rfl
  · simp [Named.pure]
  · next r _ hne =>
    have hlength : targets.length ≠ 0 := by simpa using hne
    simp [Named.pure, hlength]
  · next hne hne' hone =>
    have hlength : targets.length ≠ 0 := by simpa using hne
    have hlength' : replacements.length ≠ 0 := by simpa using hne'
    have hmany : replacements.length ≠ 1 := by
      intro he
      obtain ⟨r, rfl⟩ := List.length_eq_one_iff.1 he
      exact hone r rfl
    split
    · next he => simp [Named.pure, he, hlength']
    · next hdiffer => simp [Named.blame, hdiffer, hlength, hlength', hmany]

section
variable {s : Scope} {v : Vocabulary} (h : s.FitsAll v)
include h

theorem FitsAll.named_substitutions (target replacement : GlyphNames) :
    named (s.substitutions target replacement).causes =
      v.missing (target.mentions ++ replacement.mentions) := by
  simp [substitutions, h.causes_glyphList, named_pairUp]

/-- What is reported of the names in a rule. -/
theorem FitsAll.named_expand (body : Document.RuleBody) :
    named (s.expand body).causes = reported (v.unresolved (body.occurrences s)) := by
  cases body with
  | singleSub target replacement =>
    simp [expand, Document.RuleBody.occurrences, h.named_substitutions]
  | multipleSub target replacement =>
    have hcauses : (s.expand (.multipleSub target replacement)).causes =
        v.missing (.glyph target :: replacement.map .glyph) := by
      rw [Vocabulary.missing_cons]
      simp only [expand, Named.causes_bind]
      split <;> simp [h.causes_glyph?]
    simp [Document.RuleBody.occurrences, hcauses]
  | ligatureSub components replacement =>
    have hcauses : (s.expand (.ligatureSub components replacement)).causes =
        v.missing (components.map .glyph ++ [.glyph replacement]) := by
      simp only [expand, Named.causes_bind]
      split <;> simp [h.causes_glyph?]
    simp [Document.RuleBody.occurrences, hcauses]
  | reverseChainSub backtrack target replacement lookahead =>
    simp only [expand, Named.causes_bind, named_append, h.named_substitutions,
      Document.RuleBody.occurrences, ← isNone_substitutions, Vocabulary.unresolved_append,
      reported_append, reported_behind]
    -- without pairs the context is not looked at
    split
    · next hnone => simp [hnone]
    · next pairs hsome => simp [hsome, h.causes_glyphSets]
  | _ =>
    -- in all other rules each name is looked up, whatever became of those before it
    simp [expand, Document.RuleBody.occurrences, h.causes_glyph?, h.causes_glyphList,
      h.causes_glyphSet, h.causes_context, h.causes_token]

/-- What is reported of a rule does not depend on how many rules it stands for. -/
theorem FitsAll.named_rules (r : Document.Rule) :
    named (s.rules r).causes = reported (v.unresolved (r.body.occurrences s)) :=
  h.named_expand r.body

end

theorem causes_tag? (v : Vocabulary) (text : String) :
    (tag? text).causes = v.missing [.tag text] := by
  rw [Vocabulary.missing_singleton, Vocabulary.knows, badTag, tag?]
  cases Tag.ofString? text <;> rfl

theorem isNone_tag? (text : String) : (tag? text).value.isNone = badTag text := by
  rw [badTag, tag?]
  cases Tag.ofString? text <;> rfl

/-- An invalid script hides the language. -/
theorem causes_system? (v : Vocabulary) (system : String × String) :
    (system? system).causes = reported (v.unresolved (systemOccurrences false system)) := by
  simp only [system?, systemOccurrences, Named.causes_bind, causes_tag? v, ← isNone_tag?,
    Vocabulary.unresolved_append, reported_append, reported_behind]
  split
  · next hnone => simp [hnone, Named.pure]
  · next t hsome => simp [hsome, causes_tag? v]

end Scope

/-! ## What is found in documents -/

namespace Document

/-- The names that findings say mean nothing. -/
def namesIn (fs : List Finding) : List Cause := named (fs.map Finding.cause)

@[simp] theorem namesIn_nil : namesIn [] = [] := rfl

@[simp] theorem namesIn_append (fs fs' : List Finding) :
    namesIn (fs ++ fs') = namesIn fs ++ namesIn fs' := by
  rw [namesIn, List.map_append, named_append]
  rfl

@[simp] theorem namesIn_flatMap {α : Type} (f : α → List Finding) (xs : List α) :
    namesIn (xs.flatMap f) = xs.flatMap fun x => namesIn (f x) := by
  rw [namesIn, List.map_flatMap, named_flatMap]
  rfl

@[simp] theorem namesIn_findingsAt {α : Type} (x : Named α) (site : Site) :
    namesIn (x.findingsAt site) = named x.causes := by
  simp [namesIn, Named.findingsAt, Function.comp_def]

/-- A glyph order is wrong for other reasons than what names mean. -/
theorem namesIn_glyphOrderFindings (names : List String) :
    namesIn (glyphOrderFindings names) = [] := by
  have hrepeats : namesIn (names.foldl repeatStep (∅, [])).2.reverse = [] := by
    induction names using List.reverseRecOn with
    | nil => rfl
    | append_singleton names name ih =>
      rw [List.foldl_append, List.foldl_cons, List.foldl_nil, repeatStep]
      split
      · rw [List.reverse_cons, namesIn_append, ih]
        rfl
      · exact ih
  rw [glyphOrderFindings]
  split
  · rw [namesIn_append, hrepeats]
    rfl
  · exact hrepeats

section
variable {s : Scope} {v : Vocabulary}

theorem named_markMembers (h : s.Fits v) (c : String × List MarkMember) :
    named (markMembers s c).causes = v.missing (c.2.flatMap fun m => m.glyphs.mentions) := by
  simp [markMembers, h.causes_glyphSet]

theorem Lookup.named_frame (h : s.Fits v) (l : Lookup) :
    named (l.frame s).causes = reported (v.unresolved l.setOccurrences) := by
  simp [Lookup.frame, Lookup.setOccurrences, h.causes_glyphSet?]

theorem Lookup.namesIn_resolveRules (h : s.FitsAll v) (l : Lookup) :
    namesIn (l.resolveRules s).2 =
      reported (v.unresolved (l.rules.flatMap fun r => r.body.occurrences s)) := by
  simp [Lookup.resolveRules, List.flatMap_map, h.named_rules, reported_flatMap]

/-- What is reported of the names in a feature. -/
theorem Feature.namesIn_resolve (h : s.FitsAll v) (f : Feature) :
    namesIn (f.resolve s).2 = reported (v.unresolved f.occurrences) := by
  have htag := Scope.isNone_tag? f.tag
  unfold Feature.resolve
  dsimp only
  split
  · next hnone =>
    have hbad : badTag f.tag = true := by rw [← htag, hnone]; rfl
    simp [Feature.occurrences, systemOccurrences, hbad, Scope.causes_tag? v, reported_flatMap]
  · next t hsome =>
    have hgood : badTag f.tag = false := by rw [← htag, hsome]; rfl
    have hknown : v.missing [.tag f.tag] = [] := by
      simp [Vocabulary.missing_singleton, Vocabulary.knows, hgood]
    simp [Feature.occurrences, hgood, hknown, reported_flatMap, Scope.causes_system? v,
      h.causes_lookup?]

theorem GlyphFacts.named_resolveClasses (h : s.Fits v) (f : GlyphFacts) :
    named (f.resolveClasses s).causes =
      reported (v.unresolved (f.classes.toList.flatMap GlyphClasses.occurrences)) := by
  unfold GlyphFacts.resolveClasses
  split
  · next hnone => simp [hnone, Named.pure, Vocabulary.unresolved, reported]
  · next c hsome =>
    simp [hsome, GlyphClasses.resolve, GlyphClasses.occurrences, h.causes_glyphSet]

theorem Caret.named_resolve (h : s.Fits v) (c : Caret) :
    named (c.resolve s).causes = reported (v.unresolved (behind false [.glyph c.glyph])) := by
  simp [Caret.resolve, h.causes_glyph?]

end

/-! ## What a document knows -/

/-- A scope with one more class knows one more class. -/
theorem fits_addClass {s : ScopeState} {v : Vocabulary} (h : s.scope.Fits v)
    (c : String × GlyphNames) :
    (addClass s c).scope.Fits { v with classes := v.classes ++ [c.1] } where
  find?_isSome := h.find?_isSome
  class?_isSome name := by
    have hname := h.class?_isSome name
    simp only [addClass, Std.TreeMap.getElem?_insert, Std.LawfulEqCmp.compare_eq_iff_eq]
    split
    · next he => simp [he]
    · next hne => simp [hname, Ne.symm hne]

/-- Definitions of classes one after another: what is known after them, and what is reported. -/
theorem foldl_addClass (cs : List (String × GlyphNames)) {s : ScopeState} {v : Vocabulary}
    (h : s.scope.Fits v) :
    (cs.foldl addClass s).scope.Fits { v with classes := v.classes ++ cs.map Prod.fst } ∧
      namesIn (cs.foldl addClass s).findings.reverse.flatten =
        namesIn s.findings.reverse.flatten ++ reported (unresolvedClasses v cs) := by
  induction cs generalizing s v with
  | nil => exact ⟨by simpa using h, by simp [unresolvedClasses, reported]⟩
  | cons c cs ih =>
    obtain ⟨hfits, hnames⟩ := ih (fits_addClass h c)
    refine ⟨by simpa using hfits, ?_⟩
    rw [List.foldl_cons, hnames, unresolvedClasses, reported_append]
    simp [addClass, h.causes_glyphList]

theorem fits_glyphs (d : Document) :
    Scope.Fits ⟨d.glyphs, ∅, ∅, 0⟩ { d.vocabulary with classes := [] } where
  find?_isSome name := by
    rw [Bool.eq_iff_iff, decide_eq_true_iff]
    exact isSome_placesOf_iff (d.glyphOrder.take maxGlyphs) name
  class?_isSome name := by simp

/-- The scope of all classes of a document, and what is reported of their definitions. -/
theorem fits_classScope (d : Document) :
    d.classScope.scope.Fits d.vocabulary ∧ namesIn d.classScope.findings.reverse.flatten =
      reported (unresolvedClasses { d.vocabulary with classes := [] } d.classes.entries) := by
  have hstart : (ScopeState.mk ⟨d.glyphs, ∅, ∅, 0⟩ []).scope.Fits
      { d.vocabulary with classes := [] } := d.fits_glyphs
  exact foldl_addClass d.classes.entries hstart

theorem isSome_names_addFrame (scope : Scope) (s : FrameState) (l : Lookup) (name : String) :
    (addFrame scope s l).names[name]?.isSome =
      (s.names[name]?.isSome || decide (l.name = some name)) := by
  dsimp only [addFrame]
  cases l.name with
  | none => simp
  | some own =>
    simp only [Option.elim_some, Std.TreeMap.getElem?_insert, Std.LawfulEqCmp.compare_eq_iff_eq,
      Option.some.injEq]
    split <;> simp [*]

/-- A name that is used again is wrong for another reason than what it means. -/
theorem namesIn_addFrame {scope : Scope} {v : Vocabulary} (h : scope.Fits v) (s : FrameState)
    (l : Lookup) : namesIn (addFrame scope s l).findings.reverse.flatten =
      namesIn s.findings.reverse.flatten ++ reported (v.unresolved l.setOccurrences) := by
  simp only [addFrame, List.reverse_cons, List.flatten_append, List.flatten_singleton,
    namesIn_append, namesIn_findingsAt, l.named_frame h]
  split
  · split <;> simp [namesIn, named, Cause.isName]
  · simp

/-- Lookups one after another: which names are known after them, and what is reported. -/
theorem foldl_addFrame {scope : Scope} {v : Vocabulary} (h : scope.Fits v) (ls : List Lookup) :
    let s := ls.foldl (addFrame scope) ⟨[], ∅, 0, []⟩
    (∀ name : String, s.names[name]?.isSome = decide (name ∈ ls.filterMap Lookup.name)) ∧
      namesIn s.findings.reverse.flatten =
        reported (v.unresolved (ls.flatMap Lookup.setOccurrences)) := by
  induction ls using List.reverseRecOn with
  | nil => exact ⟨fun name => by simp, rfl⟩
  | append_singleton ls l ih =>
    obtain ⟨hnames, hfindings⟩ := ih
    simp only [List.foldl_append, List.foldl_cons, List.foldl_nil, isSome_names_addFrame,
      namesIn_addFrame h, hnames, hfindings]
    exact ⟨fun name => by simp, by simp⟩

theorem fits_scope (d : Document) : d.scope.FitsAll d.vocabulary where
  find?_isSome := d.fits_classScope.1.find?_isSome
  class?_isSome := d.fits_classScope.1.class?_isSome
  lookup?_isSome := (foldl_addFrame d.fits_classScope.1 d.lookups).1
  lookupCount_eq := lookupCount_scope d

/-- All findings on a document, in order. -/
theorem findings_audit (d : Document) : d.audit.2 =
    glyphOrderFindings d.glyphOrder ++ d.classScope.findings.reverse.flatten
      ++ (Named.traverse (markMembers d.classScope.scope) d.markClasses.entries).findingsAt .unknown
      ++ (d.lookupFrames d.classScope.scope).findings.reverse.flatten
      ++ d.lookups.flatMap (fun l => (l.resolveRules d.scope).2)
      ++ d.features.flatMap (fun f => (f.resolve d.scope).2)
      ++ (d.glyphFacts.resolveClasses d.scope).findingsAt .unknown
      ++ d.glyphFacts.carets.flatMap fun c =>
        (c.resolve d.scope).findingsAt (Site.unknown.atLine c.line) := by
  simp only [audit, List.flatMap_map]
  rfl

/-- What is reported of the names in a document: those that mean nothing and are not hidden. -/
theorem namesIn_audit (d : Document) : namesIn d.audit.2 = reported d.unresolved := by
  obtain ⟨hclasses, hdefinitions⟩ := d.fits_classScope
  have hscope := d.fits_scope
  have hmarks : named (Named.traverse (markMembers d.classScope.scope)
      d.markClasses.entries).causes = reported (d.vocabulary.unresolved
        (d.markClasses.entries.flatMap fun c =>
          behind false (c.2.flatMap fun m => m.glyphs.mentions))) := by
    simp [named_markMembers hclasses, reported_flatMap]
  have hframes := (foldl_addFrame hclasses d.lookups).2
  have hrules : namesIn (d.lookups.flatMap fun l => (l.resolveRules d.scope).2) =
      reported (d.vocabulary.unresolved
        (d.lookups.flatMap fun l => l.rules.flatMap fun r => r.body.occurrences d.scope)) := by
    simp [Lookup.namesIn_resolveRules hscope, reported_flatMap]
  have hfeatures : namesIn (d.features.flatMap fun f => (f.resolve d.scope).2) =
      reported (d.vocabulary.unresolved (d.features.flatMap Feature.occurrences)) := by
    simp [Feature.namesIn_resolve hscope, reported_flatMap]
  have hcarets : namesIn (d.glyphFacts.carets.flatMap fun c =>
      (c.resolve d.scope).findingsAt (Site.unknown.atLine c.line)) =
      reported (d.vocabulary.unresolved
        (d.glyphFacts.carets.flatMap fun c => behind false [.glyph c.glyph])) := by
    simp [Caret.named_resolve hscope.toFits, reported_flatMap]
  rw [findings_audit, unresolved, occurrences]
  simp only [namesIn_append, namesIn_findingsAt, Vocabulary.unresolved_append, reported_append,
    namesIn_glyphOrderFindings, hdefinitions, hmarks, lookupFrames, hframes, hrules, hfeatures,
    GlyphFacts.named_resolveClasses hscope.toFits, hcarets, List.nil_append, List.append_assoc]

/-- Every unresolved occurrence is hidden or reported. -/
theorem length_eq_reported_add_hidden (os : List Occurrence) :
    os.length = (reported os).length + os.countP Occurrence.hidden := by
  rw [reported, List.length_map, ← List.countP_eq_length_filter, Nat.add_comm,
    List.length_eq_countP_add_countP Occurrence.hidden]
  simp

/-- Of the names of a document that mean nothing where they stand, each one is reported that is not
hidden, and no other. So no fewer errors are reported than there are such names, but for the hidden
ones. -/
theorem reported_unresolved (d : Document) :
    namesIn d.audit.2 = reported d.unresolved ∧
      d.unresolved.length ≤ d.errorCount + d.unresolved.countP Occurrence.hidden := by
  have hnames := namesIn_audit d
  refine ⟨hnames, ?_⟩
  have hle : (namesIn d.audit.2).length ≤ d.audit.2.length := by
    rw [namesIn, named, ← List.length_map Finding.cause]
    exact List.length_filter_le ..
  calc d.unresolved.length
      = (namesIn d.audit.2).length + d.unresolved.countP Occurrence.hidden := by
        rw [hnames, ← length_eq_reported_add_hidden]
    _ ≤ d.errorCount + d.unresolved.countP Occurrence.hidden := by
        rw [errorCount_eq]
        exact Nat.add_le_add_right hle _

/-- A document in which names that mean nothing are hidden in each of the three ways. -/
def hiddenNames : Document where
  fontName := "Demo"
  glyphOrder := ["a", "b", "c"]
  classes := .empty
  markClasses := .empty
  lookups := [
    { name := none
      kind := .reverseChainSub
      flags := []
      markFilterSet := none
      markAttachment := none
      rules := [⟨.reverseChainSub [.many ["x"]] (.many ["a", "b", "c"]) (.many ["a", "b"])
        [.one "@none"], some 7, false⟩] }]
  features := [⟨"features", [("script", "language")], [.name "missing"]⟩,
    ⟨"liga", [("script", "language")], [.name "missing"]⟩]
  glyphFacts := ⟨none, []⟩

/-- Fewer errors may be reported than there are names that mean nothing. -/
theorem errorCount_hiddenNames :
    hiddenNames.errorCount = 4 ∧ hiddenNames.unresolved.map Occurrence.mention =
      [.glyph "x", .glyphClass "none", .tag "features", .tag "script", .tag "language",
        .lookup (.name "missing"), .tag "script", .tag "language", .lookup (.name "missing")] ∧
      ¬ hiddenNames.unresolved.length ≤ hiddenNames.errorCount := by
  have hcount : hiddenNames.errorCount = 4 := by rfl
  have hlength : hiddenNames.unresolved.length = 9 := by rfl
  exact ⟨hcount, by rfl, by rw [hcount, hlength]; decide⟩

end Document
end FontLayout
