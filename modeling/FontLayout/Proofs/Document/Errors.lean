import FontLayout.Proofs.Document.Resolution
/-!
# What is found in a document is an error

Whatever is wrong with a document is an error. So a document resolves exactly if nothing at all is
found, and otherwise the report counts each finding.

Results:
* `Scope.errors_rules`: what is wrong with the names of a rule is an error.
* `Document.level_of_mem_audit`: so is what is wrong with any part of a document.
* `Document.resolve_eq_ok_iff`, `Document.errorCount_eq`: what the outcome tells of the findings.
-/
namespace FontLayout

/-! ## Names -/

namespace Named
variable {α β : Type}

@[simp] theorem causes_pure (a : α) : (Pure.pure a : Named α).causes = [] := rfl

@[simp] theorem causes_bind (x : Named α) (f : α → Named β) :
    (x >>= f).causes = x.causes ++ (f x.value).causes := rfl

@[simp] theorem causes_map (f : α → β) (x : Named α) : (x.map f).causes = x.causes := rfl

@[simp] theorem causes_traverseSome (f : α → Named (Option β)) (xs : List α) :
    (traverseSome f xs).causes = xs.flatMap fun x => (f x).causes := causes_traverse f xs

@[simp] theorem causes_traverseAll (f : α → Named (Option β)) (xs : List α) :
    (traverseAll f xs).causes = xs.flatMap fun x => (f x).causes := causes_traverse f xs

/-- Whether all that was wrong is an error. -/
def Errors (x : Named α) : Prop := ∀ c ∈ x.causes, c.level = .error

theorem errors_pure (a : α) : (Pure.pure a : Named α).Errors := List.forall_mem_nil _

theorem Errors.map {x : Named α} (h : x.Errors) (f : α → β) : (x.map f).Errors := h

theorem Errors.bind {x : Named α} {f : α → Named β} (h : x.Errors) (hf : (f x.value).Errors) :
    (x >>= f).Errors := List.forall_mem_append.2 ⟨h, hf⟩

theorem errors_traverse {f : α → Named β} (h : ∀ a, (f a).Errors) (xs : List α) :
    (traverse f xs).Errors := by
  rw [Errors, causes_traverse, List.forall_mem_flatMap]
  exact fun a _ => h a

theorem errors_traverseSome {f : α → Named (Option β)} (h : ∀ a, (f a).Errors) (xs : List α) :
    (traverseSome f xs).Errors := errors_traverse h xs

theorem errors_traverseAll {f : α → Named (Option β)} (h : ∀ a, (f a).Errors) (xs : List α) :
    (traverseAll f xs).Errors := errors_traverse h xs

theorem level_of_mem_findingsAt {x : Named α} (h : x.Errors) {site : Site} {f : Finding}
    (hf : f ∈ x.findingsAt site) : f.level = .error := by
  obtain ⟨c, hc, rfl⟩ := List.mem_map.1 hf
  exact h c hc

end Named

namespace Scope
open Document (GlyphNames LookupRef)
open Named (errors_pure errors_traverse errors_traverseSome errors_traverseAll)
variable (s : Scope)

theorem errors_glyph? (name : String) : (s.glyph? name).Errors := by
  unfold glyph?
  split
  · exact errors_pure _
  · exact List.forall_mem_singleton.2 rfl

theorem errors_glyphClass (name : String) : (s.glyphClass name).Errors := by
  unfold glyphClass
  split
  · exact errors_pure _
  · exact List.forall_mem_singleton.2 rfl

theorem errors_glyphList (names : GlyphNames) : (s.glyphList names).Errors := by
  cases names with
  | one name =>
    rw [glyphList]
    split
    · exact s.errors_glyphClass _
    · exact (s.errors_glyph? name).map _
  | many names => exact errors_traverseSome s.errors_glyph? names

theorem errors_glyphSet (names : GlyphNames) : (s.glyphSet names).Errors :=
  (s.errors_glyphList names).map _

theorem errors_glyphSets (sets : List GlyphNames) : (s.glyphSets sets).Errors :=
  errors_traverse s.errors_glyphSet sets

theorem errors_glyphSet? (names : Option GlyphNames) : (s.glyphSet? names).Errors := by
  cases names with
  | none => exact errors_pure _
  | some names => exact (s.errors_glyphSet names).map _

theorem errors_token (names : GlyphNames) : (s.token names).Errors := by
  cases names with
  | one name =>
    rw [token]
    split
    · exact (s.errors_glyphClass _).map _
    · exact (s.errors_glyph? name).map _
  | many names => exact (s.errors_glyphSet _).map _

theorem errors_lookup? (ref : LookupRef) : (s.lookup? ref).Errors := by
  unfold lookup?
  dsimp only
  split
  · exact errors_pure _
  · exact List.forall_mem_singleton.2 rfl

theorem errors_tag? (text : String) : (tag? text).Errors := by
  unfold tag?
  split
  · exact errors_pure _
  · exact List.forall_mem_singleton.2 rfl

theorem errors_system? (system : String × String) : (system? system).Errors := by
  refine (errors_tag? system.1).bind ?_
  split
  · exact errors_pure _
  · exact (errors_tag? system.2).bind (errors_pure _)

theorem errors_contextInput (c : Document.ContextInput) : (s.contextInput c).Errors :=
  (s.errors_glyphSet c.glyphs).bind
    ((errors_traverseSome s.errors_lookup? c.lookups).bind (errors_pure _))

theorem errors_context (c : Document.Context) : (s.context c).Errors :=
  (s.errors_glyphSets c.backtrack).bind
    ((errors_traverse s.errors_contextInput c.input).bind
      ((s.errors_glyphSets c.lookahead).bind (errors_pure _)))

theorem errors_pairUp (targets replacements : List Glyph) :
    (pairUp targets replacements).Errors := by
  unfold pairUp
  split
  · exact errors_pure _
  · exact errors_pure _
  · exact errors_pure _
  · split
    · exact errors_pure _
    · exact List.forall_mem_singleton.2 rfl

theorem errors_substitutions (target replacement : GlyphNames) :
    (s.substitutions target replacement).Errors :=
  (s.errors_glyphList target).bind ((s.errors_glyphList replacement).bind (errors_pairUp _ _))

theorem errors_expand (body : Document.RuleBody) : (s.expand body).Errors := by
  cases body with
  | singleSub target replacement =>
    exact (s.errors_substitutions target replacement).bind (errors_pure _)
  | multipleSub target replacement =>
    refine (s.errors_glyph? target).bind
      ((errors_traverseAll s.errors_glyph? replacement).bind ?_)
    split <;> exact errors_pure _
  | alternateSub target alternates =>
    exact (s.errors_glyphList alternates).bind ((s.errors_glyph? target).bind (errors_pure _))
  | ligatureSub components replacement =>
    refine (errors_traverseAll s.errors_glyph? components).bind
      ((s.errors_glyph? replacement).bind ?_)
    split <;> exact errors_pure _
  | reverseChainSub backtrack target replacement lookahead =>
    refine (s.errors_substitutions target replacement).bind ?_
    split
    · exact errors_pure _
    · exact (s.errors_glyphSets backtrack).bind
        ((s.errors_glyphSets lookahead).bind (errors_pure _))
  | singlePos glyphs value => exact (s.errors_glyphSet glyphs).map _
  | pairPos first second value1 value2 =>
    exact (s.errors_token first).bind ((s.errors_token second).bind (errors_pure _))
  | cursivePos glyph entry exit => exact (s.errors_glyph? glyph).bind (errors_pure _)
  | markToBase base marks => exact (s.errors_glyphSet base).map _
  | markToLigature ligature components => exact (s.errors_glyphSet ligature).map _
  | markToMark baseMark marks => exact (s.errors_glyphSet baseMark).map _
  | chainSub context | chainPos context => exact (s.errors_context context).map _

/-- What is wrong with the names of a rule is an error. -/
theorem errors_rules (r : Document.Rule) : (s.rules r).Errors := (s.errors_expand r.body).map _

end Scope

/-! ## Documents -/

namespace Document
open Named (errors_pure errors_traverse errors_traverseSome level_of_mem_findingsAt)

/-- Whether all of some findings are errors. -/
def AllErrors (fs : List Finding) : Prop := ∀ f ∈ fs, f.level = .error

theorem allErrors_findingsAt {α : Type} {x : Named α} (h : x.Errors) (site : Site) :
    AllErrors (x.findingsAt site) := fun _ hf => level_of_mem_findingsAt h hf

theorem allErrors_classScope (d : Document) : AllErrors d.classScope.findings.reverse.flatten := by
  have hall : ∀ fs ∈ d.classScope.findings, AllErrors fs :=
    List.foldlRecOn (motive := fun s : ScopeState => ∀ fs ∈ s.findings, AllErrors fs) _ _
      (List.forall_mem_nil _) fun s h c _ => List.forall_mem_cons.2
        ⟨allErrors_findingsAt (s.scope.errors_glyphList c.2) _, h⟩
  intro f hf
  obtain ⟨fs, hfs, hf⟩ := List.mem_flatten.1 hf
  exact hall fs (List.mem_reverse.1 hfs) f hf

theorem errors_markMembers (s : Scope) (c : String × List MarkMember) :
    (markMembers s c).Errors := by
  refine Named.Errors.map (errors_traverse ?_ c.2) _
  exact fun m => (s.errors_glyphSet m.glyphs).map _

theorem Lookup.errors_frame (s : Scope) (l : Lookup) : (l.frame s).Errors :=
  (s.errors_glyphSet? l.markFilterSet).bind
    ((s.errors_glyphSet? l.markAttachment).bind (errors_pure _))

theorem allErrors_lookupFrames (d : Document) (s : Scope) :
    AllErrors (d.lookupFrames s).findings.reverse.flatten := by
  have hall : ∀ fs ∈ (d.lookupFrames s).findings, AllErrors fs := by
    refine List.foldlRecOn (motive := fun t : FrameState => ∀ fs ∈ t.findings, AllErrors fs) _ _
      (List.forall_mem_nil _) fun t h l _ => ?_
    refine List.forall_mem_cons.2 ⟨List.forall_mem_append.2
      ⟨allErrors_findingsAt (l.errors_frame s) _, ?_⟩, h⟩
    split
    · split
      · exact List.forall_mem_singleton.2 rfl
      · exact List.forall_mem_nil _
    · exact List.forall_mem_nil _
  intro f hf
  obtain ⟨fs, hfs, hf⟩ := List.mem_flatten.1 hf
  exact hall fs (List.mem_reverse.1 hfs) f hf

theorem Feature.allErrors_resolve (s : Scope) (f : Feature) : AllErrors (f.resolve s).2 := by
  unfold Feature.resolve
  dsimp only
  split
  · exact allErrors_findingsAt (Scope.errors_tag? f.tag) _
  · exact List.forall_mem_append.2
      ⟨allErrors_findingsAt (errors_traverseSome Scope.errors_system? f.languageSystems) _,
        allErrors_findingsAt (errors_traverseSome s.errors_lookup? f.lookups) _⟩

theorem GlyphFacts.errors_resolveClasses (s : Scope) (f : GlyphFacts) :
    (f.resolveClasses s).Errors := by
  unfold GlyphFacts.resolveClasses
  split
  · exact errors_pure _
  · next c _ =>
    exact Named.Errors.map ((s.errors_glyphSet c.base).bind ((s.errors_glyphSet c.ligature).bind
      ((s.errors_glyphSet c.mark).bind ((s.errors_glyphSet c.component).bind
        (errors_pure _))))) _

/-- Whatever is found in a document is an error. -/
theorem level_of_mem_audit (d : Document) : AllErrors d.audit.2 := by
  have hrules (s : Scope) (l : Lookup) : AllErrors (l.resolveRules s).2 :=
    List.forall_mem_flatMap.2 fun r hr => by
      obtain ⟨r, -, rfl⟩ := List.mem_map.1 hr
      exact allErrors_findingsAt (s.errors_rules r) _
  simp only [audit, AllErrors, List.forall_mem_append, List.forall_mem_flatMap,
    List.forall_mem_map]
  refine ⟨⟨⟨⟨⟨⟨⟨?_, ?_⟩, ?_⟩, ?_⟩, ?_⟩, ?_⟩, ?_⟩, ?_⟩
  · exact fun f hf => level_of_mem_glyphOrderFindings hf
  · exact allErrors_classScope d
  · exact allErrors_findingsAt (errors_traverse (errors_markMembers _) _) _
  · exact allErrors_lookupFrames d _
  · exact fun l _ => hrules _ l
  · exact fun f _ => Feature.allErrors_resolve _ f
  · exact allErrors_findingsAt (GlyphFacts.errors_resolveClasses _ _) _
  · exact fun c _ => allErrors_findingsAt ((Scope.errors_glyph? _ c.glyph).map _) _

/-- How many errors the outcome of resolving a document reports. -/
def errorCount (d : Document) : Nat :=
  match d.resolve with
  | .ok _ => 0
  | .error report => report.count .error

theorem hasErrors_iff_findings (d : Document) :
    (reportOf d.fontName d.glyphs messageLimit d.audit.2).hasErrors = true ↔ d.audit.2 ≠ [] := by
  rw [Report.hasErrors, reportOf, List.any_map]
  have hall := level_of_mem_audit d
  cases h : d.audit.2 with
  | nil => simp
  | cons f fs =>
    rw [h] at hall
    have hlevel : f.level = .error := hall f List.mem_cons_self
    simp [Diagnostic.isError, hlevel, Level.isError]

/-- A document resolves exactly if nothing is found, and then to what the audit made of it. -/
theorem resolve_eq_ok_iff {d : Document} {r : RuleSet × GlyphOrder} :
    d.resolve = .ok r ↔ d.audit.2 = [] ∧ r = (d.audit.1, d.glyphs) := by
  unfold resolve
  dsimp only
  split
  · next h => simp [(hasErrors_iff_findings d).1 h]
  · next h =>
    have hnil : d.audit.2 = [] := by
      by_contra hne
      exact h ((hasErrors_iff_findings d).2 hne)
    simp [hnil, eq_comm]

/-- Every finding is counted. -/
theorem errorCount_eq (d : Document) : d.errorCount = d.audit.2.length := by
  unfold errorCount resolve
  dsimp only
  split
  · next h =>
    split at h
    · cases h
    · next hnone =>
      have hnil : d.audit.2 = [] := by
        by_contra hne
        exact hnone ((hasErrors_iff_findings d).2 hne)
      rw [hnil, List.length_nil]
  · next report h =>
    split at h
    · cases h
      rw [Report.count, reportOf, List.countP_map, List.countP_eq_length]
      intro f hf
      simp [level_of_mem_audit d f hf]
    · cases h

end Document
end FontLayout
