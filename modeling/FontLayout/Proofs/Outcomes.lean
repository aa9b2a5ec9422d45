import FontLayout.Compilation
import FontLayout.Proofs.Diagnostic.Audits
import FontLayout.Proofs.Lookup.Survey
import FontLayout.Proofs.Lookup.Validation
/-!
# Outcomes

Whatever the rule set, compiling it has one of three outcomes, and the messages tell which. The
work stops exactly if a fatal finding is made, and that is the last message. Otherwise it fails
exactly if there are errors. Messages come in the order of the work: of the rule set as a whole,
of its lookups one by one, and of its tables one by one.

Results:
* `sound_resolveLookup`, `sound_assembleTable`, `sound_assemble_gdef`: every part of the work
  stops at a fatal finding and at nothing else.
* `findings_auditRules`: the order of all findings.
* `outcome_compile`: what each outcome says about the messages.
-/
namespace FontLayout

theorem harmless_reverse {fs : List Finding} : Harmless fs.reverse ↔ Harmless fs := by
  simp [Harmless]

/-! ## Validation -/

theorem level_of_mem_cursiveFindings {place : LookupPlace} {rules : List Rule} {f : Finding}
    (hf : f ∈ cursiveFindings place rules) : f.level = .error := by
  have hall : ∀ f ∈ (rules.foldl (cursiveStep place) (∅, [])).2, f.level = .error := by
    refine List.foldlRecOn (motive := fun s : Std.TreeSet Glyph × List Finding =>
      ∀ f ∈ s.2, f.level = .error) rules _ ?_ fun s h r _ => ?_
    · simp
    · unfold cursiveStep
      split
      · split
        · exact List.forall_mem_cons.2 ⟨rfl, h⟩
        · exact h
      · exact h
  exact hall f (List.mem_reverse.1 hf)

theorem level_of_mem_markFindings {defined : List MarkClass} {place : LookupPlace}
    {rules : List Rule} {f : Finding} (hf : f ∈ markFindings defined place rules) :
    f.level = .error := by
  rcases List.mem_append.1 hf with hf | hf
  · obtain ⟨x, -, rfl⟩ := List.mem_map.1 hf
    rfl
  · exact (isMarkConflict_of_mem_gatherMarks hf).level_eq

theorem level_of_mem_ligatureFindings {place : LookupPlace} {marks : MarkSet}
    {rules : List Rule} {f : Finding} (hf : f ∈ ligatureFindings place marks rules) :
    f.level = .error := by
  have hall : ∀ f ∈ ((componentAnchors marks rules).foldl (componentStep place) (∅, [])).2,
      f.level = .error := by
    refine List.foldlRecOn (motive := fun s : Std.TreeMap (List Nat) Nat × List Finding =>
      ∀ f ∈ s.2, f.level = .error) _ _ ?_ fun s h a _ => ?_
    · simp
    · obtain ⟨-, hstep⟩ | ⟨-, f, hf, hstep⟩ := componentStep_cases place s a <;> rw [hstep]
      · exact h
      · exact List.forall_mem_cons.2 ⟨hf, h⟩
  exact hall f (List.mem_reverse.1 hf)

theorem level_of_mem_missingAnchors {kind : Kind} {place : LookupPlace} {marks : MarkSet}
    {s : BaseCheck} {f : Finding} (hf : f ∈ missingAnchors kind place marks s) :
    f.level = .warning := by
  obtain ⟨g, -, hf⟩ := List.mem_flatMap.1 hf
  obtain ⟨⟨n, i⟩, -, hx⟩ := List.mem_filterMap.1 hf
  dsimp only at hx
  split at hx
  · cases hx
  · cases hx
    rfl

theorem harmless_baseFindings (kind : Kind) (place : LookupPlace) (marks : MarkSet)
    (rules : List Rule) : Harmless (baseFindings kind place marks rules) := by
  rw [baseFindings_eq]
  refine harmless_append.2 ⟨harmless_reverse.2 (harmless_of_error fun f hf => ?_), fun f hf => ?_⟩
  · obtain ⟨g, n, h⟩ := BaseCheck.exists_of_mem_findings (by simp) f hf
    exact congrArg Cause.level h
  · rw [level_of_mem_missingAnchors hf]
    decide

theorem harmless_anchorFindings (kind : Kind) (place : LookupPlace) (marks : MarkSet)
    (rules : List Rule) : Harmless (anchorFindings kind place marks rules) := by
  unfold anchorFindings
  split
  · exact harmless_of_error fun f => level_of_mem_ligatureFindings
  · exact harmless_baseFindings _ place marks rules

/-- Validation comes to an end with nothing fatal, whatever the rules. -/
theorem exists_validateLookup (kind : Kind) (defined : List MarkClass) (place : LookupPlace)
    (rules : List Rule) : ∃ fs marks, validateLookup kind defined place rules = .tell fs marks ∧
      Harmless fs := by
  by_cases hkind : kind ∈ Kind.attaching
  · refine ⟨_, _, validateLookup_eq hkind defined place rules, harmless_append.2
      ⟨harmless_of_error fun f => level_of_mem_markFindings, harmless_anchorFindings _ _ _ _⟩⟩
  · cases kind with
    | markToBase | markToMark | markToLigature => exact (hkind (by decide)).elim
    | cursivePos => exact ⟨_, _, rfl, harmless_of_error fun f => level_of_mem_cursiveFindings⟩
    | _ => exact ⟨_, _, rfl, harmless_nil⟩

theorem sound_validateLookup (kind : Kind) (defined : List MarkClass) (place : LookupPlace)
    (rules : List Rule) : (validateLookup kind defined place rules).Sound := by
  obtain ⟨fs, marks, h, hfs⟩ := exists_validateLookup kind defined place rules
  rw [h]
  exact Audit.sound_tell hfs marks

theorem sound_resolveLookup (defined : List MarkClass) (l : Lookup × LookupPlace) :
    (resolveLookup defined l).Sound := by
  refine (sound_distinctRules l.1 l.2).bind fun rules _ => ?_
  exact (sound_validateLookup ..).bind fun marks _ => Audit.sound_pure _

/-! ## Tables -/

section
variable {t : TableInput} {o : Options}

theorem TableInput.sound_layOut {scripts : ScriptList} {features : FeatureList}
    {as : List Attempt} : (t.layOut o scripts features as).Sound := by
  fun_induction layOut t o scripts features as with
  | case1 => exact Audit.sound_pure _
  | case6 as overflow _ i _ a ha hmay b hb ih => exact ih
  | _ => exact Audit.sound_stop rfl

theorem TableInput.sound_assemble : (t.assemble o).Sound := by
  refine (Audit.sound_traverse fun l _ => ?_).bind fun as _ => sound_layOut
  refine Audit.sound_tell (fun f hf => ?_) _
  rw [List.eq_of_mem_replicate hf]
  simp [Finding.level, Cause.level]

theorem sound_assembleTable (wanted : Bool) (input : TableInput) :
    (assembleTable o wanted input).Sound := by
  unfold assembleTable
  split
  · exact TableInput.sound_assemble.map some
  · exact Audit.sound_pure none

end

theorem harmless_caretFindings (carets : List LigatureCaret) :
    Harmless (caretFindings carets) := by
  have hall : Harmless (carets.foldl caretStep (∅, [])).2 := by
    refine List.foldlRecOn (motive := fun s : Std.TreeSet Glyph × List Finding =>
      Harmless s.2) carets _ ?_ fun s h c _ => ?_
    · exact harmless_nil
    · unfold caretStep
      split
      · exact List.forall_mem_cons.2 ⟨by simp [Finding.level, Cause.level], h⟩
      · exact h
  exact harmless_reverse.2 hall

theorem sound_assemble_gdef (s : RuleSet) (ids : MarkIds) :
    (GlyphDefinition.assemble s ids).Sound := by
  refine (Audit.sound_tell (harmless_caretFindings _) ()).bind fun _ _ => ?_
  split
  · exact Audit.sound_pure none
  · split
    · exact Audit.sound_pure _
    · exact Audit.sound_stop rfl

/-! ## The order of findings -/

/-- What is found when lookups are resolved in order: first what repeats or contradicts itself in
a lookup and then, unless that cannot be mended, what validation finds in it. After a lookup that
cannot be mended, no other is looked at. -/
def resolutionFindings (defined : List MarkClass) : List (Lookup × LookupPlace) → List Finding
  | [] => []
  | l :: rest =>
    (distinctRules l.1 l.2).findings ++ (distinctRules l.1 l.2).value.elim [] fun rules =>
      (validateLookup l.1.kind defined l.2 rules).findings ++ resolutionFindings defined rest

/-- The audits that make the tables of a rule set, in order, once its lookups are resolved. -/
def tableAudits (s : RuleSet) (o : Options) (resolved : List ResolvedLookup) :
    List (Audit (Option ByteArray)) :=
  let ids := MarkIds.ofLookups s.lookups
  [assembleTable o o.gsub (tableInput s ids resolved .substitution),
    assembleTable o o.gpos (tableInput s ids resolved .positioning),
    if o.gdef then GlyphDefinition.assemble s ids else .pure none]

theorem foundInOrder_resolveLookup (defined : List MarkClass) (ls : List (Lookup × LookupPlace)) :
    Audit.foundInOrder (ls.map (resolveLookup defined)) = resolutionFindings defined ls := by
  induction ls with
  | nil => rfl
  | cons l ls ih =>
    rw [List.map_cons, Audit.foundInOrder, resolutionFindings, ih, resolveLookup,
      Audit.findings_bind, Audit.value_bind]
    cases (distinctRules l.1 l.2).value with
    | none => simp
    | some rules =>
      obtain ⟨fs, marks, h, -⟩ := exists_validateLookup l.1.kind defined l.2 rules
      simp [h, Audit.tell, Audit.findings_bind, Audit.value_bind, Audit.pure]

section
variable {s : RuleSet} {o : Options}

/-- The order of all findings. -/
theorem findings_auditRules : (auditRules s o).findings =
    surveyFindings s ++ (resolutionFindings s.markClasses (s.lookups.zip s.lookupPlaces) ++
      (resolveLookups s).value.elim [] fun resolved =>
        Audit.foundInOrder (tableAudits s o resolved)) := by
  rw [auditRules, Audit.findings_bind, Audit.findings_bind, ← foundInOrder_resolveLookup,
    ← Audit.findings_traverse, ← resolveLookups]
  change surveyFindings s ++ (_ ++ Option.elim _ [] _) = _
  congr 3
  funext resolved
  simp only [tableAudits, Audit.findings_bind, Audit.foundInOrder]
  split <;> simp [Audit.findings_bind, Audit.pure]

theorem sound_auditRules : (auditRules s o).Sound := by
  refine (Audit.sound_tell (harmless_of_error fun f => level_of_mem_surveyFindings) ()).bind
    fun _ _ => ?_
  refine (Audit.sound_traverse fun l _ => sound_resolveLookup _ l).bind fun resolved _ => ?_
  refine (sound_assembleTable _ _).bind fun gsub _ => ?_
  refine (sound_assembleTable _ _).bind fun gpos _ => ?_
  dsimp only
  split
  · exact (sound_assemble_gdef _ _).bind fun gdef _ => Audit.sound_pure _
  · exact (Audit.sound_pure none).bind fun gdef _ => Audit.sound_pure _

end

/-! ## Outcomes -/

/-- The report that comes with an outcome. -/
def outcomeReport : Except Failure Compilation → Report
  | .ok c => c.report
  | .error failure => failure.report

/-- What an outcome promises about the messages that come with it. -/
def KeepsPromise : Except Failure Compilation → Prop
  | .ok c => ∀ d ∈ c.report.messages, d.level ≠ .error ∧ d.level ≠ .fatal
  | .error (.errors report) =>
    (∃ d ∈ report.messages, d.level = .error) ∧ ∀ d ∈ report.messages, d.level ≠ .fatal
  | .error (.stopped report) =>
    ∃ before last, report.messages = before ++ [last] ∧ last.level = .fatal ∧
      ∀ d ∈ before, d.level ≠ .fatal

theorem outcomeReport_compile (s : RuleSet) (glyphs : GlyphOrder) (o : Options) :
    outcomeReport (compile s glyphs o) =
      reportOf s.fontName glyphs o.maxMessages (auditRules s o).findings := by
  unfold compile
  dsimp only
  split
  · rfl
  · split <;> rfl

theorem keepsPromise_compile (s : RuleSet) (glyphs : GlyphOrder) (o : Options) :
    KeepsPromise (compile s glyphs o) := by
  have hsound : (auditRules s o).Sound := sound_auditRules
  unfold Audit.Sound at hsound
  unfold compile
  dsimp only
  split
  · next hvalue =>
    rw [hvalue] at hsound
    obtain ⟨before, last, he, hbefore, hlast⟩ := hsound
    refine ⟨before.map (Finding.diagnose s.fontName glyphs), last.diagnose s.fontName glyphs, ?_,
      hlast, ?_⟩
    · rw [reportOf, he, List.map_append, List.map_singleton]
    · exact List.forall_mem_map.2 hbefore
  · next tables hvalue =>
    rw [hvalue] at hsound
    have hharmless : ∀ d ∈ (reportOf s.fontName glyphs o.maxMessages
        (auditRules s o).findings).messages, d.level ≠ .fatal := List.forall_mem_map.2 hsound
    split
    · next herrors =>
      obtain ⟨d, hd, hlevel⟩ := List.any_eq_true.1 herrors
      refine ⟨⟨d, hd, ?_⟩, hharmless⟩
      have hfatal := hharmless d hd
      cases hl : d.level <;> simp_all [Diagnostic.isError, Level.isError]
    · next hclear =>
      intro d hd
      refine ⟨fun herror => hclear (List.any_eq_true.2 ⟨d, hd, ?_⟩), hharmless d hd⟩
      rw [Diagnostic.isError, herror]
      rfl

/-- If a rule set is compiled, nothing that is found is an error. -/
theorem passes_compile {s : RuleSet} {glyphs : GlyphOrder} {o : Options} {c : Compilation}
    (h : compile s glyphs o = .ok c) : (auditRules s o).Passes c.tables := by
  have hpromise := keepsPromise_compile s glyphs o
  have hreport := outcomeReport_compile s glyphs o
  rw [h, outcomeReport] at hreport
  rw [h, KeepsPromise, hreport, reportOf, List.forall_mem_map] at hpromise
  refine ⟨?_, fun f hf => (hpromise f hf).1⟩
  unfold compile at h
  dsimp only at h
  split at h
  · cases h
  · next tables htables =>
    split at h
    · cases h
    · cases h
      exact htables

/-- Whatever is found in a rule set as a whole is an error, so nothing is if it is compiled. -/
theorem surveyFindings_of_compile {s : RuleSet} {glyphs : GlyphOrder} {o : Options}
    {c : Compilation} (h : compile s glyphs o = .ok c) : surveyFindings s = [] := by
  obtain ⟨_, hsurvey, -⟩ := Audit.passes_bind.1 (passes_compile h)
  exact List.eq_nil_iff_forall_not_mem.2 fun f hf =>
    hsurvey.2 f hf (level_of_mem_surveyFindings hf)

/-- **Outcomes.** Tables come with no error and nothing fatal, a failure with some error and nothing
fatal, and a stop with one fatal message, which is the last. In each case, the messages are in
order: those about the rule set as a whole; those about each lookup, up to and with the first that
cannot be mended; and if there is none, those about the substitution table, the positioning table
and the glyph definition table, up to and with the first that is fatal. -/
theorem outcome_compile (s : RuleSet) (glyphs : GlyphOrder) (o : Options) :
    KeepsPromise (compile s glyphs o) ∧
      (outcomeReport (compile s glyphs o)).messages =
        (surveyFindings s ++ (resolutionFindings s.markClasses (s.lookups.zip s.lookupPlaces) ++
          (resolveLookups s).value.elim [] fun resolved =>
            Audit.foundInOrder (tableAudits s o resolved))).map
              (Finding.diagnose s.fontName glyphs) := by
  refine ⟨keepsPromise_compile s glyphs o, ?_⟩
  rw [outcomeReport_compile, reportOf, findings_auditRules]

end FontLayout
