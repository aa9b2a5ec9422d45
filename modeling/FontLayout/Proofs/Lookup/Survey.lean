import FontLayout.Lookup.Validation
/-!
# What is found in a rule set as a whole

Whatever looking across lookups finds, it comes from one lookup, from one reference of a rule, from
one feature, or from the number of attachment classes.

Results:
* `foundIn_of_mem_surveyFindings`: where findings come from.
* `level_of_mem_surveyFindings`: they are all errors.
* `not_isMissingLookup_of_mem_surveyFindings`: none is about a missing lookup if none is missing.
-/
namespace FontLayout

/-- Where a finding in a rule set as a whole comes from. -/
inductive FoundIn (s : RuleSet) : Finding → Prop
  | overlap (l : Lookup) (other : String) :
      FoundIn s ⟨l.ownPlace.site, .overlappingAttachment l.nameInMessages other⟩
  | filterSet (l : Lookup) : FoundIn s ⟨l.ownPlace.site, .missingFilterSet l.ownPlace⟩
  | missing {l : Lookup} {r : Rule} {i : Nat} (hl : l ∈ s.lookups) (hr : r ∈ l.rules)
      (hi : i ∈ r.body.references) (hmissing : s.lookups.length ≤ i) :
      FoundIn s ⟨l.ownPlace.siteAt r.line, .missingLookup l.ownPlace⟩
  | foreign (l other : Lookup) (r : Rule) :
      FoundIn s ⟨l.ownPlace.siteAt r.line, .foreignLookup l.ownPlace other.nameInMessages⟩
  | tooMany (count : Nat) : FoundIn s ⟨.unknown, .tooManyAttachments count⟩
  | feature {x : Feature} {i : Nat} (hx : x ∈ s.features) (hi : i ∈ x.lookups)
      (hmissing : s.lookups.length ≤ i) :
      FoundIn s ⟨⟨some x.tag, none, none⟩, .featureMissingLookup x.tag⟩

variable {s : RuleSet}

theorem foundIn_of_referenceCause? {l : Lookup} {r : Rule} {i : Nat} {cause : Cause}
    (hl : l ∈ s.lookups) (hr : r ∈ l.rules) (hi : i ∈ r.body.references)
    (h : referenceCause? s.lookups.toArray l i = some cause) :
    FoundIn s ⟨l.ownPlace.siteAt r.line, cause⟩ := by
  unfold referenceCause? at h
  split at h
  · next hnone =>
    rw [List.getElem?_toArray, List.getElem?_eq_none_iff] at hnone
    cases h
    exact .missing hl hr hi hnone
  · split at h
    · cases h
      exact .foreign l _ r
    · cases h

/-- What one more lookup adds to the findings. -/
theorem foundIn_step {v : Survey} {l : Lookup} (hl : l ∈ s.lookups)
    (h : ∀ fs ∈ v.findings, ∀ f ∈ fs, FoundIn s f) :
    ∀ fs ∈ (v.step s.lookups.toArray l).findings, ∀ f ∈ fs, FoundIn s f := by
  refine List.forall_mem_cons.2 ⟨fun f hf => ?_, h⟩
  simp only [List.mem_append] at hf
  rcases hf with (hf | hf) | hf
  · unfold attachmentFindings at hf
    split at hf
    · cases hf
    · rw [List.mem_singleton.1 hf]
      exact .overlap l _
  · unfold filterSetFindings at hf
    split at hf
    · rw [List.mem_singleton.1 hf]
      exact .filterSet l
    · cases hf
  · obtain ⟨r, hr, hf⟩ := List.mem_flatMap.1 hf
    obtain ⟨cause, hcause, rfl⟩ := List.mem_map.1 hf
    obtain ⟨i, hi, hcause⟩ := List.mem_filterMap.1 hcause
    exact foundIn_of_referenceCause? hl hr hi hcause

theorem foundIn_of_mem_surveyFindings {f : Finding} (hf : f ∈ surveyFindings s) :
    FoundIn s f := by
  have hlookups : ∀ fs ∈ (s.lookups.foldl (Survey.step s.lookups.toArray) ⟨[], []⟩).findings,
      ∀ f ∈ fs, FoundIn s f :=
    List.foldlRecOn (motive := fun v : Survey => ∀ fs ∈ v.findings, ∀ f ∈ fs, FoundIn s f)
      s.lookups _ (by simp) fun v hv l hl => foundIn_step hl hv
  simp only [surveyFindings, List.mem_append] at hf
  rcases hf with (hf | hf) | hf
  · obtain ⟨fs, hfs, hf⟩ := List.mem_flatten.1 hf
    exact hlookups fs (List.mem_reverse.1 hfs) f hf
  · split at hf
    · rw [List.mem_singleton.1 hf]
      exact .tooMany _
    · cases hf
  · obtain ⟨x, hx, rfl⟩ := List.mem_map.1 hf
    obtain ⟨hx, hany⟩ := List.mem_filter.1 hx
    obtain ⟨i, hi, hmissing⟩ := List.any_eq_true.1 hany
    exact .feature hx hi (of_decide_eq_true hmissing)

theorem level_of_mem_surveyFindings {f : Finding} (hf : f ∈ surveyFindings s) :
    f.level = .error := by
  cases foundIn_of_mem_surveyFindings hf <;> rfl

/-! ## Missing lookups -/

/-- Whether a cause is that a lookup is referred to and does not exist. -/
def Cause.IsMissingLookup : Cause → Prop
  | .missingLookup _ | .featureMissingLookup _ => True
  | _ => False

/-- If the features and rules of a rule set refer only to lookups that are there, none is found
missing. -/
theorem not_isMissingLookup_of_mem_surveyFindings
    (hfeatures : ∀ x ∈ s.features, ∀ i ∈ x.lookups, i < s.lookups.length)
    (hrules : ∀ l ∈ s.lookups, ∀ r ∈ l.rules, ∀ i ∈ r.body.references, i < s.lookups.length)
    {f : Finding} (hf : f ∈ surveyFindings s) : ¬ f.cause.IsMissingLookup := by
  cases foundIn_of_mem_surveyFindings hf with
  | missing hl hr hi hmissing => exact absurd (hrules _ hl _ hr _ hi) (Nat.not_lt.2 hmissing)
  | feature hx hi hmissing => exact absurd (hfeatures _ hx _ hi) (Nat.not_lt.2 hmissing)
  | _ => exact id

end FontLayout
