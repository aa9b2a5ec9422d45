import FontLayout.Proofs.Lookup.Anchors
/-!
# What validation finds in a lookup that attaches marks

Such a lookup always gets its marks, whatever is found. Without errors, all classes that its rules
name are defined, and all rules give a component the same anchor for a class, so it does not matter
whether the first or the last of them counts. Warnings tell which bases are given an anchor for
some class but not for all of them.

Results:
* `validateLookup_eq`: what is found, in order, and the marks.
* `exists_class_of_markFindings`: without errors, the marks are what the classes say.
* `eq_of_mem_anchorsOf`: without errors, a component has one anchor for each class.
* `mem_missingPairs_iff`: which anchors are reported as missing.
-/
namespace FontLayout

/-! ## Findings and marks -/

/-- The kinds of lookup that attach marks. -/
def Kind.attaching : List Kind := [.markToBase, .markToMark, .markToLigature]

theorem Kind.mem_attaching {kind : Kind} (h : kind = .markToBase ∨ kind = .markToMark) :
    kind ∈ attaching := by
  rcases h with rfl | rfl <;> decide

theorem Kind.ne_markToLigature {kind : Kind} (h : kind = .markToBase ∨ kind = .markToMark) :
    kind ≠ .markToLigature := by
  rcases h with rfl | rfl <;> decide

section
variable {kind : Kind} {defined : List MarkClass} {place : LookupPlace} {rules : List Rule}

/-- The marks of a lookup, whatever is found about them. -/
def marksOf (defined : List MarkClass) (place : LookupPlace) (rules : List Rule) : MarkSet :=
  let classes := usedClasses defined rules
  ⟨classes.map MarkClass.name, .ofTree (gatherMarks classes place).marks⟩

/-- What is found about the marks of a lookup. -/
def markFindings (defined : List MarkClass) (place : LookupPlace) (rules : List Rule) :
    List Finding :=
  undefinedClasses defined place rules ++ (gatherMarks (usedClasses defined rules) place).findings

/-- What is found about the anchors that a kind of lookup gives. -/
def anchorFindings (kind : Kind) (place : LookupPlace) (marks : MarkSet) (rules : List Rule) :
    List Finding :=
  match kind with
  | .markToLigature => ligatureFindings place marks rules
  | _ => baseFindings kind place marks rules

/-- A lookup that attaches marks always gets its marks. -/
theorem validateLookup_eq (hkind : kind ∈ Kind.attaching) (defined : List MarkClass)
    (place : LookupPlace) (rules : List Rule) :
    validateLookup kind defined place rules =
      ⟨markFindings defined place rules ++
          anchorFindings kind place (marksOf defined place rules) rules,
        some (some (marksOf defined place rules))⟩ := by
  simp only [Kind.attaching, List.mem_cons, List.not_mem_nil, or_false] at hkind
  rcases hkind with rfl | rfl | rfl <;> rfl

theorem length_classes_marksOf_le (defined : List MarkClass) (place : LookupPlace)
    (rules : List Rule) :
    (marksOf defined place rules).classes.length ≤ (markNames rules).dedup.length := by
  refine (nodup_names_usedClasses defined rules).length_le_of_subset fun n hn => ?_
  rw [map_name_usedClasses] at hn
  rw [List.mem_dedup, ← List.mem_eraseDups]
  exact (List.mem_filter.1 hn).1

/-- Without errors, a class that rules name is defined. It has a number, if a word has one for
each, and all its glyphs are marks with this number and the anchors that the class gives them. -/
theorem exists_class_of_markFindings
    (hclear : ∀ f ∈ markFindings defined place rules, f.level ≠ .error)
    (hcount : (markNames rules).dedup.length ≤ 0xFFFF) {n : String} (hn : n ∈ markNames rules) :
    ∃ c id, defined.find? (·.name == n) = some c ∧
      (marksOf defined place rules).classes[UInt16.toNat id]? = some n ∧
      ∀ glyphs anchor, (glyphs, anchor) ∈ c.members → ∀ g ∈ glyphs,
        (marksOf defined place rules).marks.find? g = some (id, anchor) := by
  obtain ⟨c, hc⟩ := exists_of_undefinedClasses
    (fun f hf => hclear f (List.mem_append_left _ hf)) hn
  obtain ⟨i, hi⟩ := List.mem_iff_getElem?.1 (mem_usedClasses hn hc)
  have hname : c.name = n := by simpa using List.find?_some hc
  have hclass : (marksOf defined place rules).classes[i]? = some n := by
    rw [marksOf, List.getElem?_map, hi, Option.map_some, hname]
  have hword : (UInt16.ofNat i).toNat = i := by
    have hlt := (List.getElem?_eq_some_iff.1 hclass).1
    have hle := length_classes_marksOf_le defined place rules
    rw [UInt16.toNat_ofNat']
    omega
  refine ⟨c, UInt16.ofNat i, hc, by rw [hword, hclass], fun glyphs anchor hm g hg => ?_⟩
  rw [marksOf, ByGlyph.find?_ofTree]
  exact getElem?_gatherMarks (fun f hf => hclear f (List.mem_append_right _ hf)) hi hm hg

/-- Without errors, a component has one anchor for each class. -/
theorem eq_of_mem_anchorsOf {marks : MarkSet} (hkind : kind ∈ Kind.attaching)
    (hrules : ∀ r ∈ rules, r.body.kind = kind)
    (hclear : ∀ f ∈ anchorFindings kind place marks rules, f.level ≠ .error) {g : Glyph} {k : Nat}
    {id : UInt16} {a b : Anchor} (ha : (id, a) ∈ anchorsOf marks rules g k)
    (hb : (id, b) ∈ anchorsOf marks rules g k) : a = b := by
  by_cases hligature : kind = .markToLigature
  · subst hligature
    have hnodup : ((componentAnchors marks rules).map ComponentAnchor.slot).Nodup :=
      (nodup_slots_of_clear fun f hf => hclear f (List.mem_reverse.2 hf)).1
    have hslots := hnodup.sublist (sublist_slots hrules g k)
    exact congrArg Prod.snd (List.inj_on_of_nodup_map hslots ha hb rfl)
  · have hbases : ∀ r ∈ rules, r.body.kind ≠ .markToLigature := fun r hr => hrules r hr ▸ hligature
    have hclear : ∀ f ∈ baseFindings kind place marks rules, f.level ≠ .error := by
      unfold anchorFindings at hclear
      split at hclear
      · exact absurd rfl hligature
      · exact hclear
    obtain rfl := eq_zero_of_mem_anchorsOf hbases ha
    obtain ⟨x, hx, rfl, rfl, rfl⟩ := (exists_baseAnchor_iff hbases).2 ha
    obtain ⟨y, hy, hglyph, hid, rfl⟩ := (exists_baseAnchor_iff hbases).2 hb
    exact anchor_eq_of_baseFindings hclear hx hy hglyph.symm hid.symm

/-! ## Missing anchors -/

/-- The base and the class of a finding that says that an anchor is missing. -/
def Finding.missing? (f : Finding) : Option (Glyph × String) :=
  match f.cause with
  | .baseWithoutAnchor _ _ g n => some (g, n)
  | _ => none

/-- The bases and the classes of which findings say that an anchor is missing, in order. -/
def missingPairs (fs : List Finding) : List (Glyph × String) := fs.filterMap Finding.missing?

theorem missingPairs_eq_nil {fs : List Finding} (h : ∀ f ∈ fs, f.missing? = none) :
    missingPairs fs = [] := List.filterMap_eq_nil_iff.2 h

theorem missingPairs_markFindings (defined : List MarkClass) (place : LookupPlace)
    (rules : List Rule) : missingPairs (markFindings defined place rules) = [] := by
  refine missingPairs_eq_nil fun f hf => ?_
  rcases List.mem_append.1 hf with hf | hf
  · obtain ⟨x, -, rfl⟩ := List.mem_map.1 hf
    rfl
  · obtain ⟨_, _, _, h | ⟨_, h⟩⟩ := isMarkConflict_of_mem_gatherMarks hf <;>
      simp [Finding.missing?, h]

theorem missingPairs_missingAnchors (kind : Kind) (place : LookupPlace) (marks : MarkSet)
    (s : BaseCheck) :
    missingPairs (missingAnchors kind place marks s) =
      s.bases.reverse.flatMap fun g => (marks.classes.zipIdx.filter fun x =>
        (s.found? g (UInt16.ofNat x.2)).isNone).map fun x => (g, x.1) := by
  rw [missingPairs, missingAnchors, List.filterMap_flatMap]
  congr 1
  funext g
  rw [List.filterMap_filterMap, ← List.filterMap_eq_map, List.filterMap_filter]
  congr 1
  funext ⟨n, i⟩
  have hcontains : (s.anchors.getD g ∅).contains (UInt16.ofNat i) =
      (s.found? g (UInt16.ofNat i)).isSome := Std.TreeMap.contains_eq_isSome_getElem?
  cases hfound : s.found? g (UInt16.ofNat i) <;> simp [hcontains, hfound, Finding.missing?]

section
variable (hkind : kind = .markToBase ∨ kind = .markToMark)

include hkind

theorem missingPairs_validateLookup :
    missingPairs (validateLookup kind defined place rules).findings =
      missingPairs (missingAnchors kind place (marksOf defined place rules) (.ofAnchors kind place
        (baseAnchors (marksOf defined place rules) rules))) := by
  have hanchors : anchorFindings kind place (marksOf defined place rules) rules =
      baseFindings kind place (marksOf defined place rules) rules := by
    rcases hkind with rfl | rfl <;> rfl
  have hcheck : missingPairs (BaseCheck.ofAnchors kind place (baseAnchors
      (marksOf defined place rules) rules)).findings.reverse = [] := by
    refine missingPairs_eq_nil fun f hf => ?_
    obtain ⟨g, n, h⟩ := BaseCheck.exists_of_mem_findings (by simp) f (List.mem_reverse.1 hf)
    simp [Finding.missing?, h]
  rw [validateLookup_eq (Kind.mem_attaching hkind), hanchors, baseFindings_eq]
  unfold missingPairs at hcheck ⊢
  rw [List.filterMap_append, List.filterMap_append, hcheck, ← missingPairs,
    missingPairs_markFindings, List.nil_append, List.nil_append]

/-- No missing anchor is reported twice. -/
theorem nodup_missingPairs :
    (missingPairs (validateLookup kind defined place rules).findings).Nodup := by
  rw [missingPairs_validateLookup hkind, missingPairs_missingAnchors, List.nodup_flatMap]
  refine ⟨fun g _ => ?_, ?_⟩
  · have hnames : ((marksOf defined place rules).classes.zipIdx.map Prod.fst).Nodup := by
      rw [List.zipIdx_map_fst]
      exact nodup_names_usedClasses defined rules
    refine ((List.pairwise_map.1 hnames).filter _).map _ ?_
    intro x y hne he
    exact hne (congrArg Prod.snd he)
  · have hbases := List.nodup_reverse.2 (BaseCheck.listed_ofAnchors kind place
      (baseAnchors (marksOf defined place rules) rules)).nodup
    refine hbases.imp ?_
    intro g g' hne x hx hx'
    obtain ⟨_, -, rfl⟩ := List.mem_map.1 hx
    obtain ⟨_, -, he⟩ := List.mem_map.1 hx'
    exact hne (congrArg Prod.fst he).symm

/-- A missing anchor is reported for each base that rules give an anchor, and each class of the
lookup that they give it none for. -/
theorem mem_missingPairs_iff (hrules : ∀ r ∈ rules, r.body.kind = kind) {g : Glyph} {n : String} :
    (g, n) ∈ missingPairs (validateLookup kind defined place rules).findings ↔
      anchorsOf (marksOf defined place rules) rules g 0 ≠ [] ∧
        ∃ i, (marksOf defined place rules).classes[i]? = some n ∧
          ∀ a, (UInt16.ofNat i, a) ∉ anchorsOf (marksOf defined place rules) rules g 0 := by
  have hbases : ∀ r ∈ rules, r.body.kind ≠ .markToLigature := by
    intro r hr
    rw [hrules r hr]
    exact Kind.ne_markToLigature hkind
  rw [missingPairs_validateLookup hkind, missingPairs_missingAnchors]
  generalize marksOf defined place rules = marks
  have hbase : g ∈ (BaseCheck.ofAnchors kind place (baseAnchors marks rules)).bases ↔
      anchorsOf marks rules g 0 ≠ [] := by
    rw [BaseCheck.mem_bases_ofAnchors]
    constructor
    · rintro ⟨b, hb, rfl⟩
      exact List.ne_nil_of_mem ((exists_baseAnchor_iff hbases).1 ⟨b, hb, rfl, rfl, rfl⟩)
    · intro hne
      obtain ⟨⟨id, a⟩, ha⟩ := List.exists_mem_of_ne_nil _ hne
      obtain ⟨b, hb, hglyph, -⟩ := (exists_baseAnchor_iff hbases).2 ha
      exact ⟨b, hb, hglyph⟩
  have hmissing (i : Nat) :
      (BaseCheck.ofAnchors kind place (baseAnchors marks rules)).found? g (UInt16.ofNat i) = none ↔
        ∀ a, (UInt16.ofNat i, a) ∉ anchorsOf marks rules g 0 := by
    rw [BaseCheck.found?_ofAnchors_eq_none_iff]
    constructor
    · intro h a ha
      obtain ⟨b, hb, hglyph, hid, -⟩ := (exists_baseAnchor_iff hbases).2 ha
      exact h b hb ⟨hglyph, hid⟩
    · rintro h b hb ⟨rfl, hid⟩
      exact h b.anchor ((exists_baseAnchor_iff hbases).1 ⟨b, hb, rfl, hid, rfl⟩)
  simp only [List.mem_flatMap, List.mem_reverse, List.mem_map, List.mem_filter,
    Option.isNone_iff_eq_none, Prod.exists, List.mk_mem_zipIdx_iff_getElem?, Prod.mk.injEq]
  constructor
  · rintro ⟨_, hg, _, i, ⟨hi, hfound⟩, rfl, rfl⟩
    exact ⟨hbase.1 hg, i, hi, (hmissing i).1 hfound⟩
  · rintro ⟨hg, i, hi, hnone⟩
    exact ⟨g, hbase.2 hg, n, i, ⟨hi, (hmissing i).2 hnone⟩, rfl, rfl⟩

end
end
end FontLayout
