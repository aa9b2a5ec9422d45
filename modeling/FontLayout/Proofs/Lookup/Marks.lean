import FontLayout.Lookup.Validation
import FontLayout.Proofs.Diagnostic.Audits
import FontLayout.Proofs.Glyph.Keyed
import FontLayout.Proofs.Lookup.Distinct
/-!
# The marks of a validated lookup

A lookup numbers the mark classes that its rules name and gathers their glyphs. The first class
and the first anchor of a glyph count, and every membership that says otherwise is an error. So
without errors, every class that is named is defined, and no membership has been overruled.

Results:
* `map_fst_firstNamed`: taking the first element for each name leaves each name once.
* `usedClasses_eq_filterMap`: which classes are numbered, and in which order.
* `exists_of_undefinedClasses`: without errors, a class that rules name is defined and numbered.
* `getElem?_gatherMarks`: without errors, a glyph has the class and the anchor of each of its
  memberships.
-/
namespace FontLayout

/-! ## Names -/

theorem mem_firstNamedStep (s : Std.TreeSet String × List (String × Option UInt32))
    (x : String × Option UInt32) (n : String) :
    n ∈ (firstNamedStep s x).1 ↔ n ∈ s.1 ∨ n = x.1 := by
  unfold firstNamedStep
  split
  · next hx =>
    rw [Std.TreeSet.contains_iff_mem] at hx
    constructor
    · exact .inl
    · rintro (h | rfl)
      · exact h
      · exact hx
  · rw [Std.TreeSet.mem_insert, Std.LawfulEqCmp.compare_eq_iff_eq, or_comm, eq_comm]

/-- The first elements for each name have all names, each once and in order. -/
theorem map_fst_firstNamed (xs : List (String × Option UInt32)) :
    (firstNamed xs).map Prod.fst = (xs.map Prod.fst).eraseDups := by
  induction xs using List.reverseRecOn with
  | nil => rfl
  | append_singleton xs x ih =>
    have hseen : (xs.foldl firstNamedStep (∅, [])).1.contains x.1 = true ↔
        x.1 ∈ xs.map Prod.fst := by
      rw [Std.TreeSet.contains_iff_mem]
      simpa using kept_foldl (fun s n => n ∈ s.1) mem_firstNamedStep xs (∅, []) x.1
    rw [firstNamed, List.map_reverse] at ih ⊢
    rw [List.foldl_concat, firstNamedStep, List.map_append, List.map_singleton, eraseDups_concat]
    split
    · next hx => rw [if_pos (hseen.1 hx), ih]
    · next hx => rw [if_neg (mt hseen.2 hx), List.map_cons, List.reverse_cons, ih]

/-- The names of the mark classes that rules give anchors for. -/
def markNames (rules : List Rule) : List String :=
  rules.flatMap fun r => r.body.markAnchors.map Prod.fst

theorem map_fst_namedClasses (rules : List Rule) :
    (namedClasses rules).map Prod.fst = markNames rules := by
  rw [namedClasses, markNames, List.map_flatMap]
  simp [Function.comp_def]

theorem eraseDups_filter {α : Type} [DecidableEq α] (p : α → Bool) (xs : List α) :
    (xs.filter p).eraseDups = xs.eraseDups.filter p := by
  induction xs using List.reverseRecOn with
  | nil => rfl
  | append_singleton xs x ih =>
    rw [List.filter_append, List.filter_singleton, eraseDups_concat]
    cases hp : p x with
    | false =>
      rw [Bool.cond_false, List.append_nil, ih]
      split
      · rfl
      · simp [hp]
    | true =>
      rw [Bool.cond_true, eraseDups_concat, ih]
      by_cases hx : x ∈ xs
      · rw [if_pos hx, if_pos (List.mem_filter.2 ⟨hx, hp⟩)]
      · rw [if_neg hx, if_neg fun h => hx (List.mem_filter.1 h).1]
        simp [hp]

theorem map_fst_firstNamed_filter (p : String → Bool) (rules : List Rule) :
    (firstNamed ((namedClasses rules).filter fun x => p x.1)).map Prod.fst =
      (markNames rules).eraseDups.filter p := by
  rw [map_fst_firstNamed, ← eraseDups_filter, ← map_fst_namedClasses, List.filter_map]
  rfl

section
variable {defined : List MarkClass} {place : LookupPlace} {rules : List Rule}

/-- Without errors, every class that rules name is defined. -/
theorem exists_of_undefinedClasses
    (hclear : ∀ f ∈ undefinedClasses defined place rules, f.level ≠ .error) {n : String}
    (hn : n ∈ markNames rules) : ∃ c, defined.find? (·.name == n) = some c := by
  cases hfind : defined.find? (·.name == n) with
  | some c => exact ⟨c, rfl⟩
  | none =>
    -- the class would be reported where it is first named
    have hundefined : n ∈ (firstNamed ((namedClasses rules).filter fun x =>
        !defined.any (·.name == x.1))).map Prod.fst := by
      rw [map_fst_firstNamed_filter fun n => !defined.any (·.name == n)]
      refine List.mem_filter.2 ⟨List.mem_eraseDups.2 hn, ?_⟩
      simpa using hfind
    obtain ⟨x, hx, rfl⟩ := List.mem_map.1 hundefined
    exact absurd rfl (hclear _ (List.mem_map_of_mem hx))

/-! ## Numbers of classes -/

/-- The classes of a lookup are numbered in the order of first reference. -/
theorem usedClasses_eq_filterMap (defined : List MarkClass) (rules : List Rule) :
    usedClasses defined rules =
      (markNames rules).eraseDups.filterMap fun n => defined.find? (·.name == n) := by
  have hnames := map_fst_firstNamed_filter (fun n => defined.any (·.name == n)) rules
  have hfind (n : String) : (if defined.any (·.name == n) = true then
      defined.find? (·.name == n) else none) = defined.find? (·.name == n) := by
    split
    · rfl
    · next hn =>
      symm
      rw [List.find?_eq_none]
      intro c hc hname
      exact hn (List.any_eq_true.2 ⟨c, hc, hname⟩)
  calc usedClasses defined rules
      = ((firstNamed ((namedClasses rules).filter fun x =>
          defined.any (·.name == x.1))).map Prod.fst).filterMap fun n =>
            defined.find? (·.name == n) := by
        rw [List.filterMap_map]
        rfl
    _ = (markNames rules).eraseDups.filterMap fun n => defined.find? (·.name == n) := by
        rw [hnames, List.filterMap_filter]
        simp only [hfind]

theorem map_name_filterMap_find? (defined : List MarkClass) (ns : List String) :
    (ns.filterMap fun n => defined.find? (·.name == n)).map MarkClass.name =
      ns.filter fun n => defined.any (·.name == n) := by
  induction ns with
  | nil => rfl
  | cons n ns ih =>
    rw [List.filter_cons]
    cases hfind : defined.find? (·.name == n) with
    | none =>
      have hany : ¬ defined.any (·.name == n) = true := by simpa using hfind
      simp only [List.filterMap_cons, hfind]
      rw [if_neg hany, ih]
    | some c =>
      have hname : c.name = n := by simpa using List.find?_some hfind
      have hany : defined.any (·.name == n) = true :=
        List.any_eq_true.2 ⟨c, List.mem_of_find?_eq_some hfind, beq_iff_eq.2 hname⟩
      simp only [List.filterMap_cons, hfind]
      rw [if_pos hany, List.map_cons, ih, hname]

theorem map_name_usedClasses (defined : List MarkClass) (rules : List Rule) :
    (usedClasses defined rules).map MarkClass.name =
      (markNames rules).eraseDups.filter fun n => defined.any (·.name == n) := by
  rw [usedClasses_eq_filterMap, map_name_filterMap_find?]

/-- No class has two numbers. -/
theorem nodup_names_usedClasses (defined : List MarkClass) (rules : List Rule) :
    ((usedClasses defined rules).map MarkClass.name).Nodup := by
  rw [map_name_usedClasses, ← map_fst_firstNamed_filter]
  exact firstNamed_nodup _

/-- A class that rules name and the rule set defines has a number. -/
theorem mem_usedClasses {n : String} {c : MarkClass} (hn : n ∈ markNames rules)
    (hc : defined.find? (·.name == n) = some c) : c ∈ usedClasses defined rules := by
  rw [usedClasses_eq_filterMap]
  exact List.mem_filterMap.2 ⟨n, List.mem_eraseDups.2 hn, hc⟩

end

namespace MarkSet
variable {m : MarkSet} {n : String} {i : Nat}

/-- The number of a class is its place, as far as a word can tell. -/
theorem classId?_of_getElem? (h : m.classes.Nodup) (hi : m.classes[i]? = some n) :
    m.classId? n = some (UInt16.ofNat i) := by
  obtain ⟨hlt, rfl⟩ := List.getElem?_eq_some_iff.1 hi
  rw [classId?, List.idxOf?_eq_some_iff.2 ⟨hlt, rfl, ?_⟩]
  · rfl
  · intro j hj he
    exact Nat.ne_of_lt hj ((List.Nodup.getElem_inj_iff h).1 (by simpa using he))

end MarkSet

/-! ## Gathering -/

theorem mem_memberships {classes : List MarkClass} {m : Membership} :
    m ∈ memberships classes ↔ ∃ i c glyphs anchor g, classes[i]? = some c ∧
      (glyphs, anchor) ∈ c.members ∧ g ∈ glyphs ∧ m = ⟨g, i, c.name, anchor⟩ := by
  simp only [memberships, List.mem_flatMap, List.mem_map, Prod.exists,
    List.mk_mem_zipIdx_iff_getElem?]
  constructor
  · rintro ⟨c, i, hc, glyphs, anchor, hm, g, hg, rfl⟩
    exact ⟨i, c, glyphs, anchor, g, hc, hm, hg, rfl⟩
  · rintro ⟨i, c, glyphs, anchor, g, hc, hm, hg, rfl⟩
    exact ⟨c, i, hc, glyphs, anchor, hm, g, hg, rfl⟩

/-- A mark that belongs to two classes, or has two anchors in one. -/
def Finding.IsMarkConflict (f : Finding) : Prop :=
  ∃ place g n,
    f.cause = .markWithTwoAnchors place g n ∨ ∃ n', f.cause = .markInTwoClasses place g n' n

theorem Finding.IsMarkConflict.level_eq {f : Finding} (h : f.IsMarkConflict) :
    f.level = .error := by
  obtain ⟨_, _, _, h | ⟨_, h⟩⟩ := h <;> simp [Finding.level, h, Cause.level]

namespace Gathering
variable {names : List String} {place : LookupPlace}

/-- What one more membership does: its glyph is new, or it agrees with what is known, or there is
a conflict. -/
theorem step_cases (names : List String) (place : LookupPlace) (s : Gathering)
    (m : Membership) :
    (s.marks[m.glyph]? = none ∧ s.step names place m =
      { s with marks := s.marks.insert m.glyph (UInt16.ofNat m.id, m.anchor) }) ∨
    (∃ id, s.marks[m.glyph]? = some (id, m.anchor) ∧ id.toNat = m.id ∧
      s.step names place m = s) ∨
    ∃ f : Finding, f.IsMarkConflict ∧
      (∃ id anchor, s.marks[m.glyph]? = some (id, anchor) ∧
        (id.toNat ≠ m.id ∨ anchor ≠ m.anchor)) ∧
      s.step names place m = { s with findings := f :: s.findings } := by
  unfold step
  split
  · next hnone => exact .inl ⟨hnone, rfl⟩
  · next id anchor hsome =>
    split
    · next hid =>
      exact .inr (.inr ⟨_, ⟨_, _, _, .inr ⟨_, rfl⟩⟩, ⟨id, anchor, hsome, .inl hid⟩, rfl⟩)
    · next hid =>
      split
      · next hanchor =>
        exact .inr (.inr ⟨_, ⟨_, _, _, .inl rfl⟩, ⟨id, anchor, hsome, .inr hanchor⟩, rfl⟩)
      · next hanchor =>
        rw [hsome, Decidable.not_not.1 hanchor]
        exact .inr (.inl ⟨id, rfl, Decidable.not_not.1 hid, rfl⟩)

theorem findings_step_subset (s : Gathering) (m : Membership) :
    s.findings ⊆ (s.step names place m).findings := by
  obtain ⟨-, h⟩ | ⟨_, -, -, h⟩ | ⟨f, -, -, h⟩ := step_cases names place s m <;> rw [h]
  · exact List.Subset.refl _
  · exact List.Subset.refl _
  · exact List.subset_cons_self f _

/-- A glyph keeps the class and the anchor that it was given first. -/
theorem marks_step_of_some {s : Gathering} {g : Glyph} {v : UInt16 × Anchor}
    (hg : s.marks[g]? = some v) (m : Membership) : (s.step names place m).marks[g]? = some v := by
  obtain ⟨hnone, h⟩ | ⟨_, -, -, h⟩ | ⟨f, -, -, h⟩ := step_cases names place s m <;> rw [h]
  · have hne : m.glyph ≠ g := by
      rintro rfl
      rw [hnone] at hg
      cases hg
    rw [Std.TreeMap.getElem?_insert, if_neg (mt Std.LawfulEqCmp.compare_eq_iff_eq.1 hne), hg]
  · exact hg
  · exact hg

theorem isMarkConflict_step {s : Gathering} (h : ∀ f ∈ s.findings, f.IsMarkConflict)
    (m : Membership) : ∀ f ∈ (s.step names place m).findings, f.IsMarkConflict := by
  obtain ⟨-, hs⟩ | ⟨_, -, -, hs⟩ | ⟨f, hf, -, hs⟩ := step_cases names place s m <;> rw [hs]
  · exact h
  · exact h
  · exact List.forall_mem_cons.2 ⟨hf, h⟩

theorem isMarkConflict_foldl {ms : List Membership} {s : Gathering}
    (h : ∀ f ∈ s.findings, f.IsMarkConflict) :
    ∀ f ∈ (ms.foldl (step names place) s).findings, f.IsMarkConflict := by
  induction ms generalizing s with
  | nil => exact h
  | cons m ms ih => exact ih (isMarkConflict_step h m)

theorem marks_foldl_of_some {s : Gathering} {g : Glyph} {v : UInt16 × Anchor}
    (hg : s.marks[g]? = some v) (ms : List Membership) :
    (ms.foldl (step names place) s).marks[g]? = some v := by
  induction ms generalizing s with
  | nil => exact hg
  | cons m ms ih => exact ih (marks_step_of_some hg m)

/-- Without errors, each membership is what is known of its glyph. -/
theorem marks_foldl_of_clear {ms : List Membership} {s : Gathering}
    (hclear : ∀ f ∈ (ms.foldl (step names place) s).findings, f.level ≠ .error)
    {m : Membership} (hm : m ∈ ms) :
    (ms.foldl (step names place) s).marks[m.glyph]? = some (UInt16.ofNat m.id, m.anchor) := by
  induction ms generalizing s with
  | nil => cases hm
  | cons m' ms ih =>
    rcases List.mem_cons.1 hm with rfl | hm
    · refine marks_foldl_of_some ?_ ms
      obtain ⟨-, h⟩ | ⟨id, hsome, hone, h⟩ | ⟨f, hf, -, h⟩ := step_cases names place s m
      · rw [h, Std.TreeMap.getElem?_insert_self]
      · have hword : id = UInt16.ofNat m.id := by
          rw [← hone, UInt16.ofNat_toNat]
        rw [h, hsome, hword]
      · have hkept : f ∈ (ms.foldl (step names place) (s.step names place m)).findings := by
          refine subset_foldl findings findings_step_subset ms _ ?_
          rw [h]
          exact List.mem_cons_self
        exact absurd hf.level_eq (hclear f hkept)
    · exact ih hclear hm

end Gathering

theorem isMarkConflict_of_mem_gatherMarks {classes : List MarkClass} {place : LookupPlace}
    {f : Finding} (hf : f ∈ (gatherMarks classes place).findings) : f.IsMarkConflict :=
  Gathering.isMarkConflict_foldl (by simp) f (List.mem_reverse.1 hf)

/-- Without errors, a glyph has the class and the anchor of each of its memberships. -/
theorem getElem?_gatherMarks {classes : List MarkClass} {place : LookupPlace}
    (hclear : ∀ f ∈ (gatherMarks classes place).findings, f.level ≠ .error)
    {i : Nat} {c : MarkClass} (hi : classes[i]? = some c) {glyphs : GlyphSet} {anchor : Anchor}
    (hm : (glyphs, anchor) ∈ c.members) {g : Glyph} (hg : g ∈ glyphs) :
    (gatherMarks classes place).marks[g]? = some (UInt16.ofNat i, anchor) := by
  have hmem : ⟨g, i, c.name, anchor⟩ ∈ memberships classes :=
    mem_memberships.2 ⟨i, c, glyphs, anchor, g, hi, hm, hg, rfl⟩
  refine Gathering.marks_foldl_of_clear (fun f hf => ?_) hmem
  exact hclear f (List.mem_reverse.2 hf)

end FontLayout
