import FontLayout.Proofs.Outcomes
import Mathlib.Data.List.Find
/-!
# How many errors validation finds

Validation finds an error for each assignment that contradicts an earlier one, and no other than
these and those for undefined mark classes. Here the assignments are listed as the rules and the
classes make them, by the names of the classes; which of them are contradicted is said of these
lists alone, without the numbers of the classes and the maps that validation goes by.

A name that is not that of a defined class is one error. What rules give for the marks of such a
name is not an assignment.

Results:
* `countP_foldl_firstWins`: what a run reports that keeps for each key what comes first.
* `length_foldl_repeats`: what a run reports that keeps each key once.
* `errorCount_validateLookup`: the number of errors.
-/
namespace FontLayout

/-- How many findings are errors. -/
def errorCount (fs : List Finding) : Nat := fs.countP (·.level = .error)

/-! ## What is assigned -/

/-- The glyph of a cursive rule. -/
def RuleBody.cursiveGlyph? : RuleBody → Option Glyph
  | .cursivePos glyph _ _ => some glyph
  | _ => none

/-- The glyphs of the cursive rules, in order. -/
def cursiveGlyphs (rules : List Rule) : List Glyph := rules.filterMap (·.body.cursiveGlyph?)

/-- Whether a name is that of a defined mark class. -/
def isDefined (defined : List MarkClass) (n : String) : Bool := defined.any (·.name == n)

/-- The names that rules give anchors for and that no class has, each once. -/
def undefinedNames (defined : List MarkClass) (rules : List Rule) : List String :=
  (markNames rules).eraseDups.filter fun n => !isDefined defined n

/-- The mark classes that rules give anchors for, in the order of first reference. -/
def referencedClasses (defined : List MarkClass) (rules : List Rule) : List MarkClass :=
  (markNames rules).eraseDups.filterMap fun n => defined.find? (·.name == n)

/-- A mark of a class, with the anchor that the class gives it. -/
structure MarkOccurrence where
  mark : Glyph
  className : String
  anchor : Anchor
deriving DecidableEq

/-- The marks of classes, in order, as often as they occur. -/
def occurrences (classes : List MarkClass) : List MarkOccurrence :=
  classes.flatMap fun c => c.members.flatMap fun m => m.1.members.map fun g => ⟨g, c.name, m.2⟩

/-- Whether the first occurrence of a mark is in another class, or the first one in the same class
has another anchor. -/
def MarkOccurrence.Contradicted (os : List MarkOccurrence) (o : MarkOccurrence) : Bool :=
  (os.find? fun first => first.mark = o.mark).any (fun first => first.className ≠ o.className) ||
    (os.find? fun first => first.mark = o.mark ∧ first.className = o.className).any
      fun first => first.anchor ≠ o.anchor

/-- An anchor that a rule assigns to a component of a glyph for the marks of a class. A base has
one component. -/
structure Assignment where
  glyph : Glyph
  component : Nat
  className : String
  anchor : Anchor
deriving DecidableEq

namespace Assignment

/-- What may be assigned one anchor. -/
def slot (a : Assignment) : Glyph × Nat × String := (a.glyph, a.component, a.className)

/-- Whether the first anchor of the same slot is another one. -/
def Contradicted (as : List Assignment) (a : Assignment) : Bool :=
  (as.find? fun first => first.slot = a.slot).any fun first => first.anchor ≠ a.anchor

end Assignment

/-- What one rule assigns to the components of its glyphs. -/
def assignmentsFrom (defined : List MarkClass) (glyphs : GlyphSet)
    (components : List MarkAnchors) : List Assignment :=
  glyphs.members.flatMap fun g => components.zipIdx.flatMap fun c =>
    (c.1.filter fun a => isDefined defined a.1).map fun a => ⟨g, c.2, a.1, a.2⟩

/-- What rules assign to bases, in order. -/
def baseAssignments (defined : List MarkClass) (rules : List Rule) : List Assignment :=
  rules.flatMap fun r =>
    match r.body with
    | .markToBase glyphs anchors | .markToMark glyphs anchors =>
      assignmentsFrom defined glyphs [anchors]
    | _ => []

/-- What rules assign to the components of ligatures, in order. -/
def componentAssignments (defined : List MarkClass) (rules : List Rule) : List Assignment :=
  rules.flatMap fun r =>
    match r.body with
    | .markToLigature glyphs components => assignmentsFrom defined glyphs components
    | _ => []

/-- How many elements of a list have an equal one in front of them. -/
def repeats {α : Type} [DecidableEq α] (xs : List α) : Nat := xs.length - xs.eraseDups.length

/-- How many assignments of a lookup are contradicted, or are to names without a class. -/
def conflictCount (kind : Kind) (defined : List MarkClass) (rules : List Rule) : Nat :=
  let markConflicts :=
    let os := occurrences (referencedClasses defined rules)
    (undefinedNames defined rules).length + os.countP (·.Contradicted os)
  match kind with
  | .cursivePos =>
    rules.countP (·.body.kind = .cursivePos) - (cursiveGlyphs rules).eraseDups.length
  | .markToBase | .markToMark =>
    let as := baseAssignments defined rules
    markConflicts + as.countP (·.Contradicted as)
  | .markToLigature =>
    markConflicts + repeats ((componentAssignments defined rules).map Assignment.slot)
  | _ => 0

/-! ## Runs that keep what comes first -/

section
variable {σ α κ β : Type} [DecidableEq κ]

/-- A run that keeps a value for each key, the first one. Each element that clashes with what is
kept for its key is reported. -/
structure FirstWins (step : σ → α → σ) (found : σ → κ → Option β) (reports : σ → Nat)
    (key : α → κ) (value : α → β) (clash : β → α → Bool) : Prop where
  found_step : ∀ s a k,
    found (step s a) k = (found s k).or (if key a = k then some (value a) else none)
  reports_step : ∀ s a,
    reports (step s a) = reports s + ((found s (key a)).any fun b => clash b a).toNat

section
variable {step : σ → α → σ} {found : σ → κ → Option β} {reports : σ → Nat} {key : α → κ}
  {value : α → β} {clash : β → α → Bool} {s : σ}

theorem FirstWins.found_foldl (h : FirstWins step found reports key value clash)
    (hs : ∀ k, found s k = none) (as : List α) (k : κ) :
    found (as.foldl step s) k = (as.find? fun a => key a = k).map value := by
  induction as using List.reverseRecOn with
  | nil => exact hs k
  | append_singleton as a ih =>
    rw [List.foldl_concat, h.found_step, ih, List.find?_append, List.find?_singleton]
    cases as.find? fun a => key a = k with
    | some b => rfl
    | none => split <;> simp_all

/-- What is reported are the elements that clash with the first of their key. An element that is
the first of its key does not clash with itself. -/
theorem FirstWins.countP_foldl (h : FirstWins step found reports key value clash)
    (hs : ∀ k, found s k = none) {as : List α} (hself : ∀ a ∈ as, clash (value a) a = false) :
    reports (as.foldl step s) = reports s + as.countP fun a =>
      (as.find? fun b => key b = key a).any fun b => clash (value b) a := by
  induction as using List.reverseRecOn with
  | nil => rfl
  | append_singleton as a ih =>
    rw [List.forall_mem_append, List.forall_mem_singleton] at hself
    -- what is in front of the last element has its first already
    have hfront : ∀ x ∈ as, ((as ++ [a]).find? fun b => key b = key x) =
        as.find? fun b => key b = key x := by
      intro x hx
      have hsome : (as.find? fun b => key b = key x).isSome :=
        List.find?_isSome.2 ⟨x, hx, decide_eq_true rfl⟩
      rw [List.find?_append, Option.or_of_isSome hsome]
    have hlast : ((found (as.foldl step s) (key a)).any fun b => clash b a) =
        ((as ++ [a]).find? fun b => key b = key a).any fun b => clash (value b) a := by
      rw [h.found_foldl hs, List.find?_append]
      cases as.find? fun b => key b = key a with
      | some b => rfl
      | none => simp [hself.2]
    have hcount : as.countP (fun x =>
          ((as ++ [a]).find? fun b => key b = key x).any fun b => clash (value b) x) =
        as.countP fun x => (as.find? fun b => key b = key x).any fun b => clash (value b) x := by
      apply List.countP_congr
      intro x hx
      rw [hfront x hx]
    rw [List.foldl_concat, h.reports_step, ih hself.1, hlast, List.countP_append, hcount,
      List.countP_singleton, Nat.add_assoc]
    cases ((as ++ [a]).find? fun b => key b = key a).any fun b => clash (value b) a <;> rfl

end

/-- A run that keeps each key once, and reports each element whose key it has. -/
structure KeepsOnce (step : σ → α → σ) (kept : σ → κ → Prop) (reports : σ → Nat) (key : α → κ) :
    Prop where
  kept_step : ∀ s a k, kept (step s a) k ↔ kept s k ∨ k = key a
  reports_new : ∀ s a, ¬ kept s (key a) → reports (step s a) = reports s
  reports_kept : ∀ s a, kept s (key a) → reports (step s a) = reports s + 1

section
variable {step : σ → α → σ} {kept : σ → κ → Prop} {reports : σ → Nat} {key : α → κ} {s : σ}

/-- What is reported is what repeats a key. -/
theorem KeepsOnce.reports_foldl (h : KeepsOnce step kept reports key) (hs : ∀ k, ¬ kept s k)
    (as : List α) :
    reports (as.foldl step s) + (as.map key).eraseDups.length = reports s + as.length := by
  induction as using List.reverseRecOn with
  | nil => rfl
  | append_singleton as a ih =>
    have hkept : kept (as.foldl step s) (key a) ↔ key a ∈ as.map key := by
      rw [kept_foldl kept h.kept_step, or_iff_right (hs _)]
    rw [List.foldl_concat, List.map_append, List.map_singleton, eraseDups_concat,
      List.length_append, List.length_singleton]
    split
    · next hmem =>
      rw [h.reports_kept _ a (hkept.2 hmem)]
      omega
    · next hnew =>
      rw [h.reports_new _ a (mt hkept.1 hnew), List.length_append, List.length_singleton]
      omega

theorem KeepsOnce.reports_eq_repeats (h : KeepsOnce step kept reports key)
    (hs : ∀ k, ¬ kept s k) (hzero : reports s = 0) (as : List α) :
    reports (as.foldl step s) = repeats (as.map key) := by
  have hsum := h.reports_foldl hs as
  rw [repeats, List.length_map]
  omega

end
end

/-! ## Cursive lookups -/

section
variable {place : LookupPlace} {rules : List Rule}

/-- The glyph of a cursive rule, with its line. -/
def cursiveGlyphOn? (r : Rule) : Option (Glyph × Option UInt32) :=
  r.body.cursiveGlyph?.map (·, r.line)

/-- Looks at one more cursive glyph. -/
def glyphStep (place : LookupPlace) (s : Std.TreeSet Glyph × List Finding)
    (x : Glyph × Option UInt32) : Std.TreeSet Glyph × List Finding :=
  if s.1.contains x.1 then (s.1, ⟨place.siteAt x.2, .repeatedCursive place x.1⟩ :: s.2)
  else (s.1.insert x.1, s.2)

theorem foldl_cursiveStep (s : Std.TreeSet Glyph × List Finding) :
    rules.foldl (cursiveStep place) s =
      (rules.filterMap cursiveGlyphOn?).foldl (glyphStep place) s := by
  rw [List.foldl_filterMap]
  congr 1
  funext s r
  obtain ⟨body, line, b⟩ := r
  cases body <;> rfl

theorem keepsOnce_glyphStep (place : LookupPlace) :
    KeepsOnce (glyphStep place) (fun s g => g ∈ s.1) (fun s => s.2.length) Prod.fst where
  kept_step s x g := by
    unfold glyphStep
    split
    · next hx =>
      rw [Std.TreeSet.contains_iff_mem] at hx
      constructor
      · exact .inl
      · rintro (h | rfl)
        · exact h
        · exact hx
    · rw [Std.TreeSet.mem_insert, Std.LawfulEqCmp.compare_eq_iff_eq, or_comm, eq_comm]
  reports_new s x hx := by
    rw [glyphStep, if_neg (mt Std.TreeSet.contains_iff_mem.1 hx)]
  reports_kept s x hx := by
    rw [glyphStep, if_pos (Std.TreeSet.contains_iff_mem.2 hx)]
    rfl

theorem errorCount_of_forall_error {fs : List Finding} (h : ∀ f ∈ fs, f.level = .error) :
    errorCount fs = fs.length :=
  List.countP_eq_length.2 fun f hf => decide_eq_true (h f hf)

theorem length_cursiveGlyphs (rules : List Rule) :
    (cursiveGlyphs rules).length = rules.countP (·.body.kind = .cursivePos) := by
  rw [cursiveGlyphs, List.length_filterMap_eq_countP]
  congr 1
  funext r
  obtain ⟨body, line, b⟩ := r
  cases body <;> rfl

/-- Each cursive rule whose glyph had one before is an error. -/
theorem errorCount_cursiveFindings (place : LookupPlace) (rules : List Rule) :
    errorCount (cursiveFindings place rules) =
      rules.countP (·.body.kind = .cursivePos) - (cursiveGlyphs rules).eraseDups.length := by
  have hglyphs : (rules.filterMap cursiveGlyphOn?).map Prod.fst = cursiveGlyphs rules := by
    rw [List.map_filterMap, cursiveGlyphs]
    congr 1
    funext r
    rw [cursiveGlyphOn?, Option.map_map]
    exact Option.map_id'
  rw [errorCount_of_forall_error fun f => level_of_mem_cursiveFindings, cursiveFindings,
    List.length_reverse, foldl_cursiveStep,
    (keepsOnce_glyphStep place).reports_eq_repeats (by simp) rfl, hglyphs, repeats,
    length_cursiveGlyphs]

end

/-! ## Names -/

section
variable {defined : List MarkClass} {place : LookupPlace} {rules : List Rule}

theorem length_undefinedClasses : (undefinedClasses defined place rules).length =
    (undefinedNames defined rules).length := by
  rw [undefinedClasses, undefinedNames, List.length_map,
    ← map_fst_firstNamed_filter fun n => !isDefined defined n, List.length_map]
  rfl

theorem usedClasses_eq : usedClasses defined rules = referencedClasses defined rules :=
  usedClasses_eq_filterMap defined rules

theorem mem_names_usedClasses {n : String} (hn : n ∈ markNames rules) :
    n ∈ (usedClasses defined rules).map MarkClass.name ↔ isDefined defined n = true := by
  rw [map_name_usedClasses, List.mem_filter, List.mem_eraseDups]
  exact and_iff_right hn

end

/-! ## Marks -/

section
variable {classes : List MarkClass}

/-- A membership without the number of its class. -/
def Membership.occurrence (m : Membership) : MarkOccurrence := ⟨m.glyph, m.name, m.anchor⟩

theorem map_occurrence_memberships (classes : List MarkClass) :
    (memberships classes).map Membership.occurrence = occurrences classes := by
  rw [memberships, List.map_flatMap, occurrences]
  conv_rhs => rw [← List.zipIdx_map_fst 0 classes]
  rw [List.flatMap_map]
  apply List.flatMap_congr
  rintro ⟨c, i⟩ -
  rw [List.map_flatMap]
  apply List.flatMap_congr
  rintro ⟨glyphs, anchor⟩ -
  rw [List.map_map]
  rfl

theorem firstWins_gathering (names : List String) (place : LookupPlace) :
    FirstWins (Gathering.step names place) (fun s g => s.marks[g]?) (fun s => s.findings.length)
      Membership.glyph (fun m => (UInt16.ofNat m.id, m.anchor))
      (fun known m => decide (known.1.toNat ≠ m.id ∨ known.2 ≠ m.anchor)) where
  found_step s m g := by
    have hkept (known : UInt16 × Anchor) (hsome : s.marks[m.glyph]? = some known) :
        s.marks[g]? = (s.marks[g]?).or
          (if m.glyph = g then some (UInt16.ofNat m.id, m.anchor) else none) := by
      split
      · next hg =>
        rw [← hg, hsome]
        rfl
      · rw [Option.or_none]
    obtain ⟨hnone, h⟩ | ⟨id, hsome, -, h⟩ | ⟨f, -, ⟨id, anchor, hsome, -⟩, h⟩ :=
      Gathering.step_cases names place s m <;> rw [h]
    · rw [Std.TreeMap.getElem?_insert]
      split
      · next hg =>
        obtain rfl := Std.LawfulEqCmp.compare_eq_iff_eq.1 hg
        rw [hnone, if_pos rfl, Option.none_or]
      · next hg => rw [if_neg (mt Std.LawfulEqCmp.compare_eq_iff_eq.2 hg), Option.or_none]
    · exact hkept _ hsome
    · exact hkept _ hsome
  reports_step s m := by
    obtain ⟨hnone, h⟩ | ⟨id, hsome, hid, h⟩ | ⟨f, -, ⟨id, anchor, hsome, hclash⟩, h⟩ :=
      Gathering.step_cases names place s m
    · rw [h, hnone]
      rfl
    · rw [h, hsome]
      simp [hid]
    · rw [h, hsome, Option.any_some, decide_eq_true hclash]
      rfl

/-- If the first element with a property has another property, which implies the first, it is the
first that has this. -/
theorem find?_of_imp {α : Type} {p q : α → Bool} {xs : List α} {x : α} (h : xs.find? p = some x)
    (hx : q x = true) (hqp : ∀ y, q y = true → p y = true) : xs.find? q = some x := by
  obtain ⟨-, before, after, rfl, hbefore⟩ := List.find?_eq_some_iff_append.1 h
  refine List.find?_eq_some_iff_append.2 ⟨hx, before, after, rfl, fun y hy => ?_⟩
  cases hq : q y with
  | false => rfl
  | true =>
    have hp := hbefore y hy
    rw [hqp y hq] at hp
    cases hp

/-- Two memberships are in the same class if their classes have the same number. -/
theorem id_eq_iff_of_memberships (hnames : (classes.map MarkClass.name).Nodup) {m m' : Membership}
    (hm : m ∈ memberships classes) (hm' : m' ∈ memberships classes) :
    m.id = m'.id ↔ m.name = m'.name := by
  obtain ⟨i, c, -, -, -, hi, -, -, rfl⟩ := mem_memberships.1 hm
  obtain ⟨j, d, -, -, -, hj, -, -, rfl⟩ := mem_memberships.1 hm'
  dsimp only
  constructor
  · rintro rfl
    rw [Option.some.inj (hi.symm.trans hj)]
  · intro hname
    have hplace {k : Nat} {e : MarkClass} (hk : classes[k]? = some e) :
        (classes.map MarkClass.name)[k]? = some e.name := by rw [List.getElem?_map, hk]; rfl
    have hlt := (List.getElem?_eq_some_iff.1 (hplace hi)).1
    exact (List.getElem?_inj hlt hnames).1 ((hplace hi).trans ((hname ▸ hplace hj).symm))

theorem word_of_memberships (hcount : classes.length ≤ 0xFFFF) {m : Membership}
    (hm : m ∈ memberships classes) : (UInt16.ofNat m.id).toNat = m.id := by
  obtain ⟨i, c, -, -, -, hi, -, -, rfl⟩ := mem_memberships.1 hm
  have hlt := (List.getElem?_eq_some_iff.1 hi).1
  dsimp only
  rw [UInt16.toNat_ofNat']
  omega

/-- Each occurrence of a mark that is contradicted is an error. -/
theorem length_findings_gatherMarks (hnames : (classes.map MarkClass.name).Nodup)
    (hcount : classes.length ≤ 0xFFFF) (place : LookupPlace) :
    (gatherMarks classes place).findings.length =
      (occurrences classes).countP (·.Contradicted (occurrences classes)) := by
  have hwins := firstWins_gathering (classes.map MarkClass.name) place
  have hrun : (gatherMarks classes place).findings.length =
      ((memberships classes).foldl (Gathering.step (classes.map MarkClass.name) place)
        ⟨∅, []⟩).findings.length := List.length_reverse
  rw [hrun, hwins.countP_foldl (by simp) (fun m hm => by simp [word_of_memberships hcount hm]),
    ← map_occurrence_memberships, List.countP_map, List.length_nil, Nat.zero_add]
  apply List.countP_congr
  intro m hm
  obtain ⟨first, hfirst⟩ : ∃ first, (memberships classes).find? (·.glyph = m.glyph) = some first :=
    Option.isSome_iff_exists.1 (List.find?_isSome.2 ⟨m, hm, decide_eq_true rfl⟩)
  have hid := id_eq_iff_of_memberships hnames (List.mem_of_find?_eq_some hfirst) hm
  have hmark : ((memberships classes).map Membership.occurrence).find?
      (fun o => o.mark = m.occurrence.mark) = some first.occurrence := by
    rw [List.find?_map, Function.comp_def]
    exact congrArg _ hfirst
  rw [hfirst, Function.comp_apply, MarkOccurrence.Contradicted, hmark, Option.any_some,
    Option.any_some, word_of_memberships hcount (List.mem_of_find?_eq_some hfirst)]
  by_cases hname : first.name = m.name
  · -- then it is also the first occurrence in the same class
    have hsame : ((memberships classes).map Membership.occurrence).find? (fun o =>
        o.mark = m.occurrence.mark ∧ o.className = m.occurrence.className) =
          some first.occurrence := by
      have hglyph : first.glyph = m.glyph := by simpa using List.find?_some hfirst
      exact find?_of_imp hmark (decide_eq_true ⟨hglyph, hname⟩)
        fun o ho => decide_eq_true (of_decide_eq_true ho).1
    rw [hsame, Option.any_some]
    simp [hid, hname, Membership.occurrence]
  · simp [hid, hname, Membership.occurrence]

end

/-! ## Numbers and names of classes -/

section
variable {defined : List MarkClass} {place : LookupPlace} {rules : List Rule} {marks : MarkSet}

/-- A class is found back by its number, if a word has one for each class. -/
theorem MarkSet.getElem?_of_classId? (hcount : marks.classes.length ≤ 0xFFFF) {n : String}
    {id : UInt16} (h : marks.classId? n = some id) : marks.classes[id.toNat]? = some n := by
  obtain ⟨i, hi, rfl⟩ := Option.map_eq_some_iff.1 h
  obtain ⟨hlt, hn, -⟩ := List.idxOf?_eq_some_iff.1 hi
  have hword : (UInt16.ofNat i).toNat = i := by
    rw [UInt16.toNat_ofNat']
    omega
  rw [hword, List.getElem?_eq_getElem hlt, hn]

theorem MarkSet.id_eq_iff (hcount : marks.classes.length ≤ 0xFFFF) {n n' : String}
    {id id' : UInt16} (h : marks.classId? n = some id) (h' : marks.classId? n' = some id') :
    id = id' ↔ n = n' := by
  constructor
  · rintro rfl
    have hn := getElem?_of_classId? hcount h
    rw [getElem?_of_classId? hcount h'] at hn
    exact (Option.some.inj hn).symm
  · rintro rfl
    exact Option.some.inj (h.symm.trans h')

/-- Among the names that rules give anchors for, those of defined classes have numbers. -/
theorem isSome_classId?_marksOf {n : String} (hn : n ∈ markNames rules) :
    ((marksOf defined place rules).classId? n).isSome = isDefined defined n := by
  rw [Bool.eq_iff_iff, MarkSet.classId?, Option.isSome_map, List.isSome_idxOf?]
  exact mem_names_usedClasses hn

/-- What is made of the anchors for numbered classes, as something made of those for defined ones
without the numbers. -/
theorem map_filterMap_classId? {γ δ : Type} {anchors : MarkAnchors}
    (hdefined : ∀ a ∈ anchors, (marks.classId? a.1).isSome = isDefined defined a.1)
    (F : UInt16 → String × Anchor → γ) (G : γ → δ) (H : String × Anchor → δ)
    (hG : ∀ id a, G (F id a) = H a) :
    (anchors.filterMap fun a => (marks.classId? a.1).map fun id => F id a).map G =
      (anchors.filter fun a => isDefined defined a.1).map H := by
  induction anchors with
  | nil => rfl
  | cons a anchors ih =>
    rw [List.forall_mem_cons] at hdefined
    have ih := ih hdefined.2
    have ha := hdefined.1
    cases hid : marks.classId? a.1 with
    | none =>
      have hnot : ¬ isDefined defined a.1 = true := by
        rw [← ha, hid]
        decide
      rw [List.filterMap_cons_none (by rw [hid]; rfl), List.filter_cons, if_neg hnot, ih]
    | some id =>
      have his : isDefined defined a.1 = true := by
        rw [← ha, hid]
        rfl
      rw [List.filterMap_cons_some (by rw [hid]; rfl), List.filter_cons, if_pos his,
        List.map_cons, List.map_cons, ih, hG]

theorem hdefined_of_mem {r : Rule} (hr : r ∈ rules) {anchors : MarkAnchors}
    (hsub : ∀ a ∈ anchors, a ∈ r.body.markAnchors) : ∀ a ∈ anchors,
      ((marksOf defined place rules).classId? a.1).isSome = isDefined defined a.1 := by
  intro a ha
  apply isSome_classId?_marksOf
  exact List.mem_flatMap.2 ⟨r, hr, List.mem_map_of_mem (hsub a ha)⟩

/-! ## Bases -/

/-- An anchor of a base without the number of its class. -/
def BaseAnchor.assignment (b : BaseAnchor) : Assignment := ⟨b.glyph, 0, b.name, b.anchor⟩

theorem map_assignment_baseAnchors (defined : List MarkClass) (place : LookupPlace)
    (rules : List Rule) :
    (baseAnchors (marksOf defined place rules) rules).map BaseAnchor.assignment =
      baseAssignments defined rules := by
  rw [baseAnchors, List.map_flatMap, baseAssignments]
  apply List.flatMap_congr
  intro r hr
  have hbase (glyphs : GlyphSet) (anchors : MarkAnchors)
      (hsub : ∀ a ∈ anchors, a ∈ r.body.markAnchors) :
      (glyphs.members.flatMap fun g => (anchors.filterMap fun a =>
        ((marksOf defined place rules).classId? a.1).map fun id => (id, a)).map
          fun x => (⟨g, x.1, x.2.1, x.2.2, r.line⟩ : BaseAnchor)).map BaseAnchor.assignment =
        assignmentsFrom defined glyphs [anchors] := by
    rw [List.map_flatMap, assignmentsFrom]
    apply List.flatMap_congr
    intro g _
    rw [List.map_map, List.zipIdx_singleton, List.flatMap_singleton]
    exact map_filterMap_classId? (hdefined_of_mem hr hsub) _ _ _ fun _ _ => rfl
  obtain ⟨body, line, b⟩ := r
  cases body with
  | markToBase glyphs anchors => exact hbase glyphs anchors fun _ => id
  | markToMark glyphs anchors => exact hbase glyphs anchors fun _ => id
  | _ => rfl

theorem firstWins_baseCheck (kind : Kind) (place : LookupPlace) :
    FirstWins (BaseCheck.step kind place) (fun s k => s.found? k.1 k.2)
      (fun s => s.findings.length) (fun b => (b.glyph, b.id)) BaseAnchor.anchor
      (fun known b => decide (known ≠ b.anchor)) where
  found_step s b k := by
    rw [BaseCheck.found?_step]
    simp only [Prod.ext_iff]
  reports_step s b := by
    obtain ⟨hnone, h⟩ | ⟨hsome, h⟩ | ⟨f, -, ⟨anchor, hsome, hclash⟩, h⟩ :=
      BaseCheck.step_cases kind place s b
    · rw [h, hnone]
      rfl
    · rw [h, hsome]
      simp
    · rw [h, hsome, Option.any_some, decide_eq_true hclash]
      rfl

/-- Two anchors of bases are for the same base and class by number if they are so by name. -/
theorem slot_eq_iff_of_baseAnchors (hcount : marks.classes.length ≤ 0xFFFF) {b b' : BaseAnchor}
    (hb : b ∈ baseAnchors marks rules) (hb' : b' ∈ baseAnchors marks rules) :
    (b.glyph, b.id) = (b'.glyph, b'.id) ↔ b.assignment.slot = b'.assignment.slot := by
  obtain ⟨-, -, -, -, -, -, -, hid, -⟩ := mem_baseAnchors.1 hb
  obtain ⟨-, -, -, -, -, -, -, hid', -⟩ := mem_baseAnchors.1 hb'
  simp [Assignment.slot, BaseAnchor.assignment, MarkSet.id_eq_iff hcount hid hid']

theorem length_findings_ofAnchors (hcount : (usedClasses defined rules).length ≤ 0xFFFF)
    (kind : Kind) (place : LookupPlace) :
    (BaseCheck.ofAnchors kind place
      (baseAnchors (marksOf defined place rules) rules)).findings.length =
      (baseAssignments defined rules).countP (·.Contradicted (baseAssignments defined rules)) := by
  have hclasses : (marksOf defined place rules).classes.length ≤ 0xFFFF := by
    rw [marksOf, List.length_map]
    exact hcount
  have hwins := firstWins_baseCheck kind place
  rw [BaseCheck.ofAnchors, hwins.countP_foldl (fun k => by simp [BaseCheck.found?]) (by simp),
    ← map_assignment_baseAnchors defined place rules, List.countP_map, List.length_nil, Nat.zero_add]
  apply List.countP_congr
  intro b hb
  have hfirst : (baseAnchors (marksOf defined place rules) rules).find?
        (fun first => (first.glyph, first.id) = (b.glyph, b.id)) =
      (baseAnchors (marksOf defined place rules) rules).find?
        fun first => first.assignment.slot = b.assignment.slot := by
    apply List.find?_congr
    intro first hmem
    simp only [slot_eq_iff_of_baseAnchors hclasses hmem hb]
  rw [hfirst, Function.comp_apply, Assignment.Contradicted, List.find?_map, Option.any_map]
  rfl

/-! ## Components of ligatures -/

/-- The slot of an anchor of a component, by the name of the class. -/
def ComponentAnchor.namedSlot (c : ComponentAnchor) : Glyph × Nat × String :=
  (c.glyph, c.component, c.name)

theorem map_namedSlot_componentAnchors (defined : List MarkClass) (place : LookupPlace)
    (rules : List Rule) :
    (componentAnchors (marksOf defined place rules) rules).map ComponentAnchor.namedSlot =
      (componentAssignments defined rules).map Assignment.slot := by
  rw [componentAnchors, List.map_flatMap, componentAssignments, List.map_flatMap]
  conv_rhs => rw [← List.zipIdx_map_fst 0 rules]
  rw [List.flatMap_map]
  apply List.flatMap_congr
  rintro ⟨r, i⟩ hr
  have hr := List.fst_mem_of_mem_zipIdx hr
  obtain ⟨body, line, b⟩ := r
  cases body with
  | markToLigature glyphs components =>
    dsimp only
    rw [List.map_flatMap, assignmentsFrom, List.map_flatMap]
    apply List.flatMap_congr
    intro g _
    rw [List.map_map, List.map_flatMap, List.map_flatMap]
    apply List.flatMap_congr
    rintro ⟨anchors, k⟩ hk
    rw [List.map_map]
    refine map_filterMap_classId? (hdefined_of_mem hr fun a ha => ?_) _ _ _ fun _ _ => rfl
    exact List.mem_flatten.2 ⟨anchors, List.fst_mem_of_mem_zipIdx hk, ha⟩
  | _ => rfl

theorem classId?_of_mem_componentAnchors {c : ComponentAnchor}
    (hc : c ∈ componentAnchors marks rules) : marks.classId? c.name = some c.id := by
  obtain ⟨⟨r, i⟩, -, hc⟩ := List.mem_flatMap.1 hc
  dsimp only at hc
  split at hc
  · simp only [List.mem_flatMap, List.mem_map, List.mem_filterMap, Option.map_eq_some_iff] at hc
    obtain ⟨g, -, -, ⟨-, -, a, -, id, hid, rfl⟩, rfl⟩ := hc
    exact hid
  · cases hc

theorem keepsOnce_componentStep (place : LookupPlace) :
    KeepsOnce (componentStep place) (fun s slot => slot ∈ s.1) (fun s => s.2.length)
      ComponentAnchor.slot where
  kept_step s c slot := by
    obtain ⟨-, h⟩ | ⟨hkept, f, -, h⟩ := componentStep_cases place s c <;> rw [h]
    · rw [Std.TreeMap.mem_insert, Std.LawfulEqCmp.compare_eq_iff_eq, or_comm, eq_comm]
    · constructor
      · exact .inl
      · rintro (hslot | rfl)
        · exact hslot
        · exact hkept
  reports_new s c hnew := by
    obtain ⟨-, h⟩ | ⟨hkept, -⟩ := componentStep_cases place s c
    · rw [h]
    · exact absurd hkept hnew
  reports_kept s c hkept := by
    obtain ⟨hnew, -⟩ | ⟨-, f, -, h⟩ := componentStep_cases place s c
    · exact absurd hkept hnew
    · rw [h]
      rfl

/-- Keys that tell the same elements apart are repeated equally often. -/
theorem repeats_map_congr {α κ κ' : Type} [DecidableEq κ] [DecidableEq κ'] {f : α → κ}
    {g : α → κ'} {xs : List α} (h : ∀ x ∈ xs, ∀ y ∈ xs, f x = f y ↔ g x = g y) :
    repeats (xs.map f) = repeats (xs.map g) := by
  have hdistinct : (xs.map f).eraseDups.length = (xs.map g).eraseDups.length := by
    induction xs using List.reverseRecOn with
    | nil => rfl
    | append_singleton xs x ih =>
      have hfront := ih fun y hy z hz =>
        h y (List.mem_append_left _ hy) z (List.mem_append_left _ hz)
      have hmem : f x ∈ xs.map f ↔ g x ∈ xs.map g := by
        rw [List.mem_map, List.mem_map]
        exact exists_congr fun y => and_congr_right fun hy =>
          h y (List.mem_append_left _ hy) x (List.mem_append_right _ List.mem_cons_self)
      rw [List.map_append, List.map_append, List.map_singleton, List.map_singleton,
        eraseDups_concat, eraseDups_concat]
      by_cases hx : f x ∈ xs.map f
      · rw [if_pos hx, if_pos (hmem.1 hx), hfront]
      · rw [if_neg hx, if_neg (mt hmem.2 hx), List.length_append, List.length_append, hfront]
        rfl
  rw [repeats, repeats, List.length_map, List.length_map, hdistinct]

theorem length_ligatureFindings (hcount : (usedClasses defined rules).length ≤ 0xFFFF)
    (place : LookupPlace) :
    (ligatureFindings place (marksOf defined place rules) rules).length =
      repeats ((componentAssignments defined rules).map Assignment.slot) := by
  have hclasses : (marksOf defined place rules).classes.length ≤ 0xFFFF := by
    rw [marksOf, List.length_map]
    exact hcount
  rw [ligatureFindings, List.length_reverse,
    (keepsOnce_componentStep place).reports_eq_repeats (by simp) rfl,
    ← map_namedSlot_componentAnchors defined place rules]
  apply repeats_map_congr
  intro c hc c' hc'
  have hid := MarkSet.id_eq_iff hclasses (classId?_of_mem_componentAnchors hc)
    (classId?_of_mem_componentAnchors hc')
  simp [ComponentAnchor.slot, ComponentAnchor.namedSlot, UInt16.toNat_inj, hid]

/-! ## Lookups -/

theorem errorCount_append (fs gs : List Finding) :
    errorCount (fs ++ gs) = errorCount fs + errorCount gs := List.countP_append

theorem errorCount_markFindings (hcount : (usedClasses defined rules).length ≤ 0xFFFF)
    (place : LookupPlace) :
    errorCount (markFindings defined place rules) = (undefinedNames defined rules).length +
      (occurrences (referencedClasses defined rules)).countP
        (·.Contradicted (occurrences (referencedClasses defined rules))) := by
  rw [errorCount_of_forall_error fun f => level_of_mem_markFindings, markFindings,
    List.length_append, length_undefinedClasses,
    length_findings_gatherMarks (nodup_names_usedClasses defined rules) hcount, usedClasses_eq]

theorem errorCount_baseFindings (hcount : (usedClasses defined rules).length ≤ 0xFFFF)
    (kind : Kind) (place : LookupPlace) :
    errorCount (baseFindings kind place (marksOf defined place rules) rules) =
      (baseAssignments defined rules).countP (·.Contradicted (baseAssignments defined rules)) := by
  have hmissing : errorCount (missingAnchors kind place (marksOf defined place rules)
      (BaseCheck.ofAnchors kind place (baseAnchors (marksOf defined place rules) rules))) = 0 := by
    refine List.countP_eq_zero.2 fun f hf => ?_
    rw [level_of_mem_missingAnchors hf]
    decide
  rw [baseFindings_eq, errorCount_append, hmissing, Nat.add_zero, errorCount_of_forall_error,
    List.length_reverse, length_findings_ofAnchors hcount]
  intro f hf
  obtain ⟨g, n, h⟩ := BaseCheck.exists_of_mem_findings (by simp) f (List.mem_reverse.1 hf)
  exact congrArg Cause.level h

end

/-- **One error per conflict.** Validation finds as many errors in a lookup as it has conflicts: in
a cursive lookup, the rules less their distinct glyphs; where marks attach, names without a class,
occurrences of marks that are contradicted, and anchors of bases that are contradicted or anchors of
components that come again. -/
theorem errorCount_validateLookup (kind : Kind) (defined : List MarkClass) (place : LookupPlace)
    (rules : List Rule) (hcount : (referencedClasses defined rules).length ≤ 0xFFFF) :
    errorCount (validateLookup kind defined place rules).findings =
      conflictCount kind defined rules := by
  rw [← usedClasses_eq] at hcount
  cases kind with
  | cursivePos => exact errorCount_cursiveFindings place rules
  | markToBase | markToMark =>
    rw [validateLookup_eq (by decide), errorCount_append, errorCount_markFindings hcount]
    exact congrArg _ (errorCount_baseFindings hcount _ place)
  | markToLigature =>
    rw [validateLookup_eq (by decide), errorCount_append, errorCount_markFindings hcount]
    refine congrArg _ ?_
    dsimp only [anchorFindings]
    rw [errorCount_of_forall_error fun f => level_of_mem_ligatureFindings,
      length_ligatureFindings hcount]
  | _ => rfl

/-- Two mark classes that share a glyph; the first gives it two anchors. -/
def sharedMarks : List MarkClass :=
  [⟨"top", [(.singleton 10, ⟨5, 0, none⟩), (.singleton 10, ⟨6, 0, none⟩)]⟩,
    ⟨"bottom", [(.singleton 10, ⟨5, 0, none⟩)]⟩]

/-- Two rules that give a base different anchors. The first names a class that is not there. -/
def disputedBase : List Rule :=
  [⟨.markToBase (.singleton 1) [("top", ⟨100, 500, none⟩), ("side", ⟨0, 250, none⟩)], none, false⟩,
    ⟨.markToBase (.singleton 1) [("top", ⟨100, 510, none⟩), ("bottom", ⟨100, 0, none⟩)], none,
      false⟩]

/-- One error for the missing class, two for the shared mark, and one for the base. -/
theorem errorCount_disputedBase :
    (referencedClasses sharedMarks disputedBase).length ≤ 0xFFFF ∧
      errorCount (validateLookup .markToBase sharedMarks default disputedBase).findings =
        1 + 2 + 1 := by
  have hcount : (referencedClasses sharedMarks disputedBase).length ≤ 0xFFFF := by decide +kernel
  have hconflicts : conflictCount .markToBase sharedMarks disputedBase = 1 + 2 + 1 := by
    decide +kernel
  refine ⟨hcount, ?_⟩
  rw [errorCount_validateLookup .markToBase sharedMarks default disputedBase hcount, hconflicts]

end FontLayout
