import FontLayout.Diagnostic.Audit
import FontLayout.RuleSet
import FontLayout.Subtable.Basic
/-!
# The marks of a lookup

A lookup that attaches marks numbers the mark classes its rules name, in the order in which they
are first named, and gathers the glyphs of these classes with their anchors. A glyph keeps the
first class and the first anchor that it is given; later ones are findings.

Results:
* `firstNamed_nodup`: no class is numbered twice.
-/
namespace FontLayout

/-- The mark classes of a lookup by name, in the order of their numbers, and all their glyphs. -/
structure MarkSet where
  classes : List String
  marks : MarkRecords
deriving DecidableEq, Inhabited

namespace MarkSet

/-- The number of a class, as a word. -/
def classId? (m : MarkSet) (name : String) : Option UInt16 :=
  (m.classes.idxOf? name).map UInt16.ofNat

/-- The number of classes, as a word. -/
def classCount (m : MarkSet) : UInt16 := UInt16.ofNat m.classes.length

end MarkSet

/-! ## Names -/

/-- The mark classes that a rule names, in order, with the anchors it gives. -/
def RuleBody.markAnchors : RuleBody → MarkAnchors
  | .markToBase _ marks | .markToMark _ marks => marks
  | .markToLigature _ components => components.flatten
  | _ => []

/-- The mark classes that rules name, in order, each with the line on which it is named. -/
def namedClasses (rules : List Rule) : List (String × Option UInt32) :=
  rules.flatMap fun r => r.body.markAnchors.map fun m => (m.1, r.line)

/-- Names seen so far, and the elements that brought a new one, last first. -/
def firstNamedStep (s : Std.TreeSet String × List (String × Option UInt32))
    (x : String × Option UInt32) : Std.TreeSet String × List (String × Option UInt32) :=
  if s.1.contains x.1 then s else (s.1.insert x.1, x :: s.2)

/-- The first element for each name, in order. -/
def firstNamed (xs : List (String × Option UInt32)) : List (String × Option UInt32) :=
  (xs.foldl firstNamedStep (∅, [])).2.reverse

theorem firstNamed_fold_nodup (xs : List (String × Option UInt32))
    (s : Std.TreeSet String × List (String × Option UInt32))
    (h : (s.2.map Prod.fst).Nodup) (hs : ∀ x ∈ s.2, x.1 ∈ s.1) :
    ((xs.foldl firstNamedStep s).2.map Prod.fst).Nodup := by
  induction xs generalizing s with
  | nil => exact h
  | cons x xs ih =>
    rw [List.foldl_cons]
    unfold firstNamedStep
    split
    · exact ih s h hs
    · next hx =>
      rw [Std.TreeSet.contains_iff_mem] at hx
      refine ih _ ?_ ?_
      · refine List.nodup_cons.2 ⟨fun hm => ?_, h⟩
        obtain ⟨y, hy, e⟩ := List.mem_map.1 hm
        exact hx (e ▸ hs y hy)
      · intro y hy
        rw [Std.TreeSet.mem_insert, Std.LawfulEqCmp.compare_eq_iff_eq]
        rcases List.mem_cons.1 hy with rfl | hy
        · exact .inl rfl
        · exact .inr (hs y hy)

theorem firstNamed_nodup (xs : List (String × Option UInt32)) :
    ((firstNamed xs).map Prod.fst).Nodup := by
  rw [firstNamed, List.map_reverse]
  exact List.pairwise_reverse.2 ((firstNamed_fold_nodup xs (∅, []) .nil (by simp)).imp Ne.symm)

/-! ## Gathering -/

/-- A glyph that a mark class gives an anchor to, with the number and the name of the class. -/
structure Membership where
  glyph : Glyph
  id : Nat
  name : String
  anchor : Anchor
deriving DecidableEq

/-- Every membership of some mark classes, in order. -/
def memberships (classes : List MarkClass) : List Membership :=
  classes.zipIdx.flatMap fun (c, id) =>
    c.members.flatMap fun (glyphs, anchor) =>
      glyphs.members.map fun g => ⟨g, id, c.name, anchor⟩

/-- Marks gathered so far, and the findings, last first. -/
structure Gathering where
  marks : Std.TreeMap Glyph (UInt16 × Anchor)
  findings : List Finding

/-- Adds a membership, if its glyph is new, and otherwise compares it with the first one. -/
def Gathering.step (names : List String) (place : LookupPlace) (s : Gathering) (m : Membership) :
    Gathering :=
  match s.marks[m.glyph]? with
  | none => { s with marks := s.marks.insert m.glyph (UInt16.ofNat m.id, m.anchor) }
  | some (id, anchor) =>
    if id.toNat ≠ m.id then
      let cause := .markInTwoClasses place m.glyph (names.getD id.toNat "") m.name
      { s with findings := ⟨place.site, cause⟩ :: s.findings }
    else if anchor ≠ m.anchor then
      let cause := .markWithTwoAnchors place m.glyph m.name
      { s with findings := ⟨place.site, cause⟩ :: s.findings }
    else s

/-- The marks of some classes, with a finding for each membership that is overruled. -/
def gatherMarks (classes : List MarkClass) (place : LookupPlace) : Gathering :=
  let names := classes.map MarkClass.name
  let s := (memberships classes).foldl (Gathering.step names place) ⟨∅, []⟩
  { s with findings := s.findings.reverse }

/-- The mark classes that rules name and the rule set defines, in the order of first naming. -/
def usedClasses (defined : List MarkClass) (rules : List Rule) : List MarkClass :=
  let named := (namedClasses rules).filter fun x => defined.any (·.name == x.1)
  (firstNamed named).filterMap fun x => defined.find? (·.name == x.1)

/-- A finding for each mark class that rules name and the rule set does not define. -/
def undefinedClasses (defined : List MarkClass) (place : LookupPlace) (rules : List Rule) :
    List Finding :=
  let named := (namedClasses rules).filter fun x => !defined.any (·.name == x.1)
  (firstNamed named).map fun x => ⟨place.siteAt x.2, .undefinedMarkClass place x.1⟩

/-- The marks of a lookup. -/
def collectMarks (defined : List MarkClass) (place : LookupPlace) (rules : List Rule) :
    Audit MarkSet :=
  let classes := usedClasses defined rules
  let gathered := gatherMarks classes place
  .tell (undefinedClasses defined place rules ++ gathered.findings)
    ⟨classes.map MarkClass.name, .ofTree gathered.marks⟩

end FontLayout
