import FontLayout.Rule
/-!
# Rule documents

A rule document says what a rule set says, with glyphs, classes and lookups by name. Glyph sets
are written as one name or as a list of names; a single name that starts with `@` is that of a
class. Classes keep the order in which they are written, because replacements are paired with
targets in that order.

Results:
* `Dictionary.ofList_entries`: a dictionary is filled from its own entries unchanged.
-/
namespace FontLayout

/-! ## Dictionaries -/

/-- Values by name, in the order in which the names were first given. -/
structure Dictionary (α : Type) where
  entries : List (String × α)
  nodup : (entries.map Prod.fst).Nodup

namespace Dictionary
variable {α : Type}

theorem ext_entries {a b : Dictionary α} (h : a.entries = b.entries) : a = b := by
  cases a; cases b; cases h; rfl

instance [DecidableEq α] : DecidableEq (Dictionary α) := fun a b =>
  decidable_of_iff (a.entries = b.entries) ⟨ext_entries, fun h => h ▸ rfl⟩

/-- No name has a value. -/
def empty : Dictionary α := ⟨[], .nil⟩

instance : Inhabited (Dictionary α) := ⟨empty⟩

/-- Entries with a value put to a name: in its place, or at the end. -/
def put (name : String) (a : α) : List (String × α) → List (String × α)
  | [] => [(name, a)]
  | (k, b) :: rest => if k = name then (k, a) :: rest else (k, b) :: put name a rest

theorem map_fst_put (name : String) (a : α) (xs : List (String × α)) :
    (put name a xs).map Prod.fst =
      if name ∈ xs.map Prod.fst then xs.map Prod.fst else xs.map Prod.fst ++ [name] := by
  induction xs with
  | nil => rfl
  | cons x xs ih =>
    obtain ⟨k, b⟩ := x
    unfold put
    by_cases h : k = name
    · simp [h]
    · have h' : ¬ name = k := fun e => h e.symm
      rw [if_neg h, List.map_cons, ih]
      by_cases hm : name ∈ xs.map Prod.fst
      · simp only [hm, if_true, List.map_cons, List.mem_cons, or_true]
      · simp only [hm, if_false, List.map_cons, List.mem_cons, h', or_false, List.cons_append]

theorem put_of_notMem (name : String) (a : α) (xs : List (String × α))
    (h : name ∉ xs.map Prod.fst) : put name a xs = xs ++ [(name, a)] := by
  induction xs with
  | nil => rfl
  | cons x xs ih =>
    rw [List.map_cons, List.mem_cons, not_or] at h
    rw [put, if_neg (fun e => h.1 e.symm), ih h.2]
    rfl

/-- The dictionary with a value put to a name. -/
def insert (d : Dictionary α) (name : String) (a : α) : Dictionary α where
  entries := put name a d.entries
  nodup := by
    rw [map_fst_put]
    split
    · exact d.nodup
    · next h =>
      refine List.pairwise_append.2 ⟨d.nodup, List.pairwise_singleton _ _, ?_⟩
      intro x hx y hy
      rw [List.mem_singleton] at hy
      subst hy
      exact fun e => h (e ▸ hx)

/-- The dictionary of some entries; a later value of a name replaces an earlier one. -/
def ofList (xs : List (String × α)) : Dictionary α :=
  xs.foldl (fun d x => d.insert x.1 x.2) empty

theorem foldl_insert_entries (xs : List (String × α)) (d : Dictionary α)
    (h : ((d.entries ++ xs).map Prod.fst).Nodup) :
    (xs.foldl (fun d x => d.insert x.1 x.2) d).entries = d.entries ++ xs := by
  induction xs generalizing d with
  | nil => simp
  | cons x xs ih =>
    have hx : x.1 ∉ d.entries.map Prod.fst := by
      rw [List.map_append, List.map_cons] at h
      have := (List.pairwise_append.1 h).2.2
      exact fun hm => this _ hm _ (List.mem_cons_self ..) rfl
    have he : (d.insert x.1 x.2).entries = d.entries ++ [x] := put_of_notMem _ _ _ hx
    rw [List.foldl_cons, ih]
    · rw [he, List.append_assoc]; rfl
    · rw [he, List.append_assoc]; exact h

theorem ofList_entries (d : Dictionary α) : ofList d.entries = d :=
  ext_entries (by simpa [ofList, empty] using foldl_insert_entries d.entries empty d.nodup)

/-- The value of a name. -/
def find? (d : Dictionary α) (name : String) : Option α := d.entries.lookup name

end Dictionary

namespace Document

/-! ## Names -/

/-- A glyph set as it is written: one name, which may be that of a class, or several. -/
inductive GlyphNames where
  | one (name : String)
  | many (names : List String)
deriving DecidableEq, Inhabited

/-- A lookup as it is referred to: by its place in the document, or by name. -/
inductive LookupRef where
  | index (i : UInt64)
  | name (s : String)
deriving DecidableEq

/-- A flag of a lookup. -/
inductive Flag where
  | rightToLeft
  | ignoreBaseGlyphs
  | ignoreLigatures
  | ignoreMarks
  | useMarkFilteringSet
deriving DecidableEq

namespace Flag

/-- Every flag, lowest bit first. -/
def all : List Flag :=
  [.rightToLeft, .ignoreBaseGlyphs, .ignoreLigatures, .ignoreMarks, .useMarkFilteringSet]

/-- The bit of a flag. -/
def bit : Flag → UInt16
  | .rightToLeft => 1
  | .ignoreBaseGlyphs => 2
  | .ignoreLigatures => 4
  | .ignoreMarks => 8
  | .useMarkFilteringSet => 16

/-- How a flag is written. -/
def keyword : Flag → String
  | .rightToLeft => "right_to_left"
  | .ignoreBaseGlyphs => "ignore_base_glyphs"
  | .ignoreLigatures => "ignore_ligatures"
  | .ignoreMarks => "ignore_marks"
  | .useMarkFilteringSet => "use_mark_filtering_set"

/-- The flag that a word names. -/
def ofKeyword? (word : String) : Option Flag := all.find? (·.keyword == word)

theorem ofKeyword?_keyword (f : Flag) : ofKeyword? f.keyword = some f := by
  cases f <;> decide

end Flag

/-! ## Rules -/

/-- Glyphs of a mark class that share an anchor. -/
structure MarkMember where
  glyphs : GlyphNames
  anchor : Anchor
deriving DecidableEq

/-- An anchor for the marks of a class. -/
structure MarkAnchor where
  markClass : String
  anchor : Anchor
deriving DecidableEq

/-- An input position of a contextual rule. -/
structure ContextInput where
  glyphs : GlyphNames
  lookups : List LookupRef
deriving DecidableEq

/-- A run of glyphs in its surroundings. -/
structure Context where
  backtrack : List GlyphNames
  input : List ContextInput
  lookahead : List GlyphNames
deriving DecidableEq

/-- What a rule does, by name. A rule may stand for several rules of the rule set. -/
inductive RuleBody where
  | singleSub (target replacement : GlyphNames)
  | multipleSub (target : String) (replacement : List String)
  | alternateSub (target : String) (alternates : GlyphNames)
  | ligatureSub (components : List String) (replacement : String)
  | chainSub (context : Context)
  | reverseChainSub (backtrack : List GlyphNames) (target replacement : GlyphNames)
      (lookahead : List GlyphNames)
  | singlePos (glyphs : GlyphNames) (value : ValueRecord)
  | pairPos (first second : GlyphNames) (value1 value2 : ValueRecord)
  | cursivePos (glyph : String) (entry exit : Option Anchor)
  | markToBase (base : GlyphNames) (marks : List MarkAnchor)
  | markToLigature (ligature : GlyphNames) (components : List (List MarkAnchor))
  | markToMark (baseMark : GlyphNames) (marks : List MarkAnchor)
  | chainPos (context : Context)
deriving DecidableEq

/-- A rule, its line, and whether a break precedes it. -/
structure Rule where
  body : RuleBody
  line : Option UInt32
  subtableBreak : Bool
deriving DecidableEq

/-! ## The parts of a document -/

/-- A lookup. -/
structure Lookup where
  name : Option String
  kind : Kind
  flags : List Flag
  markFilterSet : Option GlyphNames
  markAttachment : Option GlyphNames
  rules : List Rule
deriving DecidableEq

/-- A feature, its language systems, and its lookups. -/
structure Feature where
  tag : String
  languageSystems : List (String × String)
  lookups : List LookupRef
deriving DecidableEq

/-- Glyphs by their role. -/
structure GlyphClasses where
  base : GlyphNames
  ligature : GlyphNames
  mark : GlyphNames
  component : GlyphNames
deriving DecidableEq

/-- The carets of a ligature; positions count if both are given. -/
structure Caret where
  glyph : String
  positions : List Int16
  contourPoints : List UInt16
  line : Option UInt32
deriving DecidableEq

/-- Roles and carets. -/
structure GlyphFacts where
  classes : Option GlyphClasses
  carets : List Caret
deriving DecidableEq, Inhabited

end Document

/-- A rule document. -/
structure Document where
  fontName : String
  glyphOrder : List String
  classes : Dictionary Document.GlyphNames
  markClasses : Dictionary (List Document.MarkMember)
  lookups : List Document.Lookup
  features : List Document.Feature
  glyphFacts : Document.GlyphFacts
deriving DecidableEq

namespace Document

/-- Names for the glyphs from place `i` on that have none. -/
def paddingFrom (i n : Nat) : List String := (List.range' i (n - i)).map fun i => "g" ++ toString i

/-- The document with its glyph order filled up to `n` names. -/
def pad (d : Document) (n : Nat) : Document :=
  { d with glyphOrder := d.glyphOrder ++ paddingFrom d.glyphOrder.length n }

end Document
end FontLayout
