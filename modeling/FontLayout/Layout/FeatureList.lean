import FontLayout.Binary.Table
import FontLayout.RuleSet
/-!
# Script and feature lists

Each feature is registered for scripts and languages. The feature list holds every combination
of a tag and a set of lookups once, and each language system refers to the ones that are
registered for it by their places in that list. A feature that reaches no lookup of the table at
hand is not registered at all.

Results:
* `Registration.eq_of_compare`, `FeatureRecord.eq_of_compare`: the orders that the lists are
  sorted by tell different entries apart.
-/
namespace FontLayout

/-! ## Registrations -/

/-- A feature under one language system of one script. -/
structure Registration where
  feature : Tag
  script : Tag
  language : Tag
deriving DecidableEq

namespace Registration

/-- By feature, then by script, then by language. -/
def cmp : Registration → Registration → Ordering :=
  compareLex (compareOn feature) (compareLex (compareOn script) (compareOn language))

instance : Ord Registration := ⟨cmp⟩

instance : Std.TransOrd Registration :=
  inferInstanceAs (Std.TransCmp
    (compareLex (compareOn feature) (compareLex (compareOn script) (compareOn language))))

theorem eq_of_compare {a b : Registration} (h : cmp a b = .eq) : a = b := by
  obtain ⟨_, _, _⟩ := a
  obtain ⟨_, _, _⟩ := b
  simp only [cmp, compareLex, compareOn, Ordering.then_eq_eq,
    Std.LawfulEqCmp.compare_eq_iff_eq] at h
  simp [h]

instance : Std.LawfulEqOrd Registration := ⟨eq_of_compare⟩

end Registration

/-- A feature as the feature list holds it: its tag and the places of its lookups. -/
structure FeatureRecord where
  tag : Tag
  lookups : List UInt16
deriving DecidableEq

namespace FeatureRecord

/-- By tag, then by lookups. -/
def cmp : FeatureRecord → FeatureRecord → Ordering :=
  compareLex (compareOn tag) (compareOn lookups)

instance : Ord FeatureRecord := ⟨cmp⟩

instance : Std.TransOrd FeatureRecord :=
  inferInstanceAs (Std.TransCmp (compareLex (compareOn tag) (compareOn lookups)))

theorem eq_of_compare {a b : FeatureRecord} (h : cmp a b = .eq) : a = b := by
  obtain ⟨_, _⟩ := a
  obtain ⟨_, _⟩ := b
  simp only [cmp, compareLex, compareOn, Ordering.then_eq_eq,
    Std.LawfulEqCmp.compare_eq_iff_eq] at h
  simp [h]

instance : Std.LawfulEqOrd FeatureRecord := ⟨eq_of_compare⟩

end FeatureRecord

/-- The places of a table's lookups in its lookup list, by their places in the rule set. -/
abbrev LookupPlaces := Std.TreeMap Nat UInt16

namespace RuleSet

/-- The places that the lookups of one purpose take in their table. -/
def placesFor (s : RuleSet) (p : Purpose) : LookupPlaces :=
  (s.lookupsFor p).zipIdx.foldl (fun t (l, i) => t.insert l.2 (UInt16.ofNat i)) ∅

end RuleSet

namespace Feature

/-- The places in a table of the lookups that a feature uses, each once. -/
def placesIn (f : Feature) (places : LookupPlaces) : Std.TreeSet UInt16 :=
  (f.lookups.filterMap (places[·]?)).foldl (fun t i => t.insert i) ∅

/-- The language systems a feature is registered for; without any, the default system. -/
def systems (f : Feature) : List (Tag × Tag) :=
  if f.languageSystems.isEmpty then [(.defaultScript, .defaultLanguage)] else f.languageSystems

end Feature

/-- The lookups of each registration. -/
abbrev Registrations := Std.TreeMap Registration (Std.TreeSet UInt16)

namespace Registrations

/-- Registers lookups for a feature under one more language system. -/
def register (tag : Tag) (lookups : Std.TreeSet UInt16) (r : Registrations)
    (system : Tag × Tag) : Registrations :=
  let key : Registration := ⟨tag, system.1, system.2⟩
  match r[key]? with
  | none => r.insert key lookups
  | some known => r.insert key (lookups.toList.foldl (fun t i => t.insert i) known)

/-- Registers a feature for all its language systems, if it has a lookup in the table. -/
def add (places : LookupPlaces) (r : Registrations) (f : Feature) : Registrations :=
  let lookups := f.placesIn places
  if lookups.isEmpty then r else f.systems.foldl (register f.tag lookups) r

/-- The registrations of a list of features. -/
def ofFeatures (features : List Feature) (places : LookupPlaces) : Registrations :=
  features.foldl (add places) ∅

end Registrations

/-! ## The lists -/

/-- The feature list, by its records in order. -/
abbrev FeatureList := List FeatureRecord

/-- The language systems of a script: the places of their features in the feature list. The
default system is kept apart. -/
structure Script where
  defaultSystem : Option (List UInt16)
  systems : List (Tag × List UInt16)
deriving DecidableEq

/-- The script list, in order. -/
abbrev ScriptList := List (Tag × Script)

namespace Registrations

/-- The record that a registration asks for. -/
def recordOf (e : Registration × Std.TreeSet UInt16) : FeatureRecord :=
  ⟨e.1.feature, e.2.toList⟩

/-- Every record that some registration asks for, in order. -/
def featureList (r : Registrations) : FeatureList :=
  (r.toList.foldl (fun (t : Std.TreeSet FeatureRecord) e => t.insert (recordOf e)) ∅).toList

/-- The place of each record of a feature list. -/
def placesOf (features : FeatureList) : Std.TreeMap FeatureRecord UInt16 :=
  features.zipIdx.foldl (fun t (f, i) => t.insert f (UInt16.ofNat i)) ∅

/-- The features of each language of each script, by their places. -/
abbrev SystemTree := Std.TreeMap Tag (Std.TreeMap Tag (Std.TreeSet UInt16))

/-- Adds the feature of one registration to its language system. -/
def addSystem (places : Std.TreeMap FeatureRecord UInt16) (t : SystemTree)
    (e : Registration × Std.TreeSet UInt16) : SystemTree :=
  let languages := t.getD e.1.script ∅
  let features : Std.TreeSet UInt16 := languages.getD e.1.language ∅
  t.insert e.1.script
    (languages.insert e.1.language (features.insert (places.getD (recordOf e) 0)))

/-- The script that lists these language systems. -/
def scriptOf (languages : Std.TreeMap Tag (Std.TreeSet UInt16)) : Script where
  defaultSystem := languages[Tag.defaultLanguage]?.map Std.TreeSet.toList
  systems := languages.toList.filterMap fun (language, features) =>
    if language = .defaultLanguage then none else some (language, features.toList)

/-- The script list of the registrations. -/
def scriptList (r : Registrations) : ScriptList :=
  let places := placesOf r.featureList
  (r.toList.foldl (addSystem places) ∅).toList.map fun (tag, languages) => (tag, scriptOf languages)

end Registrations

/-! ## Encoding -/

/-- A counted list of tags, each with a link to a table, then the rest. -/
def taggedLinks (l : Link) (children : List (Tag × Table)) (rest : Table) : Table :=
  .count children.length <|
    children.foldr (fun c rest => .bytes (pushBytes .empty c.1.bytes) <| .link l c.2 rest) rest

/-- A language system: no reordering, no required feature, and the places of its features. -/
def languageSystemTable (features : List UInt16) : Table :=
  .words [0, 0xFFFF] <| .countedWords features .done

/-- The table of a script. -/
def Script.table (s : Script) : Table :=
  .link? (.near .languageSystem) (s.defaultSystem.map languageSystemTable) <|
    taggedLinks (.near .languageSystem) (s.systems.map fun l => (l.1, languageSystemTable l.2))
      .done

/-- The table of a script list. -/
def scriptListTable (scripts : ScriptList) : Table :=
  taggedLinks (.near .script) (scripts.map fun s => (s.1, s.2.table)) .done

/-- The table of a feature: no parameters, and the places of its lookups. -/
def FeatureRecord.table (f : FeatureRecord) : Table :=
  .null .short <| .countedWords f.lookups .done

/-- The table of a feature list. -/
def featureListTable (features : FeatureList) : Table :=
  taggedLinks (.near .feature) (features.map fun f => (f.tag, f.table)) .done

end FontLayout
