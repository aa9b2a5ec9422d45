import FontLayout.Layout.FeatureList
import FontLayout.Proofs.Glyph.Keyed
/-!
# What the script list and the feature list say

A feature reaches places of a table, and is registered for language systems. The two lists say the
same in another form: each language system refers to one record of the feature list for each tag,
and the record holds all places that features with this tag reach there.

Both are made by adding to sets that are there or not, so one notion and one induction serve both:
a set collects what a predicate holds of, and is missing if it holds of nothing.

Results:
* `Collects.foldl`: what a run adds to the set in a state, if each step adds something.
* `Registrations.collects_ofFeatures`: what is registered under each key.
* `Registrations.getElem?_placesOf`: each record of the feature list is found at its place.
* `Registrations.collects_systems`: what each language system refers to.
* `Registrations.lists_ofFeatures`: what both lists say of the features.
-/
namespace FontLayout

/-! ## Features -/

namespace Feature
variable {f : Feature} {places : LookupPlaces} {x : UInt16}

/-- Whether one of the lookups of a feature has this place in the table. -/
def Reaches (f : Feature) (places : LookupPlaces) (x : UInt16) : Prop :=
  ∃ l ∈ f.lookups, places[l]? = some x

theorem mem_placesIn : x ∈ f.placesIn places ↔ f.Reaches places x := by
  have h := mem_foldl_insert id (f.lookups.filterMap (places[·]?)) ∅ (k := x)
  refine h.trans ((or_iff_left Std.TreeSet.not_mem_emptyc).trans ?_)
  simp only [id_eq, exists_eq_right, List.mem_filterMap]
  exact Iff.rfl

end Feature

/-- Whether some feature with the tag of a key is registered for its language system and reaches
this place. -/
def Registers (features : List Feature) (places : LookupPlaces) (key : Registration)
    (x : UInt16) : Prop :=
  ∃ f ∈ features, f.tag = key.feature ∧ (key.script, key.language) ∈ f.systems ∧
    f.Reaches places x

/-! ## Collected sets -/

/-- Whether a set holds exactly what `P` holds of; if `P` holds of nothing, there is no set. -/
def Collects (P : UInt16 → Prop) : Option (Std.TreeSet UInt16) → Prop
  | none => ∀ x, ¬ P x
  | some s => (∃ x, P x) ∧ ∀ x, x ∈ s ↔ P x

namespace Collects
variable {P Q : UInt16 → Prop} {o : Option (Std.TreeSet UInt16)} {s : Std.TreeSet UInt16}

theorem mem_iff (h : Collects P o) {x : UInt16} : (∃ s, o = some s ∧ x ∈ s) ↔ P x := by
  cases o with
  | none => simp [h x]
  | some s => simp [h.2 x]

theorem isSome_iff (h : Collects P o) : (∃ s, o = some s) ↔ ∃ x, P x := by
  cases o with
  | none => exact ⟨fun ⟨_, hs⟩ => (nomatch hs), fun ⟨x, hx⟩ => absurd hx (h x)⟩
  | some s => exact ⟨fun _ => h.1, fun _ => ⟨s, rfl⟩⟩

theorem congr (h : Collects P o) (hPQ : ∀ x, P x ↔ Q x) : Collects Q o := by
  have he : P = Q := funext fun x => propext (hPQ x)
  rwa [← he]

/-- A set that adds to another, or that is made where there was none. -/
theorem add (h : Collects P o) (hQ : ∃ x, Q x)
    (hs : ∀ x, x ∈ s ↔ (∃ s', o = some s' ∧ x ∈ s') ∨ Q x) :
    Collects (fun x => P x ∨ Q x) (some s) := by
  obtain ⟨y, hy⟩ := hQ
  exact ⟨⟨y, .inr hy⟩, fun x => (hs x).trans (or_congr_left h.mem_iff)⟩

section
variable {σ α : Type} (get : σ → Option (Std.TreeSet UInt16)) {step : σ → α → σ}
  {R : α → UInt16 → Prop}
  (hstep : ∀ t P, Collects P (get t) → ∀ a, Collects (fun x => P x ∨ R a x) (get (step t a)))
include hstep

/-- If each step adds to the set that is kept in a state, a run adds what all steps add. -/
theorem foldl {t : σ} (h : Collects P (get t)) (as : List α) :
    Collects (fun x => P x ∨ ∃ a ∈ as, R a x) (get (as.foldl step t)) := by
  induction as generalizing t P with
  | nil => exact h.congr fun x => by simp
  | cons a as ih =>
    refine (ih (hstep t P h a)).congr fun x => ?_
    simp only [List.exists_mem_cons_iff, or_assoc]

theorem foldl_of_none {t : σ} (h : get t = none) (as : List α) :
    Collects (fun x => ∃ a ∈ as, R a x) (get (as.foldl step t)) := by
  have hempty : Collects (fun _ => False) (get t) := by
    rw [h]
    exact fun _ hx => hx
  exact (foldl get hstep hempty as).congr fun x => or_iff_right not_false

end

end Collects

/-! ## Registrations -/

namespace Registrations
variable {r : Registrations} {key : Registration} {P : UInt16 → Prop}

theorem collects_register (h : Collects P r[key]?) {lookups : Std.TreeSet UInt16}
    (hlookups : ∃ x, x ∈ lookups) (tag : Tag) (system : Tag × Tag) :
    Collects (fun x => P x ∨ key = ⟨tag, system.1, system.2⟩ ∧ x ∈ lookups)
      (register tag lookups r system)[key]? := by
  by_cases hkey : key = ⟨tag, system.1, system.2⟩
  · subst hkey
    simp only [register, true_and]
    split
    · next hnone =>
      rw [Std.TreeMap.getElem?_insert_self]
      exact h.add hlookups fun x => by simp [hnone]
    · next known hknown =>
      rw [Std.TreeMap.getElem?_insert_self]
      refine h.add hlookups fun x => ?_
      rw [hknown, or_comm]
      simpa [Std.TreeSet.mem_toList] using mem_foldl_insert id lookups.toList known (k := x)
  · have hne : compare (⟨tag, system.1, system.2⟩ : Registration) key ≠ .eq :=
      fun he => hkey (Std.LawfulEqCmp.eq_of_compare he).symm
    have hsame : (register tag lookups r system)[key]? = r[key]? := by
      simp only [register]
      split <;> rw [Std.TreeMap.getElem?_insert, if_neg hne]
    rw [hsame]
    exact h.congr fun x => (or_iff_left fun hx => hkey hx.1).symm

theorem collects_foldl_register {lookups : Std.TreeSet UInt16} (hlookups : ∃ x, x ∈ lookups)
    (tag : Tag) (systems : List (Tag × Tag)) (h : Collects P r[key]?) :
    Collects (fun x => P x ∨ tag = key.feature ∧ (key.script, key.language) ∈ systems ∧
      x ∈ lookups) (systems.foldl (register tag lookups) r)[key]? := by
  have hrun := Collects.foldl (fun r : Registrations => r[key]?)
    (fun r P h system => collects_register h hlookups tag system) h systems
  refine hrun.congr fun x => or_congr_right ?_
  obtain ⟨feature, script, language⟩ := key
  simp only [Registration.mk.injEq, Prod.exists]
  constructor
  · rintro ⟨_, _, hsystem, ⟨rfl, rfl, rfl⟩, hx⟩
    exact ⟨rfl, hsystem, hx⟩
  · rintro ⟨rfl, hsystem, hx⟩
    exact ⟨script, language, hsystem, ⟨rfl, rfl, rfl⟩, hx⟩

theorem collects_add (h : Collects P r[key]?) (places : LookupPlaces) (f : Feature) :
    Collects (fun x => P x ∨ f.tag = key.feature ∧ (key.script, key.language) ∈ f.systems ∧
      f.Reaches places x) (add places r f)[key]? := by
  simp only [add]
  split
  · next hempty =>
    rw [Std.TreeSet.isEmpty_iff_forall_not_mem] at hempty
    exact h.congr fun x => (or_iff_left fun hx => hempty x (Feature.mem_placesIn.2 hx.2.2)).symm
  · next hfilled =>
    rw [Bool.not_eq_true, Std.TreeSet.isEmpty_eq_false_iff_exists_mem] at hfilled
    refine (collects_foldl_register hfilled f.tag f.systems h).congr fun x => ?_
    rw [Feature.mem_placesIn]

/-- Under each key, those places are registered that features with its tag reach. -/
theorem collects_ofFeatures (features : List Feature) (places : LookupPlaces)
    (key : Registration) :
    Collects (Registers features places key) (ofFeatures features places)[key]? :=
  Collects.foldl_of_none (fun r : Registrations => r[key]?)
    (fun _ _ h f => collects_add h places f) Std.TreeMap.getElem?_emptyc features

/-! ## The feature list -/

theorem mem_featureList {f : FeatureRecord} :
    f ∈ r.featureList ↔ ∃ key lookups, r[key]? = some lookups ∧ recordOf (key, lookups) = f := by
  rw [featureList, Std.TreeSet.mem_toList, mem_foldl_insert,
    or_iff_left Std.TreeSet.not_mem_emptyc, Prod.exists]
  simp only [Std.TreeMap.mem_toList_iff_getElem?_eq_some]

/-- The feature list is sorted by tag and then by lookups. -/
theorem sorted_featureList (r : Registrations) :
    r.featureList.Pairwise fun f g => compare f g = .lt := Std.TreeSet.ordered_toList

/-- Each record of a feature list is found at its place, if a word can tell all places. -/
theorem getElem?_placesOf {features : FeatureList} (hnodup : features.Nodup)
    (hlength : features.length ≤ 65536) {f : FeatureRecord} (hf : f ∈ features) :
    features[((placesOf features).getD f 0).toNat]? = some f := by
  obtain ⟨i, hi⟩ := List.mem_iff_getElem?.1 hf
  have hlt := (List.getElem?_eq_some_iff.1 hi).1
  have hfound : (placesOf features)[f]? = some (UInt16.ofNat i) :=
    getElem?_foldl_zipIdx id (by rwa [List.map_id]) hi
  rw [Std.TreeMap.getD_eq_getD_getElem?, hfound, Option.getD_some,
    UInt16.toNat_ofNat_of_lt' (Nat.lt_of_lt_of_le hlt hlength), hi]

/-! ## Language systems -/

/-- The features of a language system in a tree, by their places. -/
def SystemTree.system? (t : SystemTree) (script language : Tag) : Option (Std.TreeSet UInt16) :=
  t[script]?.bind (·[language]?)

section
variable (places : Std.TreeMap FeatureRecord UInt16) (t : SystemTree)
  (e : Registration × Std.TreeSet UInt16)

theorem system?_addSystem_self :
    SystemTree.system? (addSystem places t e) e.1.script e.1.language =
      some (((SystemTree.system? t e.1.script e.1.language).getD ∅).insert
        (places.getD (recordOf e) 0)) := by
  rw [SystemTree.system?, addSystem, Std.TreeMap.getElem?_insert_self, Option.bind_some,
    Std.TreeMap.getElem?_insert_self, Std.TreeMap.getD_eq_getD_getElem?,
    Std.TreeMap.getD_eq_getD_getElem?, SystemTree.system?]
  cases t[e.1.script]? with
  | none => rw [Option.getD_none, Std.TreeMap.getElem?_emptyc, Option.bind_none]
  | some languages => rfl

theorem system?_addSystem_of_ne {script language : Tag}
    (h : ¬ (e.1.script = script ∧ e.1.language = language)) :
    SystemTree.system? (addSystem places t e) script language =
      SystemTree.system? t script language := by
  rw [SystemTree.system?, addSystem, Std.TreeMap.getElem?_insert]
  by_cases hs : e.1.script = script
  · have hl : compare e.1.language language ≠ .eq :=
      fun he => h ⟨hs, Std.LawfulEqCmp.eq_of_compare he⟩
    rw [if_pos (Std.LawfulEqCmp.compare_eq_iff_eq.2 hs), Option.bind_some,
      Std.TreeMap.getElem?_insert, if_neg hl, Std.TreeMap.getD_eq_getD_getElem?, hs,
      SystemTree.system?]
    cases t[script]? with
    | none => rw [Option.getD_none, Std.TreeMap.getElem?_emptyc, Option.bind_none]
    | some languages => rfl
  · rw [if_neg fun he => hs (Std.LawfulEqCmp.eq_of_compare he), SystemTree.system?]

end

theorem collects_addSystem {t : SystemTree} {script language : Tag}
    (h : Collects P (SystemTree.system? t script language))
    (places : Std.TreeMap FeatureRecord UInt16) (e : Registration × Std.TreeSet UInt16) :
    Collects (fun i => P i ∨ (e.1.script = script ∧ e.1.language = language) ∧
        places.getD (recordOf e) 0 = i)
      (SystemTree.system? (addSystem places t e) script language) := by
  by_cases he : e.1.script = script ∧ e.1.language = language
  · obtain ⟨rfl, rfl⟩ := he
    rw [system?_addSystem_self]
    refine h.add ⟨_, ⟨rfl, rfl⟩, rfl⟩ fun x => ?_
    rw [Std.TreeSet.mem_insert, Std.LawfulEqCmp.compare_eq_iff_eq, or_comm]
    cases SystemTree.system? t e.1.script e.1.language with
    | none => simp
    | some s => simp
  · rw [system?_addSystem_of_ne places t e he]
    exact h.congr fun x => (or_iff_left fun hx => he hx.1).symm

/-- A language system refers to the records of all its registrations. -/
theorem collects_systems (places : Std.TreeMap FeatureRecord UInt16)
    (es : List (Registration × Std.TreeSet UInt16)) (script language : Tag) :
    Collects (fun i => ∃ e ∈ es, (e.1.script = script ∧ e.1.language = language) ∧
        places.getD (recordOf e) 0 = i)
      (SystemTree.system? (es.foldl (addSystem places) ∅) script language) := by
  refine Collects.foldl_of_none (fun t => SystemTree.system? t script language)
    (fun _ _ h e => collects_addSystem h places e) ?_ es
  rw [SystemTree.system?, Std.TreeMap.getElem?_emptyc, Option.bind_none]

end Registrations

/-- Whether a script has a language system with these references to features. The system of the
language `dflt` is the default one. -/
def Script.Has (s : Script) (language : Tag) (refs : List UInt16) : Prop :=
  if language = .defaultLanguage then s.defaultSystem = some refs else (language, refs) ∈ s.systems

/-- Whether a script list has a language system with these references to features. -/
def ScriptList.Has (scripts : ScriptList) (script language : Tag) (refs : List UInt16) : Prop :=
  ∃ s, (script, s) ∈ scripts ∧ s.Has language refs

namespace Registrations
variable {r : Registrations}

theorem has_scriptOf {languages : Std.TreeMap Tag (Std.TreeSet UInt16)} {language : Tag}
    {refs : List UInt16} : (scriptOf languages).Has language refs ↔
      ∃ s, languages[language]? = some s ∧ s.toList = refs := by
  rw [Script.Has, scriptOf]
  split
  · next hdefault => rw [hdefault, Option.map_eq_some_iff]
  · next hother =>
    simp only [List.mem_filterMap, Prod.exists, Std.TreeMap.mem_toList_iff_getElem?_eq_some]
    constructor
    · rintro ⟨l, s, hs, he⟩
      split at he
      · cases he
      · cases he
        exact ⟨s, hs, rfl⟩
    · rintro ⟨s, hs, rfl⟩
      exact ⟨language, s, hs, if_neg hother⟩

theorem has_scriptList {script language : Tag} {refs : List UInt16} :
    r.scriptList.Has script language refs ↔
      ∃ s, SystemTree.system? (r.toList.foldl (addSystem (placesOf r.featureList)) ∅)
        script language = some s ∧ s.toList = refs := by
  simp only [ScriptList.Has, scriptList, List.mem_map, Prod.exists, Prod.mk.injEq,
    Std.TreeMap.mem_toList_iff_getElem?_eq_some, SystemTree.system?, Option.bind_eq_some_iff]
  constructor
  · rintro ⟨_, ⟨_, languages, hl, rfl, rfl⟩, hrefs⟩
    obtain ⟨s, hs, he⟩ := has_scriptOf.1 hrefs
    exact ⟨s, ⟨languages, hl, hs⟩, he⟩
  · rintro ⟨s, ⟨languages, hl, hs⟩, he⟩
    exact ⟨_, ⟨script, languages, hl, rfl, rfl⟩, has_scriptOf.2 ⟨s, hs, he⟩⟩

/-- Scripts are sorted by their tags, and so are their language systems but for the default one,
which is not among them. -/
theorem sorted_scriptList (r : Registrations) :
    (r.scriptList.Pairwise fun a b => compare a.1 b.1 = .lt) ∧
      ∀ s ∈ r.scriptList, (s.2.systems.Pairwise fun a b => compare a.1 b.1 = .lt) ∧
        ∀ l ∈ s.2.systems, l.1 ≠ .defaultLanguage := by
  refine ⟨List.pairwise_map.2 Std.TreeMap.ordered_keys_toList, ?_⟩
  refine List.forall_mem_map.2 fun s _ => ⟨?_, fun l hl => ?_⟩
  · refine Std.TreeMap.ordered_keys_toList.filterMap _ fun a a' haa' b hb b' hb' => ?_
    dsimp only at hb hb'
    split at hb
    · cases hb
    · split at hb'
      · cases hb'
      · cases hb
        cases hb'
        exact haa'
  · obtain ⟨l', -, hl'⟩ := List.mem_filterMap.1 hl
    dsimp only at hl'
    split at hl'
    · cases hl'
    · next hother =>
      cases hl'
      exact hother

end Registrations

/-- Whether the references of a language system are in order and lead, for each tag that is
registered for it, to one record with this tag, whose lookups are in order and all that features
with this tag reach; and to no other record. -/
structure Serves (features : List Feature) (places : LookupPlaces) (records : FeatureList)
    (script language : Tag) (refs : List UInt16) : Prop where
  ascending : refs.Pairwise (· < ·)
  leads {i : UInt16} (hi : i ∈ refs) : ∃ f, records[i.toNat]? = some f ∧
    (∃ x, Registers features places ⟨f.tag, script, language⟩ x) ∧
    f.lookups.Pairwise (· < ·) ∧
    ∀ x, x ∈ f.lookups ↔ Registers features places ⟨f.tag, script, language⟩ x
  unique {tag : Tag} {x : UInt16} (hx : Registers features places ⟨tag, script, language⟩ x) :
    ∃! i, i ∈ refs ∧ records[i.toNat]?.map FeatureRecord.tag = some tag

namespace Registrations
variable (features : List Feature) (places : LookupPlaces)

theorem ascending_toList (s : Std.TreeSet UInt16) : s.toList.Pairwise (· < ·) :=
  Std.TreeSet.ordered_toList.imp compare_eq_lt_iff.1

theorem nodup_featureList (r : Registrations) : r.featureList.Nodup := nodup_toList _

/-- A language system is listed if some feature with a lookup in the table is registered for it. -/
theorem exists_has_iff {script language : Tag} :
    (∃ refs, (ofFeatures features places).scriptList.Has script language refs) ↔
      ∃ tag x, Registers features places ⟨tag, script, language⟩ x := by
  have hsystem := (collects_systems (placesOf (ofFeatures features places).featureList)
    (ofFeatures features places).toList script language).isSome_iff
  have hkey (tag : Tag) := (collects_ofFeatures features places ⟨tag, script, language⟩).isSome_iff
  simp only [has_scriptList, ← hkey]
  constructor
  · rintro ⟨_, s, hs, -⟩
    obtain ⟨_, ⟨⟨tag, _, _⟩, lookups⟩, he, ⟨rfl, rfl⟩, -⟩ := hsystem.1 ⟨s, hs⟩
    exact ⟨tag, lookups, Std.TreeMap.mem_toList_iff_getElem?_eq_some.1 he⟩
  · rintro ⟨tag, lookups, hlookups⟩
    obtain ⟨s, hs⟩ := hsystem.2 ⟨_, (⟨tag, script, language⟩, lookups),
      Std.TreeMap.mem_toList_iff_getElem?_eq_some.2 hlookups, ⟨rfl, rfl⟩, rfl⟩
    exact ⟨s.toList, s, hs, rfl⟩

variable {features places}

/-- A language system refers to the record of each registration under it. -/
theorem mem_refs_iff {script language : Tag} {refs : List UInt16}
    (h : (ofFeatures features places).scriptList.Has script language refs) {i : UInt16} :
    i ∈ refs ↔ ∃ tag lookups,
      (ofFeatures features places)[(⟨tag, script, language⟩ : Registration)]? = some lookups ∧
      (placesOf (ofFeatures features places).featureList).getD
        (recordOf (⟨tag, script, language⟩, lookups)) 0 = i := by
  obtain ⟨s, hs, rfl⟩ := has_scriptList.1 h
  have hcollects := collects_systems (placesOf (ofFeatures features places).featureList)
    (ofFeatures features places).toList script language
  rw [hs] at hcollects
  rw [Std.TreeSet.mem_toList, hcollects.2 i]
  constructor
  · rintro ⟨⟨⟨tag, _, _⟩, lookups⟩, he, ⟨rfl, rfl⟩, hi⟩
    exact ⟨tag, lookups, Std.TreeMap.mem_toList_iff_getElem?_eq_some.1 he, hi⟩
  · rintro ⟨tag, lookups, hlookups, hi⟩
    exact ⟨(⟨tag, script, language⟩, lookups),
      Std.TreeMap.mem_toList_iff_getElem?_eq_some.2 hlookups, ⟨rfl, rfl⟩, hi⟩

section
variable (hlength : (ofFeatures features places).featureList.length ≤ 65536)
include hlength

/-- The record of a registration is found at its place. -/
theorem getElem?_recordOf {key : Registration} {lookups : Std.TreeSet UInt16}
    (h : (ofFeatures features places)[key]? = some lookups) :
    (ofFeatures features places).featureList[((placesOf
      (ofFeatures features places).featureList).getD (recordOf (key, lookups)) 0).toNat]? =
      some (recordOf (key, lookups)) :=
  getElem?_placesOf (nodup_featureList _) hlength (mem_featureList.2 ⟨key, lookups, h, rfl⟩)

theorem serves_of_has {script language : Tag} {refs : List UInt16}
    (h : (ofFeatures features places).scriptList.Has script language refs) :
    Serves features places (ofFeatures features places).featureList script language refs where
  ascending := by
    obtain ⟨s, -, rfl⟩ := has_scriptList.1 h
    exact ascending_toList s
  leads hi := by
    obtain ⟨tag, lookups, hlookups, rfl⟩ := (mem_refs_iff h).1 hi
    have hcollects := collects_ofFeatures features places ⟨tag, script, language⟩
    rw [hlookups] at hcollects
    refine ⟨_, getElem?_recordOf hlength hlookups, hcollects.1, ascending_toList lookups, ?_⟩
    exact fun x => Std.TreeSet.mem_toList.trans (hcollects.2 x)
  unique {tag x} hx := by
    obtain ⟨lookups, hlookups⟩ :=
      (collects_ofFeatures features places ⟨tag, script, language⟩).isSome_iff.2 ⟨x, hx⟩
    have hrecord := getElem?_recordOf hlength hlookups
    refine ⟨_, ⟨(mem_refs_iff h).2 ⟨tag, lookups, hlookups, rfl⟩, ?_⟩, ?_⟩
    · rw [hrecord]
      rfl
    · rintro j ⟨hj, htag⟩
      obtain ⟨tag', lookups', hlookups', rfl⟩ := (mem_refs_iff h).1 hj
      rw [getElem?_recordOf hlength hlookups'] at htag
      obtain rfl : tag' = tag := Option.some.inj htag
      rw [Option.some.inj (hlookups'.symm.trans hlookups)]

end

/-- **Script and feature lists.** A language system is listed exactly if some feature with a
lookup in the table is registered for it, and then it refers to one record for each tag registered
there, which holds the lookups of all features with this tag. Both lists are sorted, and every
record is referred to. -/
theorem lists_ofFeatures (features : List Feature) (places : LookupPlaces)
    (hlength : (ofFeatures features places).featureList.length ≤ 65536) :
    let r := ofFeatures features places
    (∀ script language, (∃ refs, r.scriptList.Has script language refs) ↔
      ∃ tag x, Registers features places ⟨tag, script, language⟩ x) ∧
    (∀ script language refs, r.scriptList.Has script language refs →
      Serves features places r.featureList script language refs) ∧
    (r.scriptList.Pairwise fun a b => compare a.1 b.1 = .lt) ∧
    (∀ s ∈ r.scriptList, (s.2.systems.Pairwise fun a b => compare a.1 b.1 = .lt) ∧
      ∀ l ∈ s.2.systems, l.1 ≠ .defaultLanguage) ∧
    (r.featureList.Pairwise fun f g => compare f g = .lt) ∧
    ∀ f ∈ r.featureList, ∃ script language refs, r.scriptList.Has script language refs ∧
      ∃ i ∈ refs, r.featureList[i.toNat]? = some f := by
  refine ⟨fun _ _ => exists_has_iff features places, fun _ _ _ h => serves_of_has hlength h,
    (sorted_scriptList _).1, (sorted_scriptList _).2, sorted_featureList _, fun f hf => ?_⟩
  obtain ⟨⟨tag, script, language⟩, lookups, hlookups, rfl⟩ := mem_featureList.1 hf
  have hregisters := (collects_ofFeatures features places _).isSome_iff.1 ⟨lookups, hlookups⟩
  obtain ⟨refs, hrefs⟩ := (exists_has_iff features places).2 ⟨tag, hregisters⟩
  exact ⟨script, language, refs, hrefs, _, (mem_refs_iff hrefs).2 ⟨tag, lookups, hlookups, rfl⟩,
    getElem?_recordOf hlength hlookups⟩

/-- Features that share lookups and language systems; one has no system, one no lookup in the
table. -/
def sharedFeatures : List Feature :=
  let latin := Tag.ofChars ['l', 'a', 't', 'n']
  let turkish := Tag.ofChars ['T', 'R', 'K']
  [⟨.ofChars ['l', 'i', 'g', 'a'], [(latin, .defaultLanguage), (latin, turkish),
      (.defaultScript, .defaultLanguage)], [1, 0, 2]⟩,
    ⟨.ofChars ['s', 'm', 'c', 'p'], [(latin, turkish)], [0]⟩,
    ⟨.ofChars ['c', 'a', 'l', 't'], [], [1]⟩, ⟨.ofChars ['k', 'e', 'r', 'n'], [], [2]⟩]

/-- The places of the first two lookups. -/
def sharedPlaces : LookupPlaces := ((∅ : LookupPlaces).insert 0 0).insert 1 1

/-- Turkish in the Latin script has both features that are registered for it, by their records. -/
theorem lists_sharedFeatures :
    (ofFeatures sharedFeatures sharedPlaces).featureList.length ≤ 65536 ∧
      (ofFeatures sharedFeatures sharedPlaces).scriptList.Has (.ofChars ['l', 'a', 't', 'n'])
        (.ofChars ['T', 'R', 'K']) [1, 2] ∧
      Serves sharedFeatures sharedPlaces (ofFeatures sharedFeatures sharedPlaces).featureList
        (.ofChars ['l', 'a', 't', 'n']) (.ofChars ['T', 'R', 'K']) [1, 2] := by
  have hlength : (ofFeatures sharedFeatures sharedPlaces).featureList.length = 3 := rfl
  have hle : (ofFeatures sharedFeatures sharedPlaces).featureList.length ≤ 65536 := by omega
  have hlatin : (ofFeatures sharedFeatures sharedPlaces).scriptList[1]? =
      some (.ofChars ['l', 'a', 't', 'n'], ⟨some [1], [(.ofChars ['T', 'R', 'K'], [1, 2])]⟩) := rfl
  have hhas : (ofFeatures sharedFeatures sharedPlaces).scriptList.Has
      (.ofChars ['l', 'a', 't', 'n']) (.ofChars ['T', 'R', 'K']) [1, 2] :=
    ⟨_, List.mem_of_getElem? hlatin, List.mem_singleton_self _⟩
  exact ⟨hle, hhas, (lists_ofFeatures sharedFeatures sharedPlaces hle).2.1 _ _ _ hhas⟩

end Registrations
end FontLayout
