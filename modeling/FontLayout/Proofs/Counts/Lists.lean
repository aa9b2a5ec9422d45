import FontLayout.Layout.FeatureList
import FontLayout.Proofs.Counts.Tables
/-!
# Counts of the script list and the feature list

A language system lists places of features, and a feature lists places of lookups. These lists
stand in tables without links, so no distance in the tables that hold them bounds them. But a
layout table writes both lists in front of its lookup list, and so the distance to that is no
shorter than anything in them.

Results:
* `allNear_scriptListTable`, `allNear_featureListTable`: neither list defers a table.
* `Script.length_le_total`, `length_lookups_le_total`: what is in a list is no longer than it.
* `countsFit_scriptListTable`, `countsFit_featureListTable`: the counts of both lists fit.
-/
namespace FontLayout

/-- The lists of features in a script. -/
def Script.featureLists (s : Script) : List (List UInt16) :=
  s.defaultSystem.toList ++ s.systems.map Prod.snd

open Table

/-! ## Near tables -/

theorem AllNear.taggedLinks {target : Target} {children : List (Tag × Table)}
    (h : ∀ c ∈ children, c.2.AllNear) :
    (FontLayout.taggedLinks (.near target) children .done).AllNear := by
  rw [FontLayout.taggedLinks]
  change AllNear (List.foldr _ _ _)
  induction children with
  | nil => exact allNear_done
  | cons c children ih =>
    rw [List.forall_mem_cons] at h
    exact .near target h.1 (ih h.2)

theorem Script.allNear_table (s : Script) : s.table.AllNear := by
  refine AllNear.link? _ (fun c hc => ?_) (FontLayout.AllNear.taggedLinks ?_)
  · obtain ⟨features, -, rfl⟩ := Option.map_eq_some_iff.1 hc
    exact allNear_done
  · exact List.forall_mem_map.2 fun _ _ => allNear_done

theorem allNear_scriptListTable (scripts : ScriptList) : (scriptListTable scripts).AllNear :=
  AllNear.taggedLinks <| List.forall_mem_map.2 fun s _ => s.2.allNear_table

theorem allNear_featureListTable (features : FeatureList) : (featureListTable features).AllNear :=
  AllNear.taggedLinks <| List.forall_mem_map.2 fun _ _ => allNear_done

/-! ## Totals -/

theorem total_le_taggedLinks (l : Link) {children : List (Tag × Table)} (rest : Table)
    {c : Tag × Table} (hc : c ∈ children) : c.2.total ≤ (taggedLinks l children rest).total := by
  refine Nat.le_add_left_of_le ?_
  induction children with
  | nil => cases hc
  | cons d children ih =>
    rw [List.foldr_cons, total, total_link]
    rcases List.mem_cons.1 hc with rfl | hc
    · omega
    · have := ih hc
      omega

theorem total_languageSystemTable (features : List UInt16) :
    (languageSystemTable features).total = 6 + 2 * features.length := by
  rw [languageSystemTable, total_words, total_countedWords, total_done, List.length_cons,
    List.length_singleton]
  omega

theorem Script.length_le_total {s : Script} {features : List UInt16}
    (h : features ∈ s.featureLists) : features.length ≤ s.table.total := by
  have hsystem := total_languageSystemTable features
  rw [table, total_link?]
  rcases List.mem_append.1 h with h | h
  · rw [Option.mem_toList.1 h, Option.map_some, Option.elim_some]
    omega
  · obtain ⟨system, hsystem', rfl⟩ := List.mem_map.1 h
    have hle := total_le_taggedLinks (.near .languageSystem) .done
      (List.mem_map_of_mem (f := fun l => (l.1, languageSystemTable l.2)) hsystem')
    dsimp only at hle
    omega

theorem length_features_le_total {scripts : ScriptList} {script : Tag × Script}
    (hs : script ∈ scripts) {features : List UInt16} (h : features ∈ script.2.featureLists) :
    features.length ≤ (scriptListTable scripts).total :=
  Nat.le_trans (Script.length_le_total h) <|
    total_le_taggedLinks _ _ (List.mem_map_of_mem (f := fun s => (s.1, s.2.table)) hs)

theorem length_lookups_le_total {features : FeatureList} {f : FeatureRecord} (hf : f ∈ features) :
    f.lookups.length ≤ (featureListTable features).total := by
  have hle := total_le_taggedLinks (.near .feature) .done
    (List.mem_map_of_mem (f := fun f => (f.tag, f.table)) hf)
  have htable : f.table.total = 4 + 2 * f.lookups.length := by
    rw [FeatureRecord.table, total, total_countedWords, total_done]
    simp only [Width.size]
    omega
  dsimp only at hle
  rw [featureListTable]
  omega

/-! ## Counts -/

section
variable {target : Target} {children : List (Tag × Table)} {rest : Table} {size near : Nat}

theorem size_taggedLinks (target : Target) (children : List (Tag × Table)) (rest : Table) :
    (taggedLinks (.near target) children rest).size = 2 + 6 * children.length + rest.size := by
  have htag (t : Tag) : (pushBytes .empty t.bytes).size = 4 := by
    rw [ByteArray.size, ← Array.length_toList, data_pushBytes]
    rfl
  rw [taggedLinks, size_count]
  induction children with
  | nil => rfl
  | cons c children ih =>
    rw [List.foldr_cons, size_bytes, size_link, List.length_cons, htag]
    simp only [Link.near, Width.size] at ih ⊢
    omega

theorem countsFit_taggedLinks {l : Link} : (taggedLinks l children rest).CountsFit ↔
    children.length ≤ 0xFFFF ∧ (∀ c ∈ children, c.2.CountsFit) ∧ rest.CountsFit := by
  refine and_congr_right' ?_
  induction children with
  | nil => simp
  | cons c children ih =>
    rw [List.forall_mem_cons, and_assoc, ← ih]
    exact Iff.rfl

/-- Tagged links to near tables, in a table that has room for them. -/
theorem OffsetsFit.taggedLinks
    (h : OffsetsFit size near (FontLayout.taggedLinks (.near target) children .done))
    (hroom : 6 * children.length ≤ near) :
    6 * children.length ≤ 0xFFFF ∧ ∀ c ∈ children, c.2.Fits := by
  have hall : ∀ (children : List (Tag × Table)) (near : Nat),
      OffsetsFit size near (children.foldr
        (fun c rest => .bytes (pushBytes .empty c.1.bytes) <| .link (.near target) c.2 rest)
        .done) →
      (children ≠ [] → near ≤ 0xFFFF) ∧ ∀ c ∈ children, c.2.Fits := by
    intro children
    induction children with
    | nil => exact fun near _ => ⟨fun hne => absurd rfl hne, by simp⟩
    | cons c children ih =>
      rintro near ⟨hnear, hchild, hrest⟩
      exact ⟨fun _ => hnear, List.forall_mem_cons.2 ⟨hchild, (ih _ hrest).2⟩⟩
  obtain ⟨hnear, hfits⟩ := hall children near h
  refine ⟨?_, hfits⟩
  cases children with
  | nil => exact Nat.zero_le _
  | cons c children =>
    have := hnear (List.cons_ne_nil c children)
    omega

end

theorem countsFit_languageSystemTable (features : List UInt16) :
    (languageSystemTable features).CountsFit ↔ features.length ≤ 0xFFFF := and_iff_left trivial

theorem Script.countsFit_table {s : Script} (h : s.table.Fits)
    (hlists : ∀ features ∈ s.featureLists, features.length ≤ 0xFFFF) : s.table.CountsFit := by
  have hsize : s.table.size = 4 + 6 * s.systems.length := by
    rw [table, size_link?, size_taggedLinks, List.length_map, size_done]
    simp only [Link.near, Width.size]
    omega
  obtain ⟨-, next, hnext, hsystems⟩ := OffsetsFit.link? h
  obtain ⟨hcount, -⟩ := OffsetsFit.taggedLinks hsystems (by rw [List.length_map]; omega)
  refine countsFit_link?.2 ⟨?_, countsFit_taggedLinks.2 ⟨by omega, ?_, trivial⟩⟩
  · intro c hc
    obtain ⟨features, hd, rfl⟩ := Option.map_eq_some_iff.1 hc
    refine (countsFit_languageSystemTable features).2 (hlists features ?_)
    exact List.mem_append_left _ (Option.mem_toList.2 hd)
  · refine List.forall_mem_map.2 fun l hl => ?_
    refine (countsFit_languageSystemTable l.2).2 (hlists l.2 ?_)
    exact List.mem_append_right _ (List.mem_map_of_mem hl)

theorem countsFit_scriptListTable {scripts : ScriptList} (h : (scriptListTable scripts).Fits)
    (hlists : ∀ s ∈ scripts, ∀ features ∈ s.2.featureLists, features.length ≤ 0xFFFF) :
    (scriptListTable scripts).CountsFit := by
  have hsize : (scriptListTable scripts).size = 2 + 6 * scripts.length := by
    rw [scriptListTable, size_taggedLinks, List.length_map, size_done]
    rfl
  obtain ⟨hcount, hfits⟩ := OffsetsFit.taggedLinks h (by rw [List.length_map]; omega)
  refine countsFit_taggedLinks.2 ⟨by omega, ?_, trivial⟩
  rw [List.forall_mem_map] at hfits ⊢
  exact fun s hs => s.2.countsFit_table (hfits s hs) (hlists s hs)

/-- Each feature is linked to, so there are few of them. -/
theorem length_features_le {features : FeatureList} (h : (featureListTable features).Fits) :
    6 * features.length ≤ 0xFFFF := by
  have hsize : (featureListTable features).size = 2 + 6 * features.length := by
    rw [featureListTable, size_taggedLinks, List.length_map, size_done]
    rfl
  obtain ⟨hcount, -⟩ := OffsetsFit.taggedLinks h (by rw [List.length_map]; omega)
  rwa [List.length_map] at hcount

theorem countsFit_featureListTable {features : FeatureList} (h : (featureListTable features).Fits)
    (hlists : ∀ f ∈ features, f.lookups.length ≤ 0xFFFF) :
    (featureListTable features).CountsFit := by
  have hcount := length_features_le h
  refine countsFit_taggedLinks.2 ⟨by rw [List.length_map]; omega, ?_, trivial⟩
  exact List.forall_mem_map.2 fun f hf => and_iff_left trivial |>.2 (hlists f hf)

end FontLayout
