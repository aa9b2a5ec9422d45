import FontLayout.Proofs.Glyph.Keyed
import Mathlib.Algebra.GroupWithZero.Nat
import Mathlib.Algebra.Order.BigOperators.Group.List
import Mathlib.Algebra.Order.Group.Nat
import Mathlib.Data.List.Perm.Subperm
/-!
# How much is kept by glyph

Of values given by glyph, `ofFirst` keeps some, one for each glyph, and `group` keeps all. So what
the kept ones measure in sum is at most, or exactly, what all given ones do.

Results:
* `ByGlyph.size_eq_length`, `ByGlyph.size_eq_of_mem_iff`: counting glyphs counts the records.
* `ByGlyph.entries_ofFirst_concat`: one more value is kept exactly if its glyph is new.
* `ByGlyph.sum_values_ofFirst_le`: the kept values measure no more than the given ones.
* `ByGlyph.perm_values_group`: grouping loses no value.
-/
namespace FontLayout
namespace ByGlyph
variable {α : Type}

/-- A list of the glyphs with a value, each once, is as long as there are records. -/
theorem size_eq_length {m : ByGlyph α} {gs : List Glyph} (hgs : gs.Nodup)
    (h : ∀ g, g ∈ gs ↔ g ∈ m.keys) : m.size = gs.length := by
  have hperm : (m.entries.map Prod.fst).Perm gs :=
    (List.perm_ext_iff_of_nodup m.nodup_keys hgs).2 fun g => (h g).symm
  rw [size, ← List.length_map, hperm.length_eq]

/-- A set that holds the glyphs with a value has as many members as there are records. -/
theorem size_eq_of_mem_iff {m : ByGlyph α} {t : Std.TreeSet Glyph} (h : ∀ g, g ∈ t ↔ g ∈ m.keys) :
    m.size = t.size := by
  rw [← Std.TreeSet.length_toList]
  refine size_eq_length (nodup_toList t) fun g => ?_
  rw [Std.TreeSet.mem_toList, h]

/-- One more value counts if its glyph is new. -/
theorem entries_ofFirst_concat (xs : List (Glyph × α)) (x : Glyph × α) :
    (ofFirst (xs ++ [x])).entries.Perm
      (if x.1 ∈ xs.map Prod.fst then (ofFirst xs).entries else (ofFirst xs).entries ++ [x]) := by
  obtain ⟨k, v⟩ := x
  have hmem : ∀ e, e ∈ (ofFirst (xs ++ [(k, v)])).entries ↔
      e ∈ (ofFirst xs).entries ∨ (k ∉ xs.map Prod.fst ∧ e = (k, v)) := by
    rintro ⟨g, a⟩
    rw [← find?_eq_some_iff, ← find?_eq_some_iff, find?_ofFirst, find?_ofFirst,
      List.lookup_append, List.lookup_cons, List.lookup_nil, Prod.mk.injEq]
    cases h : xs.lookup g with
    | some b =>
      have hg : g ∈ xs.map Prod.fst := List.mem_map_of_mem (mem_of_lookup h)
      rw [Option.some_or]
      refine ⟨.inl, ?_⟩
      rintro (hb | ⟨hx, rfl, -⟩)
      · exact hb
      · exact absurd hg hx
    | none =>
      have hg : g ∉ xs.map Prod.fst := by
        intro hm
        obtain ⟨y, hy, rfl⟩ := List.mem_map.1 hm
        simpa using List.lookup_eq_none_iff.1 h y hy
      by_cases hk : g = k
      · subst hk
        simp [hg, eq_comm]
      · have hb : (g == k) = false := by simpa using hk
        simp [hk, hb]
  have hnodup : (ofFirst (xs ++ [(k, v)])).entries.Nodup := (nodup_keys _).of_map
  split
  · next hx =>
    refine (List.perm_ext_iff_of_nodup hnodup (nodup_keys _).of_map).2 fun e => ?_
    rw [hmem]
    simp [hx]
  · next hx =>
    have hnew : (k, v) ∉ (ofFirst xs).entries := fun he =>
      hx (mem_keys_ofFirst.1 (List.mem_map_of_mem he))
    refine (List.perm_ext_iff_of_nodup hnodup ?_).2 fun e => ?_
    · exact List.nodup_append.2 ⟨(nodup_keys _).of_map, List.nodup_singleton _, by
        rintro e he _ hex rfl
        exact hnew (List.mem_singleton.1 hex ▸ he)⟩
    · rw [hmem]
      simp [hx]

/-- Whatever is kept first was given. -/
theorem subperm_entries_ofFirst (xs : List (Glyph × α)) : (ofFirst xs).entries.Subperm xs := by
  refine List.subperm_of_subset (ofFirst xs).nodup_keys.of_map ?_
  rintro ⟨g, a⟩ he
  rw [← find?_eq_some_iff, find?_ofFirst] at he
  exact mem_of_lookup he

theorem sum_values_ofFirst_le (f : α → Nat) (xs : List (Glyph × α)) :
    ((ofFirst xs).values.map f).sum ≤ (xs.map fun x => f x.2).sum := by
  obtain ⟨ys, hperm, hsub⟩ := (subperm_entries_ofFirst xs)
  rw [values, List.map_map, ← (hperm.map _).sum_nat]
  exact (hsub.map _).sum_le_sum fun _ _ => Nat.zero_le _

/-- Whatever is kept last was given. -/
theorem subperm_entries_ofLast (xs : List (Glyph × α)) : (ofLast xs).entries.Subperm xs := by
  refine List.subperm_of_subset (ofLast xs).nodup_keys.of_map ?_
  rintro ⟨g, a⟩ he
  rw [← find?_eq_some_iff, find?_ofLast] at he
  exact List.mem_reverse.1 (mem_of_lookup he)

/-- Glyphs that cover a list of records divide it by glyph. -/
theorem perm_flatMap_valuesOf {gs : List Glyph} (hgs : gs.Nodup) {xs : List (Glyph × α)}
    (h : ∀ x ∈ xs, x.1 ∈ gs) : (gs.flatMap (valuesOf xs)).Perm (xs.map Prod.snd) := by
  induction gs generalizing xs with
  | nil =>
    have hnil : xs = [] := List.eq_nil_iff_forall_not_mem.2 fun x hx => by simpa using h x hx
    rw [hnil]
    exact .refl _
  | cons g gs ih =>
    rw [List.nodup_cons] at hgs
    -- the records of other glyphs are all that the other glyphs see
    have hrest : gs.flatMap (valuesOf xs) =
        gs.flatMap (valuesOf (xs.filter fun x => !(x.1 == g))) := by
      refine List.flatMap_congr fun g' hg' => ?_
      have hne : g' ≠ g := fun he => hgs.1 (he ▸ hg')
      rw [valuesOf, valuesOf, List.filter_filter]
      congr 1
      refine List.filter_congr fun x _ => ?_
      by_cases hx : x.1 = g'
      · simp [hx, hne]
      · simp [hx]
    have hother : ∀ x ∈ xs.filter fun x => !(x.1 == g), x.1 ∈ gs := by
      intro x hx
      rw [List.mem_filter] at hx
      have hne : x.1 ≠ g := by simpa using hx.2
      exact (List.mem_cons.1 (h x hx.1)).resolve_left hne
    rw [List.flatMap_cons, hrest]
    refine ((ih hgs.2 hother).append_left _).trans ?_
    rw [valuesOf, ← List.map_append]
    exact (List.filter_append_perm _ _).map Prod.snd

/-- Grouping loses no value. -/
theorem perm_values_group (xs : List (Glyph × α)) :
    (group xs).values.flatten.Perm (xs.map Prod.snd) := by
  have hvalues : (group xs).values = (group xs).keys.members.map (valuesOf xs) := by
    rw [values, keys, List.map_map]
    refine List.map_congr_left ?_
    rintro ⟨g, vs⟩ he
    rw [← find?_eq_some_iff, find?_group] at he
    split at he
    · cases he
    · exact (Option.some.inj he).symm
  rw [hvalues, ← List.flatMap_def]
  refine perm_flatMap_valuesOf (group xs).nodup_keys ?_
  intro x hx
  exact mem_keys_group.2 (List.mem_map_of_mem hx)

end ByGlyph
end FontLayout
