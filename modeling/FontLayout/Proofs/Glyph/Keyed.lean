import FontLayout.Glyph.Keyed
import Mathlib.Data.List.Nodup
/-!
# Looking up values by glyph

What a glyph finds in a list of records that was filled in one of the three ways.

Results:
* `getElem?_foldl_insert`: in a tree that is filled in order, the last value of a key counts.
* `getElem?_foldl_zipIdx`: in a tree of places, each element of a list is found at its own.
* `ByGlyph.find?_ofFirst`, `ByGlyph.find?_ofLast`: the first and the last value given for a glyph.
* `ByGlyph.find?_group`: all values given for a glyph, in order.
* `ByGlyph.ext_find?`: what glyphs find tells lists of records apart.
-/
namespace FontLayout

/-! ## Ends -/

namespace GlyphSet
variable {s : GlyphSet} {g h : Glyph}

theorem first_le (hf : s.first? = some h) (hg : g ∈ s) : h ≤ g := by
  obtain ⟨gs, hgs⟩ := List.head?_eq_some_iff.1 hf
  have hasc := s.ascending
  rw [mem_def, hgs] at hg
  rw [hgs, List.pairwise_cons] at hasc
  rcases List.mem_cons.1 hg with rfl | hg
  · exact UInt16.le_refl _
  · exact UInt16.le_of_lt (hasc.1 g hg)

theorem le_last (hl : s.last? = some h) (hg : g ∈ s) : g ≤ h := by
  obtain ⟨gs, hgs⟩ := List.getLast?_eq_some_iff.1 hl
  have hasc := s.ascending
  rw [mem_def, hgs] at hg
  rw [hgs, List.pairwise_append] at hasc
  rcases List.mem_append.1 hg with hg | hg
  · exact UInt16.le_of_lt (hasc.2.2 g hg h List.mem_cons_self)
  · rw [List.mem_singleton.1 hg]
    exact UInt16.le_refl _

/-- A set with a member has a lowest and a highest one. -/
theorem exists_ends (hg : g ∈ s) : ∃ first last, s.first? = some first ∧ s.last? = some last := by
  have hne : s.members ≠ [] := List.ne_nil_of_mem hg
  exact ⟨_, _, List.head?_eq_some_head hne, List.getLast?_eq_some_getLast hne⟩

end GlyphSet

/-! ## Places -/

/-- An element of a longer list is the last or one of before. -/
theorem getElem?_concat_eq_some {α : Type} {xs : List α} {x y : α} {i : Nat} :
    (xs ++ [x])[i]? = some y ↔ xs[i]? = some y ∨ (i = xs.length ∧ x = y) := by
  rw [List.getElem?_append]
  split
  · exact (or_iff_left fun h => by omega).symm
  · next hi =>
    rw [List.getElem?_eq_none (Nat.not_lt.1 hi), List.getElem?_singleton]
    split
    · simp [show i = xs.length by omega]
    · simp [show i ≠ xs.length by omega]

/-! ## Trees -/

/-- A set lists each of its members once. -/
theorem nodup_toList {κ : Type} [Ord κ] [Std.TransOrd κ] (t : Std.TreeSet κ) :
    t.toList.Nodup := by
  refine Std.TreeSet.distinct_toList.imp ?_
  rintro k _ hne rfl
  exact hne Std.ReflCmp.compare_self

/-- What a set holds after insertions. -/
theorem mem_foldl_insert {κ γ : Type} [Ord κ] [Std.TransOrd κ] [Std.LawfulEqOrd κ] (f : γ → κ)
    (xs : List γ) (t : Std.TreeSet κ) {k : κ} :
    k ∈ xs.foldl (fun t x => t.insert (f x)) t ↔ (∃ x ∈ xs, f x = k) ∨ k ∈ t := by
  induction xs generalizing t with
  | nil => simp
  | cons x xs ih =>
    rw [List.foldl_cons, ih, Std.TreeSet.mem_insert, Std.LawfulEqCmp.compare_eq_iff_eq,
      List.exists_mem_cons_iff, ← or_assoc, or_comm (a := ∃ x ∈ xs, f x = k)]

section
variable {κ α : Type} [Ord κ] [Std.TransOrd κ] [Std.LawfulEqOrd κ] [BEq κ] [LawfulBEq κ]

theorem getElem?_foldl_insert (xs : List (κ × α)) (t : Std.TreeMap κ α) (k : κ) :
    (xs.foldl (fun t x => t.insert x.1 x.2) t)[k]? = (xs.reverse.lookup k).or t[k]? := by
  induction xs generalizing t with
  | nil => rfl
  | cons x xs ih =>
    rw [List.foldl_cons, ih, List.reverse_cons, List.lookup_append, Option.or_assoc,
      Std.TreeMap.getElem?_insert, List.lookup_cons, List.lookup_nil]
    congr 1
    by_cases h : k = x.1
    · simp [h]
    · have hb : (k == x.1) = false := by simpa using h
      have hc : compare x.1 k ≠ .eq := fun hc => h (Std.LawfulEqCmp.eq_of_compare hc).symm
      simp [hb, hc]

/-- A tree that keeps what it has answers with the first value of a key. -/
theorem getElem?_foldl_insertIfNew (xs : List (κ × α)) (t : Std.TreeMap κ α) (k : κ) :
    (xs.foldl (fun t x => t.insertIfNew x.1 x.2) t)[k]? = t[k]?.or (xs.lookup k) := by
  induction xs generalizing t with
  | nil => simp
  | cons x xs ih =>
    rw [List.foldl_cons, ih, Std.TreeMap.getElem?_insertIfNew, List.lookup_cons]
    by_cases h : k = x.1
    · subst h
      by_cases hm : x.1 ∈ t
      · simp [hm]
      · simp [hm]
    · have hb : (k == x.1) = false := by simpa using h
      have hc : compare x.1 k ≠ .eq := fun hc => h (Std.LawfulEqCmp.eq_of_compare hc).symm
      simp [hb, hc]

omit [Ord κ] [Std.TransOrd κ] [Std.LawfulEqOrd κ] in
theorem mem_of_lookup {xs : List (κ × α)} {k : κ} {a : α} (h : xs.lookup k = some a) :
    (k, a) ∈ xs := by
  obtain ⟨before, after, rfl, -⟩ := List.lookup_eq_some_iff.1 h
  simp

omit [Ord κ] [Std.TransOrd κ] [Std.LawfulEqOrd κ] in
/-- If all records of a key have one value, that value is found, from whichever end. -/
theorem lookup_eq_some_of_unique {xs : List (κ × α)} {k : κ} {a : α} (hm : (k, a) ∈ xs)
    (hu : ∀ b, (k, b) ∈ xs → b = a) : xs.lookup k = some a := by
  cases h : xs.lookup k with
  | none =>
    have := List.lookup_eq_none_iff.1 h (k, a) hm
    simp at this
  | some b =>
    obtain ⟨before, after, rfl, -⟩ := List.lookup_eq_some_iff.1 h
    rw [hu b (by simp)]

omit [Ord κ] [Std.TransOrd κ] [Std.LawfulEqOrd κ] in
/-- Where no key repeats, a key finds each record that has it. -/
theorem lookup_eq_some_iff_of_nodup {xs : List (κ × α)} (h : (xs.map Prod.fst).Nodup) {k : κ}
    {a : α} : xs.lookup k = some a ↔ (k, a) ∈ xs := by
  refine ⟨mem_of_lookup, fun hm => lookup_eq_some_of_unique hm fun b hb => ?_⟩
  have hone : (k, b) = (k, a) := List.inj_on_of_nodup_map h hb hm rfl
  exact congrArg Prod.snd hone

/-- If a tree is filled with the places of a list's elements, by a key that tells them apart, each
element is found at its place. -/
theorem getElem?_foldl_zipIdx (key : α → κ) {xs : List α} (h : (xs.map key).Nodup) {i : Nat}
    {a : α} (hi : xs[i]? = some a) :
    (xs.zipIdx.foldl (fun (t : Std.TreeMap κ UInt16) x => t.insert (key x.1) (.ofNat x.2))
      ∅)[key a]? = some (.ofNat i) := by
  let numbered := xs.zipIdx.map fun x => (key x.1, UInt16.ofNat x.2)
  have hkeys : (numbered.reverse.map Prod.fst).Nodup := by
    have hfst : numbered.map Prod.fst = xs.map key := by
      conv_rhs => rw [← List.zipIdx_map_fst 0 xs, List.map_map]
      exact List.map_map
    rwa [List.map_reverse, List.nodup_reverse, hfst]
  have hmem : (key a, UInt16.ofNat i) ∈ numbered.reverse :=
    List.mem_reverse.2 (List.mem_map.2 ⟨(a, i), List.mem_zipIdx_iff_getElem?.2 hi, rfl⟩)
  have hfound := getElem?_foldl_insert numbered ∅ (key a)
  rwa [List.foldl_map, (lookup_eq_some_iff_of_nodup hkeys).2 hmem, Option.some_or] at hfound

end

namespace ByGlyph
variable {α : Type}

theorem find?_ofTree (t : Std.TreeMap Glyph α) (g : Glyph) : (ofTree t).find? g = t[g]? := by
  refine Option.ext fun a => ?_
  rw [find?_eq_some_iff]
  exact Std.TreeMap.mem_toList_iff_getElem?_eq_some

/-- Where keys do not repeat, it does not matter from which end they are searched. -/
theorem lookup_reverse {xs : List (Glyph × α)} (h : (xs.map Prod.fst).Pairwise (· < ·))
    (g : Glyph) : xs.reverse.lookup g = xs.lookup g := by
  induction xs with
  | nil => rfl
  | cons x xs ih =>
    rw [List.map_cons, List.pairwise_cons] at h
    rw [List.reverse_cons, List.lookup_append, ih h.2, List.lookup_cons, List.lookup_cons,
      List.lookup_nil]
    cases hg : g == x.1 with
    | false => simp
    | true =>
      have hnone : xs.lookup g = none := by
        refine List.lookup_eq_none_iff.2 fun y hy => ?_
        have := h.1 y.1 (List.mem_map_of_mem hy)
        rw [beq_iff_eq] at hg
        rw [bne_iff_ne, hg]
        exact UInt16.ne_of_lt this
      simp [hnone]

theorem find?_ofFirst (xs : List (Glyph × α)) (g : Glyph) :
    (ofFirst xs).find? g = xs.lookup g := by
  unfold ofFirst ofAscendingOr
  split
  · rfl
  · rw [find?_ofTree, getElem?_foldl_insertIfNew, Std.TreeMap.getElem?_emptyc, Option.none_or]

theorem nodup_keys (m : ByGlyph α) : (m.entries.map Prod.fst).Nodup :=
  m.ascending.imp UInt16.ne_of_lt

theorem find?_ofLast (xs : List (Glyph × α)) (g : Glyph) :
    (ofLast xs).find? g = xs.reverse.lookup g := by
  unfold ofLast ofAscendingOr
  split
  · next h => exact (lookup_reverse (ascends_iff.1 h) g).symm
  · rw [find?_ofTree, getElem?_foldl_insert, Std.TreeMap.getElem?_emptyc, Option.or_none]

/-- If no glyph is given two values, it does not matter which one counts. -/
theorem find?_ofLast_eq_some_iff {xs : List (Glyph × α)} {g : Glyph} {a : α}
    (h : ∀ g a b, (g, a) ∈ xs → (g, b) ∈ xs → a = b) :
    (ofLast xs).find? g = some a ↔ (g, a) ∈ xs := by
  rw [find?_ofLast]
  refine ⟨fun hg => List.mem_reverse.1 (mem_of_lookup hg), fun hg => ?_⟩
  refine lookup_eq_some_of_unique (List.mem_reverse.2 hg) fun b hb => ?_
  exact h g b a (List.mem_reverse.1 hb) hg

theorem find?_filter_eq_some_iff {m : ByGlyph α} {p : α → Bool} {g : Glyph} {a : α} :
    (m.filter p).find? g = some a ↔ m.find? g = some a ∧ p a = true := by
  rw [find?_eq_some_iff, find?_eq_some_iff, filter, List.mem_filter]

/-- Two lists of records in which each glyph finds the same are the same. -/
theorem ext_find? {m n : ByGlyph α} (h : ∀ g, m.find? g = n.find? g) : m = n := by
  have hmem (e : Glyph × α) : e ∈ m.entries ↔ e ∈ n.entries := by
    rw [← find?_eq_some_iff, ← find?_eq_some_iff, h]
  have hperm : m.entries.Perm n.entries :=
    (List.perm_ext_iff_of_nodup (List.Nodup.of_map _ m.nodup_keys)
      (List.Nodup.of_map _ n.nodup_keys)).2 hmem
  have he : m.entries = n.entries := by
    refine List.Perm.eq_of_pairwise (fun x y _ _ hxy hyx => ?_)
      (List.pairwise_map.1 m.ascending) (List.pairwise_map.1 n.ascending) hperm
    exact absurd hyx (UInt16.lt_asymm hxy)
  cases m
  cases n
  cases he
  rfl

theorem mem_keys_iff {m : ByGlyph α} {g : Glyph} : g ∈ m.keys ↔ (m.find? g).isSome = true := by
  rw [GlyphSet.mem_def, keys, List.mem_map, Option.isSome_iff_exists]
  constructor
  · rintro ⟨e, he, rfl⟩
    exact ⟨e.2, find?_eq_some_iff.2 he⟩
  · rintro ⟨a, ha⟩
    exact ⟨_, find?_eq_some_iff.1 ha, rfl⟩

theorem mem_keys_ofFirst {xs : List (Glyph × α)} {g : Glyph} :
    g ∈ (ofFirst xs).keys ↔ g ∈ xs.map Prod.fst := by
  rw [mem_keys_iff, find?_ofFirst, Option.isSome_iff_exists, List.mem_map]
  constructor
  · rintro ⟨a, ha⟩
    exact ⟨_, mem_of_lookup ha, rfl⟩
  · rintro ⟨x, hx, rfl⟩
    cases h : xs.lookup x.1 with
    | none => simpa using List.lookup_eq_none_iff.1 h x hx
    | some a => exact ⟨a, rfl⟩

/-! ## Groups -/

/-- The values given for a glyph, in order. -/
def valuesOf (xs : List (Glyph × α)) (g : Glyph) : List α :=
  (xs.filter (·.1 == g)).map Prod.snd

theorem mem_valuesOf {xs : List (Glyph × α)} {g : Glyph} {a : α} :
    a ∈ valuesOf xs g ↔ (g, a) ∈ xs := by
  simp [valuesOf]

theorem getD_foldl_group (xs : List (Glyph × α)) (t : Std.TreeMap Glyph (List α)) (g : Glyph) :
    (xs.foldl (fun t x => t.insert x.1 (x.2 :: t.getD x.1 [])) t).getD g [] =
      (valuesOf xs g).reverse ++ t.getD g [] := by
  induction xs generalizing t with
  | nil => rfl
  | cons x xs ih =>
    rw [List.foldl_cons, ih, Std.TreeMap.getD_insert, valuesOf, valuesOf, List.filter_cons]
    by_cases h : x.1 = g
    · simp [h]
    · have hb : (x.1 == g) = false := by simpa using h
      simp [h, hb]

theorem mem_foldl_group (xs : List (Glyph × α)) (t : Std.TreeMap Glyph (List α)) (g : Glyph) :
    g ∈ xs.foldl (fun t x => t.insert x.1 (x.2 :: t.getD x.1 [])) t ↔
      valuesOf xs g ≠ [] ∨ g ∈ t := by
  induction xs generalizing t with
  | nil => simp [valuesOf]
  | cons x xs ih =>
    rw [List.foldl_cons, ih, Std.TreeMap.mem_insert, valuesOf, valuesOf, List.filter_cons]
    by_cases h : x.1 = g
    · simp [h]
    · have hb : (x.1 == g) = false := by simpa using h
      simp [h, hb]

theorem lookup_map_snd {β : Type} (f : α → β) (xs : List (Glyph × α)) (g : Glyph) :
    (xs.map fun e => (e.1, f e.2)).lookup g = (xs.lookup g).map f := by
  induction xs with
  | nil => rfl
  | cons x xs ih =>
    rw [List.map_cons, List.lookup_cons, List.lookup_cons, ih]
    cases g == x.1 <;> rfl

theorem find?_group (xs : List (Glyph × α)) (g : Glyph) :
    (group xs).find? g = if valuesOf xs g = [] then none else some (valuesOf xs g) := by
  generalize ht : xs.foldl (fun t x => t.insert x.1 (x.2 :: t.getD x.1 []))
    (∅ : Std.TreeMap Glyph (List α)) = t
  have hfind : (group xs).find? g = (t[g]?).map List.reverse := by
    rw [← find?_ofTree, ← ht]
    exact lookup_map_snd List.reverse _ g
  have hmem : g ∈ t ↔ valuesOf xs g ≠ [] := by
    rw [← ht, mem_foldl_group]
    simp
  have hget : t.getD g [] = (valuesOf xs g).reverse := by
    rw [← ht, getD_foldl_group]
    simp
  rw [hfind]
  split
  · next h => simp [hmem, h]
  · next h =>
    have hsome : t[g]? = some (t.getD g []) := Std.TreeMap.getElem?_eq_some_getD (hmem.2 h)
    rw [hsome, hget]
    simp

theorem mem_keys_group {xs : List (Glyph × α)} {g : Glyph} :
    g ∈ (group xs).keys ↔ g ∈ xs.map Prod.fst := by
  rw [mem_keys_iff, find?_group, List.mem_map]
  constructor
  · intro h
    have hne : valuesOf xs g ≠ [] := by
      intro hnil
      simp [hnil] at h
    obtain ⟨a, ha⟩ := List.exists_mem_of_ne_nil _ hne
    exact ⟨_, mem_valuesOf.1 ha, rfl⟩
  · rintro ⟨x, hx, rfl⟩
    have hne : valuesOf xs x.1 ≠ [] := List.ne_nil_of_mem (mem_valuesOf.2 hx)
    simp [hne]

end ByGlyph
end FontLayout
