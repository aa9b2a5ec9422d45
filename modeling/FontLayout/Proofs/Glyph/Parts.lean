import FontLayout.Proofs.Glyph.ClassSizes
/-!
# Parts of partitions

A partition that has some of the classes of another refuses no class that the other accepts, and
nothing that is counted or measured of it is larger. For the stretch that its classes cover, its
ends must be ends of these classes, and not only bounds.

Results:
* `Partition.Tight.add`: the ends stay glyphs of the classes when a class is added.
* `Partition.PartOf.accepts`, `Partition.PartOf.add`: what a partition accepts, its parts accept.
* `Partition.PartOf.count_le`, `Partition.PartOf.sizeBound_le`: parts are no larger.
-/
namespace FontLayout

/-! ## Sets inside others -/

/-- Whether all members of a set are in another. -/
def Inside {κ : Type} [Ord κ] (t u : Std.TreeSet κ) : Prop := ∀ k ∈ t, k ∈ u

section
variable {κ : Type} [Ord κ] {t u : Std.TreeSet κ}

theorem inside_empty [Std.TransOrd κ] (u : Std.TreeSet κ) : Inside ∅ u :=
  fun _ hk => absurd hk Std.TreeSet.not_mem_emptyc

theorem Inside.insert [Std.TransOrd κ] (h : Inside t u) (k : κ) : Inside (t.insert k) (u.insert k) := by
  intro k' hk'
  rw [Std.TreeSet.mem_insert] at hk' ⊢
  exact hk'.imp id (h k')

theorem Inside.subperm [Std.TransOrd κ] [Std.LawfulEqOrd κ] (h : Inside t u) : t.toList.Subperm u.toList :=
  List.subperm_of_subset (nodup_toList t) fun k hk =>
    Std.TreeSet.mem_toList.2 (h k (Std.TreeSet.mem_toList.1 hk))

theorem Inside.size_le [Std.TransOrd κ] [Std.LawfulEqOrd κ] (h : Inside t u) : t.size ≤ u.size := by
  rw [← Std.TreeSet.length_toList, ← Std.TreeSet.length_toList]
  exact h.subperm.length_le

end

namespace Partition
variable {p q : Partition} {s : GlyphSet}

/-! ## Ends -/

/-- Whether the first and the last glyph of a partition are in classes of it. -/
def Tight (p : Partition) : Prop :=
  ∀ first last, p.ends = some (first, last) →
    (∃ s ∈ p.classes, first ∈ s) ∧ ∃ s ∈ p.classes, last ∈ s

theorem tight_empty : Tight empty := by
  intro first last h
  cases h

theorem min_eq_or (a b : Glyph) : min a b = a ∨ min a b = b := by
  have hmin : min a b = if a ≤ b then a else b := rfl
  rw [hmin]
  split
  · exact .inl rfl
  · exact .inr rfl

theorem max_eq_or (a b : Glyph) : max a b = a ∨ max a b = b := by
  have hmax : max a b = if a ≤ b then b else a := rfl
  rw [hmax]
  split
  · exact .inr rfl
  · exact .inl rfl

/-- The ends after a class is added are ends of before, or ends of the class. -/
theorem endsWith_cases {first last : Glyph} (h : p.endsWith s = some (first, last)) :
    (first ∈ s ∨ ∃ l, p.ends = some (first, l)) ∧ (last ∈ s ∨ ∃ f, p.ends = some (f, last)) := by
  unfold endsWith at h
  split at h
  · next f l hf hl =>
    have hfirst : f ∈ s := List.mem_of_head? hf
    have hlast : l ∈ s := List.mem_of_getLast? hl
    cases hends : p.ends with
    | none =>
      rw [hends] at h
      cases h
      exact ⟨.inl hfirst, .inl hlast⟩
    | some ends =>
      obtain ⟨f', l'⟩ := ends
      rw [hends] at h
      cases h
      refine ⟨?_, ?_⟩
      · rcases min_eq_or f' f with he | he <;> rw [he]
        · exact .inr ⟨l', rfl⟩
        · exact .inl hfirst
      · rcases max_eq_or l' l with he | he <;> rw [he]
        · exact .inr ⟨f', rfl⟩
        · exact .inl hlast
  · exact ⟨.inr ⟨last, h⟩, .inr ⟨first, h⟩⟩

/-- The ends stay glyphs of the classes when a class is added. -/
theorem Tight.add (h : p.Tight) (s : GlyphSet) : (p.add s).Tight := by
  cases hs : p.contains s with
  | true => rwa [add_of_contains hs]
  | false =>
    cases ha : p.accepts s with
    | false => rwa [add_of_refused hs ha]
    | true =>
      rw [add_of_accepts hs ha]
      intro first last hends
      obtain ⟨hfirst, hlast⟩ := endsWith_cases hends
      refine ⟨?_, ?_⟩
      · rcases hfirst with hm | ⟨l, he⟩
        · exact ⟨s, mem_classes_insert.2 (.inl rfl), hm⟩
        · obtain ⟨t, ht, hm⟩ := (h first l he).1
          exact ⟨t, mem_classes_insert.2 (.inr ht), hm⟩
      · rcases hlast with hm | ⟨f, he⟩
        · exact ⟨s, mem_classes_insert.2 (.inl rfl), hm⟩
        · obtain ⟨t, ht, hm⟩ := (h f last he).2
          exact ⟨t, mem_classes_insert.2 (.inr ht), hm⟩

/-! ## Parts -/

/-- Whether a partition has no other classes than another. -/
def PartOf (p q : Partition) : Prop := Inside p.classes q.classes

theorem partOf_empty (q : Partition) : empty.PartOf q := inside_empty q.classes

/-- What a partition accepts, its parts accept: a class that only the part has not is disjoint from
all classes of the part, because these are other classes of the whole. -/
theorem PartOf.accepts (h : p.PartOf q) (hp : p.Valid) (hq : q.Valid)
    (ha : q.accepts s = true) : p.accepts s = true := by
  by_cases hs : s ∈ p.classes
  · exact accepts_iff.2 (.inl hs)
  · refine accepts_iff.2 (.inr fun g hg => Bool.eq_false_iff.2 fun hc => ?_)
    obtain ⟨t, ht, hgt⟩ := (hp.covered_iff g).1 hc
    rcases accepts_iff.1 ha with hmem | hnew
    · exact hs (hq.eq_of_mem s hmem t (h t ht) g hg hgt ▸ ht)
    · have hcovered := (hq.covered_iff g).2 ⟨t, h t ht, hgt⟩
      rw [hnew g hg] at hcovered
      cases hcovered

theorem PartOf.add (h : p.PartOf q) (ha : q.accepts s = true) : (p.add s).PartOf (q.add s) := by
  intro t ht
  rcases mem_of_mem_add ht with rfl | ht
  · exact mem_add_self ha
  · exact mem_add_of_mem (h t ht) s

theorem PartOf.size_le (h : p.PartOf q) : p.size ≤ q.size := Inside.size_le h

theorem PartOf.count_le (h : p.PartOf q) (hp : p.Measured) (hq : q.Measured) :
    p.count ≤ q.count := by
  obtain ⟨part, hperm, hsub⟩ := Inside.subperm h
  rw [hp.count_eq, hq.count_eq, ← (hperm.map GlyphSet.size).sum_nat]
  exact (hsub.map GlyphSet.size).sum_le_sum fun _ _ => Nat.zero_le _

/-- Only a partition of empty classes has no ends. -/
theorem Measured.count_eq_zero (h : p.Measured) (hends : p.ends = none) : p.count = 0 := by
  rw [h.count_eq, List.sum_eq_zero_iff]
  refine List.forall_mem_map.2 fun s hs => ?_
  by_contra hne
  have hmembers : s.members ≠ [] := fun hnil => hne (by rw [GlyphSet.size, hnil]; rfl)
  obtain ⟨g, hg⟩ := List.exists_mem_of_ne_nil _ hmembers
  obtain ⟨first, last, he, -⟩ := h.ends_bound s (Std.TreeSet.mem_toList.1 hs) g hg
  rw [hends] at he
  cases he

/-- The bound on the class definition of a part is no larger. -/
theorem PartOf.sizeBound_le (h : p.PartOf q) (hp : p.Measured) (ht : p.Tight) (hq : q.Measured) :
    p.sizeBound ≤ q.sizeBound := by
  refine ClassDef.sizeBound_mono (h.count_le hp hq) fun f' l' hends' => ?_
  cases hends : p.ends with
  | none => exact .inl (hp.count_eq_zero hends)
  | some ends =>
    obtain ⟨f, l⟩ := ends
    obtain ⟨⟨s, hs, hf⟩, t, ht, hl⟩ := ht f l hends
    refine .inr ⟨f, l, rfl, ?_, ?_⟩
    · obtain ⟨_, _, he, hle, -⟩ := hq.ends_bound s (h s hs) f hf
      rw [hends'] at he
      cases he
      exact hle
    · obtain ⟨_, _, he, -, hle⟩ := hq.ends_bound t (h t ht) l hl
      rw [hends'] at he
      cases he
      exact hle

end Partition
end FontLayout
