import FontLayout.Proofs.Packing.ClassPairs
/-!
# Classes numbered in any order

The classes of one side are kept in a set without an order of its own, sorted by a sort that may
leave classes of one rank in any order, and their numbers are read back in any order when the class
definition is collected. All of this makes no difference: the classes that are admitted share no
glyph, so no two of them have one size and one lowest glyph, and the rank of each is its own.

Results:
* `Partition.Valid.order_unique`: there is one order in which the classes are ranked.
* `Partition.Builds.eq_classDef`: whatever the orders, the class definition is the same.
* `Packing.mem_sidePartition_iff`: the classes are those that were admitted.
* `Packing.sidePartition_numbers`: what is refused, and what the numbers and the definition are.
-/
namespace FontLayout

namespace Partition

/-! ## Ranks -/

/-- What is told of the lowest glyph of a class when classes of one size are ranked. -/
def lowRank (s : GlyphSet) : Nat := s.first?.elim 0 (·.toNat + 1)

variable {p : Partition} {a b s t : GlyphSet} {g : Glyph}

theorem precedes_iff : precedes a b = true ↔
    b.size < a.size ∨ (a.size = b.size ∧ lowRank a ≤ lowRank b) := by
  simp [precedes, lowRank]

theorem precedes_trans {a b c : GlyphSet} (hab : precedes a b = true) (hbc : precedes b c = true) :
    precedes a c = true := by
  rw [precedes_iff] at *
  omega

theorem precedes_total (a b : GlyphSet) : (precedes a b || precedes b a) = true := by
  rw [Bool.or_eq_true, precedes_iff, precedes_iff]
  omega

/-- A class that is not empty starts with the glyph that its rank tells. -/
theorem exists_low (h : 0 < lowRank s) : ∃ g ∈ s, g.toNat + 1 = lowRank s ∧ ∀ x ∈ s, g ≤ x := by
  unfold lowRank at *
  cases hf : s.first? with
  | none => simp [hf] at h
  | some g =>
    exact ⟨g, List.mem_of_mem_head? hf, rfl, fun x hx => GlyphSet.first_le hf hx⟩

/-- An empty class is told by its size. -/
theorem eq_of_lowRank_eq_zero (h : lowRank a = 0) (hsize : a.size = b.size) : a = b := by
  have ha : a.members = [] := by
    unfold lowRank at h
    cases hf : a.first? with
    | none => exact List.head?_eq_none_iff.1 hf
    | some g => simp [hf] at h
  have hb : b.members = [] :=
    List.length_eq_zero_iff.1 (hsize.symm.trans (congrArg List.length ha))
  exact GlyphSet.ext_members (ha.trans hb.symm)

/-- Disjoint classes that precede each other are one class. -/
theorem Valid.eq_of_precedes (hv : p.Valid) (ha : a ∈ p.classes) (hb : b ∈ p.classes)
    (hab : precedes a b = true) (hba : precedes b a = true) : a = b := by
  rw [precedes_iff] at hab hba
  have hrank : lowRank a = lowRank b := by omega
  rcases Nat.eq_zero_or_pos (lowRank a) with hzero | hpos
  · exact eq_of_lowRank_eq_zero hzero (by omega)
  · obtain ⟨g, hga, hg, -⟩ := exists_low hpos
    obtain ⟨g', hgb, hg', -⟩ := exists_low (hrank ▸ hpos)
    have hone : g = g' := UInt16.toNat_inj.1 (by omega)
    exact hv.eq_of_mem a ha b hb g hga (hone ▸ hgb)

theorem pairwise_ranked (p : Partition) : p.ranked.Pairwise fun a b => precedes a b = true :=
  @List.pairwise_mergeSort _ precedes (fun _ _ _ => precedes_trans) precedes_total _

/-- However the classes come, they are ranked in one order. -/
theorem Valid.order_unique (hv : p.Valid) {order : List GlyphSet}
    (hperm : order.Perm p.classes.toList)
    (hsorted : order.Pairwise fun a b => precedes a b = true) : order = p.ranked := by
  refine List.Perm.eq_of_pairwise (fun a b ha hb hab hba => ?_) hsorted p.pairwise_ranked
    (hperm.trans (List.mergeSort_perm ..).symm)
  have ha' : a ∈ p.classes := Std.TreeSet.mem_toList.1 (hperm.mem_iff.1 ha)
  exact hv.eq_of_precedes ha' (mem_ranked.1 hb) hab hba

theorem Valid.ranked_congr {q : Partition} (hv : p.Valid) (h : ∀ s, s ∈ q.classes ↔ s ∈ p.classes) :
    q.ranked = p.ranked := by
  refine hv.order_unique ?_ q.pairwise_ranked
  refine (List.perm_ext_iff_of_nodup q.nodup_ranked (nodup_toList _)).2 fun s => ?_
  rw [mem_ranked, h, Std.TreeSet.mem_toList]

theorem numbered_congr {q : Partition} (h : q.ranked = p.ranked) (start : Nat) :
    q.numbered start = p.numbered start := by
  rw [numbered, numbered, h]

theorem classDef_congr {q : Partition} (h : q.ranked = p.ranked) (start : Nat) :
    q.classDef start = p.classDef start := by
  rw [classDef, classDef, numbered_congr h]

/-! ## Builds -/

/-- Classes in order, each with its number. -/
def numbersFrom (start : Nat) (order : List GlyphSet) : List (GlyphSet × UInt16) :=
  order.zipIdx start |>.map fun (s, i) => (s, UInt16.ofNat i)

/-- What numbering can come to: the classes are taken from the set in any order and sorted, those of
one rank in any order, and the numbers are taken in any order when the definition is collected, in
which class 0 is left out. -/
def Builds (p : Partition) (start : Nat) (ids : List (GlyphSet × UInt16)) (d : ClassDef) : Prop :=
  ∃ order : List GlyphSet, order.Perm p.classes.toList ∧
    order.Pairwise (fun a b => precedes a b = true) ∧
    ids.Perm (numbersFrom start order) ∧ d = ⟨.ofLast ((recordsOf ids).filter (·.2 != 0))⟩

variable {start : Nat} {ids : List (GlyphSet × UInt16)} {d : ClassDef}

theorem Builds.perm_numbered (hv : p.Valid) (h : p.Builds start ids d) :
    ids.Perm (p.numbered start) := by
  obtain ⟨order, hperm, hsorted, hids, -⟩ := h
  rwa [hv.order_unique hperm hsorted] at hids

/-- Class 0 may be left out before the records are collected, or afterwards. -/
theorem Valid.classDef_eq (hv : p.Valid) (hids : ids.Perm (p.numbered start)) :
    p.classDef start = ⟨.ofLast ((recordsOf ids).filter (·.2 != 0))⟩ := by
  have hmem (g : Glyph) (n : UInt16) : (g, n) ∈ (recordsOf ids).filter (·.2 != 0) ↔
      n ≠ 0 ∧ (g, n) ∈ recordsOf (p.numbered start) := by
    rw [List.mem_filter, mem_recordsOf, mem_recordsOf, bne_iff_ne, and_comm]
    simp only [hids.mem_iff]
  refine congrArg ClassDef.mk (ByGlyph.ext_find? fun g => Option.ext fun n => ?_)
  refine (find?_classDef hv).trans (Iff.trans ?_ (ByGlyph.find?_ofLast_eq_some_iff ?_).symm)
  · rw [hmem, mem_recordsOf]
  · exact fun g m n hm hn => hv.record_unique ((hmem g m).1 hm).2 ((hmem g n).1 hn).2

theorem Builds.eq_classDef (hv : p.Valid) (h : p.Builds start ids d) : d = p.classDef start := by
  have hids := h.perm_numbered hv
  obtain ⟨_, -, -, -, rfl⟩ := h
  exact (hv.classDef_eq hids).symm

/-- Ranking by merging and collecting in order is one way to build. -/
theorem builds_numbered (hv : p.Valid) (start : Nat) :
    p.Builds start (p.numbered start) (p.classDef start) :=
  ⟨p.ranked, List.mergeSort_perm .., p.pairwise_ranked, .refl _, hv.classDef_eq (.refl _)⟩

/-! ## Numbers -/

/-- Numbers count up from the first, as long as a word holds them. -/
theorem numbers_numbered (h : start + p.size ≤ 65536) :
    (p.numbered start).map (·.2.toNat) = List.range' start p.size := by
  rw [numbered, List.map_map, ← length_ranked, ← List.zipIdx_map_snd start p.ranked]
  refine List.map_congr_left fun x hx => ?_
  have hlt := List.snd_lt_add_of_mem_zipIdx hx
  rw [length_ranked] at hlt
  exact UInt16.toNat_ofNat_of_lt' (Nat.lt_of_lt_of_le hlt h)

theorem precedes_of_lt (h : start + p.size ≤ 65536) {m n : UInt16}
    (ha : (a, m) ∈ p.numbered start) (hb : (b, n) ∈ p.numbered start) (hlt : m < n) :
    precedes a b = true := by
  obtain ⟨i, hi, rfl⟩ := mem_numbered.1 ha
  obtain ⟨j, hj, rfl⟩ := mem_numbered.1 hb
  obtain ⟨hi', rfl⟩ := List.getElem?_eq_some_iff.1 hi
  obtain ⟨hj', rfl⟩ := List.getElem?_eq_some_iff.1 hj
  have hsize := p.length_ranked
  rw [UInt16.lt_iff_toNat_lt, UInt16.toNat_ofNat', UInt16.toNat_ofNat',
    Nat.mod_eq_of_lt (by omega), Nat.mod_eq_of_lt (by omega)] at hlt
  exact List.pairwise_iff_getElem.1 p.pairwise_ranked i j hi' hj' (by omega)

/-- A class with a lower number is larger, or as large and starts below the other. -/
theorem Valid.larger_first (hv : p.Valid) (h : start + p.size ≤ 65536) {m n : UInt16}
    (ha : (a, m) ∈ p.numbered start) (hb : (b, n) ∈ p.numbered start) (hlt : m < n) :
    b.size < a.size ∨ (b.size = a.size ∧ ∃ g ∈ a, ∀ x ∈ b, g < x) := by
  have hne : a ≠ b := by
    rintro rfl
    rw [number_unique ha hb] at hlt
    exact UInt16.lt_irrefl _ hlt
  refine (precedes_iff.1 (precedes_of_lt h ha hb hlt)).imp_right fun ⟨hsize, hrank⟩ => ?_
  rcases Nat.eq_zero_or_pos (lowRank a) with hzero | hpos
  · exact absurd (eq_of_lowRank_eq_zero hzero hsize) hne
  · obtain ⟨g, hga, hg, -⟩ := exists_low hpos
    obtain ⟨g', -, hg', hlow⟩ := exists_low (Nat.lt_of_lt_of_le hpos hrank)
    refine ⟨hsize.symm, g, hga, fun x hx => ?_⟩
    have hle : g ≤ g' := UInt16.le_iff_toNat_le.2 (by omega)
    refine UInt16.lt_of_le_of_ne (UInt16.le_trans hle (hlow x hx)) ?_
    rintro rfl
    exact hne (hv.eq_of_mem a (mem_of_number ha) b (mem_of_number hb) g hga hx)

/-- A class is refused exactly if it is new and shares a glyph with one that is there. -/
theorem Valid.accepts_eq_false_iff (hv : p.Valid) :
    p.accepts s = false ↔ s ∉ p.classes ∧ ∃ t ∈ p.classes, ∃ g ∈ s, g ∈ t := by
  rw [← Bool.not_eq_true, hv.accepts_iff_forall]
  simp only [not_or, not_forall, not_not, exists_prop]

end Partition

namespace Packing
variable {classes : List GlyphSet} {s : GlyphSet}

/-! ## Classes of one side -/

/-- Whether a class is accepted when its turn comes. -/
def Admits (classes : List GlyphSet) (s : GlyphSet) : Prop :=
  ∃ before after, classes = before ++ s :: after ∧ (sidePartition before).accepts s = true

theorem admits_concat {t : GlyphSet} : Admits (classes ++ [t]) s ↔
    Admits classes s ∨ (s = t ∧ (sidePartition classes).accepts t = true) := by
  constructor
  · rintro ⟨before, after, he, hs⟩
    rcases List.eq_nil_or_concat after with rfl | ⟨after, u, rfl⟩
    · obtain ⟨rfl, hst⟩ := List.append_inj' he rfl
      cases hst
      exact .inr ⟨rfl, hs⟩
    · rw [List.concat_eq_append, ← List.cons_append, ← List.append_assoc] at he
      exact .inl ⟨before, after, (List.append_inj' he rfl).1, hs⟩
  · rintro (⟨before, after, rfl, hs⟩ | ⟨rfl, hs⟩)
    · exact ⟨before, after ++ [t], by simp, hs⟩
    · exact ⟨classes, [], rfl, hs⟩

/-- The classes are those that were accepted. -/
theorem mem_sidePartition_iff : s ∈ (sidePartition classes).classes ↔ Admits classes s := by
  induction classes using List.reverseRecOn generalizing s with
  | nil =>
    refine iff_of_false Std.TreeSet.not_mem_emptyc ?_
    rintro ⟨before, after, he, -⟩
    simp at he
  | append_singleton classes t ih =>
    rw [sidePartition_concat, admits_concat, ← ih, Partition.mem_add_iff]

/-- What holds of the numbers of admitted classes, and of the definition that is made of them. -/
structure Numbers (classes : List GlyphSet) (start : Nat) (ids : List (GlyphSet × UInt16))
    (d : ClassDef) : Prop where
  nodup : (ids.map Prod.fst).Nodup
  mem_iff (s : GlyphSet) : s ∈ ids.map Prod.fst ↔ Admits classes s
  numbers : (ids.map (·.2.toNat)).Perm (List.range' start (sidePartition classes).size)
  larger_first (a b : GlyphSet) (m n : UInt16) (ha : (a, m) ∈ ids) (hb : (b, n) ∈ ids)
    (hlt : m < n) : b.size < a.size ∨ (b.size = a.size ∧ ∃ g ∈ a, ∀ x ∈ b, g < x)
  classOf_of_mem (s : GlyphSet) (n : UInt16) (hs : (s, n) ∈ ids) (g : Glyph) (hg : g ∈ s) :
    d.classOf g = n
  classOf_eq_zero (g : Glyph) (hg : ∀ s, Admits classes s → g ∉ s) : d.classOf g = 0

variable {start : Nat} {ids : List (GlyphSet × UInt16)} {d : ClassDef}

theorem numbers_of_builds (hsize : start + (sidePartition classes).size ≤ 65536)
    (h : (sidePartition classes).Builds start ids d) : Numbers classes start ids d := by
  have hv := valid_sidePartition classes
  have hids := h.perm_numbered hv
  obtain rfl := h.eq_classDef hv
  have hfst : (ids.map Prod.fst).Perm (sidePartition classes).ranked :=
    Partition.map_fst_numbered (sidePartition classes) start ▸ hids.map Prod.fst
  exact {
    nodup := hfst.nodup_iff.2 (Partition.nodup_ranked _)
    mem_iff s := by rw [hfst.mem_iff, Partition.mem_ranked, mem_sidePartition_iff]
    numbers := Partition.numbers_numbered hsize ▸ hids.map _
    larger_first a b m n ha hb := hv.larger_first hsize (hids.mem_iff.1 ha) (hids.mem_iff.1 hb)
    classOf_of_mem s n hs g hg := Partition.classOf_of_mem hv (hids.mem_iff.1 hs) hg
    classOf_eq_zero g hg :=
      Partition.classOf_of_not_covered (fun s hs => hg s (mem_sidePartition_iff.1 hs)) start }

/-- Only the admitted classes matter, and not the order in which they were added. -/
theorem builds_unique {classes' : List GlyphSet} {ids' : List (GlyphSet × UInt16)} {d' : ClassDef}
    (hsame : ∀ s, Admits classes' s ↔ Admits classes s)
    (h : (sidePartition classes).Builds start ids d)
    (h' : (sidePartition classes').Builds start ids' d') : d' = d ∧ ids'.Perm ids := by
  have hv := valid_sidePartition classes
  have hv' := valid_sidePartition classes'
  have hranked : (sidePartition classes').ranked = (sidePartition classes).ranked := by
    refine hv.ranked_congr fun s => ?_
    rw [mem_sidePartition_iff, mem_sidePartition_iff, hsame]
  constructor
  · rw [h.eq_classDef hv, h'.eq_classDef hv', Partition.classDef_congr hranked]
  · have hids' := h'.perm_numbered hv'
    rw [Partition.numbered_congr hranked] at hids'
    exact hids'.trans (h.perm_numbered hv).symm

/-- The number of the first class, if class 0 is given to one of the classes or left to all other
glyphs. -/
def firstNumber (useZero : Bool) : Nat := if useZero then 0 else 1

/-- Admitted classes share no glyph, and a class is refused exactly if it is not among them and
shares a glyph with one. The class definition and the numbers depend on the admitted classes alone,
and if a word can count these, they are numbered without gaps and the larger ones come first. -/
theorem sidePartition_numbers (useZero : Bool) (classes : List GlyphSet) :
    (∀ s t, Admits classes s → Admits classes t → ∀ g, g ∈ s → g ∈ t → s = t) ∧
    (∀ s, (sidePartition classes).accepts s = false ↔
      ¬ Admits classes s ∧ ∃ t, Admits classes t ∧ ∃ g ∈ s, g ∈ t) ∧
    (sidePartition classes).Builds (firstNumber useZero)
      ((sidePartition classes).numbered (firstNumber useZero))
      ((sidePartition classes).classDef (firstNumber useZero)) ∧
    (∀ s n, ((sidePartition classes).numbers (firstNumber useZero))[s]? = some n ↔
      (s, n) ∈ (sidePartition classes).numbered (firstNumber useZero)) ∧
    ∀ ids d, (sidePartition classes).Builds (firstNumber useZero) ids d →
      (∀ classes', (∀ s, Admits classes' s ↔ Admits classes s) →
        ∀ ids' d', (sidePartition classes').Builds (firstNumber useZero) ids' d' →
          d' = d ∧ ids'.Perm ids) ∧
      ((sidePartition classes).size ≤ 0xFFFF → Numbers classes (firstNumber useZero) ids d) := by
  have hv := valid_sidePartition classes
  refine ⟨fun s t hs ht g => ?_, fun s => ?_, Partition.builds_numbered hv _,
    fun s n => Partition.getElem?_numbers, fun ids d h =>
      ⟨fun classes' hsame ids' d' h' => builds_unique hsame h h', fun hsize => ?_⟩⟩
  · exact hv.eq_of_mem s (mem_sidePartition_iff.2 hs) t (mem_sidePartition_iff.2 ht) g
  · simp only [hv.accepts_eq_false_iff, mem_sidePartition_iff]
  · refine numbers_of_builds ?_ h
    have hfirst : firstNumber useZero ≤ 1 := by cases useZero <;> decide
    omega

/-- A class that is refused, and one that is added again. -/
def disputedClasses : List GlyphSet :=
  [.ofList [7, 8, 9], .ofList [3, 12], .ofList [1, 4], .ofList [4, 5], .ofList [7, 8, 9]]

/-- The same classes are admitted, in another order. -/
def settledClasses : List GlyphSet := [.ofList [1, 4], .ofList [3, 12], .ofList [7, 8, 9]]

theorem sidePartition_numbers_disputed :
    (∀ s, Admits settledClasses s ↔ Admits disputedClasses s) ∧
    (sidePartition disputedClasses).size ≤ 0xFFFF ∧
    (sidePartition settledClasses).classDef 1 = (sidePartition disputedClasses).classDef 1 ∧
    Numbers disputedClasses 1 [(.ofList [7, 8, 9], 1), (.ofList [1, 4], 2), (.ofList [3, 12], 3)]
      ((sidePartition disputedClasses).classDef 1) := by
  have hsame : ∀ s, Admits settledClasses s ↔ Admits disputedClasses s := by
    intro s
    have he : (sidePartition settledClasses).classes.toList =
        (sidePartition disputedClasses).classes.toList := by decide
    rw [← mem_sidePartition_iff, ← mem_sidePartition_iff, ← Std.TreeSet.mem_toList, he,
      Std.TreeSet.mem_toList]
  have hranked : [.ofList [7, 8, 9], .ofList [1, 4], .ofList [3, 12]] =
      (sidePartition disputedClasses).ranked :=
    (valid_sidePartition _).order_unique (by decide) (by decide)
  have hids : (sidePartition disputedClasses).numbered 1 =
      [(.ofList [7, 8, 9], 1), (.ofList [1, 4], 2), (.ofList [3, 12], 3)] := by
    rw [Partition.numbered, ← hranked]
    rfl
  have hsize : (sidePartition disputedClasses).size ≤ 0xFFFF := by decide
  obtain ⟨-, -, hbuilds, -, hall⟩ := sidePartition_numbers false disputedClasses
  obtain ⟨hunique, hnumbers⟩ := hall _ _ hbuilds
  obtain ⟨-, -, hbuilds', -⟩ := sidePartition_numbers false settledClasses
  exact ⟨hsame, hsize, (hunique settledClasses hsame _ _ hbuilds').1, hids ▸ hnumbers hsize⟩

end Packing
end FontLayout
