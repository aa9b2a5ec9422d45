/-!
# Ascending lists of glyphs

A list of glyphs is brought into ascending order, each glyph once. It is taken as a row of
ascending stretches, which are merged two by two until one is left, and repeats are dropped from
that. A list that ascends already is one stretch and stays as it is.

Results:
* `mem_arrange`, `ascending_arrange`: arranging keeps the glyphs and puts them in order.
* `meets_iff`: two ascending lists meet exactly if they share a glyph.
-/
namespace FontLayout

/-- A glyph is known by its number. -/
abbrev Glyph := UInt16

/-! ## Lists that ascend -/

/-- Whether a list goes on upwards from a glyph. -/
def ascendsFrom (g : Glyph) : List Glyph → Bool
  | [] => true
  | h :: rest => g < h && ascendsFrom h rest

/-- Whether each glyph of a list is above the one before it. -/
def ascends : List Glyph → Bool
  | [] => true
  | g :: rest => ascendsFrom g rest

theorem ascendsFrom_iff {g : Glyph} {gs : List Glyph} :
    ascendsFrom g gs = true ↔ (g :: gs).Pairwise (· < ·) := by
  induction gs generalizing g with
  | nil => simp [ascendsFrom]
  | cons h rest ih =>
    simp only [ascendsFrom, Bool.and_eq_true, decide_eq_true_eq, ih, List.pairwise_cons,
      List.forall_mem_cons]
    constructor
    · rintro ⟨hg, hh, hr⟩
      exact ⟨⟨hg, fun a ha => UInt16.lt_trans hg (hh a ha)⟩, hh, hr⟩
    · rintro ⟨⟨hg, _⟩, hh, hr⟩
      exact ⟨hg, hh, hr⟩

theorem ascends_iff {gs : List Glyph} : ascends gs = true ↔ gs.Pairwise (· < ·) := by
  cases gs with
  | nil => simp [ascends]
  | cons g rest => exact ascendsFrom_iff

/-- Whether two lists are the same. -/
def sameGlyphs : List Glyph → List Glyph → Bool
  | [], [] => true
  | g :: gs, h :: hs => g == h && sameGlyphs gs hs
  | _, _ => false

theorem sameGlyphs_iff {gs hs : List Glyph} : sameGlyphs gs hs = true ↔ gs = hs := by
  induction gs generalizing hs with
  | nil => cases hs <;> simp [sameGlyphs]
  | cons g gs ih => cases hs <;> simp [sameGlyphs, ih]

/-! ## Stretches -/

/-- Puts a glyph before stretches: it joins the first if that starts above it. -/
def addToStretches (g : Glyph) : List (List Glyph) → List (List Glyph)
  | (h :: run) :: rest => if g ≤ h then (g :: h :: run) :: rest else [g] :: (h :: run) :: rest
  | rest => [g] :: rest

/-- The ascending stretches of a list, in order. -/
def stretches (gs : List Glyph) : List (List Glyph) := gs.foldr addToStretches []

/-- Two ascending lists in one. -/
def mergeGlyphs (a b : List Glyph) : List Glyph := List.merge a b fun x y => decide (x ≤ y)

/-- Merges each two neighbours; what has been merged comes last. -/
def mergeNeighbours (done : List (List Glyph)) : List (List Glyph) → List (List Glyph)
  | a :: b :: rest => mergeNeighbours (mergeGlyphs a b :: done) rest
  | rest => rest ++ done

/-- Merges lists into one, neighbours first for a number of rounds. -/
def mergeAll : Nat → List (List Glyph) → List Glyph
  | _, [] => []
  | _, [run] => run
  | 0, runs => runs.foldl mergeGlyphs []
  | n + 1, runs => mergeAll n (mergeNeighbours [] runs)

/-- Puts a glyph below an ascending list, unless it is its first already. -/
def addBelow (g : Glyph) : List Glyph → List Glyph
  | h :: rest => if g < h then g :: h :: rest else h :: rest
  | [] => [g]

/-- The glyphs of a list in ascending order, each once. -/
def arrange (gs : List Glyph) : List Glyph :=
  if ascends gs then gs
  else
    let runs := stretches gs
    (mergeAll runs.length runs).foldr addBelow []

/-- What is asked of the lists to be merged: no glyph is below an earlier one of its list. -/
abbrev Climbing (runs : List (List Glyph)) : Prop := ∀ run ∈ runs, run.Pairwise (· ≤ ·)

theorem climbing_addToStretches {g : Glyph} {runs : List (List Glyph)} (h : Climbing runs) :
    Climbing (addToStretches g runs) := by
  unfold addToStretches
  split
  · next h' run rest =>
    have hr : (h' :: run).Pairwise (· ≤ ·) := h _ List.mem_cons_self
    split
    · next hg =>
      intro r hm
      rcases List.mem_cons.1 hm with rfl | hm
      · refine List.pairwise_cons.2 ⟨?_, hr⟩
        intro a ha
        rcases List.mem_cons.1 ha with rfl | ha
        · exact hg
        · exact UInt16.le_trans hg ((List.pairwise_cons.1 hr).1 a ha)
      · exact h r (List.mem_cons_of_mem _ hm)
    · intro r hm
      rcases List.mem_cons.1 hm with rfl | hm
      · exact List.pairwise_singleton _ _
      · exact h r hm
  · intro r hm
    rcases List.mem_cons.1 hm with rfl | hm
    · exact List.pairwise_singleton _ _
    · exact h r hm

theorem mem_addToStretches {g x : Glyph} {runs : List (List Glyph)} :
    x ∈ (addToStretches g runs).flatten ↔ x = g ∨ x ∈ runs.flatten := by
  unfold addToStretches
  split
  · split <;> simp
  · simp

theorem climbing_stretches (gs : List Glyph) : Climbing (stretches gs) := by
  induction gs with
  | nil => exact fun _ h => nomatch h
  | cons g gs ih => exact climbing_addToStretches ih

theorem mem_stretches {x : Glyph} {gs : List Glyph} : x ∈ (stretches gs).flatten ↔ x ∈ gs := by
  induction gs with
  | nil => simp [stretches]
  | cons g gs ih =>
    rw [stretches, List.foldr_cons, mem_addToStretches, ← stretches, ih, List.mem_cons]

/-! ## Merging -/

theorem climbing_mergeGlyphs {a b : List Glyph} (ha : a.Pairwise (· ≤ ·))
    (hb : b.Pairwise (· ≤ ·)) : (mergeGlyphs a b).Pairwise (· ≤ ·) := by
  have := @List.pairwise_merge Glyph (fun x y => decide (x ≤ y))
    (fun x y z hx hy => by
      simp only [decide_eq_true_eq] at *
      exact UInt16.le_trans hx hy)
    (fun x y => by
      simp only [Bool.or_eq_true, decide_eq_true_eq]
      exact UInt16.le_total x y)
    a b (by simpa using ha) (by simpa using hb)
  simpa [mergeGlyphs] using this

theorem mem_mergeGlyphs {x : Glyph} {a b : List Glyph} :
    x ∈ mergeGlyphs a b ↔ x ∈ a ∨ x ∈ b := List.mem_merge

theorem climbing_mergeNeighbours (runs done : List (List Glyph)) (hr : Climbing runs)
    (hd : Climbing done) : Climbing (mergeNeighbours done runs) := by
  fun_induction mergeNeighbours done runs with
  | case1 done a b rest ih =>
    refine ih (fun r hm => hr r (by simp [hm])) ?_
    intro r hm
    rcases List.mem_cons.1 hm with rfl | hm
    · exact climbing_mergeGlyphs (hr a (by simp)) (hr b (by simp))
    · exact hd r hm
  | case2 =>
    intro r hm
    rcases List.mem_append.1 hm with hm | hm
    · exact hr r hm
    · exact hd r hm

theorem mem_mergeNeighbours {x : Glyph} (runs done : List (List Glyph)) :
    x ∈ (mergeNeighbours done runs).flatten ↔ x ∈ runs.flatten ∨ x ∈ done.flatten := by
  fun_induction mergeNeighbours done runs with
  | case1 done a b rest ih =>
    simp only [ih, List.flatten_cons, List.mem_append, mem_mergeGlyphs]
    simp only [or_assoc, or_left_comm, or_comm]
  | case2 => simp

theorem climbing_foldl (runs : List (List Glyph)) (a : List Glyph) (hr : Climbing runs)
    (ha : a.Pairwise (· ≤ ·)) : (runs.foldl mergeGlyphs a).Pairwise (· ≤ ·) := by
  induction runs generalizing a with
  | nil => exact ha
  | cons r runs ih =>
    exact ih _ (fun r' hm => hr r' (List.mem_cons_of_mem _ hm))
      (climbing_mergeGlyphs ha (hr r List.mem_cons_self))

theorem mem_foldl_mergeGlyphs {x : Glyph} (runs : List (List Glyph)) (a : List Glyph) :
    x ∈ runs.foldl mergeGlyphs a ↔ x ∈ a ∨ x ∈ runs.flatten := by
  induction runs generalizing a with
  | nil => simp
  | cons r runs ih =>
    rw [List.foldl_cons, ih, mem_mergeGlyphs, List.flatten_cons, List.mem_append, or_assoc]

theorem climbing_mergeAll (n : Nat) (runs : List (List Glyph)) (h : Climbing runs) :
    (mergeAll n runs).Pairwise (· ≤ ·) := by
  fun_induction mergeAll n runs with
  | case1 => exact .nil
  | case2 => exact h _ List.mem_cons_self
  | case3 => exact climbing_foldl _ _ h .nil
  | case4 n runs _ _ ih => exact ih (climbing_mergeNeighbours _ _ h fun _ hm => nomatch hm)

theorem mem_mergeAll {x : Glyph} (n : Nat) (runs : List (List Glyph)) :
    x ∈ mergeAll n runs ↔ x ∈ runs.flatten := by
  fun_induction mergeAll n runs with
  | case1 => simp
  | case2 => simp
  | case3 => rw [mem_foldl_mergeGlyphs]; simp
  | case4 n runs _ _ ih => rw [ih, mem_mergeNeighbours]; simp

/-! ## Arranging -/

theorem mem_foldr_addBelow {gs : List Glyph} (h : gs.Pairwise (· ≤ ·)) {x : Glyph} :
    x ∈ gs.foldr addBelow [] ↔ x ∈ gs := by
  induction gs generalizing x with
  | nil => simp
  | cons g gs ih =>
    obtain ⟨hg, hr⟩ := List.pairwise_cons.1 h
    have ih {y : Glyph} : y ∈ gs.foldr addBelow [] ↔ y ∈ gs := ih hr
    rw [List.foldr_cons]
    cases e : gs.foldr addBelow [] with
    | nil =>
      rw [e] at ih
      rw [addBelow, List.mem_cons, List.mem_cons, ih]
    | cons h' rest =>
      rw [e] at ih
      by_cases hlt : g < h'
      · rw [addBelow, if_pos hlt, List.mem_cons (b := g), List.mem_cons (b := g), ih]
      · have he : h' = g :=
          UInt16.le_antisymm (UInt16.not_lt.1 hlt) (hg h' (ih.1 List.mem_cons_self))
        simp only [addBelow, hlt, if_false, ih, List.mem_cons]
        refine ⟨.inr, ?_⟩
        rintro (rfl | hx)
        · exact ih.1 (he ▸ List.mem_cons_self)
        · exact hx

theorem ascending_foldr_addBelow {gs : List Glyph} (h : gs.Pairwise (· ≤ ·)) :
    (gs.foldr addBelow []).Pairwise (· < ·) := by
  induction gs with
  | nil => exact .nil
  | cons g gs ih =>
    have ih := ih (List.pairwise_cons.1 h).2
    rw [List.foldr_cons]
    cases e : gs.foldr addBelow [] with
    | nil => exact List.pairwise_singleton _ _
    | cons h' rest =>
      rw [e] at ih
      by_cases hlt : g < h'
      · simp only [addBelow, hlt, if_true]
        refine List.pairwise_cons.2 ⟨?_, ih⟩
        exact List.forall_mem_cons.2
          ⟨hlt, fun a ha => UInt16.lt_trans hlt ((List.pairwise_cons.1 ih).1 a ha)⟩
      · simpa only [addBelow, hlt, if_false] using ih

theorem mem_arrange {gs : List Glyph} {x : Glyph} : x ∈ arrange gs ↔ x ∈ gs := by
  unfold arrange
  split
  · rfl
  · rw [mem_foldr_addBelow (climbing_mergeAll _ _ (climbing_stretches gs)), mem_mergeAll,
      mem_stretches]

theorem ascending_arrange (gs : List Glyph) : (arrange gs).Pairwise (· < ·) := by
  unfold arrange
  split
  · next h => exact ascends_iff.1 h
  · exact ascending_foldr_addBelow (climbing_mergeAll _ _ (climbing_stretches gs))

/-! ## Meeting -/

/-- Whether two ascending lists share a glyph. The first is walked along; of the second, the part
that is not below the glyph at hand is kept. -/
def meets : List Glyph → List Glyph → Bool
  | [], _ => false
  | g :: rest, gs =>
    match gs.dropWhile (· < g) with
    | [] => false
    | h :: above => h == g || meets rest (h :: above)

theorem mem_dropWhile_below {gs : List Glyph} (h : gs.Pairwise (· < ·)) {g x : Glyph}
    (hx : g ≤ x) : x ∈ gs.dropWhile (· < g) ↔ x ∈ gs := by
  induction gs with
  | nil => simp
  | cons a gs ih =>
    rw [List.dropWhile_cons]
    split
    · next ha =>
      have : x ≠ a := fun e => absurd (e ▸ hx) (UInt16.not_le.2 (by simpa using ha))
      rw [ih (List.pairwise_cons.1 h).2, List.mem_cons]
      simp [this]
    · rfl

theorem meets_iff {a b : List Glyph} (ha : a.Pairwise (· < ·)) (hb : b.Pairwise (· < ·)) :
    meets a b = true ↔ ∃ g, g ∈ a ∧ g ∈ b := by
  induction a generalizing b with
  | nil => simp [meets]
  | cons g rest ih =>
    obtain ⟨hg, hr⟩ := List.pairwise_cons.1 ha
    have hmem {x : Glyph} (hx : g ≤ x) := mem_dropWhile_below hb hx
    have hsorted : (b.dropWhile (· < g)).Pairwise (· < ·) :=
      hb.sublist (List.dropWhile_sublist _)
    rw [meets]
    split
    · next e =>
      rw [e] at hmem
      simp only [Bool.false_eq_true, false_iff, not_exists, not_and]
      intro x hx hxb
      have hle : g ≤ x := by
        rcases List.mem_cons.1 hx with rfl | hx
        · exact UInt16.le_refl _
        · exact UInt16.le_of_lt (hg x hx)
      exact absurd ((hmem hle).2 hxb) List.not_mem_nil
    · next h above e =>
      rw [e] at hmem hsorted
      rw [Bool.or_eq_true, beq_iff_eq, ih hr hsorted]
      constructor
      · rintro (rfl | ⟨x, hx, hxa⟩)
        · exact ⟨h, List.mem_cons_self, (hmem (UInt16.le_refl _)).1 List.mem_cons_self⟩
        · exact ⟨x, List.mem_cons_of_mem _ hx, (hmem (UInt16.le_of_lt (hg x hx))).1 hxa⟩
      · rintro ⟨x, hx, hxb⟩
        rcases List.mem_cons.1 hx with rfl | hx
        · rcases List.mem_cons.1 ((hmem (UInt16.le_refl _)).2 hxb) with rfl | hm
          · exact .inl rfl
          · have hh := List.head_dropWhile_not (l := b) (fun y => decide (y < x)) (by simp [e])
            simp only [e, List.head_cons, decide_eq_false_iff_not] at hh
            exact absurd ((List.pairwise_cons.1 hsorted).1 x hm) hh
        · exact .inr ⟨x, hx, (hmem (UInt16.le_of_lt (hg x hx))).2 hxb⟩

end FontLayout
