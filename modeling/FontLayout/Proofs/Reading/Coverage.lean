import FontLayout.Proofs.Counts.Tables
import Mathlib.Data.List.Dedup
/-!
# Coverage of any glyphs

A coverage table is made from glyphs in whatever order and however often they come, up to all
glyphs there are. What is written numbers the different glyphs from the lowest on, and covers no
others. Nothing is cut off on the way: ranges can be grouped with words alone, because a glyph
that is followed by another is not the last word, and the number of a range's first glyph is a
word.

Results:
* `GlyphSet.getElem?_members`: the place of a glyph in a set is the number of those below it.
* `Coverage.groupWords_eq`: grouping from the lowest glyph on, with words, yields the same ranges.
* `Coverage.numbers_ofList`: what a reader gets from the table of any glyphs.
-/
namespace FontLayout

/-! ## Ranks -/

/-- The number of different glyphs in a list that are below a glyph. -/
def rankIn (gs : List Glyph) (g : Glyph) : Nat := gs.dedup.countP (· < g)

/-- In an ascending list, the place of a glyph is the number of glyphs below it. -/
theorem getElem?_eq_some_iff_countP {gs : List Glyph} (h : gs.Pairwise (· < ·)) {i : Nat}
    {g : Glyph} : gs[i]? = some g ↔ g ∈ gs ∧ gs.countP (· < g) = i := by
  induction gs generalizing i with
  | nil => simp
  | cons a gs ih =>
    obtain ⟨ha, hr⟩ := List.pairwise_cons.1 h
    by_cases hg : g = a
    · -- no glyph behind the first is below it
      subst hg
      have hnone : gs.countP (· < g) = 0 := by
        refine List.countP_eq_zero.2 fun b hb => ?_
        simpa using UInt16.le_of_lt (ha b hb)
      have hnot : g ∉ gs := fun hm => UInt16.lt_irrefl g (ha g hm)
      cases i with
      | zero => simp [hnone]
      | succ i => simp [hnone, ih hr, hnot]
    · have hlt (hm : g ∈ gs) : a < g := ha g hm
      cases i with
      | zero =>
        simp only [List.getElem?_cons_zero, Option.some.injEq, Ne.symm hg, false_iff,
          List.mem_cons, hg, false_or, not_and]
        intro hm
        simp [hlt hm]
      | succ i =>
        rw [List.getElem?_cons_succ, ih hr, List.mem_cons, or_iff_right hg]
        refine and_congr_right fun hm => ?_
        simp [hlt hm]

namespace GlyphSet

theorem perm_dedup (gs : List Glyph) : (ofList gs).members.Perm gs.dedup :=
  (List.perm_ext_iff_of_nodup ((ofList gs).ascending.imp UInt16.ne_of_lt) gs.nodup_dedup).2
    fun _ => mem_ofList.trans List.mem_dedup.symm

theorem size_ofList (gs : List Glyph) : (ofList gs).size = gs.dedup.length :=
  (perm_dedup gs).length_eq

/-- The place of a glyph in a set is the number of different glyphs below it, in whatever list
the set was made from. -/
theorem getElem?_members {gs : List Glyph} {i : Nat} {g : Glyph} :
    (ofList gs).members[i]? = some g ↔ g ∈ gs ∧ rankIn gs g = i := by
  rw [getElem?_eq_some_iff_countP (ofList gs).ascending, (perm_dedup gs).countP_eq, ← rankIn]
  exact and_congr_left' mem_ofList

end GlyphSet

namespace Coverage

/-! ## Grouping with words -/

/-- The glyph after another, if a word can hold it. -/
def nextGlyph? (g : Glyph) : Option Glyph := if g = 0xFFFF then none else some (g + 1)

/-- Adds a glyph to ranges, last first: it joins the last range if it is the glyph after its end.
That glyph is asked for whenever there is a range, and without it grouping fails. -/
def joinRange : List (Glyph × Glyph) → Glyph → Option (List (Glyph × Glyph))
  | [], g => some [(g, g)]
  | (first, last) :: before, g => do
    let next ← nextGlyph? last
    return if next = g then (first, g) :: before else (g, g) :: (first, last) :: before

/-- The ranges of glyphs, grouped from the first glyph on with words alone. -/
def groupWords (gs : List Glyph) : Option (List (Glyph × Glyph)) :=
  (gs.foldlM joinRange []).map List.reverse

/-- A glyph below another has a next one. -/
theorem exists_nextGlyph? {g h : Glyph} (hlt : g < h) :
    ∃ next, nextGlyph? g = some next ∧ (next = h ↔ g.toNat + 1 = h.toNat) := by
  have hlt := UInt16.lt_iff_toNat_lt.1 hlt
  have hbound := h.toNat_lt
  have hne : g ≠ 0xFFFF := by
    rintro rfl
    simp at hlt
    omega
  refine ⟨g + 1, if_neg hne, ?_⟩
  rw [← UInt16.toNat_inj, UInt16.toNat_add]
  simp
  omega

/-- The last range so far ends right before the glyphs that are left, which are grouped as if its
end were the first of them. -/
theorem foldlM_joinRange {first last : Glyph} {gs : List Glyph}
    (h : (last :: gs).Pairwise (· < ·)) (before : List (Glyph × Glyph)) :
    ∃ stop rest, rangesOf (last :: gs) = (last, stop) :: rest ∧
      gs.foldlM joinRange ((first, last) :: before) =
        some (((first, stop) :: rest).reverse ++ before) := by
  induction gs generalizing first last before with
  | nil => exact ⟨last, [], rfl, rfl⟩
  | cons g gs ih =>
    obtain ⟨hlast, hr⟩ := List.pairwise_cons.1 h
    obtain ⟨next, hnext, hiff⟩ := exists_nextGlyph? (hlast g List.mem_cons_self)
    rw [List.foldlM_cons, joinRange, hnext, GlyphSet.ranges_cons]
    by_cases hg : last.toNat + 1 = g.toNat
    · obtain ⟨stop, rest, he, hfold⟩ := @ih first g hr before
      refine ⟨stop, rest, ?_, ?_⟩
      · rw [he, extendRanges, if_pos hg]
      · simpa [hiff.2 hg] using hfold
    · obtain ⟨stop, rest, he, hfold⟩ := @ih g g hr ((first, last) :: before)
      refine ⟨last, (g, stop) :: rest, ?_, ?_⟩
      · rw [he, extendRanges, if_neg hg]
      · simpa [mt hiff.1 hg] using hfold

/-- Grouping ascending glyphs from the lowest on asks for no glyph after the last word, and yields
the ranges of the table. -/
theorem groupWords_eq {gs : List Glyph} (h : gs.Pairwise (· < ·)) :
    groupWords gs = some (rangesOf gs) := by
  cases gs with
  | nil => rfl
  | cons g gs =>
    obtain ⟨last, rest, he, hfold⟩ := @foldlM_joinRange g g gs h []
    rw [groupWords, List.foldlM_cons, joinRange, he]
    simp [hfold]

/-! ## Reading -/

theorem exists_encode (s : GlyphSet) : ∃ bytes, (table s).encode = .ok bytes := by
  rw [table]
  split <;> exact ⟨_, rfl⟩

/-- The number of a range's first glyph is a word. -/
theorem startNumbers_le (s : GlyphSet) : ∀ n ∈ startNumbers s.ranges, n ≤ 0xFFFF := by
  intro n hn
  obtain ⟨hle, hspan⟩ := span_rangesOf s.members
  rw [startNumbers_eq] at hn
  have hlt := lt_of_mem_startsFrom hle hn
  have hsize : s.members.length ≤ 65536 := s.size_le
  rw [hspan] at hlt
  omega

/-- **Coverage of any glyphs.** What is written for glyphs is read as a table that gives the
different ones their numbers from the lowest on, and no number to any other, and it is no longer
than a list of them. The ranges come out the same if they are grouped from the lowest on with
words alone; none of them is turned around, and the number of each one's first glyph is a word. -/
theorem numbers_ofList (gs : List Glyph) :
    let s := GlyphSet.ofList gs
    ∃ bytes, (table s).encode = .ok bytes ∧
      (∃ numbered, Reader.coverage.read bytes.data.toList = some numbered ∧
        ∀ g i, (g, i) ∈ numbered ↔ g ∈ gs ∧ rankIn gs g = i) ∧
      bytes.size ≤ 4 + 2 * gs.dedup.length ∧
      groupWords s.members = some s.ranges ∧
      (∀ r ∈ s.ranges, r.1 ≤ r.2) ∧ ∀ n ∈ startNumbers s.ranges, n ≤ 0xFFFF := by
  intro s
  obtain ⟨bytes, hbytes⟩ := exists_encode s
  refine ⟨bytes, hbytes, ⟨s.members.zipIdx, ?_, fun g i => ?_⟩, ?_, groupWords_eq s.ascending,
    (span_rangesOf s.members).1, startNumbers_le s⟩
  · exact (yields_table s).read_eq (Table.stands_of_encode hbytes (countsFit_table s))
  · rw [List.mem_zipIdx_iff_getElem?]
    exact GlyphSet.getElem?_members
  · rw [Table.size_encode hbytes, ← GlyphSet.size_ofList]
    exact total_table_le s

end Coverage
end FontLayout
