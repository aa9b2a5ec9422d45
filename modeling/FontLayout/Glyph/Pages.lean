import FontLayout.Glyph.Basic
/-!
# Glyphs by page

Many glyphs are kept as pages of bits: thirty-two glyphs share a page, and each has a bit of it.
Whether a list of glyphs avoids all that are kept is then seen page by page.

Results:
* `GlyphPages.contains_insert`: the glyphs that are kept are those that were put in.
* `GlyphPages.avoids_iff`: to avoid is to share no glyph.
-/
namespace FontLayout

/-! ## Pages of a list -/

/-- The page of a glyph. -/
def pageOf (g : Glyph) : Nat := g.toNat / 32

/-- The place of a glyph on its page. -/
def slotOf (g : Glyph) : Nat := g.toNat % 32

theorem glyph_ext {g h : Glyph} (hp : pageOf g = pageOf h) (hs : slotOf g = slotOf h) : g = h := by
  apply UInt16.toNat_inj.1
  simp only [pageOf, slotOf] at hp hs
  omega

/-- The bit of a glyph on its page. -/
def bitOf (g : Glyph) : Nat := ((1 : UInt32) <<< UInt32.ofNat (slotOf g)).toNat

theorem testBit_bitOf {g : Glyph} {i : Nat} : (bitOf g).testBit i = true ↔ slotOf g = i := by
  have h : slotOf g < 32 := Nat.mod_lt _ (by decide)
  have e : bitOf g = 2 ^ slotOf g := by
    rw [bitOf, UInt32.toNat_shiftLeft, UInt32.toNat_ofNat_of_lt' (by simp [UInt32.size]; omega),
      Nat.mod_eq_of_lt h, UInt32.toNat_one, Nat.one_shiftLeft]
    exact Nat.mod_eq_of_lt (Nat.pow_lt_pow_right (by decide) h)
  rw [e, Nat.testBit_two_pow]
  simp

/-- A page: its number, and its bits. -/
abbrev Page := Nat × Nat

/-- Puts a glyph before pages: on the first, if that is its page, and otherwise on a new one. -/
def addToPages (g : Glyph) : List Page → List Page
  | (n, bits) :: rest =>
    if pageOf g = n then (n, bits ||| bitOf g) :: rest
    else (pageOf g, bitOf g) :: (n, bits) :: rest
  | [] => [(pageOf g, bitOf g)]

/-- The pages of a list of glyphs. -/
def pagesOf (gs : List Glyph) : List Page := gs.foldr addToPages []

/-- Whether pages have a bit. -/
def HasBit (pages : List Page) (n i : Nat) : Prop :=
  ∃ page ∈ pages, page.1 = n ∧ page.2.testBit i = true

theorem hasBit_cons {page : Page} {pages : List Page} {n i : Nat} :
    HasBit (page :: pages) n i ↔ (page.1 = n ∧ page.2.testBit i = true) ∨ HasBit pages n i := by
  simp only [HasBit, List.mem_cons, or_and_right, exists_or, exists_eq_left]

theorem hasBit_addToPages {g : Glyph} {pages : List Page} {n i : Nat} :
    HasBit (addToPages g pages) n i ↔ (pageOf g = n ∧ slotOf g = i) ∨ HasBit pages n i := by
  cases pages with
  | nil => rw [addToPages, hasBit_cons, testBit_bitOf]
  | cons page rest =>
    obtain ⟨m, bits⟩ := page
    rw [addToPages]
    split
    · next h =>
      rw [hasBit_cons, hasBit_cons, Nat.testBit_or, Bool.or_eq_true, testBit_bitOf, and_or_left, h,
        or_comm (a := m = n ∧ _), or_assoc]
    · rw [hasBit_cons, testBit_bitOf]

theorem hasBit_pagesOf {gs : List Glyph} {n i : Nat} :
    HasBit (pagesOf gs) n i ↔ ∃ g ∈ gs, pageOf g = n ∧ slotOf g = i := by
  induction gs with
  | nil => simp [pagesOf, HasBit]
  | cons g gs ih =>
    rw [pagesOf, List.foldr_cons, hasBit_addToPages, ← pagesOf, ih]
    simp only [List.mem_cons, or_and_right, exists_or, exists_eq_left]

/-! ## Pages of many glyphs -/

/-- Glyphs, by the bits of each page. -/
structure GlyphPages where
  pages : Std.TreeMap Nat Nat

namespace GlyphPages

/-- No glyph. -/
def empty : GlyphPages := ⟨∅⟩

/-- The bits of a page. -/
def bits (p : GlyphPages) (n : Nat) : Nat := p.pages.getD n 0

/-- Whether a glyph is kept. -/
def contains (p : GlyphPages) (g : Glyph) : Bool := (p.bits (pageOf g)).testBit (slotOf g)

/-- Keeps the glyphs of a page. -/
def insertPage (p : GlyphPages) (page : Page) : GlyphPages :=
  ⟨p.pages.insert page.1 (p.bits page.1 ||| page.2)⟩

/-- Keeps the glyphs of a list. -/
def insert (p : GlyphPages) (gs : List Glyph) : GlyphPages := (pagesOf gs).foldl insertPage p

/-- Whether no glyph of a list is kept. -/
def avoids (p : GlyphPages) (gs : List Glyph) : Bool :=
  (pagesOf gs).all fun page => p.bits page.1 &&& page.2 == 0

theorem contains_empty (g : Glyph) : empty.contains g = false := by
  simp [contains, bits, empty]

theorem testBit_bits_insertPage {p : GlyphPages} {page : Page} {n i : Nat} :
    ((p.insertPage page).bits n).testBit i = true ↔
      (page.1 = n ∧ page.2.testBit i = true) ∨ (p.bits n).testBit i = true := by
  simp only [insertPage, bits, Std.TreeMap.getD_insert, Std.LawfulEqCmp.compare_eq_iff_eq]
  split
  · next h =>
    subst h
    rw [Nat.testBit_or, Bool.or_eq_true, or_comm]
    simp
  · next h => simp [h]

theorem testBit_bits_foldl {p : GlyphPages} {pages : List Page} {n i : Nat} :
    ((pages.foldl insertPage p).bits n).testBit i = true ↔
      HasBit pages n i ∨ (p.bits n).testBit i = true := by
  induction pages generalizing p with
  | nil => simp [HasBit]
  | cons page pages ih =>
    rw [List.foldl_cons, ih, testBit_bits_insertPage, hasBit_cons, or_left_comm, or_assoc]

theorem contains_insert {p : GlyphPages} {gs : List Glyph} {g : Glyph} :
    (p.insert gs).contains g = true ↔ g ∈ gs ∨ p.contains g = true := by
  rw [contains, insert, testBit_bits_foldl, hasBit_pagesOf, contains]
  refine or_congr_left ⟨?_, fun h => ⟨g, h, rfl, rfl⟩⟩
  rintro ⟨h, hm, hp, hs⟩
  exact glyph_ext hp hs ▸ hm

theorem avoids_iff {p : GlyphPages} {gs : List Glyph} :
    p.avoids gs = true ↔ ∀ g ∈ gs, p.contains g = false := by
  simp only [avoids, List.all_eq_true, beq_iff_eq]
  constructor
  · intro h g hg
    obtain ⟨page, hm, hn, hb⟩ := hasBit_pagesOf.2 ⟨g, hg, rfl, rfl⟩
    have := congrArg (Nat.testBit · (slotOf g)) (h page hm)
    simpa [Nat.testBit_and, hb, hn, contains] using this
  · intro h page hm
    apply Nat.eq_of_testBit_eq
    intro i
    rw [Nat.testBit_and, Nat.zero_testBit, Bool.and_eq_false_iff]
    cases hb : page.2.testBit i with
    | false => exact .inr rfl
    | true =>
      obtain ⟨g, hg, hp, hs⟩ := hasBit_pagesOf.1 ⟨page, hm, rfl, hb⟩
      exact .inl (hp ▸ hs ▸ h g hg)

end GlyphPages
end FontLayout
