import FontLayout.Glyph.Ascending
import Std.Data.TreeMap
import Std.Data.TreeSet
/-!
# Glyphs and glyph sets

A glyph is a sixteen-bit number. A glyph set lists its members in ascending order, each once, so
two sets with the same members are equal however they were written. A token, one side of a pair,
is a glyph or a set.

Results:
* `GlyphSet.mem_ofList`: a set holds exactly the glyphs it was made from.
* `compare_eq_lt_iff`: the order of glyphs is the order of their numbers.
-/
namespace FontLayout

theorem compare_eq_lt_iff {a b : Glyph} : compare a b = .lt ↔ a < b := by
  simp only [compare, compareOfLessAndEq]
  split
  · simp_all
  · split <;> simp_all

theorem ascending_nil : ([] : List Glyph).Pairwise (· < ·) := .nil

/-! ## Glyph sets -/

/-- Glyphs in ascending order, each once. -/
structure GlyphSet where
  members : List Glyph
  ascending : members.Pairwise (· < ·)

namespace GlyphSet

theorem ext_members {a b : GlyphSet} (h : a.members = b.members) : a = b := by
  cases a; cases b; cases h; rfl

instance : DecidableEq GlyphSet := fun a b =>
  decidable_of_iff (sameGlyphs a.members b.members = true)
    ⟨fun h => ext_members (sameGlyphs_iff.1 h), fun h => sameGlyphs_iff.2 (congrArg members h)⟩

/-- The set of the given glyphs, in whatever order and however often they come. -/
def ofList (gs : List Glyph) : GlyphSet := ⟨arrange gs, ascending_arrange gs⟩

/-- The set without members. -/
def empty : GlyphSet := ⟨[], ascending_nil⟩

/-- The set of one glyph. -/
def singleton (g : Glyph) : GlyphSet := ⟨[g], List.pairwise_singleton _ g⟩

instance : EmptyCollection GlyphSet := ⟨empty⟩

instance : Inhabited GlyphSet := ⟨empty⟩

instance : Membership Glyph GlyphSet := ⟨fun s g => g ∈ s.members⟩

instance (g : Glyph) (s : GlyphSet) : Decidable (g ∈ s) :=
  inferInstanceAs (Decidable (g ∈ s.members))

theorem mem_def {g : Glyph} {s : GlyphSet} : g ∈ s ↔ g ∈ s.members := Iff.rfl

@[simp] theorem mem_ofList {g : Glyph} {gs : List Glyph} : g ∈ ofList gs ↔ g ∈ gs := by
  rw [mem_def, ofList, mem_arrange]

@[simp] theorem mem_singleton {g h : Glyph} : g ∈ singleton h ↔ g = h := by
  simp [mem_def, singleton]

@[simp] theorem not_mem_empty {g : Glyph} : ¬ g ∈ empty := by
  simp [mem_def, empty]

/-- The number of members. -/
def size (s : GlyphSet) : Nat := s.members.length

/-- Whether there is no member. -/
def isEmpty (s : GlyphSet) : Bool := s.members.isEmpty

/-- The lowest member. -/
def first? (s : GlyphSet) : Option Glyph := s.members.head?

/-- The highest member. -/
def last? (s : GlyphSet) : Option Glyph := s.members.getLast?

/-- Whether two sets share a glyph. -/
def intersects (a b : GlyphSet) : Bool := meets a.members b.members

theorem intersects_iff {a b : GlyphSet} : a.intersects b = true ↔ ∃ g, g ∈ a ∧ g ∈ b :=
  meets_iff a.ascending b.ascending

/-- Sets are ordered by their members as words are by their letters. -/
instance : Ord GlyphSet := ⟨compareOn members⟩

instance : Std.TransOrd GlyphSet :=
  inferInstanceAs (Std.TransCmp (compareOn members))

instance : Std.LawfulEqOrd GlyphSet where
  eq_of_compare h := ext_members (@Std.LawfulEqCmp.eq_of_compare _ compare _ _ _ h)

end GlyphSet

/-! ## Tokens -/

/-- One side of a pair: a single glyph, or any glyph of a set. -/
inductive Token where
  | glyph (g : Glyph)
  | set (s : GlyphSet)
deriving DecidableEq

namespace Token

/-- The glyphs the token stands for. -/
def toSet : Token → GlyphSet
  | .glyph g => .singleton g
  | .set s => s

end Token
end FontLayout
