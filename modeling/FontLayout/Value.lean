/-!
# Position adjustments and anchors

A value record moves and resizes a glyph by up to four amounts. Each amount may be absent, which
is not the same as zero: the format of a record is the set of amounts it has. An anchor is a
point at which another glyph is attached.
-/
namespace FontLayout

/-! ## Value formats -/

/-- Which amounts a value record has. -/
structure ValueFormat where
  xPlacement : Bool
  yPlacement : Bool
  xAdvance : Bool
  yAdvance : Bool
deriving DecidableEq

namespace ValueFormat

/-- No amount at all. -/
def none : ValueFormat := ⟨false, false, false, false⟩

instance : Inhabited ValueFormat := ⟨none⟩

/-- The amounts that either format has. -/
def union (a b : ValueFormat) : ValueFormat where
  xPlacement := a.xPlacement || b.xPlacement
  yPlacement := a.yPlacement || b.yPlacement
  xAdvance := a.xAdvance || b.xAdvance
  yAdvance := a.yAdvance || b.yAdvance

theorem union_none (f : ValueFormat) : f.union .none = f := by
  obtain ⟨_, _, _, _⟩ := f
  simp [union, none]

/-- The number of amounts. -/
def fieldCount (f : ValueFormat) : Nat :=
  f.xPlacement.toNat + f.yPlacement.toNat + f.xAdvance.toNat + f.yAdvance.toNat

/-- The bytes a record takes when written in this format. -/
def recordSize (f : ValueFormat) : Nat := 2 * f.fieldCount

/-- The format as a number, one bit for each amount. -/
def code (f : ValueFormat) : UInt16 :=
  UInt16.ofNat (f.xPlacement.toNat + 2 * f.yPlacement.toNat + 4 * f.xAdvance.toNat
    + 8 * f.yAdvance.toNat)

end ValueFormat

/-! ## Value records -/

/-- Up to four amounts by which a glyph is moved or resized. -/
structure ValueRecord where
  xPlacement : Option Int16
  yPlacement : Option Int16
  xAdvance : Option Int16
  yAdvance : Option Int16
deriving DecidableEq

namespace ValueRecord

/-- The record that has no amount. -/
def empty : ValueRecord := ⟨.none, .none, .none, .none⟩

instance : Inhabited ValueRecord := ⟨empty⟩

/-- The amounts the record has. -/
def format (v : ValueRecord) : ValueFormat where
  xPlacement := v.xPlacement.isSome
  yPlacement := v.yPlacement.isSome
  xAdvance := v.xAdvance.isSome
  yAdvance := v.yAdvance.isSome

/-- Whether the record has no amount. -/
def isEmpty (v : ValueRecord) : Bool :=
  v.xPlacement.isNone && v.yPlacement.isNone && v.xAdvance.isNone && v.yAdvance.isNone

theorem format_of_isEmpty {v : ValueRecord} (h : v.isEmpty = true) : v.format = .none := by
  obtain ⟨_ | _, _ | _, _ | _, _ | _⟩ := v <;> first | rfl | cases h

/-- The amounts written for a record in a given format; one that the record lacks is zero. -/
def amounts (v : ValueRecord) (f : ValueFormat) : List Int16 :=
  let amount (present : Bool) (field : Option Int16) : List Int16 :=
    if present then [field.getD 0] else []
  amount f.xPlacement v.xPlacement ++ amount f.yPlacement v.yPlacement
    ++ amount f.xAdvance v.xAdvance ++ amount f.yAdvance v.yAdvance

theorem length_amounts (v : ValueRecord) (f : ValueFormat) :
    (v.amounts f).length = f.fieldCount := by
  obtain ⟨a, b, c, d⟩ := f
  cases a <;> cases b <;> cases c <;> cases d <;> rfl

end ValueRecord

/-- The least format that holds every record of a list. -/
def commonFormat (vs : List ValueRecord) : ValueFormat :=
  vs.foldl (fun f v => f.union v.format) .none

/-! ## Anchors -/

/-- A point of a glyph, perhaps tied to one of the points of its outline. -/
structure Anchor where
  x : Int16
  y : Int16
  contourPoint : Option UInt16
deriving DecidableEq

namespace Anchor

/-- The origin, which stands in for an anchor that was not given. -/
def origin : Anchor := ⟨0, 0, none⟩

instance : Inhabited Anchor := ⟨origin⟩

/-- The bytes an anchor takes when written. -/
def size (a : Anchor) : Nat := if a.contourPoint.isSome then 8 else 6

end Anchor
end FontLayout
