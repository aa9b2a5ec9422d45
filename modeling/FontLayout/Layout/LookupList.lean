import FontLayout.Layout.FeatureList
import FontLayout.Subtable.Encoding
/-!
# Lookup lists

The lookup list of a layout table holds its lookups, and these link to their subtables. The
subtables wait until all lists are written. A lookup may reach its subtables through extension
records, which stand next to the lookup and hold long offsets.
-/
namespace FontLayout

/-- A lookup as the font holds it: its type and flags, the place of its mark filtering set, and
the tables of its subtables. -/
structure LookupRecord where
  lookupType : UInt16
  flags : UInt16
  filterSet : Option UInt16
  subtables : List Table

/-- A short offset to a subtable that waits until the lists are written. -/
def deferredSubtable : Link := ⟨.short, .subtable, .deferred, none⟩

/-- A long offset to a subtable that waits until the lists are written. -/
def distantSubtable : Link := ⟨.long, .subtable, .deferred, none⟩

/-- An extension record: the type of the lookup, and a long offset to its subtable. -/
def extensionTable (lookupType : UInt16) (subtable : Table) : Table :=
  .words [1, lookupType] <| .link distantSubtable subtable .done

namespace LookupRecord

/-- The place of the filtering set, if the lookup has one. -/
def filterWords (l : LookupRecord) : List UInt16 := l.filterSet.toList

/-- The table of a lookup. With an extension type, its subtables are reached indirectly. -/
def table (extension : Option UInt16) (l : LookupRecord) : Table :=
  match extension with
  | none =>
    .words [l.lookupType, l.flags] <|
      .countedLinks deferredSubtable l.subtables <| .words l.filterWords .done
  | some type =>
    .words [type, l.flags] <|
      .countedLinks (.near .subtable) (l.subtables.map (extensionTable l.lookupType)) <|
      .words l.filterWords .done

end LookupRecord

/-- The number by which the `i`-th lookup is known to what it owns. It is kept in a word. -/
def lookupNumber (i : Nat) : Nat := (UInt16.ofNat i).toNat

theorem lookupNumber_le (i : Nat) : lookupNumber i ≤ i := by
  unfold lookupNumber
  rw [UInt16.toNat_ofNat']
  exact Nat.mod_le ..

theorem lookupNumber_of_lt {i : Nat} (h : i < 0x10000) : lookupNumber i = i := by
  unfold lookupNumber
  rw [UInt16.toNat_ofNat']
  exact Nat.mod_eq_of_lt h

/-- A short offset to the `i`-th lookup, which owns all tables below it. -/
def lookupLink (i : Nat) : Link := ⟨.short, .lookup, .near, some (lookupNumber i)⟩

/-- The table of a lookup list. -/
def lookupListTable (lookups : List Table) : Table :=
  .count lookups.length <|
    lookups.zipIdx.foldr (fun l rest => .link (lookupLink l.2) l.1 rest) .done

/-- A whole layout table: version 1.0, then its three lists. -/
def layoutTable (scripts : ScriptList) (features : FeatureList) (lookups : List Table) : Table :=
  .words [1, 0] <|
    .link (.near .scriptList) (scriptListTable scripts) <|
    .link (.near .featureList) (featureListTable features) <|
    .link (.near .lookupList) (lookupListTable lookups) .done

end FontLayout
