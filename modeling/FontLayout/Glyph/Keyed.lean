import FontLayout.Glyph.Basic
/-!
# Values by glyph

The subtables of a font list their records in the order of the glyphs they belong to. `ByGlyph`
is such a list: each glyph once, ascending. It is filled either keeping the first value given
for a glyph or keeping the last.

Results:
* `ByGlyph.find?_eq_some_iff`: looking a glyph up finds the record that the list holds.
-/
namespace FontLayout

/-- A value for each of some glyphs, in ascending order of the glyphs. -/
structure ByGlyph (α : Type) where
  entries : List (Glyph × α)
  ascending : (entries.map Prod.fst).Pairwise (· < ·)
deriving DecidableEq

namespace ByGlyph
variable {α β : Type}

/-- No glyph has a value. -/
def empty : ByGlyph α := ⟨[], ascending_nil⟩

instance : Inhabited (ByGlyph α) := ⟨empty⟩

/-- The records of a tree, in order. -/
def ofTree (t : Std.TreeMap Glyph α) : ByGlyph α where
  entries := t.toList
  ascending := List.pairwise_map.2
    ((Std.TreeMap.ordered_keys_toList (t := t)).imp compare_eq_lt_iff.1)

/-- Records as they are if their glyphs ascend, and otherwise the records of a tree. -/
def ofAscendingOr (xs : List (Glyph × α)) (tree : Unit → Std.TreeMap Glyph α) : ByGlyph α :=
  if h : ascends (xs.map Prod.fst) = true then ⟨xs, ascends_iff.1 h⟩ else ofTree (tree ())

/-- The first value given for each glyph. -/
def ofFirst (xs : List (Glyph × α)) : ByGlyph α :=
  ofAscendingOr xs fun _ => xs.foldl (fun t x => t.insertIfNew x.1 x.2) ∅

/-- The last value given for each glyph. -/
def ofLast (xs : List (Glyph × α)) : ByGlyph α :=
  ofAscendingOr xs fun _ => xs.foldl (fun t x => t.insert x.1 x.2) ∅

/-- All values given for each glyph, in the order in which they were given. -/
def group (xs : List (Glyph × α)) : ByGlyph (List α) :=
  let t := ofTree <| xs.foldl (fun t x => t.insert x.1 (x.2 :: t.getD x.1 [])) ∅
  ⟨t.entries.map fun e => (e.1, e.2.reverse), by
    have := t.ascending
    simpa [List.map_map, Function.comp_def] using this⟩

/-- The glyphs that have a value. -/
def keys (m : ByGlyph α) : GlyphSet := ⟨m.entries.map Prod.fst, m.ascending⟩

/-- The values, in the order of their glyphs. -/
def values (m : ByGlyph α) : List α := m.entries.map Prod.snd

/-- The number of glyphs that have a value. -/
def size (m : ByGlyph α) : Nat := m.entries.length

/-- Whether no glyph has a value. -/
def isEmpty (m : ByGlyph α) : Bool := m.entries.isEmpty

/-- The value of a glyph. -/
def find? (m : ByGlyph α) (g : Glyph) : Option α := m.entries.lookup g

/-- Another value for each glyph. -/
def map (f : α → β) (m : ByGlyph α) : ByGlyph β where
  entries := m.entries.map fun e => (e.1, f e.2)
  ascending := by
    have := m.ascending
    simpa [List.map_map, Function.comp_def] using this

/-- Only the glyphs whose value passes a test. -/
def filter (p : α → Bool) (m : ByGlyph α) : ByGlyph α where
  entries := m.entries.filter fun e => p e.2
  ascending := m.ascending.sublist (List.filter_sublist.map _)

theorem lookup_eq_some_iff {xs : List (Glyph × α)} (h : (xs.map Prod.fst).Pairwise (· < ·))
    {g : Glyph} {a : α} : xs.lookup g = some a ↔ (g, a) ∈ xs := by
  induction xs with
  | nil => simp
  | cons x xs ih =>
    obtain ⟨k, v⟩ := x
    rw [List.map_cons, List.pairwise_cons] at h
    rw [List.lookup_cons]
    by_cases hk : g = k
    · subst hk
      have hn : (g, a) ∉ xs := fun hm =>
        absurd (h.1 g (List.mem_map_of_mem hm)) (by simp)
      simp [hn, eq_comm]
    · have : (g == k) = false := by simpa using hk
      simp [this, ih h.2, hk]

theorem find?_eq_some_iff {m : ByGlyph α} {g : Glyph} {a : α} :
    m.find? g = some a ↔ (g, a) ∈ m.entries :=
  lookup_eq_some_iff m.ascending

end ByGlyph
end FontLayout
