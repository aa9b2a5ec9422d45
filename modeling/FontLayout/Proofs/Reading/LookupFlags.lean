import FontLayout.Proofs.Counts.Compiled
import FontLayout.Proofs.Layout.Extension
import FontLayout.Proofs.Layout.MarkFlags
import FontLayout.Proofs.Outcomes
import FontLayout.Proofs.Reading.GlyphDefinition
/-!
# Reading lookup flags

A reader of a layout table finds the flags of each lookup and, behind the offsets to its
subtables, the place of its filtering set, if the flags say that there is one. The numbers in them
refer to the glyph definition table, where the reader finds the glyphs of an attachment class or
of a filtering set. In the tables that a rule set is compiled to, these are the marks that each
lookup is for.

Results:
* `LookupRecord.yields_table`, `yields_layoutTable`: what a reader gets from the lookups of a
  layout table.
* `agrees_compile`: the flags that are read agree with the glyph definition table that is read.
-/
namespace FontLayout

/-! ## Readers -/

/-- What a reader gets from a lookup: its flags, and the place of its filtering set. -/
structure LookupFlags where
  flags : UInt16
  filterSet : Option UInt16

namespace Reader

/-- Reads an offset and follows it nowhere. -/
def skip : Reader Unit := do
  let _ ← number

/-- Reads the place of a filtering set, if these flags say that there is one. -/
def filterPlace (flags : UInt16) : Reader (Option UInt16) :=
  if flags &&& 0x10 = 0 then pure none else do return some (← word)

/-- Reads the flags of a lookup. -/
def lookupFlags : Reader LookupFlags := do
  let _ ← word
  let flags ← word
  let _ ← counted skip
  let filterSet ← filterPlace flags
  return ⟨flags, filterSet⟩

/-- Reads the flags of all lookups of a layout table. -/
def layoutFlags : Reader (List LookupFlags) := do
  let _ ← minorVersion
  let _ ← skip
  let _ ← skip
  link (counted (link lookupFlags))

end Reader

/-! ## What is read -/

theorem Reads.skip {l : Link} (hshort : l.width = .short) (child : Table) :
    Reads Reader.skip (Table.link l child) () := by
  intro file bytes rest h
  obtain ⟨field, more, rfl, hlength, -, -, hs⟩ := h
  rw [hshort] at hlength
  exact ⟨more, Reader.bind_eq (number_append hlength file more) _, hs⟩

namespace LookupRecord
variable {r : LookupRecord}

/-- What can be read of a lookup but for its subtables. -/
def readFlags (r : LookupRecord) : LookupFlags := ⟨r.flags, r.filterSet⟩

theorem yields_filterWords (h : r.flags &&& 0x10 = 0 ↔ r.filterSet = none) :
    Yields (Reader.filterPlace r.flags) (.words r.filterWords .done) r.filterSet := by
  rw [Reader.filterPlace, filterWords]
  cases hset : r.filterSet with
  | none =>
    rw [if_pos (h.2 hset)]
    exact .pure none _
  | some i =>
    have hbit : ¬ r.flags &&& 0x10 = 0 := fun hzero => by
      rw [h.1 hzero] at hset
      cases hset
    rw [if_neg hbit]
    exact (Reads.map some (.single i)).yields

/-- The flags of a lookup are read, however it reaches its subtables. -/
theorem yields_table (h : r.flags &&& 0x10 = 0 ↔ r.filterSet = none) (extension : Option UInt16) :
    Yields Reader.lookupFlags (r.table extension) r.readFlags := by
  have hfilter := Yields.map (fun filterSet => (⟨r.flags, filterSet⟩ : LookupFlags))
    (yields_filterWords h)
  cases extension with
  | none =>
    have hlinks := Reads.countedOffsets fun s (_ : s ∈ r.subtables) =>
      Reads.skip (l := deferredSubtable) rfl s
    rw [List.map_id'] at hlinks
    exact .words_cons (.bind (.single r.flags) (.bind hlinks hfilter))
  | some type =>
    have hlinks := Reads.countedOffsets fun s (_ : s ∈ r.subtables) =>
      Reads.skip (l := .near .subtable) rfl (extensionTable r.lookupType s)
    exact .words_cons (.bind (.single r.flags) (.bind hlinks hfilter))

end LookupRecord

section
variable {α γ : Type} {read : Reader α} {xs : List γ} {table : γ → Table} {view : γ → α}

theorem yields_lookupLinks (h : ∀ a ∈ xs, Yields read (table a) (view a)) (k : Nat) :
    Yields (.times xs.length (.link read)) (lookupLinks k (xs.map table)) (xs.map view) := by
  induction xs generalizing k with
  | nil => exact .pure [] _
  | cons a xs ih =>
    rw [List.forall_mem_cons] at h
    exact .bind (.short rfl h.1) (.map _ (ih h.2 (k + 1)))

theorem yields_lookupListTable (h : ∀ a ∈ xs, Yields read (table a) (view a)) :
    Yields (.counted (.link read)) (lookupListTable (xs.map table)) (xs.map view) := by
  have hlinks := yields_lookupLinks h 0
  rw [← xs.length_map table] at hlinks
  exact .bind (.count _) hlinks

end

/-- The flags of all lookups are read. -/
theorem yields_layoutTable {records : List LookupRecord}
    (h : ∀ r ∈ records, r.flags &&& 0x10 = 0 ↔ r.filterSet = none) (scripts : ScriptList)
    (features : FeatureList) (extension : Option UInt16) :
    Yields Reader.layoutFlags
      (layoutTable scripts features (records.map (LookupRecord.table extension)))
      (records.map LookupRecord.readFlags) := by
  have hversion : Reads Reader.minorVersion (Table.words [1, 0]) 0 := .cons (.single 0)
  have hlookups := yields_lookupListTable fun r hr => (LookupRecord.yields_table (h r hr) extension)
  exact .bind hversion (.bind (.skip rfl _) (.bind (.skip rfl _)
    (Reads.near .lookupList hlookups).yields))

/-! ## What flags refer to -/

/-- Whether the flags of a lookup, as they are read, refer to those marks in a glyph definition
table that the lookup is for. -/
structure GlyphDefinition.Contents.Agrees (c : Contents) (l : Lookup) (f : LookupFlags) :
    Prop where
  unattached (h : l.markAttachment = none) : f.flags >>> 8 = 0
  attached {s : GlyphSet} (h : l.markAttachment = some s) :
    f.flags >>> 8 ≠ 0 ∧ ∀ g, c.attachmentClass g = f.flags >>> 8 ↔ g ∈ s
  unfiltered (h : l.markFilterSet = none) : f.flags &&& 0x10 = 0 ∧ f.filterSet = none
  filtered {s : GlyphSet} (h : l.markFilterSet = some s) : f.flags &&& 0x10 = 0x10 ∧
    ∃ i, f.filterSet = some i ∧ c.filterSets[i.toNat]? = some s.members
  own : f.flags &&& 0xEF = l.flags &&& 0xEF

/-- The flags of a lookup, as they are read from its table. -/
def PreparedLookup.readFlags (p : PreparedLookup) : LookupFlags := ⟨p.flags, p.filterSet⟩

namespace GlyphDefinition
variable {d : GlyphDefinition} {l : Lookup} {p : PreparedLookup}

theorem Agrees.contents (h : d.Agrees l p) : d.contents.Agrees l p.readFlags where
  unattached := h.unattached
  attached := by
    intro s hs
    obtain ⟨hpos, -, hclass⟩ := h.attached hs
    have hne : p.flags >>> 8 ≠ 0 := fun he => by
      rw [he] at hpos
      exact absurd hpos (by decide)
    refine ⟨hne, fun g => ?_⟩
    rw [attachmentClass_contents, PreparedLookup.readFlags, ← hclass g]
    cases d.attachments.find? g with
    | none => exact iff_of_false (fun he => hne he.symm) (fun he => nomatch he)
    | some x => exact Option.some_inj.symm
  unfiltered := h.unfiltered
  filtered := by
    intro s hs
    obtain ⟨hbit, i, hi, hset⟩ := h.filtered hs
    refine ⟨hbit, i, hi, ?_⟩
    rw [GlyphDefinition.contents, List.getElem?_map, hset]
    rfl
  own := h.own

/-- The filtering bit says whether there is a filtering set. -/
theorem Agrees.bit_iff (h : d.Agrees l p) : p.flags &&& 0x10 = 0 ↔ p.filterSet = none := by
  cases hset : l.markFilterSet with
  | none => exact iff_of_true (h.unfiltered hset).1 (h.unfiltered hset).2
  | some s =>
    obtain ⟨hbit, i, hi, -⟩ := h.filtered hset
    rw [hbit, hi]
    exact iff_of_false (by decide) (fun he => nomatch he)

end GlyphDefinition

theorem TableInput.Allows.map_fst_packedAfter {t : TableInput} {o : Options} {halvings : List Nat}
    (h : t.Allows o halvings) : (t.packedAfter o halvings).map Prod.fst = t.lookups := by
  rw [packedAfter, ← List.map_uncurry_zip_eq_zipWith, List.map_map]
  exact List.map_fst_zip (Nat.le_of_eq h.length_eq.symm)

/-! ## Compiled tables -/

section
variable {s : RuleSet} {glyphs : GlyphOrder} {o : Options} {c : Compilation}

/-- The flags of all lookups are read from the table that they are compiled to. -/
theorem read_layoutFlags {resolved : List ResolvedLookup} {p : Purpose} {bytes : ByteArray}
    (hbytes : ((s.input resolved p).assemble o).value = some bytes)
    (hbit : ∀ l ∈ (s.input resolved p).lookups, l.flags &&& 0x10 = 0 ↔ l.filterSet = none) :
    Reader.layoutFlags.read bytes.data.toList =
      some ((s.input resolved p).lookups.map PreparedLookup.readFlags) := by
  obtain ⟨halvings, hallows, hencode⟩ := TableInput.encode_of_assemble hbytes
  rw [← hallows.map_fst_packedAfter, List.forall_mem_map] at hbit
  have hread := (yields_layoutTable (List.forall_mem_map.2 hbit) _ _ _).read_eq
    (TableInput.holdsBlocks_of_encode hencode).2
  rw [hread, ← hallows.map_fst_packedAfter, List.map_map, List.map_map]
  rfl

/-- The version tells of filtering sets if a lookup has one. -/
theorem minorVersion_ofRules :
    (GlyphDefinition.ofRules s (MarkIds.ofLookups s.lookups)).minorVersion = 2 ↔
      ∃ l ∈ s.lookups, l.markFilterSet.isSome := by
  rw [GlyphDefinition.table_version, ne_eq, List.eq_nil_iff_forall_not_mem, not_forall]
  simp only [GlyphDefinition.ofRules, MarkIds.ofLookups, Numbering.mem_ofList, List.mem_filterMap,
    not_not, Option.isSome_iff_exists]
  exact exists_comm.trans (exists_congr fun _ => exists_and_left)

/-- A glyph is in class 0 if it is in no attachment class. -/
theorem attachmentClass_eq_zero_iff (hsurvey : ∀ f ∈ surveyFindings s, f.level ≠ .error)
    (g : Glyph) :
    (GlyphDefinition.ofRules s (MarkIds.ofLookups s.lookups)).contents.attachmentClass g = 0 ↔
      ∀ l ∈ s.lookups, ∀ c, l.markAttachment = some c → g ∉ c := by
  rw [GlyphDefinition.attachmentClass_contents, ← find?_attachments_eq_none hsurvey]
  cases hfound : (GlyphDefinition.ofRules s (MarkIds.ofLookups s.lookups)).attachments.find? g with
  | none => exact iff_of_true rfl rfl
  | some x =>
    obtain ⟨i, c, hi, -, rfl⟩ := (find?_attachments hsurvey).1 hfound
    refine iff_of_false (fun he => ?_) (fun he => nomatch he)
    have hnumber := toNat_number (place_lt hsurvey hi)
    rw [show UInt16.ofNat i + 1 = 0 from he] at hnumber
    exact absurd hnumber (by simp)

/-- **Flags agree with the glyph definition table, byte for byte.** Suppose that the lookups of a
rule set have defined flags only, and that it is compiled to a glyph definition table in which all
counts fit. From the bytes of this table, a reader gets the filtering sets, if any lookup has one,
and the attachment class of each glyph that is in one. From the bytes of a layout table it gets
flags for the lookups of its purpose, which refer to the marks that each of them is for. -/
theorem agrees_compile {p : Purpose} {gdef layout : ByteArray} (h : compile s glyphs o = .ok c)
    (hgdef : c.tables.gdef = some gdef) (hlayout : c.tables.layout? p = some layout)
    (hflags : ∀ l ∈ s.lookups, l.flags &&& 0x1F = l.flags)
    (hcount : (GlyphDefinition.ofRules s (MarkIds.ofLookups s.lookups)).Countable) :
    ∃ contents flags, Reader.glyphDefinition.read gdef.data.toList = some contents ∧
      Reader.layoutFlags.read layout.data.toList = some flags ∧
      (contents.minorVersion = 2 ↔ ∃ l ∈ s.lookups, l.markFilterSet.isSome) ∧
      (∀ g, contents.attachmentClass g = 0 ↔
        ∀ l ∈ s.lookups, ∀ c, l.markAttachment = some c → g ∉ c) ∧
      List.Forall₂ contents.Agrees (s.lookups.filter (·.kind.purpose == p)) flags := by
  have hsurvey : ∀ f ∈ surveyFindings s, f.level ≠ .error := by
    rw [surveyFindings_of_compile h]
    exact fun f hf => (nomatch hf)
  have hsets : (s.lookups.filterMap Lookup.markFilterSet).dedup.length ≤ 0xFFFF := by
    rw [← Numbering.length_ofList]
    exact hcount.2.2
  obtain ⟨resolved, hc⟩ := exists_compiledFrom h
  have hagrees {r : ResolvedLookup} (hr : r.lookup ∈ s.lookups) :=
    agrees_prepare hsurvey hflags hsets hr
  have hbit : ∀ l ∈ (s.input resolved p).lookups, l.flags &&& 0x10 = 0 ↔ l.filterSet = none :=
    List.forall_mem_map.2 fun r hr =>
      (hagrees (mem_of_resolveLookups hc.resolve (List.mem_filter.1 hr).1)).bit_iff
  have hencode := GlyphDefinition.encode_of_assemble (hc.assemble_gdef hgdef)
  refine ⟨_, _, GlyphDefinition.read_eq hencode hcount,
    read_layoutFlags (hc.assemble_layout hlayout) hbit, minorVersion_ofRules,
    attachmentClass_eq_zero_iff hsurvey, ?_⟩
  rw [List.forall₂_map_right_iff]
  exact forall₂_input (fun r hr => (hagrees hr).contents) hc.resolve p

end
end FontLayout
