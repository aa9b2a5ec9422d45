import FontLayout.Proofs.Counts.Layout
import FontLayout.Proofs.Reading.Classes
/-!
# Reading the glyph definition table

A reader of the glyph definition table learns from the version whether there are filtering sets,
and follows an offset to each part that is not left out. If all counts fit, it gets back what the
table was made from.

Nothing is read of a list of attachment points, because there is none.

Results:
* `GlyphDefinition.yields_table`, `GlyphDefinition.read_eq`: what a reader gets from the table.
* `GlyphDefinition.attachmentClass_contents`: the attachment class of a glyph, as it is read.
-/
namespace FontLayout

/-! ## Readers -/

/-- What a reader gets from a glyph definition table. A caret comes with its form: 1 for a
coordinate, 2 for a contour point. -/
structure GlyphDefinition.Contents where
  minorVersion : UInt16
  roles : Option (List (Glyph × UInt16))
  carets : Option (List (Glyph × List (UInt16 × UInt16)))
  attachments : Option (List (Glyph × UInt16))
  filterSets : List (List Glyph)

namespace Reader

/-- Reads the minor version of a table in its first major version. -/
def minorVersion : Reader UInt16 := do
  match ← word with
  | 1 => word
  | _ => fail

/-- Reads a caret, with its form. -/
def caret : Reader (UInt16 × UInt16) := do
  match ← word with
  | 1 => return (1, ← word)
  | 2 => return (2, ← word)
  | _ => fail

/-- Reads the carets of all ligatures. -/
def caretList : Reader (List (Glyph × List (UInt16 × UInt16))) := do
  let covered ← link coverage
  let carets ← counted (link (counted (link caret)))
  assign covered carets

/-- Reads the glyphs of the filtering sets. -/
def filterSets : Reader (List (List Glyph)) := do
  match ← word with
  | 1 => counted (longLink glyphs)
  | _ => fail

/-- Reads the filtering sets that follow in a table of this minor version. -/
def filterSetsOf (minor : UInt16) : Reader (List (List Glyph)) :=
  if minor = 2 then link filterSets else pure []

/-- Reads a glyph definition table without attachment points. -/
def glyphDefinition : Reader GlyphDefinition.Contents := do
  let minor ← minorVersion
  let roles ← link? classes
  let _ ← link? (fail : Reader Unit)
  let carets ← link? caretList
  let attachments ← link? classes
  let sets ← filterSetsOf minor
  return ⟨minor, roles, carets, attachments, sets⟩

end Reader

/-! ## Parts that may be left out -/

/-- A map, unless it is empty. -/
def ByGlyph.unlessEmpty {α : Type} (m : ByGlyph α) : Option (ByGlyph α) :=
  if m.isEmpty then none else some m

theorem ByGlyph.map_unlessEmpty {α β : Type} (m : ByGlyph α) (f : ByGlyph α → β) :
    (if m.isEmpty then none else some (f m)) = m.unlessEmpty.map f := by
  unfold unlessEmpty
  split <;> rfl

namespace GlyphDefinition

/-! ## What is read -/

/-- The forms and numbers of the carets of a ligature. -/
def caretWords : CaretValues → List (UInt16 × UInt16)
  | .positions xs => xs.map fun x => (1, x.toUInt16)
  | .points ps => ps.map fun p => (2, p)

/-- What can be read from the table. -/
def contents (d : GlyphDefinition) : Contents where
  minorVersion := d.minorVersion
  roles := d.roles.unlessEmpty.map fun m => (ClassDef.ofMap (m.map Role.code)).classes.entries
  carets := d.carets.unlessEmpty.map fun m => m.entries.map fun e => (e.1, caretWords e.2)
  attachments := d.attachments.unlessEmpty.map fun m => (ClassDef.ofMap m).classes.entries
  filterSets := d.filterSets.map GlyphSet.members

theorem yields_caretTables (c : CaretValues) :
    Yields (Reader.counted (Reader.link Reader.caret))
      (.countedLinks (.near .caretValue) (caretTables c) .done) (caretWords c) := by
  cases c with
  | positions xs =>
    refine (Reads.countedLinks .caretValue fun x (_ : x ∈ xs) => ?_).yields
    exact (Reads.cons (.map _ (.single x.toUInt16))).yields
  | points ps =>
    refine (Reads.countedLinks .caretValue fun p (_ : p ∈ ps) => ?_).yields
    exact (Reads.cons (.map _ (.single p))).yields

theorem yields_caretListTable (m : ByGlyph CaretValues) :
    Yields Reader.caretList (caretListTable m)
      (m.entries.map fun e => (e.1, caretWords e.2)) := by
  have hcarets := Reads.countedLinks .ligatureGlyph fun c (_ : c ∈ m.values) =>
    yields_caretTables c
  exact .bind (.coverage .coverage m.keys)
    (.bind hcarets ((Reads.assign m caretWords).yields (t := .done)))

theorem yields_filterSetsTable (sets : List GlyphSet) :
    Yields Reader.filterSets (filterSetsTable sets) (sets.map GlyphSet.members) := by
  have hsets := Reads.countedOffsets fun s (_ : s ∈ sets) =>
    Reads.long (l := filterSetLink) rfl (yields_glyphs s)
  exact .bind (.word 1) hsets.yields

/-- The filtering sets are looked for exactly if there are any. -/
theorem yields_filterSets (d : GlyphDefinition) :
    Yields (Reader.filterSetsOf d.minorVersion)
      (if d.filterSets.isEmpty then .done
        else .link (.near .markGlyphSets) (filterSetsTable d.filterSets) .done)
      (d.filterSets.map GlyphSet.members) := by
  rw [Reader.filterSetsOf]
  by_cases hsets : d.filterSets = []
  · have hversion : ¬ d.minorVersion = 2 := fun h => d.table_version.1 h hsets
    rw [if_neg hversion, hsets]
    exact .pure [] .done
  · have hfilled : ¬ d.filterSets.isEmpty = true := mt List.isEmpty_iff.1 hsets
    rw [if_pos (d.table_version.2 hsets), if_neg hfilled]
    exact (Reads.near .markGlyphSets (yields_filterSetsTable d.filterSets)).yields

/-- **The glyph definition table.** A reader gets the parts that are not left out, and the version
that tells of filtering sets. -/
theorem yields_table (d : GlyphDefinition) : Yields Reader.glyphDefinition d.table d.contents := by
  have hversion : Reads Reader.minorVersion (Table.words [1, d.minorVersion]) d.minorVersion :=
    .cons (.single d.minorVersion)
  have hroles := Reads.link? .glyphClasses
    (fun m : ByGlyph Role => ClassDef.yields_table (ClassDef.leavesOutZero_ofMap (m.map Role.code)))
    d.roles.unlessEmpty
  have hcarets := Reads.link? .caretList yields_caretListTable d.carets.unlessEmpty
  have hattachments := Reads.link? .markAttachClasses
    (fun m => ClassDef.yields_table (ClassDef.leavesOutZero_ofMap m)) d.attachments.unlessEmpty
  rw [table, d.roles.map_unlessEmpty fun m => (ClassDef.ofMap (m.map Role.code)).table,
    d.carets.map_unlessEmpty caretListTable,
    d.attachments.map_unlessEmpty fun m => (ClassDef.ofMap m).table]
  exact .bind hversion (.bind hroles (.bind .null (.bind hcarets (.bind hattachments
    (.map _ d.yields_filterSets)))))

theorem read_eq {d : GlyphDefinition} {bytes : ByteArray} (h : d.table.encode = .ok bytes)
    (hcount : d.Countable) : Reader.glyphDefinition.read bytes.data.toList = some d.contents := by
  have hfit := (countsFit_table_iff (Table.fits_of_encode h)).2 hcount
  exact d.yields_table.read_eq (Table.stands_of_encode h hfit)

/-- All parts, with one glyph each. -/
example :
    let d : GlyphDefinition := ⟨.ofLast [(1, .base)], .ofFirst [(3, .positions [-1])],
      .ofFirst [(5, 1)], [.singleton 7]⟩
    ∃ bytes, d.table.encode = .ok bytes ∧ Reader.glyphDefinition.read bytes.data.toList =
      some ⟨2, some [(1, 1)], some [(3, [(1, 0xFFFF)])], some [(5, 1)], [[7]]⟩ :=
  ⟨_, rfl, rfl⟩

/-- The attachment class of a glyph; a glyph that is not listed is in class 0. -/
def Contents.attachmentClass (c : Contents) (g : Glyph) : UInt16 :=
  classIn (c.attachments.getD []) g

theorem attachmentClass_contents (d : GlyphDefinition) (g : Glyph) :
    d.contents.attachmentClass g = (d.attachments.find? g).getD 0 := by
  dsimp only [Contents.attachmentClass, contents]
  by_cases hempty : d.attachments.isEmpty
  · have hentries : d.attachments.entries = [] := List.isEmpty_iff.1 hempty
    rw [ByGlyph.unlessEmpty, if_pos hempty, ByGlyph.find?, hentries]
    rfl
  · rw [ByGlyph.unlessEmpty, if_neg hempty, Option.map_some, Option.getD_some,
      ClassDef.classIn_ofMap]
    rfl

end GlyphDefinition
end FontLayout
