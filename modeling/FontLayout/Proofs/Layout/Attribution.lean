import FontLayout.Proofs.Layout.Owners
import FontLayout.Proofs.Placement.Paths
/-!
# The lookup that an overflow belongs to

Every table of a layout table stands either in front of the lookups, in the header, the script
list, the feature list or the lookup list, or in one lookup. Its owner is nothing or the number of
that lookup. The number is kept in a word, and might be that of another lookup if there were too
many; but the lookup list comes before all lookups, and its own offsets do not fit as soon as it
has that many entries. So the overflow of a layout table names the lookup that the offset is in.

Results:
* `LayoutHeader.owner_of_mem_nodes`: where the tables of a layout table stand, and who owns them.
* `LayoutHeader.ownersBelow_table`: a single variable is enough to know the owners.
* `LayoutHeader.lookup_of_encode`: the lookup that an overflow names.
* `TableInput.exists_misfit_of_layout`: the lookup that is split has the offset that does not fit.
-/
namespace FontLayout

open Table

/-! ## Layout tables -/

/-- What is written as a layout table: the lists, and the lookups, each with the type of its
extension records if it has them. The subtables hold no lookups. -/
structure LayoutHeader where
  scripts : ScriptList
  features : FeatureList
  lookups : List (Option UInt16 × LookupRecord)
  unnamed : ∀ l ∈ lookups, ∀ s ∈ l.2.subtables, s.Unnamed

namespace LayoutHeader

/-- The tables of the lookups. -/
def lookupTables (h : LayoutHeader) : List Table := h.lookups.map fun l => l.2.table l.1

/-- The tree of a layout table. -/
def table (h : LayoutHeader) : Table := layoutTable h.scripts h.features h.lookupTables

/-- Whether a table stands in front of the lookups: it is the header, it is the script list or
below it, it is the feature list or below it, or it is the lookup list. -/
inductive InLists (h : LayoutHeader) : List Nat → Table → Prop
  | header : InLists h [] h.table
  | scripts {path : List Nat} {t : Table}
      (hfollow : (scriptListTable h.scripts).follow path = some t) : InLists h (0 :: path) t
  | features {path : List Nat} {t : Table}
      (hfollow : (featureListTable h.features).follow path = some t) : InLists h (1 :: path) t
  | lookupList : InLists h [2] (lookupListTable h.lookupTables)

/-- Whether a table stands in the `i`-th lookup: it is the table of the lookup, one of its
extension records, or one of its subtables or below it. -/
inductive InLookup (h : LayoutHeader) (i : Nat) : List Nat → Table → Prop
  | lookup {type : Option UInt16} {l : LookupRecord} (hl : h.lookups[i]? = some (type, l)) :
      InLookup h i [2, i] (l.table type)
  | subtable {l : LookupRecord} {j : Nat} {s t : Table} {path : List Nat}
      (hl : h.lookups[i]? = some (none, l)) (hs : l.subtables[j]? = some s)
      (hfollow : s.follow path = some t) : InLookup h i (2 :: i :: j :: path) t
  | extensionRecord {type : UInt16} {l : LookupRecord} {j : Nat} {s : Table}
      (hl : h.lookups[i]? = some (some type, l)) (hs : l.subtables[j]? = some s) :
      InLookup h i [2, i, j] (extensionTable l.lookupType s)
  | distantSubtable {type : UInt16} {l : LookupRecord} {j : Nat} {s t : Table} {path : List Nat}
      (hl : h.lookups[i]? = some (some type, l)) (hs : l.subtables[j]? = some s)
      (hfollow : s.follow path = some t) : InLookup h i (2 :: i :: j :: 0 :: path) t

variable {h : LayoutHeader} {i j : Nat} {path : List Nat} {t u : Table}

theorem InLookup.lt (hi : h.InLookup i path t) : i < h.lookups.length := by
  cases hi with
  | lookup hl | subtable hl _ _ | extensionRecord hl _ | distantSubtable hl _ _ =>
    exact (List.getElem?_eq_some_iff.1 hl).1

theorem InLookup.path_eq (hi : h.InLookup i path t) : ∃ q, path = 2 :: i :: q := by
  cases hi <;> exact ⟨_, rfl⟩

/-- No table stands in two lookups. -/
theorem InLookup.unique (hi : h.InLookup i path t) (hj : h.InLookup j path u) : i = j := by
  obtain ⟨q, rfl⟩ := hi.path_eq
  obtain ⟨r, hr⟩ := hj.path_eq
  cases hr
  rfl

/-- No table stands in a lookup and in front of all. -/
theorem InLookup.not_inLists (hi : h.InLookup i path t) : ¬ h.InLists path u := by
  intro hlists
  obtain ⟨q, rfl⟩ := hi.path_eq
  cases hlists

/-! ## Owners -/

theorem mem_nodesBelow_lookupLinks {tables : List Table} {n : Node} {k : Nat}
    (hn : n ∈ (lookupLinks k tables).nodesBelow path none k) :
    ∃ i t, tables[i]? = some t ∧
      n ∈ (⟨path ++ [k + i], some (lookupNumber (k + i)), t⟩ : Node).nodes := by
  induction tables generalizing k with
  | nil => cases hn
  | cons t tables ih =>
    rw [lookupLinks_cons] at hn
    rcases mem_nodesBelow_link.1 hn with hn | hn
    · exact ⟨0, t, rfl, hn⟩
    · obtain ⟨i, u, hi, hn⟩ := ih hn
      refine ⟨i + 1, u, hi, ?_⟩
      rwa [Nat.add_comm i, ← Nat.add_assoc]

theorem unnamed_recordTable (type : Option UInt16) {l : LookupRecord}
    (hl : ∀ s ∈ l.subtables, s.Unnamed) : (l.table type).Unnamed := by
  cases type with
  | none => exact Unnamed.links rfl hl trivial
  | some type =>
    refine Unnamed.links rfl ?_ trivial
    exact List.forall_mem_map.2 fun s hs => ⟨rfl, hl s hs, trivial⟩

/-- Where the tables of a lookup stand. -/
theorem inLookup_of_mem_nodes {type : Option UInt16} {l : LookupRecord}
    (hl : h.lookups[i]? = some (type, l)) {n : Node} {owner : Option Nat}
    (hn : n ∈ (⟨[2, i], owner, l.table type⟩ : Node).nodes) : h.InLookup i n.path n.table := by
  rcases List.mem_cons.1 hn with rfl | hn
  · exact .lookup hl
  cases type with
  | none =>
    rcases mem_nodesBelow_links hn with ⟨j, s, hs, hn⟩ | hn
    · obtain ⟨q, hpath, hfollow⟩ := follow_of_mem_nodes hn
      rw [hpath, Nat.zero_add]
      exact .subtable hl hs hfollow
    · cases hn
  | some type =>
    rcases mem_nodesBelow_links hn with ⟨j, e, he, hn⟩ | hn
    · rw [List.getElem?_map, Option.map_eq_some_iff] at he
      obtain ⟨s, hs, rfl⟩ := he
      rw [Nat.zero_add] at hn
      rcases List.mem_cons.1 hn with rfl | hn
      · exact .extensionRecord hl hs
      · rcases mem_nodesBelow_link.1 hn with hn | hn
        · obtain ⟨q, hpath, hfollow⟩ := follow_of_mem_nodes hn
          rw [hpath]
          exact .distantSubtable hl hs hfollow
        · cases hn
    · cases hn

/-- The node of the lookup list. -/
def lookupListNode (h : LayoutHeader) : Node := ⟨[2], none, lookupListTable h.lookupTables⟩

/-- The tables below the header are those of its three lists. -/
theorem nodesBelow_table (h : LayoutHeader) : h.table.nodesBelow [] none 0 =
    (⟨[0], none, scriptListTable h.scripts⟩ : Node).nodes ++
      ((⟨[1], none, featureListTable h.features⟩ : Node).nodes ++ h.lookupListNode.nodes) := by
  change _ :: (_ ++ _ :: (_ ++ _ :: (_ ++ []))) = _
  rw [List.append_nil]
  rfl

/-- Where the tables of a layout table stand, and who owns them. Those of lookups are below the
lookup list. -/
theorem owner_of_mem_nodes (h : LayoutHeader) {n : Node} (hn : n ∈ h.table.root.nodes) :
    (h.InLists n.path n.table ∧ n.owner = none) ∨
      ∃ i, h.InLookup i n.path n.table ∧ n.owner = some (lookupNumber i) ∧
        n ∈ h.lookupListNode.table.nodesBelow [2] none 0 := by
  rcases List.mem_cons.1 hn with rfl | hn
  · exact .inl ⟨.header, rfl⟩
  change n ∈ h.table.nodesBelow [] none 0 at hn
  rw [nodesBelow_table, List.mem_append, List.mem_append] at hn
  rcases hn with hn | hn | hn
  · obtain ⟨q, hpath, hfollow⟩ := follow_of_mem_nodes hn
    have howner := (allNear_scriptListTable h.scripts).unnamed.owner_of_mem_nodes hn
    exact .inl ⟨hpath ▸ .scripts hfollow, howner⟩
  · obtain ⟨q, hpath, hfollow⟩ := follow_of_mem_nodes hn
    have howner := (allNear_featureListTable h.features).unnamed.owner_of_mem_nodes hn
    exact .inl ⟨hpath ▸ .features hfollow, howner⟩
  · rcases List.mem_cons.1 hn with rfl | hn
    · exact .inl ⟨.lookupList, rfl⟩
    have hlinks : n ∈ (lookupLinks 0 h.lookupTables).nodesBelow [2] none 0 := hn
    obtain ⟨i, t, ht, hmem⟩ := mem_nodesBelow_lookupLinks hlinks
    rw [lookupTables, List.getElem?_map, Option.map_eq_some_iff] at ht
    obtain ⟨⟨type, l⟩, hl, rfl⟩ := ht
    rw [Nat.zero_add] at hmem
    have hunnamed := unnamed_recordTable type (h.unnamed _ (List.mem_of_getElem? hl))
    exact .inr ⟨i, inLookup_of_mem_nodes hl hmem, hunnamed.owner_of_mem_nodes hmem, hn⟩

theorem ownersBelow_lookupLinks {tables : List Table} (htables : ∀ t ∈ tables, t.Unnamed)
    (current : Option Nat) (k : Nat) :
    ((lookupLinks k tables).ownersBelow current).1 =
      ((lookupLinks k tables).nodesBelow path none k).map Node.owner := by
  induction tables generalizing current k with
  | nil => rfl
  | cons t tables ih =>
    rw [List.forall_mem_cons] at htables
    have hset (o : Option Nat) : (lookupLink k).ownerBelow o = some (lookupNumber k) := rfl
    rw [lookupLinks_cons, Table.ownersBelow, nodesBelow, hset, hset,
      htables.1.ownersBelow_eq (path ++ [k]) _ 0]
    dsimp only
    rw [ih htables.2, List.map_cons, List.map_append, List.cons_append]

/-- The owners of all tables of a layout table, in the order in which they are begun, are those
that a single variable gives: each lookup sets it, and behind the last lookup nothing is begun. -/
theorem ownersBelow_table (h : LayoutHeader) :
    (h.table.ownersBelow none).1 = (h.table.nodesBelow [] none 0).map Node.owner := by
  have hscripts := (allNear_scriptListTable h.scripts).unnamed.ownersBelow_eq [0] none 0
  have hfeatures := (allNear_featureListTable h.features).unnamed.ownersBelow_eq [1] none 0
  have htables : ∀ t ∈ h.lookupTables, t.Unnamed :=
    List.forall_mem_map.2 fun l hl => unnamed_recordTable l.1 (h.unnamed l hl)
  have hlookups : ((lookupListTable h.lookupTables).ownersBelow none).1 =
      ((lookupListTable h.lookupTables).nodesBelow [2] none 0).map Node.owner :=
    ownersBelow_lookupLinks htables none 0
  rw [nodesBelow_table]
  simp only [table, layoutTable, words, Table.ownersBelow, Link.near, Link.ownerBelow,
    Option.none_or, hscripts, hfeatures, hlookups, Node.nodes, lookupListNode, List.map_cons,
    List.map_append, List.cons_append, List.append_nil]

/-! ## Overflows -/

/-- If an offset inside a lookup is the first that does not fit, all lookups have numbers of their
own: the offsets of the lookup list fit, and it is itself in front of the lookups. -/
theorem length_lt_of_firstMisfit {n : Node} {f : OffsetField} (hfirst : h.table.FirstMisfit n f)
    (hn : n ∈ h.lookupListNode.table.nodesBelow [2] none 0) : h.lookups.length < 0x10000 := by
  obtain ⟨before, after, -, -, horder, -, hbefore, -, -⟩ := hfirst
  have hplaced : h.lookupListNode ∈ h.table.placementOrder := by
    apply h.table.perm_placementOrder.mem_iff.2
    change _ ∈ h.table.root :: h.table.nodesBelow [] none 0
    rw [nodesBelow_table]
    simp [Node.nodes]
  have hfits := hbefore _ (placed_before_below hplaced hn horder)
  have hlength : h.lookupTables.length = h.lookups.length := List.length_map _
  cases htables : h.lookupTables with
  | nil =>
    rw [htables, List.length_nil] at hlength
    omega
  | cons t tables =>
    have hsize := size_lookupListTable h.lookupTables
    have hchild : (⟨[2, 0], some (lookupNumber 0), t⟩ : Node) ∈ h.lookupListNode.children := by
      rw [lookupListNode, htables]
      exact List.mem_cons_self
    have hstart : h.table.start [2] + (lookupListTable h.lookupTables).size ≤
        h.table.start [2, 0] := h.table.start_child hplaced hchild
    have hfield : h.table.start [2, 0] - h.table.start [2] ≤ 0xFFFF := by
      rw [lookupListNode, htables] at hfits
      exact hfits _ List.mem_cons_self
    omega

/-- An overflow is that of the first offset that does not fit. Its lookup is none if the offset is
in front of the lookups, and otherwise that of the lookup that the offset is in. -/
theorem misfit_of_encode (h : LayoutHeader) {overflow : Overflow}
    (hencode : h.table.encode = .error overflow) :
    ∃ n f, h.table.FirstMisfit n f ∧ overflow.target = f.target ∧ overflow.value = f.value ∧
      ((h.InLists n.path n.table ∧ overflow.lookup = none) ∨
        ∃ i, h.InLookup i n.path n.table ∧ overflow.lookup = some i) := by
  obtain ⟨n, f, hfirst, rfl⟩ := exists_firstMisfit hencode
  have hplaced : n ∈ h.table.placementOrder := by
    obtain ⟨before, after, -, -, horder, -⟩ := hfirst
    rw [horder]
    exact List.mem_append_right _ List.mem_cons_self
  have hmem : n ∈ h.table.root.nodes := h.table.perm_placementOrder.mem_iff.1 hplaced
  refine ⟨n, f, hfirst, rfl, rfl, (h.owner_of_mem_nodes hmem).imp_right ?_⟩
  rintro ⟨i, hlookup, howner, hbelow⟩
  have hlength := length_lt_of_firstMisfit hfirst hbelow
  have hlt := hlookup.lt
  rw [lookupNumber_of_lt (by omega)] at howner
  exact ⟨i, hlookup, howner⟩

/-- **Attribution of overflows.** If a layout table cannot be written, the overflow is that of the
first offset that does not fit. It names the `i`-th lookup exactly if the offset is in the table of
that lookup, in one of its extension records, in one of its subtables or in a table below these; it
names none exactly if the offset is in front of the lookups. A lookup that is named is there. -/
theorem lookup_of_encode (h : LayoutHeader) {overflow : Overflow}
    (hencode : h.table.encode = .error overflow) :
    ∃ n f, h.table.FirstMisfit n f ∧ overflow.target = f.target ∧ overflow.value = f.value ∧
      (∀ i, overflow.lookup = some i ↔ h.InLookup i n.path n.table) ∧
      (overflow.lookup = none ↔ h.InLists n.path n.table) ∧
      ∀ i, overflow.lookup = some i → i < h.lookups.length := by
  obtain ⟨n, f, hfirst, htarget, hvalue, hat⟩ := h.misfit_of_encode hencode
  refine ⟨n, f, hfirst, htarget, hvalue, ?_⟩
  rcases hat with ⟨hlists, hnone⟩ | ⟨i, hlookup, hi⟩
  · rw [hnone]
    refine ⟨fun i => ⟨?_, ?_⟩, ⟨fun _ => hlists, fun _ => rfl⟩, ?_⟩
    · intro hi
      cases hi
    · intro hi
      exact absurd hlists hi.not_inLists
    · intro i hi
      cases hi
  · rw [hi]
    refine ⟨fun j => ⟨?_, ?_⟩, ⟨?_, ?_⟩, ?_⟩
    · intro hj
      cases hj
      exact hlookup
    · intro hj
      rw [hlookup.unique hj]
    · intro hnone
      cases hnone
    · intro hlists
      exact absurd hlists hlookup.not_inLists
    · intro j hj
      cases hj
      exact hlookup.lt

/-- Two lookups. The first has an extension record; the second has so many bytes of subtables that
the offset to the last one does not fit. -/
def crowdedLookup : LayoutHeader where
  scripts := []
  features := []
  lookups :=
    let subtable : Table := .bytes ⟨Array.replicate 4096 0⟩ .done
    [(some 7, ⟨1, 0, none, [subtable]⟩), (none, ⟨1, 0, none, List.replicate 17 subtable⟩)]
  unnamed := by simp [Unnamed]

theorem lookup_of_encode_crowdedLookup :
    crowdedLookup.table.encode = .error ⟨some 1, .subtable, 65576⟩ ∧
      ∃ n f, crowdedLookup.table.FirstMisfit n f ∧ f.value = 65576 ∧
        crowdedLookup.InLookup 1 n.path n.table := by
  have hencode : crowdedLookup.table.encode = .error ⟨some 1, .subtable, 65576⟩ :=
    encode_eq_error_iff.2 (by decide +kernel)
  obtain ⟨n, f, hfirst, -, hvalue, hlookup, -⟩ := lookup_of_encode crowdedLookup hencode
  exact ⟨hencode, n, f, hfirst, hvalue.symm, (hlookup 1).1 rfl⟩

end LayoutHeader

/-! ## Layouts of attempts -/

namespace TableInput

/-- What is written at one layout of a table. -/
def header (t : TableInput) (o : Options) (scripts : ScriptList) (features : FeatureList)
    (as : List Attempt) (hnear : ∀ a ∈ as, ∀ s ∈ a.subtables, s.AllNear) : LayoutHeader where
  scripts := scripts
  features := features
  lookups := as.map fun a => (t.extensionType? o, a.record)
  unnamed := List.forall_mem_map.2 fun a ha s hs => (hnear a ha s hs).unnamed

theorem table_header (t : TableInput) (o : Options) (scripts : ScriptList)
    (features : FeatureList) (as : List Attempt)
    (hnear : ∀ a ∈ as, ∀ s ∈ a.subtables, s.AllNear) :
    (t.header o scripts features as hnear).table = t.layout o scripts features as := by
  rw [LayoutHeader.table, LayoutHeader.lookupTables, header, List.map_map]
  rfl

/-- The lookup that a layout is split for is that of an attempt, and the first offset that does not
fit is in it. -/
theorem exists_misfit_of_layout {t : TableInput} {o : Options} {scripts : ScriptList}
    {features : FeatureList} {as : List Attempt}
    (hnear : ∀ a ∈ as, ∀ s ∈ a.subtables, s.AllNear) {overflow : Overflow}
    (hencode : (t.layout o scripts features as).encode = .error overflow) {i : Nat}
    (hi : overflow.lookup = some i) :
    ∃ a n f, as[i]? = some a ∧ (t.layout o scripts features as).FirstMisfit n f ∧
      (t.header o scripts features as hnear).InLookup i n.path n.table := by
  rw [← table_header t o scripts features as hnear] at hencode ⊢
  obtain ⟨n, f, hfirst, -, -, ⟨-, hnone⟩ | ⟨j, hlookup, hj⟩⟩ :=
    LayoutHeader.misfit_of_encode _ hencode
  · rw [hnone] at hi
    cases hi
  · rw [hj] at hi
    cases hi
    have hlt := hlookup.lt
    rw [header, List.length_map] at hlt
    exact ⟨as[i], n, f, List.getElem?_eq_getElem hlt, hfirst, hlookup⟩

end TableInput
end FontLayout
