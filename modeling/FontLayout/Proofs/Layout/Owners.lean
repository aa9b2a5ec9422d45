import FontLayout.Layout.Assembly
import FontLayout.Proofs.Counts.Layout
import FontLayout.Proofs.Placement.Alone
/-!
# Owners of offsets in a layout table

The lists of a layout table belong to no lookup. A lookup and its extension records belong to it,
and all their offsets lead to its subtables; the subtables, which wait until the lists are written,
belong to it as well. So an offset that does not fit and belongs to a lookup, but does not lead
to a subtable, is inside a subtable; and the offsets inside subtables are the same whether or not
there are extension records.

Results:
* `deferred_layoutTable`: the tables that a layout table defers are the subtables of its lookups.
* `nearFields_layoutTable`: what the offsets in front of the subtables belong to.
* `TableInput.of_overflow?_layout`: what an overflow that belongs to a lookup says.
-/
namespace FontLayout

namespace Table

/-! ## Deferred tables -/

section
variable {owner : Option Nat} {l : Link} {child rest : Table} {children : List Table}

theorem deferred_eq (t : Table) (path : List Nat) (owner : Option Nat) (k : Nat) :
    t.deferred owner = (t.deferredBelow path owner k).map Node.entry := by
  rw [deferred, deferredOnto_eq _ path owner k, List.append_nil, List.reverse_reverse]

theorem AllNear.deferred_eq {t : Table} (h : t.AllNear) (owner : Option Nat) :
    t.deferred owner = [] := by
  rw [Table.deferred_eq t [] owner 0, h.deferredBelow_eq, List.map_nil]

theorem deferred_done : Table.done.deferred owner = [] := rfl

theorem deferred_bytes (bs : ByteArray) :
    (Table.bytes bs rest).deferred owner = rest.deferred owner := rfl

theorem deferred_link (hl : l.placement = .near) : (Table.link l child rest).deferred owner =
    child.deferred (l.ownerBelow owner) ++ rest.deferred owner := by
  rw [deferred_eq _ [] owner 0, deferred_eq child ([] ++ [0]) _ 0,
    deferred_eq rest [] owner (0 + 1), deferredBelow, hl, List.map_append]

theorem deferred_link_deferred (hl : l.placement = .deferred) :
    (Table.link l child rest).deferred owner =
      (l.ownerBelow owner, child) :: rest.deferred owner := by
  rw [deferred_eq _ [] owner 0, deferred_eq rest [] owner (0 + 1), deferredBelow, hl, List.map_cons,
    Node.entry]

theorem deferred_links (hl : l.placement = .near) : (links l children rest).deferred owner =
    children.flatMap (deferred (l.ownerBelow owner)) ++ rest.deferred owner := by
  induction children with
  | nil => rfl
  | cons child children ih =>
    rw [links, List.foldr_cons, deferred_link hl, ← links, ih, List.flatMap_cons,
      List.append_assoc]

theorem deferred_links_deferred (hl : l.placement = .deferred) :
    (links l children rest).deferred owner =
      children.map (l.ownerBelow owner, ·) ++ rest.deferred owner := by
  induction children with
  | nil => rfl
  | cons child children ih =>
    rw [links, List.foldr_cons, deferred_link_deferred hl, ← links, ih, List.map_cons,
      List.cons_append]

end

/-! ## Links of a near part -/

/-- Whether all links of a table that a lookup owns, and those of the tables near to it, are as
`P` says of their owners and targets. -/
def NearLinks (P : Option Nat → Target → Prop) (owner : Option Nat) : Table → Prop
  | .done => True
  | .bytes _ rest | .count _ rest | .null _ rest => NearLinks P owner rest
  | .link l child rest =>
    P owner l.target ∧ (l.placement = .near → NearLinks P (l.ownerBelow owner) child) ∧
      NearLinks P owner rest

section
variable {P : Option Nat → Target → Prop} {owner : Option Nat} {t child rest : Table} {l : Link}
  {children : List Table} {start : List Nat → Nat} {path : List Nat} {k : Nat}

theorem NearLinks.fields (h : t.NearLinks P owner) {f : OffsetField}
    (hf : f ∈ t.fields start path owner k) : P f.owner f.target := by
  induction t generalizing k with
  | done => cases hf
  | bytes _ rest ih | count _ rest ih | null _ rest ih => exact ih h hf
  | link l child rest _ ih =>
    rcases List.mem_cons.1 hf with rfl | hf
    · exact h.1
    · exact ih h.2.2 hf

theorem NearLinks.of_mem_nearBelow (h : t.NearLinks P owner) {n : Node}
    (hn : n ∈ t.nearBelow path owner k) : n.table.NearLinks P n.owner := by
  induction t generalizing path owner k with
  | done => cases hn
  | bytes _ rest ih | count _ rest ih | null _ rest ih => exact ih h hn
  | link l child rest ihc ih =>
    obtain ⟨-, hchild, hrest⟩ := h
    rw [nearBelow] at hn
    cases hl : l.placement with
    | near =>
      rw [hl] at hn
      rcases List.mem_cons.1 hn with rfl | hn
      · exact hchild hl
      · exact (List.mem_append.1 hn).elim (ihc (hchild hl)) (ih hrest)
    | deferred =>
      rw [hl] at hn
      exact ih hrest hn

/-- What holds of all links of the root and of what is near to it holds of their fields. -/
theorem NearLinks.nearFields (h : t.NearLinks P none) : ∀ f ∈ t.nearFields, P f.owner f.target := by
  intro f hf
  obtain ⟨n, hn, hf⟩ := List.mem_flatMap.1 hf
  rcases List.mem_cons.1 hn with rfl | hn
  · exact h.fields hf
  · exact (h.of_mem_nearBelow hn).fields hf

theorem AllNear.nearLinks (h : t.AllNear) (hP : ∀ target, P owner target) :
    t.NearLinks P owner := by
  induction t generalizing owner with
  | done => exact trivial
  | bytes _ rest ih | count _ rest ih | null _ rest ih => exact ih h hP
  | link l child rest ihc ih =>
    obtain ⟨-, hlookup, hc, hr⟩ := h
    refine ⟨hP _, fun _ => ihc hc ?_, ih hr hP⟩
    rwa [Link.ownerBelow, hlookup]

theorem NearLinks.links (hP : P owner l.target)
    (hchildren : l.placement = .near → ∀ c ∈ children, c.NearLinks P (l.ownerBelow owner))
    (h : rest.NearLinks P owner) : (links l children rest).NearLinks P owner := by
  induction children with
  | nil => exact h
  | cons child children ih =>
    exact ⟨hP, fun hl => hchildren hl child List.mem_cons_self,
      ih fun hl c hc => hchildren hl c (List.mem_cons_of_mem _ hc)⟩

end

end Table

open Table

/-! ## Lookups -/

/-- The subtables of lookups, each with the number of its lookup. -/
def ownedSubtables (records : List LookupRecord) : List (Option Nat × Table) :=
  records.zipIdx.flatMap fun r => r.1.subtables.map (some (lookupNumber r.2), ·)

theorem mem_ownedSubtables {records : List LookupRecord} {r : LookupRecord} (hr : r ∈ records)
    {s : Table} (hs : s ∈ r.subtables) : ∃ i, (some i, s) ∈ ownedSubtables records := by
  obtain ⟨i, hi, rfl⟩ := List.mem_iff_getElem.1 hr
  exact ⟨lookupNumber i, List.mem_flatMap.2 ⟨(records[i], i),
    List.mem_zipIdx_iff_getElem?.2 (List.getElem?_eq_getElem hi), List.mem_map_of_mem hs⟩⟩

theorem allNear_ownedSubtables {records : List LookupRecord}
    (hnear : ∀ r ∈ records, ∀ s ∈ r.subtables, s.AllNear) :
    ∀ d ∈ ownedSubtables records, d.2.AllNear := by
  intro d hd
  obtain ⟨p, hp, hd⟩ := List.mem_flatMap.1 hd
  obtain ⟨s, hs, rfl⟩ := List.mem_map.1 hd
  exact hnear p.1 (List.fst_mem_of_mem_zipIdx hp) s hs

theorem LookupRecord.deferred_table (r : LookupRecord) (extension : Option UInt16)
    (owner : Option Nat) : (r.table extension).deferred owner = r.subtables.map (owner, ·) := by
  have howner : deferredSubtable.ownerBelow owner = owner := rfl
  cases extension with
  | none =>
    refine (deferred_links_deferred (l := deferredSubtable) rfl).trans ?_
    rw [howner]
    exact List.append_nil _
  | some type =>
    refine (deferred_links (l := .near .subtable) rfl).trans ?_
    rw [List.flatMap_map]
    refine (List.append_nil _).trans ?_
    have hone (s : Table) : (extensionTable r.lookupType s).deferred owner = [(owner, s)] :=
      deferred_link_deferred (l := distantSubtable) rfl
    exact (List.flatMap_congr fun s _ => hone s).trans List.map_eq_flatMap.symm

/-- The tables that a layout table defers are the subtables of its lookups. -/
theorem deferred_layoutTable (scripts : ScriptList) (features : FeatureList)
    (extension : Option UInt16) (records : List LookupRecord) :
    (layoutTable scripts features (records.map (LookupRecord.table extension))).deferred none =
      ownedSubtables records := by
  have hlookups (k : Nat) :
      (lookupLinks k (records.map (LookupRecord.table extension))).deferred none =
        (records.zipIdx k).flatMap fun r => r.1.subtables.map (some (lookupNumber r.2), ·) := by
    induction records generalizing k with
    | nil => rfl
    | cons r records ih =>
      rw [List.map_cons, lookupLinks_cons, deferred_link rfl, r.deferred_table, ih,
        List.zipIdx_cons, List.flatMap_cons]
      rfl
  have hlist : (lookupListTable (records.map (LookupRecord.table extension))).deferred none =
      ownedSubtables records := hlookups 0
  rw [layoutTable, words, deferred_bytes, deferred_link rfl, deferred_link rfl, deferred_link rfl,
    (allNear_scriptListTable scripts).deferred_eq, (allNear_featureListTable features).deferred_eq,
    deferred_done, List.append_nil, List.nil_append, List.nil_append]
  exact hlist

/-- The offsets in front of the subtables either belong to no lookup, or they belong to one of
the lookups and lead to a subtable of it. -/
theorem nearFields_layoutTable (scripts : ScriptList) (features : FeatureList)
    (extension : Option UInt16) (records : List LookupRecord) :
    ∀ f ∈ (layoutTable scripts features
        (records.map (LookupRecord.table extension))).nearFields,
      ∀ i, f.owner = some i → i < records.length ∧ f.target = .subtable := by
  let P (owner : Option Nat) (target : Target) : Prop :=
    ∀ i, owner = some i → i < records.length ∧ target = .subtable
  have hnone (target : Target) : P none target := fun i hi => by cases hi
  have hrecord (r : LookupRecord) {i : Nat} (hi : i < records.length) :
      (r.table extension).NearLinks P (some i) := by
    have hsubtable : P (some i) .subtable := fun j hj => ⟨Option.some.inj hj ▸ hi, rfl⟩
    cases extension with
    | none => exact NearLinks.links hsubtable (fun hl => by cases hl) trivial
    | some type =>
      refine NearLinks.links hsubtable (fun _ => ?_) trivial
      exact List.forall_mem_map.2 fun s _ => ⟨hsubtable, (fun hl => by cases hl), trivial⟩
  have hlookups : ∀ (rs : List LookupRecord) (k : Nat), k + rs.length ≤ records.length →
      (lookupLinks k (rs.map (LookupRecord.table extension))).NearLinks P none := by
    intro rs
    induction rs with
    | nil => exact fun _ _ => trivial
    | cons r rs ih =>
      intro k hk
      rw [List.length_cons] at hk
      have hnumber : lookupNumber k < records.length :=
        Nat.lt_of_le_of_lt (lookupNumber_le k) (by omega)
      exact ⟨hnone _, fun _ => hrecord r hnumber, ih (k + 1) (by omega)⟩
  refine NearLinks.nearFields (P := P) ⟨hnone _, fun _ => ?_, hnone _, fun _ => ?_, hnone _,
    fun _ => ?_, trivial⟩
  · exact (allNear_scriptListTable scripts).nearLinks hnone
  · exact (allNear_featureListTable features).nearLinks hnone
  · exact hlookups records 0 (by omega)

/-! ## Layouts of attempts -/

/-- The lookup of an attempt as the font holds it. -/
def Attempt.record (a : Attempt) : LookupRecord := a.lookup.record a.subtables

/-- The offset fields inside the subtables of attempts, as they are in each subtable on its own. -/
def innerFields (as : List Attempt) : List OffsetField :=
  (ownedSubtables (as.map Attempt.record)).flatMap fun d =>
    d.2.offsetFields.map (OffsetField.ownedBy d.1)

theorem owner_of_mem_innerFields {as : List Attempt} {f : OffsetField} (hf : f ∈ innerFields as) :
    ∃ i < as.length, f.owner = some i := by
  obtain ⟨d, hd, hf⟩ := List.mem_flatMap.1 hf
  obtain ⟨r, hr, hd⟩ := List.mem_flatMap.1 hd
  obtain ⟨s, -, rfl⟩ := List.mem_map.1 hd
  obtain ⟨g, -, rfl⟩ := List.mem_map.1 hf
  have hlt := List.snd_lt_of_mem_zipIdx hr
  rw [List.length_map] at hlt
  exact ⟨lookupNumber r.2, Nat.lt_of_le_of_lt (lookupNumber_le _) hlt, rfl⟩

theorem OffsetField.of_overflow?_eq_some {f : OffsetField} {overflow : Overflow}
    (h : f.overflow? = some overflow) : overflow = ⟨f.owner, f.target, f.value⟩ := by
  unfold OffsetField.overflow? at h
  split at h
  · exact (Option.some.inj h).symm
  · cases h

namespace TableInput
variable {t : TableInput} {o : Options} {scripts : ScriptList} {features : FeatureList}
  {as : List Attempt} {overflow : Overflow}

/-- The type of extension records, if the options ask for them. -/
def extensionType? (t : TableInput) (o : Options) : Option UInt16 :=
  if o.extension then some t.purpose.extensionType else none

theorem layout_eq : t.layout o scripts features as = layoutTable scripts features
    ((as.map Attempt.record).map (LookupRecord.table (t.extensionType? o))) := by
  rw [List.map_map]
  rfl

/-- Whether the offsets in front of the subtables fit. -/
def ListsFit (t : TableInput) (o : Options) (scripts : ScriptList) (features : FeatureList)
    (as : List Attempt) : Prop :=
  ∀ f ∈ (t.layout o scripts features as).nearFields, f.value ≤ f.width.limit

section
variable (hnear : ∀ a ∈ as, ∀ s ∈ a.subtables, s.AllNear)
include hnear

/-- The offsets of a layout are those in front of the subtables, then those inside of them. -/
theorem offsetFields_layout : (t.layout o scripts features as).offsetFields =
    (t.layout o scripts features as).nearFields ++ innerFields as := by
  have hdeferred : (t.layout o scripts features as).deferred none =
      ownedSubtables (as.map Attempt.record) := by
    rw [layout_eq, deferred_layoutTable]
  rw [offsetFields_eq, deferredFields, hdeferred, innerFields]
  rw [hdeferred]
  exact allNear_ownedSubtables (List.forall_mem_map.2 hnear)

/-- An overflow that belongs to a lookup belongs to one that there is. If it does not lead to a
subtable, it is inside of one, and nothing in front of the subtables overflows. -/
theorem of_overflow?_layout (h : (t.layout o scripts features as).overflow? = some overflow)
    {i : Nat} (hi : overflow.lookup = some i) : i < as.length ∧
      (overflow.target ≠ .subtable → t.ListsFit o scripts features as) := by
  rw [overflow?_eq, offsetFields_layout hnear, List.findSome?_append, Option.or_eq_some_iff] at h
  rcases h with h | ⟨hnone, h⟩
  · obtain ⟨f, hf, he⟩ := List.exists_of_findSome?_eq_some h
    have hover := OffsetField.of_overflow?_eq_some he
    rw [layout_eq] at hf
    have hlookup := nearFields_layoutTable scripts features _ _ f hf i (by rw [← hi, hover])
    rw [List.length_map] at hlookup
    refine ⟨hlookup.1, fun htarget => absurd ?_ htarget⟩
    rw [hover, hlookup.2]
  · obtain ⟨f, hf, he⟩ := List.exists_of_findSome?_eq_some h
    obtain ⟨j, hj, howner⟩ := owner_of_mem_innerFields hf
    refine ⟨?_, fun _ f hf => ?_⟩
    · rw [OffsetField.of_overflow?_eq_some he] at hi
      have hij : some j = some i := howner.symm.trans hi
      exact Option.some.inj hij ▸ hj
    · exact OffsetField.overflow?_eq_none_iff.1 (List.findSome?_eq_none_iff.1 hnone f hf)

end

end TableInput
end FontLayout
