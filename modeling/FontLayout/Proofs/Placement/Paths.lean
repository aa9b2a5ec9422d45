import FontLayout.Proofs.Placement.Near
/-!
# The ways to the tables of a tree

The table at the end of a way is found by taking one link after another, and its node knows that
way. A node is placed before everything below it, so when an offset is the first that does not
fit, those of all tables on the way to it fit.

The owner of a table is kept in a single variable when tables are written: a link that leads into
a lookup sets it, each table takes what it finds there, and nothing sets it back. Below a table
none of whose links leads into a lookup, the variable stays as it is.

Results:
* `Table.follow_of_mem_nodesBelow`: where the node of a table stands.
* `Table.placed_before_below`: a table is placed before all tables below it.
* `Table.exists_firstMisfit`: what an overflow says of the offset that it is reported for.
* `Table.Unnamed.ownersBelow_eq`: the owners that the variable gives.
-/
namespace FontLayout

namespace Table

/-! ## Following links -/

/-- The table behind the `k`-th link of a table. -/
def child? : Table → Nat → Option Table
  | .done, _ => none
  | .bytes _ rest, k | .count _ rest, k | .null _ rest, k => child? rest k
  | .link _ child _, 0 => some child
  | .link _ _ rest, k + 1 => child? rest k

/-- The table that the links with these numbers lead to, one after another. -/
def follow (t : Table) : List Nat → Option Table
  | [] => some t
  | k :: path => (t.child? k).bind fun child => child.follow path

section
variable {t child rest : Table} {l : Link} {children : List Table} {path : List Nat}
  {owner : Option Nat} {k : Nat} {n : Node}

theorem mem_nodesBelow_link : n ∈ (Table.link l child rest).nodesBelow path owner k ↔
    n ∈ (⟨path ++ [k], l.ownerBelow owner, child⟩ : Node).nodes ∨
      n ∈ rest.nodesBelow path owner (k + 1) := by
  simp only [nodesBelow, Node.nodes, List.mem_cons, List.mem_append, or_assoc]

theorem mem_nodesBelow_links (h : n ∈ (links l children rest).nodesBelow path owner k) :
    (∃ j child, children[j]? = some child ∧
      n ∈ (⟨path ++ [k + j], l.ownerBelow owner, child⟩ : Node).nodes) ∨
      n ∈ rest.nodesBelow path owner (k + children.length) := by
  induction children generalizing k with
  | nil => exact .inr h
  | cons child children ih =>
    rcases mem_nodesBelow_link.1 h with h | h
    · exact .inl ⟨0, child, rfl, h⟩
    · rw [List.length_cons, Nat.add_comm children.length, ← Nat.add_assoc]
      refine (ih h).imp_left ?_
      rintro ⟨j, c, hj, hn⟩
      exact ⟨j + 1, c, hj, by rwa [Nat.add_comm j, ← Nat.add_assoc]⟩

/-- A node below a table stands where the links on the way to it lead. -/
theorem follow_of_mem_nodesBelow (h : n ∈ t.nodesBelow path owner k) :
    ∃ j q, n.path = path ++ (k + j) :: q ∧ t.follow (j :: q) = some n.table := by
  induction t generalizing path owner k with
  | done => cases h
  | bytes _ rest ih | count _ rest ih | null _ rest ih => exact ih h
  | link l child rest ihc ih =>
    rcases mem_nodesBelow_link.1 h with h | h
    · rcases List.mem_cons.1 h with rfl | h
      · exact ⟨0, [], rfl, rfl⟩
      · obtain ⟨j, q, hpath, hfollow⟩ := ihc h
        refine ⟨0, j :: q, ?_, hfollow⟩
        rw [hpath, List.append_assoc, Nat.zero_add]
        rfl
    · obtain ⟨j, q, hpath, hfollow⟩ := ih h
      refine ⟨j + 1, q, ?_, hfollow⟩
      rw [hpath, Nat.add_right_comm, Nat.add_assoc]

theorem follow_of_mem_nodes {m : Node} (h : n ∈ m.nodes) :
    ∃ q, n.path = m.path ++ q ∧ m.table.follow q = some n.table := by
  rcases List.mem_cons.1 h with rfl | h
  · exact ⟨[], by rw [List.append_nil], rfl⟩
  · obtain ⟨j, q, hpath, hfollow⟩ := follow_of_mem_nodesBelow h
    rw [Nat.zero_add] at hpath
    exact ⟨j :: q, hpath, hfollow⟩

end
end Table

/-! ## Ancestors first -/

theorem ChildrenAfter.mem_child {ns : List Node} (h : ChildrenAfter [] ns) {n c : Node}
    (hn : n ∈ ns) (hc : c ∈ n.children) : c ∈ ns := by
  obtain ⟨before, between, after, rfl⟩ := h.split hn hc
  simp

/-- A list in which children follow has all nodes below those it has. -/
theorem ChildrenAfter.mem_below {ns : List Node} (h : ChildrenAfter [] ns) {t : Table}
    {path : List Nat} {owner : Option Nat} {k : Nat} (hc : ∀ c ∈ t.childNodes path owner k, c ∈ ns)
    {n : Node} (hn : n ∈ t.nodesBelow path owner k) : n ∈ ns := by
  induction t generalizing path owner k with
  | done => cases hn
  | bytes _ rest ih | count _ rest ih | null _ rest ih => exact ih hc hn
  | link l child rest ihc ih =>
    rw [Table.childNodes, List.forall_mem_cons] at hc
    rcases Table.mem_nodesBelow_link.1 hn with hn | hn
    · rcases List.mem_cons.1 hn with rfl | hn
      · exact hc.1
      · exact ihc (fun c hchild => h.mem_child hc.1 hchild) hn
    · exact ih hc.2 hn

theorem ChildrenAfter.split_below {ns : List Node} (h : ChildrenAfter [] ns) {m n : Node}
    (hm : m ∈ ns) (hn : n ∈ m.table.nodesBelow m.path m.owner 0) :
    ∃ before between after, ns = before ++ m :: (between ++ n :: after) := by
  induction ns with
  | nil => cases hm
  | cons first ns ih =>
    rcases List.mem_cons.1 hm with rfl | hm
    · have hchildren : ∀ c ∈ m.children, c ∈ ns := by simpa using h.1
      obtain ⟨between, after, rfl⟩ := List.append_of_mem (h.2.mem_below hchildren hn)
      exact ⟨[], between, after, rfl⟩
    · obtain ⟨before, between, after, rfl⟩ := ih h.2 hm
      exact ⟨first :: before, between, after, rfl⟩

namespace Table

/-- A table is placed before all tables below it. -/
theorem placed_before_below {t : Table} {m n : Node} {before after : List Node}
    (hm : m ∈ t.placementOrder) (hn : n ∈ m.table.nodesBelow m.path m.owner 0)
    (h : t.placementOrder = before ++ n :: after) : m ∈ before := by
  obtain ⟨front, between, back, hsplit⟩ := (childrenAfter_drain [t.root]).split_below hm hn
  have hnodup : t.placementOrder.Nodup := List.Nodup.of_map _ t.nodup_placementOrder
  have heq : (front ++ m :: between) ++ n :: back = before ++ n :: after := by
    rw [← h, List.append_assoc]
    exact hsplit.symm
  rw [h, List.nodup_append] at hnodup
  have hbefore : n ∉ before := fun hmem => hnodup.2.2 n hmem n List.mem_cons_self rfl
  have hafter : n ∉ after := (List.nodup_cons.1 hnodup.2.1).1
  obtain ⟨rfl, -⟩ := (List.append_cons_inj_of_notMem hbefore hafter).1 heq.symm
  simp

/-! ## The first field that does not fit -/

/-- Whether `f` is an offset field of the table `n` and does not fit, while those of all tables
placed before do, and those in front of it in the same table. -/
def FirstMisfit (t : Table) (n : Node) (f : OffsetField) : Prop :=
  ∃ before after front back, t.placementOrder = before ++ n :: after ∧
    n.table.fields t.start n.path n.owner 0 = front ++ f :: back ∧
    (∀ m ∈ before, ∀ g ∈ m.table.fields t.start m.path m.owner 0, g.value ≤ g.width.limit) ∧
    (∀ g ∈ front, g.value ≤ g.width.limit) ∧ f.width.limit < f.value

theorem owner_of_mem_fields {t : Table} {start : List Nat → Nat} {path : List Nat}
    {owner : Option Nat} {k : Nat} {f : OffsetField} (h : f ∈ t.fields start path owner k) :
    f.owner = owner := by
  induction t generalizing k with
  | done => cases h
  | bytes _ rest ih | count _ rest ih | null _ rest ih => exact ih h
  | link l child rest _ ih =>
    rcases List.mem_cons.1 h with rfl | h
    · rfl
    · exact ih h

theorem findSome?_offsetFields (t : Table) :
    t.offsetFields.findSome? OffsetField.overflow? = t.placementOrder.findSome? fun n =>
      (n.table.fields t.start n.path n.owner 0).findSome? OffsetField.overflow? := by
  rw [offsetFields]
  induction t.placementOrder with
  | nil => rfl
  | cons n ns ih =>
    rw [List.flatMap_cons, List.findSome?_append, ih, List.findSome?_cons]
    cases (n.table.fields t.start n.path n.owner 0).findSome? OffsetField.overflow? <;> rfl

/-- An overflow is reported for the first field that does not fit: it names the owner of the table
that the field is in, what the field points to, and its distance. -/
theorem exists_firstMisfit {t : Table} {overflow : Overflow} (h : t.encode = .error overflow) :
    ∃ n f, t.FirstMisfit n f ∧ overflow = ⟨n.owner, f.target, f.value⟩ := by
  rw [encode_eq_error_iff, overflow?_eq, findSome?_offsetFields] at h
  obtain ⟨before, n, after, horder, hn, hbefore⟩ := List.findSome?_eq_some_iff.1 h
  obtain ⟨front, f, back, hfields, hf, hfront⟩ := List.findSome?_eq_some_iff.1 hn
  have howner : f.owner = n.owner := by
    apply owner_of_mem_fields (t := n.table) (k := 0)
    rw [hfields]
    exact List.mem_append_right _ List.mem_cons_self
  unfold OffsetField.overflow? at hf
  split at hf
  · next hlt =>
    refine ⟨n, f, ⟨before, after, front, back, horder, hfields, ?_, ?_, hlt⟩, ?_⟩
    · intro m hm g hg
      exact OffsetField.overflow?_eq_none_iff.1 (List.findSome?_eq_none_iff.1 (hbefore m hm) g hg)
    · intro g hg
      exact OffsetField.overflow?_eq_none_iff.1 (hfront g hg)
    · rw [← howner]
      exact (Option.some.inj hf).symm
  · cases hf

/-! ## The owner in a variable -/

/-- The owners of the tables below a table, in the order in which these are begun, if a single
variable holds the owner, which links set and nothing sets back; and what it holds at the end. -/
def ownersBelow (current : Option Nat) : Table → List (Option Nat) × Option Nat
  | .done => ([], current)
  | .bytes _ rest | .count _ rest | .null _ rest => ownersBelow current rest
  | .link l child rest =>
    let begun := l.ownerBelow current
    let below := ownersBelow begun child
    let behind := ownersBelow below.2 rest
    (begun :: below.1 ++ behind.1, behind.2)

/-- Whether no link of a table and of the tables below it leads into a lookup. -/
def Unnamed : Table → Prop
  | .done => True
  | .bytes _ rest | .count _ rest | .null _ rest => Unnamed rest
  | .link l child rest => l.lookup = none ∧ Unnamed child ∧ Unnamed rest

section
variable {t rest : Table} {l : Link} {children : List Table} {path : List Nat}
  {owner : Option Nat} {k : Nat} {n : Node}

theorem AllNear.unnamed (h : t.AllNear) : t.Unnamed := by
  induction t with
  | done => trivial
  | bytes _ rest ih | count _ rest ih | null _ rest ih => exact ih h
  | link l child rest ihc ih =>
    obtain ⟨-, hlookup, hc, hr⟩ := h
    exact ⟨hlookup, ihc hc, ih hr⟩

theorem Unnamed.links (hl : l.lookup = none) (hc : ∀ c ∈ children, c.Unnamed)
    (h : rest.Unnamed) : (Table.links l children rest).Unnamed := by
  induction children with
  | nil => exact h
  | cons child children ih =>
    rw [List.forall_mem_cons] at hc
    exact ⟨hl, hc.1, ih hc.2⟩

theorem Unnamed.owner_of_mem_nodesBelow (h : t.Unnamed) (hn : n ∈ t.nodesBelow path owner k) :
    n.owner = owner := by
  induction t generalizing path owner k with
  | done => cases hn
  | bytes _ rest ih | count _ rest ih | null _ rest ih => exact ih h hn
  | link l child rest ihc ih =>
    obtain ⟨hl, hc, hr⟩ := h
    have howner : l.ownerBelow owner = owner := by rw [Link.ownerBelow, hl, Option.none_or]
    rcases mem_nodesBelow_link.1 hn with hn | hn
    · rw [howner] at hn
      rcases List.mem_cons.1 hn with rfl | hn
      · rfl
      · exact ihc hc hn
    · exact ih hr hn

theorem Unnamed.owner_of_mem_nodes {m : Node} (h : m.table.Unnamed) (hn : n ∈ m.nodes) :
    n.owner = m.owner := by
  rcases List.mem_cons.1 hn with rfl | hn
  · rfl
  · exact h.owner_of_mem_nodesBelow hn

/-- Below such a table the variable stays as it is, so each table takes the owner it should. -/
theorem Unnamed.ownersBelow_eq (h : t.Unnamed) (path : List Nat) (current : Option Nat) (k : Nat) :
    t.ownersBelow current = ((t.nodesBelow path current k).map Node.owner, current) := by
  induction t generalizing path current k with
  | done => rfl
  | bytes _ rest ih | count _ rest ih | null _ rest ih => exact ih h path current k
  | link l child rest ihc ih =>
    obtain ⟨hl, hc, hr⟩ := h
    have howner : l.ownerBelow current = current := by rw [Link.ownerBelow, hl, Option.none_or]
    rw [ownersBelow, howner, ihc hc (path ++ [k]) current 0]
    dsimp only
    rw [ih hr path current (k + 1), nodesBelow, howner, List.map_cons, List.map_append,
      List.cons_append]

end

end Table
end FontLayout
