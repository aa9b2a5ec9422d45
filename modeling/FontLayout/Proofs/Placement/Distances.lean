import FontLayout.Proofs.Placement.Near
/-!
# Distances that fit

A tree can only be encoded if the distances in it fit their fields, and this says something about
sizes. The tables near to a table follow it one after another, so the distance to each is the size
of the table and the extents of those between. A deferred table comes later still. So a table that
links to another by a short offset is no longer than a word can tell.

Results:
* `Table.fits_of_encode`: what encoding says about the sizes in a tree.
-/
namespace FontLayout

namespace Table

/-- Whether the distances in a table of `size` bytes fit their fields, where the next near table
stands `near` bytes behind its start; and those in the tables below. Of a deferred table, only
that it stands behind the table is asked. -/
def OffsetsFit (size near : Nat) : Table → Prop
  | .done => True
  | .bytes _ rest | .count _ rest | .null _ rest => OffsetsFit size near rest
  | .link l child rest =>
    match l.placement with
    | .near =>
      near ≤ l.width.limit ∧ OffsetsFit child.size child.size child ∧
        OffsetsFit size (near + child.extent) rest
    | .deferred =>
      size ≤ l.width.limit ∧ OffsetsFit child.size child.size child ∧ OffsetsFit size near rest

/-- Whether the distances in a table and in the tables below it fit. -/
def Fits (t : Table) : Prop := OffsetsFit t.size t.size t

/-- The induction is on the fields of a table. Those left have nodes that are placed, the near
ones from a known place on, the deferred ones behind the table. -/
theorem OffsetsFit.of_placed {tree t : Table} {path : List Nat} {owner : Option Nat} {k : Nat}
    (hfits : ∀ n ∈ tree.placementOrder, ∀ f ∈ n.table.fields tree.start n.path n.owner 0,
      f.value ≤ f.width.limit)
    (hplaced : ∀ n ∈ t.nodesBelow path owner k, n ∈ tree.placementOrder)
    (hfields : ∀ f ∈ t.fields tree.start path owner k, f.value ≤ f.width.limit)
    {size near : Nat}
    (hnear : (t.nearBelow path owner k).map (fun n => tree.start n.path) =
      positions (tree.start path + near) (t.nearBelow path owner k))
    (hbehind : ∀ c ∈ t.childNodes path owner k, tree.start path + size ≤ tree.start c.path) :
    OffsetsFit size near t := by
  induction t generalizing path owner k size near with
  | done => exact trivial
  | bytes _ rest ih | count _ rest ih | null _ rest ih =>
    exact ih hplaced hfields hnear hbehind
  | link l child rest ihc ih =>
    rw [nodesBelow, List.forall_mem_cons, List.forall_mem_append] at hplaced
    rw [fields, List.forall_mem_cons] at hfields
    rw [childNodes, List.forall_mem_cons] at hbehind
    obtain ⟨hnode, hchild, hrest⟩ := hplaced
    have hvalue : tree.start (path ++ [k]) - tree.start path ≤ l.width.limit := hfields.1
    -- the child is a node of its own, with its own near part behind it
    have hbelow : OffsetsFit child.size child.size child := by
      have hpart := near_positions hnode
      rw [Node.nearPart, List.map_cons, positions, List.cons.injEq] at hpart
      exact ihc hchild (hfits _ hnode) hpart.2 fun c hc => tree.start_child hnode hc
    have hafter : tree.start path + size ≤ tree.start (path ++ [k]) := hbehind.1
    rw [OffsetsFit]
    cases hl : l.placement with
    | near =>
      have hagrees : Agrees tree.start path owner k (tree.start path + near)
          (((Table.link l child rest).deferredBelow path owner k).map fun n => tree.start n.path)
          (.link l child rest) := ⟨hnear, List.prefix_refl _⟩
      obtain ⟨hstart, -, hnext⟩ := hagrees.near_link hl
      refine ⟨by omega, hbelow, ih hrest hfields.2 ?_ hbehind.2⟩
      rw [← Nat.add_assoc]
      exact hnext.near_eq
    | deferred =>
      refine ⟨by omega, hbelow, ih hrest hfields.2 ?_ hbehind.2⟩
      simpa only [nearBelow, hl] using hnear

/-- The distances in a tree that can be encoded fit. -/
theorem fits_of_encode {t : Table} {out : ByteArray} (h : t.encode = .ok out) : t.Fits := by
  have hfields := (encode_eq_ok_iff.1 h).2
  have hnodes : ∀ n, n ∈ t.placementOrder ↔ n ∈ t.root.nodes :=
    fun n => t.perm_placementOrder.mem_iff
  have hroot : t.root ∈ t.placementOrder := (hnodes _).2 List.mem_cons_self
  have hfits : ∀ n ∈ t.placementOrder, ∀ f ∈ n.table.fields t.start n.path n.owner 0,
      f.value ≤ f.width.limit := fun n hn f hf => hfields f (List.mem_flatMap.2 ⟨n, hn, hf⟩)
  have hpart := near_positions hroot
  rw [Node.nearPart, List.map_cons, positions, List.cons.injEq] at hpart
  exact OffsetsFit.of_placed hfits (fun n hn => (hnodes n).2 (List.mem_cons_of_mem _ hn))
    (hfits _ hroot) hpart.2 fun c hc => t.start_child hroot hc

end Table
end FontLayout
