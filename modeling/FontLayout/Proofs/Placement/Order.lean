import FontLayout.Binary.Placement
import Mathlib.Algebra.Ring.Nat
/-!
# The order of placement

Which table of a tree is written when, said without positions. A node is a table together with
the way to it, so that equal tables at different places of a tree stay apart. The near part of a
node is the node and, link by link, the near parts behind its near links. The tables behind the
deferred links of a near part queue up behind those that wait already, and each that leaves the
queue is written with its own near part.

Results:
* `Table.perm_placementOrder`, `Table.nodup_placementOrder`: each table of a tree is placed
  exactly once.
* `startIn_of_split`: a table starts behind the tables placed before it.
* `Table.start_child`: a table ends before a table that it links to starts.
-/
namespace FontLayout

/-! ## Nodes -/

/-- A table of a tree: the way to it from the root, as the number of the link taken in each table
on the way, the lookup that owns it, and its fields. -/
structure Node where
  path : List Nat
  owner : Option Nat
  table : Table

namespace Table

/-- The number of tables of a tree. -/
def tableCount : Table → Nat
  | .done => 1
  | .bytes _ rest | .count _ rest | .null _ rest => tableCount rest
  | .link _ child rest => tableCount child + tableCount rest

/-- The nodes right behind the links of a table that stands at the end of `path`, where the next
link is the `k`-th one. -/
def childNodes (path : List Nat) (owner : Option Nat) (k : Nat) : Table → List Node
  | .done => []
  | .bytes _ rest | .count _ rest | .null _ rest => childNodes path owner k rest
  | .link l child rest =>
    ⟨path ++ [k], l.ownerBelow owner, child⟩ :: childNodes path owner (k + 1) rest

/-- All nodes below the links of a table. -/
def nodesBelow (path : List Nat) (owner : Option Nat) (k : Nat) : Table → List Node
  | .done => []
  | .bytes _ rest | .count _ rest | .null _ rest => nodesBelow path owner k rest
  | .link l child rest =>
    ⟨path ++ [k], l.ownerBelow owner, child⟩ ::
      (nodesBelow (path ++ [k]) (l.ownerBelow owner) 0 child ++ nodesBelow path owner (k + 1) rest)

/-- The nodes below the near links of a table: each node behind a link, then what is near to it,
then those behind the next links. -/
def nearBelow (path : List Nat) (owner : Option Nat) (k : Nat) : Table → List Node
  | .done => []
  | .bytes _ rest | .count _ rest | .null _ rest => nearBelow path owner k rest
  | .link l child rest =>
    match l.placement with
    | .near =>
      ⟨path ++ [k], l.ownerBelow owner, child⟩ ::
        (nearBelow (path ++ [k]) (l.ownerBelow owner) 0 child ++ nearBelow path owner (k + 1) rest)
    | .deferred => nearBelow path owner (k + 1) rest

/-- The nodes behind the deferred links of a table and of what is near to it. -/
def deferredBelow (path : List Nat) (owner : Option Nat) (k : Nat) : Table → List Node
  | .done => []
  | .bytes _ rest | .count _ rest | .null _ rest => deferredBelow path owner k rest
  | .link l child rest =>
    match l.placement with
    | .near =>
      deferredBelow (path ++ [k]) (l.ownerBelow owner) 0 child
        ++ deferredBelow path owner (k + 1) rest
    | .deferred =>
      ⟨path ++ [k], l.ownerBelow owner, child⟩ :: deferredBelow path owner (k + 1) rest

/-- The root of a tree. -/
def root (t : Table) : Node := ⟨[], none, t⟩

end Table

namespace Node

/-- The nodes right behind the links of a node. -/
def children (n : Node) : List Node := n.table.childNodes n.path n.owner 0

/-- A node and all nodes below it. -/
def nodes (n : Node) : List Node := n :: n.table.nodesBelow n.path n.owner 0

/-- A node and all that is near to it, in the order in which it is written. -/
def nearPart (n : Node) : List Node := n :: n.table.nearBelow n.path n.owner 0

/-- The nodes that the near part of a node defers, in the order of their links. -/
def deferred (n : Node) : List Node := n.table.deferredBelow n.path n.owner 0

/-- The number of tables of the tree below a node, itself included. -/
def weight (n : Node) : Nat := n.table.tableCount

end Node

theorem Table.weight_deferredBelow (t : Table) (path : List Nat) (owner : Option Nat) (k : Nat) :
    ((t.deferredBelow path owner k).map Node.weight).sum < t.tableCount := by
  induction t generalizing path owner k with
  | done => simp [deferredBelow, tableCount]
  | bytes _ rest ih | count _ rest ih | null _ rest ih => exact ih path owner k
  | link l child rest ihc ih =>
    have hr := ih path owner (k + 1)
    simp only [deferredBelow, tableCount]
    cases l.placement with
    | near =>
      have hc := ihc (path ++ [k]) (l.ownerBelow owner) 0
      simp only [List.map_append, List.sum_append]
      omega
    | deferred =>
      simp only [List.map_cons, List.sum_cons, Node.weight] at hr ⊢
      omega

/-! ## The queue -/

/-- The nodes that leave a queue, in order, when each puts the nodes it defers at the end. -/
def drain (queue : List Node) : List Node :=
  match queue with
  | [] => []
  | n :: rest => n :: drain (rest ++ n.deferred)
termination_by (queue.map Node.weight).sum
decreasing_by
  have := n.table.weight_deferredBelow n.path n.owner 0
  simp only [List.map_append, List.sum_append, List.map_cons, List.sum_cons, Node.weight,
    Node.deferred] at this ⊢
  omega

/-- The order in which the tables of a tree are written. -/
def Table.placementOrder (t : Table) : List Node := (drain [t.root]).flatMap Node.nearPart

@[simp] theorem drain_nil : drain [] = [] := by rw [drain]

theorem drain_cons (n : Node) (rest : List Node) :
    drain (n :: rest) = n :: drain (rest ++ n.deferred) := by rw [drain]

/-- What waits in front leaves first; what it defers comes after all that waited. -/
theorem drain_append (front back : List Node) :
    drain (front ++ back) = front ++ drain (back ++ front.flatMap Node.deferred) := by
  induction front generalizing back with
  | nil => simp
  | cons n front ih =>
    rw [List.cons_append, drain_cons, List.append_assoc, ih, List.flatMap_cons, List.cons_append,
      List.append_assoc]

/-- A queue leaves in rounds: first all that wait, then all that these have deferred. -/
theorem drain_round (queue : List Node) :
    drain queue = queue ++ drain (queue.flatMap Node.deferred) := by
  simpa using drain_append queue []

/-- What leaves a queue is the queue, then all that leaving nodes have deferred. -/
theorem drain_eq_append (queue : List Node) :
    drain queue = queue ++ (drain queue).flatMap Node.deferred := by
  induction queue using drain.induct with
  | case1 => simp
  | case2 n rest ih =>
    rw [drain_cons, List.flatMap_cons, List.cons_append, ← List.append_assoc, ← ih]

/-! ## Each table once -/

theorem Table.perm_nodesBelow (t : Table) (path : List Nat) (owner : Option Nat) (k : Nat) :
    (t.nearBelow path owner k ++ (t.deferredBelow path owner k).flatMap Node.nodes).Perm
      (t.nodesBelow path owner k) := by
  induction t generalizing path owner k with
  | done => exact .refl _
  | bytes _ rest ih | count _ rest ih | null _ rest ih => exact ih path owner k
  | link l child rest ihc ih =>
    have hr := ih path owner (k + 1)
    simp only [nearBelow, deferredBelow, nodesBelow]
    cases l.placement with
    | near =>
      have hc := ihc (path ++ [k]) (l.ownerBelow owner) 0
      rw [List.cons_append, List.perm_cons, List.flatMap_append]
      refine .trans ?_ (hc.append hr)
      simp only [List.append_assoc]
      refine .append_left _ ?_
      rw [← List.append_assoc, ← List.append_assoc]
      exact .append_right _ List.perm_append_comm
    | deferred =>
      rw [List.flatMap_cons, Node.nodes, List.cons_append]
      refine List.perm_middle.trans (.cons _ ?_)
      refine .trans ?_ (hr.append_left _)
      rw [← List.append_assoc, ← List.append_assoc]
      exact .append_right _ List.perm_append_comm

theorem Node.perm_nodes (n : Node) :
    (n.nearPart ++ n.deferred.flatMap Node.nodes).Perm n.nodes :=
  .cons _ (n.table.perm_nodesBelow n.path n.owner 0)

theorem perm_drain (queue : List Node) :
    ((drain queue).flatMap Node.nearPart).Perm (queue.flatMap Node.nodes) := by
  induction queue using drain.induct with
  | case1 => simp
  | case2 n rest ih =>
    rw [drain_cons, List.flatMap_cons, List.flatMap_cons]
    refine .trans (ih.append_left _) ?_
    rw [List.flatMap_append]
    refine .trans (.append_left _ List.perm_append_comm) ?_
    rw [← List.append_assoc]
    exact n.perm_nodes.append_right _

/-- Every table of a tree is placed, and none is placed twice. -/
theorem Table.perm_placementOrder (t : Table) : t.placementOrder.Perm t.root.nodes := by
  have := perm_drain [t.root]
  rwa [List.flatMap_singleton] at this

theorem Table.path_of_mem_nodesBelow {t : Table} {path : List Nat} {owner : Option Nat} {k : Nat}
    {n : Node} (h : n ∈ t.nodesBelow path owner k) :
    ∃ j q, k ≤ j ∧ n.path = path ++ j :: q := by
  induction t generalizing path owner k with
  | done => cases h
  | bytes _ rest ih | count _ rest ih | null _ rest ih => exact ih h
  | link l child rest ihc ih =>
    simp only [nodesBelow, List.mem_cons, List.mem_append] at h
    rcases h with rfl | h | h
    · exact ⟨k, [], Nat.le_refl k, rfl⟩
    · obtain ⟨j, q, -, e⟩ := ihc h
      exact ⟨k, j :: q, Nat.le_refl k, by rw [e, List.append_assoc]; rfl⟩
    · obtain ⟨j, q, hj, e⟩ := ih h
      exact ⟨j, q, by omega, e⟩

theorem Table.nodup_nodesBelow (t : Table) (path : List Nat) (owner : Option Nat) (k : Nat) :
    ((t.nodesBelow path owner k).map Node.path).Nodup := by
  induction t generalizing path owner k with
  | done => exact List.nodup_nil
  | bytes _ rest ih | count _ rest ih | null _ rest ih => exact ih path owner k
  | link l child rest ihc ih =>
    simp only [nodesBelow, List.map_cons, List.map_append, List.nodup_cons, List.nodup_append,
      List.mem_append, List.mem_map]
    refine ⟨?_, ihc _ _ _, ih _ _ _, ?_⟩
    · rintro (⟨n, hn, e⟩ | ⟨n, hn, e⟩)
      · obtain ⟨j, q, -, e'⟩ := path_of_mem_nodesBelow hn
        simp [e'] at e
      · obtain ⟨j, q, hj, e'⟩ := path_of_mem_nodesBelow hn
        rw [e', List.append_cancel_left_eq, List.cons.injEq] at e
        omega
    · rintro _ ⟨n, hn, rfl⟩ _ ⟨m, hm, rfl⟩ e
      obtain ⟨i, q, -, e₁⟩ := path_of_mem_nodesBelow hn
      obtain ⟨j, r, hj, e₂⟩ := path_of_mem_nodesBelow hm
      rw [e₁, e₂, List.append_assoc, List.append_cancel_left_eq, List.singleton_append,
        List.cons.injEq] at e
      omega

theorem Table.nodup_placementOrder (t : Table) : (t.placementOrder.map Node.path).Nodup := by
  refine (t.perm_placementOrder.map Node.path).nodup_iff.2 ?_
  refine List.nodup_cons.2 ⟨?_, t.nodup_nodesBelow [] none 0⟩
  intro h
  obtain ⟨n, hn, e⟩ := List.mem_map.1 h
  obtain ⟨j, q, -, e'⟩ := path_of_mem_nodesBelow hn
  rw [e] at e'
  cases e'

/-! ## Parents first -/

/-- Whether the children of each node of a list come after it, in the list or among `later`. -/
def ChildrenAfter (later : List Node) : List Node → Prop
  | [] => True
  | n :: rest => (∀ c ∈ n.children, c ∈ rest ∨ c ∈ later) ∧ ChildrenAfter later rest

theorem ChildrenAfter.append {later ns ms : List Node} (hn : ChildrenAfter (ms ++ later) ns)
    (hm : ChildrenAfter later ms) : ChildrenAfter later (ns ++ ms) := by
  induction ns with
  | nil => exact hm
  | cons n ns ih =>
    refine ⟨fun c hc => ?_, ih hn.2⟩
    rcases hn.1 c hc with h | h
    · exact .inl (List.mem_append_left _ h)
    · exact (List.mem_append.1 h).imp_left (List.mem_append_right _)

theorem ChildrenAfter.mono {later later' ns : List Node} (h : ChildrenAfter later ns)
    (hl : ∀ n ∈ later, n ∈ later') : ChildrenAfter later' ns := by
  induction ns with
  | nil => trivial
  | cons n ns ih => exact ⟨fun c hc => (h.1 c hc).imp_right (hl c), ih h.2⟩

theorem ChildrenAfter.split {ns : List Node} (h : ChildrenAfter [] ns) {n c : Node}
    (hn : n ∈ ns) (hc : c ∈ n.children) :
    ∃ before between after, ns = before ++ n :: (between ++ c :: after) := by
  induction ns with
  | nil => cases hn
  | cons m ns ih =>
    rcases List.mem_cons.1 hn with rfl | hn
    · have hm : c ∈ ns := by simpa using h.1 c hc
      obtain ⟨between, after, rfl⟩ := List.append_of_mem hm
      exact ⟨[], between, after, rfl⟩
    · obtain ⟨before, between, after, rfl⟩ := ih h.2 hn
      exact ⟨m :: before, between, after, rfl⟩

theorem Table.mem_childNodes {t : Table} {path : List Nat} {owner : Option Nat} {k : Nat}
    {c : Node} (h : c ∈ t.childNodes path owner k) :
    c ∈ t.nearBelow path owner k ∨ c ∈ t.deferredBelow path owner k := by
  induction t generalizing k with
  | done => cases h
  | bytes _ rest ih | count _ rest ih | null _ rest ih => exact ih h
  | link l child rest _ ih =>
    simp only [childNodes, List.mem_cons] at h
    simp only [nearBelow, deferredBelow]
    rcases h with rfl | h
    · cases l.placement <;> simp
    · cases l.placement <;> rcases ih h with h | h <;> simp [h]

theorem Table.childrenAfter_nearBelow (t : Table) (path : List Nat) (owner : Option Nat)
    (k : Nat) : ChildrenAfter (t.deferredBelow path owner k) (t.nearBelow path owner k) := by
  induction t generalizing path owner k with
  | done => trivial
  | bytes _ rest ih | count _ rest ih | null _ rest ih => exact ih path owner k
  | link l child rest ihc ih =>
    have hc := ihc (path ++ [k]) (l.ownerBelow owner) 0
    have hr := ih path owner (k + 1)
    simp only [nearBelow, deferredBelow]
    cases l.placement with
    | near =>
      refine ⟨fun c hm => ?_, .append (hc.mono ?_) (hr.mono ?_)⟩
      · rcases mem_childNodes hm with h | h <;> simp [h]
      · intro n hn
        simp [hn]
      · intro n hn
        simp [hn]
    | deferred =>
      refine hr.mono ?_
      intro n hn
      simp [hn]

theorem childrenAfter_drain (queue : List Node) :
    ChildrenAfter [] ((drain queue).flatMap Node.nearPart) := by
  induction queue using drain.induct with
  | case1 => simp [ChildrenAfter]
  | case2 n rest ih =>
    rw [drain_cons, List.flatMap_cons]
    refine .append ?_ ih
    -- what `n` defers is in the queue, so it leaves the queue at the head of a near part
    have hd : ∀ c ∈ n.deferred, c ∈ (drain (rest ++ n.deferred)).flatMap Node.nearPart := by
      intro c hc
      refine List.mem_flatMap.2 ⟨c, ?_, List.mem_cons_self⟩
      rw [drain_eq_append]
      simp [hc]
    refine ⟨fun c hc => ?_, (n.table.childrenAfter_nearBelow n.path n.owner 0).mono ?_⟩
    · rcases Table.mem_childNodes hc with h | h
      · exact .inl h
      · exact .inr (by simpa using hd c h)
    · intro c hc
      simpa using hd c hc

/-! ## Positions -/

/-- The bytes of the fields of a list of tables. -/
def span (ns : List Node) : Nat := (ns.map (·.table.size)).sum

@[simp] theorem span_nil : span [] = 0 := rfl

@[simp] theorem span_cons (n : Node) (ns : List Node) : span (n :: ns) = n.table.size + span ns :=
  rfl

@[simp] theorem span_append (ns ms : List Node) : span (ns ++ ms) = span ns + span ms := by
  simp [span]

/-- Where each of a list of tables starts if they are written one after another from `pos` on. -/
def positions (pos : Nat) : List Node → List Nat
  | [] => []
  | n :: ns => pos :: positions (pos + n.table.size) ns

theorem length_positions (pos : Nat) (ns : List Node) :
    (positions pos ns).length = ns.length := by
  induction ns generalizing pos with
  | nil => rfl
  | cons n ns ih => simp [positions, ih]

theorem positions_append (pos : Nat) (ns ms : List Node) :
    positions pos (ns ++ ms) = positions pos ns ++ positions (pos + span ns) ms := by
  induction ns generalizing pos with
  | nil => simp [positions]
  | cons n ns ih => simp [positions, ih, Nat.add_assoc]

/-- Where the table at the end of a way starts, if tables are written in the given order: behind
all that come before it. -/
def startIn (order : List Node) (path : List Nat) : Nat :=
  span (order.takeWhile (·.path ≠ path))

/-- Where the table at the end of a way starts in a tree. -/
def Table.start (t : Table) : List Nat → Nat := startIn t.placementOrder

theorem startIn_of_split {order before after : List Node} {n : Node}
    (h : (order.map Node.path).Nodup) (e : order = before ++ n :: after) :
    startIn order n.path = span before := by
  subst e
  rw [List.map_append, List.map_cons, List.nodup_append] at h
  rw [startIn, List.takeWhile_append_of_pos, List.takeWhile_cons_of_neg (by simp),
    List.append_nil]
  intro m hm
  have := h.2.2 m.path (List.mem_map_of_mem hm) n.path List.mem_cons_self
  simpa using this

theorem map_startIn {order : List Node} (h : (order.map Node.path).Nodup) :
    order.map (fun n => startIn order n.path) = positions 0 order := by
  suffices ∀ before after, order = before ++ after →
      after.map (fun n => startIn order n.path) = positions (span before) after from
    this [] order rfl
  intro before after e
  induction after generalizing before with
  | nil => rfl
  | cons n after ih =>
    have := ih (before ++ [n]) (by simpa using e)
    rw [List.map_cons, positions, startIn_of_split h e, this]
    simp

/-- A table ends before a table that it links to starts. -/
theorem Table.start_child (t : Table) {n c : Node} (hn : n ∈ t.placementOrder)
    (hc : c ∈ n.children) : t.start n.path + n.table.size ≤ t.start c.path := by
  obtain ⟨before, between, after, e⟩ := (childrenAfter_drain [t.root]).split hn hc
  have hnode : t.start n.path = span before := startIn_of_split t.nodup_placementOrder e
  have e' : t.placementOrder = (before ++ n :: between) ++ c :: after := by
    rw [List.append_assoc]
    exact e
  have hchild : t.start c.path = span (before ++ n :: between) :=
    startIn_of_split t.nodup_placementOrder e'
  rw [hnode, hchild, span_append, span_cons]
  omega

end FontLayout
