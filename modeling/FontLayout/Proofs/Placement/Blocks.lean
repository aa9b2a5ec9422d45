import FontLayout.Proofs.Placement.Order
/-!
# Blocks in the order of placement

The placement of a tree works with sizes and counts alone: it never looks a table up. Here its
blocks are shown to be those of the tables in the order of placement, with every offset leading
to the place where the linked table starts. What carries the induction is `Agrees`: the places
at hand, of the next near table and of the waiting ones, are those that the order of placement
gives to the nodes below.

Results:
* `Table.heads_eq`: rounds hand out deferred tables as the queue does.
* `Table.blocks_eq`: the blocks of a tree, one for each placed node.
-/
namespace FontLayout

/-! ## Measures -/

namespace Table

@[simp] theorem size_bytes (bs : ByteArray) (rest : Table) :
    (Table.bytes bs rest).size = bs.size + rest.size := by
  rw [size, sizeFrom, Nat.zero_add, sizeFrom_eq]

@[simp] theorem size_count (n : Nat) (rest : Table) :
    (Table.count n rest).size = 2 + rest.size := by
  rw [size, sizeFrom, Nat.zero_add, sizeFrom_eq]

@[simp] theorem size_null (w : Width) (rest : Table) :
    (Table.null w rest).size = w.size + rest.size := by
  rw [size, sizeFrom, Nat.zero_add, sizeFrom_eq]

@[simp] theorem size_link (l : Link) (child rest : Table) :
    (Table.link l child rest).size = l.width.size + rest.size := by
  rw [size, sizeFrom, Nat.zero_add, sizeFrom_eq]

theorem extent_eq (t : Table) (path : List Nat) (owner : Option Nat) (k : Nat) :
    t.extent = t.size + span (t.nearBelow path owner k) := by
  induction t generalizing path owner k with
  | done => rfl
  | bytes bs rest ih =>
    rw [extent, extentFrom, extentFrom_eq, ih path owner k, nearBelow, size_bytes]
    omega
  | count n rest ih =>
    rw [extent, extentFrom, extentFrom_eq, ih path owner k, nearBelow, size_count]
    omega
  | null w rest ih =>
    rw [extent, extentFrom, extentFrom_eq, ih path owner k, nearBelow, size_null]
    omega
  | link l child rest ihc ih =>
    have hr := ih path owner (k + 1)
    rw [extent, extentFrom, nearBelow, size_link]
    cases l.placement with
    | near =>
      have hc := ihc (path ++ [k]) (l.ownerBelow owner) 0
      simp only [extentFrom_eq child, extentFrom_eq rest, span_cons, span_append]
      omega
    | deferred =>
      simp only [extentFrom_eq rest]
      omega

theorem deferredCountFrom_eq (t : Table) (path : List Nat) (owner : Option Nat) (k n : Nat) :
    deferredCountFrom n t = n + (t.deferredBelow path owner k).length := by
  induction t generalizing path owner k n with
  | done => rfl
  | bytes _ rest ih | count _ rest ih | null _ rest ih => exact ih path owner k n
  | link l child rest ihc ih =>
    rw [deferredCountFrom, deferredBelow]
    cases l.placement with
    | near =>
      simp only [ihc (path ++ [k]) (l.ownerBelow owner) 0, ih path owner (k + 1),
        List.length_append]
      omega
    | deferred =>
      simp only [ih path owner (k + 1), List.length_cons]
      omega

theorem deferredCount_eq (t : Table) (path : List Nat) (owner : Option Nat) (k : Nat) :
    t.deferredCount = (t.deferredBelow path owner k).length := by
  rw [deferredCount, t.deferredCountFrom_eq path owner k, Nat.zero_add]

end Table

/-- A node without the way to it. -/
def Node.entry (n : Node) : Option Nat × Table := (n.owner, n.table)

theorem Node.extent_eq (n : Node) : n.table.extent = span n.nearPart := by
  rw [n.table.extent_eq n.path n.owner 0, nearPart, span_cons]

/-! ## Rounds of the queue -/

namespace Table

theorem deferredOnto_eq (t : Table) (path : List Nat) (owner : Option Nat) (k : Nat)
    (acc : List (Option Nat × Table)) :
    deferredOnto owner acc t = ((t.deferredBelow path owner k).map Node.entry).reverse ++ acc := by
  induction t generalizing path owner k acc with
  | done => rfl
  | bytes _ rest ih | count _ rest ih | null _ rest ih => exact ih path owner k acc
  | link l child rest ihc ih =>
    rw [deferredOnto, deferredBelow]
    cases l.placement with
    | near =>
      simp only [ihc (path ++ [k]) (l.ownerBelow owner) 0, ih path owner (k + 1),
        List.map_append, List.reverse_append, List.append_assoc]
    | deferred =>
      simp only [ih path owner (k + 1), List.map_cons, List.reverse_cons, List.append_assoc,
        List.singleton_append, Node.entry]

theorem le_depthFrom (t : Table) (n : Nat) : n ≤ depthFrom n t := by
  induction t generalizing n with
  | done => exact Nat.le_refl n
  | bytes _ rest ih | count _ rest ih | null _ rest ih => exact ih n
  | link _ child rest _ ih =>
    rw [depthFrom]
    exact Nat.le_trans (Nat.le_max_left ..) (ih _)

theorem depth_of_mem_deferredBelow {t : Table} {path : List Nat} {owner : Option Nat} {k : Nat}
    {d : Node} (h : d ∈ t.deferredBelow path owner k) (n : Nat) :
    d.table.depth < depthFrom n t := by
  induction t generalizing path owner k n with
  | done => cases h
  | bytes _ rest ih | count _ rest ih | null _ rest ih => exact ih h n
  | link l child rest ihc ih =>
    rw [depthFrom]
    -- the depth below the child is one of the two that the rest starts from
    have hle := rest.le_depthFrom (max n (depthFrom 0 child + 1))
    rw [deferredBelow] at h
    cases hp : l.placement with
    | near =>
      rw [hp] at h
      rcases List.mem_append.1 h with h | h
      · have := ihc h 0
        omega
      · exact ih h _
    | deferred =>
      rw [hp] at h
      rcases List.mem_cons.1 h with rfl | h
      · simp only [depth]
        omega
      · exact ih h _

end Table

theorem Node.deferred_entry (n : Node) :
    n.entry.2.deferred n.entry.1 = n.deferred.map Node.entry := by
  rw [entry, Table.deferred, Table.deferredOnto_eq _ n.path n.owner 0, List.append_nil,
    List.reverse_reverse, deferred]

theorem depth_of_mem_deferred {queue : List Node} {fuel : Nat}
    (h : ∀ n ∈ queue, n.table.depth ≤ fuel) {d : Node} (hd : d ∈ queue.flatMap Node.deferred) :
    d.table.depth < fuel := by
  obtain ⟨n, hn, hd⟩ := List.mem_flatMap.1 hd
  exact Nat.lt_of_lt_of_le (Table.depth_of_mem_deferredBelow hd 0) (h n hn)

/-- What a round defers is less deep than the round, so fuel for the depth lasts. -/
theorem rounds_eq_drain (fuel : Nat) (queue : List Node)
    (h : ∀ n ∈ queue, n.table.depth ≤ fuel) :
    Table.rounds fuel (queue.map Node.entry) = (drain queue).map Node.entry := by
  induction fuel generalizing queue with
  | zero =>
    have hnone : queue.flatMap Node.deferred = [] :=
      List.eq_nil_iff_forall_not_mem.2 fun d hd => Nat.not_lt_zero _ (depth_of_mem_deferred h hd)
    rw [drain_round, hnone, drain_nil, List.append_nil, Table.rounds]
  | succ fuel ih =>
    cases queue with
    | nil => simp [Table.rounds]
    | cons n rest =>
      have hnext : ((n :: rest).map Node.entry).flatMap (fun e => e.2.deferred e.1) =
          ((n :: rest).flatMap Node.deferred).map Node.entry := by
        rw [List.flatMap_map, List.map_flatMap]
        simp only [Node.deferred_entry]
      have hle : ∀ d ∈ (n :: rest).flatMap Node.deferred, d.table.depth ≤ fuel :=
        fun d hd => Nat.le_of_lt_succ (depth_of_mem_deferred h hd)
      rw [List.map_cons, Table.rounds, ← List.map_cons, hnext, ih _ hle, drain_round (n :: rest),
        List.map_append]
      simp

/-- The heads of the near parts leave the queue in this order. -/
theorem Table.heads_eq (t : Table) : t.heads = (drain [t.root]).map Node.entry :=
  rounds_eq_drain t.depth [t.root] (by simp [root])

/-! ## Cells and blocks -/

section
variable (start : List Nat → Nat)

/-- The cells of a table at the end of `path`, where the next link is the `k`-th one and tables
start where `start` says. -/
def Table.cells (path : List Nat) (k : Nat) : Table → List Cell
  | .done => []
  | .bytes bs rest => .bytes bs :: cells path k rest
  | .count n rest => .bytes (pushWord .empty (countWord n)) :: cells path k rest
  | .null width rest =>
    .bytes (pushBytes .empty (List.replicate width.size 0)) :: cells path k rest
  | .link l _ rest =>
    .offset l.width l.target (start (path ++ [k])) :: cells path (k + 1) rest

/-- The block of a node. -/
def Node.block (n : Node) : Block :=
  ⟨start n.path, n.owner, n.table.cells start n.path 0⟩

/-- Places that come second are found behind the places that come first. -/
theorem prefix_drop {first second places : List Nat} (h : first ++ second <+: places) :
    second <+: places.drop first.length := by
  obtain ⟨more, rfl⟩ := h
  rw [List.append_assoc, List.drop_left]
  exact List.prefix_append ..

/-- Whether the place of the next near table and the waiting places are those where the nodes
below a table start. -/
structure Agrees (path : List Nat) (owner : Option Nat) (k : Nat) (near : Nat)
    (waiting : List Nat) (t : Table) : Prop where
  near_eq : (t.nearBelow path owner k).map (fun n => start n.path) =
    positions near (t.nearBelow path owner k)
  waiting_eq : (t.deferredBelow path owner k).map (fun n => start n.path) <+: waiting

variable {start} {path : List Nat} {owner : Option Nat} {k near : Nat} {waiting : List Nat}
  {l : Link} {child rest : Table}

/-- A near link: its child starts at the next near place, what is near to the child follows, and
the rest goes on behind the child's near part with the places that the child leaves. -/
theorem Agrees.near_link (h : Agrees start path owner k near waiting (.link l child rest))
    (hl : l.placement = .near) :
    start (path ++ [k]) = near ∧
      Agrees start (path ++ [k]) (l.ownerBelow owner) 0 (near + child.size) waiting child ∧
      Agrees start path owner (k + 1) (near + child.extent) (waiting.drop child.deferredCount)
        rest := by
  obtain ⟨hn, hw⟩ := h
  simp only [Table.nearBelow, Table.deferredBelow, hl] at hn hw
  rw [List.map_cons, positions, List.cons.injEq, List.map_append, positions_append] at hn
  obtain ⟨hhead, hn⟩ := hn
  obtain ⟨hchild, hrest⟩ := List.append_inj hn (by rw [List.length_map, length_positions])
  rw [List.map_append] at hw
  refine ⟨hhead, ⟨hchild, (List.prefix_append ..).trans hw⟩, ⟨?_, ?_⟩⟩
  · rw [hrest, child.extent_eq (path ++ [k]) (l.ownerBelow owner) 0, Nat.add_assoc]
  · have := prefix_drop hw
    rwa [List.length_map, ← child.deferredCount_eq] at this

/-- A deferred link: its child starts at the first waiting place. -/
theorem Agrees.deferred_link (h : Agrees start path owner k near waiting (.link l child rest))
    (hl : l.placement = .deferred) :
    start (path ++ [k]) = waiting.headD 0 ∧
      Agrees start path owner (k + 1) near waiting.tail rest := by
  obtain ⟨hn, hw⟩ := h
  simp only [Table.nearBelow, Table.deferredBelow, hl] at hn hw
  obtain ⟨more, rfl⟩ := hw
  exact ⟨rfl, hn, List.prefix_append ..⟩

theorem Table.cellsOnto_eq {t : Table} (h : Agrees start path owner k near waiting t)
    (acc : List Cell) :
    cellsOnto near waiting acc t = (t.cells start path k).reverse ++ acc := by
  induction t generalizing k near waiting acc with
  | done => rfl
  | bytes bs rest ih =>
    have hr : Agrees start path owner k near waiting rest := ⟨h.near_eq, h.waiting_eq⟩
    simp [cellsOnto, cells, ih hr]
  | count n rest ih =>
    have hr : Agrees start path owner k near waiting rest := ⟨h.near_eq, h.waiting_eq⟩
    simp [cellsOnto, cells, ih hr]
  | null w rest ih =>
    have hr : Agrees start path owner k near waiting rest := ⟨h.near_eq, h.waiting_eq⟩
    simp [cellsOnto, cells, ih hr]
  | link l child rest _ ih =>
    rw [cellsOnto, cells]
    cases hl : l.placement with
    | near =>
      obtain ⟨hs, -, hr⟩ := h.near_link hl
      simp [ih hr, hs]
    | deferred =>
      obtain ⟨hs, hr⟩ := h.deferred_link hl
      simp [ih hr, hs]

theorem Node.block_eq {n : Node} {pos : Nat} (hs : start n.path = pos)
    (h : Agrees start n.path n.owner 0 (pos + n.table.size) waiting n.table) :
    n.table.block n.owner pos waiting = n.block start := by
  rw [Table.block, block, Table.cellsOnto_eq h, List.append_nil, List.reverse_reverse, hs]

theorem Table.blocksBelow_eq {t : Table} (h : Agrees start path owner k near waiting t)
    (acc : List Block) :
    blocksBelow owner near waiting acc t =
      ((t.nearBelow path owner k).map (Node.block start)).reverse ++ acc := by
  induction t generalizing path owner k near waiting acc with
  | done => rfl
  | bytes _ rest ih | count _ rest ih | null _ rest ih => exact ih ⟨h.near_eq, h.waiting_eq⟩ acc
  | link l child rest ihc ih =>
    rw [blocksBelow, nearBelow]
    cases hl : l.placement with
    | near =>
      obtain ⟨hs, hc, hr⟩ := h.near_link hl
      have hb := Node.block_eq (n := ⟨path ++ [k], l.ownerBelow owner, child⟩) hs hc
      simp [ihc hc, ih hr, hb]
    | deferred =>
      obtain ⟨-, hr⟩ := h.deferred_link hl
      exact ih hr acc

/-- The blocks of a near part. -/
theorem Node.blocksOnto_eq {n : Node} {pos : Nat}
    (hn : n.nearPart.map (fun m => start m.path) = positions pos n.nearPart)
    (hw : n.deferred.map (fun m => start m.path) <+: waiting) (acc : List Block) :
    n.table.blocksOnto n.owner pos waiting acc =
      (n.nearPart.map (Node.block start)).reverse ++ acc := by
  rw [nearPart, List.map_cons, positions, List.cons.injEq] at hn
  have h : Agrees start n.path n.owner 0 (pos + n.table.size) waiting n.table := ⟨hn.2, hw⟩
  rw [Table.blocksOnto, block_eq hn.1 h, Table.blocksBelow_eq h, nearPart]
  simp

/-! ## Near parts one after another -/

theorem foldl_progress {heads : List Node} {pos : Nat}
    (hn : (heads.flatMap Node.nearPart).map (fun m => start m.path) =
      positions pos (heads.flatMap Node.nearPart))
    (hw : (heads.flatMap Node.deferred).map (fun m => start m.path) <+: waiting)
    (acc : List Block) :
    ((heads.map Node.entry).foldl Table.Progress.step ⟨acc, pos, waiting⟩).blocks =
      ((heads.flatMap Node.nearPart).map (Node.block start)).reverse ++ acc := by
  induction heads generalizing pos waiting acc with
  | nil => rfl
  | cons n heads ih =>
    rw [List.flatMap_cons, List.map_append, positions_append] at hn
    obtain ⟨hhead, hrest⟩ := List.append_inj hn (by rw [List.length_map, length_positions])
    rw [List.flatMap_cons, List.map_append] at hw
    have hb := Node.blocksOnto_eq hhead ((List.prefix_append ..).trans hw) acc
    have hdrop := prefix_drop hw
    rw [List.length_map, Node.deferred, ← Table.deferredCount_eq] at hdrop
    rw [← n.extent_eq] at hrest
    rw [List.map_cons, List.foldl_cons, Table.Progress.step, Node.entry, hb, ih hrest hdrop,
      List.flatMap_cons, List.map_append, List.reverse_append, List.append_assoc]

/-- The starts of near parts are those of their heads. -/
theorem starts_eq {heads : List Node}
    (hn : (heads.flatMap Node.nearPart).map (fun m => start m.path) =
      positions 0 (heads.flatMap Node.nearPart)) :
    Table.starts (heads.map Node.entry) = heads.map (fun n => start n.path) := by
  suffices ∀ pos acc, (heads.flatMap Node.nearPart).map (fun m => start m.path) =
      positions pos (heads.flatMap Node.nearPart) →
      ((heads.map Node.entry).foldl (fun s t => (s.2 :: s.1, s.2 + t.2.extent)) (acc, pos)).1 =
        (heads.map (fun n => start n.path)).reverse ++ acc by
    have hstarts := congrArg List.reverse (this 0 [] hn)
    rwa [List.append_nil, List.reverse_reverse] at hstarts
  clear hn
  induction heads with
  | nil => intro pos acc _; rfl
  | cons n heads ih =>
    intro pos acc hn
    rw [List.flatMap_cons, List.map_append, positions_append] at hn
    obtain ⟨hhead, hrest⟩ := List.append_inj hn (by rw [List.length_map, length_positions])
    rw [← n.extent_eq] at hrest
    rw [Node.nearPart, List.map_cons, positions, List.cons.injEq] at hhead
    rw [List.map_cons, List.foldl_cons, Node.entry, ih _ _ hrest, List.map_cons, hhead.1]
    simp

end

/-- **The blocks of a tree** are those of its tables in the order of placement, and every offset
in them leads to the place where the linked table starts. -/
theorem Table.blocks_eq (t : Table) :
    t.blocks = t.placementOrder.map (Node.block t.start) := by
  have hn : t.placementOrder.map (fun n => t.start n.path) = positions 0 t.placementOrder :=
    map_startIn t.nodup_placementOrder
  -- all heads but the root are deferred, in order, by the near parts of the heads
  have htail : ((drain [t.root]).map (fun n => t.start n.path)).tail =
      ((drain [t.root]).flatMap Node.deferred).map (fun n => t.start n.path) := by
    generalize hd : (drain [t.root]).flatMap Node.deferred = rest
    rw [drain_eq_append, hd]
    rfl
  rw [blocks, heads_eq, starts_eq hn]
  rw [foldl_progress hn (htail ▸ List.prefix_refl _), List.append_nil, List.reverse_reverse]
  rfl

end FontLayout
