import FontLayout.Proofs.Packing.PairEstimates
/-!
# The budget holds

The subtable of a run of two or more items is at most as large as the gauge said when the last item
joined, and an item only joins within the budget. So under a budget of at most 65535 bytes, such a
subtable never overflows an offset, on its own or in a font: it takes a single item to do so.

Results:
* `bounding_planOf`: the gauge of every kind bounds its subtables.
* `total_packLookup`: what this means for the subtables of a lookup.
-/
namespace FontLayout
namespace Packing

/-! ## Plans -/

/-- The runs that the items of a plan are cut into. -/
def Plan.runs (p : Plan) (budget : Budget) : List (List p.Item) :=
  (p.packer.cut budget p.items).map Run.items

variable {kind : Kind} {rules : List Rule} {marks : Option MarkSet} {places : LookupPlaces}

/-- Each run becomes a subtable. -/
theorem subtables_packLookup (budget : Budget) :
    (packLookup kind rules marks places budget).subtables =
      ((planOf kind rules marks places).runs budget).map
        (planOf kind rules marks places).packer.build := by
  rw [packLookup, Packer.pack, Plan.runs, List.map_map]
  rfl

/-- An item that never joins a run has no estimate. -/
theorem bounding_of_incompatible {ι σ : Type} {p : Packer ι σ}
    (hp : ∀ s i, p.fit s i = .incompatible) : Bounding p := by
  intro budget items s i n _ hfit
  rw [hp] at hfit
  cases hfit

/-- The gauge of every kind bounds its subtables. -/
theorem bounding_planOf (kind : Kind) (rules : List Rule) (marks : Option MarkSet)
    (places : LookupPlaces) : Bounding (planOf kind rules marks places).packer := by
  cases kind with
  | singleSub => exact bounding_single
  | multipleSub => exact bounding_sequences fun _ => rfl
  | alternateSub => exact bounding_sequences fun _ => rfl
  | ligatureSub => exact bounding_ligatures
  | chainSub | chainPos | reverseChainSub => exact bounding_of_incompatible fun _ _ => rfl
  | singlePos => exact bounding_singlePositions
  | pairPos => exact bounding_pairs
  | cursivePos => exact bounding_cursive
  | markToBase | markToMark =>
    exact bounding_attachments (fun _ => rfl) total_baseArrayTable
  | markToLigature => exact bounding_attachments (fun _ => rfl) total_ligatureArrayTable

/-! ## Runs -/

end Packing

theorem Gauge.Grown.state_eq {ι σ : Type} {g : Gauge ι σ} {budget : Budget} {items : List ι}
    {s : σ} (h : g.Grown budget items s) : s = items.foldl g.add g.start :=
  h.preserves (P := fun items s => s = items.foldl g.add g.start) rfl fun items s i h => by
    rw [List.foldl_append, ← h]
    rfl

/-- The last item of a longer run had joined: it had a size, and this was within the budget. -/
theorem Gauge.Grown.exists_join {ι σ : Type} {g : Gauge ι σ} {budget : Budget} {items : List ι}
    {s : σ} (h : g.Grown budget items s) (hlong : 2 ≤ items.length) :
    ∃ init last n, items = init ++ [last] ∧ g.Grown budget init (init.foldl g.add g.start) ∧
      g.fit (init.foldl g.add g.start) last = .size n ∧ budget.exceededBy n = false := by
  cases h with
  | start i => simp at hlong
  | @join init s last n hinit hfit hbudget =>
    have hs := hinit.state_eq
    subst hs
    exact ⟨init, last, n, rfl, hinit, hfit, hbudget⟩

namespace Packing

/-- Whether some offset at a node or below it does not fit, in a tree where tables start where
`start` says. -/
def OverflowsBelow (start : List Nat → Nat) (n : Node) : Prop :=
  ∃ m ∈ n.nodes, ∃ f ∈ m.table.fields start m.path m.owner 0, f.width.limit < f.value

variable {kind : Kind} {rules : List Rule} {marks : Option MarkSet} {places : LookupPlaces}

/-- **Estimates hold.** Take the subtable of any run of a lookup. If the run has two or more items,
the subtable with all tables below it takes no more than what the gauge gave to the last item,
and that is within the budget; written on its own, it has no more bytes. If the budget is at most
65535 bytes, and the subtable overflows on its own or wherever it stands in a tree, the run has a
single item. -/
theorem total_packLookup (budget : Budget) {k : Nat}
    {run : List (planOf kind rules marks places).Item} {s : Subtable}
    (hrun : ((planOf kind rules marks places).runs budget)[k]? = some run)
    (hs : (packLookup kind rules marks places budget).subtables[k]? = some s) :
    (2 ≤ run.length → ∃ init last n, run = init ++ [last] ∧
      (planOf kind rules marks places).packer.fit
        (init.foldl (planOf kind rules marks places).packer.add
          (planOf kind rules marks places).packer.start) last = .size n ∧
      s.table.total ≤ n ∧ (∀ out, s.table.encode = .ok out → out.size ≤ n) ∧
      ∀ bound, budget = some bound → n ≤ bound) ∧
    ∀ bound ≤ 0xFFFF, budget = some bound →
      (∀ o, s.table.encode = .error o → run.length = 1) ∧
      ∀ t : Table, ∀ n ∈ t.placementOrder, n.table = s.table → OverflowsBelow t.start n →
        run.length = 1 := by
  rw [subtables_packLookup, List.getElem?_map, hrun, Option.map_some, Option.some.injEq] at hs
  subst hs
  obtain ⟨r, hr, rfl⟩ := List.mem_map.1 (List.mem_of_getElem? hrun)
  obtain ⟨state, hgrown⟩ := Gauge.grown_of_mem_cut hr
  have hpos : 0 < r.items.length :=
    List.length_pos_iff.2 (Gauge.run_ne_nil _ _ _ r hr)
  have hlong : 2 ≤ r.items.length → ∃ init last n, r.items = init ++ [last] ∧
      (planOf kind rules marks places).packer.fit
        (init.foldl (planOf kind rules marks places).packer.add
          (planOf kind rules marks places).packer.start) last = .size n ∧
      ((planOf kind rules marks places).packer.build r.items).table.total ≤ n ∧
      (∀ out, ((planOf kind rules marks places).packer.build r.items).table.encode = .ok out →
        out.size ≤ n) ∧
      ∀ bound, budget = some bound → n ≤ bound := by
    intro hlength
    obtain ⟨init, last, n, he, hinit, hfit, hbudget⟩ := hgrown.exists_join hlength
    refine ⟨init, last, n, he, hfit, ?_, ?_, ?_⟩
    · rw [he]
      exact bounding_planOf kind rules marks places _ _ _ _ _ hinit hfit
    · intro out hout
      rw [Table.size_encode hout, he]
      exact bounding_planOf kind rules marks places _ _ _ _ _ hinit hfit
    · rintro bound rfl
      simpa [Budget.exceededBy] using hbudget
  refine ⟨hlong, fun bound hbound hbudget => ?_⟩
  -- a longer run has a total that fits a word, and no deferred link
  have hsmall : r.items.length ≠ 1 →
      ((planOf kind rules marks places).packer.build r.items).table.total ≤ 0xFFFF := by
    intro hne
    obtain ⟨_, _, n, -, -, htotal, -, hle⟩ := hlong (by omega)
    have hn := hle bound hbudget
    omega
  have hnear := Subtable.allNear_table ((planOf kind rules marks places).packer.build r.items)
  refine ⟨fun o ho => ?_, fun t n hn htable hover => ?_⟩
  · by_cases hone : r.items.length = 1
    · exact hone
    · obtain ⟨out, hout⟩ := Table.exists_encode hnear (hsmall hone)
      rw [hout] at ho
      cases ho
  · by_cases hone : r.items.length = 1
    · exact hone
    · obtain ⟨m, hm, f, hf, hlt⟩ := hover
      rw [← htable] at hnear
      have htotal := hsmall hone
      rw [← htable] at htotal
      have hle := Table.fits_of_total hn hnear htotal hm hf
      omega

/-- Two rules that replace a glyph each. -/
def twoSingles : List Rule := [⟨.singleSub 1 2, none, false⟩, ⟨.singleSub 3 5, none, false⟩]

/-- The items of the two rules. -/
def twoSingleItems : List (Glyph × Glyph) := [(1, 2), (3, 5)]

/-- Within 100 bytes the two rules share a subtable, and it takes no more. -/
theorem total_twoSingles :
    ((planOf .singleSub twoSingles none ∅).runs (some 100))[0]? = some twoSingleItems ∧
      (packLookup .singleSub twoSingles none ∅ (some 100)).subtables[0]? =
        some (.singleSub (.ofFirst twoSingleItems)) ∧
      (Subtable.singleSub (.ofFirst twoSingleItems)).table.total ≤ 100 := by
  have hrun : ((planOf .singleSub twoSingles none ∅).runs (some 100))[0]? =
      some twoSingleItems := by rfl
  have hs : (packLookup .singleSub twoSingles none ∅ (some 100)).subtables[0]? =
      some (.singleSub (.ofFirst twoSingleItems)) := by rfl
  have hlong : 2 ≤ twoSingleItems.length := by decide
  obtain ⟨_, _, n, -, -, htotal, -, hle⟩ := (total_packLookup (some 100) hrun hs).1 hlong
  exact ⟨hrun, hs, Nat.le_trans htotal (hle 100 rfl)⟩

end Packing
end FontLayout
