import FontLayout.Packing.Lookup
import FontLayout.Proofs.Lookup.Distinct
import FontLayout.Proofs.Packing.Sizes
/-!
# Packed contextual rules

No two contextual rules share a subtable, whatever the budget. The records of a subtable come from
the references of its rule one by one, as long as each reference is to a lookup of the table.

Results:
* `subtables_of_contextual`: the subtables of a contextual lookup are those of its rules.
* `forall₂_lookupRecords`: a record for each reference, in order.
-/
namespace FontLayout

/-- Whether lookups of this kind hold contextual rules, which apply other lookups. -/
def Kind.Contextual (k : Kind) : Prop := k = .chainSub ∨ k = .chainPos

instance (k : Kind) : Decidable k.Contextual := inferInstanceAs (Decidable (_ ∨ _))

/-- What a contextual rule refers to, in order: a position of its input, and the place in the rule
set of a lookup to apply there. -/
def ChainContext.references (c : ChainContext) : List (Nat × Nat) :=
  c.input.zipIdx.flatMap fun (position, i) => position.lookups.map (i, ·)

theorem forall₂_filterMap {α β : Type} {f : α → Option β} {xs : List α}
    (h : ∀ a ∈ xs, ∃ b, f a = some b) :
    List.Forall₂ (fun a b => f a = some b) xs (xs.filterMap f) := by
  induction xs with
  | nil => exact .nil
  | cons a xs ih =>
    obtain ⟨⟨b, hb⟩, hrest⟩ := List.forall_mem_cons.1 h
    rw [List.filterMap_cons_some hb]
    exact .cons hb (ih hrest)

/-! ## Rules -/

/-- A rule in a contextual lookup tells a context, and is its own key. -/
theorem RuleBody.exists_context {b : RuleBody} (h : b.kind.Contextual) :
    b.key = .whole b ∧ ∃ c, b.context? = some c := by
  rcases h with h | h
  · cases b <;> cases h
    exact ⟨rfl, _, rfl⟩
  · cases b <;> cases h
    exact ⟨rfl, _, rfl⟩

namespace ChainContext
variable {c : ChainContext} {i l : Nat}

theorem mem_references : (i, l) ∈ c.references ↔ ∃ x, c.input[i]? = some x ∧ l ∈ x.lookups := by
  simp only [references, List.mem_flatMap, Prod.exists, List.mem_zipIdx_iff_getElem?, List.mem_map,
    Prod.mk.injEq]
  constructor
  · rintro ⟨x, _, hx, _, hl, rfl, rfl⟩
    exact ⟨x, hx, hl⟩
  · rintro ⟨x, hx, hl⟩
    exact ⟨x, i, hx, l, hl, rfl, rfl⟩

theorem lt_of_mem_references (h : (i, l) ∈ c.references) : i < c.input.length := by
  obtain ⟨x, hx, -⟩ := mem_references.1 h
  exact (List.getElem?_eq_some_iff.1 hx).1

end ChainContext

/-! ## Packing -/

namespace Packing

theorem lookupRecords_eq (places : LookupPlaces) (c : ChainContext) :
    lookupRecords places c.input = c.references.filterMap fun x =>
      places[x.2]?.map fun place => (UInt16.ofNat x.1, place) := by
  rw [lookupRecords, ChainContext.references, List.filterMap_flatMap]
  simp only [List.filterMap_map]
  rfl

/-- A record for each reference, in order, if each is to a lookup of the table. -/
theorem forall₂_lookupRecords (places : LookupPlaces) {c : ChainContext}
    (h : ∀ x ∈ c.references, ∃ place, places[x.2]? = some place) :
    List.Forall₂ (fun x record => record.1 = UInt16.ofNat x.1 ∧ places[x.2]? = some record.2)
      c.references (lookupRecords places c.input) := by
  rw [lookupRecords_eq]
  refine (forall₂_filterMap fun x hx => ?_).imp fun x record hx => ?_
  · obtain ⟨place, hplace⟩ := h x hx
    exact ⟨_, by rw [hplace, Option.map_some]⟩
  · obtain ⟨place, hplace, rfl⟩ := Option.map_eq_some_iff.1 hx
    exact ⟨rfl, hplace⟩

/-- Whatever the budget, each rule of a contextual lookup has a subtable of its own. -/
theorem subtables_of_contextual {kind : Kind} (hkind : kind.Contextual) (rules : List Rule)
    (marks : Option MarkSet) (places : LookupPlaces) (budget : Budget) :
    (packLookup kind rules marks places budget).subtables =
      (rules.filterMap fun r => r.body.context?).map fun c => .chain (chainSubtable places c) := by
  have hpack : (packLookup kind rules marks places budget).subtables =
      (((chains places).cut budget (itemsOf RuleBody.context? rules)).map Run.items).map
        (chains places).build := by
    rw [List.map_map]
    rcases hkind with rfl | rfl <;> rfl
  rw [hpack, Gauge.cut_of_incompatible fun _ _ => rfl, ← map_fst_itemsOf, List.map_map,
    List.map_map]
  rfl

end Packing
end FontLayout
