import FontLayout.Subtable.Basic
/-!
# Cutting items into runs

The items of a lookup are cut, in order, into runs, and each run becomes a subtable. A gauge
keeps a running estimate of the size of the run at hand. A run ends where a break was asked for,
where the next item would take the estimate over the budget, or where the item cannot share a
subtable with the run.

Results:
* `Gauge.items_cut`: the runs, one after another, are the items.
* `Gauge.run_ne_nil`: no run is empty.
-/
namespace FontLayout

/-- Whether an item can join a run: with the size that this would give it, or not at all. -/
inductive Fit where
  | size (n : Nat)
  | incompatible
  | overlap
deriving DecidableEq

/-- The greatest size of a run of more than one item; without a bound, any size will do. -/
abbrev Budget := Option Nat

/-- Whether a size is beyond the budget. -/
def Budget.exceededBy (b : Budget) (n : Nat) : Bool :=
  match b with
  | none => false
  | some bound => bound < n

/-- How the size of a run is estimated while items join it. -/
structure Gauge (ι σ : Type) where
  start : σ
  fit : σ → ι → Fit
  add : σ → ι → σ

/-- How an item relates to the run before it: it joins, it starts a new run, or it is forced to
start one because its classes overlap those of the run. -/
inductive Joint where
  | joins
  | parts
  | forced
deriving DecidableEq

/-- Items that share a subtable, and whether overlapping classes forced the run to start. -/
structure Run (ι : Type) where
  items : List ι
  forced : Bool
deriving DecidableEq

namespace Gauge
variable {ι σ : Type}

/-- How an item relates to a run. Each item comes with the word whether a break precedes it. -/
def joint (g : Gauge ι σ) (budget : Budget) (s : σ) (item : ι × Bool) : Joint :=
  if item.2 then .parts
  else
    match g.fit s item.1 with
    | .size n => if budget.exceededBy n then .parts else .joins
    | .incompatible => .parts
    | .overlap => .forced

/-- Runs that are complete, last first, and the open run: its items, last first, whether it was
forced, and its estimate. Without items, no run is open. -/
structure Cutting (ι σ : Type) where
  runs : List (Run ι)
  items : List ι
  forced : Bool
  state : σ

/-- The runs so far, with the open one closed, last first. -/
def Cutting.close (c : Cutting ι σ) : List (Run ι) :=
  if c.items.isEmpty then c.runs else ⟨c.items.reverse, c.forced⟩ :: c.runs

/-- Starts a new run with an item. -/
def Cutting.restart (g : Gauge ι σ) (c : Cutting ι σ) (i : ι) (forced : Bool) : Cutting ι σ :=
  ⟨c.close, [i], forced, g.add g.start i⟩

/-- Takes one more item. -/
def step (g : Gauge ι σ) (budget : Budget) (c : Cutting ι σ) (item : ι × Bool) : Cutting ι σ :=
  if c.items.isEmpty then c.restart g item.1 false
  else
    match g.joint budget c.state item with
    | .joins => { c with items := item.1 :: c.items, state := g.add c.state item.1 }
    | .parts => c.restart g item.1 false
    | .forced => c.restart g item.1 true

/-- The runs of a list of items. -/
def cut (g : Gauge ι σ) (budget : Budget) (items : List (ι × Bool)) : List (Run ι) :=
  (items.foldl (g.step budget) ⟨[], [], false, g.start⟩).close.reverse

/-- The items taken so far, in order. -/
def Cutting.taken (c : Cutting ι σ) : List ι := c.close.reverse.flatMap Run.items

theorem Cutting.taken_restart (g : Gauge ι σ) (c : Cutting ι σ) (i : ι) (forced : Bool) :
    (c.restart g i forced).taken = c.taken ++ [i] := by
  simp [taken, restart, close]

theorem taken_step (g : Gauge ι σ) (budget : Budget) (c : Cutting ι σ) (item : ι × Bool) :
    (g.step budget c item).taken = c.taken ++ [item.1] := by
  unfold step
  split
  · exact c.taken_restart ..
  · next h =>
    cases g.joint budget c.state item with
    | joins => simp [Cutting.taken, Cutting.close, h]
    | parts => exact c.taken_restart ..
    | forced => exact c.taken_restart ..

theorem taken_foldl (g : Gauge ι σ) (budget : Budget) (items : List (ι × Bool))
    (c : Cutting ι σ) :
    (items.foldl (g.step budget) c).taken = c.taken ++ items.map Prod.fst := by
  induction items generalizing c with
  | nil => simp
  | cons item items ih => rw [List.foldl_cons, ih, taken_step]; simp

theorem items_cut (g : Gauge ι σ) (budget : Budget) (items : List (ι × Bool)) :
    (g.cut budget items).flatMap Run.items = items.map Prod.fst := by
  rw [cut, ← Cutting.taken, taken_foldl]
  simp [Cutting.taken, Cutting.close]

theorem close_ne_nil (c : Cutting ι σ) (h : ∀ r ∈ c.runs, r.items ≠ []) :
    ∀ r ∈ c.close, r.items ≠ [] := by
  unfold Cutting.close
  split
  · exact h
  · next hc =>
    intro r hr
    rcases List.mem_cons.1 hr with rfl | hr
    · simpa using hc
    · exact h r hr

theorem step_ne_nil (g : Gauge ι σ) (budget : Budget) (c : Cutting ι σ) (item : ι × Bool)
    (h : ∀ r ∈ c.runs, r.items ≠ []) : ∀ r ∈ (g.step budget c item).runs, r.items ≠ [] := by
  unfold step
  split
  · exact close_ne_nil c h
  · cases g.joint budget c.state item with
    | joins => exact h
    | parts => exact close_ne_nil c h
    | forced => exact close_ne_nil c h

theorem run_ne_nil (g : Gauge ι σ) (budget : Budget) (items : List (ι × Bool)) :
    ∀ r ∈ g.cut budget items, r.items ≠ [] := by
  suffices ∀ c : Cutting ι σ, (∀ r ∈ c.runs, r.items ≠ []) →
      ∀ r ∈ (items.foldl (g.step budget) c).runs, r.items ≠ [] by
    intro r hr
    exact close_ne_nil _ (this _ (by simp)) r (List.mem_reverse.1 hr)
  induction items with
  | nil => exact fun _ h => h
  | cons item items ih => exact fun c h => ih _ (g.step_ne_nil budget c item h)

end Gauge

/-! ## Packing -/

/-- How a kind of item is gauged, and what subtable a run of such items becomes. -/
structure Packer (ι σ : Type) extends Gauge ι σ where
  build : List ι → Subtable

/-- Subtables in order, and how many of them were forced by overlapping classes. -/
structure Packed where
  subtables : List Subtable
  forced : Nat

/-- The subtables that items are packed into. -/
def Packer.pack {ι σ : Type} (p : Packer ι σ) (budget : Budget) (items : List (ι × Bool)) :
    Packed :=
  let runs := p.cut budget items
  ⟨runs.map fun r => p.build r.items, runs.countP Run.forced⟩

end FontLayout
