import FontLayout.Packing.Substitution
/-!
# What a run of items is

A run starts with any item and grows by items that the gauge lets join. `Grown` is the relation
between the items of such a run and the state of the gauge after them, so what holds of a run is
proved by induction on how it grew.

Results:
* `Gauge.grown_of_mem_cut`: every run that is cut has grown in this way.
* `Gauge.exists_splits_cut`: runs are stretches of the items, and breaks precede first items only.
* `Gauge.cut_of_fits`: items that always fit are not cut, if there is no budget and no break.
* `Gauge.cut_of_incompatible`: items that never fit have runs of their own.
* `flatten_cut`: the runs of a lookup, one after another, are what its rules contribute.
-/
namespace FontLayout
namespace Gauge
variable {ι σ : Type}

/-! ## Growth -/

/-- Items that share a run, in order, and the state of the gauge after the last. -/
inductive Grown (g : Gauge ι σ) (budget : Budget) : List ι → σ → Prop where
  | start (i : ι) : Grown g budget [i] (g.add g.start i)
  | join {items : List ι} {s : σ} {i : ι} {n : Nat} : Grown g budget items s →
      g.fit s i = .size n → budget.exceededBy n = false →
      Grown g budget (items ++ [i]) (g.add s i)

/-- What each item preserves holds of every run. -/
theorem Grown.preserves {g : Gauge ι σ} {budget : Budget} {P : List ι → σ → Prop}
    (hstart : P [] g.start)
    (hadd : ∀ items s i, P items s → P (items ++ [i]) (g.add s i)) {items : List ι} {s : σ}
    (h : Grown g budget items s) : P items s := by
  induction h with
  | start i => exact hadd [] g.start i hstart
  | join _ _ _ ih => exact hadd _ _ _ ih

theorem fits_of_joins {g : Gauge ι σ} {budget : Budget} {s : σ} {item : ι × Bool}
    (h : g.joint budget s item = .joins) :
    ∃ n, g.fit s item.1 = .size n ∧ budget.exceededBy n = false := by
  unfold joint at h
  split at h
  · cases h
  · split at h
    · next n hn =>
      split at h
      · cases h
      · next hb => exact ⟨n, hn, by simpa using hb⟩
    · cases h
    · cases h

/-- The runs that are complete have grown, and so has the open run, if there is one. -/
def Cutting.AllGrown (g : Gauge ι σ) (budget : Budget) (c : Cutting ι σ) : Prop :=
  (∀ r ∈ c.runs, ∃ s, Grown g budget r.items s) ∧
    (c.items ≠ [] → Grown g budget c.items.reverse c.state)

theorem Cutting.AllGrown.close {g : Gauge ι σ} {budget : Budget} {c : Cutting ι σ}
    (h : c.AllGrown g budget) : ∀ r ∈ c.close, ∃ s, Grown g budget r.items s := by
  unfold Cutting.close
  split
  · exact h.1
  · next hc =>
    refine List.forall_mem_cons.2 ⟨⟨c.state, h.2 ?_⟩, h.1⟩
    simpa using hc

theorem Cutting.AllGrown.restart {g : Gauge ι σ} {budget : Budget} {c : Cutting ι σ}
    (h : c.AllGrown g budget) (i : ι) (forced : Bool) :
    (c.restart g i forced).AllGrown g budget :=
  ⟨h.close, fun _ => .start i⟩

theorem allGrown_step (g : Gauge ι σ) (budget : Budget) (c : Cutting ι σ) (item : ι × Bool)
    (h : c.AllGrown g budget) : (g.step budget c item).AllGrown g budget := by
  unfold step
  split
  · exact h.restart item.1 false
  · next hc =>
    cases hj : g.joint budget c.state item with
    | joins =>
      obtain ⟨n, hn, hb⟩ := fits_of_joins hj
      refine ⟨h.1, fun _ => ?_⟩
      have hopen := h.2 (by simpa using hc)
      simpa using hopen.join hn hb
    | parts => exact h.restart item.1 false
    | forced => exact h.restart item.1 true

theorem allGrown_foldl (g : Gauge ι σ) (budget : Budget) (items : List (ι × Bool))
    (c : Cutting ι σ) (h : c.AllGrown g budget) :
    (items.foldl (g.step budget) c).AllGrown g budget := by
  induction items generalizing c with
  | nil => exact h
  | cons item items ih => exact ih _ (g.allGrown_step budget c item h)

theorem allGrown_start (g : Gauge ι σ) (budget : Budget) :
    Cutting.AllGrown g budget ⟨[], [], false, g.start⟩ := by
  refine ⟨?_, ?_⟩
  · intro r hr
    cases hr
  · intro hn
    exact absurd rfl hn

theorem grown_of_mem_cut {g : Gauge ι σ} {budget : Budget} {items : List (ι × Bool)}
    {r : Run ι} (h : r ∈ g.cut budget items) : ∃ s, Grown g budget r.items s :=
  (g.allGrown_foldl budget items _ (g.allGrown_start budget)).close r (List.mem_reverse.1 h)

/-! ## No cut -/

theorem step_of_fits {g : Gauge ι σ} (hfit : ∀ s i, ∃ n, g.fit s i = .size n)
    {c : Cutting ι σ} {item : ι × Bool} (hb : item.2 = false) (hr : c.runs = [])
    (hf : c.forced = false) :
    (g.step none c item).runs = [] ∧ (g.step none c item).forced = false ∧
      (g.step none c item).items = item.1 :: c.items := by
  obtain ⟨n, hn⟩ := hfit c.state item.1
  have hj : g.joint none c.state item = .joins := by
    simp [joint, hb, hn, Budget.exceededBy]
  unfold step
  split
  · next hc =>
    have hnil : c.items = [] := by simpa using hc
    simp [Cutting.restart, Cutting.close, hnil, hr]
  · simp [hj, hr, hf]

theorem cut_of_fits {g : Gauge ι σ} (hfit : ∀ s i, ∃ n, g.fit s i = .size n)
    {items : List (ι × Bool)} (hb : ∀ item ∈ items, item.2 = false) :
    g.cut none items = if items = [] then [] else [⟨items.map Prod.fst, false⟩] := by
  have hfold : ∀ c : Cutting ι σ, c.runs = [] → c.forced = false →
      (items.foldl (g.step none) c).runs = [] ∧ (items.foldl (g.step none) c).forced = false ∧
        (items.foldl (g.step none) c).items = (items.map Prod.fst).reverse ++ c.items := by
    induction items with
    | nil => exact fun c hr hf => ⟨hr, hf, rfl⟩
    | cons item items ih =>
      intro c hr hf
      rw [List.forall_mem_cons] at hb
      obtain ⟨hr, hf, hi⟩ := step_of_fits hfit hb.1 hr hf
      obtain ⟨hr, hf, hi'⟩ := ih hb.2 _ hr hf
      exact ⟨hr, hf, by rw [List.foldl_cons, hi', hi]; simp⟩
  obtain ⟨hr, hf, hi⟩ := hfold ⟨[], [], false, g.start⟩ rfl rfl
  rw [cut, Cutting.close, hi, hr, hf]
  cases items with
  | nil => rfl
  | cons item items => simp

/-- Items that never fit have runs of their own. -/
theorem cut_of_incompatible {g : Gauge ι σ} (hfit : ∀ s i, g.fit s i = .incompatible)
    (budget : Budget) (items : List (ι × Bool)) :
    (g.cut budget items).map Run.items = items.map fun item => [item.1] := by
  have hsingle : ∀ run ∈ (g.cut budget items).map Run.items, ∃ i, run = [i] := by
    refine List.forall_mem_map.2 fun r hr => ?_
    obtain ⟨s, hs⟩ := grown_of_mem_cut hr
    generalize r.items = run at hs
    cases hs with
    | start i => exact ⟨i, rfl⟩
    | join _ hjoin _ =>
      rw [hfit] at hjoin
      cases hjoin
  have hflat : ((g.cut budget items).map Run.items).flatten = items.map Prod.fst := by
    rw [← List.flatMap_def, items_cut]
  generalize (g.cut budget items).map Run.items = runs at hsingle hflat
  induction runs generalizing items with
  | nil => simp [List.map_eq_nil_iff.1 hflat.symm]
  | cons run runs ih =>
    obtain ⟨⟨i, rfl⟩, hrest⟩ := List.forall_mem_cons.1 hsingle
    obtain ⟨item, items, rfl, rfl, hitems⟩ := List.map_eq_cons_iff.1 hflat.symm
    rw [List.map_cons, ih items hrest hitems.symm]

/-! ## Breaks -/

/-- Whether lists of items are the runs of a cutting, and breaks precede first items only. -/
structure Cutting.Splits (c : Cutting ι σ) (runs : List (List (ι × Bool))) : Prop where
  items_eq : runs.map (List.map Prod.fst) = c.close.reverse.map Run.items
  ne_nil : ∀ run ∈ runs, run ≠ []
  unbroken : ∀ run ∈ runs, ∀ item ∈ run.tail, item.2 = false

theorem Cutting.Splits.restart {g : Gauge ι σ} {c : Cutting ι σ} {runs : List (List (ι × Bool))}
    (h : c.Splits runs) (item : ι × Bool) (forced : Bool) :
    (c.restart g item.1 forced).Splits (runs ++ [[item]]) := by
  refine ⟨?_, ?_, ?_⟩
  · have hclose : (c.restart g item.1 forced).close = ⟨[item.1], forced⟩ :: c.close := rfl
    rw [hclose, List.map_append, h.items_eq, List.reverse_cons, List.map_append]
    rfl
  · intro run hrun
    rcases List.mem_append.1 hrun with hrun | hrun
    · exact h.ne_nil run hrun
    · simp [List.mem_singleton.1 hrun]
  · intro run hrun
    rcases List.mem_append.1 hrun with hrun | hrun
    · exact h.unbroken run hrun
    · simp [List.mem_singleton.1 hrun]

/-- The item that joins is the last of the last run. -/
theorem Cutting.Splits.join {c : Cutting ι σ} {runs : List (List (ι × Bool))}
    (h : c.Splits runs) (hc : c.items ≠ []) {item : ι × Bool} (hi : item.2 = false) (s : σ) :
    ∃ init last, runs = init ++ [last] ∧
      Cutting.Splits { c with items := item.1 :: c.items, state := s }
        (init ++ [last ++ [item]]) := by
  have hclose : c.close = ⟨c.items.reverse, c.forced⟩ :: c.runs := by
    simp [Cutting.close, hc]
  have hitems := h.items_eq
  rw [hclose, List.reverse_cons, List.map_append] at hitems
  obtain ⟨init, more, rfl, hinit, hmore⟩ := List.map_eq_append_iff.1 hitems
  obtain ⟨last, rfl, hlast⟩ := List.map_eq_singleton_iff.1 hmore
  refine ⟨init, last, rfl, ?_, ?_, ?_⟩
  · simp [Cutting.close, hinit, hlast]
  · intro run hrun
    rcases List.mem_append.1 hrun with hrun | hrun
    · exact h.ne_nil run (List.mem_append_left _ hrun)
    · simp [List.mem_singleton.1 hrun]
  · intro run hrun
    rcases List.mem_append.1 hrun with hrun | hrun
    · exact h.unbroken run (List.mem_append_left _ hrun)
    · have hne : last ≠ [] := h.ne_nil last (by simp)
      rw [List.mem_singleton.1 hrun, List.tail_append_of_ne_nil hne]
      intro i hm
      rcases List.mem_append.1 hm with hm | hm
      · exact h.unbroken last (by simp) i hm
      · rwa [List.mem_singleton.1 hm]

theorem splits_step (g : Gauge ι σ) (budget : Budget) {c : Cutting ι σ}
    {runs : List (List (ι × Bool))} (h : c.Splits runs) (item : ι × Bool) :
    ∃ runs', runs'.flatten = runs.flatten ++ [item] ∧ (g.step budget c item).Splits runs' := by
  unfold step
  split
  · exact ⟨_, by simp, h.restart item false⟩
  · next hc =>
    cases hj : g.joint budget c.state item with
    | joins =>
      have hi : item.2 = false := by
        cases hb : item.2 with
        | false => rfl
        | true => simp [joint, hb] at hj
      obtain ⟨init, last, rfl, hs⟩ := h.join (by simpa using hc) hi (g.add c.state item.1)
      exact ⟨_, by simp, hs⟩
    | parts => exact ⟨_, by simp, h.restart item false⟩
    | forced => exact ⟨_, by simp, h.restart item true⟩

theorem splits_foldl (g : Gauge ι σ) (budget : Budget) (items : List (ι × Bool))
    {c : Cutting ι σ} {runs : List (List (ι × Bool))} (h : c.Splits runs) :
    ∃ runs', runs'.flatten = runs.flatten ++ items ∧
      (items.foldl (g.step budget) c).Splits runs' := by
  induction items generalizing c runs with
  | nil => exact ⟨runs, by simp, h⟩
  | cons item items ih =>
    obtain ⟨runs', hflat, hstep⟩ := splits_step g budget h item
    obtain ⟨runs'', hflat', hfold⟩ := ih hstep
    exact ⟨runs'', by rw [hflat', hflat]; simp, hfold⟩

/-- The runs are stretches of the items, none is empty, and every item that a break precedes is
the first of its run. -/
theorem exists_splits_cut (g : Gauge ι σ) (budget : Budget) (items : List (ι × Bool)) :
    ∃ runs : List (List (ι × Bool)), runs.flatten = items ∧
      (g.cut budget items).map Run.items = runs.map (List.map Prod.fst) ∧
      ∀ run ∈ runs, run ≠ [] ∧ ∀ item ∈ run.tail, item.2 = false := by
  have hstart : Cutting.Splits (⟨[], [], false, g.start⟩ : Cutting ι σ) [] := by
    refine ⟨rfl, ?_, ?_⟩
    · intro run hrun
      cases hrun
    · intro run hrun
      cases hrun
  obtain ⟨runs, hflat, hs⟩ := splits_foldl g budget items hstart
  refine ⟨runs, by simpa using hflat, ?_, ?_⟩
  · rw [hs.items_eq]
    rfl
  · exact fun run hrun => ⟨hs.ne_nil run hrun, hs.unbroken run hrun⟩

end Gauge

/-! ## Runs of a lookup -/

namespace Packing
variable {ι σ : Type} {item? : RuleBody → Option ι} {rules : List Rule}

theorem map_fst_itemsOf :
    (itemsOf item? rules).map Prod.fst = rules.filterMap fun r => item? r.body := by
  rw [itemsOf, List.map_filterMap]
  congr 1
  funext r
  cases item? r.body <;> rfl

theorem flatten_cut (g : Gauge ι σ) (budget : Budget) :
    ((g.cut budget (itemsOf item? rules)).map Run.items).flatten =
      rules.filterMap fun r => item? r.body := by
  rw [← List.flatMap_def, Gauge.items_cut, map_fst_itemsOf]

theorem break_of_mem_itemsOf (hb : ∀ r ∈ rules, r.breakBefore = false) :
    ∀ item ∈ itemsOf item? rules, item.2 = false := by
  intro item hi
  obtain ⟨r, hr, hm⟩ := List.mem_filterMap.1 hi
  obtain ⟨i, -, rfl⟩ := Option.map_eq_some_iff.1 hm
  exact hb r hr

end Packing
end FontLayout
