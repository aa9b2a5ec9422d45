import FontLayout.Proofs.Packing.Sizes
/-!
# No way of cutting needs fewer runs

Items may be cut in other ways than the one that is taken, where a run goes on as long as the next
item fits. A run that has grown may not do so without its first item, because a gauge is free to
ask for more of fewer items. Where it never does, cutting late is as good as any other way: at each
item there are no more runs than another way has, and where there are as many, the open run is the
end of the other open run, so it takes every item that the other takes.

Results:
* `Gauge.exists_partitions_cut`: the runs that are cut are one of the ways.
* `Gauge.length_cut_le`: no way has fewer runs, if runs grow without their first items.
* `Gauge.length_cut_antitone`: a lower budget never gives fewer runs.
* `Gauge.Lightens.hereditary`: a relation between the states with and without a first item.
-/
namespace FontLayout

/-! ## Budgets -/

/-- Whether a budget allows no more than another does. -/
def Budget.AtMost (lower budget : Budget) : Prop :=
  ∀ bound, budget = some bound → ∃ bound', lower = some bound' ∧ bound' ≤ bound

theorem Budget.AtMost.exceededBy {lower budget : Budget} (h : lower.AtMost budget) {n : Nat}
    (hn : lower.exceededBy n = false) : budget.exceededBy n = false := by
  cases budget with
  | none => rfl
  | some bound =>
    obtain ⟨bound', rfl, hle⟩ := h bound rfl
    have hle' : ¬ bound' < n := of_decide_eq_false hn
    exact decide_eq_false (by omega)

/-- A size within the budget is one for all smaller sizes. -/
theorem Budget.exceededBy_of_le {budget : Budget} {n m : Nat} (hle : m ≤ n)
    (hn : budget.exceededBy n = false) : budget.exceededBy m = false := by
  cases budget with
  | none => rfl
  | some bound =>
    have hn' : ¬ bound < n := of_decide_eq_false hn
    exact decide_eq_false (by omega)

namespace Gauge
variable {ι σ : Type} {g : Gauge ι σ} {budget lower : Budget}

theorem Grown.ne_nil {items : List ι} {s : σ} (h : g.Grown budget items s) : items ≠ [] := by
  cases h <;> simp

theorem Grown.mono (hlower : lower.AtMost budget) {items : List ι} {s : σ}
    (h : g.Grown lower items s) : g.Grown budget items s := by
  induction h with
  | start i => exact .start i
  | join _ hfit hn ih => exact ih.join hfit (hlower.exceededBy hn)

/-- The first of several items has grown, and the last joined. -/
theorem Grown.of_concat {items : List ι} {i : ι} {s : σ} (h : g.Grown budget (items ++ [i]) s)
    (hne : items ≠ []) : ∃ t n, g.Grown budget items t ∧ g.fit t i = .size n ∧
      budget.exceededBy n = false := by
  have hlong : 2 ≤ (items ++ [i]).length := by
    have hpos := List.length_pos_iff.2 hne
    rw [List.length_append, List.length_singleton]
    omega
  obtain ⟨init, last, n, he, hinit, hfit, hn⟩ := h.exists_join hlong
  obtain ⟨rfl, hlast⟩ := List.append_inj' he rfl
  cases hlast
  exact ⟨_, n, hinit, hfit, hn⟩

/-! ## Ways of cutting -/

/-- A way of cutting items into runs: the runs, one after another, are the items, each could have
grown, and every item that a break precedes is the first of its run. -/
structure Partitions (g : Gauge ι σ) (budget : Budget) (items : List (ι × Bool))
    (runs : List (List (ι × Bool))) : Prop where
  flatten_eq : runs.flatten = items
  grown : ∀ run ∈ runs, ∃ s, g.Grown budget (run.map Prod.fst) s
  unbroken : ∀ run ∈ runs, ∀ item ∈ run.tail, item.2 = false

variable {items : List (ι × Bool)} {item : ι × Bool} {runs : List (List (ι × Bool))}

theorem Partitions.mono (hlower : lower.AtMost budget) (h : g.Partitions lower items runs) :
    g.Partitions budget items runs := by
  refine ⟨h.flatten_eq, fun run hrun => ?_, h.unbroken⟩
  obtain ⟨s, hs⟩ := h.grown run hrun
  exact ⟨s, hs.mono hlower⟩

theorem Partitions.ne_nil (h : g.Partitions budget items runs) : ∀ run ∈ runs, run ≠ [] := by
  intro run hrun
  obtain ⟨s, hs⟩ := h.grown run hrun
  simpa using hs.ne_nil

/-- The last item is the last of the last run. -/
theorem Partitions.exists_last {init : List (List (ι × Bool))} {run : List (ι × Bool)}
    (h : g.Partitions budget (items ++ [item]) (init ++ [run])) :
    ∃ last, run = last ++ [item] ∧ init.flatten ++ last = items := by
  have hne : run ≠ [] := h.ne_nil run (by simp)
  obtain ⟨last, item', rfl⟩ := (List.eq_nil_or_concat' run).resolve_left hne
  have hflat := h.flatten_eq
  rw [List.flatten_append, List.flatten_singleton, ← List.append_assoc] at hflat
  obtain ⟨hitems, hitem⟩ := List.append_inj' hflat rfl
  cases hitem
  exact ⟨last, rfl, hitems⟩

/-- The last item has a run of its own, or it joined the run of the items before it. -/
theorem Partitions.concat_cases (h : g.Partitions budget (items ++ [item]) runs) :
    (∃ before, runs = before ++ [[item]] ∧ g.Partitions budget items before) ∨
      ∃ init last, runs = init ++ [last ++ [item]] ∧ last ≠ [] ∧ item.2 = false ∧
        g.Partitions budget items (init ++ [last]) := by
  cases runs using List.reverseRecOn with
  | nil => simpa using h.flatten_eq
  | append_singleton init run =>
    obtain ⟨last, rfl, hitems⟩ := h.exists_last
    have hinit : ∀ r ∈ init, r ∈ init ++ [last ++ [item]] := fun r hr =>
      List.mem_append_left _ hr
    have hrun : last ++ [item] ∈ init ++ [last ++ [item]] := by simp
    by_cases hlast : last = []
    · subst hlast
      refine .inl ⟨init, rfl, by simpa using hitems, fun r hr => ?_, fun r hr => ?_⟩
      · exact h.grown r (hinit r hr)
      · exact h.unbroken r (hinit r hr)
    · have htail := h.unbroken _ hrun
      rw [List.tail_append_of_ne_nil hlast] at htail
      refine .inr ⟨init, last, rfl, hlast, htail item (by simp), by simpa using hitems,
        fun r hr => ?_, fun r hr => ?_⟩
      · rcases List.mem_append.1 hr with hr | hr
        · exact h.grown r (hinit r hr)
        · obtain ⟨s, hs⟩ := h.grown _ hrun
          rw [List.map_append] at hs
          obtain ⟨t, -, ht, -⟩ := hs.of_concat (by simpa using hlast)
          exact ⟨t, by rwa [List.mem_singleton.1 hr]⟩
      · rcases List.mem_append.1 hr with hr | hr
        · exact h.unbroken r (hinit r hr)
        · rw [List.mem_singleton.1 hr]
          exact fun i hi => htail i (List.mem_append_left _ hi)

/-- The runs that are cut are one of the ways. -/
theorem exists_partitions_cut (g : Gauge ι σ) (budget : Budget) (items : List (ι × Bool)) :
    ∃ runs, g.Partitions budget items runs ∧
      (g.cut budget items).map Run.items = runs.map (List.map Prod.fst) := by
  obtain ⟨runs, hflat, hitems, hruns⟩ := g.exists_splits_cut budget items
  refine ⟨runs, ⟨hflat, fun run hrun => ?_, fun run hrun => (hruns run hrun).2⟩, hitems⟩
  have hmem : run.map Prod.fst ∈ (g.cut budget items).map Run.items := by
    rw [hitems]
    exact List.mem_map_of_mem hrun
  obtain ⟨r, hr, he⟩ := List.mem_map.1 hmem
  rw [← he]
  exact grown_of_mem_cut hr

/-! ## Runs without their first items -/

/-- Whether runs of some items still grow without their first item. -/
def Hereditary (g : Gauge ι σ) (budget : Budget) (all : List ι) : Prop :=
  ∀ i run s, (i :: run) <:+: all → run ≠ [] → g.Grown budget (i :: run) s →
    ∃ t, g.Grown budget run t

theorem Hereditary.of_infix {all some : List ι} (h : g.Hereditary budget all)
    (hsome : some <:+: all) : g.Hereditary budget some :=
  fun i run s hrun => h i run s (hrun.trans hsome)

/-- Runs still grow without several of their first items. -/
theorem Hereditary.grown_of_suffix {all run rest : List ι} (h : g.Hereditary budget all)
    (hrun : run <:+: all) (hrest : rest <:+ run) (hne : rest ≠ []) {s : σ}
    (hs : g.Grown budget run s) : ∃ t, g.Grown budget rest t := by
  obtain ⟨before, rfl⟩ := hrest
  induction before generalizing s with
  | nil => exact ⟨s, hs⟩
  | cons i before ih =>
    have hne' : before ++ rest ≠ [] := by simp [hne]
    obtain ⟨t, ht⟩ := h i _ s hrun hne' hs
    exact ih ((List.suffix_cons i _).isInfix.trans hrun) ht

/-! ## Staying ahead -/

/-- What holds of a cutting while items are taken: it has no more runs than any other way of
cutting these items, and where it has as many, its open run is the end of the other. -/
structure Cutting.Ahead (g : Gauge ι σ) (budget : Budget) (c : Cutting ι σ)
    (items : List (ι × Bool)) : Prop where
  grown : c.AllGrown g budget
  opened : items ≠ [] → c.items ≠ []
  length_le : ∀ runs, g.Partitions budget items runs → c.close.length ≤ runs.length
  suffix : ∀ init last, g.Partitions budget items (init ++ [last]) →
    c.close.length = init.length + 1 → c.items.reverse <:+ last.map Prod.fst

theorem length_close_restart (g : Gauge ι σ) (c : Cutting ι σ) (i : ι) (forced : Bool) :
    (c.restart g i forced).close.length = c.close.length + 1 := rfl

theorem length_close {c : Cutting ι σ} (h : c.items ≠ []) : c.close.length = c.runs.length + 1 := by
  simp [Cutting.close, h]

/-- A new run is only started where every other way with as few runs starts one too. -/
theorem Cutting.Ahead.restart {c : Cutting ι σ} (h : c.Ahead g budget items)
    (hstuck : ∀ init last, g.Partitions budget items (init ++ [last]) →
      g.Partitions budget (items ++ [item]) (init ++ [last ++ [item]]) →
      c.close.length ≠ init.length + 1) (forced : Bool) :
    (c.restart g item.1 forced).Ahead g budget (items ++ [item]) := by
  refine ⟨h.grown.restart item.1 forced, fun _ => by simp [Cutting.restart], ?_, ?_⟩
  · intro runs hruns
    rw [length_close_restart]
    rcases hruns.concat_cases with ⟨before, rfl, hbefore⟩ | ⟨init, last, rfl, -, -, hbefore⟩
    · simpa using h.length_le before hbefore
    · have hle := h.length_le _ hbefore
      have hne := hstuck init last hbefore hruns
      simp only [List.length_append, List.length_singleton] at hle ⊢
      omega
  · intro init last hruns _
    obtain ⟨before, rfl, -⟩ := hruns.exists_last
    exact ⟨before.map Prod.fst, by simp [Cutting.restart]⟩

theorem Cutting.Ahead.join {c : Cutting ι σ} (h : c.Ahead g budget items) (hc : c.items ≠ [])
    (hgrown : Cutting.AllGrown g budget
      { c with items := item.1 :: c.items, state := g.add c.state item.1 }) :
    Cutting.Ahead g budget
      { c with items := item.1 :: c.items, state := g.add c.state item.1 }
      (items ++ [item]) := by
  have hlength : (Cutting.close
      { c with items := item.1 :: c.items, state := g.add c.state item.1 }).length =
        c.close.length := by
    rw [length_close hc]
    exact length_close (List.cons_ne_nil _ _)
  refine ⟨hgrown, fun _ => List.cons_ne_nil _ _, ?_, ?_⟩
  · intro runs hruns
    rw [hlength]
    rcases hruns.concat_cases with ⟨before, rfl, hbefore⟩ | ⟨init, last, rfl, -, -, hbefore⟩
    · have hle := h.length_le before hbefore
      simp only [List.length_append, List.length_singleton]
      omega
    · simpa using h.length_le _ hbefore
  · intro init last hruns heq
    rw [hlength] at heq
    rcases hruns.concat_cases with ⟨before, he, hbefore⟩ | ⟨init', last', he, -, -, hbefore⟩
    · -- the other way has one run more, so it does not have as many
      obtain ⟨rfl, -⟩ := List.append_inj' he rfl
      have hle := h.length_le _ hbefore
      omega
    · obtain ⟨rfl, hlast⟩ := List.append_inj' he rfl
      cases hlast
      obtain ⟨before, hbefore⟩ := h.suffix init last' hbefore heq
      refine ⟨before, ?_⟩
      rw [List.map_append, ← hbefore]
      simp

theorem joint_of_fits {s : σ} {n : Nat} (hb : item.2 = false) (hfit : g.fit s item.1 = .size n)
    (hn : budget.exceededBy n = false) : g.joint budget s item = .joins := by
  simp [joint, hb, hfit, hn]

/-- Where the open run is the end of another that took the item, the item joins it. -/
theorem Cutting.Ahead.joins_of_length_eq {c : Cutting ι σ} (h : c.Ahead g budget items)
    (hc : c.items ≠ []) (hall : g.Hereditary budget ((items ++ [item]).map Prod.fst))
    {init : List (List (ι × Bool))} {last : List (ι × Bool)}
    (hbefore : g.Partitions budget items (init ++ [last]))
    (hruns : g.Partitions budget (items ++ [item]) (init ++ [last ++ [item]]))
    (heq : c.close.length = init.length + 1) : g.joint budget c.state item = .joins := by
  have hlast : last ≠ [] := hbefore.ne_nil last (by simp)
  obtain ⟨s, hs⟩ := hruns.grown (last ++ [item]) (by simp)
  have hinfix : (last ++ [item]).map Prod.fst <:+: (items ++ [item]).map Prod.fst := by
    refine List.IsInfix.map Prod.fst (List.IsSuffix.isInfix ⟨init.flatten, ?_⟩)
    rw [← hruns.flatten_eq, List.flatten_append, List.flatten_singleton]
  have hsuffix : c.items.reverse ++ [item.1] <:+ (last ++ [item]).map Prod.fst := by
    obtain ⟨before, he⟩ := h.suffix init last hbefore heq
    exact ⟨before, by rw [List.map_append, ← he]; simp⟩
  obtain ⟨t, ht⟩ := hall.grown_of_suffix hinfix hsuffix (by simp) hs
  obtain ⟨u, n, hu, hfit, hn⟩ := ht.of_concat (by simpa using hc)
  have hstate : u = c.state := by rw [hu.state_eq, (h.grown.2 hc).state_eq]
  subst hstate
  have hbreak : item.2 = false := by
    refine hruns.unbroken (last ++ [item]) (by simp) item ?_
    rw [List.tail_append_of_ne_nil hlast]
    simp
  exact joint_of_fits hbreak hfit hn

theorem ahead_step {c : Cutting ι σ} (h : c.Ahead g budget items) (item : ι × Bool)
    (hall : g.Hereditary budget ((items ++ [item]).map Prod.fst)) :
    (g.step budget c item).Ahead g budget (items ++ [item]) := by
  have hgrown := g.allGrown_step budget c item h.grown
  unfold step at hgrown ⊢
  split
  · next hc =>
    refine h.restart ?_ false
    intro init last hbefore _ _
    have hitems : items = [] := by
      by_contra hne
      exact h.opened hne (by simpa using hc)
    have hlast : last ≠ [] := hbefore.ne_nil last (by simp)
    have hflat := hbefore.flatten_eq
    rw [hitems] at hflat
    simp [hlast] at hflat
  · next hc =>
    have hopen : c.items ≠ [] := by simpa using hc
    have hstuck (hj : g.joint budget c.state item ≠ .joins) :
        ∀ init last, g.Partitions budget items (init ++ [last]) →
          g.Partitions budget (items ++ [item]) (init ++ [last ++ [item]]) →
          c.close.length ≠ init.length + 1 := by
      intro init last hbefore hruns heq
      exact hj (h.joins_of_length_eq hopen hall hbefore hruns heq)
    rw [if_neg hc] at hgrown
    cases hj : g.joint budget c.state item with
    | joins =>
      rw [hj] at hgrown
      exact h.join hopen hgrown
    | parts => exact h.restart (hstuck (by simp [hj])) false
    | forced => exact h.restart (hstuck (by simp [hj])) true

theorem ahead_foldl (items : List (ι × Bool)) (hall : g.Hereditary budget (items.map Prod.fst)) :
    (items.foldl (g.step budget) ⟨[], [], false, g.start⟩).Ahead g budget items := by
  induction items using List.reverseRecOn with
  | nil =>
    refine ⟨g.allGrown_start budget, fun hne => absurd rfl hne, ?_, ?_⟩
    · exact fun runs _ => Nat.zero_le _
    · intro init last _ heq
      simp [Cutting.close] at heq
  | append_singleton items item ih =>
    rw [List.foldl_append]
    have hprefix : items.map Prod.fst <:+: (items ++ [item]).map Prod.fst :=
      (List.prefix_append items [item]).isInfix.map Prod.fst
    exact ahead_step (ih (hall.of_infix hprefix)) item hall

/-- No way of cutting has fewer runs. -/
theorem length_cut_le (hall : g.Hereditary budget (items.map Prod.fst))
    (h : g.Partitions budget items runs) : (g.cut budget items).length ≤ runs.length := by
  rw [cut, List.length_reverse]
  exact (ahead_foldl items hall).length_le runs h

/-- A lower budget never gives fewer runs. -/
theorem length_cut_antitone (hall : g.Hereditary budget (items.map Prod.fst))
    (hlower : lower.AtMost budget) :
    (g.cut budget items).length ≤ (g.cut lower items).length := by
  obtain ⟨runs, hruns, hitems⟩ := g.exists_partitions_cut lower items
  have hlength : (g.cut lower items).length = runs.length := by
    simpa using congrArg List.length hitems
  rw [hlength]
  exact length_cut_le hall (hruns.mono hlower)

/-! ## States without a first item -/

/-- A relation between the states of a run with and without its first item, under which the gauge
asks no more without it. It may count on items that are new to the run. -/
structure Lightens (g : Gauge ι σ) (fresh : σ → ι → Prop) (R : σ → σ → Prop) : Prop where
  start : ∀ i, R (g.add g.start i) g.start
  fit : ∀ s t k n, R s t → fresh s k → g.fit s k = .size n → ∃ m ≤ n, g.fit t k = .size m
  add : ∀ s t k n, R s t → fresh s k → g.fit s k = .size n → R (g.add s k) (g.add t k)

/-- The state without the first item lightens that with it, and is that of a run. -/
theorem Lightens.grown_tail {fresh : σ → ι → Prop} {R : σ → σ → Prop} (h : g.Lightens fresh R)
    {all : List ι} (hfresh : ∀ items s k, g.Grown budget items s → (items ++ [k]) <:+: all →
      fresh s k) {items : List ι} {s : σ} (hs : g.Grown budget items s) (hitems : items <:+: all) :
    R s (items.tail.foldl g.add g.start) ∧ (items.tail ≠ [] →
      g.Grown budget items.tail (items.tail.foldl g.add g.start)) := by
  induction hs with
  | start i => exact ⟨h.start i, fun hne => absurd rfl hne⟩
  | @join items s k n hs hfit hn ih =>
    obtain ⟨hR, hgrown⟩ := ih ((List.prefix_append items [k]).isInfix.trans hitems)
    have hnew := hfresh items s k hs hitems
    rw [List.tail_append_of_ne_nil hs.ne_nil, List.foldl_append]
    refine ⟨h.add _ _ k n hR hnew hfit, fun _ => ?_⟩
    by_cases hnil : items.tail = []
    · rw [hnil]
      exact .start k
    · obtain ⟨m, hle, hm⟩ := h.fit _ _ k n hR hnew hfit
      exact (hgrown hnil).join hm (Budget.exceededBy_of_le hle hn)

theorem Lightens.hereditary {fresh : σ → ι → Prop} {R : σ → σ → Prop} (h : g.Lightens fresh R)
    {all : List ι} (hfresh : ∀ items s k, g.Grown budget items s → (items ++ [k]) <:+: all →
      fresh s k) : g.Hereditary budget all :=
  fun _ _ _ hrun hne hs => ⟨_, (h.grown_tail hfresh hs hrun).2 hne⟩

/-- Where the estimate is that of the state with the item, it is enough that it does not grow when
states lighten. -/
theorem lightens_of_size {fresh : σ → ι → Prop} {R : σ → σ → Prop} (size : σ → Nat)
    (hfit : ∀ s k, g.fit s k = .size (size (g.add s k)))
    (hsize : ∀ s t, R s t → size t ≤ size s) (hstart : ∀ i, R (g.add g.start i) g.start)
    (hadd : ∀ s t k, R s t → fresh s k → R (g.add s k) (g.add t k)) : g.Lightens fresh R := by
  refine ⟨hstart, fun s t k n hR hnew hn => ?_, fun s t k n hR hnew _ => hadd s t k hR hnew⟩
  rw [hfit] at hn
  cases hn
  exact ⟨_, hsize _ _ (hadd s t k hR hnew), hfit t k⟩

end Gauge
end FontLayout
