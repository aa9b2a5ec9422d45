import FontLayout.Proofs.Packing.ClassPairs
import Mathlib.Algebra.Group.Nat.Defs
/-!
# Rules that are forced to start a subtable

Packing warns where a pair of classes cannot join the subtable that is being filled, because one of
its classes overlaps a class there. Whether it can depends on where this subtable starts. Under a
lower budget subtables are smaller and there are more of them, but the one that is being filled at
a given rule may start earlier than under a higher budget as well as later. So neither the rules
that are forced under a lower budget nor those that are forced under a higher one are all among the
others, and packing again can force a split that the first packing did not.

Results:
* `Gauge.mem_forcedPlaces_iff`: the items that are forced to start a run.
* `PairLoad.fit_eq_overlap_iff`: a pair overlaps a run if it overlaps a pair of the run.
* `forcedRules_iff`: the rules that are forced under one budget, and those that are forced under
  one budget but not under another.
-/
namespace FontLayout
namespace Gauge
variable {ι σ : Type} {g : Gauge ι σ} {budget : Budget}

/-! ## Places of forced runs -/

/-- The places of the first items of forced runs, where the first run starts at place `k`. -/
def forcedFrom (k : Nat) : List (Run ι) → List Nat
  | [] => []
  | r :: rs => (if r.forced then [k] else []) ++ forcedFrom (k + r.items.length) rs

/-- The places of the items that overlapping classes force to start a run. -/
def forcedPlaces (g : Gauge ι σ) (budget : Budget) (items : List (ι × Bool)) : List Nat :=
  forcedFrom 0 (g.cut budget items)

theorem length_forcedFrom (k : Nat) (rs : List (Run ι)) :
    (forcedFrom k rs).length = rs.countP Run.forced := by
  induction rs generalizing k with
  | nil => rfl
  | cons r rs ih =>
    unfold forcedFrom
    cases hr : r.forced <;> simp [hr, ih, Nat.add_comm]

theorem forcedFrom_concat (k : Nat) (rs : List (Run ι)) (r : Run ι) :
    forcedFrom k (rs ++ [r]) =
      forcedFrom k rs ++ if r.forced then [k + (rs.flatMap Run.items).length] else [] := by
  induction rs generalizing k with
  | nil => simp [forcedFrom]
  | cons r' rs ih =>
    simp only [List.cons_append, forcedFrom, ih, List.flatMap_cons, List.length_append,
      List.append_assoc, Nat.add_assoc]

/-- The state of cutting after some items. -/
def cutting (g : Gauge ι σ) (budget : Budget) (items : List (ι × Bool)) : Cutting ι σ :=
  items.foldl (g.step budget) ⟨[], [], false, g.start⟩

section
variable {items : List (ι × Bool)} {item : ι × Bool}

theorem cutting_concat : g.cutting budget (items ++ [item]) =
    g.step budget (g.cutting budget items) item := by
  unfold cutting
  rw [List.foldl_append]
  rfl

theorem items_step_ne_nil (c : Cutting ι σ) : (g.step budget c item).items ≠ [] := by
  unfold step
  split
  · simp [Cutting.restart]
  · cases g.joint budget c.state item <;> simp [Cutting.restart]

/-- After the first item there always is an open run. -/
theorem items_cutting_eq_nil_iff : (g.cutting budget items).items = [] ↔ items = [] := by
  cases items using List.reverseRecOn with
  | nil => simp [cutting]
  | append_singleton items item =>
    rw [cutting_concat]
    simp [items_step_ne_nil]

theorem grown_cutting (hne : items ≠ []) :
    g.Grown budget (g.cutting budget items).items.reverse (g.cutting budget items).state :=
  (g.allGrown_foldl budget items _ (g.allGrown_start budget)).2 (mt items_cutting_eq_nil_iff.1 hne)

theorem length_taken_cutting :
    ((g.cutting budget items).close.reverse.flatMap Run.items).length = items.length := by
  have hitems := congrArg List.length (g.items_cut budget items)
  rw [List.length_map] at hitems
  exact hitems

/-- One more item is forced to start a run, or it is not. -/
theorem forcedPlaces_concat : g.forcedPlaces budget (items ++ [item]) =
    g.forcedPlaces budget items ++
      if items ≠ [] ∧ g.joint budget (g.cutting budget items).state item = .forced
      then [items.length] else [] := by
  have hstart (forced : Bool) :
      forcedFrom 0 ((g.cutting budget items).restart g item.1 forced).close.reverse =
        g.forcedPlaces budget items ++ if forced then [items.length] else [] := by
    have hclose : ((g.cutting budget items).restart g item.1 forced).close =
        ⟨[item.1], forced⟩ :: (g.cutting budget items).close := rfl
    rw [hclose, List.reverse_cons, forcedFrom_concat, length_taken_cutting, Nat.zero_add]
    rfl
  show forcedFrom 0 (g.cutting budget (items ++ [item])).close.reverse = _
  rw [cutting_concat]
  unfold step
  split
  · next hc =>
    have hnil : items = [] := items_cutting_eq_nil_iff.1 (by simpa using hc)
    rw [hstart]
    simp [hnil]
  · next hc =>
    have hopen : (g.cutting budget items).items ≠ [] := by simpa using hc
    have hne : items ≠ [] := mt items_cutting_eq_nil_iff.2 hopen
    cases hj : g.joint budget (g.cutting budget items).state item with
    | joins =>
      -- the run at hand gets longer, and starts where it did
      have hplaces : g.forcedPlaces budget items =
          forcedFrom 0 (g.cutting budget items).close.reverse := rfl
      simp [hplaces, Cutting.close, hopen, forcedFrom_concat]
    | parts => simp [hstart]
    | forced => simp [hstart, hne]

theorem mem_forcedPlaces_iff {i : Nat} : i ∈ g.forcedPlaces budget items ↔
    ∃ item, items[i]? = some item ∧ i ≠ 0 ∧
      g.joint budget (g.cutting budget (items.take i)).state item = .forced := by
  induction items using List.reverseRecOn with
  | nil => simp [forcedPlaces, cut, Cutting.close, forcedFrom]
  | append_singleton items item ih =>
    rw [forcedPlaces_concat, List.mem_append, ih]
    rcases Nat.lt_trichotomy i items.length with hi | rfl | hi
    · have hne : i ≠ items.length := by omega
      have htake : (items ++ [item]).take i = items.take i :=
        List.take_append_of_le_length (Nat.le_of_lt hi)
      rw [List.getElem?_append_left hi, htake]
      simp [hne]
    · have hnil : items.length ≠ 0 ↔ items ≠ [] := by simp
      rw [List.take_left]
      simp [hnil]
    · have hne : i ≠ items.length := by omega
      have hnone : (items ++ [item])[i]? = none := by simp; omega
      have hnone' : items[i]? = none := by simp; omega
      simp [hnone, hnone', hne]

theorem joint_eq_forced_iff {s : σ} :
    g.joint budget s item = .forced ↔ item.2 = false ∧ g.fit s item.1 = .overlap := by
  unfold joint
  cases item.2 with
  | true => simp
  | false =>
    cases g.fit s item.1 with
    | size n => simp; split <;> simp
    | incompatible => simp
    | overlap => simp

/-! ## The open run -/

/-- The place of the first item of the run that is open when the `i`-th item comes. -/
def openFrom (g : Gauge ι σ) (budget : Budget) (items : List (ι × Bool)) (i : Nat) : Nat :=
  ((g.cut budget (items.take i)).dropLast.flatMap Run.items).length

theorem reverse_items_cutting (i : Nat) : (g.cutting budget (items.take i)).items.reverse =
    ((items.take i).map Prod.fst).drop (g.openFrom budget items i) := by
  unfold openFrom
  have hitems := g.items_cut budget (items.take i)
  by_cases hopen : (g.cutting budget (items.take i)).items = []
  · have hnil := items_cutting_eq_nil_iff.1 hopen
    rw [hopen, hnil]
    simp
  · have hcut : g.cut budget (items.take i) = (g.cutting budget (items.take i)).runs.reverse ++
        [⟨(g.cutting budget (items.take i)).items.reverse,
          (g.cutting budget (items.take i)).forced⟩] := by
      show (g.cutting budget (items.take i)).close.reverse = _
      simp [Cutting.close, hopen]
    rw [hcut, List.flatMap_append] at hitems
    rw [hcut, List.dropLast_concat, ← hitems, List.drop_left]
    simp

/-- The items of the open run are those from its first place on. -/
theorem mem_items_cutting_iff {i : Nat} {x : ι} :
    x ∈ (g.cutting budget (items.take i)).items ↔
      ∃ j, g.openFrom budget items i ≤ j ∧ j < i ∧ (items.map Prod.fst)[j]? = some x := by
  rw [← List.mem_reverse, reverse_items_cutting, List.map_take, List.mem_iff_getElem?]
  constructor
  · rintro ⟨k, hk⟩
    rw [List.getElem?_drop, List.getElem?_take] at hk
    split at hk
    · next hlt => exact ⟨_, Nat.le_add_right .., hlt, hk⟩
    · cases hk
  · rintro ⟨j, hle, hlt, hj⟩
    refine ⟨j - g.openFrom budget items i, ?_⟩
    rw [List.getElem?_drop, Nat.add_sub_cancel' hle, List.getElem?_take, if_pos hlt, hj]

end
end Gauge

/-! ## Overlapping pairs -/

/-- Whether two classes differ and share a glyph. -/
def GlyphSet.Overlaps (s t : GlyphSet) : Prop := s ≠ t ∧ ∃ g, g ∈ s ∧ g ∈ t

namespace Packing

/-- Whether two pairs are of classes that overlap on one side. -/
def PairItem.Overlaps : PairItem → PairItem → Prop
  | .classes first second _, .classes first' second' _ =>
    first.Overlaps first' ∨ second.Overlaps second'
  | _, _ => False

theorem accepts_sidePartition_iff {classes : List GlyphSet} {s : GlyphSet}
    (h : Accepted classes) :
    (sidePartition classes).accepts s = true ↔ ∀ c ∈ classes, ¬ c.Overlaps s := by
  have hvalid := valid_sidePartition classes
  rw [hvalid.accepts_iff_forall]
  constructor
  · rintro (hs | hs) c hc ⟨hne, g, hgc, hgs⟩
    · exact hne (hvalid.eq_of_mem c (h c hc) s hs g hgc hgs)
    · exact hs c (h c hc) g hgs hgc
  · intro hnone
    by_cases hs : s ∈ (sidePartition classes).classes
    · exact .inl hs
    · refine .inr fun c hc g hg hgc => hnone c (mem_of_mem_sidePartition hc) ⟨?_, g, hgc, hg⟩
      rintro rfl
      exact hs hc

/-- A pair overlaps a run exactly if it overlaps a pair of the run. -/
theorem PairLoad.fit_eq_overlap_iff {budget : Budget} {items : List PairItem} {state : PairLoad}
    (h : pairs.toGauge.Grown budget items state) (i : PairItem) :
    state.fit i = .overlap ↔ ∃ j ∈ items, j.Overlaps i := by
  have hrun := grown_pairs h
  cases state with
  | unknown => exact hrun.elim
  | glyphs load =>
    have hnone : ¬ ∃ j ∈ items, j.Overlaps i := by
      rintro ⟨j, hj, ho⟩
      obtain ⟨first, second, v, rfl⟩ := hrun.2 j hj
      exact ho
    cases i <;> simp [fit, hnone]
  | classes load =>
    obtain ⟨ps, -, rfl, hcoherent, hgauged⟩ := hrun
    cases i with
    | glyphs => simp [fit, ClassPair.item, PairItem.Overlaps]
    | classes first second v =>
      have hfirst := accepts_sidePartition_iff (s := first) hcoherent.firsts
      have hsecond := accepts_sidePartition_iff (s := second) hcoherent.seconds
      have hoverlap : (∃ j ∈ ps.map ClassPair.item, j.Overlaps (.classes first second v)) ↔
          ∃ p ∈ ps, p.first.Overlaps first ∨ p.second.Overlaps second := by
        simp [ClassPair.item, PairItem.Overlaps]
      show load.fit first second v = .overlap ↔ _
      rw [hoverlap]
      unfold ClassPairLoad.fit
      rw [hgauged.firsts, hgauged.seconds]
      split
      · next ha =>
        rw [Bool.and_eq_true, hfirst, hsecond] at ha
        simp only [reduceCtorEq, false_iff]
        rintro ⟨p, hp, ho | ho⟩
        · exact ha.1 _ (List.mem_map_of_mem hp) ho
        · exact ha.2 _ (List.mem_map_of_mem hp) ho
      · next ha =>
        simp only [true_iff]
        by_contra hnone
        simp only [not_exists, not_and, not_or] at hnone
        apply ha
        rw [Bool.and_eq_true, hfirst, hsecond]
        exact ⟨List.forall_mem_map.2 fun p hp => (hnone p hp).1,
          List.forall_mem_map.2 fun p hp => (hnone p hp).2⟩

/-! ## Rules of a pair lookup -/

/-- The places of the rules of a pair lookup that overlapping classes force to start a subtable. -/
def forcedRules (budget : Budget) (rules : List Rule) : List Nat :=
  pairs.forcedPlaces budget (itemsOf pairItem? rules)

/-- The place of the first rule in the subtable that is being filled when the `i`-th rule comes. -/
def filledFrom (budget : Budget) (rules : List Rule) (i : Nat) : Nat :=
  pairs.openFrom budget (itemsOf pairItem? rules) i

/-- The pair of the `i`-th rule. -/
def pairAt? (rules : List Rule) (i : Nat) : Option PairItem :=
  rules[i]?.bind fun r => pairItem? r.body

/-- Whether the classes of two rules overlap on one side. -/
def OverlapAt (rules : List Rule) (j i : Nat) : Prop :=
  ∃ p q, pairAt? rules j = some p ∧ pairAt? rules i = some q ∧ p.Overlaps q

section
variable {rules : List Rule}

/-- There are as many warnings as rules that are forced. -/
theorem forced_packLookup (budget : Budget) (marks : Option MarkSet) (places : LookupPlaces) :
    (packLookup .pairPos rules marks places budget).forced = (forcedRules budget rules).length :=
  (Gauge.length_forcedFrom 0 _).symm

theorem exists_pairItem? {body : RuleBody} (h : body.kind = .pairPos) :
    ∃ p, pairItem? body = some p := by
  cases body with
  | pairPos first value1 second value2 => cases first <;> cases second <;> exact ⟨_, rfl⟩
  | _ => cases h

/-- Each rule of a pair lookup is one item. -/
theorem getElem?_itemsOf (hrules : ∀ r ∈ rules, r.body.kind = .pairPos) (i : Nat) :
    (itemsOf pairItem? rules)[i]? =
      rules[i]?.bind fun r => (pairItem? r.body).map fun p => (p, r.breakBefore) := by
  induction rules generalizing i with
  | nil => rfl
  | cons r rules ih =>
    rw [List.forall_mem_cons] at hrules
    obtain ⟨p, hp⟩ := exists_pairItem? hrules.1
    have hitems : itemsOf pairItem? (r :: rules) =
        (p, r.breakBefore) :: itemsOf pairItem? rules := by
      simp [itemsOf, hp]
    rw [hitems]
    cases i with
    | zero => simp [hp]
    | succ i => simpa using ih hrules.2 i

theorem getElem?_map_itemsOf (hrules : ∀ r ∈ rules, r.body.kind = .pairPos) (i : Nat) :
    ((itemsOf pairItem? rules).map Prod.fst)[i]? = pairAt? rules i := by
  rw [List.getElem?_map, getElem?_itemsOf hrules, pairAt?]
  cases rules[i]? with
  | none => rfl
  | some r => cases hp : pairItem? r.body <;> simp [hp]

/-- A rule is forced to start a subtable exactly if no break precedes it, and a rule in the subtable
that is being filled overlaps it. -/
theorem mem_forcedRules_iff (hrules : ∀ r ∈ rules, r.body.kind = .pairPos) {budget : Budget}
    {i : Nat} : i ∈ forcedRules budget rules ↔
      (∃ r, rules[i]? = some r ∧ r.breakBefore = false) ∧
        ∃ j < i, OverlapAt rules j i ∧ filledFrom budget rules i ≤ j := by
  have hgrown (hi : i ≠ 0) {p : PairItem} {b : Bool}
      (hp : (itemsOf pairItem? rules)[i]? = some (p, b)) :
      pairs.toGauge.Grown budget
        (pairs.cutting budget ((itemsOf pairItem? rules).take i)).items.reverse
        (pairs.cutting budget ((itemsOf pairItem? rules).take i)).state := by
    apply Gauge.grown_cutting
    intro hnil
    have hlt := (List.getElem?_eq_some_iff.1 hp).1
    have hlength := congrArg List.length hnil
    rw [List.length_take, List.length_nil] at hlength
    omega
  unfold forcedRules
  rw [Gauge.mem_forcedPlaces_iff]
  constructor
  · rintro ⟨⟨p, b⟩, hp, hi, hforced⟩
    obtain ⟨hb, hfit⟩ := Gauge.joint_eq_forced_iff.1 hforced
    obtain ⟨q, hq, ho⟩ := (PairLoad.fit_eq_overlap_iff (hgrown hi hp) p).1 hfit
    rw [List.mem_reverse, Gauge.mem_items_cutting_iff] at hq
    obtain ⟨j, hle, hlt, hj⟩ := hq
    rw [getElem?_map_itemsOf hrules] at hj
    have hat : pairAt? rules i = some p := by
      rw [← getElem?_map_itemsOf hrules, List.getElem?_map, hp]
      rfl
    rw [getElem?_itemsOf hrules] at hp
    obtain ⟨r, hr, hp⟩ := Option.bind_eq_some_iff.1 hp
    obtain ⟨p', -, he⟩ := Option.map_eq_some_iff.1 hp
    cases he
    exact ⟨⟨r, hr, hb⟩, j, hlt, ⟨q, p, hj, hat, ho⟩, hle⟩
  · rintro ⟨⟨r, hr, hb⟩, j, hlt, ⟨q, p, hj, hat, ho⟩, hle⟩
    have hp : (itemsOf pairItem? rules)[i]? = some (p, false) := by
      rw [getElem?_itemsOf hrules, hr]
      unfold pairAt? at hat
      rw [hr] at hat
      have hbody : pairItem? r.body = some p := hat
      simp [hbody, hb]
    have hi : i ≠ 0 := by omega
    refine ⟨(p, false), hp, hi, Gauge.joint_eq_forced_iff.2 ⟨rfl, ?_⟩⟩
    refine (PairLoad.fit_eq_overlap_iff (hgrown hi hp) p).2 ⟨q, ?_, ho⟩
    rw [List.mem_reverse, Gauge.mem_items_cutting_iff]
    exact ⟨j, hle, hlt, by rw [getElem?_map_itemsOf hrules, hj]⟩

/-- **Forced splits.** Packing warns of as many rules as it forces to start a subtable. A rule is
forced exactly if no break precedes it and a rule in the subtable that is being filled overlaps it.
So a rule is forced under one budget and not under another exactly if no break precedes it, a rule
that overlaps it is in the subtable being filled under the one budget, and under the other budget
all rules before it that overlap it are in earlier subtables. -/
theorem forcedRules_iff (hrules : ∀ r ∈ rules, r.body.kind = .pairPos) (budget : Budget)
    (i : Nat) :
    (∀ marks places, (packLookup .pairPos rules marks places budget).forced =
      (forcedRules budget rules).length) ∧
    (i ∈ forcedRules budget rules ↔ (∃ r, rules[i]? = some r ∧ r.breakBefore = false) ∧
      ∃ j < i, OverlapAt rules j i ∧ filledFrom budget rules i ≤ j) ∧
    ∀ lower : Budget, (i ∈ forcedRules lower rules ∧ i ∉ forcedRules budget rules) ↔
      (∃ r, rules[i]? = some r ∧ r.breakBefore = false) ∧
        (∃ j < i, OverlapAt rules j i ∧ filledFrom lower rules i ≤ j) ∧
        ∀ j < i, OverlapAt rules j i → j < filledFrom budget rules i := by
  refine ⟨fun marks places => forced_packLookup budget marks places,
    mem_forcedRules_iff hrules, fun lower => ?_⟩
  rw [mem_forcedRules_iff hrules, mem_forcedRules_iff hrules]
  constructor
  · rintro ⟨⟨hbreak, hlower⟩, hnot⟩
    refine ⟨hbreak, hlower, fun j hj ho => ?_⟩
    by_contra hle
    exact hnot ⟨hbreak, j, hj, ho, by omega⟩
  · rintro ⟨hbreak, hlower, hearlier⟩
    refine ⟨⟨hbreak, hlower⟩, ?_⟩
    rintro ⟨-, j, hj, ho, hle⟩
    have hlt := hearlier j hj ho
    omega

end

/-- Four pairs of classes. The first class of the last one overlaps that of the second. -/
def distantOverlap : List Rule :=
  [kern (.set (.ofList [1, 3, 5, 7, 9, 11, 13, 15, 17, 19])) (.set (.ofList [41])) 10,
    kern (.set (.ofList [30])) (.set (.ofList [41])) 20,
    kern (.set (.ofList [32])) (.set (.ofList [41])) 30,
    kern (.set (.ofList [30, 31])) (.set (.ofList [41])) 40]

/-- With 128 bytes the first two pairs share a subtable, and so do the last two. With half of them
the second and the third pair share one, and the last pair is forced to start another. -/
theorem forcedRules_distantOverlap :
    (∀ r ∈ distantOverlap, r.body.kind = .pairPos) ∧
      (∃ j < 3, OverlapAt distantOverlap j 3 ∧ filledFrom (some 64) distantOverlap 3 ≤ j) ∧
      ∀ j < 3, OverlapAt distantOverlap j 3 → j < filledFrom (some 128) distantOverlap 3 := by
  have hrules : ∀ r ∈ distantOverlap, r.body.kind = .pairPos := by decide
  obtain ⟨-, -, hiff⟩ := forcedRules_iff hrules (some 128) 3
  have hforced : 3 ∈ forcedRules (some 64) distantOverlap ∧
      3 ∉ forcedRules (some 128) distantOverlap := by decide +kernel
  exact ⟨hrules, ((hiff (some 64)).1 hforced).2⟩

/-- Half the budget forces a rule that the whole budget does not force. -/
theorem forcedRules_half_distantOverlap :
    (distinctRules (pairLookup distantOverlap) ⟨none, none⟩).value = some distantOverlap ∧
      forcedRules (some 128) distantOverlap = [] ∧
      forcedRules (some (128 / 2 ^ 1)) distantOverlap = [3] := by
  refine ⟨?_, ?_, ?_⟩
  · rfl
  · decide +kernel
  · decide +kernel

end Packing
end FontLayout
