import FontLayout.Layout.Assembly
import FontLayout.Proofs.Diagnostic.Audits
import Mathlib.Algebra.Ring.Nat
/-!
# Attempts

When a table comes out, each of its lookups is packed under the budget that the options give,
halved some number of times: at first not at all, and every further attempt halves it again and
uses up one of the retries. The loop only exchanges one attempt at a time for a later one at the
same lookup, so this holds of all lookups throughout.

Results:
* `Attempt.Follows.resplit?_eq_find?`: splitting a lookup further is a search among all attempts
  it has left.
* `TableInput.encode_of_layOut`: what the loop comes to.
* `TableInput.encode_of_assemble`: a table that comes out is that of its lookups under such
  budgets.
-/
namespace FontLayout

/-! ## Halved budgets -/

/-- The budget of a lookup after `k` halvings; there is none without automatic splits. -/
def Options.budgetAfter (o : Options) (k : Nat) : Budget :=
  if o.autoSplit then some (o.budget / 2 ^ k) else none

theorem Options.budgetAfter_zero (o : Options) : o.budgetAfter 0 = o.initialBudget := by
  rw [budgetAfter, pow_zero, Nat.div_one, initialBudget]

theorem half_div_two_pow (budget j : Nat) : budget / 2 / 2 ^ j = budget / 2 ^ (j + 1) := by
  rw [Nat.div_div_eq_div_mul, pow_succ, Nat.mul_comm]

/-! ## The search for more subtables -/

/-- The attempts a lookup has left, each with half the budget of the one before. -/
def furtherAttempts (lookup : PreparedLookup) (places : LookupPlaces) :
    Nat → Nat → List Attempt
  | 0, _ => []
  | left + 1, budget =>
    ⟨lookup, (lookup.pack places (some (budget / 2))).subtables.map Subtable.table, budget / 2,
      left⟩ :: furtherAttempts lookup places left (budget / 2)

section
variable {lookup : PreparedLookup} {places : LookupPlaces} {count left budget : Nat}

theorem mem_furtherAttempts_iff {a : Attempt} : a ∈ furtherAttempts lookup places left budget ↔
    ∃ j, 0 < j ∧ j ≤ left ∧ a = ⟨lookup,
      (lookup.pack places (some (budget / 2 ^ j))).subtables.map Subtable.table,
      budget / 2 ^ j, left - j⟩ := by
  induction left generalizing budget with
  | zero =>
    refine ⟨fun h => (nomatch h), ?_⟩
    rintro ⟨j, hpos, hj, -⟩
    omega
  | succ left ih =>
    rw [furtherAttempts, List.mem_cons, ih]
    constructor
    · rintro (rfl | ⟨j, hpos, hj, rfl⟩)
      · exact ⟨1, by omega, by omega, by rw [pow_one, Nat.add_sub_cancel]⟩
      · exact ⟨j + 1, by omega, by omega, by rw [half_div_two_pow, Nat.add_sub_add_right]⟩
    · rintro ⟨j, hpos, hj, rfl⟩
      match j, hpos with
      | 1, _ => exact .inl (by rw [pow_one, Nat.add_sub_cancel])
      | j + 2, _ =>
        exact .inr ⟨j + 1, by omega, by omega, by rw [half_div_two_pow, Nat.add_sub_add_right]⟩

/-- Packing at zero repeats itself. -/
theorem furtherAttempts_zero
    (hcount : (lookup.pack places (some 0)).subtables.length ≤ count) :
    (furtherAttempts lookup places left 0).find? (fun b => count < b.subtables.length) = none := by
  induction left with
  | zero => rfl
  | succ left ih =>
    have hfew : ¬ count < (lookup.pack places (some (0 / 2))).subtables.length :=
      Nat.not_lt.2 hcount
    rw [furtherAttempts, List.find?_cons_of_neg, ih]
    simpa using hfew

/-- Splitting a lookup further tries all attempts that are left, in order. That the search ends at
a budget of zero is no matter, if there are as many subtables as the last budget gave. -/
theorem resplit_eq_find?
    (hcount : (lookup.pack places (some budget)).subtables.length ≤ count) :
    resplit lookup places count left budget =
      (furtherAttempts lookup places left budget).find? fun b => count < b.subtables.length := by
  induction left generalizing budget with
  | zero => rfl
  | succ left ih =>
    rw [resplit]
    split
    · next hzero =>
      subst hzero
      rw [furtherAttempts_zero hcount]
    · dsimp only
      rw [furtherAttempts]
      split
      · next hmore =>
        rw [List.find?_cons_of_pos]
        simpa using hmore
      · next hfew =>
        rw [List.find?_cons_of_neg, ih (Nat.not_lt.1 hfew)]
        simpa using hfew

end

/-! ## Attempts at a lookup -/

/-- An attempt at a lookup that has halved the budget `k` times. -/
structure Attempt.Follows (a : Attempt) (t : TableInput) (o : Options) (l : PreparedLookup)
    (k : Nat) : Prop where
  lookup : a.lookup = l
  subtables : a.subtables = (l.pack t.places (o.budgetAfter k)).subtables.map Subtable.table
  budget : a.budget = o.budget / 2 ^ k
  left : a.left + k = o.retries
  unsplit : o.autoSplit = false → k = 0

section
variable {t : TableInput} {o : Options}

theorem TableInput.follows_firstAttempt {l : PreparedLookup} {a : Attempt}
    (h : (t.firstAttempt o l).value = some a) : a.Follows t o l 0 := by
  cases h
  exact ⟨rfl, by rw [o.budgetAfter_zero], by rw [pow_zero, Nat.div_one], rfl, fun _ => rfl⟩

namespace Attempt.Follows
variable {a b : Attempt} {l : PreparedLookup} {k : Nat}

theorem length_pack (h : a.Follows t o l k) (hsplit : o.autoSplit = true) :
    (a.lookup.pack t.places (some a.budget)).subtables.length = a.subtables.length := by
  rw [h.subtables, h.lookup, h.budget, List.length_map, Options.budgetAfter, if_pos hsplit]

/-- At every state of the loop, splitting a lookup further is a search among all attempts that it
has left. -/
theorem resplit?_eq_find? (h : a.Follows t o l k) (hsplit : o.autoSplit = true) :
    a.resplit? t.places = (furtherAttempts a.lookup t.places a.left a.budget).find?
      fun b => a.subtables.length < b.subtables.length :=
  resplit_eq_find? (Nat.le_of_eq (h.length_pack hsplit))

/-- What splits a lookup further has halved the budget at least once more. -/
theorem resplit (h : a.Follows t o l k) (hsplit : o.autoSplit = true)
    (hb : a.resplit? t.places = some b) : ∃ k', b.Follows t o l k' := by
  rw [h.resplit?_eq_find? hsplit] at hb
  obtain ⟨j, -, hj, rfl⟩ := mem_furtherAttempts_iff.1 (List.mem_of_find?_eq_some hb)
  have hbudget : a.budget / 2 ^ j = o.budget / 2 ^ (k + j) := by
    rw [h.budget, Nat.div_div_eq_div_mul, pow_add]
  have hleft : a.left - j + (k + j) = o.retries := by
    rw [← h.left]
    omega
  refine ⟨k + j, h.lookup, ?_, hbudget, hleft, fun hoff => ?_⟩
  · rw [h.lookup, hbudget, Options.budgetAfter, if_pos hsplit]
  · rw [hsplit] at hoff
    cases hoff

end Attempt.Follows

namespace TableInput

/-- The state of the loop: one attempt at each lookup. -/
def Attempting (t : TableInput) (o : Options) (as : List Attempt) : Prop :=
  List.Forall₂ (fun l a => ∃ k, a.Follows t o l k) t.lookups as

/-- One step of the loop exchanges an attempt for a later one at the same lookup. -/
theorem Attempting.set {as : List Attempt} (h : t.Attempting o as) (hsplit : o.autoSplit = true)
    {i : Nat} {a b : Attempt} (ha : as[i]? = some a) (hb : a.resplit? t.places = some b) :
    t.Attempting o (as.set i b) := by
  unfold Attempting at h ⊢
  generalize t.lookups = lookups at h
  induction h generalizing i with
  | nil => cases ha
  | @cons l a' lookups as hfollows hrest ih =>
    cases i with
    | zero =>
      obtain rfl : a' = a := Option.some.inj ha
      obtain ⟨k, hk⟩ := hfollows
      exact .cons (hk.resplit hsplit hb) hrest
    | succ i => exact .cons hfollows (ih ha)

/-- What the loop comes to: the bytes of a layout of one attempt at each lookup. -/
theorem encode_of_layOut {scripts : ScriptList} {features : FeatureList} {as : List Attempt}
    {bytes : ByteArray} (h : t.Attempting o as)
    (hbytes : (t.layOut o scripts features as).value = some bytes) :
    ∃ as', t.Attempting o as' ∧ (t.layout o scripts features as').encode = .ok bytes := by
  fun_induction layOut t o scripts features as with
  | case1 as out hout =>
    cases hbytes
    exact ⟨as, h, hout⟩
  | case6 as overflow _ i _ a ha hmay b hb ih =>
    refine ih (h.set ?_ ha hb) hbytes
    cases hsplit : o.autoSplit with
    | true => rfl
    | false => simp [hsplit] at hmay
  | _ => cases hbytes

/-- A layout that can be encoded is not made again. -/
theorem layOut_of_encode {scripts : ScriptList} {features : FeatureList} {as : List Attempt}
    {bytes : ByteArray} (h : (t.layout o scripts features as).encode = .ok bytes) :
    t.layOut o scripts features as = .pure bytes := by
  rw [layOut]
  split
  · next out hout =>
    rw [h] at hout
    cases hout
    rfl
  · next hout =>
    rw [h] at hout
    cases hout

/-! ## Whole tables -/

/-- The lookups of a table with their subtables, if their budgets are halved as often as told. -/
def packedAfter (t : TableInput) (o : Options) (halvings : List Nat) :
    List (PreparedLookup × List Subtable) :=
  List.zipWith (fun l k => (l, (l.pack t.places (o.budgetAfter k)).subtables)) t.lookups halvings

/-- The tree of a table whose lookups have these subtables. -/
def treeOf (t : TableInput) (o : Options) (packed : List (PreparedLookup × List Subtable)) :
    Table :=
  let registrations := Registrations.ofFeatures t.features t.places
  let extension := if o.extension then some t.purpose.extensionType else none
  layoutTable registrations.scriptList registrations.featureList
    (packed.map fun x => (x.1.record (x.2.map Subtable.table)).table extension)

/-- Numbers of halvings that the options allow, one for each lookup. -/
structure Allows (t : TableInput) (o : Options) (halvings : List Nat) : Prop where
  length_eq : halvings.length = t.lookups.length
  le_retries : ∀ k ∈ halvings, k ≤ o.retries
  unsplit : o.autoSplit = false → ∀ k ∈ halvings, k = 0

/-- Attempts at lookups, the budgets of which have been halved as often as told. -/
inductive AllFollow (t : TableInput) (o : Options) :
    List PreparedLookup → List Nat → List Attempt → Prop
  | nil : AllFollow t o [] [] []
  | cons {l : PreparedLookup} {k : Nat} {a : Attempt} {lookups : List PreparedLookup}
      {halvings : List Nat} {as : List Attempt} (head : a.Follows t o l k)
      (tail : AllFollow t o lookups halvings as) :
      AllFollow t o (l :: lookups) (k :: halvings) (a :: as)

theorem Attempting.exists_follow {as : List Attempt} (h : t.Attempting o as) :
    ∃ halvings, t.AllFollow o t.lookups halvings as := by
  unfold Attempting at h
  generalize t.lookups = lookups at h ⊢
  induction h with
  | nil => exact ⟨[], .nil⟩
  | cons hfollows _ ih =>
    obtain ⟨k, hk⟩ := hfollows
    obtain ⟨ks, hks⟩ := ih
    exact ⟨k :: ks, .cons hk hks⟩

section
variable {lookups : List PreparedLookup} {halvings : List Nat} {as : List Attempt}

theorem AllFollow.length_eq (h : t.AllFollow o lookups halvings as) :
    halvings.length = lookups.length := by
  induction h with
  | nil => rfl
  | cons _ _ ih => exact congrArg (· + 1) ih

theorem AllFollow.le_retries (h : t.AllFollow o lookups halvings as) :
    ∀ k ∈ halvings, k ≤ o.retries ∧ (o.autoSplit = false → k = 0) := by
  induction h with
  | nil => simp
  | cons hk _ ih =>
    have hleft := hk.left
    exact List.forall_mem_cons.2 ⟨⟨by omega, hk.unsplit⟩, ih⟩

theorem AllFollow.allows (h : t.AllFollow o t.lookups halvings as) : t.Allows o halvings :=
  ⟨h.length_eq, fun k hk => (h.le_retries k hk).1, fun hoff k hk => (h.le_retries k hk).2 hoff⟩

theorem AllFollow.getElem? (h : t.AllFollow o lookups halvings as) {i : Nat} {a : Attempt}
    (ha : as[i]? = some a) :
    ∃ l k, lookups[i]? = some l ∧ halvings[i]? = some k ∧ a.Follows t o l k := by
  induction h generalizing i with
  | nil => cases ha
  | cons hk _ ih =>
    cases i with
    | zero =>
      obtain rfl := Option.some.inj ha
      exact ⟨_, _, rfl, rfl, hk⟩
    | succ i => exact ih ha

theorem Attempting.exists_follows (h : t.Attempting o as) {i : Nat} {a : Attempt}
    (ha : as[i]? = some a) : ∃ l k, a.Follows t o l k := by
  obtain ⟨halvings, hfollow⟩ := h.exists_follow
  obtain ⟨l, k, -, -, hk⟩ := hfollow.getElem? ha
  exact ⟨l, k, hk⟩

/-- Each lookup has the subtables that it is packed into under its halved budget. -/
theorem AllFollow.packed (h : t.AllFollow o t.lookups halvings as) :
    as.map (fun a => (a.lookup, a.subtables)) =
      (t.packedAfter o halvings).map fun x => (x.1, x.2.map Subtable.table) := by
  unfold packedAfter
  generalize t.lookups = lookups at h ⊢
  induction h with
  | nil => rfl
  | cons hk _ ih =>
    rw [List.map_cons, ih, List.zipWith_cons_cons, List.map_cons, hk.lookup, hk.subtables]

/-- The layout of such attempts is that of the lookups under their halved budgets, whatever other
options it is made with. -/
theorem AllFollow.layout_eq (h : t.AllFollow o t.lookups halvings as) (o' : Options) :
    t.layout o' (Registrations.ofFeatures t.features t.places).scriptList
        (Registrations.ofFeatures t.features t.places).featureList as =
      t.treeOf o' (t.packedAfter o halvings) := by
  have htables (extension : Option UInt16) :=
    congrArg (List.map fun x => (PreparedLookup.record x.1 x.2).table extension) h.packed
  simp only [List.map_map, Function.comp_def] at htables
  rw [treeOf, ← htables]
  rfl

end

/-- **Layout of a table.** A table that comes out is that of its lookups, each packed under the
budget that the options give, halved no more often than they allow. -/
theorem encode_of_assemble {bytes : ByteArray} (h : (t.assemble o).value = some bytes) :
    ∃ halvings, t.Allows o halvings ∧
      (t.treeOf o (t.packedAfter o halvings)).encode = .ok bytes := by
  obtain ⟨as, has, hbytes⟩ := Audit.value_bind_eq_some.1 h
  have hfirst : t.Attempting o as :=
    (Audit.forall₂_of_traverse has).imp fun _ _ ha => ⟨0, follows_firstAttempt ha⟩
  obtain ⟨as', has', hencode⟩ := encode_of_layOut hfirst hbytes
  obtain ⟨halvings, hfollow⟩ := has'.exists_follow
  exact ⟨halvings, hfollow.allows, by rw [← hfollow.layout_eq o, hencode]⟩

/-- If the first layout can be encoded, it is what comes out, with the findings of the first
packings. -/
theorem assemble_of_encode {findings : List Finding} {as : List Attempt} {bytes : ByteArray}
    (hfirst : Audit.traverse (t.firstAttempt o) t.lookups = ⟨findings, some as⟩)
    (h : (t.layout o (Registrations.ofFeatures t.features t.places).scriptList
      (Registrations.ofFeatures t.features t.places).featureList as).encode = .ok bytes) :
    t.assemble o = ⟨findings, some bytes⟩ := by
  change Audit.bind _ _ = _
  rw [Audit.bind, hfirst]
  dsimp only
  rw [layOut_of_encode h, Audit.pure, List.append_nil]

end TableInput
end
end FontLayout
