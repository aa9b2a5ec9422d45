import FontLayout.Proofs.Layout.Attempts
import FontLayout.Proofs.Layout.Owners
/-!
# How often a table is laid out

A table is laid out until it can be encoded or until an overflow cannot be mended, and between two
layouts one lookup is split further. `Layouts` says this as a relation that counts the layouts,
and says why each one was not the last. The attempts that are left bound the count; the budgets,
the subtables and the attempts left of a lookup may drift apart while it is split, but agree again
at every layout.

Results:
* `TableInput.layouts_layOut`: what the loop does, and how often it goes round.
* `TableInput.Layouts.ends`: how the loop can end.
* `TableInput.assemble_layouts`: what assembling a table comes to.
-/
namespace FontLayout

/-! ## Attempts in vain -/

/-- Whether a lookup whose budget has been halved `k` times has used all its retries in vain: all
further halvings that the options allow give no more subtables. -/
def PreparedLookup.Spent (l : PreparedLookup) (places : LookupPlaces) (o : Options) (k : Nat) :
    Prop :=
  ∀ j, k ≤ j → j ≤ o.retries → (l.pack places (o.budgetAfter j)).subtables.length ≤
    (l.pack places (o.budgetAfter k)).subtables.length

section
variable {t : TableInput} {o : Options}

theorem Attempt.Follows.spent {a : Attempt} {l : PreparedLookup} {k : Nat}
    (h : a.Follows t o l k) (hsplit : o.autoSplit = true) (hnone : a.resplit? t.places = none) :
    l.Spent t.places o k := by
  intro j hk hj
  have hcount : a.subtables.length = (l.pack t.places (o.budgetAfter k)).subtables.length := by
    rw [h.subtables, List.length_map]
  have hleft := h.left
  have hbudget : a.budget / 2 ^ (j - k) = o.budget / 2 ^ j := by
    rw [h.budget, Nat.div_div_eq_div_mul, ← pow_add, Nat.add_sub_cancel' hk]
  rcases Nat.eq_or_lt_of_le hk with rfl | hlt
  · exact Nat.le_refl _
  · rw [h.resplit?_eq_find? hsplit, List.find?_eq_none] at hnone
    have hvain := hnone _ (mem_furtherAttempts_iff.2 ⟨j - k, by omega, by omega, rfl⟩)
    rw [decide_eq_true_eq, Nat.not_lt, List.length_map, hcount, h.lookup, hbudget] at hvain
    rwa [Options.budgetAfter, if_pos hsplit]

namespace TableInput

theorem Attempting.allNear {as : List Attempt} (h : t.Attempting o as) :
    ∀ a ∈ as, ∀ s ∈ a.subtables, s.AllNear := by
  unfold Attempting at h
  generalize t.lookups = lookups at h
  induction h with
  | nil => simp
  | cons hfollows _ ih =>
    obtain ⟨k, hk⟩ := hfollows
    refine List.forall_mem_cons.2 ⟨?_, ih⟩
    rw [hk.subtables]
    exact List.forall_mem_map.2 fun s _ => s.allNear_table

/-! ## Counting layouts -/

/-- Laying a table out `n` times, from some attempts at its lookups on, comes to an end. Only an
overflow inside the subtables of a lookup that can be split further is not the end. -/
inductive Layouts (t : TableInput) (o : Options) (scripts : ScriptList) (features : FeatureList) :
    List Attempt → Nat → Audit ByteArray → Prop
  | written {as : List Attempt} {bytes : ByteArray}
      (h : (t.layout o scripts features as).encode = .ok bytes) :
      Layouts t o scripts features as 1 (.pure bytes)
  | outside {as : List Attempt} {overflow : Overflow}
      (h : (t.layout o scripts features as).encode = .error overflow)
      (hlookup : overflow.lookup = none) :
      Layouts t o scripts features as 1 (.stop (t.tableFinding overflow))
  | inside {as : List Attempt} {overflow : Overflow} {i : Nat} {a : Attempt}
      (h : (t.layout o scripts features as).encode = .error overflow)
      (hlookup : overflow.lookup = some i) (ha : as[i]? = some a)
      (hend : o.autoSplit = false ∨ overflow.target = .subtable ∨
        (o.autoSplit = true ∧ a.resplit? t.places = none)) :
      Layouts t o scripts features as 1 (.stop (lookupFinding a.lookup overflow))
  | again {as : List Attempt} {overflow : Overflow} {i n : Nat} {a b : Attempt}
      {r : Audit ByteArray}
      (h : (t.layout o scripts features as).encode = .error overflow)
      (hlookup : overflow.lookup = some i) (ha : as[i]? = some a) (hsplit : o.autoSplit = true)
      (htarget : overflow.target ≠ .subtable) (hb : a.resplit? t.places = some b)
      (hrest : Layouts t o scripts features (as.set i b) n r) :
      Layouts t o scripts features as (n + 1) r

variable {scripts : ScriptList} {features : FeatureList} {as : List Attempt}

/-- What the loop does. Each layout but the last uses up one of the attempts that are left. -/
theorem layouts_layOut (scripts : ScriptList) (features : FeatureList)
    (has : t.Attempting o as) :
    ∃ n ≤ attemptsLeft as + 1,
      t.Layouts o scripts features as n (t.layOut o scripts features as) := by
  fun_induction layOut t o scripts features as with
  | case1 as bytes h => exact ⟨1, by omega, .written h⟩
  | case2 as overflow h hlookup => exact ⟨1, by omega, .outside h hlookup⟩
  | case3 as overflow h i hlookup hnone =>
    -- an overflow belongs to a lookup that there is
    have hlt := (of_overflow?_layout has.allNear (Table.encode_eq_error_iff.1 h) hlookup).1
    rw [List.getElem?_eq_none_iff] at hnone
    omega
  | case4 as overflow h i hlookup a ha hend =>
    refine ⟨1, by omega, .inside h hlookup ha ?_⟩
    rw [Bool.or_eq_true, Bool.not_eq_true', beq_iff_eq] at hend
    exact hend.imp_right .inl
  | case5 as overflow h i hlookup a ha hmay hnone =>
    simp only [Bool.or_eq_true, Bool.not_eq_true', beq_iff_eq, not_or, Bool.not_eq_false] at hmay
    exact ⟨1, by omega, .inside h hlookup ha (.inr (.inr ⟨hmay.1, hnone⟩))⟩
  | case6 as overflow h i hlookup a ha hmay b hb ih =>
    simp only [Bool.or_eq_true, Bool.not_eq_true', beq_iff_eq, not_or, Bool.not_eq_false] at hmay
    obtain ⟨n, hn, hrest⟩ := ih (has.set hmay.1 ha hb)
    have hless := attemptsLeft_set_lt ha (Attempt.left_lt_of_resplit hb)
    exact ⟨n + 1, by omega, .again h hlookup ha hmay.1 hmay.2 hb hrest⟩

/-- What the relation says of the loop is what the loop does. -/
theorem Layouts.layOut_eq {n : Nat} {r : Audit ByteArray}
    (h : t.Layouts o scripts features as n r) : t.layOut o scripts features as = r := by
  induction h with
  | written hencode => exact layOut_of_encode hencode
  | outside hencode hlookup =>
    rw [layOut]
    simp only [hencode, hlookup]
  | inside hencode hlookup ha hend =>
    rw [layOut]
    simp only [hencode, hlookup]
    split
    · next hnone => simp [ha] at hnone
    · next a' ha' =>
      cases ha.symm.trans ha'
      split
      · rfl
      · next hmay =>
        simp only [Bool.or_eq_true, Bool.not_eq_true', beq_iff_eq, not_or] at hmay
        obtain hoff | htarget | hspent := hend
        · exact absurd hoff hmay.1
        · exact absurd htarget hmay.2
        · split
          · rfl
          · next hb =>
            rw [hspent.2] at hb
            cases hb
  | again hencode hlookup ha hsplit htarget hb _ ih =>
    rw [layOut]
    simp only [hencode, hlookup]
    split
    · next hnone => simp [ha] at hnone
    · next a' ha' =>
      cases ha.symm.trans ha'
      rw [if_neg (by simp [hsplit, htarget])]
      split
      · next hnone =>
        rw [hb] at hnone
        cases hnone
      · next hb' =>
        cases hb.symm.trans hb'
        exact ih

/-- Why an overflow is the end, and how it is reported, where the budgets of the lookups have
been halved as often as told: it belongs to no lookup, or lookups are not split, or it leads to a
subtable, or its lookup has used all its retries. -/
def Ends (t : TableInput) (o : Options) (halvings : List Nat) (overflow : Overflow)
    (finding : Finding) : Prop :=
  (overflow.lookup = none ∧ finding = t.tableFinding overflow) ∨
    ∃ i l k, overflow.lookup = some i ∧ t.lookups[i]? = some l ∧ halvings[i]? = some k ∧
      finding = lookupFinding l overflow ∧
      (o.autoSplit = false ∨ overflow.target = .subtable ∨ l.Spent t.places o k)

/-- How the loop can end: at one attempt at each lookup, with the bytes of their layout or with a
fatal finding for its first overflow. -/
theorem Layouts.ends {n : Nat} {r : Audit ByteArray} (h : t.Layouts o scripts features as n r)
    (has : t.Attempting o as) :
    ∃ as' halvings, t.AllFollow o t.lookups halvings as' ∧
      ((∃ bytes, (t.layout o scripts features as').encode = .ok bytes ∧ r = .pure bytes) ∨
        ∃ overflow finding, (t.layout o scripts features as').encode = .error overflow ∧
          r = .stop finding ∧ t.Ends o halvings overflow finding) := by
  induction h with
  | @written as bytes h =>
    obtain ⟨ks, hks⟩ := has.exists_follow
    exact ⟨as, ks, hks, .inl ⟨bytes, h, rfl⟩⟩
  | @outside as overflow h hlookup =>
    obtain ⟨ks, hks⟩ := has.exists_follow
    exact ⟨as, ks, hks, .inr ⟨overflow, _, h, rfl, .inl ⟨hlookup, rfl⟩⟩⟩
  | @inside as overflow i a h hlookup ha hend =>
    obtain ⟨ks, hks⟩ := has.exists_follow
    obtain ⟨l, k, hl, hk, hfollows⟩ := hks.getElem? ha
    refine ⟨as, ks, hks, .inr ⟨overflow, _, h, rfl, ?_⟩⟩
    refine .inr ⟨i, l, k, hlookup, hl, hk, by rw [hfollows.lookup], ?_⟩
    exact hend.imp_right fun hend => hend.imp_right fun hspent =>
      hfollows.spent hspent.1 hspent.2
  | again _ _ ha hsplit _ hb _ ih => exact ih (has.set hsplit ha hb)

/-! ## Whole tables -/

/-- What the first packings warn about: classes that overlap and force a subtable. -/
def overlapWarnings (t : TableInput) (o : Options) : List Finding :=
  t.lookups.flatMap fun l =>
    List.replicate (l.pack t.places o.initialBudget).forced ⟨l.place.site, .forcedSplit l.place⟩

/-- The first attempts: each lookup is packed under the whole budget, and all retries are left. -/
def firstAttempts (t : TableInput) (o : Options) : List Attempt :=
  t.lookups.map fun l =>
    ⟨l, (l.pack t.places o.initialBudget).subtables.map Subtable.table, o.budget, o.retries⟩

end TableInput

theorem Audit.traverse_tell {α β : Type} (f : α → List Finding) (g : α → β) (xs : List α) :
    Audit.traverse (fun x => .tell (f x) (g x)) xs = ⟨xs.flatMap f, some (xs.map g)⟩ := by
  suffices ∀ done found, Audit.traverseLoop (fun x => .tell (f x) (g x)) xs done found =
      ⟨found.reverse.flatten ++ xs.flatMap f, some (done.reverse ++ xs.map g)⟩ from this [] []
  induction xs with
  | nil => simp [Audit.traverseLoop]
  | cons x xs ih =>
    intro done found
    refine (ih (g x :: done) (f x :: found)).trans ?_
    simp

namespace TableInput

theorem traverse_firstAttempt (t : TableInput) (o : Options) :
    Audit.traverse (t.firstAttempt o) t.lookups =
      ⟨t.overlapWarnings o, some (t.firstAttempts o)⟩ := Audit.traverse_tell ..

theorem attempting_firstAttempts (t : TableInput) (o : Options) :
    t.Attempting o (t.firstAttempts o) := by
  have hall := Audit.forall₂_of_traverse (congrArg Audit.value (t.traverse_firstAttempt o))
  exact hall.imp fun _ _ ha => ⟨0, follows_firstAttempt ha⟩

theorem attemptsLeft_firstAttempts (t : TableInput) (o : Options) :
    attemptsLeft (t.firstAttempts o) = t.lookups.length * o.retries := by
  rw [firstAttempts]
  induction t.lookups with
  | nil => rw [List.map_nil, attemptsLeft, List.length_nil, Nat.zero_mul]
  | cons l lookups ih =>
    rw [List.map_cons, attemptsLeft, ih, List.length_cons, Nat.succ_mul, Nat.add_comm]

theorem assemble_eq (t : TableInput) (o : Options) :
    t.assemble o =
      let r := t.layOut o (Registrations.ofFeatures t.features t.places).scriptList
        (Registrations.ofFeatures t.features t.places).featureList (t.firstAttempts o)
      ⟨t.overlapWarnings o ++ r.findings, r.value⟩ := by
  change Audit.bind _ _ = _
  rw [Audit.bind, traverse_firstAttempt]

/-- **Assembling a table.** The table is laid out at most once more than its lookups have retries
in all. It comes out as the encoded layout of its lists and of its lookups, each packed under the
budget of the options, halved no more often than they allow; or there is one fatal finding at the
end, for the first overflow of such a layout, and this could not be mended. All else that is found
are the warnings of the first packings. -/
theorem assemble_layouts (t : TableInput) (o : Options) :
    (∀ w ∈ t.overlapWarnings o, w.level = .warning) ∧
    ∃ n ≤ t.lookups.length * o.retries + 1, ∃ r : Audit ByteArray,
      t.Layouts o (Registrations.ofFeatures t.features t.places).scriptList
        (Registrations.ofFeatures t.features t.places).featureList (t.firstAttempts o) n r ∧
      t.assemble o = ⟨t.overlapWarnings o ++ r.findings, r.value⟩ ∧
      ∃ halvings, t.Allows o halvings ∧
        ((∃ bytes, (t.treeOf o (t.packedAfter o halvings)).encode = .ok bytes ∧ r = .pure bytes) ∨
          ∃ overflow finding,
            (t.treeOf o (t.packedAfter o halvings)).encode = .error overflow ∧
              r = .stop finding ∧ finding.level = .fatal ∧ t.Ends o halvings overflow finding) := by
  refine ⟨fun w hw => ?_, ?_⟩
  · obtain ⟨l, -, hw⟩ := List.mem_flatMap.1 hw
    rw [List.eq_of_mem_replicate hw]
    rfl
  have has := t.attempting_firstAttempts o
  obtain ⟨n, hn, hlayouts⟩ := layouts_layOut
    (Registrations.ofFeatures t.features t.places).scriptList
    (Registrations.ofFeatures t.features t.places).featureList has
  rw [attemptsLeft_firstAttempts] at hn
  obtain ⟨as, halvings, hfollow, hend⟩ := hlayouts.ends has
  refine ⟨n, hn, _, hlayouts, t.assemble_eq o, halvings, hfollow.allows, ?_⟩
  rw [hfollow.layout_eq o] at hend
  refine hend.imp_right ?_
  rintro ⟨overflow, finding, hencode, hstop, hends⟩
  refine ⟨overflow, finding, hencode, hstop, ?_, hends⟩
  rcases hends with ⟨-, rfl⟩ | ⟨_, _, _, -, -, -, rfl, -⟩ <;> rfl

end TableInput
end
end FontLayout
