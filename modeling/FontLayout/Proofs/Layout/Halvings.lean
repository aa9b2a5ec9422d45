import FontLayout.Proofs.Layout.Retries
import FontLayout.Proofs.Outcomes
/-!
# Retries without effect

A budget can be halved as often as it has binary digits before it is zero, and then packing gives
the same subtables again, which are not more than there are. So two runs whose lookups may all
halve their budgets down to zero do the same, however many more retries either of them has: at
each layout their attempts differ in nothing but the retries left.

Results:
* `find?_furtherAttempts_agree`: beyond zero, further attempts add nothing to the search.
* `TableInput.Layouts.of_agree`: a run of the loop is a run on all attempts that agree.
* `TableInput.assemble_retries`: 64 retries are as good as any more.
* `TableInput.isSome_assemble_twoSequences`: a table that takes two retries.
-/
namespace FontLayout

/-! ## Attempts that agree -/

section
variable {lookup : PreparedLookup} {places : LookupPlaces} {count left left' budget : Nat}

/-- Whether two attempts differ in nothing but the retries left, and both may halve their budget
until it is zero. -/
structure Attempt.Agrees (a b : Attempt) : Prop where
  lookup : a.lookup = b.lookup
  subtables : a.subtables = b.subtables
  budget : a.budget = b.budget
  lt_left : a.budget < 2 ^ a.left
  lt_right : b.budget < 2 ^ b.left

theorem half_lt_two_pow (h : budget < 2 ^ (left + 1)) : budget / 2 < 2 ^ left := by
  rw [pow_succ] at h
  omega

/-- If a budget can be halved down to zero, it does not matter how many more attempts there are. -/
theorem find?_furtherAttempts_agree
    (hcount : (lookup.pack places (some budget)).subtables.length ≤ count)
    (h : budget < 2 ^ left) (h' : budget < 2 ^ left') :
    Option.Rel Attempt.Agrees
      ((furtherAttempts lookup places left budget).find? fun b => count < b.subtables.length)
      ((furtherAttempts lookup places left' budget).find? fun b => count < b.subtables.length) := by
  -- the induction is on one search; where it ends, what the other has left is packing at zero
  induction left generalizing budget left' with
  | zero =>
    obtain rfl : budget = 0 := by simpa using h
    rw [furtherAttempts_zero hcount, furtherAttempts_zero hcount]
    exact .none
  | succ left ih =>
    cases left' with
    | zero =>
      obtain rfl : budget = 0 := by simpa using h'
      rw [furtherAttempts_zero hcount, furtherAttempts_zero hcount]
      exact .none
    | succ left' =>
      have hhalf := half_lt_two_pow h
      have hhalf' := half_lt_two_pow h'
      rw [furtherAttempts, furtherAttempts]
      by_cases hmore : count < (lookup.pack places (some (budget / 2))).subtables.length
      · rw [List.find?_cons_of_pos, List.find?_cons_of_pos]
        · exact .some ⟨rfl, rfl, rfl, hhalf, hhalf'⟩
        all_goals simpa using hmore
      · rw [List.find?_cons_of_neg, List.find?_cons_of_neg]
        · exact ih (Nat.not_lt.1 hmore) hhalf hhalf'
        all_goals simpa using hmore

end

section
variable {α β : Type} {R : α → β → Prop} {a : α} {y : Option β}

theorem eq_none_of_rel (h : Option.Rel R none y) : y = none := by
  cases h
  rfl

theorem exists_of_rel (h : Option.Rel R (some a) y) : ∃ b, y = some b ∧ R a b := by
  cases h with
  | some hab => exact ⟨_, rfl, hab⟩

end

section
variable {t : TableInput} {o o' : Options} {scripts : ScriptList} {features : FeatureList}
  {as bs : List Attempt} {a b a' b' : Attempt} {i : Nat}

/-- Attempts of two runs that agree are split further in the same way, or not at all. -/
theorem Attempt.Agrees.resplit? {l l' : PreparedLookup} {k k' : Nat} (h : a.Agrees b)
    (ha : a.Follows t o l k) (hb : b.Follows t o' l' k') (hsplit : o.autoSplit = true)
    (hsplit' : o'.autoSplit = true) :
    Option.Rel Attempt.Agrees (a.resplit? t.places) (b.resplit? t.places) := by
  have hcount := Nat.le_of_eq (ha.length_pack hsplit)
  have hright := h.lt_right
  rw [ha.resplit?_eq_find? hsplit, hb.resplit?_eq_find? hsplit', ← h.lookup, ← h.subtables,
    ← h.budget]
  rw [← h.budget] at hright
  exact find?_furtherAttempts_agree hcount h.lt_left hright

/-! ## Runs that agree -/

namespace TableInput

/-- Agreement of two states of the loop, under options of their own: their attempts agree one by
one. -/
structure Agree (t : TableInput) (o o' : Options) (as bs : List Attempt) : Prop where
  left : t.Attempting o as
  right : t.Attempting o' bs
  attempts : List.Forall₂ Attempt.Agrees as bs

theorem Agree.exists_of_getElem? (h : t.Agree o o' as bs) (ha : as[i]? = some a) :
    ∃ b, bs[i]? = some b ∧ a.Agrees b := by
  have hall := h.attempts
  clear h
  induction hall generalizing i with
  | nil => cases ha
  | cons hab _ ih =>
    cases i with
    | zero =>
      cases ha
      exact ⟨_, rfl, hab⟩
    | succ i => exact ih ha

theorem Agree.resplit? (h : t.Agree o o' as bs) (hsplit : o.autoSplit = true)
    (hsplit' : o'.autoSplit = true) (ha : as[i]? = some a) (hb : bs[i]? = some b)
    (hab : a.Agrees b) :
    Option.Rel Attempt.Agrees (a.resplit? t.places) (b.resplit? t.places) := by
  obtain ⟨l, k, hleft⟩ := h.left.exists_follows ha
  obtain ⟨l', k', hright⟩ := h.right.exists_follows hb
  exact hab.resplit? hleft hright hsplit hsplit'

theorem Agree.set (h : t.Agree o o' as bs) (hsplit : o.autoSplit = true)
    (hsplit' : o'.autoSplit = true) (ha : as[i]? = some a) (hb : bs[i]? = some b)
    (ha' : a.resplit? t.places = some a') (hb' : b.resplit? t.places = some b')
    (hab : a'.Agrees b') : t.Agree o o' (as.set i a') (bs.set i b') := by
  refine ⟨h.left.set hsplit ha ha', h.right.set hsplit' hb hb', ?_⟩
  have hall := h.attempts
  clear h ha hb
  induction hall generalizing i with
  | nil => exact .nil
  | cons hfirst hrest ih =>
    cases i with
    | zero => exact .cons hab hrest
    | succ i => exact .cons hfirst ih

theorem layout_of_agree (hext : o.extension = o'.extension)
    (h : List.Forall₂ Attempt.Agrees as bs) :
    t.layout o scripts features as = t.layout o' scripts features bs := by
  have htables (extension : Option UInt16) :
      (as.map fun a => (a.lookup.record a.subtables).table extension) =
        bs.map fun b => (b.lookup.record b.subtables).table extension := by
    induction h with
    | nil => rfl
    | cons hab _ ih => rw [List.map_cons, List.map_cons, ih, hab.lookup, hab.subtables]
  unfold layout
  rw [hext]
  dsimp only
  rw [htables]

/-- A run of the loop is, on attempts that agree, also a run under the other options: each layout
is the same, and a lookup is split further in both or in neither. -/
theorem Layouts.of_agree {n : Nat} {r : Audit ByteArray}
    (h : t.Layouts o scripts features as n r) (o' : Options) (hsplit : o.autoSplit = o'.autoSplit)
    (hext : o.extension = o'.extension) (hagree : t.Agree o o' as bs) :
    t.Layouts o' scripts features bs n r := by
  induction h generalizing bs with
  | written hencode =>
    rw [layout_of_agree hext hagree.attempts] at hencode
    exact .written hencode
  | outside hencode hlookup =>
    rw [layout_of_agree hext hagree.attempts] at hencode
    exact .outside hencode hlookup
  | inside hencode hlookup ha hend =>
    obtain ⟨b, hb, hab⟩ := hagree.exists_of_getElem? ha
    rw [layout_of_agree hext hagree.attempts] at hencode
    rw [hab.lookup]
    refine .inside hencode hlookup hb ?_
    rw [← hsplit]
    refine hend.imp_right fun hend => hend.imp_right fun ⟨hauto, hspent⟩ => ⟨hauto, ?_⟩
    have hrel := hagree.resplit? hauto (hsplit ▸ hauto) ha hb hab
    rw [hspent] at hrel
    exact eq_none_of_rel hrel
  | again hencode hlookup ha hauto htarget ha' _ ih =>
    obtain ⟨b, hb, hab⟩ := hagree.exists_of_getElem? ha
    have hauto' := hauto
    rw [hsplit] at hauto'
    have hrel := hagree.resplit? hauto hauto' ha hb hab
    rw [ha'] at hrel
    obtain ⟨b', hb', hab'⟩ := exists_of_rel hrel
    rw [layout_of_agree hext hagree.attempts] at hencode
    exact .again hencode hlookup hb hauto' htarget hb'
      (ih (hagree.set hauto hauto' ha hb ha' hb' hab'))

/-! ## Whole tables -/

theorem agree_firstAttempts {r r' : Nat} (hr : o.budget < 2 ^ r) (hr' : o.budget < 2 ^ r') :
    t.Agree { o with retries := r } { o with retries := r' }
      (t.firstAttempts { o with retries := r }) (t.firstAttempts { o with retries := r' }) := by
  refine ⟨t.attempting_firstAttempts _, t.attempting_firstAttempts _, ?_⟩
  unfold firstAttempts
  rw [List.forall₂_map_left_iff, List.forall₂_map_right_iff, List.forall₂_same]
  exact fun l _ => ⟨rfl, rfl, rfl, hr, hr'⟩

/-- Retries that exceed the number of binary digits of the budget change nothing. -/
theorem assemble_eq_of_lt {r r' : Nat} (hr : o.budget < 2 ^ r) (hr' : o.budget < 2 ^ r') :
    t.assemble { o with retries := r } = t.assemble { o with retries := r' } := by
  obtain ⟨n, -, hlayouts⟩ := layouts_layOut
    (Registrations.ofFeatures t.features t.places).scriptList
    (Registrations.ofFeatures t.features t.places).featureList
    (t.attempting_firstAttempts { o with retries := r })
  have hother := hlayouts.of_agree { o with retries := r' } rfl rfl (agree_firstAttempts hr hr')
  rw [assemble_eq, assemble_eq, hother.layOut_eq]
  rfl

/-- **Retries beyond the bit length.** Budgets are below `2 ^ 64`, so 64 retries are as good as any
more: the table comes out with the same bytes and the same warnings, or there is, after the same
warnings, the same fatal finding. -/
theorem assemble_retries (t : TableInput) (o : Options) {r r' : Nat} (hbudget : o.budget < 2 ^ 64)
    (hr : 64 ≤ r) (hr' : 64 ≤ r') :
    ∃ outcome : Audit ByteArray, outcome.Sound ∧
      t.assemble { o with retries := r } = outcome ∧
      t.assemble { o with retries := r' } = outcome := by
  have hlt {k : Nat} (hk : 64 ≤ k) : o.budget < 2 ^ k :=
    Nat.lt_of_lt_of_le hbudget (Nat.pow_le_pow_right (by decide) hk)
  exact ⟨_, sound_assemble, rfl, assemble_eq_of_lt (hlt hr') (hlt hr)⟩

end TableInput
end

/-! ## A table that takes two retries -/

namespace TableInput

/-- A lookup that replaces two glyphs by sequences. -/
def twoSequences (a b : List Glyph) : PreparedLookup where
  kind := .multipleSub
  rules := [⟨.multipleSub 1 a, none, false⟩, ⟨.multipleSub 2 b, none, false⟩]
  marks := none
  place := default
  flags := 0
  filterSet := none

/-- A table with only that lookup. -/
def ofTwoSequences (a b : List Glyph) : TableInput := ⟨.substitution, [twoSequences a b], [], ∅⟩

/-- Extension records, and a budget beyond what a short offset spans. -/
def generous : Options := { Options.default with extension := true, budget := 150000 }

/-- The table of sequences for glyphs that are listed one by one. -/
def sequencesOver (keys : List Glyph) (values : List (List Glyph)) : Table :=
  .word 1 <| .link (.near .coverage) (.word 1 <| .countedWords keys .done) <|
    .countedLinks (.near .sequence) (values.map fun gs => .countedWords gs .done) .done

/-- The layout of the table with these subtables. -/
def sequencesLayout (subtables : List Table) : Table :=
  layoutTable [] [] [(LookupRecord.mk 2 0 none subtables).table (some 7)]

section
variable {a b : List Glyph}

/-- Both sequences go to one subtable if the budget allows it. -/
theorem pack_twoSequences (a b : List Glyph) (budget : Nat) :
    ((twoSequences a b).pack ∅ (some budget)).subtables.map Subtable.table =
      if budget < 22 + 2 * (a.length + b.length) then
        [sequencesOver [1] [a], sequencesOver [2] [b]]
      else [sequencesOver [1, 2] [a, b]] := by
  let p := Packing.sequences .multipleSub
  have hsize : Packing.sequenceSize 2 (0 + a.length + b.length) =
      22 + 2 * (a.length + b.length) := by
    simp only [Packing.sequenceSize, Coverage.sizeBound]
    omega
  have hjoint : p.joint (some budget) (p.add p.start (1, a)) ((2, b), false) =
      if Budget.exceededBy (some budget) (Packing.sequenceSize 2 (0 + a.length + b.length)) then
        .parts
      else .joins := rfl
  change ((p.step (some budget) ⟨[], [(1, a)], false, p.add p.start (1, a)⟩
    ((2, b), false)).close.reverse.map fun r => p.build r.items).map Subtable.table = _
  simp only [Gauge.step, List.isEmpty_cons, Bool.false_eq_true, if_false, hjoint, hsize,
    Budget.exceededBy, decide_eq_true_eq]
  by_cases hless : budget < 22 + 2 * (a.length + b.length)
  · simp only [if_pos hless]
    rfl
  · simp only [if_neg hless]
    rfl

/-- In one subtable, the first sequence leaves no room for an offset to the second. -/
theorem encode_sharedSubtable (h : 0xFFFF < 20 + 2 * a.length) :
    ∃ overflow, (sequencesLayout [sequencesOver [1, 2] [a, b]]).encode = .error overflow ∧
      overflow.lookup = some 0 ∧ overflow.target = .sequence := by
  have hfields : (sequencesLayout [sequencesOver [1, 2] [a, b]]).offsetFields =
      [⟨.short, .scriptList, none, 10⟩, ⟨.short, .featureList, none, 12⟩,
        ⟨.short, .lookupList, none, 14⟩, ⟨.short, .lookup, none, 4⟩,
        ⟨.short, .subtable, some 0, 8⟩, ⟨.long, .subtable, some 0, 8⟩,
        ⟨.short, .coverage, some 0, 10⟩, ⟨.short, .sequence, some 0, 18⟩,
        ⟨.short, .sequence, some 0, 52 + (2 + (bytesOfWords a).size) - 34⟩] := by
    rw [Table.offsetFields_of_blocks]
    rfl
  have hlast : 52 + (2 + 2 * a.length) - 34 = 20 + 2 * a.length := by omega
  rw [size_bytesOfWords, hlast] at hfields
  refine ⟨⟨some 0, .sequence, 20 + 2 * a.length⟩, Table.encode_eq_error_iff.2 ?_, rfl, rfl⟩
  rw [Table.overflow?_eq, hfields]
  simp [OffsetField.overflow?, Width.limit, h]

/-- In a subtable of its own, a sequence is in no short distance. -/
theorem encode_ownSubtables (h : a.length ≤ 0xFFFFFFF) :
    ∃ bytes, (sequencesLayout [sequencesOver [1] [a], sequencesOver [2] [b]]).encode =
      .ok bytes := by
  let second := 44 + (16 + (bytesOfWords a).size)
  have hfields : (sequencesLayout [sequencesOver [1] [a], sequencesOver [2] [b]]).offsetFields =
      [⟨.short, .scriptList, none, 10⟩, ⟨.short, .featureList, none, 12⟩,
        ⟨.short, .lookupList, none, 14⟩, ⟨.short, .lookup, none, 4⟩,
        ⟨.short, .subtable, some 0, 10⟩, ⟨.short, .subtable, some 0, 18⟩,
        ⟨.long, .subtable, some 0, 16⟩, ⟨.long, .subtable, some 0, second - 36⟩,
        ⟨.short, .coverage, some 0, 8⟩, ⟨.short, .sequence, some 0, 14⟩,
        ⟨.short, .coverage, some 0, second + 8 - second⟩,
        ⟨.short, .sequence, some 0, second + 8 + 6 - second⟩] := by
    rw [Table.offsetFields_of_blocks]
    rfl
  refine ⟨_, Table.encode_eq_ok_iff.2 ⟨rfl, ?_⟩⟩
  rw [hfields]
  simp [second, Width.limit, size_bytesOfWords]
  omega

variable (ha : a.length = 33000) (hb : b.length = 1)
include ha hb

/-- Half the budget is still enough for both sequences, a quarter is not. -/
theorem resplit_twoSequences (left : Nat) : resplit (twoSequences a b) ∅ 1 left 150000 =
    match left with
    | left + 2 =>
      some ⟨twoSequences a b, [sequencesOver [1] [a], sequencesOver [2] [b]], 37500, left⟩
    | _ => none := by
  have hcount (budget : Nat) : ((twoSequences a b).pack ∅ (some budget)).subtables.length =
      if budget < 66024 then 2 else 1 := by
    have hpack := congrArg List.length (pack_twoSequences a b budget)
    rw [List.length_map, ha, hb] at hpack
    rw [hpack]
    split <;> rfl
  match left with
  | 0 => rfl
  | 1 =>
    rw [resplit, if_neg (by decide)]
    dsimp only
    rw [hcount, if_neg (by decide)]
    rfl
  | left + 2 =>
    rw [resplit, if_neg (by decide)]
    dsimp only
    rw [hcount, if_neg (by decide), resplit, if_neg (by decide)]
    dsimp only
    rw [hcount, if_pos (by decide), pack_twoSequences, if_pos (by omega)]

/-- The first layout overflows, and only the second retry mends it. -/
theorem layouts_twoSequences (r : Nat) : ∃ n outcome,
    (ofTwoSequences a b).Layouts { generous with retries := r } [] []
        ((ofTwoSequences a b).firstAttempts { generous with retries := r }) n outcome ∧
      (outcome.value.isSome ↔ 2 ≤ r) := by
  have hfirst : (ofTwoSequences a b).firstAttempts { generous with retries := r } =
      [⟨twoSequences a b, [sequencesOver [1, 2] [a, b]], 150000, r⟩] := by
    change [Attempt.mk _ (((twoSequences a b).pack ∅ (some 150000)).subtables.map _) _ _] = _
    rw [pack_twoSequences, if_neg (by omega)]
    rfl
  obtain ⟨overflow, hencode, hlookup, htarget⟩ := encode_sharedSubtable (a := a) (b := b) (by omega)
  obtain ⟨bytes, hbytes⟩ := encode_ownSubtables (a := a) (b := b) (by omega)
  have hresplit := resplit_twoSequences ha hb r
  rw [hfirst]
  match r with
  | 0 | 1 =>
    exact ⟨_, _, .inside hencode hlookup rfl (.inr (.inr ⟨rfl, hresplit⟩)), by simp [Audit.stop]⟩
  | r + 2 =>
    have hinside : overflow.target ≠ .subtable := by
      rw [htarget]
      decide
    exact ⟨_, _, .again hencode hlookup rfl rfl hinside hresplit (.written hbytes),
      by simp [Audit.pure]⟩

/-- The table comes out if there are two retries. -/
theorem isSome_assemble_twoSequences (r : Nat) :
    ((ofTwoSequences a b).assemble { generous with retries := r }).value.isSome ↔ 2 ≤ r := by
  obtain ⟨n, outcome, hlayouts, hvalue⟩ := layouts_twoSequences ha hb r
  rw [assemble_eq, ← hvalue, ← hlayouts.layOut_eq]
  rfl

end

/-- A table that overflows without retries and with one comes out with 64 and with 1000, and is
the same. -/
theorem assemble_retries_twoSequences :
    let t := ofTwoSequences (List.replicate 33000 3) [4]
    (t.assemble { generous with retries := 0 }).value = none ∧
      (t.assemble { generous with retries := 1 }).value = none ∧
      ∃ outcome : Audit ByteArray, outcome.Sound ∧ outcome.value.isSome ∧
        t.assemble { generous with retries := 64 } = outcome ∧
        t.assemble { generous with retries := 1000 } = outcome := by
  intro t
  have hvalue := isSome_assemble_twoSequences (List.length_replicate (n := 33000) (a := 3))
    (List.length_singleton (a := 4))
  have hretries : ∃ outcome : Audit ByteArray, outcome.Sound ∧
      t.assemble { generous with retries := 64 } = outcome ∧
      t.assemble { generous with retries := 1000 } = outcome :=
    assemble_retries t generous (by decide) (by decide) (by decide)
  obtain ⟨outcome, hsound, houtcome, hsame⟩ := hretries
  refine ⟨?_, ?_, outcome, hsound, ?_, houtcome, hsame⟩
  · exact Option.not_isSome_iff_eq_none.1 (mt (hvalue 0).1 (by decide))
  · exact Option.not_isSome_iff_eq_none.1 (mt (hvalue 1).1 (by decide))
  · rw [← houtcome]
    exact (hvalue 64).2 (by decide)

end TableInput
end FontLayout
