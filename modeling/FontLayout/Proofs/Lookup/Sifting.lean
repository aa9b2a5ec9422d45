import FontLayout.Lookup.Distinct
import Mathlib.Data.List.Forall2
import Mathlib.Data.List.Induction
/-!
# What sifting does to a lookup

Sifting is described by looking at each rule together with the rules before it, without a sieve.
A rule is kept if it is of the kind of its lookup and no such rule before it has its key. Every
other rule is reported, in order, and if the lookup may answer an input in one way only, the first
rule that contradicts an earlier one ends the work. Breaks before rules that are not kept are
moved to the next rule that is.

Results:
* `Sieve.After.verdict_cases`: what becomes of the next rule.
* `outcome_siftLoop`: how sifting goes on from what is done.
* `outcome_distinctRules`: which lookups are refused, which rules are kept, and what is found.
-/
namespace FontLayout

/-! ## Rules and the rules before them -/

/-- The rules of a list, each with the rules before it. -/
def withEarlier (rs : List Rule) : List (List Rule × Rule) :=
  rs.zipIdx.map fun (r, i) => (rs.take i, r)

theorem withEarlier_concat (rs : List Rule) (r : Rule) :
    withEarlier (rs ++ [r]) = withEarlier rs ++ [(rs, r)] := by
  rw [withEarlier, List.zipIdx_append, List.map_append]
  congr 1
  · refine List.map_congr_left fun x hx => ?_
    have hle := Nat.le_of_lt (List.snd_lt_of_mem_zipIdx hx)
    simp [List.take_append_of_le_length hle]
  · simp

theorem mem_withEarlier {rs before : List Rule} {r : Rule} :
    (before, r) ∈ withEarlier rs ↔ ∃ after, rs = before ++ r :: after := by
  simp only [withEarlier, List.mem_map, Prod.exists, List.mk_mem_zipIdx_iff_getElem?,
    Prod.mk.injEq]
  constructor
  · rintro ⟨r', i, hi, rfl, rfl⟩
    obtain ⟨hlt, rfl⟩ := List.getElem?_eq_some_iff.1 hi
    exact ⟨rs.drop (i + 1), by rw [← List.drop_eq_getElem_cons, List.take_append_drop]⟩
  · rintro ⟨after, rfl⟩
    exact ⟨r, before.length, by simp, by simp, rfl⟩

/-- The first rule of a kind with some key. -/
def firstWith? (kind : Kind) (key : RuleKey) (rs : List Rule) : Option Rule :=
  rs.find? fun r => r.body.kind = kind ∧ r.body.key = key

theorem firstWith?_concat (kind : Kind) (key : RuleKey) (rs : List Rule) (r : Rule) :
    firstWith? kind key (rs ++ [r]) = (firstWith? kind key rs).or
      (if r.body.kind = kind ∧ r.body.key = key then some r else none) := by
  simp [firstWith?, List.find?_append, List.find?_singleton]

theorem of_firstWith? {kind : Kind} {key : RuleKey} {rs : List Rule} {r : Rule}
    (h : firstWith? kind key rs = some r) : r.body.kind = kind ∧ r.body.key = key := by
  simpa using List.find?_some h

theorem firstWith?_eq_none {kind : Kind} {key : RuleKey} {rs : List Rule} :
    firstWith? kind key rs = none ↔ ∀ r ∈ rs, r.body.kind = kind → r.body.key ≠ key := by
  simp [firstWith?]

/-! ## Rules that are kept -/

/-- Whether a rule is of a kind, and is the first with its key. -/
def IsFirst (kind : Kind) (before : List Rule) (r : Rule) : Prop :=
  r.body.kind = kind ∧ firstWith? kind r.body.key before = none

instance (kind : Kind) (before : List Rule) (r : Rule) : Decidable (IsFirst kind before r) :=
  inferInstanceAs (Decidable (_ ∧ _))

/-- Whether there is a break after the last of some rules that is kept. -/
def breakAfterLast (kind : Kind) (rs : List Rule) : Bool :=
  ((withEarlier rs).reverse.takeWhile fun x => ¬ IsFirst kind x.1 x.2).any fun x => x.2.breakBefore

/-- The rules of a kind that are first with their keys. A break before rules that are left out
stands before the next rule. -/
def keptRules (kind : Kind) (rs : List Rule) : List Rule :=
  ((withEarlier rs).filter fun x => IsFirst kind x.1 x.2).map fun x =>
    { x.2 with breakBefore := breakAfterLast kind x.1 || x.2.breakBefore }

/-- The rules that are left out, each with the rules before it. -/
def droppedRules (kind : Kind) (rs : List Rule) : List (List Rule × Rule) :=
  (withEarlier rs).filter fun x => ¬ IsFirst kind x.1 x.2

section
variable {kind : Kind} {rs : List Rule} {r : Rule}

theorem breakAfterLast_concat : breakAfterLast kind (rs ++ [r]) =
    if IsFirst kind rs r then false else breakAfterLast kind rs || r.breakBefore := by
  rw [breakAfterLast, withEarlier_concat, List.reverse_concat, List.takeWhile_cons]
  split <;> simp_all [breakAfterLast, Bool.or_comm]

theorem keptRules_concat : keptRules kind (rs ++ [r]) = keptRules kind rs ++
    if IsFirst kind rs r then [{ r with breakBefore := breakAfterLast kind rs || r.breakBefore }]
    else [] := by
  rw [keptRules, withEarlier_concat, List.filter_append, List.map_append]
  split <;> simp_all [keptRules]

theorem droppedRules_concat : droppedRules kind (rs ++ [r]) = droppedRules kind rs ++
    if IsFirst kind rs r then [] else [(rs, r)] := by
  rw [droppedRules, withEarlier_concat, List.filter_append]
  split <;> simp_all [droppedRules]

end

/-! ## Rules that are left out -/

/-- The kinds of lookups that may answer an input in one way only. -/
def Kind.exclusive : List Kind :=
  [.singleSub, .multipleSub, .alternateSub, .ligatureSub, .singlePos]

/-- Whether a rule answers an input in another way than an earlier one, in a lookup that may not. -/
def Contradicts (kind : Kind) (before : List Rule) (r : Rule) : Prop :=
  kind ∈ Kind.exclusive ∧ r.body.kind = kind ∧
    ∃ first, firstWith? kind r.body.key before = some first ∧ first.body ≠ r.body

/-- What is found at a rule that is left out, given the rules before it. -/
inductive Reports (kind : Kind) (place : LookupPlace) (before : List Rule) (r : Rule)
    (f : Finding) : Prop
  /-- A rule of another kind is an error. -/
  | misplaced (hkind : r.body.kind ≠ kind) (hlevel : f.level = .error)
      (hfinding : f = ⟨place.siteAt r.line, .misplacedRule r.body.kind kind place⟩)
  /-- A rule that says the same as the first with its key gets a note. -/
  | repeated (hkind : r.body.kind = kind) (hfirst : ∃ first,
        firstWith? kind r.body.key before = some first ∧ first.body = r.body)
      (hlevel : f.level = .note) (hsite : f.site = place.siteAt r.line)
      (hcause : repeatedVerdict place r.body = .drop f.cause)
  /-- Of pairs, the first value is chosen, with a warning. -/
  | conflicting (first second : Token) (hkind : kind = .pairPos ∧ r.body.kind = kind)
      (hkey : r.body.key = .pair first second)
      (hfirst : ∃ first, firstWith? kind r.body.key before = some first ∧ first.body ≠ r.body)
      (hlevel : f.level = .warning)
      (hfinding : f = ⟨place.siteAt r.line, .conflictingPair place first second⟩)

/-- Whether findings are those at the rules that are left out, one for each, in order. -/
def ReportsAll (kind : Kind) (place : LookupPlace) (rs : List Rule) (fs : List Finding) : Prop :=
  List.Forall₂ (fun x f => Reports kind place x.1 x.2 f) (droppedRules kind rs) fs

/-- How sifting some rules ends. -/
inductive SiftOutcome (kind : Kind) (place : LookupPlace) (rs : List Rule) :
    Audit (List Rule) → Prop
  /-- It stops at the first rule that contradicts an earlier one. -/
  | stopped {before after : List Rule} {r : Rule} {fs : List Finding} {cause : Cause}
      (hrules : rs = before ++ r :: after) (hcontradicts : Contradicts kind before r)
      (hbefore : ∀ x ∈ withEarlier before, ¬ Contradicts kind x.1 x.2)
      (hreports : ReportsAll kind place before fs)
      (hcause : conflictVerdict place r.body = .stop cause) (hlevel : cause.level = .fatal) :
      SiftOutcome kind place rs ⟨fs ++ [⟨place.siteAt r.line, cause⟩], none⟩
  /-- If no rule does, the first rules are kept, and the others are reported. -/
  | sifted {fs : List Finding} (hrules : ∀ x ∈ withEarlier rs, ¬ Contradicts kind x.1 x.2)
      (hreports : ReportsAll kind place rs fs) :
      SiftOutcome kind place rs ⟨fs, some (keptRules kind rs)⟩

/-! ## Verdicts -/

theorem repeatedVerdict_eq (place : LookupPlace) (body : RuleBody) :
    ∃ cause, cause.level = .note ∧ repeatedVerdict place body = .drop cause := by
  unfold repeatedVerdict
  split
  · exact ⟨_, rfl, rfl⟩
  · exact ⟨_, rfl, rfl⟩
  · split <;> exact ⟨_, rfl, rfl⟩

theorem key_cases (b : RuleBody) :
    (b.kind ∈ Kind.exclusive ∧ ∃ glyphs, b.key = .input glyphs) ∨
      (b.kind = .pairPos ∧ ∃ first second, b.key = .pair first second) ∨ b.key = .whole b := by
  cases b with
  | singleSub | multipleSub | alternateSub | ligatureSub | singlePos =>
    exact .inl ⟨by simp [RuleBody.kind, Kind.exclusive], _, rfl⟩
  | pairPos => exact .inr (.inl ⟨rfl, _, _, rfl⟩)
  | _ => exact .inr (.inr rfl)

theorem body_eq_of_whole {b b' : RuleBody} (h : b.key = .whole b') : b = b' := by
  obtain ⟨-, glyphs, hkey⟩ | ⟨-, first, second, hkey⟩ | hkey := key_cases b
  · cases hkey.symm.trans h
  · cases hkey.symm.trans h
  · exact RuleKey.whole.inj (hkey.symm.trans h)

theorem conflictVerdict_of_input {b : RuleBody} {glyphs : List Glyph} (h : b.key = .input glyphs)
    (place : LookupPlace) :
    ∃ cause, cause.level = .fatal ∧ conflictVerdict place b = .stop cause := by
  rw [conflictVerdict, h]
  dsimp only
  split <;> exact ⟨_, rfl, rfl⟩

/-! ## The sieve -/

/-- What holds of the sieve after some rules: it has kept the first ones, answers with them by their
keys, has found what there is to report of the others, and has not had to stop. -/
structure Sieve.After (s : Sieve) (kind : Kind) (place : LookupPlace) (done : List Rule) :
    Prop where
  rules_eq : s.rules.reverse = keptRules kind done
  find?_eq (key : RuleKey) : s.kept.find? key = (firstWith? kind key done).map Rule.body
  pendingBreak_eq : s.pendingBreak = breakAfterLast kind done
  reports : ReportsAll kind place done s.findings.reverse
  clear : ∀ x ∈ withEarlier done, ¬ Contradicts kind x.1 x.2

namespace Sieve
variable {s : Sieve} {kind : Kind} {place : LookupPlace} {done : List Rule} {r : Rule}

theorem after_start (kind : Kind) (place : LookupPlace) :
    After ⟨[], .empty, false, []⟩ kind place [] where
  rules_eq := rfl
  find?_eq key := Kept.find?_empty key
  pendingBreak_eq := rfl
  reports := List.Forall₂.nil
  clear _ hx := absurd hx List.not_mem_nil

theorem not_contradicts_of_isFirst (h : IsFirst kind done r) : ¬ Contradicts kind done r := by
  rintro ⟨-, -, first, hfirst, -⟩
  rw [h.2] at hfirst
  cases hfirst

/-- What becomes of the next rule. -/
theorem After.verdict_cases (h : s.After kind place done) (hkind : r.body.kind = kind) :
    (IsFirst kind done r ∧ verdict place s.kept r.body = .keep) ∨
      (∃ cause, verdict place s.kept r.body = .drop cause ∧ ¬ IsFirst kind done r ∧
        ¬ Contradicts kind done r ∧ Reports kind place done r ⟨place.siteAt r.line, cause⟩) ∨
      ∃ cause, verdict place s.kept r.body = .stop cause ∧ Contradicts kind done r ∧
        conflictVerdict place r.body = .stop cause ∧ cause.level = .fatal := by
  rw [verdict, h.find?_eq]
  cases hfirst : firstWith? kind r.body.key done with
  | none => exact .inl ⟨⟨hkind, hfirst⟩, rfl⟩
  | some first =>
    have hnot : ¬ IsFirst kind done r := fun hr => nomatch hfirst.symm.trans hr.2
    refine .inr ?_
    rw [Option.map_some]
    dsimp only
    split
    · next hsame =>
      obtain ⟨cause, hlevel, hcause⟩ := repeatedVerdict_eq place r.body
      refine .inl ⟨cause, hcause, hnot, ?_,
        .repeated hkind ⟨first, hfirst, hsame⟩ hlevel rfl hcause⟩
      rintro ⟨-, -, first', hfirst', hother⟩
      cases hfirst.symm.trans hfirst'
      exact hother hsame
    · next hother =>
      obtain ⟨hexclusive, glyphs, hkey⟩ | ⟨hpair, a, b, hkey⟩ | hkey := key_cases r.body
      · obtain ⟨cause, hlevel, hcause⟩ := conflictVerdict_of_input hkey place
        exact .inr ⟨cause, hcause, ⟨hkind ▸ hexclusive, hkind, first, hfirst, hother⟩, hcause,
          hlevel⟩
      · refine .inl ⟨.conflictingPair place a b, by rw [conflictVerdict, hkey], hnot, ?_,
          .conflicting a b ⟨hkind ▸ hpair, hkind⟩ hkey ⟨first, hfirst, hother⟩ rfl rfl⟩
        rintro ⟨hexclusive, -⟩
        rw [← hkind, hpair] at hexclusive
        exact absurd hexclusive (by decide)
      · -- a rule that is its own key has no other rule with its key
        exact absurd (body_eq_of_whole ((of_firstWith? hfirst).2.trans hkey)) hother

theorem After.keep (h : s.After kind place done) (hr : IsFirst kind done r) :
    After { s with
      rules := { r with breakBefore := s.pendingBreak || r.breakBefore } :: s.rules
      kept := s.kept.insert r.body
      pendingBreak := false } kind place (done ++ [r]) where
  rules_eq := by
    rw [List.reverse_cons, h.rules_eq, keptRules_concat, if_pos hr, h.pendingBreak_eq]
  find?_eq key := by
    dsimp only
    rw [firstWith?_concat]
    by_cases hkey : r.body.key = key
    · subst hkey
      rw [Kept.find?_insert_self, hr.2, Option.none_or, if_pos ⟨hr.1, rfl⟩, Option.map_some]
    · rw [Kept.find?_insert_of_ne _ hkey, h.find?_eq, if_neg (fun hr' => hkey hr'.2),
        Option.or_none]
  pendingBreak_eq := by rw [breakAfterLast_concat, if_pos hr]
  reports := by
    rw [ReportsAll, droppedRules_concat, if_pos hr, List.append_nil]
    exact h.reports
  clear := by
    rw [withEarlier_concat]
    exact List.forall_mem_append.2
      ⟨h.clear, List.forall_mem_singleton.2 (not_contradicts_of_isFirst hr)⟩

theorem After.drop (h : s.After kind place done) (hr : ¬ IsFirst kind done r)
    (hclear : ¬ Contradicts kind done r) {cause : Cause}
    (hreports : Reports kind place done r ⟨place.siteAt r.line, cause⟩) :
    After { s with
      pendingBreak := s.pendingBreak || r.breakBefore
      findings := ⟨place.siteAt r.line, cause⟩ :: s.findings } kind place (done ++ [r]) where
  rules_eq := by rw [keptRules_concat, if_neg hr, List.append_nil, h.rules_eq]
  find?_eq key := by
    dsimp only
    rw [h.find?_eq, firstWith?_concat]
    split
    · next hkey =>
      obtain ⟨hkind, rfl⟩ := hkey
      cases hfirst : firstWith? kind r.body.key done with
      | none => exact absurd ⟨hkind, hfirst⟩ hr
      | some first => rfl
    · rw [Option.or_none]
  pendingBreak_eq := by rw [breakAfterLast_concat, if_neg hr, h.pendingBreak_eq]
  reports := by
    rw [ReportsAll, droppedRules_concat, if_neg hr, List.reverse_cons]
    exact List.rel_append h.reports (.cons hreports .nil)
  clear := by
    rw [withEarlier_concat]
    exact List.forall_mem_append.2 ⟨h.clear, List.forall_mem_singleton.2 hclear⟩

end Sieve

/-! ## Whole lookups -/

/-- Sifting goes on from what is done. -/
theorem outcome_siftLoop {kind : Kind} {place : LookupPlace} {rs : List Rule} {s : Sieve}
    {done : List Rule} (h : s.After kind place done) :
    SiftOutcome kind place (done ++ rs) (siftLoop kind place rs s) := by
  -- every rule moves from those that are left to those that are done, and `After` goes with it
  induction rs generalizing s done with
  | nil =>
    rw [List.append_nil, siftLoop, h.rules_eq]
    exact .sifted h.clear h.reports
  | cons r rs ih =>
    rw [siftLoop]
    dsimp only
    split
    · next hkind =>
      rw [List.append_cons]
      refine ih (h.drop (fun hr => hkind hr.1) (fun hr => hkind hr.2.1) ?_)
      exact .misplaced hkind rfl rfl
    · next hkind =>
      obtain ⟨hr, hv⟩ | ⟨cause, hv, hr, hclear, hreports⟩ | ⟨cause, hv, hr, hcause, hlevel⟩ :=
        h.verdict_cases (not_not.1 hkind)
      · rw [hv, List.append_cons]
        exact ih (h.keep hr)
      · rw [hv, List.append_cons]
        exact ih (h.drop hr hclear hreports)
      · rw [hv]
        dsimp only
        rw [List.reverse_cons]
        exact .stopped rfl hr h.clear h.reports hcause hlevel

theorem sifts_distinctRules (lookup : Lookup) (place : LookupPlace) :
    SiftOutcome lookup.kind place lookup.rules (distinctRules lookup place) :=
  outcome_siftLoop (Sieve.after_start lookup.kind place)

/-- If no rule contradicts an earlier one, the first rule with a key says what all of them say. -/
theorem body_firstWith? {kind : Kind} (hkind : kind ∈ Kind.exclusive) {rs : List Rule}
    (h : ∀ x ∈ withEarlier rs, ¬ Contradicts kind x.1 x.2) {r : Rule} (hr : r ∈ rs)
    (hrkind : r.body.kind = kind) :
    (firstWith? kind r.body.key rs).map Rule.body = some r.body := by
  obtain ⟨before, after, rfl⟩ := List.append_of_mem hr
  have hclear := h (before, r) (mem_withEarlier.2 ⟨after, rfl⟩)
  rw [List.append_cons, firstWith?, List.find?_append]
  change ((firstWith? kind r.body.key (before ++ [r])).or _).map _ = _
  rw [firstWith?_concat, if_pos ⟨hrkind, rfl⟩]
  -- either the rule is the first with its key, or it must not contradict the first
  cases hfirst : firstWith? kind r.body.key before with
  | none => rfl
  | some first =>
    by_contra hother
    exact hclear ⟨hkind, hrkind, first, hfirst, fun he => hother (congrArg some he)⟩

/-- Which lookups are refused, which rules are kept, and what is found: the rules of the lookup's
kind that are first with their keys are kept, and each other rule is reported, unless some rule
answers an input in another way than an earlier one and the lookup may not. -/
theorem outcome_distinctRules (lookup : Lookup) (place : LookupPlace) :
    SiftOutcome lookup.kind place lookup.rules (distinctRules lookup place) ∧
      ((distinctRules lookup place).value = none ↔
        lookup.kind ∈ Kind.exclusive ∧ ∃ r ∈ lookup.rules, ∃ r' ∈ lookup.rules,
          r.body.kind = lookup.kind ∧ r'.body.kind = lookup.kind ∧
            r.body.key = r'.body.key ∧ r.body ≠ r'.body) := by
  have houtcome := sifts_distinctRules lookup place
  refine ⟨houtcome, ?_⟩
  generalize distinctRules lookup place = x at houtcome ⊢
  cases houtcome with
  | stopped hrules hcontradicts hbefore hreports hcause hlevel =>
    next before after r fs cause =>
    obtain ⟨hexclusive, hkind, first, hfirst, hother⟩ := hcontradicts
    obtain ⟨hfirstkind, hkey⟩ := of_firstWith? hfirst
    refine iff_of_true rfl ⟨hexclusive, first, ?_, r, ?_, hfirstkind, hkind, hkey, hother⟩
    · rw [hrules]
      exact List.mem_append_left _ (List.mem_of_find?_eq_some hfirst)
    · rw [hrules]
      exact List.mem_append_right _ List.mem_cons_self
  | sifted hrules hreports =>
    refine iff_of_false nofun ?_
    rintro ⟨hexclusive, r, hr, r', hr', hkind, hkind', hkey, hother⟩
    have hbody := body_firstWith? hexclusive hrules hr hkind
    rw [hkey, body_firstWith? hexclusive hrules hr' hkind'] at hbody
    exact hother (Option.some.inj hbody).symm

end FontLayout
