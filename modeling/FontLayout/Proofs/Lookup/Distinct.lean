import FontLayout.Proofs.Diagnostic.Audits
import FontLayout.Proofs.Lookup.Sifting
/-!
# The rules of a sifted lookup

What is known of the rules that sifting keeps, from how it ends.

Results:
* `kind_of_mem_distinctRules`: they are of the kind of their lookup.
* `keys_distinctRules`: no two of them have the same key.
* `sound_distinctRules`: sifting stops at a fatal finding and at nothing else.
* `kinds_of_passes`: if no error is found, none was of another kind.
* `bodies_distinctRules`: of rules that are their own keys, the first of each is kept.
* `distinctRules_of_distinctRules`: sifting what has been sifted changes nothing.
-/
namespace FontLayout

/-! ## Rules that are kept -/

theorem exists_of_mem_keptRules {kind : Kind} {rs : List Rule} {r : Rule}
    (h : r ∈ keptRules kind rs) :
    ∃ before r', (before, r') ∈ withEarlier rs ∧ IsFirst kind before r' ∧ r.body = r'.body := by
  obtain ⟨x, hx, rfl⟩ := List.mem_map.1 h
  obtain ⟨hx, hfirst⟩ := List.mem_filter.1 hx
  exact ⟨x.1, x.2, hx, of_decide_eq_true hfirst, rfl⟩

theorem keys_keptRules (kind : Kind) (rs : List Rule) :
    (keptRules kind rs).Pairwise fun r r' => r.body.key ≠ r'.body.key := by
  induction rs using List.reverseRecOn with
  | nil => exact List.Pairwise.nil
  | append_singleton rs r ih =>
    rw [keptRules_concat]
    split
    · next hr =>
      refine List.pairwise_append.2 ⟨ih, List.pairwise_singleton _ _, fun k hk r' hr' => ?_⟩
      obtain ⟨before, first, hmem, hfirst, hbody⟩ := exists_of_mem_keptRules hk
      obtain ⟨after, rfl⟩ := mem_withEarlier.1 hmem
      rw [List.mem_singleton.1 hr', hbody]
      exact firstWith?_eq_none.1 hr.2 first (List.mem_append_right _ List.mem_cons_self) hfirst.1
    · rwa [List.append_nil]

section
variable {lookup : Lookup} {place : LookupPlace} {rules : List Rule}

theorem of_value_distinctRules (h : (distinctRules lookup place).value = some rules) :
    rules = keptRules lookup.kind lookup.rules ∧
      ReportsAll lookup.kind place lookup.rules (distinctRules lookup place).findings := by
  have houtcome := sifts_distinctRules lookup place
  generalize distinctRules lookup place = x at houtcome h ⊢
  cases houtcome with
  | stopped => cases h
  | sifted _ hreports =>
    cases h
    exact ⟨rfl, hreports⟩

theorem kind_of_mem_distinctRules (h : (distinctRules lookup place).value = some rules) {r : Rule}
    (hr : r ∈ rules) : r.body.kind = lookup.kind := by
  obtain ⟨rfl, -⟩ := of_value_distinctRules h
  obtain ⟨before, first, -, hfirst, hbody⟩ := exists_of_mem_keptRules hr
  rw [hbody, hfirst.1]

theorem keys_distinctRules (h : (distinctRules lookup place).value = some rules) :
    rules.Pairwise fun r r' => r.body.key ≠ r'.body.key := by
  obtain ⟨rfl, -⟩ := of_value_distinctRules h
  exact keys_keptRules lookup.kind lookup.rules

end

/-! ## What is found -/

theorem exists_of_forall₂ {α β : Type} {R : α → β → Prop} {xs : List α} {ys : List β}
    (h : List.Forall₂ R xs ys) {x : α} (hx : x ∈ xs) : ∃ y ∈ ys, R x y := by
  induction h with
  | nil => cases hx
  | @cons x' y xs ys hxy h ih =>
    obtain rfl | hx := List.mem_cons.1 hx
    · exact ⟨y, List.mem_cons_self, hxy⟩
    · obtain ⟨y', hy', hr⟩ := ih hx
      exact ⟨y', List.mem_cons_of_mem _ hy', hr⟩

section
variable {kind : Kind} {place : LookupPlace} {rs : List Rule} {fs : List Finding}

/-- Rules that are left out are never fatal. -/
theorem ReportsAll.harmless (h : ReportsAll kind place rs fs) : Harmless fs := by
  intro f hf
  obtain ⟨x, -, hx⟩ := exists_of_forall₂ h.flip hf
  cases hx with
  | misplaced _ hlevel | repeated _ _ hlevel | conflicting _ _ _ _ _ hlevel =>
    rw [hlevel]
    decide

/-- A rule of another kind is an error. -/
theorem ReportsAll.kind_eq (h : ReportsAll kind place rs fs) (hfs : ∀ f ∈ fs, f.level ≠ .error)
    {r : Rule} (hr : r ∈ rs) : r.body.kind = kind := by
  by_contra hkind
  obtain ⟨before, after, he⟩ := List.append_of_mem hr
  have hdropped : (before, r) ∈ droppedRules kind rs :=
    List.mem_filter.2 ⟨mem_withEarlier.2 ⟨after, he⟩, decide_eq_true fun hr => hkind hr.1⟩
  obtain ⟨f, hf, hreport⟩ := exists_of_forall₂ h hdropped
  cases hreport with
  | misplaced _ hlevel => exact hfs f hf hlevel
  | repeated hsame => exact hkind hsame
  | conflicting _ _ hsame => exact hkind hsame.2

end

theorem sound_distinctRules (lookup : Lookup) (place : LookupPlace) :
    (distinctRules lookup place).Sound := by
  have houtcome := sifts_distinctRules lookup place
  generalize distinctRules lookup place = x at houtcome ⊢
  cases houtcome with
  | stopped _ _ _ hreports _ hlevel => exact ⟨_, _, rfl, hreports.harmless, hlevel⟩
  | sifted _ hreports => exact hreports.harmless

/-- If no error is found, all rules are of the kind of their lookup. -/
theorem kinds_of_passes {lookup : Lookup} {place : LookupPlace} {rules : List Rule}
    (h : (distinctRules lookup place).Passes rules) :
    ∀ r ∈ lookup.rules, r.body.kind = lookup.kind :=
  fun _ => (of_value_distinctRules h.1).2.kind_eq h.2

/-! ## Rules that are their own keys -/

theorem eraseDups_concat {α : Type} [DecidableEq α] (xs : List α) (x : α) :
    (xs ++ [x]).eraseDups = if x ∈ xs then xs.eraseDups else xs.eraseDups ++ [x] := by
  rw [List.eraseDups_append]
  split
  · next h => simp [List.removeAll, h]
  · next h => simp [List.removeAll, h, List.eraseDups_cons]

theorem bodies_keptRules {kind : Kind} {rs : List Rule}
    (hrs : ∀ r ∈ rs, r.body.kind = kind ∧ r.body.key = .whole r.body) :
    (keptRules kind rs).map Rule.body = (rs.map Rule.body).eraseDups := by
  induction rs using List.reverseRecOn with
  | nil => rfl
  | append_singleton rs r ih =>
    obtain ⟨hrs, hr⟩ := List.forall_mem_append.1 hrs
    obtain ⟨hkind, hkey⟩ := List.forall_mem_singleton.1 hr
    -- rules with the key of this one are the same as this one
    have hfirst : IsFirst kind rs r ↔ r.body ∉ rs.map Rule.body := by
      rw [IsFirst, and_iff_right hkind, firstWith?_eq_none, List.mem_map]
      constructor
      · rintro h ⟨r', hr', hbody⟩
        exact h r' hr' (hrs r' hr').1 (hbody ▸ rfl)
      · intro h r' hr' _ hkey'
        exact h ⟨r', hr', body_eq_of_whole (hkey'.trans hkey)⟩
    rw [keptRules_concat, List.map_append, List.map_append, List.map_singleton, eraseDups_concat,
      ih hrs]
    by_cases hmem : r.body ∈ rs.map Rule.body
    · rw [if_pos hmem, if_neg (fun h => hfirst.1 h hmem), List.map_nil, List.append_nil]
    · rw [if_neg hmem, if_pos (hfirst.2 hmem), List.map_singleton]

/-- Of rules that are their own keys, the first of each is kept, in order. -/
theorem bodies_distinctRules {lookup : Lookup} {place : LookupPlace} {rules : List Rule}
    (hrules : ∀ r ∈ lookup.rules, r.body.kind = lookup.kind ∧ r.body.key = .whole r.body)
    (h : (distinctRules lookup place).value = some rules) :
    rules.map Rule.body = (lookup.rules.map Rule.body).eraseDups := by
  obtain ⟨rfl, -⟩ := of_value_distinctRules h
  exact bodies_keptRules hrules

/-! ## Sifting again -/

section
variable {kind : Kind} {rs : List Rule}

theorem isFirst_of_keys (hkind : ∀ r ∈ rs, r.body.kind = kind)
    (hkeys : rs.Pairwise fun r r' => r.body.key ≠ r'.body.key) :
    ∀ x ∈ withEarlier rs, IsFirst kind x.1 x.2 := by
  rintro ⟨before, r⟩ hx
  obtain ⟨after, rfl⟩ := mem_withEarlier.1 hx
  refine ⟨hkind r (List.mem_append_right _ List.mem_cons_self), firstWith?_eq_none.2 ?_⟩
  exact fun r' hr' _ => (List.pairwise_append.1 hkeys).2.2 r' hr' r List.mem_cons_self

theorem breakAfterLast_of_isFirst (h : ∀ x ∈ withEarlier rs, IsFirst kind x.1 x.2) :
    breakAfterLast kind rs = false := by
  obtain rfl | ⟨rs, r, rfl⟩ := List.eq_nil_or_concat rs
  · rfl
  · rw [List.concat_eq_append] at h ⊢
    rw [breakAfterLast_concat, if_pos]
    exact h (rs, r) (mem_withEarlier.2 ⟨[], rfl⟩)

theorem keptRules_of_isFirst (h : ∀ x ∈ withEarlier rs, IsFirst kind x.1 x.2) :
    keptRules kind rs = rs := by
  induction rs using List.reverseRecOn with
  | nil => rfl
  | append_singleton rs r ih =>
    rw [withEarlier_concat] at h
    obtain ⟨hrs, hr⟩ := List.forall_mem_append.1 h
    rw [keptRules_concat, if_pos (List.forall_mem_singleton.1 hr), ih hrs,
      breakAfterLast_of_isFirst hrs, Bool.false_or]

theorem droppedRules_of_isFirst (h : ∀ x ∈ withEarlier rs, IsFirst kind x.1 x.2) :
    droppedRules kind rs = [] := by
  rw [droppedRules, List.filter_eq_nil_iff]
  intro x hx
  simpa using h x hx

end

/-- Sifting what has been sifted changes nothing, and nothing is found. -/
theorem distinctRules_of_distinctRules {lookup : Lookup} {place : LookupPlace} {rules : List Rule}
    (h : (distinctRules lookup place).value = some rules) (place' : LookupPlace) :
    distinctRules { lookup with rules := rules } place' = ⟨[], some rules⟩ := by
  have hfirst := isFirst_of_keys (fun r hr => kind_of_mem_distinctRules h hr) (keys_distinctRules h)
  have houtcome := sifts_distinctRules { lookup with rules := rules } place'
  generalize distinctRules { lookup with rules := rules } place' = x at houtcome ⊢
  cases houtcome with
  | stopped hrules hcontradicts =>
    have hr := hfirst _ (mem_withEarlier.2 ⟨_, hrules⟩)
    exact absurd hcontradicts (Sieve.not_contradicts_of_isFirst hr)
  | sifted hrules hreports =>
    rw [ReportsAll, droppedRules_of_isFirst hfirst, List.forall₂_nil_left_iff] at hreports
    rw [keptRules_of_isFirst hfirst, hreports]

/-- A lookup that says two things twice, once after a break. -/
def repeatedSingles : Lookup where
  name := none
  kind := .singleSub
  flags := 0
  markFilterSet := none
  markAttachment := none
  rules := [⟨.singleSub 1 2, none, false⟩, ⟨.singleSub 1 2, none, true⟩,
    ⟨.singleSub 3 4, none, false⟩, ⟨.singleSub 2 4, none, false⟩, ⟨.singleSub 3 4, none, false⟩]

/-- The break before a rule that is left out stays where it has been moved. -/
theorem distinctRules_repeatedSingles : ∃ rules,
    (distinctRules repeatedSingles ⟨none, none⟩).value = some rules ∧
      rules.map Rule.breakBefore = [false, true, false] ∧
      distinctRules { repeatedSingles with rules := rules } ⟨none, none⟩ = ⟨[], some rules⟩ := by
  have h : (distinctRules repeatedSingles ⟨none, none⟩).value = some
      [⟨.singleSub 1 2, none, false⟩, ⟨.singleSub 3 4, none, true⟩,
        ⟨.singleSub 2 4, none, false⟩] := by rfl
  exact ⟨_, h, rfl, distinctRules_of_distinctRules h ⟨none, none⟩⟩

end FontLayout
