import FontLayout.Proofs.Compilation
import FontLayout.Proofs.Glyph.Keyed
import Mathlib.Data.List.Dedup
import Mathlib.Tactic.IntervalCases
/-!
# Flags and the glyph definition table

A lookup refers to its mark attachment class by the high byte of its flags, and to its filtering
set by a word of its own. The numbers are given once for the whole rule set, and the glyph
definition table is made from the same numbers, whatever else the options ask for. If looking
across the lookups finds no error, the classes do not overlap and there are few of them, so the
map from glyphs to numbers tells them apart.

Results:
* `Numbering.find?_ofList`: the number of a set is its place.
* `separate_of_surveyFindings`: what no error means for attachment classes.
* `agrees_input`: the flags of each lookup say what the glyph definition table has.
-/
namespace FontLayout

/-! ## Numbers -/

namespace Numbering

/-- What holds of a numbering while its sets are kept last first. -/
structure Valid (n : Numbering) : Prop where
  nodup : n.sets.Nodup
  size_eq : n.index.size = n.sets.length
  index_iff (s : GlyphSet) (i : Nat) : n.index[s]? = some i ↔ n.sets.reverse[i]? = some s

variable {n : Numbering} {s : GlyphSet} {sets : List GlyphSet}

theorem Valid.mem_index (h : n.Valid) : s ∈ n.index ↔ s ∈ n.sets := by
  rw [← Std.TreeMap.isSome_getElem?_iff_mem, Option.isSome_iff_exists, ← List.mem_reverse,
    List.mem_iff_getElem?]
  exact exists_congr (h.index_iff s)

theorem Valid.mem_sets_add (h : n.Valid) {t : GlyphSet} :
    t ∈ (n.add s).sets ↔ t = s ∨ t ∈ n.sets := by
  rw [add]
  split
  · next hs =>
    have hmem := h.mem_index.1 (Std.TreeMap.contains_iff_mem.1 hs)
    exact ⟨.inr, fun ht => ht.elim (fun he => he ▸ hmem) id⟩
  · exact List.mem_cons

theorem valid_empty : empty.Valid where
  nodup := .nil
  size_eq := rfl
  index_iff s i := by simp [empty]

theorem Valid.add (h : n.Valid) (s : GlyphSet) : (n.add s).Valid := by
  rw [Numbering.add]
  split
  · exact h
  · next hs =>
    have hnew : s ∉ n.sets := fun hmem => hs (Std.TreeMap.contains_iff_mem.2 (h.mem_index.2 hmem))
    refine ⟨List.nodup_cons.2 ⟨hnew, h.nodup⟩, ?_, fun t i => ?_⟩
    · rw [Std.TreeMap.size_insert, if_neg hs, h.size_eq, List.length_cons]
    · rw [List.reverse_cons, getElem?_concat_eq_some, List.length_reverse]
      by_cases he : s = t
      · subst he
        have hnone : n.sets.reverse[i]? ≠ some s := fun hi =>
          hnew (List.mem_reverse.1 (List.mem_of_getElem? hi))
        rw [Std.TreeMap.getElem?_insert_self, h.size_eq, Option.some.injEq, or_iff_right hnone,
          and_iff_left rfl, eq_comm]
      · rw [Std.TreeMap.getElem?_insert, if_neg fun hc => he (Std.LawfulEqCmp.eq_of_compare hc),
          h.index_iff, or_iff_left fun hlast => he hlast.2]

theorem valid_foldl (h : n.Valid) : (sets.foldl Numbering.add n).Valid := by
  induction sets generalizing n with
  | nil => exact h
  | cons s sets ih => exact ih (h.add s)

theorem mem_sets_foldl (h : n.Valid) {t : GlyphSet} :
    t ∈ (sets.foldl Numbering.add n).sets ↔ t ∈ sets ∨ t ∈ n.sets := by
  induction sets generalizing n with
  | nil => simp
  | cons s sets ih =>
    rw [List.foldl_cons, ih (h.add s), h.mem_sets_add, List.mem_cons, or_left_comm, or_assoc]

theorem mem_ofList : s ∈ (ofList sets).sets ↔ s ∈ sets := by
  rw [ofList, List.mem_reverse, mem_sets_foldl valid_empty]
  exact or_iff_left List.not_mem_nil

theorem nodup_ofList (sets : List GlyphSet) : (ofList sets).sets.Nodup :=
  List.nodup_reverse.2 (valid_foldl valid_empty).nodup

/-- The number of a set is its place. -/
theorem find?_ofList {i : Nat} : (ofList sets).find? s = some i ↔ (ofList sets).sets[i]? = some s :=
  (valid_foldl valid_empty).index_iff s i

theorem exists_find?_ofList (h : s ∈ sets) : ∃ i, (ofList sets).find? s = some i := by
  obtain ⟨i, hi⟩ := List.mem_iff_getElem?.1 (mem_ofList.2 h)
  exact ⟨i, find?_ofList.2 hi⟩

theorem length_ofList (sets : List GlyphSet) : (ofList sets).sets.length = sets.dedup.length :=
  List.Perm.length_eq <| (List.perm_ext_iff_of_nodup (nodup_ofList sets) sets.nodup_dedup).2
    fun _ => mem_ofList.trans List.mem_dedup.symm

end Numbering

/-! ## Attachment classes -/

/-- Whether no two different sets share a glyph. -/
def Separate (sets : List GlyphSet) : Prop :=
  ∀ a ∈ sets, ∀ b ∈ sets, ∀ g, g ∈ a → g ∈ b → a = b

/-- What a glyph finds among the numbers of disjoint sets: the number of the set it is in. -/
theorem find?_numbered {sets : List GlyphSet} (hnodup : sets.Nodup) (hseparate : Separate sets)
    {g : Glyph} {x : UInt16} :
    (ByGlyph.ofFirst (sets.zipIdx.flatMap fun (set, i) =>
        set.members.map fun g => (g, UInt16.ofNat i + 1))).find? g = some x ↔
      ∃ (i : Nat) (set : GlyphSet), sets[i]? = some set ∧ g ∈ set ∧ UInt16.ofNat i + 1 = x := by
  have hmem (y : UInt16) : (g, y) ∈ (sets.zipIdx.flatMap fun (set, i) =>
      set.members.map fun g => (g, UInt16.ofNat i + 1)) ↔
      ∃ (i : Nat) (set : GlyphSet), sets[i]? = some set ∧ g ∈ set ∧ UInt16.ofNat i + 1 = y := by
    simp only [List.mem_flatMap, Prod.exists, List.mem_zipIdx_iff_getElem?, List.mem_map,
      Prod.mk.injEq, GlyphSet.mem_def]
    constructor
    · rintro ⟨set, i, hi, h, hg, rfl, rfl⟩
      exact ⟨i, set, hi, hg, rfl⟩
    · rintro ⟨i, set, hi, hg, rfl⟩
      exact ⟨set, i, hi, g, hg, rfl, rfl⟩
  rw [ByGlyph.find?_ofFirst]
  refine ⟨fun h => (hmem x).1 (mem_of_lookup h), fun h => ?_⟩
  refine lookup_eq_some_of_unique ((hmem x).2 h) fun y hy => ?_
  obtain ⟨i, a, hi, hga, rfl⟩ := h
  obtain ⟨j, b, hj, hgb, rfl⟩ := (hmem y).1 hy
  obtain rfl := hseparate a (List.mem_of_getElem? hi) b (List.mem_of_getElem? hj) g hga hgb
  have hij : j = i := (List.getElem?_inj (List.getElem?_eq_some_iff.1 hj).1 hnodup).1
    (hj.trans hi.symm)
  rw [hij]

theorem separate_nil : Separate [] := fun _ ha => (nomatch ha)

theorem Separate.concat {sets : List GlyphSet} (h : Separate sets) {s : GlyphSet}
    (hs : ∀ a ∈ sets, a = s ∨ ∀ g, g ∈ a → g ∉ s) : Separate (sets ++ [s]) := by
  intro a ha b hb g hga hgb
  rw [List.mem_append, List.mem_singleton] at ha hb
  rcases ha with ha | rfl <;> rcases hb with hb | rfl
  · exact h a ha b hb g hga hgb
  · exact (hs a ha).resolve_right fun hnone => hnone g hga hgb
  · exact ((hs b hb).resolve_right fun hnone => hnone g hgb hga).symm
  · rfl

/-! ## Looking across lookups -/

/-- If one more lookup brings no error, its attachment class is among those that are kept, and
they still share no glyph. -/
theorem separate_attachmentsWith {seen : List NamedClass} (h : Separate (seen.map Prod.fst))
    {l : Lookup} (hclear : ∀ f ∈ attachmentFindings seen l, f.level ≠ .error) :
    Separate ((attachmentsWith seen l).map Prod.fst) ∧ seen ⊆ attachmentsWith seen l ∧
      ∀ s, l.markAttachment = some s → s ∈ (attachmentsWith seen l).map Prod.fst := by
  rw [attachmentsWith]
  cases hl : l.markAttachment with
  | none => exact ⟨h, fun _ => id, fun s hs => (nomatch hs)⟩
  | some s =>
    have hnone : overlapping? seen s = none := by
      cases hover : overlapping? seen s with
      | none => rfl
      | some other =>
        have hfinding := hclear ⟨l.ownPlace.site, .overlappingAttachment l.nameInMessages other.2⟩
          (by simp [attachmentFindings, hl, hover])
        exact absurd rfl hfinding
    have hapart : ∀ c ∈ seen.map Prod.fst, c = s ∨ ∀ g, g ∈ c → g ∉ s := by
      refine List.forall_mem_map.2 fun c hc => or_iff_not_imp_left.2 fun hne g hg hgs => ?_
      have hshare : c.1.intersects s = true := GlyphSet.intersects_iff.2 ⟨g, hg, hgs⟩
      exact List.find?_eq_none.1 hnone c hc (by simp [hne, hshare])
    simp only [hnone, Option.isSome_none, Bool.false_or, Option.some.injEq, forall_eq']
    split
    · next hknown =>
      obtain ⟨c, hc, he⟩ := List.any_eq_true.1 hknown
      exact ⟨h, List.Subset.refl _, beq_iff_eq.1 he ▸ List.mem_map_of_mem hc⟩
    · rw [List.map_append, List.map_singleton]
      exact ⟨h.concat hapart, List.subset_append_left _ _,
        List.mem_append_right _ (List.mem_singleton_self s)⟩

theorem Survey.findings_subset (lookups : Array Lookup) (ls : List Lookup) (v : Survey) :
    v.findings ⊆ (ls.foldl (Survey.step lookups) v).findings :=
  subset_foldl findings (fun _ _ => List.subset_cons_self _ _) ls v

/-- If no lookup brings an error, all attachment classes are kept, and they share no glyph. -/
theorem Survey.separate_foldl (lookups : Array Lookup) (ls : List Lookup) {v : Survey}
    (h : Separate (v.attachments.map Prod.fst))
    (hclear : ∀ fs ∈ (ls.foldl (Survey.step lookups) v).findings, ∀ f ∈ fs, f.level ≠ .error) :
    let v' := ls.foldl (Survey.step lookups) v
    Separate (v'.attachments.map Prod.fst) ∧ v.attachments ⊆ v'.attachments ∧
      ∀ l ∈ ls, ∀ s, l.markAttachment = some s → s ∈ v'.attachments.map Prod.fst := by
  induction ls generalizing v with
  | nil => exact ⟨h, List.Subset.refl _, fun l hl => (nomatch hl)⟩
  | cons l ls ih =>
    have hstep : ∀ f ∈ attachmentFindings v.attachments l, f.level ≠ .error := fun f hf =>
      hclear _ (findings_subset lookups ls _ List.mem_cons_self) f
        (List.mem_append_left _ (List.mem_append_left _ hf))
    obtain ⟨hseparate, hsubset, hown⟩ := separate_attachmentsWith h hstep
    obtain ⟨hseparate', hsubset', hrest⟩ := ih (v := v.step lookups l) hseparate hclear
    refine ⟨hseparate', List.Subset.trans hsubset hsubset', List.forall_mem_cons.2 ⟨?_, hrest⟩⟩
    exact fun s hs => List.map_subset Prod.fst hsubset' (hown s hs)

/-- If looking across the lookups finds no error, attachment classes share no glyph, and there are
no more than the high byte can tell. -/
theorem separate_of_surveyFindings {s : RuleSet} (h : ∀ f ∈ surveyFindings s, f.level ≠ .error) :
    let sets := (MarkIds.ofLookups s.lookups).attachments.sets
    Separate sets ∧ sets.length ≤ 255 := by
  simp only [surveyFindings, List.mem_append, or_imp, forall_and] at h
  obtain ⟨⟨hlookups, hcount⟩, -⟩ := h
  obtain ⟨hseparate, -, hkept⟩ := Survey.separate_foldl s.lookups.toArray s.lookups
    (v := ⟨[], []⟩) separate_nil fun fs hfs f hf =>
      hlookups f (List.mem_flatten.2 ⟨fs, List.mem_reverse.2 hfs, hf⟩)
  generalize s.lookups.foldl (Survey.step s.lookups.toArray) ⟨[], []⟩ = v at *
  have hsubset : (MarkIds.ofLookups s.lookups).attachments.sets ⊆ v.attachments.map Prod.fst := by
    intro a ha
    obtain ⟨l, hl, hla⟩ := List.mem_filterMap.1 (Numbering.mem_ofList.1 ha)
    exact hkept l hl a hla
  refine ⟨fun a ha b hb => hseparate a (hsubset ha) b (hsubset hb), ?_⟩
  have hle := (Numbering.nodup_ofList _).length_le_of_subset hsubset
  rw [List.length_map] at hle
  by_contra hmany
  have htoo : maxAttachmentClasses < v.attachments.length := by
    rw [maxAttachmentClasses]
    exact Nat.lt_of_lt_of_le (Nat.not_le.1 hmany) hle
  rw [if_pos htoo] at hcount
  exact hcount _ (List.mem_singleton_self _) rfl

/-! ## Flags as bits -/

/-- What is in the high byte is read from it. -/
theorem highByte_or_shiftLeft {low id : UInt16} (hlow : low < 0x100) (hid : id < 0x100) :
    (low ||| id <<< 8) >>> 8 = id := by
  have hl : low.toNat < 2 ^ 8 := hlow
  have hi : id.toNat < 2 ^ 8 := hid
  have hshift : id.toNat <<< 8 % 2 ^ 16 = id.toNat <<< 8 := by
    refine Nat.mod_eq_of_lt ?_
    rw [Nat.shiftLeft_eq]
    omega
  refine UInt16.toNat_inj.1 ?_
  rw [UInt16.toNat_shiftRight, UInt16.toNat_or, UInt16.toNat_shiftLeft]
  simp only [UInt16.reduceToNat, Nat.reduceMod]
  rw [hshift, Nat.or_comm, ← Nat.shiftLeft_add_eq_or_of_lt hl, Nat.shiftRight_eq_div_pow,
    Nat.shiftLeft_eq]
  omega

/-- What is in the high byte does not change the low one. -/
theorem lowByte_or_shiftLeft (low id : UInt16) : (low ||| id <<< 8) &&& 0xFF = low &&& 0xFF := by
  refine UInt16.eq_of_toBitVec_eq ?_
  ext i hi
  interval_cases i <;> simp

theorem mask_or_shiftLeft (low id : UInt16) {mask : UInt16} (hmask : 0xFF &&& mask = mask) :
    (low ||| id <<< 8) &&& mask = low &&& mask := by
  rw [← hmask, ← UInt16.and_assoc, lowByte_or_shiftLeft, UInt16.and_assoc]

section
variable (f : UInt16) {filtering : UInt16} (h : filtering = 0 ∨ filtering = 0x10)
include h

theorem filtering_bit : (f &&& ~~~useMarkFilteringSet ||| filtering) &&& 0x10 = filtering := by
  refine UInt16.eq_of_toBitVec_eq ?_
  ext i hi
  rcases h with rfl | rfl <;> interval_cases i <;> simp [useMarkFilteringSet]

theorem own_bits : (f &&& ~~~useMarkFilteringSet ||| filtering) &&& 0xEF = f &&& 0xEF := by
  refine UInt16.eq_of_toBitVec_eq ?_
  ext i hi
  rcases h with rfl | rfl <;> interval_cases i <;> simp [useMarkFilteringSet]

/-- With the defined flags alone, the high byte is free. -/
theorem low_flags_lt {f : UInt16} (hf : f &&& 0x1F = f) :
    f &&& ~~~useMarkFilteringSet ||| filtering < 0x100 := by
  have hown : (f &&& ~~~useMarkFilteringSet).toNat < 2 ^ 8 := by
    refine Nat.lt_of_le_of_lt Nat.and_le_left ?_
    rw [← hf]
    exact Nat.lt_of_le_of_lt Nat.and_le_right (by decide)
  have hfiltering : filtering.toNat < 2 ^ 8 := by
    rcases h with rfl | rfl <;> decide
  exact Nat.or_lt_two_pow hown hfiltering

end

namespace MarkIds
variable {ids : MarkIds} {l : Lookup}

theorem attachmentId_eq_zero (h : l.markAttachment = none) : ids.attachmentId l = 0 := by
  rw [attachmentId, h]
  rfl

theorem filterSetId?_eq_none (h : l.markFilterSet = none) : ids.filterSetId? l = none := by
  rw [filterSetId?, h]
  rfl

/-- The parts of the flags of a lookup. -/
theorem flags_parts (hflags : l.flags &&& 0x1F = l.flags) (hid : ids.attachmentId l < 0x100) :
    ids.flags l >>> 8 = ids.attachmentId l ∧
      ids.flags l &&& 0x10 = (if (ids.filterSetId? l).isSome then 0x10 else 0) ∧
      ids.flags l &&& 0xEF = l.flags &&& 0xEF := by
  let filtering : UInt16 := if (ids.filterSetId? l).isSome then 0x10 else 0
  have hfiltering : filtering = 0 ∨ filtering = 0x10 := by
    dsimp only [filtering]
    split
    · exact .inr rfl
    · exact .inl rfl
  refine ⟨highByte_or_shiftLeft (low_flags_lt hfiltering hflags) hid, ?_, ?_⟩
  · exact (mask_or_shiftLeft _ _ (by decide)).trans (filtering_bit l.flags hfiltering)
  · exact (mask_or_shiftLeft _ _ (by decide)).trans (own_bits l.flags hfiltering)

end MarkIds

/-! ## Flags and tables -/

/-- Whether the flags and the filtering set of a lookup as the font holds it are those of a lookup
of the rule set, with the numbers that a glyph definition table gives to classes and sets. -/
structure GlyphDefinition.Agrees (d : GlyphDefinition) (l : Lookup) (p : PreparedLookup) :
    Prop where
  unattached (h : l.markAttachment = none) : p.flags >>> 8 = 0
  attached {c : GlyphSet} (h : l.markAttachment = some c) :
    1 ≤ (p.flags >>> 8).toNat ∧ (p.flags >>> 8).toNat ≤ 255 ∧
      ∀ g, d.attachments.find? g = some (p.flags >>> 8) ↔ g ∈ c
  unfiltered (h : l.markFilterSet = none) : p.flags &&& 0x10 = 0 ∧ p.filterSet = none
  filtered {c : GlyphSet} (h : l.markFilterSet = some c) : p.flags &&& 0x10 = 0x10 ∧
    ∃ i, p.filterSet = some i ∧ d.filterSets[i.toNat]? = some c
  own : p.flags &&& 0xEF = l.flags &&& 0xEF

section
variable {s : RuleSet}

/-- The number of an attachment class, counted from 1. -/
theorem attachmentId_eq {l : Lookup} (hl : l ∈ s.lookups) {c : GlyphSet}
    (hc : l.markAttachment = some c) :
    ∃ i, (MarkIds.ofLookups s.lookups).attachments.sets[i]? = some c ∧
      (MarkIds.ofLookups s.lookups).attachmentId l = UInt16.ofNat i + 1 := by
  obtain ⟨i, hi⟩ := Numbering.exists_find?_ofList (List.mem_filterMap.2 ⟨l, hl, hc⟩)
  refine ⟨i, Numbering.find?_ofList.1 hi, ?_⟩
  have hfound : l.markAttachment.bind (MarkIds.ofLookups s.lookups).attachments.find? = some i := by
    rw [hc]
    exact hi
  rw [MarkIds.attachmentId, hfound]

theorem filterSetId?_eq {l : Lookup} (hl : l ∈ s.lookups) {c : GlyphSet}
    (hc : l.markFilterSet = some c) :
    ∃ i, (MarkIds.ofLookups s.lookups).filterSets.sets[i]? = some c ∧
      (MarkIds.ofLookups s.lookups).filterSetId? l = some (UInt16.ofNat i) := by
  obtain ⟨i, hi⟩ := Numbering.exists_find?_ofList (List.mem_filterMap.2 ⟨l, hl, hc⟩)
  refine ⟨i, Numbering.find?_ofList.1 hi, ?_⟩
  rw [MarkIds.filterSetId?, hc]
  exact congrArg (Option.map UInt16.ofNat) hi

theorem toNat_number {i : Nat} (hi : i < 255) : (UInt16.ofNat i + 1).toNat = i + 1 := by
  rw [UInt16.toNat_add, UInt16.toNat_ofNat_of_lt' (Nat.lt_trans hi (by decide)), UInt16.toNat_one]
  omega

variable (hsurvey : ∀ f ∈ surveyFindings s, f.level ≠ .error)
include hsurvey

/-- A number in the map of attachment classes is that of the class of a glyph. -/
theorem find?_attachments {g : Glyph} {x : UInt16} :
    (GlyphDefinition.ofRules s (MarkIds.ofLookups s.lookups)).attachments.find? g = some x ↔
      ∃ (i : Nat) (c : GlyphSet), (MarkIds.ofLookups s.lookups).attachments.sets[i]? = some c ∧
        g ∈ c ∧ UInt16.ofNat i + 1 = x :=
  find?_numbered (Numbering.nodup_ofList _) (separate_of_surveyFindings hsurvey).1

/-- A glyph has no number if it is in no attachment class. -/
theorem find?_attachments_eq_none {g : Glyph} :
    (GlyphDefinition.ofRules s (MarkIds.ofLookups s.lookups)).attachments.find? g = none ↔
      ∀ l ∈ s.lookups, ∀ c, l.markAttachment = some c → g ∉ c := by
  rw [Option.eq_none_iff_forall_ne_some]
  simp only [ne_eq, find?_attachments hsurvey]
  constructor
  · intro h l hl c hc hg
    obtain ⟨i, hi, -⟩ := attachmentId_eq hl hc
    exact h _ ⟨i, c, hi, hg, rfl⟩
  · rintro h x ⟨i, c, hi, hg, -⟩
    obtain ⟨l, hl, hc⟩ := List.mem_filterMap.1 (Numbering.mem_ofList.1 (List.mem_of_getElem? hi))
    exact h l hl c hc hg

theorem place_lt {i : Nat} {c : GlyphSet}
    (hi : (MarkIds.ofLookups s.lookups).attachments.sets[i]? = some c) : i < 255 :=
  Nat.lt_of_lt_of_le (List.getElem?_eq_some_iff.1 hi).1 (separate_of_surveyFindings hsurvey).2

theorem attachmentId_range {l : Lookup} (hl : l ∈ s.lookups) {c : GlyphSet}
    (hc : l.markAttachment = some c) :
    1 ≤ ((MarkIds.ofLookups s.lookups).attachmentId l).toNat ∧
      ((MarkIds.ofLookups s.lookups).attachmentId l).toNat ≤ 255 := by
  obtain ⟨i, hi, hid⟩ := attachmentId_eq hl hc
  have hlt := place_lt hsurvey hi
  rw [hid, toNat_number hlt]
  omega

theorem attachmentId_lt {l : Lookup} (hl : l ∈ s.lookups) :
    (MarkIds.ofLookups s.lookups).attachmentId l < 0x100 := by
  cases hc : l.markAttachment with
  | none =>
    rw [MarkIds.attachmentId_eq_zero hc]
    decide
  | some c => exact Nat.lt_succ_of_le (attachmentId_range hsurvey hl hc).2

/-- The number of the attachment class of a lookup tells its glyphs from all others. -/
theorem find?_attachments_eq_attachmentId {l : Lookup} (hl : l ∈ s.lookups) {c : GlyphSet}
    (hc : l.markAttachment = some c) (g : Glyph) :
    (GlyphDefinition.ofRules s (MarkIds.ofLookups s.lookups)).attachments.find? g =
      some ((MarkIds.ofLookups s.lookups).attachmentId l) ↔ g ∈ c := by
  obtain ⟨i, hi, hid⟩ := attachmentId_eq hl hc
  rw [find?_attachments hsurvey, hid]
  constructor
  · rintro ⟨j, c', hj, hg, he⟩
    have hij : j + 1 = i + 1 := by
      rw [← toNat_number (place_lt hsurvey hi), ← toNat_number (place_lt hsurvey hj), he]
    obtain rfl : j = i := Nat.succ.inj hij
    rwa [Option.some.inj (hi.symm.trans hj)]
  · exact fun hg => ⟨i, c, hi, hg, rfl⟩

/-- The flags of each lookup say what the glyph definition table has. -/
theorem agrees_prepare (hflags : ∀ l ∈ s.lookups, l.flags &&& 0x1F = l.flags)
    (hsets : (s.lookups.filterMap Lookup.markFilterSet).dedup.length ≤ 0xFFFF)
    {r : ResolvedLookup} (hr : r.lookup ∈ s.lookups) :
    (GlyphDefinition.ofRules s (MarkIds.ofLookups s.lookups)).Agrees r.lookup
      (r.prepare (MarkIds.ofLookups s.lookups)) := by
  obtain ⟨hbyte, hbit, hown⟩ := MarkIds.flags_parts (hflags _ hr) (attachmentId_lt hsurvey hr)
  unfold ResolvedLookup.prepare
  refine ⟨fun h => ?_, fun {c} hc => ?_, fun h => ?_, fun {c} hc => ?_, hown⟩ <;> dsimp only
  · rw [hbyte, MarkIds.attachmentId_eq_zero h]
  · obtain ⟨hpos, hle⟩ := attachmentId_range hsurvey hr hc
    rw [hbyte]
    exact ⟨hpos, hle, find?_attachments_eq_attachmentId hsurvey hr hc⟩
  · have hnone : (MarkIds.ofLookups s.lookups).filterSetId? r.lookup = none :=
      MarkIds.filterSetId?_eq_none h
    rw [hbit, hnone]
    exact ⟨rfl, rfl⟩
  · obtain ⟨i, hi, hset⟩ := filterSetId?_eq hr hc
    have hlt := (List.getElem?_eq_some_iff.1 hi).1
    rw [MarkIds.ofLookups, Numbering.length_ofList] at hlt
    rw [hbit, hset]
    refine ⟨rfl, _, rfl, ?_⟩
    rw [UInt16.toNat_ofNat_of_lt' (Nat.lt_of_lt_of_le hlt (Nat.le_succ_of_le hsets))]
    exact hi

end

/-- What holds of each lookup and how it is prepared holds of the lookups of a table. -/
theorem forall₂_input {s : RuleSet} {R : Lookup → PreparedLookup → Prop}
    (h : ∀ r : ResolvedLookup, r.lookup ∈ s.lookups →
      R r.lookup (r.prepare (MarkIds.ofLookups s.lookups)))
    {resolved : List ResolvedLookup} (hresolved : (resolveLookups s).value = some resolved)
    (p : Purpose) :
    List.Forall₂ R (s.lookups.filter (·.kind.purpose == p)) (s.input resolved p).lookups := by
  rw [← filter_of_resolveLookups hresolved, RuleSet.input, tableInput,
    List.forall₂_map_left_iff, List.forall₂_map_right_iff, List.forall₂_same]
  exact fun r hr => h r (mem_of_resolveLookups hresolved (List.mem_filter.1 hr).1)

end FontLayout
