import FontLayout.Proofs.Counts.Compiled
import FontLayout.Proofs.Layout.Extension
import FontLayout.Proofs.Layout.MarkFlags
import FontLayout.Proofs.Outcomes
import FontLayout.Proofs.Packing.Contexts
import FontLayout.Proofs.Reading.Packed
/-!
# Contextual rules reach the lookups they name

A rule names a lookup by its place in the rule set. In the font it is known by its place in the
table of its purpose. Packing leaves out a reference to a lookup that has no place there; but such a
reference is an error, so none is left out of a rule set that is compiled. A rule of another kind
than its lookup is an error as well, and a contextual rule is only left out if it repeats an
earlier one of its lookup word for word.

Results:
* `RuleSet.exists_place`: the place of a lookup in its table.
* `RuleSet.exists_of_mem_references`: without errors, references stay within their table.
* `forall₂_sifted`: what resolving makes of each lookup of a table.
* `contexts_compile`: what contextual rules are compiled to.
* `contexts_repeatedRule`: two rules that say the same share a subtable.
-/
namespace FontLayout

open Packing

/-! ## References -/

theorem Survey.exists_findings (lookups : Array Lookup) {ls : List Lookup} {l : Lookup}
    (hl : l ∈ ls) (v : Survey) :
    ∃ fs ∈ (ls.foldl (Survey.step lookups) v).findings, referenceFindings lookups l ⊆ fs := by
  induction ls generalizing v with
  | nil => cases hl
  | cons x ls ih =>
    rcases List.mem_cons.1 hl with rfl | hl
    · exact ⟨_, findings_subset lookups ls _ List.mem_cons_self, List.subset_append_right _ _⟩
    · exact ih hl _

/-- What a rule refers to, without the positions. -/
theorem RuleBody.mem_references {b : RuleBody} {c : ChainContext} (hc : b.context? = some c)
    {i l : Nat} (h : (i, l) ∈ c.references) : l ∈ b.references := by
  obtain ⟨x, hx, hl⟩ := ChainContext.mem_references.1 h
  rw [references, hc]
  exact List.mem_flatMap.2 ⟨x, List.mem_of_getElem? hx, hl⟩

namespace RuleSet
variable {s : RuleSet} {p : Purpose} {l : Lookup} {i : Nat}

/-- If nothing is wrong with the rule set as a whole, contextual rules refer to lookups of their
own table. -/
theorem exists_of_mem_references (h : surveyFindings s = []) (hl : l ∈ s.lookups) {r : Rule}
    (hr : r ∈ l.rules) (hi : i ∈ r.body.references) :
    ∃ other, s.lookups[i]? = some other ∧ other.kind.purpose = l.kind.purpose := by
  obtain ⟨fs, hfs, hsub⟩ := Survey.exists_findings s.lookups.toArray hl ⟨[], []⟩
  simp only [surveyFindings, List.append_eq_nil_iff, List.flatten_eq_nil_iff, List.mem_reverse] at h
  have hnone : referenceFindings s.lookups.toArray l = [] :=
    List.eq_nil_of_subset_nil (h.1.1 fs hfs ▸ hsub)
  have hcause : referenceCause? s.lookups.toArray l i = none := by
    have hmap := List.flatMap_eq_nil_iff.1 hnone r hr
    exact List.filterMap_eq_nil_iff.1 (List.map_eq_nil_iff.1 hmap) i hi
  unfold referenceCause? at hcause
  split at hcause
  · cases hcause
  · next other hother =>
    split at hcause
    · cases hcause
    · next hpurpose => exact ⟨other, by simpa using hother, by simpa using hpurpose⟩

/-! ## Places -/

theorem mem_lookupsFor : (l, i) ∈ s.lookupsFor p ↔ s.lookups[i]? = some l ∧ l.kind.purpose = p := by
  rw [lookupsFor, List.mem_filter, List.mem_zipIdx_iff_getElem?, beq_iff_eq]

theorem nodup_lookupsFor (s : RuleSet) (p : Purpose) :
    ((s.lookupsFor p).map Prod.snd).Nodup := by
  have hall : (s.lookups.zipIdx.map Prod.snd).Nodup := by
    rw [List.zipIdx_map_snd]
    exact List.nodup_range'
  exact hall.sublist (List.filter_sublist.map Prod.snd)

/-- A lookup has a place in its table, and there it stands. -/
theorem exists_place (hlength : (s.lookupsFor p).length ≤ 0xFFFF) (h : (l, i) ∈ s.lookupsFor p) :
    ∃ place, (s.placesFor p)[i]? = some place ∧
      (s.lookupsFor p)[place.toNat]? = some (l, i) := by
  obtain ⟨k, hk⟩ := List.mem_iff_getElem?.1 h
  have hlt := (List.getElem?_eq_some_iff.1 hk).1
  refine ⟨.ofNat k, getElem?_foldl_zipIdx Prod.snd (nodup_lookupsFor s p) hk, ?_⟩
  rwa [UInt16.toNat_ofNat_of_lt' (Nat.lt_of_lt_of_le hlt (Nat.le_succ_of_le hlength))]

/-! ## Rules and their subtables -/

/-- Whether a record stands for a reference: it has its position, and the place in the table of
the very lookup that is referred to. -/
def Resolves (s : RuleSet) (p : Purpose) (reference : Nat × Nat) (record : UInt16 × UInt16) :
    Prop :=
  record.1.toNat = reference.1 ∧
    ∃ l, (s.lookupsFor p)[record.2.toNat]? = some (l, reference.2)

/-- Whether a subtable says what a contextual rule says. -/
structure Tells (s : RuleSet) (p : Purpose) (c : ChainContext) (content : ChainSubtable) :
    Prop where
  backtrack : content.backtrack = c.backtrack.reverse
  input : content.input = c.input.map ContextInput.glyphs
  lookahead : content.lookahead = c.lookahead
  records : List.Forall₂ (s.Resolves p) c.references content.records

/-- Whether a subtable of a lookup of this kind says what a rule says, and a reader gets it from
the bytes of the subtable. -/
def CarriesOut (s : RuleSet) (kind : Kind) (body : RuleBody) (t : Subtable) : Prop :=
  ∃ c content, body.context? = some c ∧ t = .chain content ∧ s.Tells kind.purpose c content ∧
    readSubtable kind (bytesOfBlocks t.table.blocks) = some t.reading

/-- The subtable of a rule tells all of it, if its positions and the lookups of the table can be
told by a word. -/
theorem tells_chainSubtable (h : surveyFindings s = [])
    (hlength : (s.lookupsFor l.kind.purpose).length ≤ 0xFFFF) (hl : l ∈ s.lookups) {r : Rule}
    (hr : r ∈ l.rules) {c : ChainContext} (hc : r.body.context? = some c)
    (hinput : c.input.length ≤ 0xFFFF) :
    s.Tells l.kind.purpose c (chainSubtable (s.placesFor l.kind.purpose) c) := by
  have hall : ∀ x ∈ c.references, x.1 < c.input.length ∧
      ∃ place other, (s.placesFor l.kind.purpose)[x.2]? = some place ∧
        (s.lookupsFor l.kind.purpose)[place.toNat]? = some (other, x.2) := by
    intro x hx
    obtain ⟨other, hother, hpurpose⟩ :=
      exists_of_mem_references h hl hr (RuleBody.mem_references hc hx)
    obtain ⟨place, hplace, hstands⟩ := exists_place hlength (mem_lookupsFor.2 ⟨hother, hpurpose⟩)
    exact ⟨ChainContext.lt_of_mem_references hx, place, other, hplace, hstands⟩
  have hrecords := forall₂_lookupRecords (s.placesFor l.kind.purpose)
    fun x hx => (hall x hx).2.imp fun place ⟨_, hplace, _⟩ => hplace
  refine ⟨rfl, rfl, rfl, ((List.forall₂_and_left _ _).2 ⟨hall, hrecords⟩).imp ?_⟩
  rintro x record ⟨⟨hlt, place, other, hplace, hstands⟩, hfirst, hsecond⟩
  obtain rfl := Option.some.inj (hplace.symm.trans hsecond)
  have hword : x.1 < UInt16.size := Nat.lt_of_lt_of_le hlt (Nat.le_succ_of_le hinput)
  exact ⟨by rw [hfirst, UInt16.toNat_ofNat_of_lt' hword], other, hstands⟩

/-- The subtable of a rule carries it out, if it can be encoded. -/
theorem carriesOut_chainSubtable (h : surveyFindings s = [])
    (hlength : (s.lookupsFor l.kind.purpose).length ≤ 0xFFFF) (hl : l ∈ s.lookups)
    (hkind : l.kind.Contextual) {r : Rule} (hr : r ∈ l.rules) {c : ChainContext}
    (hc : r.body.context? = some c)
    (hencode : (chainSubtable (s.placesFor l.kind.purpose) c).table.encode =
      .ok (bytesOfBlocks (chainSubtable (s.placesFor l.kind.purpose) c).table.blocks)) :
    s.CarriesOut l.kind r.body (.chain (chainSubtable (s.placesFor l.kind.purpose) c)) := by
  generalize hcontent : chainSubtable (s.placesFor l.kind.purpose) c = content at hencode ⊢
  have hcounts : content.table.CountsFit :=
    ChainSubtable.countsFit_table (Table.fits_of_encode hencode)
      (hcontent ▸ bound_chainSubtable (s.placesFor l.kind.purpose) c)
  have hinput : c.input.length ≤ 0xFFFF := by
    have hinput := ChainSubtable.length_input_le hcounts
    rwa [← hcontent, chainSubtable, List.length_map] at hinput
  have hkinds : l.kind ∈ (Subtable.chain content).kinds := by
    rcases hkind with hkind | hkind <;> simp [hkind, Subtable.kinds]
  have hyields := Subtable.yields_table (s := .chain content) trivial hkinds
  exact ⟨c, content, hc, rfl, hcontent ▸ tells_chainSubtable h hlength hl hr hc hinput,
    hyields.read_eq (Table.stands_of_encode hencode hcounts)⟩

end RuleSet

/-! ## Lookups -/

/-- What resolving makes of a lookup. -/
structure ResolvedLookup.Sifts (r : ResolvedLookup) (l : Lookup) : Prop where
  lookup_eq : r.lookup = l
  kinds : ∀ rule ∈ l.rules, rule.body.kind = l.kind
  bodies_eq : l.kind.Contextual → r.rules.map Rule.body = (l.rules.map Rule.body).eraseDups

/-- Every rule of a contextual lookup tells a context. -/
theorem ResolvedLookup.Sifts.exists_rule {r : ResolvedLookup} {l : Lookup} (h : r.Sifts l)
    (hkind : l.kind.Contextual) {b : RuleBody} (hb : b ∈ (l.rules.map Rule.body).eraseDups) :
    ∃ rule ∈ l.rules, rule.body = b ∧ ∃ c, b.context? = some c := by
  obtain ⟨rule, hrule, rfl⟩ := List.mem_map.1 (List.mem_eraseDups.1 hb)
  have hbody : rule.body.kind.Contextual := h.kinds rule hrule ▸ hkind
  exact ⟨rule, hrule, rfl, (RuleBody.exists_context hbody).2⟩

theorem sifts_of_passes {defined : List MarkClass} {a : Lookup × LookupPlace} {r : ResolvedLookup}
    (h : (resolveLookup defined a).Passes r) : r.Sifts a.1 := by
  obtain ⟨rules, hrules, h⟩ := Audit.passes_bind.1 h
  obtain ⟨marks, -, h⟩ := Audit.passes_bind.1 h
  have hkinds := kinds_of_passes hrules
  cases h.1
  refine ⟨rfl, hkinds, fun hkind => bodies_distinctRules (fun rule hrule => ?_) hrules.1⟩
  have hrule := hkinds rule hrule
  exact ⟨hrule, (RuleBody.exists_context (hrule.symm ▸ hkind)).1⟩

section
variable {s : RuleSet} {resolved : List ResolvedLookup} {p : Purpose}

/-- What resolving makes of the lookups of a table, in order. -/
theorem forall₂_sifts (h : (resolveLookups s).Passes resolved) (p : Purpose) :
    List.Forall₂ (fun l r => ResolvedLookup.Sifts r l.1) (s.lookupsFor p)
      (resolved.filter (·.lookup.kind.purpose == p)) := by
  have hall : List.Forall₂ (fun l r => ResolvedLookup.Sifts r l) s.lookups resolved := by
    have hpairs := (Audit.forall₂_of_passes_traverse h).imp fun _ _ => sifts_of_passes
    have hfst : s.lookups = (s.lookups.zip s.lookupPlaces).map Prod.fst := by
      rw [List.map_fst_zip]
      simp [RuleSet.lookupPlaces]
    rw [hfst]
    exact List.forall₂_map_left_iff.2 hpairs
  rw [← List.zipIdx_map_fst 0 s.lookups, List.forall₂_map_left_iff] at hall
  refine List.rel_filter (fun l r hr => ?_) hall
  dsimp only
  rw [hr.lookup_eq]

end

/-- What a lookup of a rule set becomes in the table of its purpose: if its rules are contextual,
a subtable for each of them, but for those that repeat an earlier one word for word. -/
structure RuleSet.Emits (s : RuleSet) (l : Lookup × Nat) (x : PreparedLookup × List Subtable) :
    Prop where
  kind_eq : x.1.kind = l.1.kind
  kinds : ∀ t ∈ x.2, l.1.kind ∈ t.kinds
  contexts : l.1.kind.Contextual →
    List.Forall₂ (s.CarriesOut l.1.kind) (l.1.rules.map Rule.body).eraseDups x.2

theorem forall₂_zipWith {α β γ δ : Type} {R : α → β → Prop} {S : α → δ → Prop} {f : β → γ → δ}
    {as : List α} {bs : List β} {cs : List γ} (h : List.Forall₂ R as bs)
    (hlength : cs.length = bs.length) (hf : ∀ a b c, R a b → S a (f b c)) :
    List.Forall₂ S as (List.zipWith f bs cs) := by
  induction h generalizing cs with
  | nil => exact .nil
  | cons hr _ ih =>
    cases cs with
    | nil => cases hlength
    | cons c cs => exact .cons (hf _ _ c hr) (ih (Nat.succ.inj hlength))

section
variable {s : RuleSet} {p : Purpose}

/-- What a lookup becomes whatever the budget, if its subtables can be encoded. -/
theorem emits_of_sifts (h : surveyFindings s = []) (hlength : (s.lookupsFor p).length ≤ 0xFFFF)
    {l : Lookup × Nat} (hl : l ∈ s.lookupsFor p) {r : ResolvedLookup} (hr : r.Sifts l.1)
    {ids : MarkIds} {budget : Budget}
    (hencode : ∀ t ∈ ((r.prepare ids).pack (s.placesFor p) budget).subtables,
      t.table.encode = .ok (bytesOfBlocks t.table.blocks)) :
    s.Emits l (r.prepare ids, ((r.prepare ids).pack (s.placesFor p) budget).subtables) := by
  obtain ⟨l, i⟩ := l
  obtain ⟨hi, rfl⟩ := RuleSet.mem_lookupsFor.1 hl
  obtain rfl := hr.lookup_eq
  refine ⟨rfl, fun t ht => kind_of_packed ht, fun hkind => ?_⟩
  dsimp only at hencode hkind ⊢
  have hsubtables : ((r.prepare ids).pack (s.placesFor r.lookup.kind.purpose) budget).subtables =
      ((r.lookup.rules.map Rule.body).eraseDups.filterMap RuleBody.context?).map fun c =>
        .chain (chainSubtable (s.placesFor r.lookup.kind.purpose) c) := by
    rw [← hr.bodies_eq hkind, List.filterMap_map]
    exact subtables_of_contextual hkind r.rules r.marks _ budget
  have hcontexts := forall₂_filterMap fun b hb => (hr.exists_rule hkind hb).elim fun _ h => h.2.2
  rw [hsubtables] at hencode ⊢
  rw [List.forall_mem_map] at hencode
  rw [List.forall₂_map_right_iff, List.forall₂_iff_zip]
  refine ⟨hcontexts.length_eq, fun {b c} hbc => ?_⟩
  obtain ⟨hb, hc⟩ := List.of_mem_zip hbc
  obtain ⟨rule, hrule, rfl, -⟩ := hr.exists_rule hkind hb
  exact RuleSet.carriesOut_chainSubtable h hlength (List.mem_of_getElem? hi) hkind hrule
    (List.forall₂_zip hcontexts hbc) (hencode c hc)

end

/-! ## Compiled rule sets -/

section
variable {s : RuleSet} {glyphs : GlyphOrder} {o : Options} {c : Compilation}

/-- The lookups of a table, as they are resolved if a rule set is compiled. -/
theorem emits_packedAfter (h : compile s glyphs o = .ok c) {p : Purpose}
    {resolved : List ResolvedLookup} (hresolved : (resolveLookups s).value = some resolved)
    {halvings : List Nat} (hallows : (s.input resolved p).Allows o halvings)
    (hlength : ((s.input resolved p).packedAfter o halvings).length ≤ 0xFFFF)
    (hencode : ∀ x ∈ (s.input resolved p).packedAfter o halvings, ∀ t ∈ x.2,
      t.table.encode = .ok (bytesOfBlocks t.table.blocks)) :
    List.Forall₂ s.Emits (s.lookupsFor p) ((s.input resolved p).packedAfter o halvings) := by
  obtain ⟨_, -, hpass⟩ := Audit.passes_bind.1 (passes_compile h)
  obtain ⟨resolved', hpass, -⟩ := Audit.passes_bind.1 hpass
  obtain rfl := Option.some.inj (hpass.1.symm.trans hresolved)
  have hpacked : List.Forall₂ (fun l x => ∃ (r : ResolvedLookup) (budget : Budget), r.Sifts l.1 ∧
      x = (r.prepare (.ofLookups s.lookups),
        ((r.prepare (.ofLookups s.lookups)).pack (s.placesFor p) budget).subtables))
      (s.lookupsFor p) ((s.input resolved' p).packedAfter o halvings) := by
    rw [TableInput.packedAfter, RuleSet.input, tableInput, List.zipWith_map_left]
    refine forall₂_zipWith (forall₂_sifts hpass p) ?_ fun l r k hr => ⟨r, _, hr, rfl⟩
    exact hallows.length_eq.trans (List.length_map _)
  rw [← hpacked.length_eq] at hlength
  refine List.forall₂_iff_zip.2 ⟨hpacked.length_eq, fun {l x} hlx => ?_⟩
  obtain ⟨hl, hx⟩ := List.of_mem_zip hlx
  obtain ⟨r, budget, hr, rfl⟩ := List.forall₂_zip hpacked hlx
  exact emits_of_sifts (surveyFindings_of_compile h) hlength hl hr (hencode _ hx)

/-- **Contextual rules reach the lookups they name.** Each table that comes out holds the lookups
of its purpose in order, and in the place of each subtable the bytes that it is encoded to. Each
rule of a contextual lookup has a subtable of its own, in order, unless it repeats an earlier rule
word for word. It has the rule's backtrack in reverse, and the glyph sets of its input and its
lookahead in order; and its records are, one for each reference of the rule, the position and the
place in the table of the very lookup that is referred to. -/
theorem contexts_compile (h : compile s glyphs o = .ok c) {p : Purpose} {bytes : ByteArray}
    (hbytes : c.tables.layout? p = some bytes) :
    ∃ resolved halvings, (resolveLookups s).value = some resolved ∧
      let input := s.input resolved p
      let packed := input.packedAfter o halvings
      input.Allows o halvings ∧ input.HoldsBlocks packed (input.extensionType? o) bytes ∧
        List.Forall₂ s.Emits (s.lookupsFor p) packed := by
  obtain ⟨resolved, hc⟩ := exists_compiledFrom h
  obtain ⟨halvings, hallows, htree⟩ := TableInput.encode_of_assemble (hc.assemble_layout hbytes)
  obtain ⟨hencode, hholds⟩ := TableInput.holdsBlocks_of_encode htree
  obtain ⟨-, -, hlength, -⟩ := fits_layoutTable (Table.fits_of_encode htree)
  rw [List.length_map] at hlength
  exact ⟨resolved, halvings, hc.resolve, hallows, hholds,
    emits_packedAfter h hc.resolve hallows hlength hencode⟩

end

/-! ## A rule that is repeated -/

/-- The third glyph is replaced behind the first, between others. The lookup that is referred to is
the third of its rule set. -/
def swashRule : Rule where
  body := .chainSub
    { backtrack := [.singleton 4, .singleton 5]
      input := [⟨.singleton 1, []⟩, ⟨.singleton 3, [2]⟩]
      lookahead := [.singleton 6] }
  line := none
  breakBefore := false

/-- A rule set with a lookup of the other table, one that has the rule twice, and the one that the
rule refers to. -/
def swashRules : RuleSet where
  fontName := "Swash"
  lookups := [⟨none, .singlePos, 0, none, none, []⟩,
    ⟨none, .chainSub, 0, none, none, [swashRule, swashRule]⟩,
    ⟨none, .singleSub, 0, none, none, [⟨.singleSub 3 7, none, false⟩]⟩]
  features := []
  markClasses := []
  glyphFacts := ⟨none, []⟩

/-- Only the substitution table is asked for. -/
def substitutionsOnly : Options := { Options.default with gpos := false, gdef := false }

/-- The lookups of the rule set, once they are resolved. -/
def swashResolved : List ResolvedLookup :=
  List.zipWith (fun l rules => ⟨l, ⟨none, none⟩, rules, none⟩) swashRules.lookups
    [[], [swashRule], [⟨.singleSub 3 7, none, false⟩]]

/-- The tree of the substitution table. The contextual lookup has one subtable, whose only record
is for the second lookup of the table at the second position. -/
def swashTree : Table :=
  let chain : ChainSubtable :=
    ⟨[.singleton 5, .singleton 4], [.singleton 1, .singleton 3], [.singleton 6], [(1, 1)]⟩
  layoutTable [] [] [(LookupRecord.mk 6 0 none [chain.table]).table none,
    (LookupRecord.mk 1 0 none [singleSubTable (.ofFirst [(3, 7)])]).table none]

theorem encode_swashTree : swashTree.encode = .ok (bytesOfBlocks swashTree.blocks) := by
  have hfits : swashTree.overflow? = none := rfl
  rw [Table.encode, ← Table.overflow?, hfits]

theorem assemble_swashResolved :
    (swashRules.input swashResolved .substitution).assemble substitutionsOnly =
      ⟨[], some (bytesOfBlocks swashTree.blocks)⟩ :=
  TableInput.assemble_of_encode rfl encode_swashTree

/-- What is found in the rule set. -/
def swashNote : Finding := ⟨⟨none, none, none⟩, .repeatedRule .chainSub ⟨none, none⟩⟩

/-- The rule set is compiled, with a note. -/
theorem compile_swashRules (glyphs : GlyphOrder) : compile swashRules glyphs substitutionsOnly =
    .ok ⟨⟨none, some (bytesOfBlocks swashTree.blocks), none⟩,
      ⟨[swashNote.diagnose "Swash" glyphs], 100⟩⟩ := by
  have hsurvey : surveyFindings swashRules = [] := by decide
  have hresolve : resolveLookups swashRules = ⟨[swashNote], some swashResolved⟩ := rfl
  have hgsub : assembleTable substitutionsOnly true (swashRules.input swashResolved .substitution) =
      ⟨[], some (some (bytesOfBlocks swashTree.blocks))⟩ :=
    congrArg (Audit.map some) assemble_swashResolved
  have haudit : auditRules swashRules substitutionsOnly =
      ⟨[swashNote], some ⟨none, some (bytesOfBlocks swashTree.blocks), none⟩⟩ := by
    rw [auditRules, hsurvey, hresolve]
    change Audit.bind ⟨_, some swashResolved⟩ (fun _ => Audit.bind (assembleTable substitutionsOnly
      true (swashRules.input swashResolved .substitution)) _) = _
    rw [hgsub]
    rfl
  rw [compile, haudit]
  rfl

/-- The lookups of the rule set, and what they have become. -/
theorem contexts_compile_swash : ∃ c bytes,
    compile swashRules default substitutionsOnly = .ok c ∧
      c.tables.layout? .substitution = some bytes ∧
      ∃ resolved halvings, (resolveLookups swashRules).value = some resolved ∧
        let input := swashRules.input resolved .substitution
        let packed := input.packedAfter substitutionsOnly halvings
        input.Allows substitutionsOnly halvings ∧
          input.HoldsBlocks packed (input.extensionType? substitutionsOnly) bytes ∧
          List.Forall₂ swashRules.Emits (swashRules.lookupsFor .substitution) packed :=
  ⟨_, _, compile_swashRules default, rfl, contexts_compile (compile_swashRules default) rfl⟩

/-- The contextual lookup has two rules, but one subtable, so not every rule has its own. -/
theorem contexts_repeatedRule : ∃ c bytes,
    compile swashRules default substitutionsOnly = .ok c ∧
      c.tables.layout? .substitution = some bytes ∧ swashTree.encode = .ok bytes ∧
      ∀ resolved halvings, (resolveLookups swashRules).value = some resolved →
        let input := swashRules.input resolved .substitution
        ¬ List.Forall₂ (fun l x => l.1.kind.Contextual →
            List.Forall₂ (swashRules.CarriesOut l.1.kind) (l.1.rules.map Rule.body) x.2)
          (swashRules.lookupsFor .substitution)
          (input.packedAfter substitutionsOnly halvings) := by
  refine ⟨_, _, compile_swashRules default, rfl, encode_swashTree, ?_⟩
  intro resolved halvings hresolved
  obtain rfl : swashResolved = resolved := Option.some.inj hresolved
  dsimp only
  intro hall
  cases halvings with
  | nil => cases hall
  | cons k halvings =>
    cases hall with
    | cons hhead _ =>
      have hlength := (hhead (.inl rfl)).length_eq
      have hone := congrArg List.length (subtables_of_contextual (.inl rfl) [swashRule] none
        (swashRules.placesFor .substitution) (substitutionsOnly.budgetAfter k))
      cases hlength.trans hone

end FontLayout
