import FontLayout.Compilation
import FontLayout.Proofs.Layout.Attempts
/-!
# What a compilation comes to

If a rule set is compiled, every step on the way has come to a value: its lookups are resolved,
and each table that comes out has been assembled from them. Resolving changes the rules of a
lookup and nothing else about it, so the lookups of each purpose are those of the rule set.

Results:
* `exists_compiledFrom`: what is known of the tables of a compiled rule set.
* `filter_of_resolveLookups`: the lookups of each purpose are those of the rule set.
-/
namespace FontLayout

/-! ## Lookups -/

theorem lookups_of_resolveLookups {s : RuleSet} {resolved : List ResolvedLookup}
    (h : (resolveLookups s).value = some resolved) :
    resolved.map ResolvedLookup.lookup = s.lookups := by
  have hone {l : Lookup × LookupPlace} {r : ResolvedLookup}
      (hr : (resolveLookup s.markClasses l).value = some r) : r.lookup = l.1 := by
    obtain ⟨rules, -, hr⟩ := Audit.value_bind_eq_some.1 hr
    obtain ⟨marks, -, hr⟩ := Audit.value_bind_eq_some.1 hr
    cases hr
    rfl
  have hmap : resolved.map ResolvedLookup.lookup =
      (s.lookups.zip s.lookupPlaces).map Prod.fst := by
    have hall := Audit.forall₂_of_traverse h
    clear h
    generalize s.lookups.zip s.lookupPlaces = ls at hall
    induction hall with
    | nil => rfl
    | cons hr _ ih => rw [List.map_cons, List.map_cons, hone hr, ih]
  rw [hmap, List.map_fst_zip]
  simp [RuleSet.lookupPlaces]

theorem mem_of_resolveLookups {s : RuleSet} {resolved : List ResolvedLookup}
    (h : (resolveLookups s).value = some resolved) {r : ResolvedLookup} (hr : r ∈ resolved) :
    r.lookup ∈ s.lookups := by
  rw [← lookups_of_resolveLookups h]
  exact List.mem_map_of_mem hr

/-- The lookups of a purpose are those of the rule set. -/
theorem filter_of_resolveLookups {s : RuleSet} {resolved : List ResolvedLookup}
    (h : (resolveLookups s).value = some resolved) (p : Purpose) :
    (resolved.filter (·.lookup.kind.purpose == p)).map ResolvedLookup.lookup =
      s.lookups.filter (·.kind.purpose == p) := by
  rw [← lookups_of_resolveLookups h, List.filter_map]
  rfl

/-! ## Tables -/

/-- Whether the table of a purpose is wanted. -/
def Options.wants (o : Options) : Purpose → Bool
  | .substitution => o.gsub
  | .positioning => o.gpos

/-- The table of a purpose. -/
def LayoutTables.layout? (t : LayoutTables) : Purpose → Option ByteArray
  | .substitution => t.gsub
  | .positioning => t.gpos

/-- The contents of the table of a purpose, with the numbers that marks have in this rule set. -/
def RuleSet.input (s : RuleSet) (resolved : List ResolvedLookup) (p : Purpose) : TableInput :=
  tableInput s (MarkIds.ofLookups s.lookups) resolved p

/-- Tables that come from the lookups of a rule set once these are resolved. -/
structure CompiledFrom (s : RuleSet) (o : Options) (resolved : List ResolvedLookup)
    (t : LayoutTables) : Prop where
  resolve : (resolveLookups s).value = some resolved
  layout : ∀ p, (assembleTable o (o.wants p) (s.input resolved p)).value = some (t.layout? p)
  gdef : (if o.gdef then GlyphDefinition.assemble s (MarkIds.ofLookups s.lookups)
    else Audit.pure none).value = some t.gdef

section
variable {s : RuleSet} {o : Options}

theorem value_auditRules {t : LayoutTables} (h : (auditRules s o).value = some t) :
    ∃ resolved, CompiledFrom s o resolved t := by
  obtain ⟨-, -, h⟩ := Audit.value_bind_eq_some.1 h
  obtain ⟨resolved, hresolved, h⟩ := Audit.value_bind_eq_some.1 h
  obtain ⟨gsub, hgsub, h⟩ := Audit.value_bind_eq_some.1 h
  obtain ⟨gpos, hgpos, h⟩ := Audit.value_bind_eq_some.1 h
  obtain ⟨gdef, hgdef, ht⟩ : ∃ gdef,
      (if o.gdef then GlyphDefinition.assemble s (MarkIds.ofLookups s.lookups)
        else Audit.pure none).value = some gdef ∧ t = ⟨gdef, gsub, gpos⟩ := by
    dsimp only at h
    split at h
    · next hwanted =>
      obtain ⟨gdef, hgdef, hpure⟩ := Audit.value_bind_eq_some.1 h
      exact ⟨gdef, by rwa [if_pos hwanted], (Option.some.inj hpure).symm⟩
    · next hunwanted =>
      obtain ⟨gdef, hgdef, hpure⟩ := Audit.value_bind_eq_some.1 h
      exact ⟨gdef, by rwa [if_neg hunwanted], (Option.some.inj hpure).symm⟩
  subst ht
  refine ⟨resolved, hresolved, fun p => ?_, hgdef⟩
  cases p with
  | substitution => exact hgsub
  | positioning => exact hgpos

/-- What is known of the tables of a compiled rule set. -/
theorem exists_compiledFrom {glyphs : GlyphOrder} {c : Compilation}
    (h : compile s glyphs o = .ok c) : ∃ resolved, CompiledFrom s o resolved c.tables := by
  unfold compile at h
  dsimp only at h
  split at h
  · cases h
  · next tables htables =>
    split at h
    · cases h
    · cases h
      exact value_auditRules htables

namespace CompiledFrom
variable {resolved : List ResolvedLookup} {t : LayoutTables} {bytes : ByteArray}

theorem assemble_layout (h : CompiledFrom s o resolved t) {p : Purpose}
    (hbytes : t.layout? p = some bytes) :
    ((s.input resolved p).assemble o).value = some bytes := by
  have hlayout := h.layout p
  rw [hbytes, assembleTable] at hlayout
  split at hlayout
  · obtain ⟨_, hassemble, hsome⟩ := Option.map_eq_some_iff.1 hlayout
    cases hsome
    exact hassemble
  · cases hlayout

theorem assemble_gdef (h : CompiledFrom s o resolved t) (hbytes : t.gdef = some bytes) :
    (GlyphDefinition.assemble s (MarkIds.ofLookups s.lookups)).value = some (some bytes) := by
  have hgdef := h.gdef
  rw [hbytes] at hgdef
  split at hgdef
  · exact hgdef
  · cases hgdef

end CompiledFrom
end
end FontLayout
