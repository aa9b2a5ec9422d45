import FontLayout.Proofs.Placement.Distances
import FontLayout.Proofs.Reading.Glyphs
/-!
# Counts in full

A count beyond a word is written as the greatest word, and then the bytes do not hold the table
that they were made from. Most counts cannot get that far in a tree that can be encoded: what is
counted takes up bytes of the table itself, and a table that links to another is no longer than a
word can tell. What is left are tables without links, and elements that take up no bytes.

Results:
* `Stands.countsFit`: bytes that hold a tree hold all its counts.
* `Coverage.countsFit_table`: the count of a coverage table always fits.
* `ClassDef.countsFit_table_iff`: that of a class definition does if it has no more than 65535
  ranges.
-/
namespace FontLayout

/-- Bytes that hold a tree hold all its counts. -/
theorem Stands.countsFit {file bytes : List UInt8} {t : Table} (h : Stands file bytes t) :
    t.CountsFit := by
  induction t generalizing file bytes with
  | done => exact trivial
  | bytes _ rest ih | null _ rest ih =>
    obtain ⟨more, -, hrest⟩ := h
    exact ih hrest
  | count n rest ih =>
    obtain ⟨w, more, -, rfl, hrest⟩ := h
    have hlt := w.toNat_lt
    exact ⟨by omega, ih hrest⟩
  | link l child rest ihc ih =>
    obtain ⟨field, more, -, -, -, hchild, hrest⟩ := h
    exact ⟨ihc hchild, ih hrest⟩

/-- What is written for a tree holds it exactly if its counts fit. -/
theorem Table.stands_iff_of_encode {t : Table} {out : ByteArray} (h : t.encode = .ok out) :
    Stands out.data.toList out.data.toList t ↔ t.CountsFit :=
  ⟨Stands.countsFit, stands_of_encode h⟩

namespace Table

/-! ## Sizes of fields -/

section
variable {rest : Table}

@[simp] theorem size_done : Table.done.size = 0 := rfl

@[simp] theorem size_word (w : UInt16) : (word w rest).size = 2 + rest.size := size_bytes _ _

@[simp] theorem size_words (ws : List UInt16) :
    (words ws rest).size = 2 * ws.length + rest.size := by
  rw [words, size_bytes, size_bytesOfWords]

@[simp] theorem size_countedWords (ws : List UInt16) :
    (countedWords ws rest).size = 2 + 2 * ws.length + rest.size := by
  rw [countedWords, size_count, size_words, Nat.add_assoc]

@[simp] theorem size_links (l : Link) (children : List Table) :
    (links l children rest).size = l.width.size * children.length + rest.size := by
  induction children with
  | nil => simp [links]
  | cons child children ih =>
    rw [links, List.foldr_cons, size_link, ← links, ih, List.length_cons, Nat.mul_succ]
    omega

@[simp] theorem size_countedLinks (l : Link) (children : List Table) :
    (countedLinks l children rest).size = 2 + l.width.size * children.length + rest.size := by
  rw [countedLinks, size_count, size_links, Nat.add_assoc]

@[simp] theorem size_link? (l : Link) (child : Option Table) :
    (link? l child rest).size = l.width.size + rest.size := by
  cases child with
  | none => exact size_null ..
  | some child => exact size_link ..

/-! ## Counts of fields -/

theorem countsFit_links {l : Link} {children : List Table} :
    (links l children rest).CountsFit ↔ (∀ c ∈ children, c.CountsFit) ∧ rest.CountsFit := by
  induction children with
  | nil => simp [links]
  | cons child children ih =>
    rw [List.forall_mem_cons, and_assoc, ← ih]
    exact Iff.rfl

theorem countsFit_countedLinks {l : Link} {children : List Table} :
    (countedLinks l children rest).CountsFit ↔
      children.length ≤ 0xFFFF ∧ (∀ c ∈ children, c.CountsFit) ∧ rest.CountsFit :=
  and_congr_right' countsFit_links

theorem countsFit_link? {l : Link} {child : Option Table} :
    (link? l child rest).CountsFit ↔
      (∀ c, child = some c → c.CountsFit) ∧ rest.CountsFit := by
  cases child with
  | none => simp [link?, CountsFit]
  | some child => simp [link?, CountsFit]

/-! ## Distances of links -/

variable {size near : Nat}

/-- Links to near tables: if there is one, its distance fits, and the rest is reached further on. -/
theorem OffsetsFit.links {target : Target} {children : List Table}
    (h : OffsetsFit size near (Table.links (.near target) children rest)) :
    (children ≠ [] → near ≤ 0xFFFF) ∧ (∀ c ∈ children, c.Fits) ∧
      ∃ next, near ≤ next ∧ OffsetsFit size next rest := by
  induction children generalizing near with
  | nil => exact ⟨fun hne => absurd rfl hne, by simp, near, Nat.le_refl _, h⟩
  | cons child children ih =>
    obtain ⟨hnear, hchild, hrest⟩ := h
    obtain ⟨-, hchildren, next, hnext, hfit⟩ := ih hrest
    exact ⟨fun _ => hnear, List.forall_mem_cons.2 ⟨hchild, hchildren⟩, next, by omega, hfit⟩

/-- A link to a near table that may be absent: the rest is reached no earlier. -/
theorem OffsetsFit.link? {target : Target} {child : Option Table}
    (h : OffsetsFit size near (Table.link? (.near target) child rest)) :
    (∀ c, child = some c → near ≤ 0xFFFF ∧ c.Fits) ∧
      ∃ next, near ≤ next ∧ OffsetsFit size next rest := by
  cases child with
  | none => exact ⟨fun c hc => (nomatch hc), near, Nat.le_refl _, h⟩
  | some child =>
    obtain ⟨hnear, hchild, hrest⟩ := h
    exact ⟨fun c hc => Option.some.inj hc ▸ ⟨hnear, hchild⟩, _, Nat.le_add_right .., hrest⟩

/-- A counted list of links to near tables that stands in a table of `size` bytes: the table has
room for the links, so there are no more than a word can count. -/
theorem OffsetsFit.countedLinks {target : Target} {children : List Table}
    (h : OffsetsFit size near (Table.countedLinks (.near target) children rest))
    (hroom : 2 * children.length ≤ near) :
    children.length ≤ 0xFFFF ∧ (∀ c ∈ children, c.Fits) ∧
      ∃ next, near ≤ next ∧ OffsetsFit size next rest := by
  obtain ⟨hnear, hchildren⟩ := OffsetsFit.links h
  refine ⟨?_, hchildren⟩
  cases children with
  | nil => exact Nat.zero_le _
  | cons child children =>
    have := hnear (List.cons_ne_nil child children)
    omega

end

end Table

/-! ## Coverage tables -/

/-- Ascending glyphs and their ranges: each further range skips a glyph. -/
theorem length_rangesOf_le {g : Glyph} {gs : List Glyph} (h : (g :: gs).Pairwise (· < ·)) :
    ∃ last rest, rangesOf (g :: gs) = (g, last) :: rest ∧
      gs.length + rest.length + g.toNat ≤ 65535 := by
  induction gs generalizing g with
  | nil =>
    have := g.toNat_lt
    exact ⟨g, [], rfl, by simp; omega⟩
  | cons h' gs ih =>
    rw [List.pairwise_cons] at h
    have hlt := UInt16.lt_iff_toNat_lt.1 (h.1 h' List.mem_cons_self)
    obtain ⟨last, rest, he, hle⟩ := ih h.2
    rw [GlyphSet.ranges_cons, he, extendRanges.eq_def]
    dsimp only
    rw [List.length_cons]
    split
    · exact ⟨last, rest, rfl, by omega⟩
    · refine ⟨g, (h', last) :: rest, rfl, ?_⟩
      rw [List.length_cons]
      omega

/-- The count of a coverage table fits: if it lists glyphs, one at least is missing. -/
theorem Coverage.countsFit_table (s : GlyphSet) : (table s).CountsFit := by
  have hsize := s.size_le
  have hranges : s.ranges.length = 0 ∨ s.size + s.ranges.length ≤ 65537 := by
    obtain ⟨members, ascending⟩ := s
    cases members with
    | nil => exact .inl rfl
    | cons g gs =>
      obtain ⟨last, rest, he, hle⟩ := length_rangesOf_le ascending
      right
      rw [GlyphSet.ranges, he, GlyphSet.size, List.length_cons, List.length_cons]
      omega
  rw [table]
  split
  · next hlt =>
    exact ⟨by omega, trivial⟩
  · next hle =>
    have hmembers : s.members.length = s.size := rfl
    exact ⟨by omega, trivial⟩

/-! ## Class definitions -/

namespace ClassDef

/-- An array has at least a word for each entry. -/
theorem length_le_arrayFrom (next : Nat) (entries : List (Glyph × UInt16)) :
    entries.length ≤ (arrayFrom next entries).length := by
  induction entries generalizing next with
  | nil => exact Nat.zero_le _
  | cons e entries ih =>
    have := ih (e.1.toNat + 1)
    rw [arrayFrom_cons, List.length_append, List.length_append, List.length_cons,
      List.length_singleton]
    omega

/-- The glyphs from the first to the last are at least as many as there are entries. -/
theorem size_le_of_ends {d : ClassDef} {first last : Glyph} (h : d.ends? = some (first, last)) :
    d.classes.size ≤ glyphSpan first last := by
  rw [← length_arrayFrom_of_ends h]
  exact length_le_arrayFrom first.toNat d.classes.entries

/-- The count of a class definition fits if there are no more ranges than a word can count; an
array that is too long is not written. -/
theorem countsFit_table_iff (d : ClassDef) : d.table.CountsFit ↔ d.ranges.length ≤ 0xFFFF := by
  obtain ⟨first, last, hends, hspan, -, htable⟩ | ⟨-, htable⟩ := d.table_cases
  · have hranges := d.length_ranges_le
    have hsize := size_le_of_ends hends
    have hcount : (arrayFrom first.toNat d.classes.entries).length ≤ 0xFFFF := by
      rw [length_arrayFrom_of_ends hends]
      exact hspan
    rw [htable]
    exact ⟨fun _ => by omega, fun _ => ⟨hcount, trivial⟩⟩
  · rw [htable]
    exact and_iff_left trivial

/-- However a class definition is written, it takes two bytes or more for each range. -/
theorem length_ranges_le_total (d : ClassDef) : 4 + 2 * d.ranges.length ≤ d.table.total := by
  have hranges := d.length_ranges_le
  rw [total_table, sizeBound]
  split
  · next array harray =>
    obtain ⟨ends, hends, harray⟩ := Option.bind_eq_some_iff.1 harray
    have hsize := (arraySize?_eq_some_iff.1 harray).2
    have hentries := size_le_of_ends hends
    refine Nat.le_min.2 ⟨by omega, ?_⟩
    rw [rangesSize]
    omega
  · rw [rangesSize]
    omega

end ClassDef

end FontLayout
