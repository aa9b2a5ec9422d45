import FontLayout.Binary.ClassDef
import FontLayout.Proofs.Glyph.Keyed
import FontLayout.Proofs.Placement.Blocks
/-!
# The bytes of a whole tree

The total of a table counts its fields and those of all tables below it, whether they are near or
deferred. It is what a table takes when it is written on its own.

Results:
* `Table.total_eq`: the total of a table is the sum of the sizes of the nodes of its tree.
* `Coverage.total_table_le`: a coverage table takes at most the bound for the number of its glyphs.
* `ClassDef.total_table`: a class definition takes the bound for its ranges and its ends.
* `ClassDef.sizeBound_mono`: the bound grows with the number of glyphs and with the stretch they
  cover.
-/
namespace FontLayout
namespace Table

/-- The bytes of the fields of a table and of all tables below it. -/
def total : Table → Nat
  | .done => 0
  | .bytes bs rest => bs.size + total rest
  | .count _ rest => 2 + total rest
  | .null width rest => width.size + total rest
  | .link l child rest => l.width.size + total child + total rest

theorem total_eq_size_add (t : Table) (path : List Nat) (owner : Option Nat) (k : Nat) :
    t.total = t.size + span (t.nodesBelow path owner k) := by
  induction t generalizing path owner k with
  | done => rfl
  | bytes bs rest ih => rw [total, ih path owner k, nodesBelow, size_bytes, Nat.add_assoc]
  | count n rest ih => rw [total, ih path owner k, nodesBelow, size_count, Nat.add_assoc]
  | null w rest ih => rw [total, ih path owner k, nodesBelow, size_null, Nat.add_assoc]
  | link l child rest ihc ih =>
    have hc := ihc (path ++ [k]) (l.ownerBelow owner) 0
    have hr := ih path owner (k + 1)
    simp only [total, nodesBelow, size_link, span_cons, span_append]
    omega

/-- The total of a table is the sum of the sizes of the nodes of its tree. -/
theorem total_eq (t : Table) : t.total = span t.root.nodes := t.total_eq_size_add [] none 0

/-! ## Totals of fields -/

section
variable (rest : Table)

theorem total_done : Table.done.total = 0 := rfl

theorem total_count (n : Nat) : (Table.count n rest).total = 2 + rest.total := rfl

theorem total_link (l : Link) (child : Table) :
    (Table.link l child rest).total = l.width.size + child.total + rest.total := rfl

theorem total_near (target : Target) (child : Table) :
    (Table.link (.near target) child rest).total = 2 + child.total + rest.total := rfl

theorem total_word (w : UInt16) : (word w rest).total = 2 + rest.total := by
  rw [word, total]
  rfl

theorem total_words (ws : List UInt16) : (words ws rest).total = 2 * ws.length + rest.total := by
  rw [words, total, size_bytesOfWords]

theorem total_countedWords (ws : List UInt16) :
    (countedWords ws rest).total = 2 + 2 * ws.length + rest.total := by
  rw [countedWords, total_count, total_words, Nat.add_assoc]

theorem total_links (target : Target) (children : List Table) :
    (links (.near target) children rest).total =
      2 * children.length + (children.map total).sum + rest.total := by
  induction children with
  | nil => simp [links]
  | cons child children ih =>
    rw [links, List.foldr_cons, ← links, total_near, ih, List.length_cons, List.map_cons,
      List.sum_cons]
    omega

theorem total_countedLinks (target : Target) (children : List Table) :
    (countedLinks (.near target) children rest).total =
      2 + 2 * children.length + (children.map total).sum + rest.total := by
  rw [countedLinks, total_count, total_links]
  omega

theorem total_link? (target : Target) (child : Option Table) :
    (link? (.near target) child rest).total = 2 + child.elim 0 total + rest.total := by
  cases child with
  | none => rfl
  | some child => rfl

end

end Table

/-! ## Coverage tables -/

namespace Coverage

theorem length_startNumbers (ranges : List (Glyph × Glyph)) :
    (startNumbers ranges).length = ranges.length := by
  suffices ∀ acc n, (ranges.foldl (fun (s : List Nat × Nat) r =>
      (s.2 :: s.1, s.2 + glyphSpan r.1 r.2)) (acc, n)).1.length = ranges.length + acc.length by
    rw [startNumbers, List.length_reverse]
    exact this [] 0
  induction ranges with
  | nil => simp
  | cons r ranges ih =>
    intro acc n
    rw [List.foldl_cons, ih, List.length_cons, List.length_cons, Nat.add_assoc, Nat.add_comm 1]

theorem length_rangeWords (ranges : List (Glyph × Glyph)) :
    (rangeWords ranges).length = 3 * ranges.length := by
  rw [rangeWords, List.length_flatMap]
  have hlength : (ranges.zip (startNumbers ranges)).length = ranges.length := by
    rw [List.length_zip, length_startNumbers, Nat.min_self]
  have hthree : (fun a : (Glyph × Glyph) × Nat => [a.1.1, a.1.2, countWord a.2].length) =
      fun _ => 3 := rfl
  rw [hthree, List.map_const', List.sum_replicate_nat, hlength, Nat.mul_comm]

/-- The ranges are only taken if they are smaller than the list of the glyphs. -/
theorem total_table_le (s : GlyphSet) : (table s).total ≤ sizeBound s.size := by
  rw [table, sizeBound]
  split
  · next h =>
    rw [Table.total_word, Table.total_count, Table.total_words, Table.total_done,
      length_rangeWords]
    omega
  · rw [Table.total_word, Table.total_countedWords, Table.total_done, GlyphSet.size]
    omega

end Coverage

/-! ## Class definitions -/

namespace ClassDef

theorem arrayFrom_cons (next : Nat) (e : Glyph × UInt16) (entries : List (Glyph × UInt16)) :
    arrayFrom next (e :: entries) =
      List.replicate (e.1.toNat - next) 0 ++ [e.2] ++ arrayFrom (e.1.toNat + 1) entries := rfl

/-- An array has a word for each glyph up to the last entry. -/
theorem length_arrayFrom {next : Nat} {entries : List (Glyph × UInt16)}
    (h : (entries.map Prod.fst).Pairwise (· < ·)) (hnext : ∀ e ∈ entries, next ≤ e.1.toNat)
    {last : Glyph} (hlast : (entries.map Prod.fst).getLast? = some last) :
    (arrayFrom next entries).length = last.toNat + 1 - next := by
  induction entries generalizing next with
  | nil => cases hlast
  | cons e entries ih =>
    rw [List.map_cons, List.pairwise_cons] at h
    have hle := hnext e List.mem_cons_self
    rw [arrayFrom_cons, List.length_append, List.length_append, List.length_replicate,
      List.length_singleton]
    cases entries with
    | nil =>
      have he : e.1 = last := by simpa using hlast
      rw [← he]
      simp only [arrayFrom, List.zip_nil_left, List.flatMap_nil, List.length_nil]
      omega
    | cons e' entries =>
      have habove : ∀ x ∈ e' :: entries, e.1.toNat + 1 ≤ x.1.toNat := fun x hx =>
        UInt16.lt_iff_toNat_lt.1 (h.1 x.1 (List.mem_map_of_mem hx))
      have hlast' : ((e' :: entries).map Prod.fst).getLast? = some last := by
        rw [← hlast, List.map_cons, List.map_cons, List.map_cons, List.getLast?_cons_cons]
      have hmem : last ∈ (e' :: entries).map Prod.fst := List.mem_of_getLast? hlast'
      obtain ⟨x, hx, rfl⟩ := List.mem_map.1 hmem
      have hx' := habove x hx
      rw [ih h.2 habove hlast']
      omega

theorem length_extendRanges_le (e : Glyph × UInt16) (rs : List Range) :
    (extendRanges e rs).length ≤ rs.length + 1 := by
  unfold extendRanges
  split
  · split
    · exact Nat.le_succ _
    · exact Nat.le_refl _
  · exact Nat.le_refl _

theorem length_ranges_le (d : ClassDef) : d.ranges.length ≤ d.classes.size := by
  rw [ranges, ByGlyph.size]
  induction d.classes.entries with
  | nil => exact Nat.le_refl 0
  | cons e entries ih =>
    have hle := length_extendRanges_le e (entries.foldr extendRanges [])
    rw [List.foldr_cons, List.length_cons]
    omega

theorem arraySize?_eq_some_iff {first last : Glyph} {size : Nat} :
    arraySize? first last = some size ↔
      glyphSpan first last ≤ 65535 ∧ 6 + 2 * glyphSpan first last = size := by
  simp only [arraySize?]
  split
  · next h => simp [h]
  · next h => simp [h]

theorem ends?_eq_some_iff {d : ClassDef} {first last : Glyph} :
    d.ends? = some (first, last) ↔
      d.classes.keys.first? = some first ∧ d.classes.keys.last? = some last := by
  rw [ends?]
  cases d.classes.keys.first? <;> cases d.classes.keys.last? <;> simp

/-- A class definition as an array over the glyphs from the first on. -/
def arrayTable (d : ClassDef) (first : Glyph) : Table :=
  .word 1 <| .word first <| .countedWords (arrayFrom first.toNat d.classes.entries) .done

/-- A class definition as a list of ranges. -/
def rangesTable (d : ClassDef) : Table :=
  .word 2 <| .count d.ranges.length <|
    .words (d.ranges.flatMap fun r => [r.first, r.last, r.cls]) .done

/-- A class definition is an array if a word can count its glyphs and it is no larger. -/
theorem table_cases (d : ClassDef) :
    (∃ first last, d.ends? = some (first, last) ∧ glyphSpan first last ≤ 65535 ∧
      6 + 2 * glyphSpan first last ≤ rangesSize d.ranges.length ∧ d.table = d.arrayTable first) ∨
    (∀ first last, d.ends? = some (first, last) → glyphSpan first last ≤ 65535 →
      rangesSize d.ranges.length < 6 + 2 * glyphSpan first last) ∧ d.table = d.rangesTable := by
  simp only [table]
  cases hends : d.ends? with
  | none => exact .inr ⟨fun _ _ he => (nomatch he), rfl⟩
  | some ends =>
    obtain ⟨first, last⟩ := ends
    dsimp only
    cases hsize : arraySize? first last with
    | none =>
      refine .inr ⟨fun f l he hspan => ?_, rfl⟩
      cases he
      rw [arraySize?_eq_some_iff.2 ⟨hspan, rfl⟩] at hsize
      cases hsize
    | some size =>
      obtain ⟨hspan, rfl⟩ := arraySize?_eq_some_iff.1 hsize
      dsimp only
      split
      · next hle => exact .inl ⟨first, last, rfl, hspan, hle, rfl⟩
      · next hlt =>
        refine .inr ⟨fun f l he _ => ?_, rfl⟩
        cases he
        omega

theorem length_arrayFrom_of_ends {d : ClassDef} {first last : Glyph}
    (h : d.ends? = some (first, last)) :
    (arrayFrom first.toNat d.classes.entries).length = glyphSpan first last := by
  obtain ⟨hfirst, hlast⟩ := ends?_eq_some_iff.1 h
  exact length_arrayFrom d.classes.ascending
    (fun e he => UInt16.le_iff_toNat_le.1 (GlyphSet.first_le hfirst (List.mem_map_of_mem he))) hlast

theorem total_rangesTable (d : ClassDef) : d.rangesTable.total = rangesSize d.ranges.length := by
  have hthree : (fun r : Range => [r.first, r.last, r.cls].length) = fun _ => 3 := rfl
  rw [rangesTable, Table.total_word, Table.total_count, Table.total_words, Table.total_done,
    List.length_flatMap, hthree, List.map_const', List.sum_replicate_nat, rangesSize]
  omega

/-- A class definition takes the bound for its ranges and its ends. -/
theorem total_table (d : ClassDef) : d.table.total = sizeBound d.ranges.length d.ends? := by
  rw [sizeBound]
  obtain ⟨first, last, hends, hspan, hle, htable⟩ | ⟨hlt, htable⟩ := d.table_cases
  · have harray : arraySize? first last = some (6 + 2 * glyphSpan first last) :=
      arraySize?_eq_some_iff.2 ⟨hspan, rfl⟩
    rw [hends, Option.bind_some, harray, htable, arrayTable, Table.total_word, Table.total_word,
      Table.total_countedWords, Table.total_done, length_arrayFrom_of_ends hends]
    dsimp only
    omega
  · rw [htable, total_rangesTable]
    split
    · next size hsize =>
      obtain ⟨⟨first, last⟩, hends, hsize⟩ := Option.bind_eq_some_iff.1 hsize
      obtain ⟨hspan, rfl⟩ := arraySize?_eq_some_iff.1 hsize
      have hlt := hlt first last hends hspan
      dsimp only
      omega
    · rfl

theorem sizeBound_le_rangesSize (n : Nat) (ends : Option (Glyph × Glyph)) :
    sizeBound n ends ≤ rangesSize n := by
  rw [sizeBound]
  split
  · exact Nat.min_le_right ..
  · exact Nat.le_refl _

theorem sizeBound_le_arraySize {n size : Nat} {first last : Glyph}
    (h : arraySize? first last = some size) : sizeBound n (some (first, last)) ≤ size := by
  rw [sizeBound, Option.bind_some, h]
  exact Nat.min_le_left ..

/-- The bound grows with the number of glyphs and with the stretch they cover. -/
theorem sizeBound_mono {n m : Nat} {ends ends' : Option (Glyph × Glyph)} (hn : n ≤ m)
    (hends : ∀ f' l', ends' = some (f', l') →
      n = 0 ∨ ∃ f l, ends = some (f, l) ∧ f' ≤ f ∧ l ≤ l') :
    sizeBound n ends ≤ sizeBound m ends' := by
  have hranges : sizeBound n ends ≤ rangesSize m := by
    refine Nat.le_trans (sizeBound_le_rangesSize n ends) ?_
    rw [rangesSize, rangesSize]
    omega
  rw [sizeBound.eq_def m]
  split
  · next array harray =>
    refine Nat.le_min.2 ⟨?_, hranges⟩
    obtain ⟨⟨f', l'⟩, he', harray⟩ := Option.bind_eq_some_iff.1 harray
    obtain ⟨hspan, rfl⟩ := arraySize?_eq_some_iff.1 harray
    dsimp only at hspan ⊢
    rcases hends f' l' he' with rfl | ⟨f, l, rfl, hf, hl⟩
    · have hzero := sizeBound_le_rangesSize 0 ends
      rw [rangesSize] at hzero
      omega
    · have hle : glyphSpan f l ≤ glyphSpan f' l' := by
        rw [UInt16.le_iff_toNat_le] at hf hl
        rw [glyphSpan, glyphSpan]
        omega
      have hsize : arraySize? f l = some (6 + 2 * glyphSpan f l) :=
        arraySize?_eq_some_iff.2 ⟨by omega, rfl⟩
      have harr := sizeBound_le_arraySize (n := n) hsize
      omega
  · exact hranges

end ClassDef
end FontLayout
