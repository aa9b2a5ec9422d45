import FontLayout.Proofs.Reading.Standing
/-!
# Readers of tables

A reader takes numbers from the bytes of a table, one after another, and follows offsets to
further tables. It knows nothing of how tables are made. `Reads` says that a reader takes up
exactly the fields that a part of a table consists of, and `Yields` that it reads a whole table;
both hold wherever the table stands, so readers are put together as tables are.

Results:
* `Reads.times`, `Reads.flatMap`: what is repeated is read again and again.
* `Reads.short`, `Reads.long`, `Reads.link?`: a table behind an offset is read where the offset
  leads.
-/
namespace FontLayout

/-- Reads a part of a table. From all bytes from the start of the table on, and those of them that
have not been read, it gets what is read and the bytes behind it. -/
def Reader (α : Type) : Type := List UInt8 → List UInt8 → Option (α × List UInt8)

namespace Reader
variable {α β : Type}

instance : Monad Reader where
  pure x := fun _ bytes => some (x, bytes)
  bind r f := fun file bytes =>
    match r file bytes with
    | some (x, more) => f x file more
    | none => none

/-- Nothing can be read. -/
def fail : Reader α := fun _ _ => none

/-- What has been found, if anything has. -/
def lift : Option α → Reader α
  | some x => pure x
  | none => fail

/-- Reads a word. -/
def word : Reader UInt16 := fun _ bytes =>
  match bytes with
  | a :: b :: more => some (UInt16.ofNat (bigEndian [a, b]), more)
  | _ => none

/-- Reads a count, or a distance. -/
def number : Reader Nat := do
  return (← word).toNat

/-- Reads the same several times. -/
def times : Nat → Reader α → Reader (List α)
  | 0, _ => pure []
  | n + 1, r => do
    let x ← r
    let xs ← times n r
    return x :: xs

/-- Reads a long distance. -/
def longNumber : Reader Nat := do
  let high ← number
  let low ← number
  return high * 0x10000 + low

/-- Reads a count, and then the same that many times. -/
def counted (r : Reader α) : Reader (List α) := do times (← number) r

/-- Reads the table that starts at a distance from the start of this one. -/
def ahead (distance : Nat) (r : Reader α) : Reader α := fun file bytes =>
  match r (file.drop distance) (file.drop distance) with
  | some (x, _) => some (x, bytes)
  | none => none

/-- Reads an offset and the table behind it, which may not be missing. -/
def link (r : Reader α) : Reader α := do
  match ← number with
  | 0 => fail
  | n + 1 => ahead (n + 1) r

/-- Reads a long offset and the table behind it, which may not be missing. -/
def longLink (r : Reader α) : Reader α := do
  match ← longNumber with
  | 0 => fail
  | n + 1 => ahead (n + 1) r

/-- Reads an offset and the table behind it, if the offset is not null. -/
def link? (r : Reader α) : Reader (Option α) := do
  match ← number with
  | 0 => return none
  | n + 1 => return some (← ahead (n + 1) r)

/-- Reads a table from the start of a file. -/
def read (r : Reader α) (file : List UInt8) : Option α := (r file file).map Prod.fst

theorem bind_eq {r : Reader α} {file bytes more : List UInt8} {x : α}
    (h : r file bytes = some (x, more)) (f : α → Reader β) :
    (r >>= f) file bytes = f x file more := by
  rw [Bind.bind, instMonad]
  simp only [h]

end Reader

/-! ## Parts of tables -/

theorem bigEndian_wordBytes (w : UInt16) : bigEndian (wordBytes w) = w.toNat := by
  have hhigh : ((w >>> 8).toUInt8).toNat = w.toNat / 256 := by
    have := w.toNat_lt
    rw [UInt16.toNat_toUInt8, UInt16.toNat_shiftRight]
    simp only [UInt16.reduceToNat, Nat.reduceMod, Nat.shiftRight_eq_div_pow]
    omega
  have hlow : w.toUInt8.toNat = w.toNat % 256 := UInt16.toNat_toUInt8 w
  simp only [bigEndian, wordBytes, List.foldl_cons, List.foldl_nil, hhigh, hlow]
  omega

/-- Whether a reader takes up exactly the fields that `put` puts before a table, and what it gets
from them. -/
def Reads {α : Type} (r : Reader α) (put : Table → Table) (x : α) : Prop :=
  ∀ file bytes rest, Stands file bytes (put rest) →
    ∃ more, r file bytes = some (x, more) ∧ Stands file more rest

/-- Whether a reader gets something from a table. -/
def Yields {α : Type} (r : Reader α) (t : Table) (x : α) : Prop :=
  ∀ file bytes, Stands file bytes t → ∃ more, r file bytes = some (x, more)

theorem Yields.read_eq {α : Type} {r : Reader α} {t : Table} {x : α} (h : Yields r t x)
    {file : List UInt8} (hs : Stands file file t) : r.read file = some x := by
  obtain ⟨more, he⟩ := h file file hs
  rw [Reader.read, he]
  rfl

section
variable {α β : Type} {r : Reader α} {f : α → Reader β} {put put' : Table → Table} {t : Table}
  {x : α} {y : β}

open Reader

theorem Reads.pure (x : α) : Reads (pure x) id x := fun _ bytes _ h => ⟨bytes, rfl, h⟩

theorem Reads.bind (hr : Reads r put x) (hf : Reads (f x) put' y) :
    Reads (r >>= f) (fun rest => put (put' rest)) y := by
  intro file bytes rest h
  obtain ⟨more, he, hs⟩ := hr file bytes (put' rest) h
  obtain ⟨more', he', hs'⟩ := hf file more rest hs
  exact ⟨more', (bind_eq he f).trans he', hs'⟩

theorem Reads.map (g : α → β) (hr : Reads r put x) :
    Reads (do return g (← r)) put (g x) := hr.bind (.pure (g x))

theorem Yields.pure (x : α) (t : Table) : Yields (pure x) t x := fun _ bytes _ => ⟨bytes, rfl⟩

theorem Yields.bind (hr : Reads r put x) (hf : Yields (f x) t y) : Yields (r >>= f) (put t) y := by
  intro file bytes h
  obtain ⟨more, he, hs⟩ := hr file bytes t h
  obtain ⟨more', he'⟩ := hf file more hs
  exact ⟨more', (bind_eq he f).trans he'⟩

theorem Reads.yields (h : Reads r put x) : Yields r (put t) x := by
  intro file bytes hs
  obtain ⟨more, he, -⟩ := h file bytes t hs
  exact ⟨more, he⟩

/-- A step that reads nothing. -/
theorem Yields.step (hr : Reads r id x) (hf : Yields (f x) t y) : Yields (r >>= f) t y := by
  have h := Yields.bind hr hf
  exact h

theorem Yields.map (g : α → β) (hr : Yields r t x) : Yields (do return g (← r)) t (g x) := by
  intro file bytes h
  obtain ⟨more, he⟩ := hr file bytes h
  exact ⟨more, bind_eq he _⟩

/-! ## Words and counts -/

theorem word_append (w : UInt16) (file more : List UInt8) :
    word file (wordBytes w ++ more) = some (w, more) := by
  have hw : bigEndian [(w >>> 8).toUInt8, w.toUInt8] = w.toNat := bigEndian_wordBytes w
  rw [wordBytes, List.cons_append, List.cons_append, List.nil_append, word, hw, UInt16.ofNat_toNat]

theorem Reads.word (w : UInt16) : Reads word (Table.word w) w := by
  intro file bytes rest h
  obtain ⟨more, rfl, hs⟩ := h
  exact ⟨more, by rw [data_pushWord_empty, word_append], hs⟩

theorem Reads.count (n : Nat) : Reads number (Table.count n) n := by
  intro file bytes rest h
  obtain ⟨w, more, rfl, rfl, hs⟩ := h
  exact ⟨more, bind_eq (word_append w file more) _, hs⟩

/-! ## Repetition -/

/-- What is put once for each element of a list is read as often. -/
theorem Reads.times {γ : Type} {xs : List γ} {put : γ → Table → Table} {view : γ → α}
    (h : ∀ a ∈ xs, Reads r (put a) (view a)) :
    Reads (times xs.length r) (fun rest => xs.foldr put rest) (xs.map view) := by
  induction xs with
  | nil => exact .pure []
  | cons a xs ih =>
    rw [List.forall_mem_cons] at h
    exact .bind h.1 (.map _ (ih h.2))

/-! ## Words in a row -/

theorem Reads.nil (hr : Reads r id x) : Reads r (Table.words []) x := by
  intro file bytes rest h
  obtain ⟨more, rfl, hs⟩ := h
  exact hr file _ rest hs

theorem Stands.of_words_append {ws ws' : List UInt16} {rest : Table} {file bytes : List UInt8}
    (h : Stands file bytes (.words (ws ++ ws') rest)) :
    Stands file bytes (.words ws (.words ws' rest)) := by
  obtain ⟨more, rfl, hs⟩ := h
  refine ⟨ws'.flatMap wordBytes ++ more, ?_, more, ?_, hs⟩
  · rw [data_bytesOfWords, data_bytesOfWords, List.flatMap_append, List.append_assoc]
  · rw [data_bytesOfWords]

theorem Reads.append {ws ws' : List UInt16} (hr : Reads r (Table.words ws) x)
    (hf : Reads (f x) (Table.words ws') y) : Reads (r >>= f) (Table.words (ws ++ ws')) y :=
  fun file bytes rest h => hr.bind hf file bytes rest h.of_words_append

theorem Reads.single (w : UInt16) : Reads Reader.word (Table.words [w]) w :=
  fun file bytes rest h => Reads.word w file bytes rest h

theorem Reads.number (w : UInt16) : Reads Reader.number (Table.words [w]) w.toNat :=
  .map UInt16.toNat (.single w)

theorem Reads.cons {f : UInt16 → Reader α} {w : UInt16} {ws : List UInt16}
    (h : Reads (f w) (Table.words ws) x) : Reads (Reader.word >>= f) (Table.words (w :: ws)) x :=
  .append (.single w) h

/-- The first of the words in a row is read first. -/
theorem Yields.words_cons {f : UInt16 → Reader α} {w : UInt16} {ws : List UInt16}
    (h : Yields (f w) (Table.words ws t) x) :
    Yields (Reader.word >>= f) (Table.words (w :: ws) t) x := by
  have hsplit : Yields (Reader.word >>= f) (.words [w] (.words ws t)) x := .bind (.single w) h
  exact fun file bytes hs => hsplit file bytes (Stands.of_words_append hs)

/-- A count tells how often to read. -/
theorem Reads.counted {n : Nat} {xs : List α} (hr : Reads (Reader.times n r) put xs) :
    Reads (Reader.counted r) (fun rest => .count n (put rest)) xs := .bind (.count n) hr

theorem Yields.counted {n : Nat} {xs : List α} {f : List α → Reader β}
    (hr : Reads (Reader.times n r) put xs) (hf : Yields (f xs) t y) :
    Yields (Reader.counted r >>= f) (.count n (put t)) y := by
  have h := Yields.bind hr.counted hf
  exact h

/-- What has words for each element of a list is read as often. -/
theorem Reads.flatMap {γ : Type} {xs : List γ} {words : γ → List UInt16} {view : γ → α}
    (h : ∀ a ∈ xs, Reads r (Table.words (words a)) (view a)) :
    Reads (Reader.times xs.length r) (Table.words (xs.flatMap words)) (xs.map view) := by
  induction xs with
  | nil => exact .nil (.pure [])
  | cons a xs ih =>
    rw [List.forall_mem_cons] at h
    exact .append h.1 (.map _ (ih h.2))

theorem Reads.words (ws : List UInt16) :
    Reads (Reader.times ws.length Reader.word) (Table.words ws) ws := by
  have h := flatMap fun w (_ : w ∈ ws) => single w
  rwa [List.flatMap_singleton', List.map_id'] at h

theorem Reads.countedWords (ws : List UInt16) :
    Reads (Reader.counted Reader.word) (Table.countedWords ws) ws := Reads.counted (.words ws)

/-! ## Offsets -/

theorem number_append {field : List UInt8} (hlength : field.length = 2) (file more : List UInt8) :
    number file (field ++ more) = some (bigEndian field, more) := by
  match field, hlength with
  | [a, b], _ =>
    have hlt : bigEndian [a, b] < 65536 := by
      have ha := a.toNat_lt
      have hb := b.toNat_lt
      simp only [bigEndian, List.foldl_cons, List.foldl_nil]
      omega
    have hword : word file ([a, b] ++ more) = some (UInt16.ofNat (bigEndian [a, b]), more) := rfl
    rw [number, bind_eq hword, UInt16.toNat_ofNat_of_lt' hlt]
    rfl

theorem longNumber_append {field : List UInt8} (hlength : field.length = 4)
    (file more : List UInt8) :
    longNumber file (field ++ more) = some (bigEndian field, more) := by
  match field, hlength with
  | [a, b, c, d], _ =>
    have hhigh : number file ([a, b] ++ ([c, d] ++ more)) = some (bigEndian [a, b], [c, d] ++ more) :=
      number_append rfl file _
    have hlow : number file ([c, d] ++ more) = some (bigEndian [c, d], more) :=
      number_append rfl file more
    have hsum : bigEndian [a, b] * 0x10000 + bigEndian [c, d] = bigEndian [a, b, c, d] := by
      simp only [bigEndian, List.foldl_cons, List.foldl_nil]
      omega
    rw [← hsum]
    exact (bind_eq hhigh _).trans (bind_eq hlow _)

/-- The table behind an offset is read where the offset leads, and the offset is not null. -/
theorem exists_ahead {l : Link} {child rest : Table} {file bytes : List UInt8} (hr : Yields r child x)
    (h : Stands file bytes (.link l child rest)) :
    ∃ field more n, bytes = field ++ more ∧ field.length = l.width.size ∧
      bigEndian field = n + 1 ∧ ahead (n + 1) r file more = some (x, more) ∧
      Stands file more rest := by
  obtain ⟨field, more, rfl, hlength, hpos, hchild, hs⟩ := h
  obtain ⟨n, hn⟩ := Nat.exists_eq_succ_of_ne_zero (Nat.ne_of_gt hpos)
  rw [hn] at hchild
  obtain ⟨left, he⟩ := hr _ _ hchild
  exact ⟨field, more, n, rfl, hlength, hn, by rw [ahead, he], hs⟩

theorem Reads.short {l : Link} (hshort : l.width = .short) {child : Table}
    (hr : Yields r child x) : Reads (link r) (Table.link l child) x := by
  intro file bytes rest h
  obtain ⟨field, more, n, rfl, hlength, hn, hahead, hs⟩ := exists_ahead hr h
  rw [hshort] at hlength
  refine ⟨more, ?_, hs⟩
  rw [link, bind_eq (number_append hlength file more), hn]
  exact hahead

theorem Reads.near (target : Target) {child : Table} (hr : Yields r child x) :
    Reads (link r) (Table.link (.near target) child) x := .short rfl hr

theorem Reads.long {l : Link} (hlong : l.width = .long) {child : Table} (hr : Yields r child x) :
    Reads (longLink r) (Table.link l child) x := by
  intro file bytes rest h
  obtain ⟨field, more, n, rfl, hlength, hn, hahead, hs⟩ := exists_ahead hr h
  rw [hlong] at hlength
  refine ⟨more, ?_, hs⟩
  rw [longLink, bind_eq (longNumber_append hlength file more), hn]
  exact hahead

theorem Reads.null : Reads (link? r) (Table.null .short) none := by
  intro file bytes rest h
  obtain ⟨more, rfl, hs⟩ := h
  have hlength : (List.replicate Width.short.size (0 : UInt8)).length = 2 := rfl
  have hzero : bigEndian (List.replicate Width.short.size 0) = 0 := by decide
  refine ⟨more, ?_, hs⟩
  rw [link?, bind_eq (number_append hlength file more), hzero]
  rfl

theorem Reads.link? {γ : Type} (target : Target) {table : γ → Table} {view : γ → α}
    (h : ∀ a, Yields r (table a) (view a)) (a : Option γ) :
    Reads (Reader.link? r) (Table.link? (.near target) (a.map table)) (a.map view) := by
  cases a with
  | none => exact .null
  | some a =>
    intro file bytes rest hs
    obtain ⟨field, more, n, rfl, hlength, hn, hahead, hs⟩ := exists_ahead (h a) hs
    refine ⟨more, ?_, hs⟩
    rw [Reader.link?, bind_eq (number_append hlength file more), hn]
    exact bind_eq hahead _

/-- A count, and then as many links of one sort. -/
theorem Reads.countedOffsets {γ : Type} {l : Link} {xs : List γ} {table : γ → Table}
    {view : γ → α} (h : ∀ a ∈ xs, Reads r (Table.link l (table a)) (view a)) :
    Reads (Reader.counted r) (Table.countedLinks l (xs.map table)) (xs.map view) := by
  have hlinks : Reads (Reader.times xs.length r)
      (fun rest => xs.foldr (fun a rest => .link l (table a) rest) rest)
      (xs.map view) := Reads.times h
  intro file bytes rest hs
  rw [Table.countedLinks, Table.links, List.length_map, List.foldr_map] at hs
  exact hlinks.counted file bytes rest hs

theorem Reads.countedLinks {γ : Type} (target : Target) {xs : List γ} {table : γ → Table}
    {view : γ → α} (h : ∀ a ∈ xs, Yields r (table a) (view a)) :
    Reads (Reader.counted (link r)) (Table.countedLinks (.near target) (xs.map table))
      (xs.map view) := .countedOffsets fun a ha => .near target (h a ha)

end
end FontLayout
