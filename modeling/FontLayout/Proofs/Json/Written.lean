import FontLayout.Document.Reader
import FontLayout.Document.Writer
/-!
# JSON values that were written

What a writer has written, the reader for it brings back: numbers within their words, lists, values
that may be absent, dictionaries in the order of their entries. A record is read from the fields
with its own names, and these may stand among others.

Results:
* `Json.Restores.list`, `Json.Restores.orNull`, `Json.Restores.dictionary`: values made of others.
* `Json.asRecord_eq`: a record is read from its own fields.
* `Json.isSound_ofList`, `Json.isSound_object`: how deep a written value is nested.
-/
namespace FontLayout.Json

variable {α β : Type}

/-- Whether reading what is written brings back the value, for every value. -/
def Restores (read : Json → Option α) (write : α → Json) : Prop := ∀ a, read (write a) = some a

/-! ## Words -/

theorem restores_string : Restores asString .string := fun _ => rfl

theorem restores_int16 : Restores asInt16 .ofInt16 := by
  intro x
  have hlow := x.le_toInt
  have hhigh := x.toInt_lt
  have hrange : -32768 ≤ x.toInt ∧ x.toInt ≤ 32767 := by omega
  simp [asInt16, ofInt16, asInt, hrange]

theorem restores_uint16 : Restores asUInt16 .ofUInt16 := by
  intro x
  have hhigh := x.toNat_lt
  have hrange : (0 : Int) ≤ x.toNat ∧ (x.toNat : Int) ≤ 65535 := by omega
  simp [asUInt16, ofUInt16, asInt, hrange]

theorem restores_uint32 : Restores asUInt32 .ofUInt32 := by
  intro x
  have hhigh := x.toNat_lt
  have hrange : (0 : Int) ≤ x.toNat ∧ (x.toNat : Int) ≤ 4294967295 := by omega
  simp [asUInt32, ofUInt32, asInt, hrange]

theorem asUInt64_integer (x : UInt64) : (integer x.toNat).asUInt64 = some x := by
  have hhigh := x.toNat_lt
  have hrange : (0 : Int) ≤ x.toNat ∧ (x.toNat : Int) ≤ 18446744073709551615 := by omega
  simp [asUInt64, asInt, hrange]

/-! ## Lists, absent values and dictionaries -/

section
variable {read : Json → Option α} {write : α → Json} (h : Restores read write)
include h

theorem readAllLoop_map (xs done : List α) :
    readAllLoop read (xs.map write) done = some (done.reverse ++ xs) := by
  induction xs generalizing done with
  | nil => simp [readAllLoop]
  | cons x xs ih => simp [readAllLoop, h x, ih]

theorem readAll_map (xs : List α) : readAll read (xs.map write) = some xs := readAllLoop_map h xs []

theorem Restores.list : Restores (asList read) (ofList write) := readAll_map h

/-- An absent value is written as null, so no other value may be. -/
theorem Restores.orNull (hnull : ∀ a, write a ≠ .null) :
    Restores (orNull read) (ofOption write) := by
  intro o
  cases o with
  | none => rfl
  | some a =>
    rw [ofOption, Json.orNull]
    · rw [h a]
      rfl
    · exact hnull a

theorem Restores.pair {read' : Json → Option β} {write' : β → Json} (h' : Restores read' write') :
    Restores (asPair read read') fun x => .array [write x.1, write' x.2] := by
  rintro ⟨a, b⟩
  simp [asPair, h a, h' b]

/-- The entries come back in the order in which they were written. -/
theorem Restores.dictionary : Restores (asDictionary read) (Document.dictionaryJson write) := by
  intro d
  have hvalues : readAll read ((d.entries.map fun e => (e.1, write e.2)).map Prod.snd) =
      some (d.entries.map Prod.snd) := by
    rw [← readAll_map h, List.map_map, List.map_map]
    rfl
  have hkeys : (d.entries.map fun e => (e.1, write e.2)).map Prod.fst = d.entries.map Prod.fst := by
    rw [List.map_map]
    rfl
  rw [Document.dictionaryJson, asDictionary, hvalues, hkeys]
  exact congrArg some ((congrArg _ (List.zip_of_prod rfl rfl).symm).trans d.ofList_entries)

end

/-! ## Records -/

theorem hasRepeats_eq_false_iff {keys : List String} : hasRepeats keys = false ↔ keys.Nodup := by
  induction keys with
  | nil => simp [hasRepeats]
  | cons key keys ih => simp [hasRepeats, ih]

theorem lookup_cons_of_ne {name key : String} (h : name ≠ key) (j : Json)
    (fields : List (String × Json)) : ((key, j) :: fields).lookup name = fields.lookup name := by
  rw [List.lookup_cons, beq_false_of_ne h]

theorem lookup_filter {names : List String} {name : String} (hname : name ∈ names)
    (fields : List (String × Json)) :
    (fields.filter fun f => names.contains f.1).lookup name = fields.lookup name := by
  induction fields with
  | nil => rfl
  | cons f fields ih =>
    obtain ⟨key, j⟩ := f
    by_cases hkey : name = key
    · subst hkey
      rw [List.filter_cons_of_pos (by simpa using hname), List.lookup_cons_self,
        List.lookup_cons_self]
    · rw [lookup_cons_of_ne hkey, List.filter_cons]
      split
      · rw [lookup_cons_of_ne hkey, ih]
      · exact ih

/-- Whatever else is in an object, a record is read from its own fields. -/
theorem asRecord_filter (names : List String) (fields : List (String × Json)) :
    (object fields).asRecord names =
      (object (fields.filter fun f => names.contains f.1)).asRecord names := by
  have hkeys : ((fields.filter fun f => names.contains f.1).map Prod.fst).filter names.contains =
      (fields.map Prod.fst).filter names.contains := by
    rw [List.filter_map, List.filter_map, List.filter_filter]
    simp [Function.comp_def]
  have hlookup : (names.map fun name =>
      (fields.filter fun f => names.contains f.1).lookup name) =
        names.map fun name => fields.lookup name :=
    List.map_congr_left fun name hname => lookup_filter hname fields
  rw [asRecord, asRecord, hkeys, hlookup]

theorem lookup_of_mem {fields : List (String × Json)} (hnodup : (fields.map Prod.fst).Nodup)
    {f : String × Json} (hf : f ∈ fields) : fields.lookup f.1 = some f.2 := by
  induction fields with
  | nil => cases hf
  | cons g fields ih =>
    rw [List.map_cons, List.nodup_cons] at hnodup
    rcases List.mem_cons.1 hf with rfl | hf
    · exact List.lookup_cons_self
    · have hne : f.1 ≠ g.1 := fun he => hnodup.1 (he ▸ List.mem_map_of_mem hf)
      rw [lookup_cons_of_ne hne, ih hnodup.2 hf]

/-- A record that has all its fields in an object, in order, is read from them. -/
theorem asRecord_eq {names : List String} {fields known : List (String × Json)}
    (hknown : (fields.filter fun f => names.contains f.1) = known)
    (hnames : known.map Prod.fst = names) (hnodup : names.Nodup) :
    (object fields).asRecord names = some (known.map fun f => some f.2) := by
  subst hnames
  have hkeys : (known.map Prod.fst).filter (known.map Prod.fst).contains = known.map Prod.fst :=
    List.filter_eq_self.2 fun key hkey => by simpa using hkey
  rw [asRecord_filter, hknown, asRecord_object (by rwa [hkeys, hasRepeats_eq_false_iff]),
    List.map_map]
  exact congrArg some (List.map_congr_left fun f hf => lookup_of_mem hnodup hf)

/-! ## Nesting -/

theorem allSound_eq_true {n : Nat} {items : List Json} :
    allSound n items = true ↔ ∀ j ∈ items, j.isSound n = true := by
  induction items with
  | nil => simp [allSound]
  | cons j items ih => simp [allSound, ih]

theorem allFieldsSound_eq_true {n : Nat} {fields : List (String × Json)} :
    allFieldsSound n fields = true ↔ ∀ f ∈ fields, f.2.isSound n = true := by
  induction fields with
  | nil => simp [allFieldsSound]
  | cons f fields ih => simp [allFieldsSound, ih]

theorem isSound_object {n : Nat} {fields : List (String × Json)}
    (h : ∀ f ∈ fields, f.2.isSound n = true) : (object fields).isSound (n + 1) = true :=
  allFieldsSound_eq_true.2 h

theorem isSound_ofList {n : Nat} {write : α → Json} (h : ∀ a, (write a).isSound n = true)
    (xs : List α) : (ofList write xs).isSound (n + 1) = true :=
  allSound_eq_true.2 (List.forall_mem_map.2 fun a _ => h a)

theorem isSound_ofOption {n : Nat} {write : α → Json} (h : ∀ a, (write a).isSound n = true)
    (o : Option α) : (ofOption write o).isSound n = true := by
  cases o with
  | none => rfl
  | some a => exact h a

end FontLayout.Json
