import FontLayout.Diagnostic.Finding
import FontLayout.Document.Basic
import FontLayout.RuleSet
/-!
# The names of a document

A scope knows what the names in a rule document mean. Looking something up yields what was found
and every name that was not; a name that is unknown never hides another one.

Results:
* `Named.value_traverse`, `Named.causes_traverse`: a list is resolved element by element, and no
  element's unknown names are lost.
-/
namespace FontLayout

/-! ## Values with unknown names -/

/-- A value, and what was wrong with the names it was made from. -/
structure Named (α : Type) where
  value : α
  causes : List Cause
deriving DecidableEq

namespace Named
variable {α β : Type}

/-- A value made from no names. -/
def pure (a : α) : Named α := ⟨a, []⟩

/-- A value with one thing wrong. -/
def blame (c : Cause) (a : α) : Named α := ⟨a, [c]⟩

/-- A value made from another. -/
def map (f : α → β) (x : Named α) : Named β := ⟨f x.value, x.causes⟩

/-- A value made from another and from further names. -/
def bind (x : Named α) (f : α → Named β) : Named β :=
  let y := f x.value
  ⟨y.value, x.causes ++ y.causes⟩

instance : Monad Named where
  pure := pure
  bind := bind

/-- Resolves every element of a list. -/
def traverse (f : α → Named β) (xs : List α) : Named (List β) :=
  let rs := xs.map f
  ⟨rs.map value, rs.flatMap causes⟩

@[simp] theorem value_traverse (f : α → Named β) (xs : List α) :
    (traverse f xs).value = xs.map fun x => (f x).value := by
  simp [traverse, List.map_map, Function.comp_def]

@[simp] theorem causes_traverse (f : α → Named β) (xs : List α) :
    (traverse f xs).causes = xs.flatMap fun x => (f x).causes := by
  simp [traverse, List.flatMap_map]

/-- Resolves every element of a list, leaving out those that mean nothing. -/
def traverseSome (f : α → Named (Option β)) (xs : List α) : Named (List β) :=
  (traverse f xs).map fun rs => rs.filterMap id

/-- Resolves every element of a list; there is a result only if all mean something. -/
def traverseAll (f : α → Named (Option β)) (xs : List α) : Named (Option (List β)) :=
  (traverse f xs).map fun rs =>
    if rs.all Option.isSome then some (rs.filterMap id) else none

/-- What was wrong, as findings at one site. -/
def findingsAt (site : Site) (x : Named α) : List Finding := x.causes.map fun c => ⟨site, c⟩

end Named

/-! ## Scopes -/

/-- What names mean: the glyphs, the glyphs of each class in the order in which they are written,
and the places of lookups. -/
structure Scope where
  glyphs : GlyphOrder
  classes : Std.TreeMap String (List Glyph)
  lookups : Std.TreeMap String Nat
  lookupCount : Nat

/-- The text of a name after an `@`, which makes it the name of a class. -/
def classNameOf? (name : String) : Option String :=
  match name.toList with
  | '@' :: cs => some (String.ofList cs)
  | _ => none

namespace Scope

open Document (GlyphNames LookupRef)

/-- The glyph of a name. -/
def glyph? (s : Scope) (name : String) : Named (Option Glyph) :=
  match s.glyphs.find? name with
  | some g => .pure (some g)
  | none => .blame (.unknownGlyph name) none

/-- The glyphs of a class. -/
def glyphClass (s : Scope) (name : String) : Named (List Glyph) :=
  match s.classes[name]? with
  | some gs => .pure gs
  | none => .blame (.unknownGlyphClass name) []

/-- The glyphs of a set in the order in which they are written, without the unknown ones. -/
def glyphList (s : Scope) : GlyphNames → Named (List Glyph)
  | .one name =>
    match classNameOf? name with
    | some cls => s.glyphClass cls
    | none => (s.glyph? name).map Option.toList
  | .many names => .traverseSome s.glyph? names

/-- The glyphs of a set. -/
def glyphSet (s : Scope) (names : GlyphNames) : Named GlyphSet :=
  (s.glyphList names).map .ofList

/-- Several glyph sets. -/
def glyphSets (s : Scope) (sets : List GlyphNames) : Named (List GlyphSet) :=
  .traverse s.glyphSet sets

/-- A glyph set that may be absent. -/
def glyphSet? (s : Scope) : Option GlyphNames → Named (Option GlyphSet)
  | none => .pure none
  | some names => (s.glyphSet names).map some

/-- One side of a pair: one name is one glyph, and all else is a set. -/
def token (s : Scope) : GlyphNames → Named Token
  | .one name =>
    match classNameOf? name with
    | some cls => (s.glyphClass cls).map fun gs => .set (.ofList gs)
    | none => (s.glyph? name).map fun g => g.elim (.set .empty) .glyph
  | .many names => (s.glyphSet (.many names)).map .set

/-- A reference to a lookup as it appears in messages. -/
def refLabel : LookupRef → String
  | .index i => toString i.toNat
  | .name name => name

/-- The place of a lookup in the rule set. -/
def lookup? (s : Scope) (ref : LookupRef) : Named (Option Nat) :=
  let place :=
    match ref with
    | .index i => if i.toNat < s.lookupCount then some i.toNat else none
    | .name name => s.lookups[name]?
  match place with
  | some i => .pure (some i)
  | none => .blame (.unknownLookup (refLabel ref)) none

/-- The tag that a text spells. -/
def tag? (text : String) : Named (Option Tag) :=
  match Tag.ofString? text with
  | some t => .pure (some t)
  | none => .blame (.invalidTag text) none

/-- The script and the language of a language system; an invalid script hides the language. -/
def system? (system : String × String) : Named (Option (Tag × Tag)) := do
  match ← tag? system.1 with
  | none => Named.pure none
  | some script => return (← tag? system.2).map fun language => (script, language)

end Scope
end FontLayout
