/-!
# Field sets

What flows along a scope is a tuple, described by the names of its fields. A
field set is unknown, where planning cannot tell (behind a user-supplied
joiner, say), or an ordered list of distinct names. Position matters: the same
names in another order are another tuple layout.

* `Fields.of`, `Fields.ofNames?`: the two readings of a list that may repeat names;
* `Fields.append?`, `Fields.subtract`, `Fields.missing`: the algebra that field
  resolution uses. Unknown absorbs: what needs both sides known is skipped.
-/
namespace Dataflow

/-- Names that occur more than once. -/
structure DuplicateFields where
  names : List String
  deriving DecidableEq, Repr

def DuplicateFields.message (e : DuplicateFields) : String :=
  "duplicate field names: " ++ ", ".intercalate e.names

inductive Fields where
  | unknown
  | known (names : List String)
  deriving DecidableEq, Repr

namespace Fields

instance : Inhabited Fields := ⟨unknown⟩

/-- The empty known set. -/
def none : Fields := known []

/-- Each name at its first position. -/
def firstOccurrences : List String → List String
  | [] => []
  | name :: rest => name :: (firstOccurrences rest).filter (· != name)

/-- A known set; a repeated name counts once, where it first stands. -/
def of (names : List String) : Fields := known (firstOccurrences names)

/-- The names that stand a second time, each once, where the second occurrence
is. `seen` and `again` are the names met once and more than once so far. -/
def repeatedFrom (seen again : List String) : List String → List String
  | [] => again
  | name :: rest =>
    if name ∉ seen then repeatedFrom (seen ++ [name]) again rest
    else if name ∉ again then repeatedFrom seen (again ++ [name]) rest
    else repeatedFrom seen again rest

def repeated (names : List String) : List String := repeatedFrom [] [] names

/-- A known set, refused when a name repeats. Mirrors `try_from_names`. -/
def ofNames? (names : List String) : Except DuplicateFields Fields :=
  match repeated names with
  | [] => .ok (known names)
  | again => .error ⟨again⟩

def names? : Fields → Option (List String)
  | unknown => Option.none
  | known names => some names

def isKnown (f : Fields) : Bool := f.names?.isSome

/-- The number of fields, where it is known. -/
def width? (f : Fields) : Option Nat := f.names?.map List.length

def isEmpty (f : Fields) : Bool := f.width? == some 0

def contains (f : Fields) (name : String) : Bool :=
  match f with
  | unknown => false
  | known names => names.contains name

/-- The names of `selector` that `f` lacks; none when either side is unknown,
since absence cannot be shown then. Mirrors `missing`. -/
def missing (f selector : Fields) : List String :=
  match f, selector with
  | known mine, known wanted => wanted.filter fun name => !mine.contains name
  | _, _ => []

/-- One set after the other; they must not share a name. Mirrors `append`. -/
def append? (f g : Fields) : Except DuplicateFields Fields :=
  match f, g with
  | known left, known right =>
    match right.filter left.contains with
    | [] => .ok (known (left ++ right))
    | shared => .error ⟨shared⟩
  | _, _ => .ok unknown

/-- The names of `f` that are not in `g`, in the order of `f`. Mirrors `subtract`. -/
def subtract (f g : Fields) : Fields :=
  match f, g with
  | known left, known right => known (left.filter fun name => !right.contains name)
  | _, _ => unknown

/-- The same names at the same positions. Unknown has no layout to share. Mirrors `same_layout`. -/
def sameLayout (f g : Fields) : Bool :=
  match f, g with
  | known left, known right => left == right
  | _, _ => false

def render : Fields → String
  | unknown => "[?]"
  | known names => "[" ++ ", ".intercalate names ++ "]"

end Fields

end Dataflow
