import Dataflow.Json.Basic

/-!
# Reading values out of JSON

Readers for the parts of a record: a key may be required, optional or nullable,
and a key that a record looks for must not be repeated. `none` means that the
value does not fit.
-/
namespace Dataflow
namespace Json

/-- The members of an object. -/
abbrev Members := List (Option String × Json)

/-- The value of a key, which must not be repeated. -/
def Members.optional (ms : Members) (key : String) : Option (Option Json) :=
  match ms.filter fun m => m.1 == some key with
  | [] => some none
  | [(_, v)] => some (some v)
  | _ => none

/-- The value of a key that must be there exactly once. -/
def Members.required (ms : Members) (key : String) : Option Json := (ms.optional key).join

/-- Reads an optional value, with a default for an absent one. -/
def orDefault {α : Type} (default : α) (read : Json → Option α) : Option Json → Option α
  | none => some default
  | some v => read v

/-- Reads an optional value; it may also be null. -/
def nullable {α : Type} (read : Json → Option α) : Option Json → Option (Option α)
  | none | some null => some none
  | some v => (read v).map some

def bool? : Json → Option Bool
  | bool b => some b
  | _ => none

def string? : Json → Option String
  | string text => text
  | _ => none

def strings? : Json → Option (List String)
  | array items => items.mapM string?
  | _ => none

/-- A natural number below `bound`. -/
def natBelow? (bound : Nat) : Json → Option Nat
  | number n => n.nat?.filter fun k => decide (k < bound)
  | _ => none

/-- The name of a choice without data: a string, or an object with that one key
and nothing to say about it. -/
def choice? : Json → Option String
  | string text => text
  | object [(key, null)] | object [(key, object [])] => key
  | _ => none

end Json
end Dataflow
