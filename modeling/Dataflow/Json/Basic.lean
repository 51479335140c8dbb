/-!
# JSON values

A value as it is written: the members of an object keep their order and may
repeat a key, and a number keeps its digits. A string may escape half of a
surrogate pair without the other half, and then stands for no text.

`Json.isSound` says what a value must satisfy to be read into memory at all;
a reader that only skips a value does not ask for it.
-/
namespace Dataflow

/-- A number as it is written; it has a point if `fraction` is not empty. -/
structure Numeral where
  negative : Bool
  whole : Nat
  fraction : List Char
  exponent : Option Int
  deriving DecidableEq, Repr

namespace Numeral

def ofNat (n : Nat) : Numeral := ⟨false, n, [], none⟩

/-- The number, if it is written as a natural number: without sign, point and
exponent. -/
def nat? (n : Numeral) : Option Nat :=
  if n.negative || !n.fraction.isEmpty || n.exponent.isSome then none else some n.whole

/-- The digits read as one natural number. -/
def significand (n : Numeral) : Nat :=
  n.fraction.foldl (fun m c => 10 * m + (c.toNat - '0'.toNat)) n.whole

/-- The power of ten that the significand is scaled by. -/
def scale (n : Numeral) : Int := n.exponent.getD 0 - n.fraction.length

/-- From here on a number is nearer to infinity than to the largest double. -/
def overflow : Nat := Nat.pow 2 1024 - Nat.pow 2 970

/-- The number rounds to a finite double. Only where the leading digit stands at
10^308 does it take a comparison. -/
def isFinite (n : Numeral) : Bool :=
  let m := n.significand
  let top := n.scale + (toString m).length
  m == 0 || decide (top < 309) ||
    (decide (top = 309) &&
      decide (m * Nat.pow 10 n.scale.toNat < overflow * Nat.pow 10 (-n.scale).toNat))

end Numeral

inductive Json where
  | null
  | bool (b : Bool)
  | number (n : Numeral)
  /-- `none` if the string stands for no text. -/
  | string (text : Option String)
  | array (items : List Json)
  | object (members : List (Option String × Json))
  deriving Repr

namespace Json

instance : Inhabited Json := ⟨null⟩

def ofNat (n : Nat) : Json := number (.ofNat n)

def ofString (s : String) : Json := string (some s)

/-- An object with the given members. -/
def record (members : List (String × Json)) : Json :=
  object (members.map fun (k, v) => (some k, v))

mutual

/-- Every string is text, every number is finite, and values nest at most
`depth` deep. -/
def isSound (depth : Nat) : Json → Bool
  | null | bool _ => true
  | number n => n.isFinite
  | string text => text.isSome
  | array items => decide (0 < depth) && areSound (depth - 1) items
  | object members => decide (0 < depth) && membersAreSound (depth - 1) members

def areSound (depth : Nat) : List Json → Bool
  | [] => true
  | v :: rest => isSound depth v && areSound depth rest

def membersAreSound (depth : Nat) : List (Option String × Json) → Bool
  | [] => true
  | (key, v) :: rest => key.isSome && isSound depth v && membersAreSound depth rest

end

end Json
end Dataflow
