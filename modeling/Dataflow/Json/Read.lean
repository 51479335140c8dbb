import Dataflow.Json.Basic

/-!
# Reading JSON

The grammar of JSON over a list of characters. Each reader takes what it
recognises off the front and returns the rest; blanks are skipped between
tokens. Values nest, so their readers carry a budget, and twice the length of
the text is enough: every second call takes a character.
-/
namespace Dataflow
namespace Json.Read

/-- Drops leading blanks. -/
def blanks (cs : List Char) : List Char :=
  cs.dropWhile fun c => c == ' ' || c == '\n' || c == '\t' || c == '\r'

/-! ## Strings -/

def hexValue? (c : Char) : Option Nat :=
  if '0' ≤ c ∧ c ≤ '9' then some (c.toNat - '0'.toNat)
  else if 'a' ≤ c ∧ c ≤ 'f' then some (c.toNat - 'a'.toNat + 10)
  else if 'A' ≤ c ∧ c ≤ 'F' then some (c.toNat - 'A'.toNat + 10)
  else none

/-- The number that four hexadecimal digits stand for. -/
def hexUnit? (a b c d : Char) : Option Nat := do
  return ((← hexValue? a) * 16 + (← hexValue? b)) * 256 + (← hexValue? c) * 16 + (← hexValue? d)

/-- What stands for a part of a string: a character, or a UTF-16 unit that is
given by its number. -/
inductive Piece where
  | char (c : Char)
  | unit (n : Nat)
  deriving DecidableEq, Repr

/-- The character that an escape letter stands for. -/
def escaped? : Char → Option Char
  | '"' => some '"'
  | '\\' => some '\\'
  | '/' => some '/'
  | 'b' => some '\x08'
  | 'f' => some '\x0c'
  | 'n' => some '\n'
  | 'r' => some '\r'
  | 't' => some '\t'
  | _ => none

/-- The pieces of a string up to its closing quote. -/
def pieces : List Char → Option (List Piece × List Char)
  | [] => none
  | '"' :: rest => some ([], rest)
  | '\\' :: 'u' :: a :: b :: c :: d :: rest =>
    match hexUnit? a b c d, pieces rest with
    | some n, some (ps, rest) => some (.unit n :: ps, rest)
    | _, _ => none
  | '\\' :: c :: rest =>
    match escaped? c, pieces rest with
    | some e, some (ps, rest) => some (.char e :: ps, rest)
    | _, _ => none
  | c :: rest =>
    if c.toNat < 32 || c == '\\' then none
    else (pieces rest).map fun (ps, rest) => (.char c :: ps, rest)

/-- The first unit of a surrogate pair. -/
def isHigh (n : Nat) : Bool := decide (0xD800 ≤ n ∧ n < 0xDC00)

/-- The second unit of a surrogate pair. -/
def isLow (n : Nat) : Bool := decide (0xDC00 ≤ n ∧ n < 0xE000)

/-- The character of a surrogate pair. -/
def paired (high low : Nat) : Char :=
  Char.ofNat (0x10000 + (high - 0xD800) * 0x400 + (low - 0xDC00))

/-- The characters of a string; none if half of a surrogate pair stands alone. -/
def assemble : List Piece → Option (List Char)
  | [] => some []
  | .char c :: rest => (assemble rest).map (c :: ·)
  | .unit n :: .unit m :: rest =>
    if isHigh n then
      if isLow m then (assemble rest).map (paired n m :: ·) else none
    else if isLow n then none
    else (assemble (.unit m :: rest)).map (Char.ofNat n :: ·)
  | .unit n :: rest =>
    if isHigh n || isLow n then none else (assemble rest).map (Char.ofNat n :: ·)

/-- A string behind its opening quote. -/
def text (cs : List Char) : Option (Option String × List Char) :=
  (pieces cs).map fun (ps, rest) => ((assemble ps).map String.ofList, rest)

/-! ## Numbers -/

def isDigit (c : Char) : Bool := decide ('0' ≤ c) && decide (c ≤ '9')

/-- One digit or more. -/
def digits (cs : List Char) : Option (List Char × List Char) :=
  match cs.takeWhile isDigit with
  | [] => none
  | ds => some (ds, cs.dropWhile isDigit)

def natOf (ds : List Char) : Nat := ds.foldl (fun n c => 10 * n + (c.toNat - '0'.toNat)) 0

/-- The digits before the point: a zero, or digits that start with no zero. -/
def whole : List Char → Option (Nat × List Char)
  | '0' :: rest => some (0, rest)
  | cs => (digits cs).map fun (ds, rest) => (natOf ds, rest)

def fraction : List Char → Option (List Char × List Char)
  | '.' :: rest => digits rest
  | cs => some ([], cs)

def signedExponent : List Char → Option (Int × List Char)
  | '-' :: rest => (digits rest).map fun (ds, rest) => (-(natOf ds : Int), rest)
  | '+' :: rest => (digits rest).map fun (ds, rest) => ((natOf ds : Int), rest)
  | cs => (digits cs).map fun (ds, rest) => ((natOf ds : Int), rest)

def exponent : List Char → Option (Option Int × List Char)
  | 'e' :: rest | 'E' :: rest => (signedExponent rest).map fun (e, rest) => (some e, rest)
  | cs => some (none, cs)

def sign : List Char → Bool × List Char
  | '-' :: rest => (true, rest)
  | cs => (false, cs)

def numeral (cs : List Char) : Option (Numeral × List Char) := do
  let (negative, cs) := sign cs
  let (whole, cs) ← whole cs
  let (fraction, cs) ← fraction cs
  let (exponent, cs) ← exponent cs
  return (⟨negative, whole, fraction, exponent⟩, cs)

/-! ## Values -/

mutual

/-- A value that starts at the first character. -/
def value : (budget : Nat) → List Char → Option (Json × List Char)
  | 0, _ => none
  | budget + 1, cs =>
    match cs with
    | 'n' :: 'u' :: 'l' :: 'l' :: rest => some (.null, rest)
    | 't' :: 'r' :: 'u' :: 'e' :: rest => some (.bool true, rest)
    | 'f' :: 'a' :: 'l' :: 's' :: 'e' :: rest => some (.bool false, rest)
    | '"' :: rest => (text rest).map fun (s, rest) => (.string s, rest)
    | '[' :: rest =>
      match blanks rest with
      | ']' :: rest => some (.array [], rest)
      | rest => (items budget rest).map fun (vs, rest) => (.array vs, rest)
    | '\x7b' :: rest =>
      match blanks rest with
      | '\x7d' :: rest => some (.object [], rest)
      | rest => (members budget rest).map fun (ms, rest) => (.object ms, rest)
    | cs => (numeral cs).map fun (n, rest) => (.number n, rest)

/-- The items of an array, up to its end. -/
def items : (budget : Nat) → List Char → Option (List Json × List Char)
  | 0, _ => none
  | budget + 1, cs =>
    match value budget (blanks cs) with
    | none => none
    | some (v, rest) =>
      match blanks rest with
      | ',' :: rest => (items budget rest).map fun (vs, rest) => (v :: vs, rest)
      | ']' :: rest => some ([v], rest)
      | _ => none

/-- The members of an object, up to its end. -/
def members : (budget : Nat) → List Char → Option (List (Option String × Json) × List Char)
  | 0, _ => none
  | budget + 1, cs =>
    match blanks cs with
    | '"' :: rest =>
      match text rest with
      | none => none
      | some (key, rest) =>
        match blanks rest with
        | ':' :: rest =>
          match value budget (blanks rest) with
          | none => none
          | some (v, rest) =>
            match blanks rest with
            | ',' :: rest => (members budget rest).map fun (ms, rest) => ((key, v) :: ms, rest)
            | '\x7d' :: rest => some ([(key, v)], rest)
            | _ => none
        | _ => none
    | _ => none

end

end Json.Read

/-- The value that a text holds, with nothing but blanks around it. -/
def Json.parse? (source : String) : Option Json :=
  let cs := source.toList
  match Json.Read.value (2 * cs.length + 2) (Json.Read.blanks cs) with
  | some (v, rest) => if (Json.Read.blanks rest).isEmpty then some v else none
  | none => none

end Dataflow
