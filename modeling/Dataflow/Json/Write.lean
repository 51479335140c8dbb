import Dataflow.Json.Basic

/-!
# Writing JSON

Values are written compactly, or over several lines with two blanks per level.
A string escapes the quote, the backslash and the control characters below the
blank, and nothing else.
-/
namespace Dataflow

def Numeral.render (n : Numeral) : String :=
  let sign := if n.negative then "-" else ""
  let fraction := if n.fraction.isEmpty then "" else "." ++ String.ofList n.fraction
  let exponent := n.exponent.elim "" fun e => "e" ++ toString e
  sign ++ toString n.whole ++ fraction ++ exponent

namespace Json

def hexDigit (n : Nat) : Char := if n < 10 then Char.ofNat (48 + n) else Char.ofNat (87 + n)

/-- A character as it stands between quotes. -/
def escape (c : Char) : List Char :=
  match c with
  | '"' => ['\\', '"']
  | '\\' => ['\\', '\\']
  | '\x08' => ['\\', 'b']
  | '\x0c' => ['\\', 'f']
  | '\n' => ['\\', 'n']
  | '\r' => ['\\', 'r']
  | '\t' => ['\\', 't']
  | c =>
    if c.toNat < 32 then ['\\', 'u', '0', '0', hexDigit (c.toNat / 16), hexDigit (c.toNat % 16)]
    else [c]

def quote (s : String) : String := String.ofList ('"' :: s.toList.flatMap escape ++ ['"'])

/-- A string; what stands for no text is written as half of a surrogate pair. -/
def quoteText (text : Option String) : String := text.elim "\"\\ud800\"" quote

def enclosed (opening closing : Char) (body : String) : String :=
  opening.toString ++ body ++ closing.toString

mutual

/-- The value on one line, without blanks between tokens. -/
def compact : Json → String
  | null => "null"
  | bool b => if b then "true" else "false"
  | number n => n.render
  | string text => quoteText text
  | array items => enclosed '[' ']' (",".intercalate (compactItems items))
  | object members => enclosed '\x7b' '\x7d' (",".intercalate (compactMembers members))

def compactItems : List Json → List String
  | [] => []
  | v :: rest => compact v :: compactItems rest

def compactMembers : List (Option String × Json) → List String
  | [] => []
  | (key, v) :: rest => (quoteText key ++ ":" ++ compact v) :: compactMembers rest

end

/-- A new line at the given level. -/
def newline (level : Nat) : String := "\n" ++ "".pushn ' ' (2 * level)

/-- Lines between two brackets, one level further in; nothing between them if
there are no lines. -/
def block (level : Nat) (opening closing : Char) : List String → String
  | [] => enclosed opening closing ""
  | lines =>
    let inner := newline (level + 1)
    enclosed opening closing (inner ++ ("," ++ inner).intercalate lines ++ newline level)

mutual

/-- The value over several lines; it starts at the given level. -/
def pretty (level : Nat) : Json → String
  | null => "null"
  | bool b => if b then "true" else "false"
  | number n => n.render
  | string text => quoteText text
  | array items => block level '[' ']' (prettyItems (level + 1) items)
  | object members => block level '\x7b' '\x7d' (prettyMembers (level + 1) members)

def prettyItems (level : Nat) : List Json → List String
  | [] => []
  | v :: rest => pretty level v :: prettyItems level rest

def prettyMembers (level : Nat) : List (Option String × Json) → List String
  | [] => []
  | (key, v) :: rest => (quoteText key ++ ": " ++ pretty level v) :: prettyMembers level rest

end

end Json
end Dataflow
