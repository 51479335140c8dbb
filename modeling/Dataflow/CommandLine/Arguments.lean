import Dataflow.CommandLine.Basic

/-!
# Parsing arguments

The first word names the command; the rest is read left to right. `Parsing` keeps
what was set, and a slot that was opened last. Its value is checked when the next
option closes it or the line ends, so an unknown argument behind it is reported
first. Behind `--` every word is a path.
-/
namespace Dataflow
namespace CommandLine

/-- What an option does. -/
inductive Switch where
  | flag (f : Flag)
  | value (s : Slot)
  | verbose
  | help
  deriving DecidableEq, Repr

/-- The options of a command, with their long and short names. -/
def options (c : CommandName) : List (Option String × Option Char × Switch) :=
  [(some "pipeline", some 'p', .value .text)] ++
  (match c with
    | .check => [(some "strict", none, .flag .strict)]
    | .graph =>
      [(some "config", some 'c', .value .config), (some "planned", none, .flag .planned),
        (some "fields", none, .flag .fields)]
    | .plan =>
      [(some "config", some 'c', .value .config), (some "json", none, .flag .json)]) ++
  [(none, some 'v', .verbose), (some "help", some 'h', .help)]

def long? (c : CommandName) (name : String) : Option Switch :=
  ((options c).find? fun o => o.1 == some name).map fun o => o.2.2

def short? (c : CommandName) (name : Char) : Option Switch :=
  ((options c).find? fun o => o.2.1 == some name).map fun o => o.2.2

structure Parsing where
  command : CommandName
  path : Option String
  text : Option String
  config : Option String
  flags : List Flag
  verbosity : Nat
  /-- The slot that was opened last, with its value once there is one. -/
  pending : Option (Slot × Option String)
  /-- Everything behind `--` is a path. -/
  pathsOnly : Bool
  deriving DecidableEq, Repr

namespace Parsing

def start (command : CommandName) : Parsing := ⟨command, none, none, none, [], 0, none, false⟩

variable (p : Parsing)

def filled (s : Slot) : Option String :=
  match s with
  | .path => p.path
  | .text => p.text
  | .config => p.config

/-- Fills a slot, once. A path has at least one character. -/
def fill (s : Slot) (v : String) : Except UsageError Parsing :=
  if (p.filled s).isSome then .error .conflict
  else if v.isEmpty && s != .text then .error (.invalidValue s)
  else .ok <| match s with
    | .path => { p with path := some v }
    | .text => { p with text := some v }
    | .config => { p with config := some v }

/-- Closes the slot that was opened last. -/
def settle : Except UsageError Parsing :=
  match p.pending with
  | none => .ok p
  | some (s, none) => .error (.invalidValue s)
  | some (s, some v) => { p with pending := none }.fill s v

/-- An option without an attached value. -/
def turn (o : Switch) : Except UsageError Parsing := do
  let p ← p.settle
  match o with
  | .flag f => if f ∈ p.flags then .error .conflict else .ok { p with flags := p.flags ++ [f] }
  | .value s => .ok { p with pending := some (s, none) }
  | .verbose => .ok { p with verbosity := min (p.verbosity + 1) 255 }
  | .help => .error (.help (.command p.command))

/-- A slot with its value in the same word. -/
def attach (s : Slot) (v : String) : Except UsageError Parsing := do
  let p ← p.settle
  p.fill s v

/-- The name and the attached value of a long option. -/
def splitValue (cs : List Char) : String × Option String :=
  match cs.dropWhile (· != '=') with
  | [] => (String.ofList cs, none)
  | _ :: v => (String.ofList (cs.takeWhile (· != '=')), some (String.ofList v))

/-- A word that starts with two hyphens, without them. -/
def long (cs : List Char) : Except UsageError Parsing :=
  match splitValue cs with
  | (name, attached) =>
    match long? p.command name, attached with
    | none, _ => .error (.unknownArgument ("--" ++ name))
    | some o, none => p.turn o
    | some (.value s), some v => p.attach s v
    | some _, some _ => .error (.tooManyValues ("--" ++ name))

/-- An attached value may follow an equals sign. -/
def withoutEquals : List Char → List Char
  | '=' :: v => v
  | v => v

/-- The letters of a word that starts with one hyphen. -/
def shorts : Parsing → List Char → Except UsageError Parsing
  | p, [] => .ok p
  | p, c :: rest =>
    match short? p.command c, rest with
    | none, _ => .error (.unknownArgument (String.ofList ['-', c]))
    | some (.value s), [] => p.turn (.value s)
    | some (.value s), v => p.attach s (String.ofList (withoutEquals v))
    | some o, rest =>
      match p.turn o with
      | .error e => .error e
      | .ok p => shorts p rest

/-- A path was given, whether or not it is settled. -/
def hasPath : Bool := p.path.isSome || p.pending.any fun s => s.1 == .path

/-- A word that is a path by its place. -/
def positional (word : String) : Except UsageError Parsing :=
  if p.hasPath then .error (.unknownArgument word)
  else do
    let p ← p.settle
    return { p with pending := some (.path, some word) }

/-- A word that is no option: the value of the slot just opened, or a path. -/
def plain (word : String) : Except UsageError Parsing :=
  match p.pending with
  | some (s, none) => .ok { p with pending := some (s, some word) }
  | _ => p.positional word

/-- Reads the next word. -/
def word (word : String) : Except UsageError Parsing :=
  if p.pathsOnly then p.positional word
  else match word.toList with
    | ['-', '-'] => .ok { p with pathsOnly := true }
    | '-' :: '-' :: cs => p.long cs
    | '-' :: c :: cs => p.shorts (c :: cs)
    | _ => p.plain word

/-- Ends the line. A pipeline is given in one way alone. -/
def finish : Except UsageError Invocation := do
  let p ← p.settle
  if p.path.isSome && p.text.isSome then throw .conflict
  return ⟨p.command, p.path, p.text, p.config, p.flags, p.verbosity⟩

end Parsing

/-- Reads the arguments of a command. -/
def parseCommand (c : CommandName) (args : List String) : Except UsageError Invocation := do
  let p ← args.foldlM Parsing.word (Parsing.start c)
  p.finish

def commandNames : List CommandName := [.check, .graph, .plan]

def command? (word : String) : Option CommandName :=
  commandNames.find? fun c => c.label == word

/-- The topic of the help command: the program, a command, or the help command
itself. -/
def helpTopic : List String → UsageError
  | [] => .help .program
  | ["help"] => .help .help
  | "help" :: word :: _ => .invalidSubcommand word
  | word :: rest =>
    match command? word, rest with
    | none, _ => .invalidSubcommand word
    | some c, [] => .help (.command c)
    | some _, next :: _ => .invalidSubcommand next

/-- The word names a command, the help command included. -/
def isCommand (word : String) : Bool := word == "help" || (command? word).isSome

/-- What is wrong with a first word that names no command. -/
def strayWord (word : String) : UsageError :=
  match word.toList with
  | ['-'] => .invalidSubcommand word
  | '-' :: '-' :: cs =>
    match Parsing.splitValue cs with
    | ("help", none) => .help .program
    | ("help", some _) => .tooManyValues "--help"
    | (name, _) => .unknownArgument ("--" ++ name)
  | '-' :: 'h' :: _ => .help .program
  | '-' :: c :: _ => .unknownArgument (String.ofList ['-', c])
  | _ => .invalidSubcommand word

/-- What is wrong with the words behind a leading `--`, where no command may stand. -/
def strayWords : List String → UsageError
  | [] => .nothing
  | word :: _ => if isCommand word then .unknownArgument word else .invalidSubcommand word

/-- The invocation that the arguments describe. -/
def parse : List String → Except UsageError Invocation
  | [] => .error .nothing
  | "--" :: rest => .error (strayWords rest)
  | word :: rest =>
    if word = "help" then .error (helpTopic rest)
    else match command? word with
      | some c => parseCommand c rest
      | none => .error (strayWord word)

end CommandLine
end Dataflow
