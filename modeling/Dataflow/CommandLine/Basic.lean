/-!
# Invocations

What a command line asks for, and why one is refused. Asking for help is refused
too: there is nothing to run.
-/
namespace Dataflow

inductive CommandName where
  /-- Verify a pipeline. -/
  | check
  /-- Show its graph. -/
  | graph
  /-- Show its steps. -/
  | plan
  deriving DecidableEq, Repr

def CommandName.label : CommandName → String
  | check => "check"
  | graph => "graph"
  | plan => "plan"

/-- What can be switched on. -/
inductive Flag where
  | strict
  | planned
  | fields
  | json
  deriving DecidableEq, Repr

/-- What is given along with a value. -/
inductive Slot where
  /-- The file that holds the pipeline. -/
  | path
  /-- The pipeline itself. -/
  | text
  /-- The file that holds the configuration. -/
  | config
  deriving DecidableEq, Repr

structure Invocation where
  command : CommandName
  path : Option String
  text : Option String
  config : Option String
  flags : List Flag
  verbosity : Nat
  deriving DecidableEq, Repr

def Invocation.has (i : Invocation) (f : Flag) : Bool := i.flags.contains f

/-- What a request for help is about. -/
inductive HelpTopic where
  | program
  | command (name : CommandName)
  /-- The help command itself. -/
  | help
  deriving DecidableEq, Repr

inductive UsageError where
  | help (topic : HelpTopic)
  /-- Nothing was asked for at all. -/
  | nothing
  | invalidSubcommand (word : String)
  | unknownArgument (word : String)
  /-- An option without a value, or a path without a character. -/
  | invalidValue (slot : Slot)
  /-- A value for what takes none. -/
  | tooManyValues (word : String)
  /-- Something given twice, or two things that exclude each other. -/
  | conflict
  deriving DecidableEq, Repr

/-- Help that was asked for is no failure. -/
def UsageError.status : UsageError → Nat
  | help _ => 0
  | _ => 2

end Dataflow
