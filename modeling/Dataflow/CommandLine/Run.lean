import Dataflow.CommandLine.Arguments
import Dataflow.CommandLine.Help
import Dataflow.Definition.Read
import Dataflow.Planner.Compile
import Dataflow.Planner.ConfigRead
import Dataflow.Step.Dump
import Dataflow.Step.Json

/-!
# Running commands

A command reads its inputs, calls the planner and reports: what it prints, what
it complains about and its exit status. Inputs come from `Inputs`, so running a
command is a function of them.
-/
namespace Dataflow

/-- Why an input cannot be read, in the words of the system. -/
structure ReadFailure where
  reason : String
  deriving DecidableEq, Repr

structure Inputs where
  stdin : Except ReadFailure String
  /-- The text of the file at a path. -/
  file : String → Except ReadFailure String

inductive LoadError where
  | missing
  | read (path : String) (e : ReadFailure)
  | stdin (e : ReadFailure)
  | definition (e : DefinitionError)
  | config (path : String)
  deriving DecidableEq, Repr

def LoadError.message : LoadError → String
  | missing => "pipeline is required: use a positional argument or -p/--pipeline"
  | read path e => s!"failed to read '{path}': {e.reason}"
  | stdin e => s!"failed to read stdin: {e.reason}"
  | definition e => e.message
  | config path => s!"invalid planner config '{path}': the text does not describe a configuration"

/-- What a command leaves behind. -/
structure Report where
  status : Nat
  output : String
  errors : String
  deriving DecidableEq, Repr

namespace Report

def ok (output errors : String) : Report := ⟨0, output, errors⟩

/-- A failure with the given complaint. -/
def failed (errors : String) : Report := ⟨1, "", errors⟩

def ofMessage (message : String) : Report := failed s!"error: {message}\n"

end Report

namespace Invocation

variable (i : Invocation) (inputs : Inputs)

def readFile (path : String) : Except LoadError String :=
  (inputs.file path).mapError (.read path)

/-- The text of the pipeline: given inline, from standard input or from a file. -/
def pipelineText : Except LoadError String :=
  match i.text, i.path with
  | some text, _ => .ok text
  | none, none => .error .missing
  | none, some "-" => inputs.stdin.mapError .stdin
  | none, some path => readFile inputs path

/-- Mirrors `load_pipeline`. -/
def loadPipeline : Except LoadError Definition := do
  let text ← i.pipelineText inputs
  (Definition.parse text).mapError .definition

/-- The configuration in the file that is named, or the default. Mirrors `load_config`. -/
def loadConfig : Except LoadError PlannerConfig :=
  match i.config with
  | none => .ok default
  | some path => do
    match PlannerConfig.parse? (← readFile inputs path) with
    | some c => .ok c
    | none => .error (.config path)

/-- Verifies a pipeline; strictly, a warning is a failure too. -/
def runCheck (g : Graph) : Report :=
  match g.verify .byScheme with
  | .error ref => .ofMessage (ref.message?.getD "")
  | .ok ds =>
    let bad := ds.hasErrors || (i.has .strict && ds.hasWarnings)
    ⟨if bad then 1 else 0, "", ds.render g true⟩

def showGraph (g : Graph) : String := g.dump ⟨true, i.has .fields⟩

/-- Shows a graph as defined or reshaped for planning. -/
def runGraph (c : PlannerConfig) (g : Graph) : Report :=
  if i.has .planned then
    match c.reshape .byScheme g with
    | .error f => .failed f.render
    | .ok (g, warnings) => .ok (i.showGraph g) (warnings.render g true)
  else .ok (i.showGraph g) ""

/-- Plans a pipeline and shows its steps. -/
def runPlan (c : PlannerConfig) (d : Definition) : Report :=
  match c.compile .byScheme d with
  | .error e => .failed e.render
  | .ok p =>
    let shown := if i.has .json then p.steps.jsonText ++ "\n" else p.steps.dump
    .ok shown (p.warnings.render p.graph true)

/-- Builds the graph of a definition for a command that goes on with it. -/
def withGraph (d : Definition) (next : Graph → Report) : Report :=
  match d.toGraph with
  | .error e => .ofMessage e.message
  | .ok g => next g

/-- The pipeline is read first, then the configuration. -/
def run : Report :=
  match i.loadPipeline inputs with
  | .error e => .ofMessage e.message
  | .ok d =>
    match i.command with
    | .check => withGraph d i.runCheck
    | .graph =>
      match i.loadConfig inputs with
      | .error e => .ofMessage e.message
      | .ok c => withGraph d (i.runGraph c)
    | .plan =>
      match i.loadConfig inputs with
      | .error e => .ofMessage e.message
      | .ok c => i.runPlan c d

end Invocation

/-- Help goes to the output; every other usage error is a complaint. -/
def UsageError.report (e : UsageError) : Report :=
  match e with
  | help _ => ⟨e.status, e.render, ""⟩
  | _ => ⟨e.status, "", e.render⟩

/-- Runs the program on its arguments. -/
def CommandLine.run (args : List String) (inputs : Inputs) : Report :=
  match parse args with
  | .error e => e.report
  | .ok i => i.run inputs

end Dataflow
