import Dataflow.CommandLine.Basic

/-!
# Help texts

What each request for help prints, and the messages of usage errors.
-/
namespace Dataflow

/-- Rows of a name and its explanation, the explanations in one column. -/
def columns (rows : List (String × String)) : List String :=
  let width := rows.foldl (fun w r => max w r.1.length) 0
  rows.map fun (name, about) => "  " ++ name ++ "".pushn ' ' (width - name.length + 2) ++ about

def CommandName.about : CommandName → String
  | check => "Verify a pipeline definition"
  | graph => "Show the element graph of a pipeline"
  | plan => "Partition a pipeline into steps"

def CommandName.usage : CommandName → List String
  | check => ["flowplan check <PIPELINE>", "  flowplan check -p <JSON>"]
  | graph =>
    ["flowplan graph <PIPELINE> [--planned] [--fields]",
      "  flowplan graph -p <JSON> [--planned] [--fields]"]
  | plan =>
    ["flowplan plan <PIPELINE> [-c <FILE>] [--json]",
      "  flowplan plan -p <JSON> [-c <FILE>] [--json]"]

def CommandName.examples : CommandName → List String
  | check =>
    ["  flowplan check wordcount.json           # report errors and warnings",
      "  flowplan check wordcount.json --strict  # fail on warnings too",
      "  cat wordcount.json | flowplan check -   # read stdin"]
  | graph =>
    ["  flowplan graph wordcount.json                     # as defined",
      "  flowplan graph wordcount.json --planned           # after rewriting",
      "  flowplan graph wordcount.json --planned --fields  # with resolved fields",
      "  flowplan graph wordcount.json --planned -c planner.json"]
  | plan =>
    ["  flowplan plan wordcount.json                 # step graph as text",
      "  flowplan plan wordcount.json --json          # step graph as JSON",
      "  flowplan plan wordcount.json -c planner.json # custom planner config",
      "  flowplan plan wordcount.json -vv             # trace every rewrite"]

/-- The options of a command with their explanations. -/
def CommandName.optionHelp (c : CommandName) : List (String × String) :=
  [("-p, --pipeline <JSON>", "Inline pipeline definition")] ++
  (match c with
    | check => [("    --strict", "Treat warnings as errors")]
    | graph =>
      [("-c, --config <FILE>", "Planner configuration (JSON)"),
        ("    --planned", "Show the graph after every rewrite"),
        ("    --fields", "Show the fields carried by each scope")]
    | plan =>
      [("-c, --config <FILE>", "Planner configuration (JSON)"),
        ("    --json", "Print the step graph as JSON")]) ++
  [("-v...", "Log planner phases to stderr (-v for debug, -vv for trace)"),
    ("-h, --help", "Print help")]

namespace HelpTopic

def lines : HelpTopic → List String
  | program =>
    ["Physical planner for dataflow pipelines", "", "Usage: flowplan <COMMAND>", "",
      "Commands:"] ++
    columns
      [("check", CommandName.check.about), ("graph", CommandName.graph.about),
        ("plan", CommandName.plan.about),
        ("help", "Print this message or the help of the given subcommand(s)")] ++
    ["", "Options:"] ++ columns [("-h, --help", "Print help")]
  | command c =>
    [c.about, "", "Usage: " ++ "\n".intercalate c.usage, "", "Arguments:"] ++
    columns [("[PIPELINE]", "Pipeline definition (JSON), or - for stdin")] ++
    ["", "Options:"] ++ columns c.optionHelp ++ ["", "EXAMPLES:"] ++ c.examples
  | help =>
    ["Print this message or the help of the given subcommand(s)", "",
      "Usage: flowplan help [COMMAND]...", "", "Arguments:"] ++
    columns [("[COMMAND]...", "Print help for the subcommand(s)")]

def render (t : HelpTopic) : String := "".intercalate (t.lines.map (· ++ "\n"))

end HelpTopic

def Slot.label : Slot → String
  | path => "[PIPELINE]"
  | text => "--pipeline <JSON>"
  | config => "--config <FILE>"

/-- What is printed for arguments that cannot be run. -/
def UsageError.render : UsageError → String
  | help topic => topic.render
  | nothing => HelpTopic.program.render
  | invalidSubcommand word => s!"error: unrecognized subcommand '{word}'\n"
  | unknownArgument word => s!"error: unexpected argument '{word}' found\n"
  | invalidValue slot => s!"error: a value is required for '{slot.label}' but none was supplied\n"
  | tooManyValues word => s!"error: unexpected value for '{word}' found; no more were expected\n"
  | conflict => "error: an argument was given twice or beside one that excludes it\n"

end Dataflow
