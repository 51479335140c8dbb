import Dataflow.CommandLine.Run

/-!
# The program

Reads what the command line names and prints the report.
-/
namespace Dataflow

/-- The words of the system for a failed read. -/
def systemReason (e : IO.Error) : String :=
  let described := fun (details : String) (code : UInt32) => s!"{details} (os error {code})"
  match e with
  | .noFileOrDirectory _ code details => described details code
  | .permissionDenied _ code details => described details code
  | .inappropriateType _ code details => described details code
  | .otherError code details => described details code
  | e => toString e

/-- The text in some bytes, if reading them went well. -/
def textOf (read : IO ByteArray) : IO (Except ReadFailure String) := do
  match ← read.toBaseIO with
  | .error e => return .error ⟨systemReason e⟩
  | .ok bytes =>
    match String.fromUTF8? bytes with
    | some s => return .ok s
    | none => return .error ⟨"stream did not contain valid UTF-8"⟩

/-- Everything that standard input holds. -/
partial def readAll (input : IO.FS.Stream) (seen : ByteArray) : IO ByteArray := do
  let chunk ← input.read 65536
  if chunk.isEmpty then return seen else readAll input (seen ++ chunk)

/-- The text of the file at a path. -/
def textOfFile (path : String) : IO (Except ReadFailure String) := textOf (IO.FS.readBinFile path)

/-- The text of standard input, if that is where the pipeline comes from. -/
def textOfStdin (i : Invocation) : IO (Except ReadFailure String) := do
  if i.text.isNone && i.path == some "-" then textOf (do readAll (← IO.getStdin) .empty)
  else return .ok ""

/-- The files that an invocation reads. -/
def filesOf (i : Invocation) : List String :=
  (if i.text.isNone then i.path.toList.filter (· != "-") else []) ++ i.config.toList

/-- Reads the inputs that the arguments name, and no others. -/
def inputsFor (args : List String) : IO Inputs := do
  match CommandLine.parse args with
  | .error _ => return ⟨.ok "", fun _ => .ok ""⟩
  | .ok i =>
    let files ← (filesOf i).mapM fun path => do return (path, ← textOfFile path)
    return ⟨← textOfStdin i, fun path => (files.lookup path).getD (.ok "")⟩

end Dataflow

def main (args : List String) : IO UInt32 := do
  let report := Dataflow.CommandLine.run args (← Dataflow.inputsFor args)
  (← IO.getStdout).putStr report.output
  (← IO.getStderr).putStr report.errors
  return UInt32.ofNat report.status
