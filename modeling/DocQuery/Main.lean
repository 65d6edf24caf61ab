import DocQuery.Command
import DocQuery.CommandLine
import DocQuery.Json.Layout

/-!
# The program

Reads the files a command line names, runs the command and prints its answer as JSON. Documents for
`run` come from standard input when no file is named. Failures go to standard error.
-/

set_option autoImplicit false

namespace DocQuery

/-- The text of the documents, if there is one. -/
def readDocuments (i : Invocation) : IO (Option String) := do
  match i.options.documents with
  | some file => return some (← IO.FS.readFile file)
  | none =>
    let input ← IO.getStdin
    if i.subcommand == .run && !(← input.isTty) then return some (← input.readToEnd)
    else return none

/-- Read what a command needs. -/
def readInput (i : Invocation) : IO (Except CommandError CommandInput) := do
  let documents ← readDocuments i
  let globalFilter ← i.options.globalFilter.mapM fun file => IO.FS.readFile file
  let query ← IO.FS.readFile i.query
  return do
    let params ← i.options.params.mapM Command.parseParam
    return ⟨query, documents, globalFilter, Fields.ofList params, i.options.pushdown⟩

/-- The answer of a command. -/
def perform (subcommand : Subcommand) (input : CommandInput) : Except CommandError Json :=
  match subcommand with
  | .run => Command.run input
  | .explain => (Command.explain input).map Explanation.toJson

/-- Run a command and print its answer. -/
def execute (i : Invocation) : IO UInt32 := do
  match (← readInput i).bind (perform i.subcommand) with
  | .ok j => do
    IO.println (if i.options.pretty then j.layout 0 else j.render)
    return 0
  | .error e => do
    IO.eprintln e.message
    return 1

end DocQuery

def main (arguments : List String) : IO UInt32 := do
  match DocQuery.Invocation.ofArguments? arguments with
  | none => do
    IO.eprintln DocQuery.Invocation.usage
    return 2
  | some i =>
    try DocQuery.execute i
    catch e => do
      IO.eprintln s!"IO error: {e}"
      return 1
