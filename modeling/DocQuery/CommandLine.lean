/-!
# The command line

`run` gives the result of a query, `explain` its plan and root fetch. Queries, filters and documents
are read from files.
-/

set_option autoImplicit false

namespace DocQuery

inductive Subcommand where
  | run
  | explain
deriving DecidableEq

/-- The options of a subcommand. -/
structure Options where
  query : Option String
  documents : Option String
  globalFilter : Option String
  /-- The parameters as given, in order. -/
  params : List String
  pushdown : Bool
  pretty : Bool

/-- What a command line asks for. -/
structure Invocation where
  subcommand : Subcommand
  /-- The file with the query. -/
  query : String
  options : Options

namespace Invocation

def usage : String :=
  "Usage: docquery <run|explain> --query <FILE> [--documents <FILE>] [--global-filter <FILE>]\n" ++
  "         [--param <NAME=JSON>]... [--no-pushdown] [--pretty]"

/-- Take in the options of a command line, one after the other. -/
def takeOptions (options : Options) : List String → Option Options
  | [] => some options
  | "--no-pushdown" :: rest => takeOptions { options with pushdown := false } rest
  | "--pretty" :: rest | "-p" :: rest => takeOptions { options with pretty := true } rest
  | "--query" :: file :: rest | "-q" :: file :: rest =>
    takeOptions { options with query := some file } rest
  | "--documents" :: file :: rest | "-d" :: file :: rest =>
    takeOptions { options with documents := some file } rest
  | "--global-filter" :: file :: rest =>
    takeOptions { options with globalFilter := some file } rest
  | "--param" :: param :: rest =>
    takeOptions { options with params := options.params ++ [param] } rest
  | _ => none

/-- Read a command line; none if it makes no sense. -/
def ofArguments? (arguments : List String) : Option Invocation := do
  let (subcommand, rest) ← match arguments with
    | "run" :: rest => some (Subcommand.run, rest)
    | "explain" :: rest => some (Subcommand.explain, rest)
    | _ => none
  let options ← takeOptions ⟨none, none, none, [], true, false⟩ rest
  return ⟨subcommand, ← options.query, options⟩

end Invocation
end DocQuery
