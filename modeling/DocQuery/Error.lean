import DocQuery.Plan.Operation

/-!
# Errors

One type of causes for each part of the engine, with the wording of each cause in `message`. A
larger part's errors wrap those of the parts it uses; some add words in front. Where there is no
error, every step has a value (`exists_of_bind_eq_ok`).
-/

set_option autoImplicit false

namespace DocQuery

/-- Why a syntax tree has no plan. -/
inductive PlanError where
  /-- A bound that is no integer literal, by the kind of what it is. -/
  | invalidSubscript (kind : String)
  /-- A bound with no integer after it. -/
  | subscriptOutOfRange (bound : Int)
  | invalidAssignmentKey
  | unknownFunction (name : String)
  /-- A call with the wrong number of arguments. -/
  | arity (function : Function) (got : Nat)
  | unknownParameter (name : String)
  /-- A member of an object that needs a name and has none, by its kind. -/
  | unnamedMember (kind : String)
deriving DecidableEq

/-- How many arguments a function takes, in words. -/
def Function.arityText : Function → String
  | path | count | length | defined => "1"
  | joinPaths => "2"
  | references => "at least 1"
  | coalesce => "any number of"

def PlanError.message : PlanError → String
  | invalidSubscript kind => "subscript bounds must be integer literals, got " ++ kind
  | subscriptOutOfRange bound => "subscript bound " ++ toString bound ++ " is out of range"
  | invalidAssignmentKey => "invalid object attribute assignment, use string literals as keys"
  | unknownFunction name => "unknown function " ++ name ++ "()"
  | arity function got =>
    function.name ++ "() takes " ++ function.arityText ++ " argument(s), got " ++ toString got
  | unknownParameter name => "parameter $" ++ name ++ " is not defined"
  | unnamedMember kind => "cannot derive an attribute name for " ++ kind ++ " in object expression"

/-- Why a regular expression cannot be searched for. -/
inductive PatternError where
  /-- A text that is no regular expression. What is wrong with it is not told apart: a store's own
  expressions can all be read. -/
  | malformed
  /-- An expression whose automata take more bytes than there may be. -/
  | tooLarge (limit : Nat)
deriving DecidableEq

def PatternError.message : PatternError → String
  | malformed => "regex parse error"
  | tooLarge limit => "Compiled regex exceeds size limit of " ++ toString limit ++ " bytes."

/-- Why the store refuses a filter, a selector or a document. -/
inductive StoreError where
  /-- An operation that no selector stands for, by its kind. -/
  | unsupported (kind : String)
  | invalidSelector (reason : String)
  | invalidDocument (reason : String)
  | pattern (error : PatternError)
deriving DecidableEq

def StoreError.message : StoreError → String
  | unsupported kind => "no selector translation for operation " ++ kind
  | invalidSelector reason => "invalid selector: " ++ reason
  | invalidDocument reason => "invalid document: " ++ reason
  | pattern error => error.message

/-- Why a fetch failed. -/
inductive FetchError where
  | message (text : String)
  | store (error : StoreError)
  /-- An error of whatever the fetcher reads from. -/
  | source (text : String)
deriving DecidableEq

def FetchError.text : FetchError → String
  | message text => "fetch failed: " ++ text
  | store error => error.message
  | source text => "fetch failed: " ++ text

/-- Why a plan cannot be run. -/
inductive ExecError where
  /-- An operation where it has no value, by its kind. -/
  | invalidOperation (kind : String)
  /-- A membership in something that has no members, by its type. -/
  | inOperand (type : String)
  /-- A value that cannot lie in a path pattern, by its type. -/
  | pathCandidate (type : String)
  | unknownSource (id : SourceId)
  | joinOnBothSides
  | notASource
  /-- A stage that a fetch has no part for, by its kind. -/
  | uncompilableStage (kind : String)
  | fetch (error : FetchError)
deriving DecidableEq

def ExecError.message : ExecError → String
  | invalidOperation kind => "operation " ++ kind ++ " cannot be evaluated in this position"
  | inOperand type => "in-operator does not apply to right-hand side of type " ++ type
  | pathCandidate type => "path containment is only valid for a string or path, got " ++ type
  | unknownSource id => "source #" ++ toString id ++ " was consumed before it was fetched"
  | joinOnBothSides => "in a join, only one side of a comparison may reference the parent"
  | notASource => "pipelines that do not start with a source cannot be fetched"
  | uncompilableStage kind => "pipeline stage " ++ kind ++ " cannot be compiled into a fetch"
  | fetch error => error.text

/-- Why a query has no result. -/
inductive QueryError where
  | plan (error : PlanError)
  | exec (error : ExecError)
deriving DecidableEq

def QueryError.message : QueryError → String
  | plan error => "plan error: " ++ error.message
  | exec error => "execution error: " ++ error.message

/-- Why a command has no output. -/
inductive CommandError where
  /-- A text that is no JSON, or JSON that is not what was asked for. -/
  | json
  | query (error : QueryError)
  | documents (error : StoreError)
  /-- A parameter that is not of the form `name=value`. -/
  | param (text : String)
  | noDocuments
deriving DecidableEq

def CommandError.message : CommandError → String
  | json => "Invalid JSON"
  | query error => "Query failed: " ++ error.message
  | documents error => "Invalid documents: " ++ error.message
  | param text => "Invalid parameter '" ++ text ++ "', expected name=<json>"
  | noDocuments => "No documents provided. Use --documents or pipe a JSON array to stdin."

/-! ## Success -/

/-- What comes to a value has come to one in its first step. -/
theorem exists_of_bind_eq_ok {ε α β : Type} {x : Except ε α} {f : α → Except ε β} {b : β}
    (h : x >>= f = .ok b) : ∃ a, x = .ok a ∧ f a = .ok b := by
  cases x with
  | error e => cases h
  | ok a => exact ⟨a, rfl, h⟩

end DocQuery
