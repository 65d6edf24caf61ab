import DocQuery.Session

/-!
# Functions

The values of function calls on evaluated arguments. All but `references()` depend on their
arguments alone; `references()` asks about the value of the scope it is called in and goes by what
the session remembers of that document.
-/

set_option autoImplicit false

namespace DocQuery
namespace Builtin

/-- A path, or the path that a string spells. -/
def toPath? : Value → Option Path
  | .string s => some (Path.parse s)
  | .path p => some p
  | _ => none

def path (v : Value) : Value :=
  match toPath? v with
  | some p => .path p
  | none => .null

def joinPaths (a b : Value) : Value :=
  match toPath? a, toPath? b with
  | some p, some q => .path (p.concat q)
  | _, _ => .null

/-- The first value that is not null. -/
def coalesce (values : List Value) : Value := (values.find? (!·.isNull)).getD .null

/-- The number of elements; anything but an array counts as one, null as none. -/
def count : Value → Value
  | .array items => .int items.length
  | .null => .int 0
  | _ => .int 1

/-- The number of elements, characters or fields; null has no length, and other values have one. -/
def length : Value → Value
  | .null => .null
  | .array items => .int items.length
  | .string s => .int s.length
  | .object fields => .int fields.length
  | _ => .int 1

/-- Whether there is something: not null, and no empty array or object. -/
def defined : Value → Bool
  | .null => false
  | .array items => !items.isEmpty
  | .object fields => !fields.isEmpty
  | _ => true

/-- The ids among the arguments of `references()`: arrays stand for their elements. -/
def referenceIds (values : List Value) : List Value :=
  values.flatMap fun
    | .array items => items
    | v => [v]

/-- A function of its arguments alone; `references()` is not one. A missing argument is null. -/
def pure? (function : Function) (values : List Value) : Option Value :=
  let argument := fun i => values.getD i .null
  match function with
  | .path => some (path (argument 0))
  | .joinPaths => some (joinPaths (argument 0) (argument 1))
  | .coalesce => some (coalesce values)
  | .count => some (count (argument 0))
  | .length => some (length (argument 0))
  | .defined => some (.bool (defined (argument 0)))
  | .references => none

/-- The value of a call in the scope of `subject`. -/
def call (function : Function) (subject : Value) (values : List Value) : Run Value :=
  match pure? function values with
  | some v => pure v
  | none => do
    return .bool (← Run.modifyContext fun c => c.refersTo subject (referenceIds values))

end Builtin
end DocQuery
