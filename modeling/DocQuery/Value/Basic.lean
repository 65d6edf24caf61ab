import DocQuery.Json.Basic
import DocQuery.Path

/-!
# Values

What flows through a query: JSON, with integers and doubles kept apart, and paths, which only the
functions `path()` and `joinPaths()` make. An object's fields are in order (`Fields`).
-/

set_option autoImplicit false

namespace DocQuery

inductive Value where
  | null
  | bool (b : Bool)
  | float (d : Double)
  | int (n : Int)
  | string (s : String)
  | array (items : List Value)
  | object (fields : List (String × Value))
  | path (p : Path)
deriving Inhabited

namespace Value

def isNull : Value → Bool
  | null => true
  | _ => false

/-- Null, arrays, objects and paths, which take no part in scalar comparison. -/
def isStructured : Value → Bool
  | null | array _ | object _ | path _ => true
  | _ => false

/-- Falsy are null, `false`, the zeros, NaN and the empty string. -/
def isTruthy : Value → Bool
  | null => false
  | bool b => b
  | float d => !d.isZero && !d.isNaN
  | int n => n != 0
  | string s => !s.isEmpty
  | array _ | object _ | path _ => true

def asBool? : Value → Option Bool
  | bool b => some b
  | _ => none

def asString? : Value → Option String
  | string s => some s
  | _ => none

def asArray? : Value → Option (List Value)
  | array items => some items
  | _ => none

def asObject? : Value → Option (Fields Value)
  | object fields => some fields
  | _ => none

/-- The field of an object; anything else has none. -/
def get? (v : Value) (name : String) : Option Value :=
  match v with
  | object fields => Fields.get? fields name
  | _ => none

/-- The field of an object, null when there is none. -/
def getD (v : Value) (name : String) : Value := (v.get? name).getD null

/-- The name of a value's type, as error messages give it. -/
def typeName : Value → String
  | null => "null"
  | bool _ => "boolean"
  | float _ | int _ => "number"
  | string _ => "string"
  | array _ => "array"
  | object _ => "object"
  | path _ => "path"

/-! ## Strict equality

Values of one type with equal contents. An integer never equals a double; doubles are equal as
numbers. -/

mutual

def same : Value → Value → Bool
  | null, null => true
  | bool a, bool b => a == b
  | float a, float b => a.equal b
  | int a, int b => a == b
  | string a, string b => a == b
  | array a, array b => sameItems a b
  | object a, object b => sameFields a b
  | path a, path b => a == b
  | _, _ => false

def sameItems : List Value → List Value → Bool
  | [], [] => true
  | a :: as, b :: bs => same a b && sameItems as bs
  | _, _ => false

def sameFields : List (String × Value) → List (String × Value) → Bool
  | [], [] => true
  | (k, a) :: as, (l, b) :: bs => k == l && same a b && sameFields as bs
  | _, _ => false

end

end Value
end DocQuery
