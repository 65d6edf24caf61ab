import DocQuery.Double.Shortest
import DocQuery.Fields

/-!
# JSON values

A number is an integer or a double, and the two never equal each other here: `1` and `1.0` are
different documents. Integers go from `-2 ^ 63` to `2 ^ 64 - 1`; every other number is a double.

The reader keeps an object's fields as they were written, repeated names included, because a syntax
tree that repeats a field is refused. `normalize` gives every object its fields in order, the last
of a repeated name, and everything after reading works with normalized values.
-/

set_option autoImplicit false

namespace DocQuery

inductive Json where
  | null
  | bool (b : Bool)
  | int (n : Int)
  | float (d : Double)
  | str (s : String)
  | arr (items : List Json)
  | obj (fields : List (String × Json))
deriving Inhabited

namespace Json

/-! ## Views -/

def isNull : Json → Bool
  | null => true
  | _ => false

def asBool? : Json → Option Bool
  | bool b => some b
  | _ => none

def asString? : Json → Option String
  | str s => some s
  | _ => none

def asArray? : Json → Option (List Json)
  | arr items => some items
  | _ => none

def asObject? : Json → Option (Fields Json)
  | obj fields => some fields
  | _ => none

/-- An integer that is not negative. -/
def asNat? : Json → Option Nat
  | int n => if 0 ≤ n then some n.toNat else none
  | _ => none

/-- The field of an object; anything else has none. -/
def get? (j : Json) (name : String) : Option Json :=
  match j with
  | obj fields => Fields.get? fields name
  | _ => none

/-! ## Equality

Doubles are equal as numbers, so the two zeros are; an integer and a double never are. -/

mutual

def same : Json → Json → Bool
  | null, null => true
  | bool a, bool b => a == b
  | int a, int b => a == b
  | float a, float b => a.equal b
  | str a, str b => a == b
  | arr a, arr b => sameItems a b
  | obj a, obj b => sameFields a b
  | _, _ => false

def sameItems : List Json → List Json → Bool
  | [], [] => true
  | a :: as, b :: bs => same a b && sameItems as bs
  | _, _ => false

def sameFields : List (String × Json) → List (String × Json) → Bool
  | [], [] => true
  | (k, a) :: as, (l, b) :: bs => k == l && same a b && sameFields as bs
  | _, _ => false

end

/-! ## Normal form -/

mutual

/-- Every object with its fields in order and no name twice. -/
def normalize : Json → Json
  | arr items => arr (normalizeItems items)
  | obj fields => obj (Fields.ofList (normalizeFields fields))
  | j => j

def normalizeItems : List Json → List Json
  | [] => []
  | j :: js => normalize j :: normalizeItems js

def normalizeFields : List (String × Json) → List (String × Json)
  | [] => []
  | (name, j) :: fs => (name, normalize j) :: normalizeFields fs

end

end Json
end DocQuery
