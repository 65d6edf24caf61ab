import DocQuery.Json.Printer
import DocQuery.Text.Numeral
import DocQuery.Value.Basic

/-!
# Values and JSON

A JSON integer beyond 64 signed bits becomes the nearest double. Back to JSON, a path becomes its
dotted text and a double that is no number becomes null. `render` writes a value's text directly;
it is the text of the value's JSON.
-/

set_option autoImplicit false

namespace DocQuery
namespace Value

mutual

def ofJson : Json → Value
  | .null => null
  | .bool b => bool b
  | .int n => if fitsInt64 n then int n else float (Double.ofInt n)
  | .float d => float d
  | .str s => string s
  | .arr items => array (ofItems items)
  | .obj fields => object (ofFields fields)

def ofItems : List Json → List Value
  | [] => []
  | j :: js => ofJson j :: ofItems js

def ofFields : List (String × Json) → List (String × Value)
  | [] => []
  | (name, j) :: fs => (name, ofJson j) :: ofFields fs

end

/-- A field that may be missing; a missing one is null. -/
def ofJson? (j : Option Json) : Value := (j.map ofJson).getD null

mutual

def toJson : Value → Json
  | null => .null
  | bool b => .bool b
  | float d => if d.isFinite then .float d else .null
  | int n => .int n
  | string s => .str s
  | array items => .arr (toItems items)
  | object fields => .obj (toFields fields)
  | path p => .str p.text

def toItems : List Value → List Json
  | [] => []
  | v :: vs => toJson v :: toItems vs

def toFields : List (String × Value) → List (String × Json)
  | [] => []
  | (name, v) :: fs => (name, toJson v) :: toFields fs

end

mutual

/-- The text of a value. -/
def render : Value → String
  | null => "null"
  | bool b => if b then "true" else "false"
  | float d => Json.doubleText d
  | int n => toString n
  | string s => Json.quote s
  | array items => Json.arrayText (renderItems items)
  | object fields => Json.objectText (renderFields fields)
  | path p => Json.quote p.text

def renderItems : List Value → List String
  | [] => []
  | v :: vs => render v :: renderItems vs

def renderFields : List (String × Value) → List (String × String)
  | [] => []
  | (name, v) :: fs => (name, render v) :: renderFields fs

end

end Value
end DocQuery
