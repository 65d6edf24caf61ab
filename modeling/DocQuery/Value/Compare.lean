import DocQuery.Decimal
import DocQuery.Text.Numeral
import DocQuery.Value.Basic

/-!
# Loose comparison

The comparisons of queries. Numbers compare across integers and doubles; a string or a boolean
compared with a number, or with each other, is read as a number first. Null, arrays and objects are
equal to nothing and ordered with nothing; paths compare with paths, by their texts.

`equals` adds that a comparison with null has no answer. The sort order (`compareForSort`) is
another one: it never reads a string as a number.
-/

set_option autoImplicit false

namespace DocQuery

/-- The order of strings, by code point. -/
def compareStrings (a b : String) : Ordering :=
  if a < b then .lt else if a = b then .eq else .gt

namespace Value

/-! ## Numbers -/

/-- An integer and a double compare as decimals, or as doubles where there is no decimal. -/
def compareMixed (n : Int) (d : Double) : Option Ordering :=
  match Decimal.ofDouble? d with
  | some decimal => some ((Decimal.ofInt n).cmp decimal)
  | none => (Double.ofInt n).compare? d

/-- The order of two numbers; anything else has none. -/
def compareNumbers : Value → Value → Option Ordering
  | int a, int b => some (compare a b)
  | float a, float b => a.compare? b
  | int a, float b => compareMixed a b
  | float a, int b => (compareMixed b a).map Ordering.swap
  | _, _ => none

/-- The number a string is read as. -/
def numberOfString? (s : String) : Option Value :=
  let cs := Text.trim s.toList
  if cs.isEmpty then some (int 0)
  else if !cs.all Text.inNumeral then none
  else match Text.readInt? cs with
    | some n => some (int n)
    | none => (Text.readDouble? cs).map float

/-- The number a scalar is read as. -/
def asNumber? : Value → Option Value
  | int n => some (int n)
  | float d => some (float d)
  | bool b => some (int (if b then 1 else 0))
  | string s => numberOfString? s
  | _ => none

def compareCoerced (a b : Value) : Option Ordering := do
  compareNumbers (← a.asNumber?) (← b.asNumber?)

/-! ## Equality and order -/

def looseEq (a b : Value) : Bool :=
  if a.isStructured || b.isStructured then
    match a, b with
    | path p, path q => p.text == q.text
    | _, _ => false
  else
    match a, b with
    | string s, string t => s == t
    | bool x, bool y => x == y
    | _, _ => compareCoerced a b == some .eq

/-- Equality with no answer where a side is null. -/
def equals (a b : Value) : Option Bool :=
  if a.isNull || b.isNull then none else some (a.looseEq b)

/-- The loose order, with no answer where the two are not comparable. -/
def looseCompare (a b : Value) : Option Ordering :=
  if a.isStructured || b.isStructured then
    match a, b with
    | path p, path q => some (compareStrings p.text q.text)
    | _, _ => none
  else
    match a, b with
    | string s, string t => some (compareStrings s t)
    | _, _ => compareCoerced a b

end Value
end DocQuery
