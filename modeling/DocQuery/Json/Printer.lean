import DocQuery.Json.Basic

/-!
# JSON text

Compact text: no blanks, and in strings nothing is escaped but the quote, the backslash and the
control characters below U+0020, five of them by a letter. A double that is no number has no text of
its own and is written `null`.
-/

set_option autoImplicit false

namespace DocQuery
namespace Json

def hexDigit (n : Nat) : Char := (Nat.toDigits 16 n).headD '0'

/-- A character inside a quoted string. -/
def escapeChar (c : Char) : List Char :=
  if c = '"' then ['\\', '"']
  else if c = '\\' then ['\\', '\\']
  else if 0x20 ≤ c.toNat then [c]
  else if c = '\n' then ['\\', 'n']
  else if c = '\r' then ['\\', 'r']
  else if c = '\t' then ['\\', 't']
  else if c.toNat = 8 then ['\\', 'b']
  else if c.toNat = 12 then ['\\', 'f']
  else ['\\', 'u', '0', '0', hexDigit (c.toNat / 16), hexDigit (c.toNat % 16)]

/-- A string in quotes. -/
def quote (s : String) : String :=
  String.ofList ('"' :: s.toList.flatMap escapeChar ++ ['"'])

/-- A double as JSON text. -/
def doubleText (d : Double) : String := if d.isFinite then d.text else "null"

/-- The texts between an opening and a closing mark, commas between them. -/
def enclose (opening closing : String) (texts : List String) : String :=
  opening ++ String.intercalate "," texts ++ closing

def arrayText (items : List String) : String := enclose "[" "]" items

def objectText (fields : List (String × String)) : String :=
  enclose "\x7b" "\x7d" (fields.map fun (name, text) => quote name ++ ":" ++ text)

mutual

/-- The compact text of a JSON value. -/
def render : Json → String
  | null => "null"
  | bool b => if b then "true" else "false"
  | int n => toString n
  | float d => doubleText d
  | str s => quote s
  | arr items => arrayText (renderItems items)
  | obj fields => objectText (renderFields fields)

def renderItems : List Json → List String
  | [] => []
  | j :: js => render j :: renderItems js

def renderFields : List (String × Json) → List (String × String)
  | [] => []
  | (name, j) :: fs => (name, render j) :: renderFields fs

end

end Json
end DocQuery
