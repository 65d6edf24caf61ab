import DocQuery.Json.Printer

/-!
# JSON text over several lines

Every item and field on a line of its own, indented by two blanks for each level. Empty arrays and
objects stay on their line.
-/

set_option autoImplicit false

namespace DocQuery
namespace Json

/-- The start of a line at a level. -/
def newline (level : Nat) : String := "\n" ++ String.ofList (List.replicate (2 * level) ' ')

/-- Texts between an opening and a closing mark, each on a line at a level. -/
def encloseLines (level : Nat) (opening closing : String) (texts : List String) : String :=
  if texts.isEmpty then opening ++ closing
  else
    opening ++ newline (level + 1) ++ String.intercalate ("," ++ newline (level + 1)) texts
      ++ newline level ++ closing

mutual

/-- The text of a JSON value whose first line starts at a level. -/
def layout (level : Nat) : Json → String
  | arr items => encloseLines level "[" "]" (layoutItems (level + 1) items)
  | obj fields => encloseLines level "\x7b" "\x7d" (layoutFields (level + 1) fields)
  | j => j.render

def layoutItems (level : Nat) : List Json → List String
  | [] => []
  | j :: js => layout level j :: layoutItems level js

def layoutFields (level : Nat) : List (String × Json) → List String
  | [] => []
  | (name, j) :: fs => (quote name ++ ": " ++ layout level j) :: layoutFields level fs

end

end Json
end DocQuery
