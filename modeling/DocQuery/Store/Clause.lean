import DocQuery.Json.Basic

/-!
# Clauses

What a store can make of a filter: the answer without looking at any document, a selector, or
nothing. An exact selector accepts the documents the filter keeps; any other accepts at least those.
A filter that nothing is known about leaves every document to be considered.
-/

set_option autoImplicit false

namespace DocQuery

inductive Clause where
  /-- Decided without looking at any document. -/
  | const (holds : Bool)
  | select (selector : Json) (exact : Bool)
  /-- Not expressible. -/
  | unknown

namespace Clause

/-- A selector for the documents that a filter keeps. -/
def exactly (selector : Json) : Clause := select selector true

/-- A selector for those documents and maybe others. -/
def atLeast (selector : Json) : Clause := select selector false

def isExact : Clause → Bool
  | const _ => true
  | select _ exact => exact
  | unknown => false

/-- The selector to run; none when no document can be kept. -/
def selector? : Clause → Option Json
  | const false => none
  | const true | unknown => some (.obj [])
  | select selector _ => some selector

/-- A selector made of others under one name. -/
def combined (name : String) (selectors : List Json) : Json := .obj [(name, .arr selectors)]

/-- Both filters. Where one of them is unknown the other one still narrows. -/
def and : Clause → Clause → Clause
  | const false, _ | _, const false => const false
  | const true, other | other, const true => other
  | unknown, unknown => unknown
  | unknown, select s _ | select s _, unknown => atLeast s
  | select s exactS, select t exactT => select (combined "$and" [s, t]) (exactS && exactT)

/-- One of two filters. -/
def or : Clause → Clause → Clause
  | const true, _ | _, const true => const true
  | const false, other | other, const false => other
  | unknown, _ | _, unknown => unknown
  | select s exactS, select t exactT => select (combined "$or" [s, t]) (exactS && exactT)

/-- The negation of a filter. It is never exact: the negation of what is unknown to the engine is
unknown, but `$nor` accepts it. A selector that may accept too much cannot be negated at all. -/
def not : Clause → Clause
  | const b => const !b
  | select s true => atLeast (combined "$nor" [s])
  | select _ false | unknown => unknown

end Clause
end DocQuery
