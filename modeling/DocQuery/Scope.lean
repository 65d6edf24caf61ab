import DocQuery.Plan.Operation
import DocQuery.Window

/-!
# Scopes

A scope is a value together with where it came from: the scope it was reached from (`^` goes there),
the source it was read from, and the path that leads to it from the source's document. The path lets
a join find the same position in the other documents of the source. It does so only while the value
was read and not made: a scope whose value was computed says so, and so does everything reached from
it.
-/

set_option autoImplicit false

namespace DocQuery

/-- A step of the way from a document to a value. -/
inductive ScopeStep where
  | attr (name : String)
  | subscript (window : Subscript)
deriving DecidableEq

structure Scope where
  value : Value
  parent : Option Scope
  path : List ScopeStep
  source : Option SourceId
  /-- The logical position of the value's first item, for a collection that is cut already. -/
  start : Nat
  /-- Whether the value was made rather than found at `path` in a document of the source. -/
  computed : Bool

namespace Scope

/-- A scope that came from nowhere. -/
def detached (value : Value) : Scope := ⟨value, none, [], none, 0, false⟩

/-- Where every query starts: an empty object with nothing around it. -/
def root : Scope := detached (.object [])

instance : Inhabited Scope := ⟨root⟩

/-- The same place with a computed value. -/
def withValue (s : Scope) (value : Value) : Scope := { s with value := value, computed := true }

/-- An element of the scope's collection. It keeps the collection's path. -/
def element (s : Scope) (value : Value) : Scope := { s with value := value, start := 0 }

/-- The result of an operator on values of this scope. It has no place of its own. -/
def derived (s : Scope) (value : Value) : Scope := ⟨value, s.parent, [], none, 0, false⟩

/-- A value inside this scope. -/
def child (s : Scope) (value : Value) : Scope := ⟨value, some s, [], s.source, 0, s.computed⟩

/-- The documents of a source, inside the scope that asks for them. -/
def ofSource (s : Scope) (id : SourceId) (documents : Value) (start : Nat) : Scope :=
  ⟨documents, some s, [], some id, start, false⟩

/-- An attribute of the scope's value, null when it has none. -/
def attr (s : Scope) (name : String) : Scope :=
  ⟨s.value.getD name, some s, s.path ++ [.attr name], s.source, 0, s.computed⟩

/-- A part of the scope's collection. -/
def narrowed (s : Scope) (value : Value) (window : Subscript) (start : Nat) : Scope :=
  { s with value := value, path := s.path ++ [.subscript window], start := start }

/-- The element at a position; null where there is none, and for what is no array. -/
def first (s : Scope) (index : Int) : Scope :=
  match s.value with
  | .array items =>
    let found := (Window.index? items.length s.start index).bind (items[·]?)
    s.narrowed (found.getD .null) ⟨index, min (index + 1) maxInt64, true⟩ 0
  | _ => s.withValue .null

/-- The elements of a window; null for what is no array. -/
def slice (s : Scope) (start stop : Int) : Scope :=
  match s.value with
  | .array items =>
    let (low, high, remaining) := Window.bounds items.length s.start start stop
    s.narrowed (.array (Window.cut items low high)) ⟨start, stop, false⟩ remaining
  | _ => s.withValue .null

/-- Walk an accessor. A null on the way ends the walk there, and so does a missing parent. -/
def resolve (s : Scope) : List PathStep → Scope
  | [] => s
  | .parent :: steps =>
    match s.parent with
    | none => detached .null
    | some p => if p.value.isNull then p else p.resolve steps
  | .attr name :: steps =>
    let a := s.attr name
    if a.value.isNull then a else a.resolve steps

end Scope

/-- Follow a scope's path from a document. A subscript of what is no array is skipped. -/
def followPath (value : Value) : List ScopeStep → Value
  | [] => value
  | step :: steps =>
    let next := match step, value with
      | .attr name, v => v.getD name
      | .subscript w, .array items =>
        if w.first then ((Window.element? items.length w.start).bind (items[·]?)).getD .null
        else
          let (low, high) := Window.slice items.length w.start w.stop
          .array (Window.cut items low high)
      | .subscript _, v => v
    if next.isNull then next else followPath next steps

/-! ## Results -/

/-- The result of an operation: one scope, or the scopes that a filter, a sort or a join gives, with
the logical position of the first of them. -/
inductive Scoped where
  | one (scope : Scope)
  | many (items : List Scope) (start : Nat)

namespace Scoped

/-- The plain value: that of the scope, or the array of the items' values. -/
def value : Scoped → Value
  | one s => s.value
  | many items _ => .array (items.map (·.value))

/-- A single scope; a collection takes the place of `owner`. -/
def collapse (r : Scoped) (owner : Scope) : Scope :=
  match r with
  | one s => s
  | many _ _ => owner.withValue r.value

/-- The scopes of the elements of a scope whose value is an array. -/
def elementsOf (s : Scope) (items : List Value) : List Scope := items.map s.element

/-- The scopes a sort works on: the items, or the elements of a single array. -/
def sortItems : Scoped → List Scope × Nat
  | many items start => (items, start)
  | one s =>
    match s.value with
    | .array items => (elementsOf s items, s.start)
    | _ => ([s], 0)

/-- An item, or its elements when it is an array. -/
def explode (s : Scope) : List Scope :=
  match s.value with
  | .array items => elementsOf s items
  | _ => [s]

/-- The scopes a filter works on: arrays give their elements, also as items of a collection. -/
def candidates : Scoped → List Scope × Nat
  | many items start => (items.flatMap explode, start)
  | one s =>
    match s.value with
    | .array items => (elementsOf s items, s.start)
    | _ => ([s], 0)

/-- Apply a subscript. -/
def subscript (r : Scoped) (w : Subscript) : Scoped :=
  match r with
  | one s => one (if w.first then s.first w.start else s.slice w.start w.stop)
  | many items start =>
    if w.first then
      one (((Window.index? items.length start w.start).bind (items[·]?)).getD
        (Scope.detached .null))
    else
      let (low, high, remaining) := Window.bounds items.length start w.start w.stop
      many (Window.cut items low high) remaining

/-- The scope whose documents a map join looks in. -/
def joinOwner (r : Scoped) (base : Scope) : Scope :=
  match r with
  | one s => s
  | many items _ =>
    let values := Value.array (items.map (·.value))
    match (items.head?).bind (·.source) with
    | some id => base.ofSource id values 0
    | none => base.child values

end Scoped

namespace Scope

/-- The first document of this scope with the given id, null when there is none. -/
def lookup (s : Scope) (id : Value) : Scope :=
  let documents := (s.value.asArray?).getD []
  let found := documents.find? fun d => match d.get? "_id" with
    | some other => other.looseEq id
    | none => false
  s.child (found.getD .null)

/-- The documents with the given ids, in the order of the ids. -/
def lookupAll (s : Scope) : Value → Scoped
  | .array ids => .many (ids.map s.lookup) 0
  | id => .one (s.lookup id)

end Scope
end DocQuery
