import DocQuery.Value.Json
import DocQuery.Value.Order

/-!
# Operations

A planned query is a tree of operations. A pipeline is a list of stages: the first gives a value,
each later one is applied to the result of the one before. Every `source` in a plan has an id of its
own, and what was fetched for it is kept under that id.
-/

set_option autoImplicit false

namespace DocQuery

/-- The number of a source within its plan. -/
abbrev SourceId := Nat

inductive BinaryOp where
  | and
  | or
  | eq
  | neq
  | lt
  | lte
  | gt
  | gte
  | member
  | textMatch
deriving DecidableEq, Inhabited

namespace BinaryOp

def name : BinaryOp → String
  | and => "and"
  | or => "or"
  | eq => "eq"
  | neq => "neq"
  | lt => "lt"
  | lte => "lte"
  | gt => "gt"
  | gte => "gte"
  | member => "in"
  | textMatch => "match"

/-- The comparison that says the same with its operands exchanged. -/
def flipped : BinaryOp → BinaryOp
  | lt => gt
  | lte => gte
  | gt => lt
  | gte => lte
  | op => op

end BinaryOp

/-- A step of an accessor: to the enclosing value, or to an attribute. -/
inductive PathStep where
  | parent
  | attr (name : String)
deriving DecidableEq, Inhabited

/-- A window `[start, stop)` of a collection, or with `first` the one element at `start`. Bounds
below zero count from the end. -/
structure Subscript where
  start : Int
  stop : Int
  first : Bool
deriving DecidableEq, Inhabited

/-- The functions a query can call. -/
inductive Function where
  | path
  | joinPaths
  | coalesce
  | count
  | length
  | defined
  | references
deriving DecidableEq, Inhabited

namespace Function

def name : Function → String
  | path => "path"
  | joinPaths => "joinPaths"
  | coalesce => "coalesce"
  | count => "count"
  | length => "length"
  | defined => "defined"
  | references => "references"

def all : List Function := [path, joinPaths, coalesce, count, length, defined, references]

def ofName? (s : String) : Option Function := all.find? (·.name == s)

end Function

mutual

inductive Operation where
  | source (id : SourceId)
  | filter (condition : Operation)
  | binary (op : BinaryOp) (lhs rhs : Operation)
  | not (operand : Operation)
  | accessor (path : List PathStep)
  | literal (value : Value)
  | object (members : List Member)
  | array (elements : List Operation)
  /-- A named member on its way into an object. -/
  | assignment (name : String) (value : Operation)
  | splat
  | subscript (window : Subscript)
  | range (start stop : Operation) (inclusive : Bool)
  | ordering (terms : List SortTerm)
  /-- A sort key on its way into an ordering. -/
  | sortDirection (term : SortTerm)
  | call (function : Function) (arguments : List Operation)
  /-- A pipeline, and the attribute name it stands for as a member of an object. -/
  | pipe (stages : List Operation) (name : Option String)
  /-- Look documents up by the ids that an inner pipeline gives. -/
  | mapJoin (stages : List Operation)

/-- A member of an object expression. -/
inductive Member where
  | assignment (name : String) (value : Operation)
  /-- All fields of the current value. -/
  | splat

/-- A sort key and its direction. -/
inductive SortTerm where
  | mk (expression : Operation) (direction : Direction)

end

instance : Inhabited Operation := ⟨.splat⟩

namespace SortTerm

def expression : SortTerm → Operation
  | mk e _ => e

def direction : SortTerm → Direction
  | mk _ d => d

end SortTerm

namespace Operation

/-- The name of an operation, as trees and messages give it. -/
def kind : Operation → String
  | source _ => "source"
  | filter _ => "filter"
  | binary op _ _ => op.name
  | not _ => "not"
  | accessor _ => "accessor"
  | literal _ => "literal"
  | object _ => "object"
  | array _ => "array"
  | assignment _ _ => "assignment"
  | splat => "splat"
  | subscript _ => "subscript"
  | range _ _ _ => "range"
  | ordering _ => "ordering"
  | sortDirection _ => "sortDirection"
  | call _ _ => "functionCall"
  | pipe _ _ => "pipe"
  | mapJoin _ => "mapJoin"

/-- The accessor of one attribute. -/
def attr (name : String) : Operation := accessor [.attr name]

/-- Whether this is an accessor that starts at the enclosing value. -/
def isParentAccessor : Operation → Bool
  | accessor (.parent :: _) => true
  | _ => false

/-- The source that a pipeline with these stages reads from. -/
def sourceOf? : List Operation → Option SourceId
  | source id :: _ => some id
  | _ => none

/-! ## Equality

Trees of one shape; literals by `Value.same`. -/

mutual

def same : Operation → Operation → Bool
  | source a, source b => a == b
  | filter a, filter b => same a b
  | binary o a b, binary p c d => o == p && same a c && same b d
  | not a, not b => same a b
  | accessor a, accessor b => a == b
  | literal a, literal b => a.same b
  | object a, object b => sameMembers a b
  | array a, array b => sameAll a b
  | assignment n a, assignment m b => n == m && same a b
  | splat, splat => true
  | subscript a, subscript b => a == b
  | range a b i, range c d j => same a c && same b d && i == j
  | ordering a, ordering b => sameTerms a b
  | sortDirection (.mk a d), sortDirection (.mk b e) => same a b && d == e
  | call f a, call g b => f == g && sameAll a b
  | pipe a n, pipe b m => sameAll a b && n == m
  | mapJoin a, mapJoin b => sameAll a b
  | _, _ => false
termination_by structural o => o

def sameAll : List Operation → List Operation → Bool
  | [], [] => true
  | a :: as, b :: bs => same a b && sameAll as bs
  | _, _ => false
termination_by structural o => o

def sameMembers : List Member → List Member → Bool
  | [], [] => true
  | .assignment n a :: as, .assignment m b :: bs => n == m && same a b && sameMembers as bs
  | .splat :: as, .splat :: bs => sameMembers as bs
  | _, _ => false
termination_by structural o => o

def sameTerms : List SortTerm → List SortTerm → Bool
  | [], [] => true
  | .mk a d :: as, .mk b e :: bs => same a b && d == e && sameTerms as bs
  | _, _ => false
termination_by structural o => o

end

end Operation
end DocQuery
