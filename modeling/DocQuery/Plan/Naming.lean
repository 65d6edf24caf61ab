import DocQuery.Error

/-!
# Names of unnamed members

A member of an object expression may stand without a name where its name is obvious: `foo`, and
`foo` followed by filters, subscripts, orderings, dereferences or projections. Anything else, such
as `foo.bar`, has to be named.
-/

set_option autoImplicit false

namespace DocQuery
namespace Operation

/-- The attribute name an expression obviously has. -/
def memberName? : Operation → Option String
  | accessor [.attr name] => some name
  | pipe _ (some name) => some name
  | pipe (stage :: _) none => memberName? stage
  | _ => none

/-- The member that an expression is in an object. -/
def toMember : Operation → Except PlanError Member
  | assignment name value => .ok (.assignment name value)
  | splat => .ok .splat
  | o =>
    match o.memberName? with
    | some name => .ok (.assignment name o)
    | none => .error (.unnamedMember o.kind)

end Operation
end DocQuery
