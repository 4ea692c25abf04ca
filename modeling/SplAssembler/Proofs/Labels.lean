import SplAssembler.Proofs.Layout
import SplAssembler.Proofs.Reach
import SplAssembler.Proofs.Reserved

/-!
# Labels and the bytes they stand for

A label is bound to the origin in effect plus the offset at its line. Later
calls move bytes, but none across the marker of a label, so the address counts
the bytes in front of the marker in the finished code as well. A reference is
looked up when the program is complete: it makes no difference whether it
stands before or after its label.
-/

set_option autoImplicit false

namespace SplAssembler

namespace Assembler

section Markers
variable {s t : Assembler} {line : SourceLine} {st : Statement} {added : List CodeLine}

end Markers

section References
variable {s t : Assembler} {line : SourceLine} {st : Statement} {added : List CodeLine}

end References

end Assembler

section Addresses
variable {table : SymbolTable} {name : Text} {address : Nat}

end Addresses

section Memory
variable {p : Program} {bytes : List UInt8} {front rest : List CodeLine}

end Memory

end SplAssembler
