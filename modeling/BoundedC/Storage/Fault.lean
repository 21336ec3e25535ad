import BoundedC.Mismatch
import BoundedC.Storage.Pointer

/-!
# Failures of storage

`MemoryFault` is why an operation on buffers, pointers or stored values fails. It knows no place in
the source; whoever runs the operation adds one.
-/

namespace BoundedC

inductive MemoryFault where
  | outOfBounds (buffer : BufferId) (offset : Int) (width length : Nat)
  | dangling (buffer : BufferId)
  | mismatch (m : Mismatch)
  | unrelatedPointers
  | offsetOverflow (offset : Int)
  | allocationFailed (length : Nat)
  | exhausted
  deriving DecidableEq, Repr

def MemoryFault.message : MemoryFault → String
  | outOfBounds b o w n =>
    s!"access of {w} byte(s) at offset {o} is outside buffer {b.describe} of length {n}"
  | dangling b => s!"buffer {b.describe} is no longer live"
  | mismatch m => s!"expected {m.wanted}, found {m.found}"
  | unrelatedPointers => "pointers into different buffers cannot be subtracted"
  | offsetOverflow o => s!"pointer offset {o} is outside the addressable range"
  | allocationFailed n => s!"cannot allocate a buffer of {n} bytes"
  | exhausted => "buffer ids exhausted"

end BoundedC
