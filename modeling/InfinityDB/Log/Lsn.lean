import Mathlib

/-!
# Log sequence numbers

A record's identity is its segment and its byte offset there.
-/

namespace InfinityDB

/-- Byte address of a record or of a frame in the log of a cell. -/
structure Lsn where
  segment : Nat
  offset : Nat
  fits : offset < 2 ^ 32
deriving DecidableEq

namespace Lsn

/-- The packed form: the segment above 32 bits of offset. -/
def toU64 (lsn : Lsn) : Nat := lsn.segment * 2 ^ 32 + lsn.offset

end Lsn

end InfinityDB
