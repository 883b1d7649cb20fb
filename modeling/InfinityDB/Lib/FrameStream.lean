import Mathlib

/-!
# Frames of a byte stream

A frame parser looks at the front of a buffer: it finds a frame and says how long it is, asks for more
bytes, or gives up.
-/

namespace Lib

variable {β α ε : Type}

inductive Outcome (α ε : Type)
  | frame (item : α) (used : Nat)
  | incomplete
  | fault (error : ε)
  deriving DecidableEq

/-- The frames `items` stand one after the other at the front of the buffer, and `rest` follows. -/
inductive Consumes (parse : List β → Outcome α ε) : List β → List α → List β → Prop
  | nil {buf} : Consumes parse buf [] buf
  | cons {buf item used items rest} (hframe : parse buf = .frame item used)
      (htail : Consumes parse (buf.drop used) items rest) : Consumes parse buf (item :: items) rest

end Lib
