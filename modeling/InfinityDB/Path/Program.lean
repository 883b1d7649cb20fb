import InfinityDB.Lib.Cursor
import InfinityDB.Lib.Utf8
import InfinityDB.Lib.Varint
import InfinityDB.Ordered.Key

/-!
# Path programs

The bytecode of a path: a version, flags, a root, then one operation per segment. The bytes are
the program; the validator is the boundary they cross once, and the readers trust them after it.
A reader that would index past the end or meet an operation the validator excludes panics, which
is `none` here.
-/

namespace InfinityDB

open Lib

namespace Ast

/-- `[a:b:s]`; an omitted field is `none`. -/
structure SliceSpec where
  start : Option Int64
  stop : Option Int64
  step : Option Int64
deriving DecidableEq

inductive Member where
  | name (key : Bytes)
  | index (i : Int64)
  | slice (spec : SliceSpec)
deriving DecidableEq

inductive Leaf where
  | child (key : Bytes)
  | childAny
  | index (i : Int64)
  | slice (spec : SliceSpec)
  | union (members : List Member)
deriving DecidableEq

/-- A descend binds one selector and never another descend. -/
inductive Segment where
  | leaf (s : Leaf)
  | descend (s : Leaf)
deriving DecidableEq

end Ast

structure PathAst where
  legacy : Bool
  segments : List Ast.Segment
deriving DecidableEq

inductive PathErrorKind where
  | filterUnsupported
  | unexpectedChar
  | unterminated
  | badEscape
  | badNumber
  | badSlice
  | badUnionMember
  | trailingDescend
  | pathTooLong
  | pathTooDeep
  | invalidUtf8
  | truncated
  | badVersion
  | badFlags
  | badOpcode
  | missingRoot
deriving DecidableEq

structure PathError where
  offset : Nat
  kind : PathErrorKind
deriving DecidableEq

def pathBytesCeiling : Nat := 0xFFFF
def segmentsMax : Nat := 128
def unionMembersMax : Nat := 16
def programBytesCeiling : Nat := pathBytesCeiling

def programVersion : UInt8 := 1
def flagLegacy : UInt8 := 1

def opRoot : UInt8 := 0x01
def opChild : UInt8 := 0x02
def opChildAny : UInt8 := 0x03
def opIndex : UInt8 := 0x04
def opSlice : UInt8 := 0x05
def opUnion : UInt8 := 0x06
def opDescend : UInt8 := 0x07

def sliceHasStart : UInt8 := 1
def sliceHasEnd : UInt8 := 2
def sliceHasStep : UInt8 := 4

namespace PathProgram

def encodeField (field : Option Int64) : Bytes := field.elim [] fun v => encodeVarint (zigzag v)

def slicePresence (s : Ast.SliceSpec) : UInt8 :=
  (s.start.elim 0 fun _ => sliceHasStart) ||| (s.stop.elim 0 fun _ => sliceHasEnd) |||
    (s.step.elim 0 fun _ => sliceHasStep)

def encodeSlice (s : Ast.SliceSpec) : Bytes :=
  opSlice :: slicePresence s :: (encodeField s.start ++ encodeField s.stop ++ encodeField s.step)

def encodeName (name : Bytes) : Bytes := opChild :: (encodeVarint (UInt64.ofNat name.length) ++ name)

def encodeIndex (i : Int64) : Bytes := opIndex :: encodeVarint (zigzag i)

def encodeMember : Ast.Member → Bytes
  | .name key => encodeName key
  | .index i => encodeIndex i
  | .slice spec => encodeSlice spec

/-- The member count as its one byte. -/
def unionCount (members : List Ast.Member) : Except PathError UInt8 :=
  if 2 ≤ members.length ∧ members.length ≤ unionMembersMax then .ok (UInt8.ofNat members.length)
  else .error ⟨0, .badUnionMember⟩

def encodeLeafSegment : Ast.Leaf → Except PathError Bytes
  | .child key => .ok (encodeName key)
  | .childAny => .ok [opChildAny]
  | .index i => .ok (encodeIndex i)
  | .slice spec => .ok (encodeSlice spec)
  | .union members => do
    let count ← unionCount members
    .ok (opUnion :: count :: members.flatMap encodeMember)

def encodeSegment : Ast.Segment → Except PathError Bytes
  | .leaf s => encodeLeafSegment s
  | .descend s => do
    let inner ← encodeLeafSegment s
    .ok (opDescend :: inner)

def encodeSegments : List Ast.Segment → Except PathError Bytes
  | [] => .ok []
  | segment :: rest => do
    let first ← encodeSegment segment
    let others ← encodeSegments rest
    .ok (first ++ others)

def encode (ast : PathAst) : Except PathError Bytes := do
  let body ← encodeSegments ast.segments
  let out := programVersion :: (if ast.legacy then flagLegacy else 0) :: opRoot :: body
  if programBytesCeiling ≤ out.length then .error ⟨0, .pathTooLong⟩ else .ok out

/-- A union defers its members: their count and where they start. -/
structure UnionRef where
  count : UInt8
  membersAt : Nat
deriving DecidableEq

inductive Op where
  | root
  | child (key : Bytes)
  | childAny
  | index (i : Int64)
  | slice (spec : Ast.SliceSpec)
  | union (u : UnionRef)
  | descend
deriving DecidableEq

def readField (bytes : Bytes) (presence bit : UInt8) (next : Nat) : Option (Option Int64 × Nat) :=
  if presence &&& bit ≠ 0 then do
    let (raw, used) ← decodeVarint (bytes.drop next)
    some (some (unzigzag raw), next + used)
  else some (none, next)

def readSlice (bytes : Bytes) (pos : Nat) : Option (Ast.SliceSpec × Nat) := do
  let presence ← bytes[pos + 1]?
  let (start, next) ← readField bytes presence sliceHasStart (pos + 2)
  let (stop, next) ← readField bytes presence sliceHasEnd next
  let (step, next) ← readField bytes presence sliceHasStep next
  some (⟨start, stop, step⟩, next)

/-- One operation that is no union. -/
def readLeaf (bytes : Bytes) (pos : Nat) : Option (Op × Nat) := do
  let opcode ← bytes[pos]?
  if opcode = opRoot then some (.root, pos + 1)
  else if opcode = opChild then do
    let (len, used) ← decodeVarint (bytes.drop (pos + 1))
    let key ← region bytes (pos + 1 + used) len.toNat
    some (.child key, pos + 1 + used + key.length)
  else if opcode = opChildAny then some (.childAny, pos + 1)
  else if opcode = opIndex then do
    let (raw, used) ← decodeVarint (bytes.drop (pos + 1))
    some (.index (unzigzag raw), pos + 1 + used)
  else if opcode = opSlice then do
    let (spec, next) ← readSlice bytes pos
    some (.slice spec, next)
  else if opcode = opDescend then some (.descend, pos + 1)
  -- a union inside a union, or no opcode
  else none

def skipLeaves (bytes : Bytes) : Nat → Nat → Option Nat
  | 0, pos => some pos
  | count + 1, pos => do
    let (_, next) ← readLeaf bytes pos
    skipLeaves bytes count next

def readOp (bytes : Bytes) (pos : Nat) : Option (Op × Nat) := do
  let opcode ← bytes[pos]?
  if opcode ≠ opUnion then readLeaf bytes pos
  else do
    let count ← bytes[pos + 1]?
    let next ← skipLeaves bytes count.toNat (pos + 2)
    some (.union ⟨count, pos + 2⟩, next)

/-- Past the given number of operations, members of a union. -/
def skipOps (bytes : Bytes) : Nat → Nat → Option Nat
  | 0, pos => some pos
  | count + 1, pos => do
    let (_, next) ← readOp bytes pos
    skipOps bytes count next

def UnionRef.memberAt (bytes : Bytes) (u : UnionRef) (m : Nat) : Option Nat := skipOps bytes m u.membersAt

def decodeMembers (bytes : Bytes) : Nat → Nat → Option (List Ast.Member)
  | 0, _ => some []
  | count + 1, pos => do
    let (op, next) ← readOp bytes pos
    let member ← match op with
      | .child key => some (Ast.Member.name key)
      | .index i => some (.index i)
      | .slice spec => some (.slice spec)
      | _ => none
    let members ← decodeMembers bytes count next
    some (member :: members)

def opToSegment (bytes : Bytes) : Op → Option Ast.Leaf
  | .child key => some (.child key)
  | .childAny => some .childAny
  | .index i => some (.index i)
  | .slice spec => some (.slice spec)
  | .union u => do
    let members ← decodeMembers bytes u.count.toNat u.membersAt
    some (.union members)
  | .root => none
  | .descend => none

/-- The decoding loop. A turn reads at least one byte, so the count of the bytes left bounds the
turns. -/
def decodeSegments (bytes : Bytes) : Nat → Nat → Option (List Ast.Segment)
  | 0, pos => if pos < bytes.length then none else some []
  | turns + 1, pos =>
    if pos < bytes.length then do
      let (op, next) ← readOp bytes pos
      if op = .descend then do
        let (inner, next) ← readOp bytes next
        let leaf ← opToSegment bytes inner
        let rest ← decodeSegments bytes turns next
        some (.descend leaf :: rest)
      else do
        let leaf ← opToSegment bytes op
        let rest ← decodeSegments bytes turns next
        some (.leaf leaf :: rest)
    else some []

def isLegacy (bytes : Bytes) : Option Bool := do
  let flags ← bytes[1]?
  some (flags &&& flagLegacy ≠ 0)

def decode (bytes : Bytes) : Option PathAst := do
  let legacy ← isLegacy bytes
  let segments ← decodeSegments bytes bytes.length 3
  some ⟨legacy, segments⟩

inductive PathStep where
  | child (key : Bytes)
  | index (i : Int64)
  | wild
  | other
deriving DecidableEq

/-- The step iterator, run to its end. The selector a descend binds is left to the next turn. -/
def stepsFrom (bytes : Bytes) : Nat → Nat → Option (List PathStep)
  | 0, pos => if pos < bytes.length then none else some []
  | turns + 1, pos =>
    if pos < bytes.length then do
      let (op, next) ← readOp bytes pos
      let step ← match op with
        | .child key => some (PathStep.child key)
        | .index i => some (.index i)
        | .childAny => some .wild
        | .slice _ => some .other
        | .union _ => some .other
        | .descend => some .other
        | .root => none
      let rest ← stepsFrom bytes turns next
      some (step :: rest)
    else some []

def steps (bytes : Bytes) : Option (List PathStep) := stepsFrom bytes bytes.length 3

inductive SimpleStep where
  | child (key : Bytes)
  | index (i : Int64)
deriving DecidableEq

/-- Whether every operation passes a test; stops at the first that does not. -/
def allOps (bytes : Bytes) (test : Op → Bool) : Nat → Nat → Option Bool
  | 0, pos => if pos < bytes.length then none else some true
  | turns + 1, pos =>
    if pos < bytes.length then do
      let (op, next) ← readOp bytes pos
      if test op then allOps bytes test turns next else some false
    else some true

/-- Inside the fence of indexable paths. -/
def Op.indexable : Op → Bool
  | .child _ => true
  | .childAny => true
  | .index _ => true
  | _ => false

def withinIndexFence (bytes : Bytes) : Option Bool := allOps bytes Op.indexable bytes.length 3

def Op.simple : Op → Bool
  | .child _ => true
  | .index _ => true
  | _ => false

def simpleStepsFrom (bytes : Bytes) : Nat → Nat → Option (List SimpleStep)
  | 0, pos => if pos = bytes.length then some [] else none
  | turns + 1, pos =>
    if pos = bytes.length then some []
    else do
      let (op, next) ← readOp bytes pos
      let step ← match op with
        | .child key => some (SimpleStep.child key)
        | .index i => some (.index i)
        | _ => none
      let rest ← simpleStepsFrom bytes turns next
      some (step :: rest)

/-- The steps of a program of children and indexes; `some none` for any other program. -/
def simpleSteps (bytes : Bytes) : Option (Option (List SimpleStep)) := do
  let simple ← allOps bytes Op.simple bytes.length 3
  if simple then do
    let steps ← simpleStepsFrom bytes bytes.length 3
    some (some steps)
  else some none

def pathError {α : Type} (offset : Nat) (kind : PathErrorKind) : Except PathError α := .error ⟨offset, kind⟩

def validateField (bytes : Bytes) (presence bit : UInt8) (next : Nat) : Except PathError Nat :=
  if presence &&& bit ≠ 0 then
    match decodeVarint (bytes.drop next) with
    | none => pathError next .truncated
    | some (raw, used) =>
      if bit = sliceHasStep ∧ unzigzag raw = 0 then pathError next .badSlice else .ok (next + used)
  else .ok next

def validateSelector (bytes : Bytes) (pos : Nat) (unionMember : Bool) : Except PathError Nat :=
  match bytes[pos]? with
  | none => pathError pos .truncated
  | some opcode =>
    if opcode = opChild then
      match decodeVarint (bytes.drop (pos + 1)) with
      | none => pathError (pos + 1) .truncated
      | some (len, used) =>
        -- a huge length is refused, never wrapped
        match region bytes (pos + 1 + used) len.toNat with
        | none => pathError pos .truncated
        | some key =>
          if validUtf8 key then .ok (pos + 1 + used + len.toNat) else pathError (pos + 1 + used) .invalidUtf8
    else if opcode = opIndex then
      match decodeVarint (bytes.drop (pos + 1)) with
      | none => pathError (pos + 1) .truncated
      | some (_, used) => .ok (pos + 1 + used)
    else if opcode = opSlice then
      match bytes[pos + 1]? with
      | none => pathError (pos + 1) .truncated
      | some presence =>
        if presence &&& ~~~(sliceHasStart ||| sliceHasEnd ||| sliceHasStep) ≠ 0 then pathError (pos + 1) .badFlags
        else do
          let next ← validateField bytes presence sliceHasStart (pos + 2)
          let next ← validateField bytes presence sliceHasEnd next
          validateField bytes presence sliceHasStep next
    else if opcode = opChildAny ∧ !unionMember then .ok (pos + 1)
    else pathError pos (if unionMember then .badUnionMember else .badOpcode)

def validateMembers (bytes : Bytes) : Nat → Nat → Except PathError Nat
  | 0, pos => .ok pos
  | count + 1, pos => do
    let next ← validateSelector bytes pos true
    validateMembers bytes count next

/-- The operation at a position where the loop takes neither a descend nor the end. -/
def validateOp (bytes : Bytes) (pos : Nat) : Except PathError Nat :=
  if bytes[pos]? = some opUnion then
    match bytes[pos + 1]? with
    | none => pathError (pos + 1) .truncated
    | some count =>
      if 2 ≤ count.toNat ∧ count.toNat ≤ unionMembersMax then validateMembers bytes count.toNat (pos + 2)
      else pathError (pos + 1) .badUnionMember
  else if bytes[pos]? = some opRoot then pathError pos .badOpcode
  else validateSelector bytes pos false

/-- The walk over the segments, with the count of those still allowed. A descend and the selector
it binds are one segment. The closing check for a program without segments but with bytes cannot
fail: the walk starts at the third byte and has then read none. -/
def validateSegments (bytes : Bytes) : Nat → Nat → Except PathError Unit
  | 0, pos => if bytes.length ≤ pos then .ok () else pathError pos .pathTooDeep
  | left + 1, pos =>
    if bytes.length ≤ pos then .ok ()
    else if bytes[pos]? = some opDescend then
      if bytes.length ≤ pos + 1 then pathError bytes.length .trailingDescend
      else if bytes[pos + 1]? = some opDescend then pathError (pos + 1) .badOpcode
      else do
        let next ← validateOp bytes (pos + 1)
        validateSegments bytes left next
    else do
      let next ← validateOp bytes pos
      validateSegments bytes left next

def validate (bytes : Bytes) : Except PathError Unit :=
  match bytes with
  | version :: flags :: root :: _ =>
    if programBytesCeiling ≤ bytes.length then pathError 0 .pathTooLong
    else if version ≠ programVersion then pathError 0 .badVersion
    else if flags &&& ~~~flagLegacy ≠ 0 then pathError 1 .badFlags
    else if root ≠ opRoot then pathError 2 .missingRoot
    else validateSegments bytes segmentsMax 3
  | _ => pathError bytes.length .truncated

/-- A program: bytes the validator accepts. -/
structure ByteProgram where
  bytes : Bytes
  valid : validate bytes = .ok ()

def fromBytes (bytes : Bytes) : Except PathError ByteProgram :=
  match h : validate bytes with
  | .ok () => .ok ⟨bytes, h⟩
  | .error e => .error e

end PathProgram

end InfinityDB
