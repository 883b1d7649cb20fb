import InfinityDB.Index.Key
import InfinityDB.Path.Program

/-!
# Predicate programs

A predicate is a tree of connectives over leaves that compare what a path finds with constants. The
bytes are the program: a version, flags, a pool of paths, a pool of constants and the tree in prefix
order, its leaves referring to the pools. The validator is the boundary that foreign bytes cross; the
readers trust the bytes after it. A reader that panics is `none` here, its debug assertions included.
-/

namespace InfinityDB.Query

open Lib PathProgram

def predicateBytesCeiling : Nat := 0xFFFF
def pathsMax : Nat := 64
def constantsMax : Nat := 512
def opsMax : Nat := 256
def inMembersMax : Nat := 100
def boolArityMax : Nat := 64
def nestingDepthMax : Nat := 32

def predicateVersion : UInt8 := 1

def opAnd : UInt8 := 0x01
def opOr : UInt8 := 0x02
def opNot : UInt8 := 0x03
def opEq : UInt8 := 0x10
def opNe : UInt8 := 0x11
def opLt : UInt8 := 0x12
def opLe : UInt8 := 0x13
def opGt : UInt8 := 0x14
def opGe : UInt8 := 0x15
def opBetween : UInt8 := 0x16
def opBeginsWith : UInt8 := 0x17
def opIn : UInt8 := 0x18
def opExists : UInt8 := 0x19

def constI64 : UInt8 := 0x01
def constF64 : UInt8 := 0x02
def constBool : UInt8 := 0x03
def constUtf8 : UInt8 := 0x04

inductive CmpOp where
  | eq
  | ne
  | lt
  | le
  | gt
  | ge
deriving DecidableEq, Repr

namespace CmpOp

def fromOpcode (opcode : UInt8) : Option CmpOp :=
  if opcode = opEq then some eq
  else if opcode = opNe then some ne
  else if opcode = opLt then some lt
  else if opcode = opLe then some le
  else if opcode = opGt then some gt
  else if opcode = opGe then some ge
  else none

end CmpOp

inductive ConstFamily where
  | numeric
  | bool
  | utf8
deriving DecidableEq, Repr

def legacy (path : ByteProgram) : Bool := isLegacy path.bytes = some true

inductive PredicateErrorKind where
  | truncated
  | programTooLong
  | badVersion
  | badFlags
  | badOpcode
  | badVarint
  | badCount
  | badConstant
  | badPath
  | badPoolRef
  | notCanonical
  | badTypeFamily
  | tooDeep
  | tooManyOps
  | trailingBytes
deriving DecidableEq, Repr

structure PredicateError where
  offset : Nat
  kind : PredicateErrorKind
deriving DecidableEq, Repr

def verr {α : Type} (kind : PredicateErrorKind) (offset : Nat) : Except PredicateError α := .error ⟨offset, kind⟩

def readVarintAt (bytes : Bytes) (pos : Nat) : Except PredicateError (UInt64 × Nat) :=
  match decodeVarint (bytes.drop pos) with
  | none => verr .badVarint pos
  | some (value, used) => .ok (value, pos + used)

/-- So many bytes, and where they end; a length beyond the bytes is refused, never wrapped. -/
def regionAt (bytes : Bytes) (start : Nat) (len : UInt64) : Except PredicateError (Bytes × Nat) :=
  match region bytes start len.toNat with
  | none => verr .truncated start
  | some span => .ok (span, start + len.toNat)

def byteAt (bytes : Bytes) (pos : Nat) : Except PredicateError UInt8 :=
  match bytes[pos]? with
  | none => verr .truncated pos
  | some b => .ok b

def countAt (bytes : Bytes) (max pos : Nat) : Except PredicateError (Nat × Nat) := do
  let (count, next) ← readVarintAt bytes pos
  if count.toNat ≤ max then .ok (count.toNat, next) else verr .badCount next

def validatePathEntries (bytes : Bytes) : Nat → Nat → List Bytes → Except PredicateError (List Bytes × Nat)
  | 0, pos, spans => .ok (spans, pos)
  | count + 1, pos, spans => do
    let (len, start) ← readVarintAt bytes pos
    let (span, stop) ← regionAt bytes start len
    match fromBytes span with
    | .error _ => verr .badPath start
    | .ok program =>
      if legacy program then verr .badPath start
      else if span ∈ spans then verr .notCanonical start
      else validatePathEntries bytes count stop (spans ++ [span])

def validatePaths (bytes : Bytes) (pos : Nat) : Except PredicateError (List Bytes × Nat) := do
  let (count, next) ← countAt bytes pathsMax pos
  validatePathEntries bytes count next []

def validateConstant (bytes : Bytes) (pos : Nat) : Except PredicateError (ConstFamily × Nat) := do
  let tag ← byteAt bytes pos
  if tag = constI64 then do
    let (_, next) ← readVarintAt bytes (pos + 1)
    .ok (.numeric, next)
  else if tag = constF64 then do
    let (word, next) ← regionAt bytes (pos + 1) 8
    let f : Binary64 := ⟨UInt64.ofNat (paddedValue 8 word)⟩
    if !f.isFinite || (f.eq ⟨0⟩ && f.bits != 0) then verr .badConstant (pos + 1) else .ok (.numeric, next)
  else if tag = constBool then do
    let b ← byteAt bytes (pos + 1)
    if 1 < b then verr .badConstant (pos + 1) else .ok (.bool, pos + 2)
  else if tag = constUtf8 then do
    let (len, start) ← readVarintAt bytes (pos + 1)
    let (span, stop) ← regionAt bytes start len
    if validUtf8 span then .ok (.utf8, stop) else verr .badConstant start
  else verr .badConstant pos

def validateConstantEntries (bytes : Bytes) :
    Nat → Nat → List (Bytes × ConstFamily) → Except PredicateError (List (Bytes × ConstFamily) × Nat)
  | 0, pos, constants => .ok (constants, pos)
  | count + 1, pos, constants => do
    let (family, stop) ← validateConstant bytes pos
    let span := (bytes.drop pos).take (stop - pos)
    if span ∈ constants.map Prod.fst then verr .notCanonical pos
    else validateConstantEntries bytes count stop (constants ++ [(span, family)])

def validateConstants (bytes : Bytes) (pos : Nat) : Except PredicateError (List (Bytes × ConstFamily) × Nat) := do
  let (count, next) ← countAt bytes constantsMax pos
  validateConstantEntries bytes count next []

/-- The counters of a walk over the expression: the next entry of each pool that was not referred to. -/
structure ExprCheck where
  nextPath : Nat
  nextConstant : Nat
deriving DecidableEq, Repr

def readPoolRef (bytes : Bytes) (pos poolLen nextNew : Nat) : Except PredicateError (Nat × Nat × Nat) := do
  let (raw, next) ← readVarintAt bytes pos
  let id := raw.toNat
  if poolLen ≤ id then verr .badPoolRef pos
  else if nextNew < id then verr .notCanonical pos
  else .ok (id, next, if id = nextNew then nextNew + 1 else nextNew)

section Expr
variable (bytes : Bytes) (pathCount : Nat) (constants : List (Bytes × ConstFamily))

def checkPathRef (pos : Nat) (check : ExprCheck) : Except PredicateError (Nat × ExprCheck) := do
  let (_, next, nextPath) ← readPoolRef bytes pos pathCount check.nextPath
  .ok (next, { check with nextPath })

def checkConstantRef (pos : Nat) (check : ExprCheck) : Except PredicateError (ConstFamily × Nat × ExprCheck) := do
  let (id, next, nextConstant) ← readPoolRef bytes pos constants.length check.nextConstant
  match constants[id]? with
  | some constant => .ok (constant.2, next, { check with nextConstant })
  -- unreachable: the reference is in the pool
  | none => verr .badPoolRef pos

/-- Further members of the first one's family. -/
def checkMembers (first : ConstFamily) : Nat → Nat → ExprCheck → Except PredicateError (Nat × ExprCheck)
  | 0, pos, check => .ok (pos, check)
  | count + 1, pos, check => do
    let (family, next, check) ← checkConstantRef bytes constants pos check
    if family ≠ first then verr .badTypeFamily pos else checkMembers first count next check

def validateLeaf (opcode : UInt8) (opcodeAt pos : Nat) (check : ExprCheck) : Except PredicateError (Nat × ExprCheck) :=
  if (CmpOp.fromOpcode opcode).isSome then do
    let (pos, check) ← checkPathRef bytes pathCount pos check
    let (_, pos, check) ← checkConstantRef bytes constants pos check
    .ok (pos, check)
  else if opcode = opBetween then do
    let (pos, check) ← checkPathRef bytes pathCount pos check
    let (lo, hiAt, check) ← checkConstantRef bytes constants pos check
    let (hi, pos, check) ← checkConstantRef bytes constants hiAt check
    if lo ≠ hi then verr .badTypeFamily hiAt else .ok (pos, check)
  else if opcode = opBeginsWith then do
    let (leadAt, check) ← checkPathRef bytes pathCount pos check
    let (family, pos, check) ← checkConstantRef bytes constants leadAt check
    if family ≠ .utf8 then verr .badTypeFamily leadAt else .ok (pos, check)
  else if opcode = opIn then do
    let (pos, check) ← checkPathRef bytes pathCount pos check
    let n ← byteAt bytes pos
    if n.toNat < 1 ∨ inMembersMax < n.toNat then verr .badCount pos
    else do
      let (first, pos, check) ← checkConstantRef bytes constants (pos + 1) check
      checkMembers bytes constants first (n.toNat - 1) pos check
  else if opcode = opExists then checkPathRef bytes pathCount pos check
  else verr .badOpcode opcodeAt

/-- A completed leaf completes every ancestor whose last child it was. -/
def completeFrames : List Nat → List Nat
  | [] => []
  | top :: rest => if 0 < top - 1 then (top - 1) :: rest else completeFrames rest

def arityAt (pos : Nat) : Except PredicateError Nat := do
  let n ← byteAt bytes pos
  if n.toNat < 2 ∨ boolArityMax < n.toNat then verr .badCount pos else .ok n.toNat

/-- The walk over the expression: the children that each open node still has, innermost first, and how many operations are still
allowed. -/
def validateOps : Nat → List Nat → Nat → ExprCheck → Except PredicateError (Nat × ExprCheck)
  | _, [], pos, check => .ok (pos, check)
  | 0, stack, pos, _ => if nestingDepthMax < stack.length then verr .tooDeep pos else verr .tooManyOps pos
  | left + 1, stack, pos, check =>
    if nestingDepthMax < stack.length then verr .tooDeep pos
    else do
      let opcode ← byteAt bytes pos
      if opcode = opAnd ∨ opcode = opOr then do
        let n ← arityAt bytes (pos + 1)
        validateOps left (n :: stack) (pos + 2) check
      else if opcode = opNot then validateOps left (1 :: stack) (pos + 1) check
      else do
        let (next, check) ← validateLeaf bytes pathCount constants opcode pos (pos + 1) check
        validateOps left (completeFrames stack) next check

def validateExpr (pos : Nat) : Except PredicateError Unit := do
  let (pos, check) ← validateOps bytes pathCount constants opsMax [1] pos ⟨0, 0⟩
  if pos ≠ bytes.length then verr .trailingBytes pos
  else if check.nextPath ≠ pathCount ∨ check.nextConstant ≠ constants.length then verr .notCanonical pos
  else .ok ()

end Expr

def validate (bytes : Bytes) : Except PredicateError Unit :=
  match bytes with
  | version :: flags :: _ =>
    if predicateBytesCeiling ≤ bytes.length then verr .programTooLong 0
    else if version ≠ predicateVersion then verr .badVersion 0
    else if flags ≠ 0 then verr .badFlags 1
    else do
      let (paths, pos) ← validatePaths bytes 2
      let (constants, pos) ← validateConstants bytes pos
      validateExpr bytes paths.length constants pos
  | _ => verr .truncated bytes.length

/-- A program: bytes the validator accepts. -/
structure PredicateProgram where
  bytes : Bytes
  valid : validate bytes = .ok ()
deriving DecidableEq

def trustedVarint (bytes : Bytes) (pos : Nat) : Option (UInt64 × Nat) := do
  let (value, used) ← decodeVarint (bytes.drop pos)
  some (value, pos + used)

def trustedRegion (bytes : Bytes) (pos : Nat) : Option (Bytes × Nat) := do
  let (len, start) ← trustedVarint bytes pos
  let span ← region bytes start len.toNat
  some (span, start + len.toNat)

end InfinityDB.Query
