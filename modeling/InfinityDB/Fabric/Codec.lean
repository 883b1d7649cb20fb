import InfinityDB.Lib.Reader

/-!
# The fabric op codec

A frame is a header of eight bytes and a payload: version, opcode, flags and the payload's length. A batch
nests the frames of other ops, one level deep. A panic of the encoder or the decoder is `none`.
-/

namespace InfinityDB.Fabric

open Lib

def codecVersion : UInt8 := 0
def maxInlineApplyArgs : Nat := 16
def maxApplyArgs : Nat := 1024
def maxBatchOps : Nat := 256
def headerLen : Nat := 8
def flagProgram : Nat := 1

def opRead : UInt8 := 1
def opWrite : UInt8 := 2
def opApply : UInt8 := 3
def opBatch : UInt8 := 4
def opReply : UInt8 := 5
def opApplyNs : UInt8 := 6
def opAdoptConn : UInt8 := 7

def applyNsMin : Nat := 16

abbrev FabricToken := UInt64

structure KeySlot where
  raw : UInt16
  lt : raw.toNat < 16384
  deriving DecidableEq

structure WriteFlags where
  bits : UInt8
  known : bits &&& ~~~7 = 0
  deriving DecidableEq

def WriteFlags.fromBits (bits : UInt8) : Option WriteFlags := if h : bits &&& ~~~7 = 0 then some ⟨bits, h⟩ else none

inductive ErrCode
  | wrongType | notInt | overflow | outOfMemory
  | unknown (raw : UInt16)
  deriving DecidableEq

def ErrCode.toU16 : ErrCode → UInt16
  | wrongType => 1
  | notInt => 2
  | overflow => 3
  | outOfMemory => 4
  | unknown raw => raw

def ErrCode.fromU16 (raw : UInt16) : ErrCode :=
  if raw = 1 then wrongType
  else if raw = 2 then notInt
  else if raw = 3 then overflow
  else if raw = 4 then outOfMemory
  else unknown raw

inductive Outcome
  | ok
  | bytes (value : Bytes)
  | int (value : Int64)
  | nil
  | bool (value : Bool)
  | err (code : ErrCode)
  deriving DecidableEq

def inlineTable (args : List Bytes) : List Bytes :=
  if args.length ≤ maxInlineApplyArgs then args ++ List.replicate (maxInlineApplyArgs - args.length) []
  else List.replicate maxInlineApplyArgs []

def spillTable (args : List Bytes) : List Bytes := if args.length ≤ maxInlineApplyArgs then [] else args

/-- Argument slices: in the inline table, or all of them in the spill. -/
structure ApplyArgs where
  inline : List Bytes
  len : Nat
  spill : List Bytes
  built : ∃ args : List Bytes, args.length ≤ maxApplyArgs ∧ inline = inlineTable args ∧ len = args.length ∧
    spill = spillTable args

namespace ApplyArgs

def ofArgs (args : List Bytes) (h : args.length ≤ maxApplyArgs) : ApplyArgs :=
  ⟨inlineTable args, args.length, spillTable args, args, h, rfl, rfl, rfl⟩

def asSlice (args : ApplyArgs) : List Bytes := if args.spill = [] then args.inline.take args.len else args.spill

end ApplyArgs

inductive Op
  | read (token : FabricToken) (slot : KeySlot) (key : Bytes)
  | write (token : FabricToken) (slot : KeySlot) (key value : Bytes) (expireAt : Option UInt64) (flags : WriteFlags)
  | apply (token : FabricToken) (slot : KeySlot) (cmd : UInt8) (args : ApplyArgs) (program : Bool)
  | applyNs (token : FabricToken) (slot : KeySlot) (cmd : UInt8) (ns : UInt32) (args : ApplyArgs) (program : Bool)
  | batch (ops : List Op)
  | reply (token : FabricToken) (outcome : Outcome)
  | adoptConn (token : FabricToken) (fd : UInt32)

namespace Op

def headerFlags : Op → Nat
  | apply _ _ _ _ true => flagProgram
  | applyNs _ _ _ _ _ true => flagProgram
  | _ => 0

def opcode : Op → UInt8
  | read .. => opRead
  | write .. => opWrite
  | apply .. => opApply
  | applyNs .. => opApplyNs
  | batch _ => opBatch
  | reply .. => opReply
  | adoptConn .. => opAdoptConn

end Op

inductive CodecError
  | truncated
  | unknownVersion (version : UInt8)
  | unknownOp (opcode : UInt8)
  | reservedFlags (flags : Nat)
  | flagNotApplicable (opcode : UInt8)
  | trailingBytes
  | badVarint
  | invalidSlot (raw : UInt16)
  | invalidWriteFlags (bits : UInt8)
  | invalidTag (tag : UInt8)
  | tooManyArgs (argc : UInt64)
  | applyNsDefault (ns : UInt32)
  | tooManyBatchOps (count : UInt64)
  | nestedBatch
  | replyInBatch
  | adoptConnInBatch
  deriving DecidableEq

def encodeBytes (bytes : Bytes) : Bytes := encodeVarint (UInt64.ofNat bytes.length) ++ bytes

def encodeExpire : Option UInt64 → Bytes
  | none => [0]
  | some expireAt => 1 :: u64Bytes expireAt

def encodeArgs (args : ApplyArgs) : Bytes := encodeVarint (UInt64.ofNat args.len) ++ args.asSlice.flatMap encodeBytes

def encodeOutcome : Outcome → Bytes
  | .ok => [0]
  | .bytes value => 1 :: encodeBytes value
  | .int value => 2 :: u64Bytes value.toUInt64
  | .nil => [3]
  | .bool value => [4, if value then 1 else 0]
  | .err code => 5 :: leBytes 2 code.toU16.toNat

def encodeSlot (slot : KeySlot) : Bytes := leBytes 2 slot.raw.toNat

/-- A nested batch is unreachable here. -/
def encodeLeafPayload : Op → Option Bytes
  | .read token slot key => some (u64Bytes token ++ encodeSlot slot ++ encodeBytes key)
  | .write token slot key value expireAt flags =>
    some (u64Bytes token ++ encodeSlot slot ++ [flags.bits] ++ encodeExpire expireAt ++ encodeBytes key ++ encodeBytes value)
  | .apply token slot cmd args _ => some (u64Bytes token ++ encodeSlot slot ++ [cmd] ++ encodeArgs args)
  | .applyNs token slot cmd ns args _ => some (u64Bytes token ++ encodeSlot slot ++ [cmd] ++ u32Bytes ns ++ encodeArgs args)
  | .batch _ => none
  | .reply token outcome => some (u64Bytes token ++ encodeOutcome outcome)
  | .adoptConn token fd => some (u64Bytes token ++ u32Bytes fd)

/-- The header with a placeholder for the length. -/
def beginFrame (op : Op) (out : Bytes) : Bytes := out ++ [codecVersion, op.opcode] ++ leBytes 2 op.headerFlags ++ [0, 0, 0, 0]

/-- The length patched into the header at `start`. -/
def finishFrame (out : Bytes) (start : Nat) : Option Bytes :=
  let header := (out.drop start).take headerLen
  let payload := (out.drop start).drop headerLen
  if 2 ^ 32 ≤ payload.length then none
  else some (out.take start ++ (header.take 4 ++ leBytes 4 payload.length) ++ payload)

def encodeNested (nested : Op) (out : Bytes) : Option Bytes := do
  let payload ← encodeLeafPayload nested
  finishFrame (beginFrame nested out ++ payload) out.length

def encodeAllNested : List Op → Bytes → Option Bytes
  | [], out => some out
  | nested :: ops, out => do
    let out ← encodeNested nested out
    encodeAllNested ops out

def encodePayload (op : Op) (out : Bytes) : Option Bytes :=
  match op with
  | .batch ops => encodeAllNested ops (out ++ encodeVarint (UInt64.ofNat ops.length))
  | op => (encodeLeafPayload op).map (out ++ ·)

/-- The ops a batch may nest, as the encoder checks them. -/
def mayNest : Op → Bool
  | .batch _ => false
  | .reply .. => false
  | .adoptConn .. => false
  | _ => true

/-- The refusals before any byte is written. -/
def refused : Op → Bool
  | .batch ops => !ops.all mayNest
  | .applyNs _ _ _ ns _ _ => ns.toNat < applyNsMin
  | _ => false

def encode (op : Op) (out : Bytes) : Option Bytes :=
  if refused op then none else do
  let written ← encodePayload op (beginFrame op out)
  finishFrame written out.length

abbrev Decodes := Reader CodecError

def readTake (n : Nat) : Decodes Bytes := Reader.take .truncated n

def readU8 : Decodes UInt8 := do
  let b ← readTake 1
  match b with
  | first :: _ => pure first
  | [] => Reader.panic

def readU16 : Decodes UInt16 := do
  let v ← Reader.le .truncated 2
  pure (UInt16.ofNat v)

def readU32 : Decodes UInt32 := do
  let v ← Reader.le .truncated 4
  pure (UInt32.ofNat v)

def readU64 : Decodes UInt64 := do
  let v ← Reader.le .truncated 8
  pure (UInt64.ofNat v)

def readI64 : Decodes Int64 := do
  let v ← readU64
  pure v.toInt64

def readVarint : Decodes UInt64 := Reader.varint .badVarint

def readBytes : Decodes Bytes := do
  let len ← readVarint
  readTake len.toNat

def readMany : (n : Nat) → Decodes { args : List Bytes // args.length = n }
  | 0 => pure ⟨[], rfl⟩
  | n + 1 => do
    let arg ← readBytes
    let args ← readMany n
    pure ⟨arg :: args.val, congrArg Nat.succ args.property⟩

def readLeft : Decodes Nat := fun buf => (some (.ok (buf.length, buf)) : Option (Except CodecError (Nat × Bytes)))

def readArgs : Decodes ApplyArgs := do
  let argc ← readVarint
  if h : argc.toNat ≤ maxApplyArgs then
    let left ← readLeft
    if left < argc.toNat then Reader.fail .truncated
    else do
      let args ← readMany argc.toNat
      pure (.ofArgs args.val (args.property.trans_le h))
  else Reader.fail (.tooManyArgs argc)

def readSlot : Decodes KeySlot := do
  let raw ← readU16
  if h : raw.toNat < 16384 then pure ⟨raw, h⟩ else Reader.fail (.invalidSlot raw)

def readBool : Decodes Bool := do
  let tag ← readU8
  if tag = 0 then pure false else if tag = 1 then pure true else Reader.fail (.invalidTag tag)

def readOutcome : Decodes Outcome := do
  let tag ← readU8
  if tag = 0 then pure .ok
  else if tag = 1 then do
    let value ← readBytes
    pure (.bytes value)
  else if tag = 2 then do
    let value ← readI64
    pure (.int value)
  else if tag = 3 then pure .nil
  else if tag = 4 then do
    let value ← readBool
    pure (.bool value)
  else if tag = 5 then do
    let raw ← readU16
    pure (.err (.fromU16 raw))
  else Reader.fail (.invalidTag tag)

/-- The write flags; the refusal names the byte just read, by its index in the payload. -/
def readWriteFlags (payload : Bytes) : Decodes WriteFlags := do
  let bits ← readU8
  match WriteFlags.fromBits bits with
  | some flags => pure flags
  | none =>
    match payload[10]? with
    | some byte => Reader.fail (.invalidWriteFlags byte)
    | none => Reader.panic

def readExpire : Decodes (Option UInt64) := do
  let tag ← readU8
  if tag = 0 then pure none
  else if tag = 1 then do
    let expireAt ← readU64
    pure (some expireAt)
  else Reader.fail (.invalidTag tag)

def readRead : Decodes Op := do
  let token ← readU64
  let slot ← readSlot
  let key ← readBytes
  pure (.read token slot key)

def readWrite (payload : Bytes) : Decodes Op := do
  let token ← readU64
  let slot ← readSlot
  let flags ← readWriteFlags payload
  let expireAt ← readExpire
  let key ← readBytes
  let value ← readBytes
  pure (.write token slot key value expireAt flags)

def readApply (program : Bool) : Decodes Op := do
  let token ← readU64
  let slot ← readSlot
  let cmd ← readU8
  let args ← readArgs
  pure (.apply token slot cmd args program)

def readNs : Decodes UInt32 := do
  let ns ← readU32
  if ns.toNat < applyNsMin then Reader.fail (.applyNsDefault ns) else pure ns

def readApplyNs (program : Bool) : Decodes Op := do
  let token ← readU64
  let slot ← readSlot
  let cmd ← readU8
  let ns ← readNs
  let args ← readArgs
  pure (.applyNs token slot cmd ns args program)

def readReply : Decodes Op := do
  let token ← readU64
  let outcome ← readOutcome
  pure (.reply token outcome)

def readAdoptConn : Decodes Op := do
  let token ← readU64
  let fd ← readU32
  pure (.adoptConn token fd)

def readLeaf (opcode : UInt8) (program : Bool) (payload : Bytes) : Decodes Op :=
  if opcode = opRead then readRead
  else if opcode = opWrite then readWrite payload
  else if opcode = opApply then readApply program
  else if opcode = opApplyNs then readApplyNs program
  else if opcode = opBatch then Reader.fail .nestedBatch
  else if opcode = opReply then readReply
  else if opcode = opAdoptConn then readAdoptConn
  else Reader.fail (.unknownOp opcode)

/-- What a decoder gives: a panic is `none`. -/
abbrev Decoded (α : Type) := Option (Except CodecError α)

/-- A value that takes the whole payload. -/
def whole {α : Type} : Decoded (α × Bytes) → Decoded α
  | none => none
  | some (.error error) => some (.error error)
  | some (.ok (value, rest)) => if rest = [] then some (.ok value) else some (.error .trailingBytes)

structure FrameHeader where
  opcode : UInt8
  program : Bool
  payload : Bytes
  stop : Nat
  deriving DecidableEq

def decodeHeader (buf : Bytes) : Except CodecError FrameHeader :=
  match buf with
  | version :: opcode :: f0 :: f1 :: l0 :: l1 :: l2 :: l3 :: _ =>
    if version ≠ codecVersion then .error (.unknownVersion version) else
    let flags := leValue [f0, f1]
    if flags ≠ 0 ∧ flags ≠ flagProgram then .error (.reservedFlags flags) else
    let program := flags = flagProgram
    if program ∧ ¬(opcode = opApply ∨ opcode = opApplyNs) then .error (.flagNotApplicable opcode) else
    let stop := headerLen + leValue [l0, l1, l2, l3]
    if buf.length < stop then .error .truncated else
    .ok ⟨opcode, program, (buf.drop headerLen).take (stop - headerLen), stop⟩
  | _ => .error .truncated

def decodeLeaf (header : FrameHeader) : Decoded Op := whole ((readLeaf header.opcode header.program header.payload).on header.payload)

def readNested : Decodes Op := fun buf =>
  (match decodeHeader buf with
    | .error error => some (.error error)
    | .ok inner =>
      if inner.opcode = opBatch then some (.error .nestedBatch) else
      match decodeLeaf inner with
      | none => none
      | some (.error error) => some (.error error)
      | some (.ok (.reply _ _)) => some (.error .replyInBatch)
      | some (.ok (.adoptConn _ _)) => some (.error .adoptConnInBatch)
      | some (.ok op) => if buf.length < inner.stop then none else some (.ok (op, buf.drop inner.stop)) :
    Option (Except CodecError (Op × Bytes)))

def readAllNested : Nat → Decodes (List Op)
  | 0 => pure []
  | n + 1 => do
    let op ← readNested
    let ops ← readAllNested n
    pure (op :: ops)

def readBatch : Decodes Op := do
  let count ← readVarint
  if maxBatchOps < count.toNat then Reader.fail (.tooManyBatchOps count)
  else do
    let ops ← readAllNested count.toNat
    pure (.batch ops)

def decodeFrame (buf : Bytes) : Decoded (Op × Nat) :=
  match decodeHeader buf with
  | .error error => some (.error error)
  | .ok header =>
    let op := if header.opcode = opBatch then whole (readBatch.on header.payload) else decodeLeaf header
    match op with
    | none => none
    | some (.error error) => some (.error error)
    | some (.ok op) => some (.ok (op, header.stop))

def decodePrefix (buf : Bytes) : Decoded (Op × Nat) := decodeFrame buf

def decode (frame : Bytes) : Decoded Op :=
  match decodeFrame frame with
  | none => none
  | some (.error error) => some (.error error)
  | some (.ok (op, used)) => if used ≠ frame.length then some (.error .trailingBytes) else some (.ok op)

end InfinityDB.Fabric
