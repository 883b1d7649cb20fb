import InfinityDB.Query.Predicate

/-!
# Access programs

The compiled statement: one access step, an optional residual predicate and the page. As with
predicates the bytes are the program, the validator is the boundary that foreign bytes cross, and the
decoder trusts the bytes after it. A panic is `none`; the encoder's debug assertions on its argument
count as panics, and its last one, that what it wrote validates, is not part of it but a theorem.
-/

namespace InfinityDB.Query

open Lib

def accessProgramBytesCeiling : Nat := 0xFFFF
def maxKeyLen : Nat := 255

def accessVersion : UInt8 := 1

def projectDocuments : UInt8 := 0x01
def projectCount : UInt8 := 0x02

def stepPkGet : UInt8 := 0x01
def stepIndexRange : UInt8 := 0x02
def stepScan : UInt8 := 0x03

def edgeUnbounded : UInt8 := 0x00
def edgeIncluded : UInt8 := 0x01
def edgeExcluded : UInt8 := 0x02

def keyTypeUtf8 : UInt8 := 0x01
def keyTypeI64 : UInt8 := 0x02
def keyTypeF64 : UInt8 := 0x03
def keyTypeBool : UInt8 := 0x04

inductive Projection where
  | documents
  | count
deriving DecidableEq, Repr

inductive RangeEdge where
  | unbounded
  | included (bytes : Bytes)
  | excluded (bytes : Bytes)
deriving DecidableEq, Repr

inductive AccessStep where
  | pkGet (key : Bytes)
  | indexRange (index : UInt32) (generation : UInt64) (keyType : IndexKeyType) (lo hi : RangeEdge)
  | scan
deriving DecidableEq

structure Access where
  ns : UInt32
  projection : Projection
  limit : Option UInt32
  step : AccessStep
  residual : Option PredicateProgram
deriving DecidableEq

inductive AccessBuildError where
  | badKey
  | badEdge
  | badLimit
  | countWithLimit
  | programTooLong
deriving DecidableEq, Repr

inductive AccessErrorKind where
  | truncated
  | programTooLong
  | badVersion
  | badFlags
  | badVarint
  | badTag
  | badField
  | badKey
  | badEdge
  | badResidual
  | trailingBytes
deriving DecidableEq, Repr

structure AccessError where
  offset : Nat
  kind : AccessErrorKind
deriving DecidableEq, Repr

def PredicateProgram.fromBytes (bytes : Bytes) : Except PredicateError PredicateProgram :=
  match h : validate bytes with
  | .ok () => .ok ⟨bytes, h⟩
  | .error e => .error e

namespace Access

def keyTypeTag : IndexKeyType → UInt8
  | .utf8 => keyTypeUtf8
  | .i64 => keyTypeI64
  | .f64 => keyTypeF64
  | .bool => keyTypeBool

def decodeKeyType (tag : UInt8) : Option IndexKeyType :=
  if tag = keyTypeUtf8 then some .utf8
  else if tag = keyTypeI64 then some .i64
  else if tag = keyTypeF64 then some .f64
  else if tag = keyTypeBool then some .bool
  else none

/-- Keys of eight bytes have edges of eight bytes; the edge of a text key may be any byte string that fits. -/
def edgeLenOk (len : Nat) (keyType : IndexKeyType) : Bool :=
  if keyType.fixed8 then len == 8 else 1 ≤ len && len ≤ orderedKeyMax

def sized (span : Bytes) : Bytes := encodeVarint (UInt64.ofNat span.length) ++ span

def encodeEdge (keyType : IndexKeyType) : RangeEdge → Except AccessBuildError Bytes
  | .unbounded => .ok [edgeUnbounded]
  | .included bytes => if edgeLenOk bytes.length keyType then .ok (edgeIncluded :: sized bytes) else .error .badEdge
  | .excluded bytes => if edgeLenOk bytes.length keyType then .ok (edgeExcluded :: sized bytes) else .error .badEdge

def encodeStep : AccessStep → Option (Except AccessBuildError Bytes)
  | .pkGet key =>
    if key = [] ∨ maxKeyLen < key.length then some (.error .badKey)
    else if validUtf8 key then some (.ok (stepPkGet :: sized key))
    else none
  | .indexRange index generation keyType lo hi =>
    if 1 ≤ index ∧ 1 ≤ generation then
      some do
        let lo ← encodeEdge keyType lo
        let hi ← encodeEdge keyType hi
        .ok (stepIndexRange :: (encodeVarint index.toUInt64 ++ (encodeVarint generation ++ (keyTypeTag keyType :: (lo ++ hi)))))
    else none
  | .scan => some (.ok [stepScan])

def projectionTag : Projection → UInt8
  | .documents => projectDocuments
  | .count => projectCount

def residualBytes : Option PredicateProgram → Bytes
  | none => []
  | some program => program.bytes

/-- The program around the bytes of its step. -/
def programOf (access : Access) (step : Bytes) : Bytes :=
  accessVersion :: 0 :: (encodeVarint access.ns.toUInt64 ++ (projectionTag access.projection ::
    (encodeVarint (access.limit.getD 0).toUInt64 ++ (step ++ sized (residualBytes access.residual)))))

def checkLimit : Projection → Option UInt32 → Except AccessBuildError Unit
  | .count, some _ => .error .countWithLimit
  | .documents, some limit => if limit = 0 then .error .badLimit else .ok ()
  | _, none => .ok ()

def encode (access : Access) : Option (Except AccessBuildError Bytes) :=
  match checkLimit access.projection access.limit, encodeStep access.step with
  | .error e, _ => some (.error e)
  | .ok (), none => none
  | .ok (), some (.error e) => some (.error e)
  | .ok (), some (.ok step) =>
    let out := programOf access step
    if accessProgramBytesCeiling ≤ out.length then some (.error .programTooLong) else some (.ok out)

def verr {α : Type} (kind : AccessErrorKind) (offset : Nat) : Except AccessError α := .error ⟨offset, kind⟩

def validateVarint (bytes : Bytes) (pos : Nat) : Except AccessError (UInt64 × Nat) :=
  match decodeVarint (bytes.drop pos) with
  | none => verr .badVarint pos
  | some (value, used) => .ok (value, pos + used)

def validateTag (bytes : Bytes) (allowed : List UInt8) (pos : Nat) : Except AccessError (UInt8 × Nat) :=
  match bytes[pos]? with
  | none => verr .truncated pos
  | some tag => if tag ∈ allowed then .ok (tag, pos + 1) else verr .badTag pos

def validateRegion (bytes : Bytes) (pos : Nat) : Except AccessError (Bytes × Nat) := do
  let (len, start) ← validateVarint bytes pos
  match region bytes start len.toNat with
  | none => verr .truncated start
  | some span => .ok (span, start + len.toNat)

def validateEdge (bytes : Bytes) (keyType : IndexKeyType) (pos : Nat) : Except AccessError Nat := do
  let (tag, edgeAt) ← validateTag bytes [edgeUnbounded, edgeIncluded, edgeExcluded] pos
  if tag = edgeUnbounded then .ok edgeAt
  else do
    let (edge, next) ← validateRegion bytes edgeAt
    if edgeLenOk edge.length keyType then .ok next else verr .badEdge edgeAt

def validateKey (bytes : Bytes) (keyAt : Nat) : Except AccessError Nat := do
  let (key, next) ← validateRegion bytes keyAt
  if key = [] ∨ maxKeyLen < key.length ∨ validUtf8 key = false then verr .badKey keyAt else .ok next

def validateIndexRange (bytes : Bytes) (pos : Nat) : Except AccessError Nat := do
  let (id, pos) ← validateVarint bytes pos
  if id = 0 ∨ 2 ^ 32 ≤ id.toNat then verr .badField pos
  else do
    let (generation, pos) ← validateVarint bytes pos
    if generation = 0 then verr .badField pos
    else do
      let (typeTag, pos) ← validateTag bytes [keyTypeUtf8, keyTypeI64, keyTypeF64, keyTypeBool] pos
      match decodeKeyType typeTag with
      -- the tag is one of the four
      | none => verr .badTag pos
      | some keyType => do
        let pos ← validateEdge bytes keyType pos
        validateEdge bytes keyType pos

def validateStep (bytes : Bytes) (pos : Nat) : Except AccessError Nat := do
  let (tag, pos) ← validateTag bytes [stepPkGet, stepIndexRange, stepScan] pos
  if tag = stepPkGet then validateKey bytes pos
  else if tag = stepIndexRange then validateIndexRange bytes pos
  else .ok pos

def validateResidual (bytes : Bytes) (pos : Nat) : Except AccessError Nat := do
  let (residual, next) ← validateRegion bytes pos
  if residual ≠ [] ∧ Query.validate residual ≠ .ok () then verr .badResidual pos else .ok next

def validate (bytes : Bytes) : Except AccessError Unit :=
  match bytes with
  | version :: flags :: _ =>
    if accessProgramBytesCeiling ≤ bytes.length then verr .programTooLong 0
    else if version ≠ accessVersion then verr .badVersion 0
    else if flags ≠ 0 then verr .badFlags 1
    else do
      let (ns, pos) ← validateVarint bytes 2
      if 2 ^ 32 ≤ ns.toNat then verr .badField pos
      else do
        let (projection, pos) ← validateTag bytes [projectDocuments, projectCount] pos
        let (limit, pos) ← validateVarint bytes pos
        if 2 ^ 32 ≤ limit.toNat ∨ (projection = projectCount ∧ limit ≠ 0) then verr .badField pos
        else do
          let pos ← validateStep bytes pos
          let pos ← validateResidual bytes pos
          if pos ≠ bytes.length then verr .trailingBytes pos else .ok ()
  | _ => verr .truncated bytes.length

def readVarint32 (bytes : Bytes) (pos : Nat) : Option (UInt32 × Nat) := do
  let (value, next) ← trustedVarint bytes pos
  if value.toNat < 2 ^ 32 then some (value.toUInt32, next) else none

def decodeEdge (bytes : Bytes) (pos : Nat) : Option (RangeEdge × Nat) := do
  let tag ← bytes[pos]?
  if tag = edgeUnbounded then some (.unbounded, pos + 1)
  else if tag = edgeIncluded then do
    let (edge, next) ← trustedRegion bytes (pos + 1)
    some (.included edge, next)
  else do
    let (edge, next) ← trustedRegion bytes (pos + 1)
    some (.excluded edge, next)

def decodeIndexRange (bytes : Bytes) (pos : Nat) : Option (AccessStep × Nat) := do
  let (index, pos) ← readVarint32 bytes pos
  let (generation, pos) ← trustedVarint bytes pos
  let keyType ← decodeKeyType (← bytes[pos]?)
  let (lo, pos) ← decodeEdge bytes (pos + 1)
  let (hi, pos) ← decodeEdge bytes pos
  some (.indexRange index generation keyType lo hi, pos)

def decodeStep (bytes : Bytes) (pos : Nat) : Option (AccessStep × Nat) := do
  let tag ← bytes[pos]?
  if tag = stepPkGet then do
    let (key, next) ← trustedRegion bytes (pos + 1)
    some (.pkGet key, next)
  else if tag = stepIndexRange then decodeIndexRange bytes (pos + 1)
  else some (.scan, pos + 1)

def decodeResidual (span : Bytes) : Option (Option PredicateProgram) :=
  if span = [] then some none else (PredicateProgram.fromBytes span).toOption.map some

def decode (bytes : Bytes) : Option Access := do
  let (ns, pos) ← readVarint32 bytes 2
  let projection ← bytes[pos]?
  let (limit, pos) ← readVarint32 bytes (pos + 1)
  let (step, pos) ← decodeStep bytes pos
  let (span, _) ← trustedRegion bytes pos
  let residual ← decodeResidual span
  some
    { ns
      projection := if projection = projectCount then .count else .documents
      limit := if limit = 0 then none else some limit
      step
      residual }

end Access

end InfinityDB.Query
