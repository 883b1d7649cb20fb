import InfinityDB.Lib.Cursor

/-!
# Packed records

Eight bytes of header, five more when the record has a deadline, then key and value with no padding.
Widths of the header fields bound what a record can hold; the writer asserts the bounds. A slice out
of range and an unknown type tag are panics of the readers, `none` here.
-/

namespace InfinityDB.Tiered

open Lib List Option

def maxKeyLen : Nat := 255
def maxValLen : Nat := 2 ^ 24 - 1
def maxExpireMs : Nat := 2 ^ 40 - 1
def headerLen : Nat := 8
def ttlExtLen : Nat := 5
def extentRefLen : Nat := 24

def flagTtl : UInt8 := 1
def flagRaw : UInt8 := 2

inductive TypeTag where
  | string
  | jsonDoc
  | stringExtent
deriving DecidableEq, Repr

namespace TypeTag

def bits : TypeTag → UInt8
  | string => 1
  | jsonDoc => 2
  | stringExtent => 3

def fromBits (bits : UInt8) : Option TypeTag :=
  if bits = 1 then some string
  else if bits = 2 then some jsonDoc
  else if bits = 3 then some stringExtent
  else none

end TypeTag

inductive RecordKind where
  | string (raw : Bool)
  | jsonDoc
  | stringExtent
deriving DecidableEq, Repr

def RecordKind.typeTag : RecordKind → TypeTag
  | string _ => .string
  | jsonDoc => .jsonDoc
  | stringExtent => .stringExtent

def RecordKind.rawFlag : RecordKind → UInt8
  | string true => flagRaw
  | _ => 0

structure ExtentRef where
  extentId : Nat
  offset : Nat
  len : Nat
deriving DecidableEq, Repr

namespace ExtentRef

def encode (ext : ExtentRef) : Bytes := leBytes 8 ext.extentId ++ leBytes 8 ext.offset ++ leBytes 8 ext.len

/-- Exactly twenty-four bytes, with offset zero. -/
def decode (value : Bytes) : Option ExtentRef :=
  if value.length = extentRefLen then
    let offset := leValue ((value.drop 8).take 8)
    if offset = 0 then some ⟨leValue (value.take 8), offset, leValue ((value.drop 16).take 8)⟩ else none
  else none

end ExtentRef

structure RecordSpec where
  key : Bytes
  value : Bytes
  version : Nat
  expireAtMs : Option Nat
  kind : RecordKind

namespace RecordSpec

def ttlExt (spec : RecordSpec) : Bytes :=
  match spec.expireAtMs with
  | some ms => leBytes ttlExtLen ms
  | none => []

def encodedLen (spec : RecordSpec) : Nat :=
  headerLen + (if spec.expireAtMs.isSome then ttlExtLen else 0) + spec.key.length + spec.value.length

def flags (spec : RecordSpec) : UInt8 := (if spec.expireAtMs.isSome then flagTtl else 0) ||| spec.kind.rawFlag

/-- What the writer asserts. -/
def Fits (spec : RecordSpec) : Prop :=
  spec.key.length ≤ maxKeyLen ∧ spec.value.length ≤ maxValLen ∧ ∀ ms ∈ spec.expireAtMs, ms ≤ maxExpireMs

instance (spec : RecordSpec) : Decidable spec.Fits := by
  unfold Fits
  infer_instance

def header (spec : RecordSpec) : Bytes :=
  (spec.kind.typeTag.bits <<< 4 ||| spec.flags) :: UInt8.ofNat spec.key.length ::
    (leBytes 3 spec.value.length ++ leBytes 3 (spec.version % 2 ^ 24))

def write (spec : RecordSpec) : Option Bytes :=
  if spec.Fits then some (spec.header ++ (spec.ttlExt ++ (spec.key ++ spec.value))) else none

end RecordSpec

def hasTtl (bytes : Bytes) : Bool := bytes.head?.any fun b => b &&& flagTtl ≠ 0

def klen (bytes : Bytes) : Nat := (bytes[1]?.getD 0).toNat

def vlen (bytes : Bytes) : Nat := leValue ((bytes.drop 2).take 3)

def versionOf (bytes : Bytes) : Nat := leValue ((bytes.drop 5).take 3)

def keyAt (bytes : Bytes) : Nat := headerLen + if hasTtl bytes then ttlExtLen else 0

/-- The length of a record from its fixed header alone. -/
def encodedLenFromHeader (head : Bytes) : Nat := keyAt head + klen head + vlen head

structure RecordParts where
  key : Bytes
  value : Bytes
  version : Nat
  encodedLen : Nat
  typeTag : TypeTag
deriving DecidableEq

def decodeRecord (bytes : Bytes) : Option RecordParts := do
  let first ← bytes.head?
  let typeTag ← TypeTag.fromBits (first >>> 4)
  if encodedLenFromHeader bytes ≤ bytes.length then
    some {
      key := (bytes.drop (keyAt bytes)).take (klen bytes)
      value := (bytes.drop (keyAt bytes + klen bytes)).take (vlen bytes)
      version := versionOf bytes
      encodedLen := encodedLenFromHeader bytes
      typeTag }
  else none

namespace RecordParts

/-- The reference of an out-of-line record; the outer `none` is the panic on a malformed one. -/
def extentRef (parts : RecordParts) : Option (Option ExtentRef) :=
  match parts.typeTag with
  | .stringExtent => (ExtentRef.decode parts.value).map some
  | .string | .jsonDoc => some none

end RecordParts

def IsRecord (bytes : Bytes) : Prop := ∃ parts, decodeRecord bytes = some parts ∧ parts.encodedLen = bytes.length

def keyOf (bytes : Bytes) : Option Bytes := (decodeRecord bytes).map RecordParts.key

theorem TypeTag.first_bits (kind : RecordKind) (ttl : Bool) :
    TypeTag.fromBits ((kind.typeTag.bits <<< 4 ||| ((if ttl then flagTtl else 0) ||| kind.rawFlag)) >>> 4) = some kind.typeTag ∧
      (decide ((kind.typeTag.bits <<< 4 ||| ((if ttl then flagTtl else 0) ||| kind.rawFlag)) &&& flagTtl ≠ 0)) = ttl := by
  cases ttl <;> rcases kind with raw | _ | _
  all_goals first
    | (cases raw <;> decide)
    | decide

namespace RecordSpec

variable {spec : RecordSpec} {bytes : Bytes}

theorem write_eq (h : spec.write = some bytes) :
    spec.Fits ∧ bytes = spec.header ++ (spec.ttlExt ++ (spec.key ++ spec.value)) := by
  rw [write] at h
  split at h
  next hfits => exact ⟨hfits, (some.inj h).symm⟩
  · simp at h

theorem ttlExt_length : spec.ttlExt.length = if spec.expireAtMs.isSome then ttlExtLen else 0 := by
  rw [ttlExt]
  cases spec.expireAtMs with
  | none => rfl
  | some ms => exact leBytes_length _ _

theorem header_length : spec.header.length = headerLen := by
  rw [header, length_cons, length_cons, length_append, leBytes_length, leBytes_length]
  rfl

/-- The fields of the header, with anything after it. -/
private theorem header_fields (hfits : spec.Fits) (rest : Bytes) :
    hasTtl (spec.header ++ rest) = spec.expireAtMs.isSome ∧ klen (spec.header ++ rest) = spec.key.length ∧
      vlen (spec.header ++ rest) = spec.value.length ∧ versionOf (spec.header ++ rest) = spec.version % 2 ^ 24 := by
  obtain ⟨hkey, hvalue, -⟩ := hfits
  refine ⟨?_, ?_, ?_, ?_⟩
  · exact (TypeTag.first_bits spec.kind spec.expireAtMs.isSome).2
  · have hbyte : spec.key.length < 256 := Nat.lt_succ_of_le hkey
    change (UInt8.ofNat spec.key.length).toNat = _
    rw [UInt8.toNat_ofNat']
    exact Nat.mod_eq_of_lt hbyte
  · have hdrop : (spec.header ++ rest).drop 2 =
        leBytes 3 spec.value.length ++ (leBytes 3 (spec.version % 2 ^ 24) ++ rest) := by
      simp [header]
    rw [vlen, hdrop, take_left' (leBytes_length _ _)]
    apply leValue_leBytes
    rw [maxValLen] at hvalue
    omega
  · have hdrop : (spec.header ++ rest).drop 5 = leBytes 3 (spec.version % 2 ^ 24) ++ rest := by
      have hsplit : spec.header ++ rest =
          ((spec.kind.typeTag.bits <<< 4 ||| spec.flags) :: UInt8.ofNat spec.key.length :: leBytes 3 spec.value.length) ++
            (leBytes 3 (spec.version % 2 ^ 24) ++ rest) := by
        simp [header]
      rw [hsplit]
      apply drop_left'
      rw [length_cons, length_cons, leBytes_length]
    rw [versionOf, hdrop, take_left' (leBytes_length _ _)]
    apply leValue_leBytes
    omega

theorem decodeRecord_write (h : spec.write = some bytes) :
    decodeRecord bytes = some ⟨spec.key, spec.value, spec.version % 2 ^ 24, bytes.length, spec.kind.typeTag⟩ := by
  obtain ⟨hfits, rfl⟩ := write_eq h
  obtain ⟨httl, hklen, hvlen, hversion⟩ := header_fields hfits (spec.ttlExt ++ (spec.key ++ spec.value))
  have hlen : encodedLenFromHeader (spec.header ++ (spec.ttlExt ++ (spec.key ++ spec.value))) =
      (spec.header ++ (spec.ttlExt ++ (spec.key ++ spec.value))).length := by
    rw [encodedLenFromHeader, keyAt, httl, hklen, hvlen, length_append, header_length, length_append, ttlExt_length,
      length_append]
    omega
  have hkeyAt : keyAt (spec.header ++ (spec.ttlExt ++ (spec.key ++ spec.value))) = (spec.header ++ spec.ttlExt).length := by
    rw [keyAt, httl, length_append, header_length, ttlExt_length]
  have hkey : (spec.header ++ (spec.ttlExt ++ (spec.key ++ spec.value))).drop (spec.header ++ spec.ttlExt).length =
      spec.key ++ spec.value := by
    rw [← append_assoc]
    exact drop_left
  have hvalue : (spec.header ++ (spec.ttlExt ++ (spec.key ++ spec.value))).drop
      ((spec.header ++ spec.ttlExt).length + spec.key.length) = spec.value := by
    rw [← drop_drop, hkey]
    exact drop_left
  have htag := (TypeTag.first_bits spec.kind spec.expireAtMs.isSome).1
  have hhead : (spec.header ++ (spec.ttlExt ++ (spec.key ++ spec.value))).head? =
      some (spec.kind.typeTag.bits <<< 4 ||| spec.flags) := rfl
  rw [decodeRecord, hhead, bind_eq_bind, bind_some, flags, htag, bind_eq_bind, bind_some,
    hlen, if_pos (Nat.le_refl _), hkeyAt, hklen, hvlen, hversion, hkey, hvalue, take_left, take_length]

theorem isRecord_write (h : spec.write = some bytes) : IsRecord bytes :=
  ⟨_, decodeRecord_write h, rfl⟩

theorem keyOf_write (h : spec.write = some bytes) : keyOf bytes = some spec.key := by
  rw [keyOf, decodeRecord_write h]
  rfl

end RecordSpec

/-- A record is as long as its header says, and its header alone says so. -/
theorem IsRecord.length {bytes : Bytes} (h : IsRecord bytes) :
    encodedLenFromHeader bytes = bytes.length ∧ headerLen ≤ bytes.length := by
  obtain ⟨parts, hparts, hlen⟩ := h
  rw [decodeRecord] at hparts
  obtain ⟨first, -, hparts⟩ := bind_eq_some_iff.mp hparts
  obtain ⟨tag, -, hparts⟩ := bind_eq_some_iff.mp hparts
  split at hparts
  · rw [← some.inj hparts] at hlen
    refine ⟨hlen, ?_⟩
    rw [← hlen]
    change headerLen ≤ keyAt bytes + klen bytes + vlen bytes
    rw [keyAt]
    omega
  · simp at hparts

theorem encodedLenFromHeader_take {bytes : Bytes} (h : headerLen ≤ bytes.length) :
    encodedLenFromHeader (bytes.take headerLen) = encodedLenFromHeader bytes := by
  match bytes, h with
  | b₀ :: b₁ :: b₂ :: b₃ :: b₄ :: b₅ :: b₆ :: b₇ :: rest, _ => rfl

end InfinityDB.Tiered
