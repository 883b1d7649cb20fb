import InfinityDB.Lib.Cursor
import InfinityDB.Lib.Varint

/-!
# Log records

A record is the length of its body, then the body: type, flags, namespace and what the type carries.
Replay and the length accounting rest on one encoding for each record, so the decoder refuses every
other spelling. A slice that the source takes by index is in range where it stands, after the read
that needed those bytes.
-/

namespace InfinityDB.Log

open Lib List

/-- Identity of a document's incarnation; zero is never one. -/
structure DocLineage where
  raw : UInt64
  pos : raw ≠ 0
deriving DecidableEq

inductive RecordType where
  | stringPostImage
  | delete
  | expireAt
  | nsOp
  | ckptBegin
  | docDelta
  | docFull
  | coldDisplace
  | stringExtentRef
deriving DecidableEq, Repr

def RecordType.toU8 : RecordType → UInt8
  | stringPostImage => 1
  | delete => 2
  | expireAt => 3
  | nsOp => 4
  | ckptBegin => 5
  | docDelta => 6
  | docFull => 7
  | coldDisplace => 8
  | stringExtentRef => 9

def RecordType.fromU8 (tag : UInt8) : Option RecordType :=
  if tag = 1 then some .stringPostImage
  else if tag = 2 then some .delete
  else if tag = 3 then some .expireAt
  else if tag = 4 then some .nsOp
  else if tag = 5 then some .ckptBegin
  else if tag = 6 then some .docDelta
  else if tag = 7 then some .docFull
  else if tag = 8 then some .coldDisplace
  else if tag = 9 then some .stringExtentRef
  else none

def recordFlagsV1 : UInt8 := 0

inductive RecordView where
  | stringPostImage (ns : UInt32) (key value : List UInt8)
  | delete (ns : UInt32) (key : List UInt8)
  | expireAt (ns : UInt32) (atUnixMs : UInt64) (key : List UInt8)
  | nsOp (ns : UInt32) (payload : List UInt8)
  | ckptBegin (ns : UInt32) (ckptId : UInt64)
  | docDelta (ns : UInt32) (key : List UInt8) (lineage : DocLineage) (baseVersion matchCount postLen : UInt32) (opcode : UInt8)
      (program operand : List UInt8)
  | docFull (ns : UInt32) (key : List UInt8) (lineage : DocLineage) (version : UInt32) (idoc : List UInt8)
  | coldDisplace (ns : UInt32) (oldAddr : UInt64)
  | stringExtentRef (ns : UInt32) (key : List UInt8) (extentId offset len : UInt64)
deriving DecidableEq

namespace RecordView

def recordType : RecordView → RecordType
  | stringPostImage .. => .stringPostImage
  | delete .. => .delete
  | expireAt .. => .expireAt
  | nsOp .. => .nsOp
  | ckptBegin .. => .ckptBegin
  | docDelta .. => .docDelta
  | docFull .. => .docFull
  | coldDisplace .. => .coldDisplace
  | stringExtentRef .. => .stringExtentRef

def ns : RecordView → UInt32
  | stringPostImage ns _ _ | delete ns _ | expireAt ns _ _ | nsOp ns _ | ckptBegin ns _ | docDelta ns _ _ _ _ _ _ _ _
  | docFull ns _ _ _ _ | coldDisplace ns _ | stringExtentRef ns _ _ _ _ => ns

end RecordView

/-- Bytes of the varint of a number, from its bit length. -/
def varintLen (v : Nat) : Nat := if v = 0 then 1 else (Nat.log2 v + 1 + 6) / 7

def lenBytes (bytes : List UInt8) : List UInt8 := encodeVarint (UInt64.ofNat bytes.length)

namespace RecordView

def bodyLen (view : RecordView) : Nat :=
  2 + match view with
  | stringPostImage ns key value => varintLen ns.toNat + varintLen key.length + key.length + value.length
  | delete ns key => varintLen ns.toNat + key.length
  | expireAt ns atUnixMs key => varintLen ns.toNat + varintLen atUnixMs.toNat + key.length
  | nsOp ns payload => varintLen ns.toNat + payload.length
  | ckptBegin ns ckptId => varintLen ns.toNat + varintLen ckptId.toNat
  | docDelta ns key _ _ _ _ _ program operand =>
    varintLen ns.toNat + varintLen key.length + key.length + 8 + 3 + 4 + 3 + 1 + varintLen program.length + program.length + operand.length
  | docFull ns key _ _ idoc => varintLen ns.toNat + varintLen key.length + key.length + 8 + 3 + idoc.length
  | coldDisplace ns _ => varintLen ns.toNat + 6
  | stringExtentRef ns key _ _ _ => varintLen ns.toNat + varintLen key.length + key.length + 24

def encodedLen (view : RecordView) : Nat := varintLen view.bodyLen + view.bodyLen

def payload : RecordView → List UInt8
  | stringPostImage _ key value => lenBytes key ++ (key ++ value)
  | delete _ key => key
  | expireAt _ atUnixMs key => encodeVarint atUnixMs ++ key
  | nsOp _ payload => payload
  | ckptBegin _ ckptId => encodeVarint ckptId
  | docDelta _ key lineage baseVersion matchCount postLen opcode program operand =>
    lenBytes key ++ (key ++ (u64Bytes lineage.raw ++ (leBytes 3 baseVersion.toNat ++ (u32Bytes matchCount ++ (leBytes 3 postLen.toNat ++
      (opcode :: (lenBytes program ++ (program ++ operand))))))))
  | docFull _ key lineage version idoc => lenBytes key ++ (key ++ (u64Bytes lineage.raw ++ (leBytes 3 version.toNat ++ idoc)))
  | coldDisplace _ oldAddr => leBytes 6 oldAddr.toNat
  | stringExtentRef _ key extentId offset len => lenBytes key ++ (key ++ (u64Bytes extentId ++ (u64Bytes offset ++ u64Bytes len)))

def body (view : RecordView) : List UInt8 :=
  view.recordType.toU8 :: recordFlagsV1 :: (encodeVarint view.ns.toUInt64 ++ view.payload)

def encodeInto (view : RecordView) : List UInt8 := encodeVarint (UInt64.ofNat view.bodyLen) ++ view.body

/-- The widths and bounds that the encoder asserts. -/
def Bounds : RecordView → Prop
  | docDelta _ _ _ baseVersion matchCount postLen _ _ _ =>
    baseVersion.toNat < 2 ^ 24 ∧ matchCount ≠ 0 ∧ postLen ≠ 0 ∧ postLen.toNat < 2 ^ 24
  | docFull _ _ _ version _ => version.toNat < 2 ^ 24
  | coldDisplace _ oldAddr => oldAddr.toNat < 2 ^ 48
  | stringExtentRef _ _ _ _ len => len ≠ 0
  | _ => True

/-- The ranges that the encoder states: asserted bounds, and a record in the address space. -/
def Fits (view : RecordView) : Prop := view.encodedLen < 2 ^ 64 ∧ view.Bounds

end RecordView

inductive RecordDecodeError where
  | truncated
  | varint
  | unknownType (tag : UInt8)
  | unknownFlags (bits : UInt8)
  | nsOutOfRange (ns : UInt64)
  | keyOverrun
  | programOverrun
  | invalidDocLineage
  | invalidDocBounds
  | invalidExtentBounds
  | trailingBytes
deriving DecidableEq, Repr

abbrev Reads (α : Type) := Except RecordDecodeError α

def readVarint (buf : List UInt8) : Reads (UInt64 × Nat) :=
  match decodeVarint buf with
  | some r => .ok r
  | none => .error (if buf = [] then .truncated else .varint)

/-- A slice of so many bytes at a position, within the address space. -/
def slice (error : RecordDecodeError) (buf : List UInt8) (start len : Nat) : Reads (List UInt8) :=
  if 2 ^ 64 ≤ start + len then .error error
  else match region buf start len with
    | some bytes => .ok bytes
    | none => .error error

/-- A part with its length in front, and what follows it. -/
def readCounted (error : RecordDecodeError) (buf : List UInt8) : Reads (List UInt8 × List UInt8) := do
  let (len, used) ← readVarint buf
  let bytes ← slice error buf used len.toNat
  .ok (bytes, buf.drop (used + len.toNat))

def decodeKey (payload : List UInt8) : Reads (List UInt8 × List UInt8) := readCounted .keyOverrun payload

def decodeU24 (bytes : List UInt8) : Reads UInt32 :=
  if 3 ≤ bytes.length then .ok (UInt32.ofNat (fieldAt bytes 0 3)) else .error .truncated

def decodeDocLineage (bytes : List UInt8) : Reads DocLineage :=
  if 8 ≤ bytes.length then
    if h : u64At bytes 0 ≠ 0 then .ok ⟨u64At bytes 0, h⟩ else .error .invalidDocLineage
  else .error .truncated

def decodeDocDelta (ns : UInt32) (payload : List UInt8) : Reads RecordView := do
  let (key, rest) ← decodeKey payload
  let lineage ← decodeDocLineage rest
  let version ← decodeU24 (rest.drop 8)
  if rest.length < 15 then .error .truncated
  else
    let matchCount := u32At rest 11
    let postLen ← decodeU24 (rest.drop 15)
    if matchCount = 0 ∨ postLen = 0 then .error .invalidDocBounds
    else match rest[18]? with
      | none => .error .truncated
      | some opcode => do
        let (program, operand) ← readCounted .programOverrun (rest.drop 19)
        .ok (.docDelta ns key lineage version matchCount postLen opcode program operand)

def decodeDocFull (ns : UInt32) (payload : List UInt8) : Reads RecordView := do
  let (key, rest) ← decodeKey payload
  let lineage ← decodeDocLineage rest
  let version ← decodeU24 (rest.drop 8)
  .ok (.docFull ns key lineage version (rest.drop 11))

/-- The check of a payload of fixed width. -/
def exactly (n : Nat) (bytes : List UInt8) : Reads Unit :=
  if bytes.length ≠ n then .error (if bytes.length < n then .truncated else .trailingBytes) else .ok ()

def decodeStringExtentRef (ns : UInt32) (payload : List UInt8) : Reads RecordView := do
  let (key, rest) ← decodeKey payload
  exactly 24 rest
  if u64At rest 16 = 0 then .error .invalidExtentBounds
  else .ok (.stringExtentRef ns key (u64At rest 0) (u64At rest 8) (u64At rest 16))

def decodePayload (ns : UInt32) (payload : List UInt8) : RecordType → Reads RecordView
  | .stringPostImage => do
    let (key, value) ← decodeKey payload
    .ok (.stringPostImage ns key value)
  | .delete => .ok (.delete ns payload)
  | .expireAt => do
    let (atUnixMs, used) ← readVarint payload
    .ok (.expireAt ns atUnixMs (payload.drop used))
  | .nsOp => .ok (.nsOp ns payload)
  | .ckptBegin => do
    let (ckptId, used) ← readVarint payload
    if used ≠ payload.length then .error .trailingBytes else .ok (.ckptBegin ns ckptId)
  | .docDelta => decodeDocDelta ns payload
  | .docFull => decodeDocFull ns payload
  | .coldDisplace => do
    exactly 6 payload
    .ok (.coldDisplace ns (UInt64.ofNat (fieldAt payload 0 6)))
  | .stringExtentRef => decodeStringExtentRef ns payload

def decodeBody : List UInt8 → Reads RecordView
  | tag :: flags :: fields =>
    match RecordType.fromU8 tag with
    | none => .error (.unknownType tag)
    | some recordType =>
      if flags ≠ recordFlagsV1 then .error (.unknownFlags flags)
      else do
        let (nsRaw, used) ← readVarint fields
        if 2 ^ 32 ≤ nsRaw.toNat then .error (.nsOutOfRange nsRaw)
        else decodePayload (UInt32.ofNat nsRaw.toNat) (fields.drop used) recordType
  | _ => .error .truncated

def decodeRecord (buf : List UInt8) : Reads (RecordView × Nat) := do
  let (bodyLen, used) ← readVarint buf
  let body ← slice .truncated buf used bodyLen.toNat
  let view ← decodeBody body
  .ok (view, used + bodyLen.toNat)

theorem varintGroups_length_eq {more v : Nat} (h : v < 2 * 128 ^ more) : (varintGroups more v).length = varintLen v := by
  have hsmall {v : Nat} (hlt : v < 128) : varintLen v = 1 := by
    rw [varintLen]
    split
    · rfl
    next hne =>
      have hlog : Nat.log2 v < 7 := (Nat.log2_lt hne).mpr hlt
      omega
  induction more generalizing v with
  | zero =>
    rw [varintGroups, hsmall (by omega)]
    rfl
  | succ more ih =>
    rw [varintGroups]
    split
    next hlt =>
      rw [hsmall hlt]
      rfl
    rename_i hge
    have hhigh : v / 128 < 2 * 128 ^ more := by
      rw [Nat.div_lt_iff_lt_mul (by decide), mul_assoc, ← pow_succ]
      exact h
    have hlog : Nat.log2 v = Nat.log2 (v / 128) + 7 := by
      rw [Nat.log2_eq_log_two, Nat.log2_eq_log_two, show 128 = 2 ^ 7 from rfl, Nat.log_div_base_pow]
      have : 7 ≤ Nat.log 2 v := Nat.le_log_of_pow_le (by decide) (by omega)
      omega
    rw [length_cons, ih hhigh, varintLen, varintLen, if_neg (by omega), if_neg (by omega), hlog]
    omega

theorem encodeVarint_length_eq {v : Nat} (h : v < 2 ^ 64) : (encodeVarint (UInt64.ofNat v)).length = varintLen v := by
  rw [encodeVarint, UInt64.toNat_ofNat_of_lt' h]
  exact varintGroups_length_eq (by omega)

theorem encodeVarint_toNat_length (v : UInt64) : (encodeVarint v).length = varintLen v.toNat := by
  have := encodeVarint_length_eq v.toNat_lt
  rwa [UInt64.ofNat_toNat] at this

theorem readVarint_append (v : UInt64) (t : List UInt8) : readVarint (encodeVarint v ++ t) = .ok (v, (encodeVarint v).length) := by
  rw [readVarint, decodeVarint_encodeVarint]

variable {buf k t bytes : List UInt8} {error : RecordDecodeError} {view : RecordView} {ns : UInt32}

theorem of_readVarint {v : UInt64} {used : Nat} (h : readVarint buf = .ok (v, used)) :
    buf = encodeVarint v ++ buf.drop used ∧ used = (encodeVarint v).length := by
  rw [readVarint] at h
  split at h
  next r hr =>
    rw [Except.ok.injEq] at h
    rw [h] at hr
    obtain ⟨t, rfl, rfl⟩ := encodeVarint_of_decodeVarint hr
    exact ⟨by rw [drop_left], rfl⟩
  · simp at h

theorem slice_of_drop {start : Nat} (hstart : start ≤ buf.length)
    (hfits : start + k.length < 2 ^ 64) (h : buf.drop start = k ++ t) : slice error buf start k.length = .ok k := by
  rw [slice, if_neg (Nat.not_le.mpr hfits), region_of_drop hstart h]

theorem of_slice {start len : Nat} (h : slice error buf start len = .ok k) :
    buf.drop start = k ++ buf.drop (start + len) ∧ k.length = len ∧ start + len ≤ buf.length ∧ start + len < 2 ^ 64 := by
  rw [slice] at h
  obtain ⟨hfits, h⟩ := guard_ok h
  split at h
  next hregion =>
    rw [Except.ok.injEq] at h
    obtain ⟨hdrop, hlen, hle⟩ := drop_of_region (h ▸ hregion)
    exact ⟨hdrop, hlen, hle, Nat.not_le.mp hfits⟩
  · simp at h

theorem readCounted_append (h : (lenBytes k).length + k.length < 2 ^ 64) :
    readCounted error (lenBytes k ++ (k ++ t)) = .ok (k, t) := by
  have hlen : (UInt64.ofNat k.length).toNat = k.length := UInt64.toNat_ofNat_of_lt' (show k.length < 2 ^ 64 by omega)
  have hdrop : (lenBytes k ++ (k ++ t)).drop (lenBytes k).length = k ++ t := drop_left
  have hslice : slice error (lenBytes k ++ (k ++ t)) (lenBytes k).length k.length = .ok k :=
    slice_of_drop (by rw [length_append]; omega) h hdrop
  rw [readCounted, lenBytes, readVarint_append]
  simp only [except_ok_bind, hlen]
  rw [← lenBytes, hslice, except_ok_bind, drop_add_of_drop hdrop]

theorem of_readCounted (h : readCounted error buf = .ok (k, t)) : buf = lenBytes k ++ (k ++ t) := by
  rw [readCounted] at h
  obtain ⟨⟨len, used⟩, hvarint, h⟩ := except_bind_ok h
  obtain ⟨bytes, hslice, h⟩ := except_bind_ok h
  rw [Except.ok.injEq, Prod.mk.injEq] at h
  obtain ⟨rfl, rfl⟩ := h
  obtain ⟨hbuf, -⟩ := of_readVarint hvarint
  obtain ⟨hdrop, hlen, -, -⟩ := of_slice hslice
  have hback : UInt64.ofNat bytes.length = len := by rw [hlen, UInt64.ofNat_toNat]
  rw [lenBytes, hback, ← hdrop]
  exact hbuf

theorem decodeU24_append {v : UInt32} (h : v.toNat < 2 ^ 24) (t : List UInt8) : decodeU24 (leBytes 3 v.toNat ++ t) = .ok v := by
  have hfield : fieldAt (leBytes 3 v.toNat ++ t) 0 3 = v.toNat := fieldAt_of_drop h rfl
  rw [decodeU24, if_pos (by simp), hfield, UInt32.ofNat_toNat]

theorem of_decodeU24 {v : UInt32} (h : decodeU24 bytes = .ok v) :
    bytes = leBytes 3 v.toNat ++ bytes.drop 3 ∧ v.toNat < 2 ^ 24 := by
  rw [decodeU24] at h
  obtain ⟨hlen, h⟩ := check_ok h
  rw [Except.ok.injEq] at h
  have hlt := fieldAt_lt bytes 0 3
  have hback : v.toNat = fieldAt bytes 0 3 := by
    rw [← h]
    exact UInt32.toNat_ofNat_of_lt' (hlt.trans (by decide))
  rw [hback]
  exact ⟨@drop_fieldAt bytes 0 3 (by omega), hlt⟩

theorem decodeDocLineage_append (lineage : DocLineage) (t : List UInt8) : decodeDocLineage (u64Bytes lineage.raw ++ t) = .ok lineage := by
  have hfield : u64At (u64Bytes lineage.raw ++ t) 0 = lineage.raw := u64At_of_drop rfl
  simp only [decodeDocLineage, hfield]
  rw [if_pos (by simp), dif_pos lineage.pos]

theorem of_decodeDocLineage {lineage : DocLineage} (h : decodeDocLineage bytes = .ok lineage) :
    bytes = u64Bytes lineage.raw ++ bytes.drop 8 := by
  rw [decodeDocLineage] at h
  obtain ⟨hlen, h⟩ := check_ok h
  split at h
  · rw [Except.ok.injEq] at h
    rw [← h]
    exact @drop_u64At bytes 0 (by omega)
  · simp at h

theorem exactly_eq_ok {n : Nat} : exactly n bytes = .ok () ↔ bytes.length = n := by
  rw [exactly]
  split
  next hne => exact ⟨fun h => absurd h (by simp), fun h => absurd h hne⟩
  next heq => exact ⟨fun _ => not_not.mp heq, fun _ => rfl⟩

theorem RecordType.fromU8_toU8 (recordType : RecordType) : RecordType.fromU8 recordType.toU8 = some recordType := by
  cases recordType <;> rfl

theorem RecordType.toU8_of_fromU8 {tag : UInt8} {recordType : RecordType} (h : RecordType.fromU8 tag = some recordType) :
    recordType.toU8 = tag := by
  simp only [RecordType.fromU8] at h
  split_ifs at h with h₁ h₂ h₃ h₄ h₅ h₆ h₇ h₈ h₉ <;> rw [Option.some.injEq] at h <;> subst h <;> exact Eq.symm ‹_›

def RecordView.counted : RecordView → List (List UInt8)
  | stringPostImage _ key _ | docFull _ key _ _ _ | stringExtentRef _ key _ _ _ => [key]
  | docDelta _ key _ _ _ _ _ program _ => [key, program]
  | _ => []

theorem lenBytes_length (h : bytes.length < 2 ^ 64) : (lenBytes bytes).length = varintLen bytes.length :=
  encodeVarint_length_eq h

/-- The parts of a body add up to its length. -/
theorem RecordView.body_length_eq (h : ∀ part ∈ view.counted, part.length < 2 ^ 64) :
    view.body.length = view.bodyLen := by
  have hns : (encodeVarint view.ns.toUInt64).length = varintLen view.ns.toNat := by
    rw [encodeVarint_toNat_length, UInt32.toNat_toUInt64]
  rw [body, length_cons, length_cons, length_append, hns]
  cases view <;> simp only [counted, forall_mem_cons] at h <;> simp only [bodyLen, RecordView.ns, payload, length_append,
    length_cons, encodeVarint_toNat_length, u64Bytes_length, u32Bytes_length, leBytes_length]
  case delete | nsOp | expireAt | ckptBegin | coldDisplace => omega
  case stringPostImage | docFull | stringExtentRef =>
    rw [lenBytes_length h.1]
    omega
  case docDelta =>
    rw [lenBytes_length h.1, lenBytes_length h.2.1]
    omega

theorem RecordView.counted_lt_bodyLen : ∀ part ∈ view.counted, part.length < view.bodyLen := by
  intro part hpart
  cases view <;> simp only [counted, mem_cons, not_mem_nil, or_false] at hpart
  case stringPostImage | docFull | stringExtentRef =>
    rw [hpart, bodyLen]
    omega
  case docDelta =>
    rcases hpart with rfl | rfl <;> rw [bodyLen] <;> omega

theorem RecordView.counted_lt_body : ∀ part ∈ view.counted, part.length < view.body.length := by
  intro part hpart
  rw [body]
  cases view <;> simp only [counted, mem_cons, not_mem_nil, or_false] at hpart
  case stringPostImage | docFull | stringExtentRef =>
    rw [hpart]
    simp only [payload, length_cons, length_append]
    omega
  case docDelta =>
    rcases hpart with rfl | rfl <;> simp only [payload, length_cons, length_append] <;> omega

theorem RecordView.body_length (h : view.bodyLen < 2 ^ 64) : view.body.length = view.bodyLen :=
  body_length_eq fun part hpart => (counted_lt_bodyLen part hpart).trans h

private theorem counted_lt {bodyLen : Nat} (hle : varintLen bytes.length + bytes.length ≤ bodyLen) (h : bodyLen < 2 ^ 64) :
    (lenBytes bytes).length + bytes.length < 2 ^ 64 := by
  rw [lenBytes, encodeVarint_length_eq (by omega)]
  omega

private theorem decodeDocDelta_payload {key program operand : List UInt8} {lineage : DocLineage} {version matchCount postLen : UInt32}
    {opcode : UInt8} (hkey : (lenBytes key).length + key.length < 2 ^ 64) (hprogram : (lenBytes program).length + program.length < 2 ^ 64)
    (hversion : version.toNat < 2 ^ 24) (hcount : matchCount ≠ 0) (hpost : postLen ≠ 0) (hpostLt : postLen.toNat < 2 ^ 24) :
    decodeDocDelta ns (RecordView.docDelta ns key lineage version matchCount postLen opcode program operand).payload =
      .ok (.docDelta ns key lineage version matchCount postLen opcode program operand) := by
  rw [RecordView.payload, decodeDocDelta, decodeKey, readCounted_append hkey]
  simp only [except_ok_bind]
  set rest := u64Bytes lineage.raw ++ (leBytes 3 version.toNat ++ (u32Bytes matchCount ++ (leBytes 3 postLen.toNat ++
    (opcode :: (lenBytes program ++ (program ++ operand)))))) with hrest
  have h8 : rest.drop 8 = _ := drop_left' (u64Bytes_length _)
  have h11 : rest.drop 11 = _ := drop_past h8 (leBytes_length _ _)
  have h15 : rest.drop 15 = _ := drop_past h11 (u32Bytes_length _)
  have h18 : rest.drop 18 = _ := drop_past h15 (leBytes_length _ _)
  have h19 : rest.drop 19 = _ := drop_succ_of_drop h18
  have hlen : ¬ rest.length < 15 := by
    have := congrArg List.length h18
    rw [length_drop, length_cons] at this
    omega
  rw [hrest, decodeDocLineage_append, ← hrest, except_ok_bind, h8, decodeU24_append hversion, except_ok_bind, if_neg hlen,
    u32At_of_drop h11, h15, decodeU24_append hpostLt, except_ok_bind, if_neg (by simp [hcount, hpost]), getElem?_of_drop h18, h19]
  simp only
  rw [readCounted_append hprogram, except_ok_bind]

private theorem decodePayload_payload (hbounds : view.Bounds) (hlen : view.bodyLen < 2 ^ 64) :
    decodePayload view.ns view.payload view.recordType = .ok view := by
  cases view with
  | stringPostImage ns key value =>
    have hkey : (lenBytes key).length + key.length < 2 ^ 64 := counted_lt (by rw [RecordView.bodyLen]; omega) hlen
    simp only [RecordView.recordType, decodePayload, RecordView.payload, decodeKey, readCounted_append hkey, except_ok_bind, RecordView.ns]
  | delete ns key | nsOp ns payload => rfl
  | expireAt ns atUnixMs key =>
    simp only [RecordView.recordType, decodePayload, RecordView.payload, readVarint_append, except_ok_bind, drop_left, RecordView.ns]
  | ckptBegin ns ckptId =>
    have hread := readVarint_append ckptId []
    rw [append_nil] at hread
    simp only [RecordView.recordType, decodePayload, RecordView.payload, hread, except_ok_bind, ne_eq, not_true_eq_false, if_false,
      RecordView.ns]
  | docDelta ns key lineage version matchCount postLen opcode program operand =>
    obtain ⟨hversion, hcount, hpost, hpostLt⟩ := hbounds
    have hkey : (lenBytes key).length + key.length < 2 ^ 64 := counted_lt (by rw [RecordView.bodyLen]; omega) hlen
    have hprogram : (lenBytes program).length + program.length < 2 ^ 64 := counted_lt (by rw [RecordView.bodyLen]; omega) hlen
    exact decodeDocDelta_payload hkey hprogram hversion hcount hpost hpostLt
  | docFull ns key lineage version idoc =>
    have hkey : (lenBytes key).length + key.length < 2 ^ 64 := counted_lt (by rw [RecordView.bodyLen]; omega) hlen
    have h8 : (u64Bytes lineage.raw ++ (leBytes 3 version.toNat ++ idoc)).drop 8 = _ := drop_left' (u64Bytes_length _)
    have h11 : (u64Bytes lineage.raw ++ (leBytes 3 version.toNat ++ idoc)).drop 11 = _ := drop_past h8 (leBytes_length _ _)
    simp only [RecordView.recordType, decodePayload, decodeDocFull, RecordView.payload, decodeKey, readCounted_append hkey, except_ok_bind,
      decodeDocLineage_append, h8, h11, decodeU24_append hbounds, RecordView.ns]
  | coldDisplace ns oldAddr =>
    have hfield : fieldAt (leBytes 6 oldAddr.toNat) 0 6 = oldAddr.toNat := fieldAt_of_drop hbounds (append_nil _).symm
    simp only [RecordView.recordType, decodePayload, RecordView.payload, exactly_eq_ok.mpr (leBytes_length 6 _), except_ok_bind, hfield,
      UInt64.ofNat_toNat, RecordView.ns]
  | stringExtentRef ns key extentId offset len =>
    have hkey : (lenBytes key).length + key.length < 2 ^ 64 := counted_lt (by rw [RecordView.bodyLen]; omega) hlen
    have h0 : (u64Bytes extentId ++ (u64Bytes offset ++ u64Bytes len)).drop 0 =
        u64Bytes extentId ++ (u64Bytes offset ++ u64Bytes len) := rfl
    have h8 : (u64Bytes extentId ++ (u64Bytes offset ++ u64Bytes len)).drop 8 = _ := drop_past h0 (u64Bytes_length _)
    have h16 : (u64Bytes extentId ++ (u64Bytes offset ++ u64Bytes len)).drop 16 = u64Bytes len ++ [] :=
      (drop_past h8 (u64Bytes_length _)).trans (append_nil _).symm
    simp only [RecordView.recordType, decodePayload, decodeStringExtentRef, RecordView.payload, decodeKey, readCounted_append hkey,
      except_ok_bind, exactly_eq_ok.mpr (show (u64Bytes extentId ++ (u64Bytes offset ++ u64Bytes len)).length = 24 by simp),
      u64At_of_drop h0, u64At_of_drop h8, u64At_of_drop h16, RecordView.ns]
    exact if_neg hbounds

/-- What a decoded payload says about the record. -/
def ReadAs (ns : UInt32) (payload : List UInt8) (recordType : RecordType) (view : RecordView) : Prop :=
  view.recordType = recordType ∧ view.ns = ns ∧ view.payload = payload ∧ view.Bounds

private theorem of_decodeDocDelta {payload : List UInt8} (h : decodeDocDelta ns payload = .ok view) :
    ReadAs ns payload .docDelta view := by
  rw [decodeDocDelta] at h
  obtain ⟨⟨key, rest⟩, hkey, h⟩ := except_bind_ok h
  obtain ⟨lineage, hlineage, h⟩ := except_bind_ok h
  obtain ⟨version, hversion, h⟩ := except_bind_ok h
  simp only at h
  obtain ⟨hlen, h⟩ := guard_ok h
  obtain ⟨postLen, hpostLen, h⟩ := except_bind_ok h
  obtain ⟨hnonzero, h⟩ := guard_ok h
  split at h
  · simp at h
  rename_i opcode hopcode
  obtain ⟨⟨program, operand⟩, hprogram, h⟩ := except_bind_ok h
  rw [Except.ok.injEq] at h
  subst h
  obtain ⟨hversionBytes, hversionLt⟩ := of_decodeU24 hversion
  obtain ⟨hpostBytes, hpostLt⟩ := of_decodeU24 hpostLen
  have hcountBytes := @drop_u32At rest 11 (by omega)
  rw [drop_drop] at hversionBytes hpostBytes
  obtain ⟨hcount, hpost⟩ := not_or.mp hnonzero
  refine ⟨rfl, rfl, ?_, hversionLt, hcount, hpost, hpostLt⟩
  rw [RecordView.payload, ← of_readCounted hprogram, ← drop_of_getElem? hopcode, ← hpostBytes, ← hcountBytes, ← hversionBytes,
    ← of_decodeDocLineage hlineage]
  exact (of_readCounted hkey).symm

private theorem of_decodePayload {payload : List UInt8} {recordType : RecordType}
    (h : decodePayload ns payload recordType = .ok view) : ReadAs ns payload recordType view := by
  cases recordType with
  | stringPostImage =>
    obtain ⟨⟨key, value⟩, hkey, h⟩ := except_bind_ok h
    rw [Except.ok.injEq] at h
    subst h
    exact ⟨rfl, rfl, (of_readCounted hkey).symm, trivial⟩
  | delete | nsOp =>
    rw [decodePayload, Except.ok.injEq] at h
    subst h
    exact ⟨rfl, rfl, rfl, trivial⟩
  | expireAt =>
    obtain ⟨⟨atUnixMs, used⟩, hvarint, h⟩ := except_bind_ok h
    rw [Except.ok.injEq] at h
    subst h
    exact ⟨rfl, rfl, (of_readVarint hvarint).1.symm, trivial⟩
  | ckptBegin =>
    obtain ⟨⟨ckptId, used⟩, hvarint, h⟩ := except_bind_ok h
    simp only at h
    obtain ⟨hused, h⟩ := guard_ok h
    rw [Except.ok.injEq] at h
    subst h
    obtain ⟨hpayload, -⟩ := of_readVarint hvarint
    rw [not_not.mp hused, drop_length, append_nil] at hpayload
    exact ⟨rfl, rfl, hpayload.symm, trivial⟩
  | docDelta => exact of_decodeDocDelta h
  | docFull =>
    obtain ⟨⟨key, rest⟩, hkey, h⟩ := except_bind_ok h
    obtain ⟨lineage, hlineage, h⟩ := except_bind_ok h
    obtain ⟨version, hversion, h⟩ := except_bind_ok h
    rw [Except.ok.injEq] at h
    subst h
    obtain ⟨hbytes, hlt⟩ := of_decodeU24 hversion
    rw [drop_drop] at hbytes
    refine ⟨rfl, rfl, ?_, hlt⟩
    rw [RecordView.payload, ← hbytes, ← of_decodeDocLineage hlineage]
    exact (of_readCounted hkey).symm
  | coldDisplace =>
    obtain ⟨⟨⟩, hlen, h⟩ := except_bind_ok h
    rw [Except.ok.injEq] at h
    subst h
    rw [exactly_eq_ok] at hlen
    have hlt := fieldAt_lt payload 0 6
    have hback : (UInt64.ofNat (fieldAt payload 0 6)).toNat = fieldAt payload 0 6 := UInt64.toNat_ofNat_of_lt' (hlt.trans (by decide))
    have hbytes := @drop_fieldAt payload 0 6 hlen.ge
    rw [drop_zero, drop_eq_nil_of_le (by omega), append_nil] at hbytes
    refine ⟨rfl, rfl, ?_, ?_⟩
    · rw [RecordView.payload, hback]
      exact hbytes.symm
    · rw [RecordView.Bounds, hback]
      exact hlt
  | stringExtentRef =>
    obtain ⟨⟨key, rest⟩, hkey, h⟩ := except_bind_ok h
    obtain ⟨⟨⟩, hlen, h⟩ := except_bind_ok h
    obtain ⟨hnonzero, h⟩ := guard_ok h
    rw [Except.ok.injEq] at h
    subst h
    rw [exactly_eq_ok] at hlen
    have h0 := @drop_u64At rest 0 (by omega)
    have h8 := @drop_u64At rest 8 (by omega)
    have h16 := @drop_u64At rest 16 (by omega)
    rw [drop_eq_nil_of_le (show rest.length ≤ 16 + 8 by omega), append_nil] at h16
    refine ⟨rfl, rfl, ?_, hnonzero⟩
    rw [RecordView.payload, ← h16, ← h8, ← h0]
    exact (of_readCounted hkey).symm

private theorem decodeBody_body (hbounds : view.Bounds) (hlen : view.bodyLen < 2 ^ 64) : decodeBody view.body = .ok view := by
  have hns : view.ns.toUInt64.toNat = view.ns.toNat := UInt32.toNat_toUInt64 _
  have hlt := view.ns.toNat_lt
  rw [RecordView.body, decodeBody, RecordType.fromU8_toU8]
  simp only [ne_eq, not_true_eq_false, if_false, readVarint_append, except_ok_bind, drop_left]
  rw [hns, if_neg (Nat.not_le.mpr hlt), UInt32.ofNat_toNat]
  exact decodePayload_payload hbounds hlen

private theorem of_decodeBody {body : List UInt8} (h : decodeBody body = .ok view) : view.body = body ∧ view.Bounds := by
  rw [decodeBody.eq_def] at h
  split at h
  next tag flags fields =>
    split at h
    · simp at h
    rename_i recordType htype
    obtain ⟨hflags, h⟩ := guard_ok h
    obtain ⟨⟨nsRaw, used⟩, hvarint, h⟩ := except_bind_ok h
    simp only at h
    obtain ⟨hns, h⟩ := guard_ok h
    obtain ⟨htag, hview, hpayload, hbounds⟩ := of_decodePayload h
    have hback : view.ns.toUInt64 = nsRaw := by
      rw [hview]
      apply UInt64.toNat_inj.mp
      rw [UInt32.toNat_toUInt64]
      exact UInt32.toNat_ofNat_of_lt' (Nat.not_le.mp hns)
    refine ⟨?_, hbounds⟩
    rw [RecordView.body, htag, RecordType.toU8_of_fromU8 htype, hback, hpayload, ← (of_readVarint hvarint).1, not_not.mp hflags]
  · simp at h

theorem RecordView.encodeInto_length (h : view.bodyLen < 2 ^ 64) : view.encodeInto.length = view.encodedLen := by
  rw [encodeInto, length_append, body_length h, encodeVarint_length_eq h, encodedLen]

theorem decodeRecord_encodeInto (h : view.Fits) (t : List UInt8) :
    decodeRecord (view.encodeInto ++ t) = .ok (view, view.encodedLen) := by
  obtain ⟨hfits, hbounds⟩ := h
  have hlen : view.bodyLen < 2 ^ 64 := by
    rw [RecordView.encodedLen] at hfits
    omega
  have hback : (UInt64.ofNat view.bodyLen).toNat = view.body.length := by
    rw [RecordView.body_length hlen]
    exact UInt64.toNat_ofNat_of_lt' hlen
  have htotal := RecordView.encodeInto_length hlen
  rw [RecordView.encodeInto, length_append] at htotal
  have hdrop : (encodeVarint (UInt64.ofNat view.bodyLen) ++ (view.body ++ t)).drop (encodeVarint (UInt64.ofNat view.bodyLen)).length =
      view.body ++ t := drop_left
  have hslice : slice .truncated (encodeVarint (UInt64.ofNat view.bodyLen) ++ (view.body ++ t))
      (encodeVarint (UInt64.ofNat view.bodyLen)).length view.body.length = .ok view.body :=
    slice_of_drop (by rw [length_append]; omega) (by omega) hdrop
  rw [RecordView.encodeInto, append_assoc, decodeRecord, readVarint_append]
  simp only [except_ok_bind, hback, hslice, decodeBody_body hbounds hlen, htotal]

theorem of_decodeRecord {n : Nat} (h : decodeRecord buf = .ok (view, n)) :
    view.Fits ∧ view.encodedLen = n ∧ buf = view.encodeInto ++ buf.drop n := by
  rw [decodeRecord] at h
  obtain ⟨⟨bodyLen, used⟩, hvarint, h⟩ := except_bind_ok h
  obtain ⟨body, hslice, h⟩ := except_bind_ok h
  obtain ⟨view', hbody, h⟩ := except_bind_ok h
  rw [Except.ok.injEq, Prod.mk.injEq] at h
  obtain ⟨rfl, rfl⟩ := h
  obtain ⟨hbuf, hused⟩ := of_readVarint hvarint
  obtain ⟨hdrop, hlen, -, hlt⟩ := of_slice hslice
  obtain ⟨rfl, hbounds⟩ := of_decodeBody hbody
  have hbodyLen : view'.body.length = view'.bodyLen :=
    RecordView.body_length_eq fun part hpart => (RecordView.counted_lt_body part hpart).trans (by omega)
  have hback : UInt64.ofNat view'.bodyLen = bodyLen := by rw [← hbodyLen, hlen, UInt64.ofNat_toNat]
  have htotal : view'.encodedLen = used + bodyLen.toNat := by
    rw [← RecordView.encodeInto_length (by omega), RecordView.encodeInto, length_append, hback, hlen, hused]
  refine ⟨⟨by omega, hbounds⟩, htotal, ?_⟩
  rw [RecordView.encodeInto, hback, append_assoc, ← hdrop]
  exact hbuf

/-- A record in the stated ranges has its exact length, and is read back from its bytes; whatever is
read is in those ranges and is written as it was. Everything else is refused. -/
theorem record_codec : (∀ view : RecordView, view.Fits → view.encodeInto.length = view.encodedLen ∧
      ∀ t, decodeRecord (view.encodeInto ++ t) = .ok (view, view.encodedLen)) ∧
    (∀ buf view n, decodeRecord buf = .ok (view, n) →
      view.Fits ∧ view.encodedLen = n ∧ n ≤ buf.length ∧ view.encodeInto = buf.take n) ∧
    ∀ buf, (∀ (view : RecordView) t, view.Fits → buf ≠ view.encodeInto ++ t) → ∃ e, decodeRecord buf = .error e := by
  have hread : ∀ buf view n, decodeRecord buf = .ok (view, n) →
      view.Fits ∧ view.encodedLen = n ∧ n ≤ buf.length ∧ view.encodeInto = buf.take n := by
    intro buf view n h
    obtain ⟨hfits, rfl, hbuf⟩ := of_decodeRecord h
    have hlen : view.encodeInto.length = view.encodedLen :=
      RecordView.encodeInto_length (Nat.lt_of_le_of_lt (Nat.le_add_left _ _) hfits.1)
    have htotal := congrArg List.length hbuf
    rw [length_append, hlen] at htotal
    refine ⟨hfits, rfl, by omega, ?_⟩
    rw [hbuf, ← hlen, take_left]
  refine ⟨fun view h => ⟨?_, decodeRecord_encodeInto h⟩, hread, fun buf hother => ?_⟩
  · exact RecordView.encodeInto_length (Nat.lt_of_le_of_lt (Nat.le_add_left _ _) h.1)
  · cases hdecode : decodeRecord buf with
    | error e => exact ⟨e, rfl⟩
    | ok r =>
      obtain ⟨hfits, -, hbuf⟩ := of_decodeRecord hdecode
      exact absurd hbuf (hother r.1 _ hfits)

def oneDelta : RecordView := .docDelta 300 [0x6B, 0x31] ⟨7, by decide⟩ 41 1 512 3 [1, 2, 3] [9]

private theorem oneDelta_fits : oneDelta.Fits := ⟨by decide, by decide, by decide, by decide, by decide⟩

theorem record_codec_delta :
    oneDelta.encodeInto.length = 32 ∧ decodeRecord (oneDelta.encodeInto ++ [0xFF]) = .ok (oneDelta, 32) := by
  obtain ⟨hlen, hread⟩ := record_codec.1 oneDelta oneDelta_fits
  exact ⟨hlen, hread [0xFF]⟩

end InfinityDB.Log
