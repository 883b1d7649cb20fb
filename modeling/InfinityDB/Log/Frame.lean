import InfinityDB.Lib.Iter
import InfinityDB.Log.Lsn
import InfinityDB.Log.Record

/-!
# Log frames

A frame is a header, the records of one iteration and a checksum; an aligned frame is filled with
zeros to the next page. The decoder takes any bytes. It checks that the frame lies in the addresses of
a segment, which is why the walk over its records can count their LSNs without overflow.

The checksum is a parameter: nothing here depends on which function it is.
-/

namespace InfinityDB.Log

open Lib List Option

/-- The LSN so many bytes further; `none` where the offset overflows. -/
def advance (lsn : Lsn) (bytes : Nat) : Option Lsn :=
  if h : lsn.offset + bytes < 2 ^ 32 then some ⟨lsn.segment, lsn.offset + bytes, h⟩ else none

def frameMagicV1 : List UInt8 := [0x49, 0x46, 0x52, 0x31]
def frameMagic : List UInt8 := [0x49, 0x46, 0x52, 0x32]
def frameMagicV3 : List UInt8 := [0x49, 0x46, 0x52, 0x33]

def frameAlign : Nat := 4096
def frameHeaderLenV1 : Nat := 20
def frameHeaderLen : Nat := 40
def frameTrailerLen : Nat := 4
def minFrameLenV1 : Nat := 28
def minFrameLen : Nat := 48
def defaultMaxFrameLen : Nat := 64 * 2 ^ 20

structure FrameStamp where
  epoch : UInt32
  seq : UInt64
  coveredLsn : UInt64
deriving DecidableEq, Repr

/-- The next multiple of the page in 32 bits. -/
def nextMultiple (len : Nat) : Option Nat :=
  let padded := (len + (frameAlign - 1)) / frameAlign * frameAlign
  if padded < 2 ^ 32 then some padded else none

def alignUpFrame (len : Nat) : Nat := (nextMultiple len).getD (2 ^ 32 - 1)

inductive FrameLayout where
  | packed
  | aligned
deriving DecidableEq, Repr

namespace FrameLayout

def paddedLen : FrameLayout → Nat → Nat
  | packed, frameLen => frameLen
  | aligned, frameLen => alignUpFrame frameLen

def magic : FrameLayout → List UInt8
  | packed => frameMagic
  | aligned => frameMagicV3

end FrameLayout

instance (view : RecordView) : Decidable view.Bounds := by
  cases view <;> unfold RecordView.Bounds <;> infer_instance

structure FrameBuilder where
  buf : List UInt8
  recordCount : Nat
  sealed : Bool
  sealedLen : Nat
deriving DecidableEq

def frameHeader (layout : FrameLayout) (frameLen recordCount : Nat) (first : Lsn) (stamp : FrameStamp) : List UInt8 :=
  layout.magic ++ (leBytes 4 frameLen ++ (leBytes 4 recordCount ++ (leBytes 4 first.segment ++ (leBytes 4 first.offset ++
    (u32Bytes stamp.epoch ++ (u64Bytes stamp.seq ++ u64Bytes stamp.coveredLsn))))))

namespace FrameBuilder

def new : FrameBuilder := ⟨List.replicate frameHeaderLen 0, 0, false, 0⟩

/-- Header, records so far and trailer; a frame beyond 32 bits is a panic. -/
def frameLen (b : FrameBuilder) : Option Nat :=
  if b.buf.length + frameTrailerLen < 2 ^ 32 then some (b.buf.length + frameTrailerLen) else none

/-- One record at the end. The encoder asserts its bounds. -/
def append (b : FrameBuilder) (record : RecordView) : Option FrameBuilder :=
  if b.sealed then none
  else if record.Bounds then some { b with buf := b.buf ++ record.encodeInto, recordCount := b.recordCount + 1 }
  else none

/-- The header over the zeros, the checksum and the padding. -/
def finalize (crc32c : List UInt8 → UInt32) (b : FrameBuilder) (first : Lsn) (stamp : FrameStamp) (layout : FrameLayout) :
    Option FrameBuilder :=
  if b.recordCount = 0 ∨ b.sealed ∨ stamp.epoch = 0 ∨ stamp.seq = 0 ∨ first.toU64 < stamp.coveredLsn.toNat then none
  else do
    let frameLen ← b.frameLen
    let covered := frameHeader layout frameLen b.recordCount first stamp ++ b.buf.drop frameHeaderLen
    let frame := covered ++ u32Bytes (crc32c covered)
    let padded := layout.paddedLen frameLen
    some { b with buf := frame ++ List.replicate (padded - frame.length) 0, sealed := true, sealedLen := padded }

def sealedFrame (b : FrameBuilder) : Option (List UInt8) := if b.sealed then some (b.buf.take b.sealedLen) else none

end FrameBuilder

inductive FrameDecodeError where
  | truncated (needed available : Nat)
  | zeroMagic
  | badMagic (found : List UInt8)
  | badLength (len : Nat)
  | zeroRecordCount
  | badStamp
  | crcMismatch (stored computed : UInt32)
  | badFirstLsn (offset : Nat)
deriving DecidableEq, Repr

structure FrameRef where
  firstLsn : Lsn
  recordCount : Nat
  stamp : Option FrameStamp
  layout : FrameLayout
  frameLen : Nat
  body : List UInt8
deriving DecidableEq

structure FrameShape where
  headerLen : Nat
  minFrameLen : Nat
  hasStamp : Bool
  layout : FrameLayout
deriving DecidableEq, Repr

/-- What the magic names; all zeros name nothing. -/
def frameShape (magic : List UInt8) : Except FrameDecodeError (Option FrameShape) :=
  if magic = [0, 0, 0, 0] then .ok none
  else if magic = frameMagic then .ok (some ⟨frameHeaderLen, minFrameLen, true, .packed⟩)
  else if magic = frameMagicV3 then .ok (some ⟨frameHeaderLen, minFrameLen, true, .aligned⟩)
  else if magic = frameMagicV1 then .ok (some ⟨frameHeaderLenV1, minFrameLenV1, false, .packed⟩)
  else .error (.badMagic magic)

def extentOf (layout : FrameLayout) (frameLen : Nat) : Option Nat :=
  match layout with
  | .packed => some frameLen
  | .aligned => nextMultiple frameLen

def lsnAt (frame : List UInt8) (pos : Nat) : Lsn := ⟨fieldAt frame pos 4, fieldAt frame (pos + 4) 4, fieldAt_lt frame (pos + 4) 4⟩

def stampAt (frame : List UInt8) (pos : Nat) : FrameStamp := ⟨u32At frame pos, u64At frame (pos + 4), u64At frame (pos + 12)⟩

def readStamp (shape : FrameShape) (frame : List UInt8) (first : Lsn) : Except FrameDecodeError (Option FrameStamp) :=
  if shape.hasStamp then
    let stamp := stampAt frame 20
    if stamp.epoch = 0 ∨ stamp.seq = 0 ∨ first.toU64 < stamp.coveredLsn.toNat then .error .badStamp else .ok (some stamp)
  else .ok none

/-- The whole frame lies below the ceiling of the offsets, its header before the first record. -/
def fitsSegment (first : Lsn) (headerLen extent : Nat) : Bool :=
  headerLen ≤ first.offset ∧ first.offset - headerLen + extent ≤ 2 ^ 32 - 1

def readFrame (crc32c : List UInt8 → UInt32) (shape : FrameShape) (extent : Nat) (frame : List UInt8) :
    Except FrameDecodeError FrameRef := do
  let covered := frame.take (frame.length - frameTrailerLen)
  let stored := u32At frame (frame.length - frameTrailerLen)
  if stored ≠ crc32c covered then .error (.crcMismatch stored (crc32c covered))
  else
    let recordCount := fieldAt frame 8 4
    if recordCount = 0 then .error .zeroRecordCount
    else
      let first := lsnAt frame 12
      if fitsSegment first shape.headerLen extent then do
        let stamp ← readStamp shape frame first
        .ok ⟨first, recordCount, stamp, shape.layout, frame.length, covered.drop shape.headerLen⟩
      else .error (.badFirstLsn first.offset)

def readShaped (crc32c : List UInt8 → UInt32) (buf : List UInt8) (maxFrameLen : Nat) (shape : FrameShape) :
    Except FrameDecodeError (FrameRef × Nat) :=
  if buf.length < shape.headerLen then .error (.truncated shape.headerLen buf.length)
  else
    let frameLen := fieldAt buf 4 4
    if frameLen < shape.minFrameLen ∨ maxFrameLen < frameLen then .error (.badLength frameLen)
    else match extentOf shape.layout frameLen with
      | none => .error (.badLength frameLen)
      | some extent =>
        if buf.length < frameLen then .error (.truncated frameLen buf.length)
        else do
          let frame ← readFrame crc32c shape extent (buf.take frameLen)
          .ok (frame, frameLen)

def decodeFrame (crc32c : List UInt8 → UInt32) (buf : List UInt8) (maxFrameLen : Nat) : Except FrameDecodeError (FrameRef × Nat) :=
  if buf.length < 4 then
    if buf.all (· = 0) then .error .zeroMagic else .error (.truncated 4 buf.length)
  else do
    match ← frameShape (buf.take 4) with
    | none => .error .zeroMagic
    | some shape => readShaped crc32c buf maxFrameLen shape

def FrameRef.paddedLen (frame : FrameRef) : Nat := frame.layout.paddedLen frame.frameLen

inductive FrameRecordError where
  | record (error : RecordDecodeError)
  | trailingBytes (offset : Nat)
  | missingRecords (decoded declared : Nat)
deriving DecidableEq, Repr

structure RecordIter where
  body : List UInt8
  offset : Nat
  declared : Nat
  remaining : Nat
  nextLsn : Lsn
  failed : Bool
deriving DecidableEq

def FrameRef.records (frame : FrameRef) : RecordIter := ⟨frame.body, 0, frame.recordCount, frame.recordCount, frame.firstLsn, false⟩

abbrev RecordItem := Except FrameRecordError (Lsn × RecordView)

/-- One call. A slice beyond the body and an LSN beyond its segment are panics. -/
def RecordIter.next (it : RecordIter) : Option (Option RecordItem × RecordIter) :=
  if it.failed then some (none, it)
  else if it.remaining = 0 then
    if it.offset ≠ it.body.length then some (some (.error (.trailingBytes it.offset)), { it with failed := true }) else some (none, it)
  else if it.offset = it.body.length then
    some (some (.error (.missingRecords (it.declared - it.remaining) it.declared)), { it with failed := true })
  else if it.body.length < it.offset then none
  else match decodeRecord (it.body.drop it.offset) with
    | .ok (view, consumed) => do
      let lsn ← advance it.nextLsn (consumed % 2 ^ 32)
      some (some (.ok (it.nextLsn, view)), { it with offset := it.offset + consumed, nextLsn := lsn, remaining := it.remaining - 1 })
    | .error e => some (some (.error (.record e)), { it with failed := true })

structure FrameIter where
  buf : List UInt8
  offset : Nat
  maxFrameLen : Nat
  done : Bool
deriving DecidableEq

def FrameIter.new (buf : List UInt8) (maxFrameLen : Nat) : FrameIter := ⟨buf, 0, maxFrameLen, false⟩

abbrev FrameItem := Except FrameDecodeError (Nat × FrameRef)

/-- One call. The successor of a frame is after its padding; a cursor at or past the end ends the walk. -/
def FrameIter.next (crc32c : List UInt8 → UInt32) (it : FrameIter) : Option (Option FrameItem × FrameIter) :=
  if it.done ∨ it.buf.length ≤ it.offset then some (none, { it with done := true })
  else match decodeFrame crc32c (it.buf.drop it.offset) it.maxFrameLen with
    | .ok (frame, _) => some (some (.ok (it.offset, frame)), { it with offset := it.offset + frame.paddedLen })
    | .error .zeroMagic => some (none, { it with done := true })
    | .error e => some (some (.error e), { it with done := true })

private theorem le_nextMultiple {len padded : Nat} (h : nextMultiple len = some padded) : len ≤ padded ∧ padded < 2 ^ 32 := by
  rw [nextMultiple] at h
  obtain ⟨hlt, heq⟩ := ite_none_right_eq_some.mp h
  rw [some.injEq] at heq
  rw [frameAlign] at hlt heq
  omega

/-- A frame within the bound of the readers has an extent. -/
theorem extentOf_eq {layout : FrameLayout} {frameLen : Nat} (h : frameLen ≤ defaultMaxFrameLen) :
    extentOf layout frameLen = some (layout.paddedLen frameLen) := by
  cases layout with
  | packed => rfl
  | aligned =>
    have hsome : nextMultiple frameLen = some ((frameLen + (frameAlign - 1)) / frameAlign * frameAlign) := by
      apply if_pos
      rw [defaultMaxFrameLen] at h
      rw [frameAlign]
      omega
    rw [extentOf, FrameLayout.paddedLen, alignUpFrame, hsome]
    rfl

theorem le_extentOf {layout : FrameLayout} {frameLen extent : Nat} (h : extentOf layout frameLen = some extent) : frameLen ≤ extent := by
  cases layout with
  | packed => exact (some.inj h).le
  | aligned => exact (le_nextMultiple h).1

theorem frameShape_magic (layout : FrameLayout) :
    frameShape layout.magic = .ok (some ⟨frameHeaderLen, minFrameLen, true, layout⟩) := by
  cases layout <;> rfl

theorem FrameLayout.magic_length (layout : FrameLayout) : layout.magic.length = 4 := by
  cases layout <;> rfl

theorem frameHeader_length (layout : FrameLayout) (frameLen recordCount : Nat) (first : Lsn) (stamp : FrameStamp) :
    (frameHeader layout frameLen recordCount first stamp).length = frameHeaderLen := by
  simp [frameHeader, FrameLayout.magic_length, frameHeaderLen]

def frameBytes (crc32c : List UInt8 → UInt32) (layout : FrameLayout) (recordCount : Nat) (first : Lsn) (stamp : FrameStamp)
    (body : List UInt8) : List UInt8 :=
  let covered := frameHeader layout (frameHeaderLen + body.length + frameTrailerLen) recordCount first stamp ++ body
  covered ++ u32Bytes (crc32c covered)

section Sealed
variable {crc32c : List UInt8 → UInt32} {layout : FrameLayout} {recordCount : Nat} {first : Lsn} {stamp : FrameStamp} {body : List UInt8}

theorem frameBytes_append (t : List UInt8) : frameBytes crc32c layout recordCount first stamp body ++ t =
      layout.magic ++ (leBytes 4 (frameHeaderLen + body.length + frameTrailerLen) ++ (leBytes 4 recordCount ++ (leBytes 4 first.segment ++
        (leBytes 4 first.offset ++ (u32Bytes stamp.epoch ++ (u64Bytes stamp.seq ++ (u64Bytes stamp.coveredLsn ++ (body ++
          (u32Bytes (crc32c (frameHeader layout (frameHeaderLen + body.length + frameTrailerLen) recordCount first stamp ++ body)) ++
            t))))))))) := by
  simp only [frameBytes, frameHeader, append_assoc]

theorem frameBytes_length :
    (frameBytes crc32c layout recordCount first stamp body).length = frameHeaderLen + body.length + frameTrailerLen := by
  simp only [frameBytes, length_append, frameHeader_length, u32Bytes_length, frameTrailerLen]

/-- What the writer asserts about a frame, and that it lies in the addresses of its segment. -/
structure Sealable (layout : FrameLayout) (recordCount : Nat) (first : Lsn) (stamp : FrameStamp) (body : List UInt8) : Prop where
  records : 0 < recordCount
  count : recordCount ≤ body.length
  epoch : stamp.epoch ≠ 0
  seq : stamp.seq ≠ 0
  covered : stamp.coveredLsn.toNat ≤ first.toU64
  minimal : 4 ≤ body.length
  segment : first.segment < 2 ^ 32
  room : fitsSegment first frameHeaderLen (layout.paddedLen (frameHeaderLen + body.length + frameTrailerLen)) = true

private theorem readFrame_frameBytes (h : Sealable layout recordCount first stamp body) (hlen : body.length < 2 ^ 32) :
    readFrame crc32c ⟨frameHeaderLen, minFrameLen, true, layout⟩ (layout.paddedLen (frameHeaderLen + body.length + frameTrailerLen))
      (frameBytes crc32c layout recordCount first stamp body) =
        .ok ⟨first, recordCount, some stamp, layout, frameHeaderLen + body.length + frameTrailerLen, body⟩ := by
  have hcoveredLen : (frameHeader layout (frameHeaderLen + body.length + frameTrailerLen) recordCount first stamp ++ body).length =
      frameHeaderLen + body.length := by rw [length_append, frameHeader_length]
  set frame := frameBytes crc32c layout recordCount first stamp body with hframe
  have hframeLen : frame.length = frameHeaderLen + body.length + frameTrailerLen := frameBytes_length
  have hback : frameHeaderLen + body.length + frameTrailerLen - frameTrailerLen = frameHeaderLen + body.length := by omega
  have h0 := @frameBytes_append crc32c layout recordCount first stamp body []
  rw [append_nil, ← hframe, ← drop_zero (l := frame)] at h0
  have h4 := drop_past h0 layout.magic_length
  have h8 := drop_past h4 (leBytes_length _ _)
  have h12 := drop_past h8 (leBytes_length _ _)
  have h16 := drop_past h12 (leBytes_length _ _)
  have h20 := drop_past h16 (leBytes_length _ _)
  have h24 := drop_past h20 (u32Bytes_length _)
  have h32 := drop_past h24 (u64Bytes_length _)
  have hcount : fieldAt frame 8 4 = recordCount := fieldAt_of_drop (by have := h.count; omega) h8
  have hfirst : lsnAt frame 12 = first := by
    obtain ⟨segment, offset, hfits⟩ := first
    rw [lsnAt, Lsn.mk.injEq]
    exact ⟨fieldAt_of_drop h.segment h12, fieldAt_of_drop hfits h16⟩
  have hstamp : stampAt frame 20 = stamp := by rw [stampAt, u32At_of_drop h20, u64At_of_drop h24, u64At_of_drop h32]
  have hcovered : frame.take (frameHeaderLen + body.length) =
      frameHeader layout (frameHeaderLen + body.length + frameTrailerLen) recordCount first stamp ++ body := take_left' hcoveredLen
  have hcrc : u32At frame (frameHeaderLen + body.length) =
      crc32c (frameHeader layout (frameHeaderLen + body.length + frameTrailerLen) recordCount first stamp ++ body) := by
    apply u32At_of_drop (t := [])
    rw [append_nil]
    exact drop_left' hcoveredLen
  have hbody : (frameHeader layout (frameHeaderLen + body.length + frameTrailerLen) recordCount first stamp ++ body).drop frameHeaderLen =
      body := drop_left' (frameHeader_length _ _ _ _ _)
  have hstampOk : readStamp ⟨frameHeaderLen, minFrameLen, true, layout⟩ frame first = .ok (some stamp) := by
    simp only [readStamp, hstamp, if_true]
    rw [if_neg]
    rintro (hepoch | hseq | hcov)
    · exact h.epoch hepoch
    · exact h.seq hseq
    · exact absurd h.covered (Nat.not_le.mpr hcov)
  simp only [readFrame, hframeLen, hback, hcovered, hcrc, ne_eq, not_true_eq_false, if_false, hcount, h.records.ne',
    hfirst, h.room, if_true,
    hstampOk, except_ok_bind, hbody]

/-- A sealed frame is read back, whatever follows it. -/
theorem decodeFrame_frameBytes {maxFrameLen : Nat} (h : Sealable layout recordCount first stamp body)
    (hmax : frameHeaderLen + body.length + frameTrailerLen ≤ maxFrameLen)
    (hdefault : frameHeaderLen + body.length + frameTrailerLen ≤ defaultMaxFrameLen) (t : List UInt8) :
    decodeFrame crc32c (frameBytes crc32c layout recordCount first stamp body ++ t) maxFrameLen =
      .ok (⟨first, recordCount, some stamp, layout, frameHeaderLen + body.length + frameTrailerLen, body⟩,
        frameHeaderLen + body.length + frameTrailerLen) := by
  set frameLen := frameHeaderLen + body.length + frameTrailerLen with hframeLen
  have hlen := @frameBytes_length crc32c layout recordCount first stamp body
  set buf := frameBytes crc32c layout recordCount first stamp body ++ t with hbuf
  have hbufLen : buf.length = frameLen + t.length := by rw [hbuf, length_append, hlen]
  have h0 := @frameBytes_append crc32c layout recordCount first stamp body t
  rw [← hbuf, ← drop_zero (l := buf)] at h0
  have h4 := drop_past h0 layout.magic_length
  have hdef : defaultMaxFrameLen < 2 ^ 32 := by decide
  have hfield : fieldAt buf 4 4 = frameLen := fieldAt_of_drop (by omega) h4
  have htake : buf.take frameLen = frameBytes crc32c layout recordCount first stamp body := take_left' hlen
  have hmagic : buf.take 4 = layout.magic := by
    rw [← drop_zero (l := buf), h0]
    exact take_left' layout.magic_length
  have hmin := h.minimal
  rw [frameHeaderLen, frameTrailerLen] at hframeLen
  have hread := @readFrame_frameBytes crc32c layout recordCount first stamp body h (by omega)
  rw [decodeFrame, if_neg (by omega), hmagic, frameShape_magic, except_ok_bind]
  simp only [readShaped, hfield]
  rw [if_neg (by rw [frameHeaderLen]; omega), if_neg (by rw [minFrameLen]; omega), extentOf_eq hdefault]
  simp only
  rw [if_neg (by omega), htake, hread, except_ok_bind]

end Sealed

def encodeAll : List RecordView → List UInt8
  | [] => []
  | record :: rest => record.encodeInto ++ encodeAll rest

/-- Records with the LSNs at which they stand, so many bytes after the first. -/
inductive PlacedAt (first : Lsn) : Nat → List (Lsn × RecordView) → Prop where
  | nil {offset : Nat} : PlacedAt first offset []
  | cons {offset : Nat} {lsn : Lsn} {record : RecordView} {rest : List (Lsn × RecordView)} (hlsn : advance first offset = some lsn)
      (hrest : PlacedAt first (offset + record.encodeInto.length) rest) : PlacedAt first offset ((lsn, record) :: rest)

theorem advance_eq_some {lsn lsn' : Lsn} {bytes : Nat} :
    advance lsn bytes = some lsn' ↔ lsn'.segment = lsn.segment ∧ lsn'.offset = lsn.offset + bytes := by
  rw [advance]
  obtain ⟨segment, offset, hfits⟩ := lsn'
  constructor
  · intro h
    split at h
    · rw [some.injEq, Lsn.mk.injEq] at h
      exact ⟨h.1.symm, h.2.symm⟩
    · simp at h
  · rintro ⟨rfl, rfl⟩
    rw [dif_pos hfits]

theorem RecordView.encodedLen_pos (view : RecordView) : 4 ≤ view.encodedLen := by
  have hvarint (v : Nat) : 1 ≤ varintLen v := by
    rw [varintLen]
    split <;> omega
  have hbody := hvarint view.bodyLen
  have hns := hvarint view.ns.toNat
  rw [encodedLen]
  cases view <;> simp only [bodyLen, RecordView.ns] at * <;> omega

/-- A frame's body is walked record by record, each at its LSN. -/
theorem yields_records {body : List UInt8} {first lsn : Lsn} {offset declared : Nat} {items : List (Lsn × RecordView)}
    (hfits : ∀ item ∈ items, item.2.Fits) (hplaced : PlacedAt first offset items) (hlsn : advance first offset = some lsn)
    (hoffset : offset ≤ body.length) (hroom : first.offset + body.length < 2 ^ 32)
    (h : body.drop offset = encodeAll (items.map Prod.snd)) :
    Yields RecordIter.next ⟨body, offset, declared, items.length, lsn, false⟩ (items.map .ok) := by
  induction items generalizing offset lsn with
  | nil =>
    have hend : offset = body.length := by
      have := congrArg List.length h
      rw [length_drop, map_nil, encodeAll, length_nil] at this
      omega
    apply Yields.nil
    simp [RecordIter.next, hend]
  | cons item rest ih =>
    obtain ⟨lsn', record⟩ := item
    cases hplaced with
    | cons hlsn' hrest =>
      obtain rfl : lsn' = lsn := some.inj (hlsn'.symm.trans hlsn)
      have hrecord : record.Fits := hfits _ mem_cons_self
      have hlen : record.encodeInto.length = record.encodedLen :=
        RecordView.encodeInto_length (Nat.lt_of_le_of_lt (Nat.le_add_left _ _) hrecord.1)
      rw [map_cons, encodeAll] at h
      have htotal := congrArg List.length h
      rw [length_drop, length_append, hlen] at htotal
      have hpos := record.encodedLen_pos
      obtain ⟨hseg, hoff⟩ := advance_eq_some.mp hlsn
      have hmod : record.encodedLen % 2 ^ 32 = record.encodedLen := Nat.mod_eq_of_lt (by omega)
      have hnext : advance lsn' record.encodedLen = some ⟨lsn'.segment, lsn'.offset + record.encodedLen, by omega⟩ :=
        advance_eq_some.mpr ⟨rfl, rfl⟩
      have hnextFirst : advance first (offset + record.encodedLen) = some ⟨lsn'.segment, lsn'.offset + record.encodedLen, by omega⟩ :=
        advance_eq_some.mpr ⟨hseg, by simp only; omega⟩
      have hdrop := drop_past h hlen
      rw [hlen] at hrest
      apply Yields.cons (t := ⟨body, offset + record.encodedLen, declared, rest.length,
        ⟨lsn'.segment, lsn'.offset + record.encodedLen, by omega⟩, false⟩)
      · simp only [RecordIter.next, h, decodeRecord_encodeInto hrecord, hmod, hnext, length_cons]
        rw [if_neg (by simp), if_neg (by omega), if_neg (by omega), if_neg (by omega)]
        rfl
      · exact ih (forall_mem_cons.mp hfits).2 hrest hnextFirst (by omega) hdrop

/-- A walk stays inside the body, and its LSNs with it. -/
structure Inside (frame : FrameRef) (it : RecordIter) : Prop where
  body : it.body = frame.body
  offset : it.offset ≤ frame.body.length
  segment : it.nextLsn.segment = frame.firstLsn.segment
  lsn : it.nextLsn.offset = frame.firstLsn.offset + it.offset

/-- A record handed out lies in the body, at the address its LSN says. -/
def HandedOut (frame : FrameRef) : RecordItem → Prop
  | .ok (lsn, view) => lsn.segment = frame.firstLsn.segment ∧ ∃ offset, lsn.offset = frame.firstLsn.offset + offset ∧
      offset + view.encodedLen ≤ frame.body.length ∧ view.encodeInto = (frame.body.drop offset).take view.encodedLen
  | .error _ => True

variable {frame : FrameRef} {crc32c : List UInt8 → UInt32}

theorem Inside.step (hroom : frame.firstLsn.offset + frame.body.length < 2 ^ 32) {it : RecordIter} (h : Inside frame it) :
    ∃ item it', it.next = some (item, it') ∧ Inside frame it' ∧ ∀ a, item = some a → HandedOut frame a := by
  obtain ⟨hbody, hoffset, hsegment, hlsn⟩ := h
  rw [← hbody] at hoffset hroom
  have hsame : Inside frame it := ⟨hbody, hbody ▸ hoffset, hsegment, hlsn⟩
  have hstays : Inside frame { it with failed := true } := ⟨hbody, hbody ▸ hoffset, hsegment, hlsn⟩
  have herror {e : FrameRecordError} (a : RecordItem) (ha : some (.error e) = some a) : HandedOut frame a := by
    rw [← some.inj ha]
    trivial
  rw [RecordIter.next]
  split_ifs with hfailed hremaining htrailing hmissing hbeyond
  · exact ⟨_, _, rfl, hsame, fun a ha => absurd ha (by simp)⟩
  · exact ⟨_, _, rfl, hstays, herror⟩
  · exact ⟨_, _, rfl, hsame, fun a ha => absurd ha (by simp)⟩
  · exact ⟨_, _, rfl, hstays, herror⟩
  · omega
  · cases hdecode : decodeRecord (it.body.drop it.offset) with
    | error e => exact ⟨_, _, rfl, hstays, herror⟩
    | ok r =>
      obtain ⟨view, consumed⟩ := r
      obtain ⟨hfits, rfl, hbytes⟩ := of_decodeRecord hdecode
      have hlen : view.encodeInto.length = view.encodedLen :=
        RecordView.encodeInto_length (Nat.lt_of_le_of_lt (Nat.le_add_left _ _) hfits.1)
      have htotal := congrArg List.length hbytes
      rw [length_drop, length_append, hlen] at htotal
      have hmod : view.encodedLen % 2 ^ 32 = view.encodedLen := Nat.mod_eq_of_lt (by omega)
      have hnext : advance it.nextLsn view.encodedLen = some ⟨it.nextLsn.segment, it.nextLsn.offset + view.encodedLen, by omega⟩ :=
        advance_eq_some.mpr ⟨rfl, rfl⟩
      simp only [hmod, hnext]
      refine ⟨_, _, rfl, ⟨hbody, ?_, hsegment, ?_⟩, fun a ha => ?_⟩
      · rw [← hbody]
        simp only
        omega
      · simp only
        omega
      · rw [← some.inj ha]
        refine ⟨hsegment, it.offset, hlsn, ?_, ?_⟩
        · rw [← hbody]
          omega
        · rw [← hbody, hbytes, ← hlen, take_left]

private theorem frameShape_min {magic : List UInt8} {shape : FrameShape} (h : frameShape magic = .ok (some shape)) :
    shape.headerLen + 8 ≤ shape.minFrameLen := by
  rw [frameShape] at h
  split_ifs at h
  · simp at h
  · obtain rfl := some.inj (Except.ok.inj h)
    decide
  · obtain rfl := some.inj (Except.ok.inj h)
    decide
  · obtain rfl := some.inj (Except.ok.inj h)
    decide

private theorem extentOf_paddedLen {layout : FrameLayout} {frameLen extent : Nat} (h : extentOf layout frameLen = some extent) :
    layout.paddedLen frameLen = extent := by
  cases layout with
  | packed => exact some.inj h
  | aligned =>
    rw [FrameLayout.paddedLen, alignUpFrame]
    rw [extentOf] at h
    rw [h]
    rfl

/-- What is known of an accepted frame: where its body stands, and that its addresses exist. -/
structure Accepted (buf : List UInt8) (frame : FrameRef) (n headerLen : Nat) : Prop where
  frameLen : frame.frameLen = n
  inBuf : n ≤ buf.length
  header : headerLen ≤ frame.firstLsn.offset
  extent : frame.firstLsn.offset - headerLen + frame.paddedLen ≤ 2 ^ 32 - 1
  padded : n ≤ frame.paddedLen
  length : headerLen + frame.body.length + frameTrailerLen = n
  body : frame.body = (buf.drop headerLen).take frame.body.length

private theorem of_readFrame {shape : FrameShape} {extent : Nat} {bytes : List UInt8}
    (h : readFrame crc32c shape extent bytes = .ok frame) :
    frame.frameLen = bytes.length ∧ frame.layout = shape.layout ∧ fitsSegment frame.firstLsn shape.headerLen extent = true ∧
      frame.body = (bytes.take (bytes.length - frameTrailerLen)).drop shape.headerLen := by
  simp only [readFrame] at h
  obtain ⟨-, h⟩ := guard_ok h
  obtain ⟨-, h⟩ := guard_ok h
  obtain ⟨hfits, h⟩ := check_ok h
  obtain ⟨stamp, -, h⟩ := except_bind_ok h
  rw [Except.ok.injEq] at h
  subst h
  exact ⟨rfl, rfl, hfits, rfl⟩

theorem accepted_of_decodeFrame {buf : List UInt8} {maxFrameLen n : Nat}
    (h : decodeFrame crc32c buf maxFrameLen = .ok (frame, n)) : ∃ headerLen, Accepted buf frame n headerLen := by
  rw [decodeFrame] at h
  split at h
  · split at h <;> simp at h
  obtain ⟨shape?, hshape, h⟩ := except_bind_ok h
  cases shape? with
  | none => simp at h
  | some shape =>
    have hmin := frameShape_min hshape
    simp only [readShaped] at h
    obtain ⟨-, h⟩ := guard_ok h
    obtain ⟨hbounds, h⟩ := guard_ok h
    split at h
    · simp at h
    rename_i extent hextent
    obtain ⟨hlen, h⟩ := guard_ok h
    obtain ⟨frame', hread, h⟩ := except_bind_ok h
    rw [Except.ok.injEq, Prod.mk.injEq] at h
    obtain ⟨rfl, rfl⟩ := h
    obtain ⟨hframeLen, hlayout, hfits, hbody⟩ := of_readFrame hread
    have htake : (buf.take (fieldAt buf 4 4)).length = fieldAt buf 4 4 := by
      rw [length_take]
      omega
    rw [htake] at hframeLen hbody
    have hpadded : frame'.paddedLen = extent := by
      rw [FrameRef.paddedLen, hlayout, hframeLen]
      exact extentOf_paddedLen hextent
    have hle := le_extentOf hextent
    rw [fitsSegment, decide_eq_true_eq] at hfits
    rw [take_take, Nat.min_eq_left (Nat.sub_le _ _), drop_take] at hbody
    have hbodyLen := congrArg List.length hbody
    rw [length_take, length_drop] at hbodyLen
    rw [frameTrailerLen] at hbodyLen
    refine ⟨shape.headerLen, hframeLen, by omega, hfits.1, by omega, by omega, ?_, ?_⟩
    · rw [frameTrailerLen]
      omega
    · have : frame'.body.length = fieldAt buf 4 4 - frameTrailerLen - shape.headerLen := by
        rw [frameTrailerLen]
        omega
      rw [this]
      exact hbody

/-- Any accepted frame is walked to the end without a panic, inside its body. -/
theorem records_inside {buf : List UInt8} {maxFrameLen n : Nat}
    (h : decodeFrame crc32c buf maxFrameLen = .ok (frame, n)) (k : Nat) :
    ∃ items, calls RecordIter.next k frame.records = some items ∧ ∀ item, some item ∈ items → HandedOut frame item := by
  obtain ⟨headerLen, hacc⟩ := accepted_of_decodeFrame h
  have hheader := hacc.header
  have hextent := hacc.extent
  have hpadded := hacc.padded
  have hlength := hacc.length
  rw [frameTrailerLen] at hlength
  apply calls_of_step (P := Inside frame) (fun it hit => hit.step (by omega))
  exact ⟨rfl, zero_le, rfl, rfl⟩

end InfinityDB.Log
