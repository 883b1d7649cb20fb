import InfinityDB.Log.Frame

/-!
# The staging ring

Records are staged into one of several frame buffers, and a token says where each will stand. A seal
turns the buffer into a frame under a lease and moves on to a free buffer; the lease gives the token's
LSN. Leases come back in any order. Counters of the ring are left out, but for the number of seals,
which guards the change of the epoch.
-/

namespace InfinityDB.Log

open Lib List Option

structure StagedAt where
  generation : Nat
  bodyOffset : Nat
deriving DecidableEq, Repr

structure StagingFull where
  needed : Nat
  available : Nat
deriving DecidableEq, Repr

structure FrameLease where
  generation : Nat
  firstRecordLsn : Lsn
  frameLen : Nat
  recordCount : Nat
deriving DecidableEq

/-- The LSN of a token; a token of another generation is a panic. -/
def FrameLease.lsnOf (lease : FrameLease) (staged : StagedAt) : Option Lsn :=
  if staged.generation = lease.generation then advance lease.firstRecordLsn staged.bodyOffset else none

inductive BufState where
  | staging
  | inFlight (generation : Nat)
  | free
deriving DecidableEq, Repr

structure StagingRing where
  bufs : List FrameBuilder
  state : List BufState
  staging : Nat
  inFlight : Nat
  framesInFlight : Nat
  generation : Nat
  frameEpoch : UInt32
  nextFrameSeq : Nat
  capacityBytes : Nat
  seals : Nat
deriving DecidableEq

def maxFramesInFlight : Nat := 8

namespace StagingRing

def new (capacityBytes framesInFlight : Nat) : Option StagingRing :=
  if frameHeaderLen + frameTrailerLen + 4 ≤ capacityBytes ∧ capacityBytes ≤ defaultMaxFrameLen ∧ 1 ≤ framesInFlight ∧
      framesInFlight ≤ maxFramesInFlight then
    some ⟨List.replicate (framesInFlight + 1) .new, .staging :: List.replicate framesInFlight .free, 0, 0, framesInFlight, 0, 1, 1,
      capacityBytes, 0⟩
  else none

def setFrameEpoch (ring : StagingRing) (epoch : UInt32) : Option StagingRing :=
  if epoch = 0 ∨ ring.seals ≠ 0 then none else some { ring with frameEpoch := epoch, nextFrameSeq := 1 }

/-- What a further record may still take of the buffer. -/
def remainingCapacity (ring : StagingRing) : Option Nat := do
  let builder ← ring.bufs[ring.staging]?
  let len ← builder.frameLen
  if len ≤ ring.capacityBytes then some (ring.capacityBytes - len) else none

def stage (ring : StagingRing) (record : RecordView) : Option (StagingRing × Except StagingFull StagedAt) := do
  let needed := min record.encodedLen (2 ^ 32 - 1)
  let available ← ring.remainingCapacity
  if available < needed then some (ring, .error ⟨needed, available⟩)
  else do
    let builder ← ring.bufs[ring.staging]?
    let len ← builder.frameLen
    let builder' ← builder.append record
    some ({ ring with bufs := ring.bufs.set ring.staging builder' },
      .ok ⟨ring.generation, len - (frameHeaderLen + frameTrailerLen)⟩)

def stampOf (ring : StagingRing) (coveredLsn : UInt64) : FrameStamp := ⟨ring.frameEpoch, UInt64.ofNat ring.nextFrameSeq, coveredLsn⟩

/-- The staged records become a frame; staging moves to a free buffer. -/
def sealFrame (crc32c : List UInt8 → UInt32) (ring : StagingRing) (first : Lsn) (coveredLsn : UInt64) (layout : FrameLayout) :
    Option (StagingRing × FrameLease) := do
  let builder ← ring.bufs[ring.staging]?
  if builder.recordCount = 0 ∨ ring.inFlight = ring.framesInFlight then none
  else
    let free ← ring.state.findIdx? (· = .free)
    let sealed ← builder.finalize crc32c first (ring.stampOf coveredLsn) layout
    let frame ← sealed.sealedFrame
    if 2 ^ 32 ≤ frame.length ∨ 2 ^ 64 ≤ ring.nextFrameSeq + 1 then none
    else
      some ({ ring with
          bufs := ring.bufs.set ring.staging sealed
          state := (ring.state.set ring.staging (.inFlight ring.generation)).set free .staging
          staging := free
          inFlight := ring.inFlight + 1
          generation := ring.generation + 1
          nextFrameSeq := ring.nextFrameSeq + 1
          seals := ring.seals + 1 },
        ⟨ring.generation, first, frame.length, builder.recordCount⟩)

def leasedIndex (ring : StagingRing) (lease : FrameLease) : Option Nat := ring.state.findIdx? (· = .inFlight lease.generation)

def leasedFrame (ring : StagingRing) (lease : FrameLease) : Option (List UInt8) := do
  let index ← ring.leasedIndex lease
  let builder ← ring.bufs[index]?
  builder.sealedFrame

def release (ring : StagingRing) (lease : FrameLease) : Option StagingRing := do
  let index ← ring.leasedIndex lease
  if ring.inFlight = 0 then none
  else some { ring with bufs := ring.bufs.set index .new, state := ring.state.set index .free, inFlight := ring.inFlight - 1 }

end StagingRing

structure SealedFrame where
  lease : FrameLease
  stamp : FrameStamp
  layout : FrameLayout
  staged : List (StagedAt × RecordView)
deriving DecidableEq

/-- A ring in use, with the records staged for the next frame and the frames under lease. -/
inductive Run (crc32c : List UInt8 → UInt32) : StagingRing → List (StagedAt × RecordView) → List SealedFrame → Prop where
  | new {capacityBytes framesInFlight : Nat} {ring : StagingRing} (hnew : StagingRing.new capacityBytes framesInFlight = some ring) :
      Run crc32c ring [] []
  | epoch {ring ring' : StagingRing} {pending : List (StagedAt × RecordView)} {leases : List SealedFrame} {epoch : UInt32}
      (h : Run crc32c ring pending leases) (hset : ring.setFrameEpoch epoch = some ring') : Run crc32c ring' pending leases
  | stage {ring ring' : StagingRing} {pending : List (StagedAt × RecordView)} {leases : List SealedFrame} {record : RecordView}
      {token : StagedAt} (h : Run crc32c ring pending leases) (hstage : ring.stage record = some (ring', .ok token)) :
      Run crc32c ring' (pending ++ [(token, record)]) leases
  | refuse {ring ring' : StagingRing} {pending : List (StagedAt × RecordView)} {leases : List SealedFrame} {record : RecordView}
      {full : StagingFull} (h : Run crc32c ring pending leases) (hstage : ring.stage record = some (ring', .error full)) :
      Run crc32c ring' pending leases
  | sealFrame {ring ring' : StagingRing} {pending : List (StagedAt × RecordView)} {leases : List SealedFrame} {first : Lsn}
      {coveredLsn : UInt64} {layout : FrameLayout} {lease : FrameLease} (h : Run crc32c ring pending leases)
      (hseal : ring.sealFrame crc32c first coveredLsn layout = some (ring', lease)) :
      Run crc32c ring' [] (⟨lease, ring.stampOf coveredLsn, layout, pending⟩ :: leases)
  | release {ring ring' : StagingRing} {pending : List (StagedAt × RecordView)} {leases : List SealedFrame} {sealed : SealedFrame}
      (h : Run crc32c ring pending leases) (hmem : sealed ∈ leases) (hrelease : ring.release sealed.lease = some ring') :
      Run crc32c ring' pending (leases.erase sealed)

def bodyOf (staged : List (StagedAt × RecordView)) : List UInt8 := encodeAll (staged.map Prod.snd)

private theorem encodeAll_append (a b : List RecordView) : encodeAll (a ++ b) = encodeAll a ++ encodeAll b := by
  induction a with
  | nil => rfl
  | cons record rest ih => rw [cons_append, encodeAll, encodeAll, ih, append_assoc]

private theorem bodyOf_snoc (staged : List (StagedAt × RecordView)) (token : StagedAt) (record : RecordView) :
    bodyOf (staged ++ [(token, record)]) = bodyOf staged ++ record.encodeInto := by
  rw [bodyOf, map_append, encodeAll_append, bodyOf]
  simp [encodeAll]

/-- Tokens of one generation that name where the records stand. -/
inductive TokensAt (generation : Nat) : Nat → List (StagedAt × RecordView) → Prop where
  | nil {offset : Nat} : TokensAt generation offset []
  | cons {offset : Nat} {record : RecordView} {rest : List (StagedAt × RecordView)}
      (h : TokensAt generation (offset + record.encodeInto.length) rest) :
      TokensAt generation offset ((⟨generation, offset⟩, record) :: rest)

theorem TokensAt.snoc {generation offset : Nat} {staged : List (StagedAt × RecordView)} (h : TokensAt generation offset staged)
    (record : RecordView) : TokensAt generation offset (staged ++ [(⟨generation, offset + (bodyOf staged).length⟩, record)]) := by
  induction h with
  | nil => exact .cons .nil
  | @cons offset first rest _ ih =>
    apply TokensAt.cons
    have hlen : offset + (bodyOf ((⟨generation, offset⟩, first) :: rest)).length =
        offset + first.encodeInto.length + (bodyOf rest).length := by
      rw [bodyOf, map_cons, encodeAll, length_append, ← add_assoc]
      rfl
    rw [hlen]
    exact ih

structure Staged (capacityBytes generation : Nat) (staged : List (StagedAt × RecordView)) : Prop where
  fits : ∀ entry ∈ staged, entry.2.Fits
  tokens : TokensAt generation 0 staged
  room : frameHeaderLen + (bodyOf staged).length + frameTrailerLen ≤ capacityBytes

private theorem length_le_bodyOf {staged : List (StagedAt × RecordView)} (h : ∀ entry ∈ staged, entry.2.Fits) :
    4 * staged.length ≤ (bodyOf staged).length := by
  induction staged with
  | nil => exact Nat.le_refl _
  | cons entry rest ih =>
    have hlen : entry.2.encodeInto.length = entry.2.encodedLen :=
      RecordView.encodeInto_length (Nat.lt_of_le_of_lt (Nat.le_add_left _ _) (h entry mem_cons_self).1)
    have hpos := entry.2.encodedLen_pos
    have hrest := ih (forall_mem_cons.mp h).2
    rw [bodyOf] at hrest
    rw [bodyOf, map_cons, encodeAll, length_append, hlen, length_cons]
    omega

/-- The tokens give the LSNs at which the records are found. -/
theorem TokensAt.placed {generation offset : Nat} {staged : List (StagedAt × RecordView)} {lease : FrameLease}
    (h : TokensAt generation offset staged) (hgen : lease.generation = generation)
    (hroom : lease.firstRecordLsn.offset + offset + (bodyOf staged).length < 2 ^ 32) :
    ∃ items, PlacedAt lease.firstRecordLsn offset items ∧
      List.Forall₂ (fun item entry => item.2 = entry.2 ∧ lease.lsnOf entry.1 = some item.1) items staged := by
  induction h with
  | nil => exact ⟨[], .nil, .nil⟩
  | @cons offset record rest _ ih =>
    simp only [bodyOf, map_cons, encodeAll, length_append] at hroom
    obtain ⟨items, hplaced, hall⟩ := ih (by simp only [bodyOf]; omega)
    have hlsn : advance lease.firstRecordLsn offset =
        some ⟨lease.firstRecordLsn.segment, lease.firstRecordLsn.offset + offset, by omega⟩ :=
      advance_eq_some.mpr ⟨rfl, rfl⟩
    refine ⟨_, .cons hlsn hplaced, .cons ⟨rfl, ?_⟩ hall⟩
    rw [FrameLease.lsnOf, if_pos hgen.symm]
    exact hlsn

/-- A frame under lease: its buffer holds its bytes. -/
structure Leased (crc32c : List UInt8 → UInt32) (ring : StagingRing) (sealed : SealedFrame) (index : Nat) : Prop where
  state : ring.state[index]? = some (.inFlight sealed.lease.generation)
  bytes : ring.bufs[index]?.bind FrameBuilder.sealedFrame = some
    (frameBytes crc32c sealed.layout sealed.staged.length sealed.lease.firstRecordLsn sealed.stamp (bodyOf sealed.staged) ++
      List.replicate (sealed.layout.paddedLen (frameHeaderLen + (bodyOf sealed.staged).length + frameTrailerLen) -
        (frameHeaderLen + (bodyOf sealed.staged).length + frameTrailerLen)) 0)
  staged : Staged ring.capacityBytes sealed.lease.generation sealed.staged
  nonempty : 0 < sealed.staged.length
  epoch : sealed.stamp.epoch ≠ 0
  seq : sealed.stamp.seq ≠ 0
  covered : sealed.stamp.coveredLsn.toNat ≤ sealed.lease.firstRecordLsn.toU64

structure RingInv (crc32c : List UInt8 → UInt32) (ring : StagingRing) (pending : List (StagedAt × RecordView))
    (leases : List SealedFrame) :
    Prop where
  sizes : ring.state.length = ring.bufs.length
  capacity : ring.capacityBytes ≤ defaultMaxFrameLen
  here : ring.state[ring.staging]? = some .staging
  builder : ring.bufs[ring.staging]? = some ⟨List.replicate frameHeaderLen 0 ++ bodyOf pending, pending.length, false, 0⟩
  staged : Staged ring.capacityBytes ring.generation pending
  free : ∀ i : Nat, ring.state[i]? = some BufState.free → ring.bufs[i]? = some FrameBuilder.new
  flights : ∀ i j g : Nat, ring.state[i]? = some (BufState.inFlight g) → ring.state[j]? = some (BufState.inFlight g) → i = j
  older : ∀ i g : Nat, ring.state[i]? = some (BufState.inFlight g) → g < ring.generation
  epoch : ring.frameEpoch ≠ 0
  seq : 0 < ring.nextFrameSeq ∧ ring.nextFrameSeq < 2 ^ 64
  leased : ∀ sealed ∈ leases, ∃ i, Leased crc32c ring sealed i
  distinct : leases.Pairwise fun a b => a.lease.generation ≠ b.lease.generation

section Inv
variable {crc32c : List UInt8 → UInt32} {ring ring' : StagingRing} {pending : List (StagedAt × RecordView)} {leases : List SealedFrame}

theorem getElem?_of_findIdx? {α : Type} [DecidableEq α] {l : List α} {x : α} {i : Nat} (h : l.findIdx? (· = x) = some i) :
    l[i]? = some x := by
  obtain ⟨hlt, hx, -⟩ := findIdx?_eq_some_iff_getElem.mp h
  rw [getElem?_eq_getElem hlt]
  exact congrArg some (of_decide_eq_true hx)

private theorem findIdx?_of_unique {α : Type} [DecidableEq α] {l : List α} {x : α} {i : Nat} (h : l[i]? = some x)
    (hunique : ∀ j, l[j]? = some x → j = i) : l.findIdx? (· = x) = some i := by
  cases hfind : l.findIdx? (· = x) with
  | none =>
    have hmem := mem_of_getElem? h
    exact absurd (findIdx?_eq_none_iff.mp hfind x hmem) (by simp)
  | some j => rw [hunique j (getElem?_of_findIdx? hfind)]

theorem RingInv.new {capacityBytes framesInFlight : Nat} (h : StagingRing.new capacityBytes framesInFlight = some ring) :
    RingInv crc32c ring [] [] := by
  rw [StagingRing.new, ite_none_right_eq_some, some.injEq] at h
  obtain ⟨⟨hmin, hmax, -, -⟩, rfl⟩ := h
  have hstate {i : Nat} {x : BufState} (hx : (BufState.staging :: List.replicate framesInFlight .free)[i]? = some x) :
      x = .staging ∨ x = .free ∧ i ≤ framesInFlight := by
    cases i with
    | zero => exact .inl (some.inj hx).symm
    | succ i =>
      rw [getElem?_cons_succ, getElem?_replicate] at hx
      obtain ⟨hlt, heq⟩ := ite_none_right_eq_some.mp hx
      exact .inr ⟨(some.inj heq).symm, hlt⟩
  constructor
  case sizes => simp
  case capacity => exact hmax
  case here => rfl
  case builder => simp [FrameBuilder.new, bodyOf, encodeAll]
  case staged =>
    refine ⟨fun _ hentry => absurd hentry (by simp), .nil, ?_⟩
    simp only [bodyOf, map_nil, encodeAll, length_nil]
    omega
  case free =>
    intro i hi
    rcases hstate hi with hx | ⟨-, hle⟩
    · simp at hx
    · rw [getElem?_replicate, if_pos (by omega)]
  case flights =>
    intro i j g hi
    rcases hstate hi with hx | ⟨hx, -⟩ <;> simp at hx
  case older =>
    intro i g hi
    rcases hstate hi with hx | ⟨hx, -⟩ <;> simp at hx
  case epoch => exact show (1 : UInt32) ≠ 0 by decide
  case seq => exact ⟨Nat.one_pos, show 1 < 2 ^ 64 by decide⟩
  case leased => exact fun _ hmem => absurd hmem (by simp)
  case distinct => exact .nil

section
variable (h : RingInv crc32c ring pending leases)
include h

theorem RingInv.setFrameEpoch {epoch : UInt32} (hset : ring.setFrameEpoch epoch = some ring') :
    RingInv crc32c ring' pending leases := by
  rw [StagingRing.setFrameEpoch] at hset
  split at hset
  · simp at hset
  rename_i hok
  rw [some.injEq] at hset
  subst hset
  exact { h with
    epoch := fun hzero => hok (.inl hzero)
    seq := ⟨Nat.one_pos, show 1 < 2 ^ 64 by decide⟩
    leased := fun sealed hmem => by
      obtain ⟨i, hleased⟩ := h.leased sealed hmem
      exact ⟨i, { hleased with }⟩ }

theorem RingInv.frameLen :
    FrameBuilder.frameLen ⟨List.replicate frameHeaderLen 0 ++ bodyOf pending, pending.length, false, 0⟩ =
      some (frameHeaderLen + (bodyOf pending).length + frameTrailerLen) := by
  have hroom := h.staged.room
  have hmax := h.capacity
  have hdef : defaultMaxFrameLen < 2 ^ 32 := by decide
  have hlen : (List.replicate frameHeaderLen (0 : UInt8) ++ bodyOf pending).length = frameHeaderLen + (bodyOf pending).length := by
    rw [length_append, length_replicate]
  rw [FrameBuilder.frameLen, hlen, if_pos (by omega)]

theorem RingInv.remainingCapacity :
    ring.remainingCapacity = some (ring.capacityBytes - (frameHeaderLen + (bodyOf pending).length + frameTrailerLen)) := by
  rw [StagingRing.remainingCapacity, h.builder]
  simp only [bind_eq_bind, bind_some, h.frameLen]
  rw [if_pos h.staged.room]

/-- A staged record stands at the end, where its token says. -/
theorem RingInv.stage {record : RecordView} {token : StagedAt}
    (hstage : ring.stage record = some (ring', .ok token)) : RingInv crc32c ring' (pending ++ [(token, record)]) leases := by
  rw [StagingRing.stage, h.remainingCapacity] at hstage
  simp only [bind_eq_bind, bind_some] at hstage
  split at hstage
  · simp at hstage
  rename_i hroom
  rw [h.builder] at hstage
  simp only [bind_some, h.frameLen, FrameBuilder.append, Bool.false_eq_true, if_false] at hstage
  split at hstage
  next hbounds =>
    rw [bind_some, some.injEq, Prod.mk.injEq, Except.ok.injEq] at hstage
    obtain ⟨rfl, rfl⟩ := hstage
    have hcap := h.capacity
    have hdef : defaultMaxFrameLen < 2 ^ 32 - 1 := by decide
    have hstaged := h.staged.room
    have hfits : record.Fits := ⟨by omega, hbounds⟩
    have hlen : record.encodeInto.length = record.encodedLen :=
      RecordView.encodeInto_length (Nat.lt_of_le_of_lt (Nat.le_add_left _ _) hfits.1)
    have hhere : ring.staging < ring.bufs.length := (List.getElem?_eq_some_iff.mp h.builder).1
    have hother {i : Nat} (hi : i ≠ ring.staging) {b : FrameBuilder} : (ring.bufs.set ring.staging b)[i]? = ring.bufs[i]? :=
      getElem?_set_ne hi.symm
    have hne {i : Nat} {x : BufState} (hx : ring.state[i]? = some x) (hstaging : x ≠ .staging) : i ≠ ring.staging := by
      rintro rfl
      exact hstaging (some.inj (hx.symm.trans h.here))
    have htoken : frameHeaderLen + (bodyOf pending).length + frameTrailerLen - (frameHeaderLen + frameTrailerLen) =
        0 + (bodyOf pending).length := by omega
    constructor
    case sizes => rw [length_set]; exact h.sizes
    case capacity => exact h.capacity
    case here => exact h.here
    case builder =>
      simp only
      rw [getElem?_set_self hhere, bodyOf_snoc, append_assoc, length_append]
      rfl
    case staged =>
      refine ⟨fun entry hentry => ?_, ?_, ?_⟩
      · rcases mem_append.mp hentry with hentry | hentry
        · exact h.staged.fits entry hentry
        · rw [mem_singleton.mp hentry]
          exact hfits
      · simp only
        rw [htoken]
        exact h.staged.tokens.snoc record
      · simp only
        rw [bodyOf_snoc, length_append, hlen]
        omega
    case free =>
      intro i hi
      rw [hother (hne hi (by simp))]
      exact h.free i hi
    case flights => exact h.flights
    case older => exact h.older
    case epoch => exact h.epoch
    case seq => exact h.seq
    case leased =>
      intro sealed hmem
      obtain ⟨i, hleased⟩ := h.leased sealed hmem
      refine ⟨i, { hleased with bytes := ?_ }⟩
      rw [hother (hne hleased.state (by simp))]
      exact hleased.bytes
    case distinct => exact h.distinct
  · simp at hstage

end

/-- A sealed buffer holds the frame and its padding. -/
theorem finalize_spec {recordCount : Nat} {body : List UInt8} {first : Lsn} {stamp : FrameStamp} {layout : FrameLayout} {b : FrameBuilder}
    (hlen : frameHeaderLen + body.length + frameTrailerLen ≤ defaultMaxFrameLen)
    (h : FrameBuilder.finalize crc32c ⟨List.replicate frameHeaderLen 0 ++ body, recordCount, false, 0⟩ first stamp layout = some b) :
    0 < recordCount ∧ stamp.epoch ≠ 0 ∧ stamp.seq ≠ 0 ∧ stamp.coveredLsn.toNat ≤ first.toU64 ∧
      b.sealedFrame = some (frameBytes crc32c layout recordCount first stamp body ++
        List.replicate (layout.paddedLen (frameHeaderLen + body.length + frameTrailerLen) -
          (frameHeaderLen + body.length + frameTrailerLen))
          0) := by
  have hdef : defaultMaxFrameLen < 2 ^ 32 := by decide
  have hbuf : (List.replicate frameHeaderLen (0 : UInt8) ++ body).length = frameHeaderLen + body.length := by
    rw [length_append, length_replicate]
  have hdrop : (List.replicate frameHeaderLen (0 : UInt8) ++ body).drop frameHeaderLen = body := drop_left' length_replicate
  rw [FrameBuilder.finalize] at h
  split at h
  · simp at h
  rename_i hok
  simp only [not_or, Nat.not_lt] at hok
  obtain ⟨hcount, -, hepoch, hseq, hcovered⟩ := hok
  rw [FrameBuilder.frameLen, hbuf, if_pos (by omega), bind_eq_bind, bind_some, some.injEq] at h
  simp only [hdrop] at h
  have hframe : frameHeader layout (frameHeaderLen + body.length + frameTrailerLen) recordCount first stamp ++ body ++
      u32Bytes (crc32c (frameHeader layout (frameHeaderLen + body.length + frameTrailerLen) recordCount first stamp ++ body)) =
        frameBytes crc32c layout recordCount first stamp body := rfl
  have hframeLen := @frameBytes_length crc32c layout recordCount first stamp body
  rw [hframe, hframeLen] at h
  have hle := le_extentOf (@extentOf_eq layout _ hlen)
  refine ⟨Nat.pos_of_ne_zero hcount, hepoch, hseq, hcovered, ?_⟩
  rw [← h, FrameBuilder.sealedFrame, if_pos rfl, take_of_length_le]
  rw [length_append, length_replicate, hframeLen]
  simp only
  omega

section
variable (h : RingInv crc32c ring pending leases)
include h

/-- A seal puts the staged records under the lease and starts over in a free buffer. -/
theorem RingInv.sealFrame {first : Lsn} {coveredLsn : UInt64} {layout : FrameLayout} {lease : FrameLease}
    (hseal : ring.sealFrame crc32c first coveredLsn layout = some (ring', lease)) :
    RingInv crc32c ring' [] (⟨lease, ring.stampOf coveredLsn, layout, pending⟩ :: leases) := by
  have hroom := h.staged.room
  have hcap := h.capacity
  rw [StagingRing.sealFrame, h.builder, bind_eq_bind, bind_some] at hseal
  simp only at hseal
  split at hseal
  · simp at hseal
  obtain ⟨free, hfree, hseal⟩ := bind_eq_some_iff.mp hseal
  obtain ⟨b, hfinal, hseal⟩ := bind_eq_some_iff.mp hseal
  obtain ⟨frame, hframe, hseal⟩ := bind_eq_some_iff.mp hseal
  obtain ⟨hcount, hepoch, hseq, hcovered, hsealed⟩ := finalize_spec (hroom.trans hcap) hfinal
  split at hseal
  · simp at hseal
  rename_i hfits
  rw [some.injEq, Prod.mk.injEq] at hseal
  obtain ⟨rfl, rfl⟩ := hseal
  have hfreeState := getElem?_of_findIdx? hfree
  have hfreeLt : free < ring.state.length := (List.getElem?_eq_some_iff.mp hfreeState).1
  have hhereLt : ring.staging < ring.state.length := (List.getElem?_eq_some_iff.mp h.here).1
  have hne : free ≠ ring.staging := by
    rintro rfl
    exact absurd (hfreeState.symm.trans h.here) (by simp)
  have hcases {i : Nat} {x : BufState}
      (hx : ((ring.state.set ring.staging (.inFlight ring.generation)).set free .staging)[i]? = some x) :
      (i = free ∧ x = .staging) ∨ (i = ring.staging ∧ x = .inFlight ring.generation) ∨ i ≠ free ∧
      i ≠ ring.staging ∧ ring.state[i]? = some x := by
    by_cases hi : i = free
    · rw [hi, getElem?_set_self (by rw [length_set]; exact hfreeLt)] at hx
      exact .inl ⟨hi, (some.inj hx).symm⟩
    · rw [getElem?_set_ne (Ne.symm hi)] at hx
      by_cases hi' : i = ring.staging
      · rw [hi', getElem?_set_self hhereLt] at hx
        exact .inr (.inl ⟨hi', (some.inj hx).symm⟩)
      · rw [getElem?_set_ne (Ne.symm hi')] at hx
        exact .inr (.inr ⟨hi, hi', hx⟩)
  have hkeep {i : Nat} (hi : i ≠ free) (hi' : i ≠ ring.staging) :
      ((ring.state.set ring.staging (.inFlight ring.generation)).set free .staging)[i]? = ring.state[i]? := by
    rw [getElem?_set_ne (Ne.symm hi), getElem?_set_ne (Ne.symm hi')]
  have hthere : ((ring.state.set ring.staging (.inFlight ring.generation)).set free .staging)[ring.staging]? =
      some (.inFlight ring.generation) := by
    rw [getElem?_set_ne hne, getElem?_set_self hhereLt]
  have hmine : Leased crc32c { ring with
      bufs := ring.bufs.set ring.staging b
      state := (ring.state.set ring.staging (.inFlight ring.generation)).set free .staging
      staging := free
      inFlight := ring.inFlight + 1
      generation := ring.generation + 1
      nextFrameSeq := ring.nextFrameSeq + 1
      seals := ring.seals + 1 } ⟨⟨ring.generation, first, frame.length, pending.length⟩, ring.stampOf coveredLsn, layout, pending⟩
        ring.staging := by
    refine ⟨hthere, ?_, h.staged, hcount, hepoch, hseq, hcovered⟩
    simp only
    rw [getElem?_set_self (h.sizes ▸ hhereLt)]
    exact hsealed
  constructor
  case sizes => simp only [length_set]; exact h.sizes
  case capacity => exact h.capacity
  case here => exact getElem?_set_self (by rw [length_set]; exact hfreeLt)
  case builder =>
    simp only
    rw [getElem?_set_ne hne.symm, h.free free hfreeState]
    simp [FrameBuilder.new, bodyOf, encodeAll]
  case staged =>
    refine ⟨fun _ hentry => absurd hentry (by simp), .nil, ?_⟩
    simp only [bodyOf, map_nil, encodeAll, length_nil]
    omega
  case free =>
    intro i hi
    rcases hcases hi with ⟨-, hx⟩ | ⟨-, hx⟩ | ⟨-, hi', hx⟩
    · simp at hx
    · simp at hx
    · simp only
      rw [getElem?_set_ne (Ne.symm hi')]
      exact h.free i hx
  case flights =>
    intro i j g hi hj
    -- the new lease has a generation that no other has
    rcases hcases hi with ⟨-, hx⟩ | ⟨rfl, hx⟩ | ⟨-, -, hx⟩
    · simp at hx
    · rcases hcases hj with ⟨-, hy⟩ | ⟨rfl, -⟩ | ⟨-, -, hy⟩
      · simp at hy
      · rfl
      · have := h.older j g hy
        rw [BufState.inFlight.injEq] at hx
        omega
    · rcases hcases hj with ⟨-, hy⟩ | ⟨rfl, hy⟩ | ⟨-, -, hy⟩
      · simp at hy
      · have := h.older i g hx
        rw [BufState.inFlight.injEq] at hy
        omega
      · exact h.flights i j g hx hy
  case older =>
    intro i g hi
    rcases hcases hi with ⟨-, hx⟩ | ⟨-, hx⟩ | ⟨-, -, hx⟩
    · simp at hx
    · rw [BufState.inFlight.injEq] at hx
      exact hx ▸ Nat.lt_succ_self _
    · exact (h.older i g hx).trans (Nat.lt_succ_self _)
  case epoch => exact h.epoch
  case seq =>
    rw [not_or, Nat.not_le, Nat.not_le] at hfits
    exact ⟨Nat.succ_pos _, hfits.2⟩
  case leased =>
    intro sealed hmem
    rcases mem_cons.mp hmem with rfl | hmem
    · exact ⟨ring.staging, hmine⟩
    obtain ⟨i, hleased⟩ := h.leased sealed hmem
    have hi : i ≠ free := by
      rintro rfl
      exact absurd (hfreeState.symm.trans hleased.state) (by simp)
    have hi' : i ≠ ring.staging := by
      rintro rfl
      exact absurd (h.here.symm.trans hleased.state) (by simp)
    refine ⟨i, { hleased with state := (hkeep hi hi').trans hleased.state, bytes := ?_ }⟩
    simp only
    rw [getElem?_set_ne (Ne.symm hi')]
    exact hleased.bytes
  case distinct =>
    apply pairwise_cons.mpr
    refine ⟨fun sealed hmem => ?_, h.distinct⟩
    obtain ⟨i, hleased⟩ := h.leased sealed hmem
    exact (h.older i _ hleased.state).ne'

theorem RingInv.leasedIndex {sealed : SealedFrame} {i : Nat} (hleased : Leased crc32c ring sealed i) :
    ring.leasedIndex sealed.lease = some i :=
  findIdx?_of_unique hleased.state fun j hj => h.flights j i _ hj hleased.state

/-- A lease comes back. The others keep their buffers. -/
theorem RingInv.release {sealed : SealedFrame} (hmem : sealed ∈ leases)
    (hrelease : ring.release sealed.lease = some ring') : RingInv crc32c ring' pending (leases.erase sealed) := by
  obtain ⟨index, hleased⟩ := h.leased sealed hmem
  rw [StagingRing.release, h.leasedIndex hleased, bind_eq_bind, bind_some] at hrelease
  split at hrelease
  · simp at hrelease
  rw [some.injEq] at hrelease
  subst hrelease
  have hlt : index < ring.state.length := (List.getElem?_eq_some_iff.mp hleased.state).1
  have hne : ring.staging ≠ index := by
    rintro rfl
    exact absurd (h.here.symm.trans hleased.state) (by simp)
  have hcases {i : Nat} {x : BufState} (hx : (ring.state.set index .free)[i]? = some x) :
      (i = index ∧ x = .free) ∨ i ≠ index ∧ ring.state[i]? = some x := by
    by_cases hi : i = index
    · rw [hi, getElem?_set_self hlt] at hx
      exact .inl ⟨hi, (some.inj hx).symm⟩
    · rw [getElem?_set_ne (Ne.symm hi)] at hx
      exact .inr ⟨hi, hx⟩
  have hflight {i g : Nat} (hx : (ring.state.set index .free)[i]? = some (.inFlight g)) : ring.state[i]? = some (.inFlight g) := by
    rcases hcases hx with ⟨-, hx⟩ | ⟨-, hx⟩
    · simp at hx
    · exact hx
  constructor
  case sizes => simp only [length_set]; exact h.sizes
  case capacity => exact h.capacity
  case here => exact (getElem?_set_ne hne.symm).trans h.here
  case builder => exact (getElem?_set_ne hne.symm).trans h.builder
  case staged => exact h.staged
  case free =>
    intro i hi
    rcases hcases hi with ⟨rfl, -⟩ | ⟨hi', hx⟩
    · exact getElem?_set_self (h.sizes ▸ hlt)
    · exact (getElem?_set_ne (Ne.symm hi')).trans (h.free i hx)
  case flights => exact fun i j g hi hj => h.flights i j g (hflight hi) (hflight hj)
  case older => exact fun i g hi => h.older i g (hflight hi)
  case epoch => exact h.epoch
  case seq => exact h.seq
  case leased =>
    intro other hother
    obtain ⟨i, hleased'⟩ := h.leased other (mem_of_mem_erase hother)
    have hi : i ≠ index := by
      rintro rfl
      have hgen := some.inj (hleased.state.symm.trans hleased'.state)
      rw [BufState.inFlight.injEq] at hgen
      have hnodup : leases.Nodup := h.distinct.imp fun hab heq => hab (congrArg (fun s => s.lease.generation) heq)
      have heq : sealed = other :=
        inj_on_of_nodup_map (f := fun s : SealedFrame => s.lease.generation) (pairwise_map.mpr h.distinct) hmem
          (mem_of_mem_erase hother) hgen
      exact (hnodup.mem_erase_iff.mp hother).1 heq.symm
    exact ⟨i, { hleased' with
      state := (getElem?_set_ne (Ne.symm hi)).trans hleased'.state
      bytes := by
        simp only
        rw [getElem?_set_ne (Ne.symm hi)]
        exact hleased'.bytes }⟩
  case distinct => exact h.distinct.sublist erase_sublist

/-- A refused record changes nothing. -/
theorem RingInv.eq_of_refuse {record : RecordView} {full : StagingFull}
    (hstage : ring.stage record = some (ring', .error full)) : ring' = ring := by
  simp only [StagingRing.stage, h.remainingCapacity, bind_eq_bind, bind_some] at hstage
  split at hstage
  · rw [some.injEq, Prod.mk.injEq] at hstage
    exact hstage.1.symm
  · simp only [bind_eq_some_iff, some.injEq, Prod.mk.injEq, reduceCtorEq, and_false, exists_false] at hstage

theorem RingInv.refuse {record : RecordView} {full : StagingFull}
    (hstage : ring.stage record = some (ring', .error full)) : RingInv crc32c ring' pending leases := by
  rw [h.eq_of_refuse hstage]
  exact h

end

theorem Run.inv (h : Run crc32c ring pending leases) : RingInv crc32c ring pending leases := by
  induction h with
  | new hnew => exact .new hnew
  | epoch _ hset ih => exact ih.setFrameEpoch hset
  | stage _ hstage ih => exact ih.stage hstage
  | refuse _ hstage ih => exact ih.refuse hstage
  | sealFrame _ hseal ih => exact ih.sealFrame hseal
  | release _ hmem hrelease ih => exact ih.release hmem hrelease

end Inv

namespace SealedFrame

def body (sealed : SealedFrame) : List UInt8 := bodyOf sealed.staged

def frameLen (sealed : SealedFrame) : Nat := frameHeaderLen + sealed.body.length + frameTrailerLen

def bytes (crc32c : List UInt8 → UInt32) (sealed : SealedFrame) : List UInt8 :=
  frameBytes crc32c sealed.layout sealed.staged.length sealed.lease.firstRecordLsn sealed.stamp sealed.body ++
    List.replicate (sealed.layout.paddedLen sealed.frameLen - sealed.frameLen) 0

def frameRef (sealed : SealedFrame) : FrameRef :=
  ⟨sealed.lease.firstRecordLsn, sealed.staged.length, some sealed.stamp, sealed.layout, sealed.frameLen, sealed.body⟩

end SealedFrame

/-- Bytes that a ring holds under a lease, at an address the segment has, for a reader whose bound is not below the ring's. -/
structure LeasedBytes (crc32c : List UInt8 → UInt32) (maxFrameLen : Nat) (sealed : SealedFrame) (frame : List UInt8) : Prop where
  run : ∃ ring pending leases, Run crc32c ring pending leases ∧ sealed ∈ leases ∧ ring.leasedFrame sealed.lease = some frame ∧
    ring.capacityBytes ≤ maxFrameLen
  segment : sealed.lease.firstRecordLsn.segment < 2 ^ 32
  room : fitsSegment sealed.lease.firstRecordLsn frameHeaderLen frame.length = true

section ReadBack
variable {crc32c : List UInt8 → UInt32} {ring : StagingRing} {pending : List (StagedAt × RecordView)} {leases : List SealedFrame}
  {maxFrameLen : Nat} {sealed : SealedFrame} {frame : List UInt8}

theorem leasedFrame_eq (h : Run crc32c ring pending leases) (hmem : sealed ∈ leases) :
    ring.leasedFrame sealed.lease = some (sealed.bytes crc32c) := by
  obtain ⟨i, hleased⟩ := h.inv.leased sealed hmem
  rw [StagingRing.leasedFrame, h.inv.leasedIndex hleased]
  exact hleased.bytes

theorem SealedFrame.bytes_length (hle : sealed.frameLen ≤ sealed.layout.paddedLen sealed.frameLen) :
    (sealed.bytes crc32c).length = sealed.layout.paddedLen sealed.frameLen := by
  rw [bytes, length_append, frameBytes_length, length_replicate, ← frameLen]
  omega

/-- What is known of the bytes under a lease. -/
structure ReadBack (crc32c : List UInt8 → UInt32) (maxFrameLen : Nat) (sealed : SealedFrame) (frame : List UInt8) : Prop where
  bytes : frame = sealed.bytes crc32c
  fits : ∀ entry ∈ sealed.staged, entry.2.Fits
  tokens : TokensAt sealed.lease.generation 0 sealed.staged
  sealable : Sealable sealed.layout sealed.staged.length sealed.lease.firstRecordLsn sealed.stamp sealed.body
  max : sealed.frameLen ≤ maxFrameLen
  default : sealed.frameLen ≤ defaultMaxFrameLen
  length : frame.length = sealed.layout.paddedLen sealed.frameLen

theorem LeasedBytes.readBack (h : LeasedBytes crc32c maxFrameLen sealed frame) : ReadBack crc32c maxFrameLen sealed frame := by
  obtain ⟨ring, pending, leases, hrun, hmem, hframe, hmax⟩ := h.run
  obtain ⟨i, hleased⟩ := hrun.inv.leased sealed hmem
  obtain rfl : sealed.bytes crc32c = frame := some.inj ((leasedFrame_eq hrun hmem).symm.trans hframe)
  have hfit : sealed.frameLen ≤ ring.capacityBytes := hleased.staged.room
  have hdefault : sealed.frameLen ≤ defaultMaxFrameLen := hfit.trans hrun.inv.capacity
  have hlength : (sealed.bytes crc32c).length = sealed.layout.paddedLen sealed.frameLen :=
    SealedFrame.bytes_length (le_extentOf (extentOf_eq hdefault))
  have hcount := length_le_bodyOf hleased.staged.fits
  have hpos := hleased.nonempty
  have hroom := h.room
  rw [hlength] at hroom
  exact {
    bytes := rfl
    fits := hleased.staged.fits
    tokens := hleased.staged.tokens
    max := hfit.trans hmax
    default := hdefault
    length := hlength
    sealable := {
      records := hpos
      count := by rw [SealedFrame.body]; omega
      epoch := hleased.epoch
      seq := hleased.seq
      covered := hleased.covered
      minimal := by rw [SealedFrame.body]; omega
      segment := h.segment
      room := hroom } }

theorem ReadBack.decodeFrame (h : ReadBack crc32c maxFrameLen sealed frame) (t : List UInt8) :
    decodeFrame crc32c (frame ++ t) maxFrameLen = .ok (sealed.frameRef, sealed.frameLen) := by
  rw [h.bytes, SealedFrame.bytes, append_assoc]
  exact decodeFrame_frameBytes h.sealable h.max h.default _

/-- The records of the frame come back, each where its token said. -/
theorem ReadBack.records (h : ReadBack crc32c maxFrameLen sealed frame) :
    ∃ items, Yields RecordIter.next sealed.frameRef.records (items.map .ok) ∧
      List.Forall₂ (fun item entry => item.2 = entry.2 ∧ sealed.lease.lsnOf entry.1 = some item.1) items sealed.staged := by
  have hroom := h.sealable.room
  rw [fitsSegment, decide_eq_true_eq] at hroom
  have hle : sealed.frameLen ≤ sealed.layout.paddedLen sealed.frameLen := le_extentOf (extentOf_eq h.default)
  rw [← SealedFrame.frameLen] at hroom
  have hbody : sealed.lease.firstRecordLsn.offset + sealed.body.length < 2 ^ 32 := by
    have hlen : sealed.frameLen = frameHeaderLen + sealed.body.length + frameTrailerLen := rfl
    rw [frameTrailerLen] at hlen
    omega
  obtain ⟨items, hplaced, hall⟩ := h.tokens.placed rfl (by rw [add_zero]; exact hbody)
  have hviews : items.map Prod.snd = sealed.staged.map Prod.snd := by
    clear hplaced
    generalize sealed.staged = staged at hall ⊢
    induction hall with
    | nil => rfl
    | cons heq _ ih => rw [map_cons, map_cons, heq.1, ih]
  have hfits : ∀ item ∈ items, item.2.Fits := by
    intro item hitem
    have hmem : item.2 ∈ sealed.staged.map Prod.snd := hviews ▸ List.mem_map_of_mem hitem
    obtain ⟨entry, hentry, heq⟩ := List.mem_map.mp hmem
    exact heq ▸ h.fits entry hentry
  have hfirst : advance sealed.lease.firstRecordLsn 0 = some sealed.lease.firstRecordLsn := advance_eq_some.mpr ⟨rfl, rfl⟩
  have hcount : items.length = sealed.staged.length := hall.length_eq
  refine ⟨items, ?_, hall⟩
  rw [FrameRef.records, SealedFrame.frameRef]
  simp only
  rw [← hcount]
  apply yields_records hfits hplaced hfirst zero_le hbody
  rw [drop_zero, hviews, SealedFrame.body, bodyOf]

end ReadBack

/-- Frames one after another, each with the offset it begins at. -/
def framesAt : Nat → List (SealedFrame × List UInt8) → List (Nat × FrameRef)
  | _, [] => []
  | offset, (sealed, frame) :: rest => (offset, sealed.frameRef) :: framesAt (offset + frame.length) rest

private theorem decodeFrame_zeros (crc32c : List UInt8 → UInt32) (n maxFrameLen : Nat) :
    decodeFrame crc32c (List.replicate n 0) maxFrameLen = .error .zeroMagic := by
  rw [decodeFrame, length_replicate]
  split
  · apply if_pos
    simp
  · have hmagic : (List.replicate n (0 : UInt8)).take 4 = [0, 0, 0, 0] := by
      rw [take_replicate, Nat.min_eq_left (by omega)]
      rfl
    rw [hmagic]
    rfl

/-- The walk over a segment hands out its frames, and ends at the zeros after them. -/
private theorem yields_frames {crc32c : List UInt8 → UInt32} {maxFrameLen offset zeros : Nat} {buf : List UInt8}
    {frames : List (SealedFrame × List UInt8)} (hframes : ∀ f ∈ frames, ReadBack crc32c maxFrameLen f.1 f.2)
    (hdrop : buf.drop offset = frames.flatMap Prod.snd ++ List.replicate zeros 0) :
    Yields (FrameIter.next crc32c) ⟨buf, offset, maxFrameLen, false⟩ ((framesAt offset frames).map .ok) := by
  induction frames generalizing offset with
  | nil =>
    rw [flatMap_nil, nil_append] at hdrop
    apply Yields.skip (t := ⟨buf, offset, maxFrameLen, true⟩)
    · simp only [FrameIter.next, hdrop, decodeFrame_zeros]
      split <;> rfl
    · apply Yields.nil
      rw [FrameIter.next, if_pos (.inl rfl)]
  | cons f rest ih =>
    obtain ⟨sealed, frame⟩ := f
    have hback : ReadBack crc32c maxFrameLen sealed frame := hframes _ mem_cons_self
    simp only [flatMap_cons, append_assoc] at hdrop
    have hpadded : sealed.frameRef.paddedLen = frame.length := hback.length.symm
    have hlt : offset < buf.length := by
      have htotal := congrArg List.length hdrop
      have hle : sealed.frameLen ≤ frame.length := hback.length ▸ le_extentOf (extentOf_eq hback.default)
      have hlen : sealed.frameLen = frameHeaderLen + sealed.body.length + frameTrailerLen := rfl
      rw [frameHeaderLen] at hlen
      rw [length_drop, length_append] at htotal
      omega
    apply Yields.cons (t := ⟨buf, offset + frame.length, maxFrameLen, false⟩)
    · simp only [FrameIter.next, hdrop, hback.decodeFrame, hpadded]
      rw [if_neg]
      simp only [Bool.false_eq_true, false_or]
      omega
    · exact ih (forall_mem_cons.mp hframes).2 (drop_past hdrop rfl)

/-- What a ring seals is read back. The bytes of a lease are decoded to the same stamp, layout and first LSN whatever follows them, and
their records are the staged ones, each at the LSN of its token. A walk over sealed frames and zeros hands out the frames. The records
of any accepted frame are walked without a panic and inside it. -/
theorem frame_round_trip (crc32c : List UInt8 → UInt32) (maxFrameLen : Nat) :
    (∀ ring pending leases sealed, Run crc32c ring pending leases → sealed ∈ leases →
      ∃ frame, ring.leasedFrame sealed.lease = some frame) ∧
      (∀ sealed frame, LeasedBytes crc32c maxFrameLen sealed frame → ∀ t, ∃ view n,
        decodeFrame crc32c (frame ++ t) maxFrameLen = .ok (view, n) ∧ view.stamp = some sealed.stamp ∧ view.layout = sealed.layout ∧
          view.firstLsn = sealed.lease.firstRecordLsn ∧ ∃ items, Yields RecordIter.next view.records (items.map .ok) ∧
            List.Forall₂ (fun item entry => item.2 = entry.2 ∧ sealed.lease.lsnOf entry.1 = some item.1) items sealed.staged) ∧
      (∀ frames zeros, (∀ f ∈ frames, LeasedBytes crc32c maxFrameLen f.1 f.2) →
        Yields (FrameIter.next crc32c) (.new (frames.flatMap Prod.snd ++ List.replicate zeros 0) maxFrameLen)
          ((framesAt 0 frames).map .ok)) ∧
      ∀ buf frame n, decodeFrame crc32c buf maxFrameLen = .ok (frame, n) → n ≤ buf.length ∧ frame.body.length ≤ n ∧
        ∀ k, ∃ items, calls RecordIter.next k frame.records = some items ∧ ∀ item, some item ∈ items →
        HandedOut frame item := by
  refine ⟨?_, ?_, ?_, ?_⟩
  · intro ring pending leases sealed hrun hmem
    exact ⟨_, leasedFrame_eq hrun hmem⟩
  · intro sealed frame h t
    exact ⟨_, _, h.readBack.decodeFrame t, rfl, rfl, rfl, h.readBack.records⟩
  · intro frames zeros hframes
    exact yields_frames (fun f hf => (hframes f hf).readBack) rfl
  · intro buf frame n h
    obtain ⟨headerLen, hacc⟩ := accepted_of_decodeFrame h
    have hlen := hacc.length
    exact ⟨hacc.inBuf, by omega, fun k => records_inside h k⟩

def firstImage : RecordView := .stringPostImage 1 [107] [118]

def secondImage : RecordView := .stringPostImage 1 [108] [119]

def sameChecksum (_ : List UInt8) : UInt32 := 7

def firstLsn : Lsn := ⟨1, 40, by decide⟩

def nextLsn : Lsn := ⟨1, 98, by decide⟩

-- a ring of three buffers: two records and then one are staged, and each time their frame is put under lease
def ringNew : StagingRing := (StagingRing.new 64 2).get (by decide +kernel)
def ringFirst : StagingRing := ((ringNew.stage firstImage).get (by decide +kernel)).1
def ringSecond : StagingRing := ((ringFirst.stage secondImage).get (by decide +kernel)).1
def ringSealed : StagingRing := ((ringSecond.sealFrame sameChecksum firstLsn 40 .packed).get (by decide +kernel)).1
def ringThird : StagingRing := ((ringSealed.stage firstImage).get (by decide +kernel)).1
def ringBoth : StagingRing := ((ringThird.sealFrame sameChecksum nextLsn 40 .packed).get (by decide +kernel)).1

def pairSealed : SealedFrame :=
  ⟨⟨0, firstLsn, 58, 2⟩, ⟨1, 1, 40⟩, .packed, [(⟨0, 0⟩, firstImage), (⟨0, 7⟩, secondImage)]⟩

def loneSealed : SealedFrame := ⟨⟨1, nextLsn, 51, 1⟩, ⟨1, 2, 40⟩, .packed, [(⟨1, 0⟩, firstImage)]⟩

theorem ringBoth_run : Run sameChecksum ringBoth [] [loneSealed, pairSealed] := by
  have hnew : Run sameChecksum ringNew [] [] := .new (show StagingRing.new 64 2 = some ringNew by decide +kernel)
  have hfirst : Run sameChecksum ringFirst [(⟨0, 0⟩, firstImage)] [] :=
    .stage hnew (show ringNew.stage firstImage = some (ringFirst, .ok ⟨0, 0⟩) by rfl)
  have hsecond : Run sameChecksum ringSecond [(⟨0, 0⟩, firstImage), (⟨0, 7⟩, secondImage)] [] :=
    .stage hfirst (show ringFirst.stage secondImage = some (ringSecond, .ok ⟨0, 7⟩) by rfl)
  have hsealed : Run sameChecksum ringSealed [] [pairSealed] :=
    .sealFrame hsecond (show ringSecond.sealFrame sameChecksum firstLsn 40 .packed = some (ringSealed, pairSealed.lease) by
      decide +kernel)
  have hthird : Run sameChecksum ringThird [(⟨1, 0⟩, firstImage)] [pairSealed] :=
    .stage hsealed (show ringSealed.stage firstImage = some (ringThird, .ok ⟨1, 0⟩) by rfl)
  exact .sealFrame hthird (show ringThird.sealFrame sameChecksum nextLsn 40 .packed = some (ringBoth, loneSealed.lease) by
    decide +kernel)

/-- The two frames, each with its bytes. -/
def bothFrames : List (SealedFrame × List UInt8) :=
  [(pairSealed, pairSealed.bytes sameChecksum), (loneSealed, loneSealed.bytes sameChecksum)]

theorem bothFrames_leased : ∀ f ∈ bothFrames, LeasedBytes sameChecksum 64 f.1 f.2 :=
  forall_mem_cons.mpr ⟨⟨⟨_, _, _, ringBoth_run, by decide, by decide +kernel, by decide +kernel⟩, by decide, by decide +kernel⟩,
    forall_mem_singleton.mpr
      ⟨⟨_, _, _, ringBoth_run, by decide, by decide +kernel, by decide +kernel⟩, by decide, by decide +kernel⟩⟩

theorem frame_round_trip_both : (∃ frame, ringBoth.leasedFrame pairSealed.lease = some frame) ∧
      (∃ view n, ∃ items : List (Lsn × RecordView),
        decodeFrame sameChecksum (pairSealed.bytes sameChecksum ++ [0xFF]) 64 = .ok (view, n) ∧
        view.stamp = some ⟨1, 1, 40⟩ ∧ n ≤ (pairSealed.bytes sameChecksum ++ [0xFF]).length ∧
        Yields RecordIter.next view.records (items.map .ok) ∧ items.map Prod.snd = [firstImage, secondImage]) ∧
      Yields (FrameIter.next sameChecksum) (.new (bothFrames.flatMap Prod.snd ++ List.replicate 5 0) 64)
        [.ok (0, pairSealed.frameRef), .ok (58, loneSealed.frameRef)] := by
  obtain ⟨hleased, hdecode, hwalk, hany⟩ := frame_round_trip sameChecksum 64
  obtain ⟨view, n, hview, hstamp, -, -, items, hyields, hitems⟩ := hdecode pairSealed _ (bothFrames_leased _ mem_cons_self) [0xFF]
  refine ⟨hleased _ _ _ _ ringBoth_run (by decide), ⟨view, n, items, hview, hstamp, (hany _ _ _ hview).1, hyields, ?_⟩, ?_⟩
  · rw [pairSealed] at hitems
    cases hitems with
    | cons hfirst hrest =>
      cases hrest with
      | cons hsecond hrest =>
        cases hrest
        rw [map_cons, map_cons, hfirst.1, hsecond.1, map_nil]
  · exact hwalk bothFrames 5 bothFrames_leased

end InfinityDB.Log
