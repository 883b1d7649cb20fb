import InfinityDB.Lib.PageRing

/-!
# The logical address space of a tiered namespace

Records are placed at growing 48-bit addresses over a fixed ring of pages. Four watermarks divide the
space, pages are committed ahead of the tail and released behind the head.

A panic is `none`. `debug_assert!` panics only in a build with debug assertions, so the functions that
hold one take the build as a parameter. Every sum of the source stays below `2 ^ 64` (addresses below
`2 ^ 48`, the ring at most `2 ^ 63`, a record at most half the ring), so machine words are numbers.
-/

namespace InfinityDB.Space

open Lib

def maxRaw : Nat := 2 ^ 48 - 1

structure LogicalAddr where
  raw : Nat
  le_max : raw ≤ maxRaw
deriving DecidableEq

namespace LogicalAddr

def fromRaw (raw : Nat) : Option LogicalAddr := if h : raw ≤ maxRaw then some ⟨raw, h⟩ else none

def advanced (addr : LogicalAddr) (len : Nat) : Option LogicalAddr := fromRaw (addr.raw + len)

end LogicalAddr

structure Region where
  pageBytes : Nat
  committed : List Bool
deriving DecidableEq

namespace Region

def pages (r : Region) : Nat := r.committed.length

def commitPages (r : Region) (firstPage count : Nat) : Option Region :=
  if count = 0 then none
  else if r.pages < firstPage + count then none
  else if runIs r.committed firstPage count false then
    some { r with committed := setRun r.committed firstPage count true }
  else none

def decommitPages (r : Region) (firstPage count : Nat) : Option Region :=
  if count = 0 then none
  else if r.pages < firstPage + count then none
  else if runIs r.committed firstPage count true then
    some { r with committed := setRun r.committed firstPage count false }
  else none

end Region

structure AddressSpaceConfig where
  reserveBytes : Nat
  pageBytes : Nat
  lifeOrigin : LogicalAddr

structure WalkPin where
  watermark : Nat
  releaseCeiling : Nat
deriving DecidableEq

structure AddressSpace where
  region : Region
  ringMask : Nat
  pageBytes : Nat
  lifeOrigin : Nat
  head : Nat
  flushed : Nat
  roBoundary : Nat
  tail : Nat
  /-- Committed window, page-aligned and relative to the origin. -/
  commitFloorRel : Nat
  commitTopRel : Nat
  windowLimit : Nat
  deadBytes : Nat
  /-- Start and length of the sealed-dead intervals that `flushed` has not passed. -/
  holeMarks : List (Nat × Nat)
  flushCuts : List Nat
  walkPin : Option WalkPin
  recordPin : Option Nat
deriving DecidableEq

structure Prospect where
  len : Nat
  hole : Nat
  startRel : Nat
  topRel : Nat
deriving DecidableEq

inductive PadKind where
  | ringTop
  | page
deriving DecidableEq

structure PadTarget where
  dest : LogicalAddr
  tail : LogicalAddr
  kind : PadKind
deriving DecidableEq

inductive Room where
  | fits
  | demote (dest : LogicalAddr)
  | pad (target : PadTarget)
  /-- `End` in the source. -/
  | past
deriving DecidableEq

inductive WindowFull where
  | mk
deriving DecidableEq

def flushCutCap : Nat := 4096

def check (cond : Prop) [Decidable cond] : Option Unit := if cond then some () else none

/-- `debug_assert!`, compiled out unless `debug`. -/
def debugCheck (debug : Bool) (cond : Prop) [Decidable cond] : Option Unit := if debug ∧ ¬ cond then none else some ()

def IsPow2 (n : Nat) : Prop := n ≠ 0 ∧ n &&& (n - 1) = 0

instance (n : Nat) : Decidable (IsPow2 n) := inferInstanceAs (Decidable (_ ∧ _))

namespace AddressSpace

/-- Refusal of the reservation by the operating system is not a panic and leaves no address space. -/
def new (config : AddressSpaceConfig) : Option AddressSpace := do
  check (IsPow2 config.reserveBytes)
  check (4 * config.pageBytes ≤ config.reserveBytes)
  check (IsPow2 config.pageBytes)
  let origin := config.lifeOrigin.raw
  return { region := ⟨config.pageBytes, List.replicate (config.reserveBytes / config.pageBytes) false⟩
           ringMask := config.reserveBytes - 1, pageBytes := config.pageBytes, lifeOrigin := origin
           head := origin, flushed := origin, roBoundary := origin, tail := origin
           commitFloorRel := 0, commitTopRel := 0, windowLimit := config.reserveBytes, deadBytes := 0
           holeMarks := [], flushCuts := [], walkPin := none, recordPin := none }

variable (debug : Bool) (s : AddressSpace)

def ringBytes : Nat := s.ringMask + 1

/-- `rel & !(page_bytes - 1)`. -/
def pageFloor (rel : Nat) : Nat := rel - (rel &&& (s.pageBytes - 1))

def pageCeil (rel : Nat) : Nat := s.pageFloor (rel + s.pageBytes - 1)

/-- Where an address lies in the reservation. -/
def ringOffset (addr : Nat) : Nat := (addr - s.lifeOrigin) &&& s.ringMask

def assertWatermarkOrder : Option Unit := do
  debugCheck debug (s.lifeOrigin ≤ s.head)
  debugCheck debug (s.head ≤ s.flushed)
  debugCheck debug (s.flushed ≤ s.roBoundary)
  debugCheck debug (s.roBoundary ≤ s.tail)
  debugCheck debug (s.commitTopRel - s.commitFloorRel ≤ s.ringBytes)

def beginWalk (lowestImage : Option LogicalAddr) : Option (AddressSpace × LogicalAddr) := do
  check (s.walkPin = none)
  let watermark := s.flushed
  debugCheck debug (∀ a ∈ lowestImage, a.raw < watermark)
  debugCheck debug (∀ a ∈ lowestImage, s.head ≤ a.raw)
  let releaseCeiling := lowestImage.elim watermark fun a => min a.raw watermark
  let addr ← LogicalAddr.fromRaw watermark
  return ({ s with walkPin := some ⟨watermark, releaseCeiling⟩ }, addr)

def endWalk : Option AddressSpace := do
  check (s.walkPin ≠ none)
  return { s with walkPin := none }

def releaseCeiling : Nat :=
  let ceiling := s.walkPin.elim s.flushed fun pin => min pin.releaseCeiling s.flushed
  s.recordPin.elim ceiling fun p => min p ceiling

def setRecordPin (pin : Option LogicalAddr) : Option AddressSpace := do
  debugCheck debug (∀ p ∈ pin, s.head ≤ p.raw)
  debugCheck debug (∀ p ∈ pin, p.raw < s.tail)
  return { s with recordPin := pin.map LogicalAddr.raw }

def setWindowLimit (bytes : Nat) : Option AddressSpace := do
  let limit := min (s.pageFloor bytes) s.ringBytes
  check (4 * s.pageBytes ≤ limit)
  return { s with windowLimit := limit }

/-- The runs of `[page, top)` between wraps of the ring; a turn passes at least one page. -/
def ringRuns (apply : Region → Nat → Nat → Option Region) (ringPages top : Nat) : Nat → Nat → Region → Option Region
  | 0, _, region => some region
  | turns + 1, page, region =>
    if page < top then do
      let ringPage := page &&& (ringPages - 1)
      let run := min (top - page) (ringPages - ringPage)
      let region ← apply region ringPage run
      ringRuns apply ringPages top turns (page + run) region
    else some region

def forEachRingRun (fromRel toRel : Nat) (apply : Region → Nat → Nat → Option Region) : Option AddressSpace := do
  debugCheck debug (fromRel = s.pageFloor fromRel)
  debugCheck debug (toRel = s.pageFloor toRel)
  debugCheck debug (toRel - fromRel ≤ s.ringBytes)
  let ringPages := s.ringBytes / s.pageBytes
  let page := fromRel / s.pageBytes
  let top := toRel / s.pageBytes
  let region ← ringRuns apply ringPages top (top - page) page s.region
  return { s with region }

def commitRelPages (fromRel toRel : Nat) : Option AddressSpace :=
  forEachRingRun debug s fromRel toRel Region.commitPages

def decommitRelPages (fromRel toRel : Nat) : Option AddressSpace :=
  forEachRingRun debug s fromRel toRel Region.decommitPages

def prospect (len : Nat) : Option Prospect := do
  check (0 < len)
  check (len ≤ s.ringBytes / 2)
  let relTail := s.tail - s.lifeOrigin
  let offset := relTail &&& s.ringMask
  let hole := if s.ringBytes < offset + len then s.ringBytes - offset else 0
  let startRel := relTail + hole
  return ⟨len, hole, startRel, max (s.pageCeil (startRel + len)) s.commitTopRel⟩

def fits (p : Prospect) : Bool := p.topRel - s.commitFloorRel ≤ s.windowLimit

def startInside (p : Prospect) : Option LogicalAddr := do
  let start ← LogicalAddr.fromRaw (s.lifeOrigin + p.startRel)
  let _ ← start.advanced p.len
  return start

def addrAt (rel : Nat) : Option LogicalAddr := LogicalAddr.fromRaw (s.lifeOrigin + rel)

def classify (p : Prospect) : Option Room :=
  if (s.startInside p).isNone ∨ s.windowLimit < p.len then some .past
  else if s.fits p then some .fits
  else do
    let relTail := s.tail - s.lifeOrigin
    let needRel := p.topRel - s.windowLimit
    debugCheck debug (s.head - s.lifeOrigin < needRel)
    if needRel ≤ relTail then (s.addrAt needRel).map .demote
    else do
      let tail ← LogicalAddr.fromRaw s.tail
      if 0 < p.hole then do
        let pad ← s.prospect p.hole
        debugCheck debug (pad.startRel = relTail)
        debugCheck debug (pad.topRel = p.startRel)
        if s.fits pad then (s.addrAt p.startRel).map fun dest => .pad ⟨dest, tail, .ringTop⟩
        else do
          let padNeedRel := pad.topRel - s.windowLimit
          debugCheck debug (padNeedRel ≤ relTail)
          (s.addrAt padNeedRel).map .demote
      else (s.addrAt (s.pageCeil relTail)).map fun dest => .pad ⟨dest, tail, .page⟩

def room (len : Nat) : Option Room := do
  let p ← s.prospect len
  classify debug s p

/-- Commits up to a prospect's top, when that is above the committed top. -/
def commitTo (topRel : Nat) : Option AddressSpace :=
  if s.commitTopRel < topRel then do
    let s' ← commitRelPages debug s s.commitTopRel topRel
    return { s' with commitTopRel := topRel }
  else some s

def markHole (len : Nat) : Option AddressSpace := do
  let s' := { s with deadBytes := s.deadBytes + len, holeMarks := s.holeMarks ++ [(s.tail, len)] }
  debugCheck debug (s'.holeMarks.length ≤ 3)
  return s'

/-- A record that would cross the ring top leaves the rest of the turn dead. -/
def sealTop (hole : Nat) : Option AddressSpace := if 0 < hole then markHole debug s hole else some s

/-- The address placed, `none` for a refusal. -/
def alloc (len : Nat) : Option (AddressSpace × Option LogicalAddr) := do
  let p ← s.prospect len
  if s.fits p then
    match s.startInside p with
    | none => return (s, none)
    | some addr => do
      let s' ← commitTo debug s p.topRel
      let s' ← sealTop debug s' p.hole
      let s' := { s' with tail := s'.lifeOrigin + p.startRel + p.len }
      assertWatermarkOrder debug s'
      return (s', some addr)
  else return (s, none)

def padTail (target : PadTarget) : Option (AddressSpace × Except WindowFull Unit) := do
  check (target.tail.raw = s.tail)
  let toRel := target.dest.raw - s.lifeOrigin
  let padLen := target.dest.raw - s.tail
  let pad ← s.prospect padLen
  debugCheck debug (pad.hole = 0)
  debugCheck debug (pad.topRel = toRel)
  if s.fits pad then do
    let s' ← commitTo debug s pad.topRel
    let s' ← markHole debug s' padLen
    let s' := { s' with tail := target.dest.raw }
    assertWatermarkOrder debug s'
    return (s', .ok ())
  else return (s, .error .mk)

def advanceRoBoundary (dest : LogicalAddr) : Option AddressSpace := do
  check (s.roBoundary ≤ dest.raw)
  check (dest.raw ≤ s.tail)
  let cuts := if s.roBoundary < dest.raw ∧ s.flushCuts.length < flushCutCap then s.flushCuts ++ [dest.raw] else s.flushCuts
  let s' := { s with flushCuts := cuts, roBoundary := dest.raw }
  assertWatermarkOrder debug s'
  return s'

/-- The marks `flushed` passes are consumed; it must not land inside one. -/
def passMarks (dest : Nat) : List (Nat × Nat) → Option (List (Nat × Nat))
  | [] => some []
  | (start, len) :: marks =>
    if start + len ≤ dest then passMarks dest marks
    else do
      debugCheck debug (dest ≤ start)
      return (start, len) :: marks

def advanceFlushed (dest : LogicalAddr) : Option AddressSpace := do
  check (s.flushed ≤ dest.raw)
  check (dest.raw ≤ s.roBoundary)
  let marks ← passMarks debug dest.raw s.holeMarks
  let s' := { s with holeMarks := marks, flushCuts := s.flushCuts.dropWhile (· ≤ dest.raw), flushed := dest.raw }
  assertWatermarkOrder debug s'
  return s'

/-- Whole pages below the new floor go back to the operating system. -/
def releaseTo (newFloorRel : Nat) : Option AddressSpace :=
  if s.commitFloorRel < newFloorRel then do
    let s' ← decommitRelPages debug s s.commitFloorRel newFloorRel
    return { s' with commitFloorRel := newFloorRel }
  else some s

def advanceHead (dest : LogicalAddr) : Option AddressSpace := do
  check (s.head ≤ dest.raw)
  check (dest.raw ≤ s.flushed)
  check (dest.raw ≤ s.releaseCeiling)
  let s' := { s with head := dest.raw }
  let newFloorRel := s'.pageFloor (dest.raw - s'.lifeOrigin)
  let s' ← releaseTo debug s' newFloorRel
  assertWatermarkOrder debug s'
  return s'

end AddressSpace

inductive Call where
  | alloc (len : Nat)
  | padTail (target : PadTarget)
  | advanceRoBoundary (dest : LogicalAddr)
  | advanceFlushed (dest : LogicalAddr)
  | advanceHead (dest : LogicalAddr)
  | beginWalk (lowestImage : Option LogicalAddr)
  | endWalk
  | setRecordPin (pin : Option LogicalAddr)
  | setWindowLimit (bytes : Nat)

/-- A piece of the space below the tail. -/
inductive Piece where
  | record (start len : Nat)
  | hole (start len : Nat)
deriving DecidableEq

def Piece.span : Piece → Nat × Nat
  | record start len => (start, len)
  | hole start len => (start, len)

/-- The hole marks a call added. -/
def recorded (s s' : AddressSpace) : List Piece :=
  (s'.holeMarks.drop s.holeMarks.length).map fun mark => .hole mark.1 mark.2

namespace Call

/-- State after the call, with the holes it recorded and the range it returned. -/
def run (debug : Bool) (s : AddressSpace) : Call → Option (AddressSpace × List Piece)
  | alloc len => do
    let (s', addr) ← s.alloc debug len
    return (s', recorded s s' ++ (addr.map fun a => .record a.raw len).toList)
  | padTail target => do
    let (s', _) ← s.padTail debug target
    return (s', recorded s s')
  | advanceRoBoundary dest => (s.advanceRoBoundary debug dest).map (·, [])
  | advanceFlushed dest => (s.advanceFlushed debug dest).map (·, [])
  | advanceHead dest => (s.advanceHead debug dest).map (·, [])
  | beginWalk lowestImage => (s.beginWalk debug lowestImage).map fun answer => (answer.1, [])
  | endWalk => (s.endWalk).map (·, [])
  | setRecordPin pin => (s.setRecordPin debug pin).map (·, [])
  | setWindowLimit bytes => (s.setWindowLimit bytes).map (·, [])

/-- What callers owe beyond the assertions every build makes: a pad target is an answer of `room` in
this state, pins name records in RAM. -/
def Legal (debug : Bool) (s : AddressSpace) : Call → Prop
  | padTail target => ∃ len, s.room debug len = some (.pad target)
  | beginWalk lowestImage => ∀ a ∈ lowestImage, s.head ≤ a.raw ∧ a.raw < s.flushed
  | setRecordPin pin => ∀ p ∈ pin, s.head ≤ p.raw ∧ p.raw < s.tail
  | _ => True

end Call

/-- Calls one after the other, with the pieces they placed, oldest first. -/
inductive Run (debug : Bool) (s₀ : AddressSpace) : List Piece → AddressSpace → Prop where
  | start : Run debug s₀ [] s₀
  | call {s s' : AddressSpace} {pieces placed : List Piece} {c : Call} (h : Run debug s₀ pieces s)
      (legal : c.Legal debug s) (returns : c.run debug s = some (s', placed)) :
      Run debug s₀ (pieces ++ placed) s'

end InfinityDB.Space
