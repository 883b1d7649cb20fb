import InfinityDB.Log.Lsn

/-!
# Recovery of the log's segments

Boot replays the segments in order. Behind each segment's data end it scans the slack, because a
validating frame there is either a hole of this life or the residue of a discarded one, and only
the stamps tell them apart. The first hole stops replay: later segments are probed for evidence
only, until the finish step lifts the hole on a later epoch or resumes the log in front of it.
-/

namespace InfinityDB.Recover

/-- The stamp of a frame: the log life that wrote it, its number in that life, and the packed LSN
that group commit had covered when it was sealed (0 when nothing was). -/
structure FrameStamp where
  epoch : Nat
  seq : Nat
  coveredLsn : Nat
deriving DecidableEq

/-- A frame that decodes at its own offset. The length is the aligned one, so that its successor
starts at `base + len`. A format-v1 frame has no stamp. -/
structure Frame where
  base : Nat
  len : Nat
  stamp : Option FrameStamp
deriving DecidableEq

/-- A decoded frame at its own offset that names another segment: residue of a recycled file. -/
structure ForeignFrame where
  base : Nat
  epoch : Nat
deriving DecidableEq

/-- What a segment file holds: its own frames, frames stamped for other segments, and the offsets
of the remaining nonzero bytes. Everything else is zero. -/
structure SegmentFile where
  id : Nat
  frames : List Frame
  foreign : List ForeignFrame
  garbage : List Nat
deriving DecidableEq

def epochSpace : Nat := 2 ^ 32

/-- The packed LSN of an offset in a segment. -/
def packLsn (segment offset : Nat) : Nat := segment * 2 ^ 32 + offset

inductive ReadStep
  | frame (frame : Frame)
  | foreign
  | bad
  | zero
deriving DecidableEq

/-- One step of the segment reader at `offset`. -/
def SegmentFile.nextStep (file : SegmentFile) (offset : Nat) : ReadStep :=
  match file.frames.find? (fun f => f.base = offset) with
  | some f => .frame f
  | none =>
    if file.foreign.any (fun f => f.base = offset) then .foreign
    else if offset ∈ file.garbage then .bad
    else .zero

/-- Aggregate facts about the frames of a region. -/
structure RegionEvidence where
  validFrames : Nat
  maxCoveredLsn : Nat
  maxEpoch : Nat
  anyV1 : Bool
  nonzero : Bool
  foreignFrames : Nat
  maxForeignEpoch : Nat
deriving DecidableEq

def RegionEvidence.empty : RegionEvidence := ⟨0, 0, 0, false, false, 0, 0⟩

def RegionEvidence.absorb (a b : RegionEvidence) : RegionEvidence where
  validFrames := a.validFrames + b.validFrames
  maxCoveredLsn := max a.maxCoveredLsn b.maxCoveredLsn
  maxEpoch := max a.maxEpoch b.maxEpoch
  anyV1 := a.anyV1 || b.anyV1
  nonzero := a.nonzero
  foreignFrames := a.foreignFrames + b.foreignFrames
  maxForeignEpoch := max a.maxForeignEpoch b.maxForeignEpoch

def RegionEvidence.isRecycledResidue (e : RegionEvidence) : Bool :=
  e.validFrames == 0 && decide (0 < e.foreignFrames)

def maxOf (xs : List Nat) : Nat := xs.foldr max 0

/-- The region of `file` from byte `start` on. -/
def SegmentFile.scanRegionEvidence (file : SegmentFile) (start : Nat) : RegionEvidence :=
  let valid := file.frames.filter (fun f => start ≤ f.base)
  let foreign := file.foreign.filter (fun f => start ≤ f.base)
  { validFrames := valid.length
    maxCoveredLsn := maxOf (valid.map fun f => f.stamp.elim 0 (·.coveredLsn))
    maxEpoch := maxOf (valid.map fun f => f.stamp.elim 0 (·.epoch))
    anyV1 := valid.any (fun f => f.stamp.isNone)
    nonzero := !valid.isEmpty || !foreign.isEmpty || file.garbage.any (fun o => start ≤ o)
    foreignFrames := foreign.length
    maxForeignEpoch := maxOf (foreign.map (·.epoch)) }

inductive Phase
  | replay (idx : Nat)
  | audit (idx : Nat)
  | probe (idx : Nat)
  | finish
  | settle
  | complete
deriving DecidableEq

inductive Refusal
  | v1AfterV2
  | coveredLost
  | seqGap
  | coverageRegressed
  | epochSeq
  | beyondV1
  | beyondCovered
  | belowBegin
  | epochExhausted
  | outOfRange
deriving DecidableEq

/-- Where the log resumes, under which epoch, and how many of the segments are kept. -/
structure Resumed where
  segment : Nat
  offset : Nat
  epoch : Nat
  kept : Nat
deriving DecidableEq

/-- Where a segment's data ends, and whether the read failed there. -/
structure DataEnd where
  offset : Nat
  failed : Bool
deriving DecidableEq

structure Recovery where
  segments : List SegmentFile
  /-- The packed begin LSN of the MANIFEST. -/
  beginLsn : Option Nat
  phase : Phase
  ends : List DataEnd
  residue : List Bool
  staleSlack : List Bool
  evidence : List RegionEvidence
  prevStamp : Option FrameStamp
  sawV2 : Bool
  residueStop : Bool
  maxPrefixEpoch : Nat
  hole : Option Nat
  /-- The frames handed to the keyspace so far, each with its segment. -/
  replayed : List (Nat × Frame)
  finished : Option Resumed
deriving DecidableEq

/-- Recovery with its segments scanned and nothing replayed. -/
def Recovery.start (segments : List SegmentFile) (beginLsn : Option Nat) : Recovery :=
  ⟨segments, beginLsn, .replay 0, [], [], [], [], none, false, false, 0, none, [], none⟩

inductive StampVerdict
  | replay
  | residueStop
deriving DecidableEq

namespace Recovery

/-- Whether coverage claimed in an earlier segment reaches past what survives there. -/
def attestsLost (r : Recovery) (segment coveredLsn : Nat) : Bool :=
  decide (coveredLsn / 2 ^ 32 < segment) &&
    match r.segments.findIdx? (fun f => f.id = coveredLsn / 2 ^ 32) with
    | none => false
    | some idx =>
      match r.ends[idx]? with
      | none => false
      | some dataEnd => decide (dataEnd.offset < coveredLsn % 2 ^ 32)

/-- The continuity rules between two byte-adjacent frames. -/
def checkContinuity : Option FrameStamp → FrameStamp → Except Refusal Unit
  | none, _ => .ok ()
  | some prev, stamp =>
    if stamp.epoch = prev.epoch then
      if stamp.seq ≠ prev.seq + 1 then .error .seqGap
      else if stamp.coveredLsn < prev.coveredLsn then .error .coverageRegressed
      else .ok ()
    else if stamp.seq ≠ 1 then .error .epochSeq
    else .ok ()

def classifyStamp (r : Recovery) (segment : Nat) : Option FrameStamp → Except Refusal (Recovery × StampVerdict)
  | none => if r.sawV2 then .error .v1AfterV2 else .ok (r, .replay)
  | some stamp =>
    if stamp.epoch < r.maxPrefixEpoch then .ok (r, .residueStop)
    else if r.attestsLost segment stamp.coveredLsn then .error .coveredLost
    else
      match checkContinuity r.prevStamp stamp with
      | .error e => .error e
      | .ok () =>
        .ok ({ r with sawV2 := true, maxPrefixEpoch := max r.maxPrefixEpoch stamp.epoch, prevStamp := some stamp }, .replay)

/-- The data of a segment ends at a byte that is no frame of it: the continuity run ends too. -/
def endSegment (r : Recovery) (offset : Nat) (failed : Bool) : Recovery :=
  { r with prevStamp := none, ends := r.ends ++ [⟨offset, failed⟩] }

/-- The data of a segment ends at a frame of a discarded life. -/
def stopAtResidue (r : Recovery) (offset : Nat) : Recovery :=
  { r with residueStop := true, ends := r.ends ++ [⟨offset, false⟩] }

def hand (r : Recovery) (segment : Nat) (frame : Frame) : Recovery :=
  { r with replayed := r.replayed ++ [(segment, frame)] }

/-- The reader loop over one segment. Each turn reads one frame, so a segment is read in as many
turns as it has frames, and one more for its end. -/
def replayLoop (file : SegmentFile) : Nat → Recovery → Nat → Except Refusal Recovery
  | 0, r, offset => .ok (r.endSegment offset false)
  | turns + 1, r, offset =>
    match file.nextStep offset with
    | .zero => .ok (r.endSegment offset false)
    | .foreign => .ok (r.endSegment offset false)
    | .bad => .ok (r.endSegment offset true)
    | .frame frame =>
      match r.classifyStamp file.id frame.stamp with
      | .error e => .error e
      | .ok (r', .residueStop) => .ok (r'.stopAtResidue frame.base)
      | .ok (r', .replay) => replayLoop file turns (r'.hand file.id frame) (frame.base + frame.len)

def toPhase (r : Recovery) (phase : Phase) : Recovery := { r with phase := phase }

def stepReplay (r : Recovery) (idx : Nat) : Except Refusal Recovery :=
  match r.segments[idx]? with
  | none => .error .outOfRange
  | some file =>
    if r.residueStop then
      .ok { r with ends := r.ends ++ [⟨0, false⟩], phase := .audit idx }
    else (replayLoop file (file.frames.length + 1) r 0).map (·.toPhase (.audit idx))

/-- Validating frames of the slack that all sit below the replayed prefix's epoch. -/
def staleByEpoch (r : Recovery) (e : RegionEvidence) : Bool :=
  decide (0 < e.validFrames) && !e.anyV1 && decide (e.maxEpoch < r.maxPrefixEpoch)

/-- Residue that may be this life's: anything nonzero or a failed read, recycled frames apart. -/
def slackResidue (e : RegionEvidence) (failed : Bool) : Bool :=
  (e.nonzero || failed) && !e.isRecycledResidue

def recordAudit (r : Recovery) (e : RegionEvidence) (failed : Bool) : Recovery :=
  { r with
    residueStop := r.residueStop && !r.staleByEpoch e
    residue := r.residue ++ [slackResidue e failed]
    staleSlack := r.staleSlack ++ [r.staleByEpoch e]
    evidence := r.evidence ++ [e] }

def stepAudit (r : Recovery) (idx : Nat) : Except Refusal Recovery :=
  match r.segments[idx]?, r.ends[idx]? with
  | some file, some dataEnd =>
    let e := file.scanRegionEvidence dataEnd.offset
    let r' := r.recordAudit e dataEnd.failed
    if decide (0 < e.validFrames) && !r.staleByEpoch e then
      .ok { r' with hole := some idx, phase := if idx + 1 = r.segments.length then .finish else .probe (idx + 1) }
    else .ok (r'.toPhase (if idx + 1 = r.segments.length then .finish else .replay (idx + 1)))
  | _, _ => .error .outOfRange

def recordProbe (r : Recovery) (e : RegionEvidence) : Recovery :=
  { r with
    ends := r.ends ++ [⟨0, false⟩]
    residue := r.residue ++ [e.nonzero]
    staleSlack := r.staleSlack ++ [false]
    evidence := r.evidence ++ [e] }

def stepProbe (r : Recovery) (idx : Nat) : Except Refusal Recovery :=
  match r.segments[idx]? with
  | none => .error .outOfRange
  | some file =>
    .ok ((r.recordProbe (file.scanRegionEvidence 0)).toPhase
      (if idx + 1 = r.segments.length then .finish else .probe (idx + 1)))

/-- Whether the frames at the hole are residue of a life that a later segment outlives. -/
def liftsHole (r : Recovery) (hole : Nat) : Bool :=
  match r.evidence[hole]? with
  | none => false
  | some atHole => !atHole.anyV1 && decide (atHole.maxEpoch < maxOf ((r.evidence.drop (hole + 1)).map (·.maxEpoch)))

/-- The hole was residue: the segments behind it are the live log, and none of them was applied. -/
def lift (r : Recovery) (hole : Nat) : Recovery :=
  { r with
    staleSlack := (r.staleSlack.set hole true).take (hole + 1)
    hole := none
    residueStop := false
    ends := r.ends.take (hole + 1)
    residue := r.residue.take (hole + 1)
    evidence := r.evidence.take (hole + 1)
    phase := .replay (hole + 1) }

def stepFinish (r : Recovery) : Recovery :=
  match r.hole with
  | none => r.toPhase .settle
  | some hole => if r.liftsHole hole then r.lift hole else r.toPhase .settle

/-- The last of the first `upto` segments that holds data, or the first segment. -/
def lastWithData (ends : List DataEnd) : Nat → Nat
  | 0 => 0
  | n + 1 => if (ends[n]?).any (fun e => 0 < e.offset) then n else lastWithData ends n

def lastData (r : Recovery) : Nat :=
  match r.hole with
  | some hole =>
    if (r.ends[hole]?).any (fun e => 0 < e.offset) then hole else lastWithData r.ends hole
  | none => lastWithData r.ends r.ends.length

def torn (r : Recovery) : Bool :=
  ((r.residue.zip r.staleSlack).drop r.lastData).any fun p => p.1 && !p.2

def staleTrailing (r : Recovery) : Bool :=
  ((r.residue.zip r.staleSlack).drop r.lastData).any fun p => p.1 && p.2

/-- The evidence a truncation at the resume point would discard, stale residue apart. -/
def resumeEvidence (r : Recovery) : RegionEvidence :=
  (((r.evidence.zip r.staleSlack).drop r.lastData).filter fun p => !p.2).foldl
    (fun acc p => acc.absorb p.1) .empty

/-- The segment index at which the log resumes. -/
def resumeIndex (r : Recovery) : Nat :=
  if r.torn || r.staleTrailing then r.lastData else r.segments.length - 1

/-- The validating frames beyond the data end are refused when they may have been covered. -/
def checkBeyond (e : RegionEvidence) (resume : Nat) : Except Refusal Unit :=
  if 0 < e.validFrames then
    if e.anyV1 then .error .beyondV1
    else if resume < e.maxCoveredLsn then .error .beyondCovered
    else .ok ()
  else .ok ()

/-- Every epoch observed this boot. -/
def observedEpoch (r : Recovery) : Nat :=
  max (max r.maxPrefixEpoch r.resumeEvidence.maxEpoch) (maxOf (r.evidence.map (·.maxForeignEpoch)))

/-- The resume point, the begin guard and the epoch of the resumed life. -/
def resumeLog (r : Recovery) : Except Refusal Recovery :=
  match r.segments[r.resumeIndex]?, r.ends[r.resumeIndex]? with
  | some file, some dataEnd =>
    match checkBeyond r.resumeEvidence (packLsn file.id dataEnd.offset) with
    | .error e => .error e
    | .ok () =>
      if r.beginLsn.any (fun b => packLsn file.id dataEnd.offset < b) then .error .belowBegin
      else if epochSpace ≤ r.observedEpoch + 1 then .error .epochExhausted
      else
        .ok { r with
          phase := .complete
          finished := some ⟨file.id, dataEnd.offset, r.observedEpoch + 1, r.resumeIndex + 1⟩ }
  | _, _ => .error .outOfRange

def step (r : Recovery) : Except Refusal Recovery :=
  match r.phase with
  | .replay idx => r.stepReplay idx
  | .audit idx => r.stepAudit idx
  | .probe idx => r.stepProbe idx
  | .finish => .ok r.stepFinish
  | .settle => r.resumeLog
  | .complete => .ok r

def run : Nat → Recovery → Except Refusal Recovery
  | 0, r => .ok r
  | n + 1, r => match r.step with
    | .error e => .error e
    | .ok r' => run n r'

end Recovery

end InfinityDB.Recover
