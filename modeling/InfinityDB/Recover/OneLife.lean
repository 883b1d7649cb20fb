import InfinityDB.Recover.Machine

/-!
# What recovery replays of one log life

A crash leaves each frame of a life intact, absent or damaged. Within a segment the reader stops at
the first frame that is not intact, and an intact frame behind it is a hole, which ends replay
altogether. A torn tail with nothing intact behind it looks like ordinary slack, so replay goes on
in the next segment.
-/

namespace InfinityDB.Recover

open List

inductive Fate
  | intact
  | absent
  | damaged
deriving DecidableEq

/-- A frame that was appended, and what the crash left of it. -/
structure Appended where
  frame : Frame
  fate : Fate
deriving DecidableEq

def Appended.isIntact (a : Appended) : Bool := a.fate = .intact

/-- Frames in append order, each at the end of the one before. -/
def Adjacent : Nat → List Frame → Prop
  | _, [] => True
  | offset, f :: fs => f.base = offset ∧ 0 < f.len ∧ Adjacent (offset + f.len) fs

instance Adjacent.decidable : ∀ (offset : Nat) (fs : List Frame), Decidable (Adjacent offset fs)
  | _, [] => .isTrue trivial
  | offset, f :: fs => by
    have := Adjacent.decidable (offset + f.len) fs
    unfold Adjacent
    infer_instance

/-- The frames a life appended to one segment. -/
structure LifeSegment where
  id : Nat
  appended : List Appended
  adjacent : Adjacent 0 (appended.map Appended.frame)

/-- A life's frames in append order, each with its segment. -/
def appendOrder (segments : List LifeSegment) : List (Nat × Appended) :=
  segments.flatMap fun s => s.appended.map fun a => (s.id, a)

/-- The packed LSN at which a frame ends. -/
def endLsn (p : Nat × Appended) : Nat := packLsn p.1 (p.2.frame.base + p.2.frame.len)

/-- The log of one life: consecutive segments, one epoch, sequence numbers from 1 in append order,
each attestation the acknowledged watermark at its seal, and every acknowledged frame intact. -/
structure Life where
  epoch : Nat
  firstId : Nat
  segments : List LifeSegment
  /-- How many frames were acknowledged before the crash. -/
  acked : Nat
  /-- How many were acknowledged when a frame was sealed. -/
  ackedAt : Nat → Nat
  ids : segments.map (·.id) = List.range' firstId segments.length
  ackedAt_mono : Monotone ackedAt
  ackedAt_le : ∀ k, ackedAt k ≤ min k acked
  stamped : ∀ k (p : Nat × Appended), (appendOrder segments)[k]? = some p →
    p.2.frame.stamp = some ⟨epoch, k + 1,
      ((appendOrder segments).take (ackedAt k)).getLast?.elim 0 endLsn⟩
  keeps : ∀ k (p : Nat × Appended), k < acked → (appendOrder segments)[k]? = some p → p.2.fate = .intact

/-- The file a crash leaves of a segment: exactly the intact frames decode. Whatever else lies
there, zeros, damaged bytes or frames of the file's earlier use, is arbitrary. -/
structure LeftBy (written : LifeSegment) (file : SegmentFile) : Prop where
  id : file.id = written.id
  frames : file.frames = (written.appended.filter Appended.isIntact).map Appended.frame

variable {offset : Nat}

theorem Adjacent.le_base {fs : List Frame} (h : Adjacent offset fs) {f : Frame} (hf : f ∈ fs) : offset ≤ f.base := by
  induction fs generalizing offset with
  | nil => cases hf
  | cons g gs ih =>
    obtain ⟨hbase, -, hrest⟩ := h
    cases hf with
    | head => omega
    | tail _ hmem =>
      have := ih hrest hmem
      omega

namespace LifeSegment

/-- The frames the reader reaches: those before the first that is not intact. -/
def reached (s : LifeSegment) : List Appended := s.appended.takeWhile Appended.isIntact

/-- Nothing intact lies behind the first frame that is not. -/
def Clean (s : LifeSegment) : Prop := ∀ a ∈ s.appended.dropWhile Appended.isIntact, a.isIntact = false

def dataEnd (s : LifeSegment) : Nat := (s.reached.map (·.frame.len)).sum

/-- What recovery hands to the keyspace of a segment it replays. -/
def handed (s : LifeSegment) : List (Nat × Frame) := s.reached.map fun a => (s.id, a.frame)

end LifeSegment

theorem SegmentFile.nextStep_of_frame {file : SegmentFile} {seen more : List Frame} {f : Frame}
    (hframes : file.frames = seen ++ f :: more) (hseen : ∀ g ∈ seen, g.base < offset) (hf : f.base = offset) :
    file.nextStep offset = .frame f := by
  have hnone : seen.find? (fun g => decide (g.base = offset)) = none := by
    apply find?_eq_none.mpr
    intro g hg
    have := hseen g hg
    simp only [decide_eq_true_eq]
    omega
  simp [nextStep, hframes, find?_append, hnone, hf]

namespace Recovery

/-- Without a frame at the offset the segment's data ends there. -/
private theorem replayLoop_of_no_frame {file : SegmentFile} {offset : Nat} (hnone : ∀ f ∈ file.frames, f.base ≠ offset)
    (turns : Nat) (r : Recovery) : ∃ failed, replayLoop file turns r offset = .ok (r.endSegment offset failed) := by
  cases turns with
  | zero => exact ⟨false, rfl⟩
  | succ turns =>
    have hfind : file.frames.find? (fun f => decide (f.base = offset)) = none := by
      apply find?_eq_none.mpr
      intro f hf
      simpa using hnone f hf
    simp only [replayLoop, SegmentFile.nextStep, hfind]
    by_cases hforeign : file.foreign.any (fun f => decide (f.base = offset))
    · exact ⟨false, by rw [if_pos hforeign]⟩
    · by_cases hbad : offset ∈ file.garbage
      · exact ⟨true, by rw [if_neg hforeign, if_pos hbad]⟩
      · exact ⟨false, by rw [if_neg hforeign, if_neg hbad]⟩

/-- A stamp that is not below the prefix's epoch is replayed or refused. -/
private theorem classifyStamp_of_epoch_le {r r' : Recovery} {segment : Nat} {stamp : FrameStamp} {verdict : StampVerdict}
    (hepoch : r.maxPrefixEpoch ≤ stamp.epoch) (h : r.classifyStamp segment (some stamp) = .ok (r', verdict)) :
    verdict = .replay ∧
      r' = { r with sawV2 := true, maxPrefixEpoch := max r.maxPrefixEpoch stamp.epoch, prevStamp := some stamp } := by
  simp only [classifyStamp, if_neg (not_lt.mpr hepoch)] at h
  split at h
  · cases h
  split at h
  · cases h
  cases h
  exact ⟨rfl, rfl⟩

/-- The segment's reader handed over `handed` and stopped at `dataEnd`; no verdict on the slack
changed. -/
structure ReadInto (r r' : Recovery) (handed : List (Nat × Frame)) (dataEnd epoch : Nat) : Prop where
  replayed : r'.replayed = r.replayed ++ handed
  ends : ∃ failed, r'.ends = r.ends ++ [⟨dataEnd, failed⟩]
  epoch : r'.maxPrefixEpoch ≤ epoch
  segments : r'.segments = r.segments
  evidence : r'.evidence = r.evidence
  hole : r'.hole = r.hole
  residueStop : r'.residueStop = r.residueStop

private theorem readInto_endSegment {r : Recovery} {offset epoch : Nat} {failed : Bool} (h : r.maxPrefixEpoch ≤ epoch) :
    ReadInto r (r.endSegment offset failed) [] offset epoch :=
  ⟨(append_nil _).symm, ⟨failed, rfl⟩, h, rfl, rfl, rfl, rfl⟩

/-- The reader loop over what is left of a segment of one life, by induction on the frames left:
it hands over the intact ones up to the first that is not. -/
private theorem replayLoop_reads {file : SegmentFile} {epoch : Nat} (rest : List Appended) (seen : List Frame)
    (turns offset : Nat) (r r' : Recovery)
    (hframes : file.frames = seen ++ (rest.filter Appended.isIntact).map Appended.frame)
    (hseen : ∀ f ∈ seen, f.base < offset) (hadj : Adjacent offset (rest.map Appended.frame))
    (hstamp : ∀ a ∈ rest, ∃ seq covered, a.frame.stamp = some ⟨epoch, seq, covered⟩)
    (hbelow : r.maxPrefixEpoch ≤ epoch) (hturns : (rest.filter Appended.isIntact).length < turns)
    (h : replayLoop file turns r offset = .ok r') :
    ReadInto r r' ((rest.takeWhile Appended.isIntact).map fun a => (file.id, a.frame))
      (offset + ((rest.takeWhile Appended.isIntact).map (·.frame.len)).sum) epoch := by
  induction rest generalizing seen turns offset r with
  | nil =>
    have hnone : ∀ f ∈ file.frames, f.base ≠ offset := by
      intro f hf
      rw [hframes] at hf
      have := hseen f (by simpa using hf)
      omega
    obtain ⟨failed, hloop⟩ := replayLoop_of_no_frame hnone turns r
    rw [hloop] at h
    cases h
    exact readInto_endSegment hbelow
  | cons a rest ih =>
    obtain ⟨hbase, hlen, hrest⟩ : a.frame.base = offset ∧ 0 < a.frame.len ∧ _ := hadj
    by_cases ha : a.isIntact
    · -- the frame is read, classified in its own epoch and handed over
      obtain ⟨turns, rfl⟩ : ∃ k, turns = k + 1 := ⟨turns - 1, by omega⟩
      rw [filter_cons_of_pos ha, map_cons] at hframes
      rw [filter_cons_of_pos ha, length_cons] at hturns
      obtain ⟨seq, covered, hst⟩ := hstamp a mem_cons_self
      simp only [replayLoop, SegmentFile.nextStep_of_frame hframes hseen hbase] at h
      cases hc : r.classifyStamp file.id a.frame.stamp with
      | error e => simp [hc] at h
      | ok verdict =>
        obtain ⟨r₁, verdict⟩ := verdict
        rw [hst] at hc
        obtain ⟨rfl, rfl⟩ := classifyStamp_of_epoch_le hbelow hc
        rw [← hst] at hc
        simp only [hc] at h
        have hread := ih (seen ++ [a.frame]) turns (offset + a.frame.len) _ (by rw [hframes]; simp) (fun f hf => by
            rcases mem_append.mp hf with hf | hf
            · have := hseen f hf
              omega
            · have : f = a.frame := by simpa using hf
              subst this
              omega)
          hrest (forall_mem_cons.mp hstamp).2 (max_le hbelow (le_refl _)) (by omega)
          (by rw [← hbase]; exact h)
        rw [takeWhile_cons_of_pos ha, map_cons, map_cons, sum_cons]
        refine { hread with replayed := ?_, ends := ?_ }
        · rw [hread.replayed]
          simp [hand]
        · obtain ⟨failed, hends⟩ := hread.ends
          exact ⟨failed, by rw [hends, add_assoc]; rfl⟩
    · -- the frame does not decode, and every intact one lies behind it
      rw [filter_cons_of_neg ha] at hframes
      rw [takeWhile_cons_of_neg ha]
      have hnone : ∀ f ∈ file.frames, f.base ≠ offset := by
        intro f hf
        rw [hframes] at hf
        rcases mem_append.mp hf with hf | hf
        · have := hseen f hf
          omega
        · obtain ⟨b, hb, rfl⟩ := mem_map.mp hf
          have := hrest.le_base (mem_map_of_mem (mem_filter.mp hb).1)
          omega
      obtain ⟨failed, hloop⟩ := replayLoop_of_no_frame hnone turns r
      rw [hloop] at h
      cases h
      exact readInto_endSegment hbelow

end Recovery

private theorem le_maxOf {xs : List Nat} {x : Nat} (h : x ∈ xs) : x ≤ maxOf xs := by
  induction xs with
  | nil => cases h
  | cons y ys ih =>
    cases h with
    | head => exact le_max_left _ _
    | tail _ hmem => exact le_trans (ih hmem) (le_max_right _ _)

theorem maxOf_le {xs : List Nat} {bound : Nat} (h : ∀ x ∈ xs, x ≤ bound) : maxOf xs ≤ bound := by
  induction xs with
  | nil => exact zero_le
  | cons y ys ih =>
    exact max_le (h y mem_cons_self) (ih (forall_mem_cons.mp h).2)

/-- The slack of a life's own file: frames of one epoch only, and none of them when the segment is
clean. -/
structure SlackOf (s : LifeSegment) (epoch : Nat) (e : RegionEvidence) : Prop where
  clean : e.validFrames = 0 → s.Clean
  maxEpoch_le : e.maxEpoch ≤ epoch
  le_maxEpoch : 0 < e.validFrames → epoch ≤ e.maxEpoch

/-- Every frame of the segment carries the life's epoch. -/
def LifeSegment.OfEpoch (s : LifeSegment) (epoch : Nat) : Prop :=
  ∀ a ∈ s.appended, ∃ seq covered, a.frame.stamp = some ⟨epoch, seq, covered⟩

section Slack

variable {s : LifeSegment} {file : SegmentFile} {epoch : Nat}

theorem scan_maxEpoch_le (hleft : LeftBy s file) (hepoch : s.OfEpoch epoch) (start : Nat) :
    (file.scanRegionEvidence start).maxEpoch ≤ epoch := by
  apply maxOf_le
  intro x hx
  obtain ⟨f, hf, rfl⟩ := mem_map.mp hx
  rw [hleft.frames] at hf
  obtain ⟨a, ha, rfl⟩ := mem_map.mp (mem_filter.mp hf).1
  obtain ⟨seq, covered, hst⟩ := hepoch a (mem_filter.mp ha).1
  rw [hst]
  exact le_refl _

private theorem scan_le_maxEpoch (hleft : LeftBy s file) (hepoch : s.OfEpoch epoch) {start : Nat}
    (hvalid : 0 < (file.scanRegionEvidence start).validFrames) : epoch ≤ (file.scanRegionEvidence start).maxEpoch := by
  obtain ⟨f, hf⟩ := exists_mem_of_length_pos hvalid
  have hmem := (mem_filter.mp hf).1
  rw [hleft.frames] at hmem
  obtain ⟨a, ha, rfl⟩ := mem_map.mp hmem
  obtain ⟨seq, covered, hst⟩ := hepoch a (mem_filter.mp ha).1
  apply le_maxOf
  exact mem_map.mpr ⟨a.frame, hf, by rw [hst]; rfl⟩

theorem Adjacent.drop {offset : Nat} {front back : List Appended}
    (h : Adjacent offset ((front ++ back).map Appended.frame)) :
    Adjacent (offset + (front.map (·.frame.len)).sum) (back.map Appended.frame) := by
  induction front generalizing offset with
  | nil => exact h
  | cons a front ih =>
    have := ih h.2.2
    rwa [map_cons, sum_cons, ← add_assoc]

/-- The slack of a replayed segment holds exactly its intact frames past the first lost one. -/
private theorem clean_of_scan (hleft : LeftBy s file) (h : (file.scanRegionEvidence s.dataEnd).validFrames = 0) : s.Clean := by
  intro a ha
  have hback := @Adjacent.drop 0 s.reached (s.appended.dropWhile Appended.isIntact)
    (by rw [LifeSegment.reached, takeWhile_append_dropWhile]; exact s.adjacent)
  rw [zero_add] at hback
  have hbase : s.dataEnd ≤ a.frame.base := hback.le_base (mem_map_of_mem ha)
  by_contra hintact
  rw [Bool.not_eq_false] at hintact
  have hframe : a.frame ∈ file.frames := by
    rw [hleft.frames]
    exact mem_map_of_mem (mem_filter.mpr ⟨(dropWhile_sublist _).mem ha, hintact⟩)
  have hvalid := length_eq_zero_iff.mp h
  have := filter_eq_nil_iff.mp hvalid a.frame hframe
  simp [hbase] at this

private theorem slackOf_scan (hleft : LeftBy s file) (hepoch : s.OfEpoch epoch) :
    SlackOf s epoch (file.scanRegionEvidence s.dataEnd) :=
  ⟨clean_of_scan hleft, scan_maxEpoch_le hleft hepoch _, scan_le_maxEpoch hleft hepoch⟩

end Slack

namespace Recovery

/-- What the first `n` segments hand over when replay reaches them. -/
def handedUpTo (segs : List LifeSegment) (n : Nat) : List (Nat × Frame) :=
  (segs.take n).flatMap LifeSegment.handed

def CleanUpTo (segs : List LifeSegment) (n : Nat) : Prop :=
  ∀ i s, i < n → segs[i]? = some s → s.Clean

/-- Replay stopped behind the hole `h`: later segments are only probed. -/
structure StoppedAt (segs : List LifeSegment) (epoch : Nat) (r : Recovery) (h : Nat) : Prop where
  hole : r.hole = some h
  epoch_le : ∀ e, r.evidence[h]? = some e → epoch ≤ e.maxEpoch
  clean : CleanUpTo segs h
  replayed : r.replayed = handedUpTo segs (h + 1)

/-- Replay has gone through the first `n` segments and found no hole. -/
structure RanThrough (segs : List LifeSegment) (r : Recovery) (n : Nat) : Prop where
  hole : r.hole = none
  clean : CleanUpTo segs n
  replayed : r.replayed = handedUpTo segs n

/-- The outcome: a run of segments is replayed, all of them clean but perhaps the last. -/
def Outcome (segs : List LifeSegment) (r : Recovery) : Prop :=
  ∃ n, CleanUpTo segs (n - 1) ∧ r.replayed = handedUpTo segs n

/-- What each phase knows, over the evidence gathered so far. -/
def PhaseOk (segs : List LifeSegment) (epoch : Nat) (r : Recovery) : Prop :=
  match r.phase with
  | .replay idx => r.ends.length = idx ∧ r.evidence.length = idx ∧ RanThrough segs r idx
  | .audit idx =>
    r.evidence.length = idx ∧ r.hole = none ∧ CleanUpTo segs idx ∧
      r.replayed = handedUpTo segs (idx + 1) ∧ r.ends.length = idx + 1 ∧
      ∀ s e, segs[idx]? = some s → r.ends[idx]? = some e → e.offset = s.dataEnd
  | .probe idx => r.evidence.length = idx ∧ ∃ h, h < idx ∧ StoppedAt segs epoch r h
  | .finish => RanThrough segs r segs.length ∨ ∃ h, StoppedAt segs epoch r h
  | .settle => Outcome segs r
  | .complete => Outcome segs r

/-- The invariant of recovery over the files one life left. -/
structure OneLife (segs : List LifeSegment) (epoch : Nat) (r : Recovery) : Prop where
  left : List.Forall₂ LeftBy segs r.segments
  prefixEpoch : r.maxPrefixEpoch ≤ epoch
  noStop : r.residueStop = false
  evidence : ∀ e ∈ r.evidence, e.maxEpoch ≤ epoch
  phase : PhaseOk segs epoch r

section Steps

variable {segs : List LifeSegment} {epoch : Nat} {r r' : Recovery}

theorem left_get (hleft : List.Forall₂ LeftBy segs r.segments) {idx : Nat} {file : SegmentFile}
    (hfile : r.segments[idx]? = some file) : ∃ s, segs[idx]? = some s ∧ LeftBy s file := by
  obtain ⟨hlt, rfl⟩ := List.getElem?_eq_some_iff.mp hfile
  have hlt' : idx < segs.length := by rw [hleft.length_eq]; exact hlt
  exact ⟨segs[idx], getElem?_eq_getElem hlt', hleft.get hlt' hlt⟩

private theorem handedUpTo_succ {idx : Nat} {s : LifeSegment} (hs : segs[idx]? = some s) :
    handedUpTo segs (idx + 1) = handedUpTo segs idx ++ s.handed := by
  obtain ⟨hlt, rfl⟩ := List.getElem?_eq_some_iff.mp hs
  rw [handedUpTo, handedUpTo, take_succ_eq_append_getElem hlt, flatMap_append, flatMap_singleton]

theorem CleanUpTo.succ {idx : Nat} {s : LifeSegment} (h : CleanUpTo segs idx) (hs : segs[idx]? = some s)
    (hclean : s.Clean) : CleanUpTo segs (idx + 1) := by
  intro i t hi ht
  rcases Nat.lt_succ_iff_lt_or_eq.mp hi with hlt | rfl
  · exact h i t hlt ht
  · rw [hs] at ht
    cases ht
    exact hclean

section
variable (hinv : OneLife segs epoch r) (hepoch : ∀ s ∈ segs, s.OfEpoch epoch)
include hinv hepoch

theorem OneLife.stepReplay {idx : Nat}
    (hphase : r.phase = .replay idx) (h : r.stepReplay idx = .ok r') : OneLife segs epoch r' := by
  have hphaseOk := hinv.phase
  simp only [PhaseOk, hphase] at hphaseOk
  obtain ⟨hends, hevidence, hran⟩ := hphaseOk
  unfold Recovery.stepReplay at h
  cases hfile : r.segments[idx]? with
  | none => simp [hfile] at h
  | some file =>
    simp only [hfile, hinv.noStop, Bool.false_eq_true, if_false] at h
    cases hloop : replayLoop file (file.frames.length + 1) r 0 with
    | error e => simp [hloop, Except.map] at h
    | ok r₁ =>
      rw [hloop] at h
      cases h
      obtain ⟨s, hs, hleft⟩ := left_get hinv.left hfile
      have hread := replayLoop_reads s.appended [] _ 0 r r₁ hleft.frames (by simp) s.adjacent
        (hepoch s (mem_of_getElem? hs)) hinv.prefixEpoch (by rw [hleft.frames, length_map]; omega) hloop
      rw [hleft.id, zero_add] at hread
      refine ⟨?_, hread.epoch, ?_, ?_, ?_⟩
      · change List.Forall₂ LeftBy segs r₁.segments
        rw [hread.segments]
        exact hinv.left
      · exact hread.residueStop.trans hinv.noStop
      · intro e he
        change e ∈ r₁.evidence at he
        rw [hread.evidence] at he
        exact hinv.evidence e he
      · obtain ⟨failed, hends'⟩ := hread.ends
        change r₁.evidence.length = idx ∧ r₁.hole = none ∧ CleanUpTo segs idx ∧
          r₁.replayed = handedUpTo segs (idx + 1) ∧ r₁.ends.length = idx + 1 ∧ _
        refine ⟨by rw [hread.evidence, hevidence], by rw [hread.hole, hran.hole], hran.clean, ?_, ?_, ?_⟩
        · rw [hread.replayed, hran.replayed, handedUpTo_succ hs]
          rfl
        · rw [hends', length_append, hends, length_singleton]
        · intro t e ht he
          change r₁.ends[idx]? = some e at he
          rw [hends', ← hends, getElem?_concat_length] at he
          rw [hs] at ht
          cases ht
          cases he
          rfl

theorem OneLife.stepAudit {idx : Nat}
    (hphase : r.phase = .audit idx) (h : r.stepAudit idx = .ok r') : OneLife segs epoch r' := by
  have hphaseOk := hinv.phase
  simp only [PhaseOk, hphase] at hphaseOk
  obtain ⟨hevidence, hhole, hclean, hreplayed, hends, hdataEnd⟩ := hphaseOk
  have hlen := hinv.left.length_eq
  unfold Recovery.stepAudit at h
  cases hfile : r.segments[idx]? with
  | none => simp [hfile] at h
  | some file =>
    cases hend : r.ends[idx]? with
    | none => simp [hfile, hend] at h
    | some dataEnd =>
      obtain ⟨s, hs, hleft⟩ := left_get hinv.left hfile
      have hslack := slackOf_scan hleft (hepoch s (mem_of_getElem? hs))
      rw [← hdataEnd s dataEnd hs hend] at hslack
      simp only [hfile, hend] at h
      generalize file.scanRegionEvidence dataEnd.offset = e at h hslack
      -- a validating frame of this life never sits below the prefix's epoch
      have hstale : r.staleByEpoch e = false := by
        simp only [staleByEpoch, Bool.and_eq_false_imp, Bool.and_eq_true, decide_eq_true_eq, decide_eq_false_iff_not]
        intro hvalid
        exact not_lt.mpr (hinv.prefixEpoch.trans (hslack.le_maxEpoch hvalid.1))
      have hkept : ∀ x ∈ r.evidence ++ [e], x.maxEpoch ≤ epoch := by
        exact forall_mem_append.mpr ⟨hinv.evidence, forall_mem_singleton.mpr hslack.maxEpoch_le⟩
      have hstop : (r.residueStop && !r.staleByEpoch e) = false := by rw [hinv.noStop, Bool.false_and]
      by_cases hvalid : 0 < e.validFrames
      · simp only [hvalid, hstale, decide_true, Bool.not_false, Bool.and_self, if_true] at h
        cases h
        refine ⟨hinv.left, hinv.prefixEpoch, hstop, hkept, ?_⟩
        have hstopped : StoppedAt segs epoch { r.recordAudit e dataEnd.failed with
            hole := some idx
            phase := if idx + 1 = r.segments.length then .finish else .probe (idx + 1) } idx := by
          refine ⟨rfl, ?_, hclean, hreplayed⟩
          intro x hx
          change (r.evidence ++ [e])[idx]? = some x at hx
          rw [← hevidence, getElem?_concat_length] at hx
          cases hx
          exact hslack.le_maxEpoch hvalid
        by_cases hlast : idx + 1 = r.segments.length
        · simp only [PhaseOk, if_pos hlast]
          simp only [if_pos hlast] at hstopped
          exact .inr ⟨idx, hstopped⟩
        · simp only [PhaseOk, if_neg hlast]
          simp only [if_neg hlast] at hstopped
          refine ⟨?_, idx, Nat.lt_succ_self idx, hstopped⟩
          change (r.evidence ++ [e]).length = idx + 1
          rw [length_append, hevidence, length_singleton]
      · simp only [hvalid, decide_false, Bool.false_and, Bool.false_eq_true, if_false] at h
        cases h
        refine ⟨hinv.left, hinv.prefixEpoch, hstop, hkept, ?_⟩
        have hran : ∀ phase, RanThrough segs ((r.recordAudit e dataEnd.failed).toPhase phase) (idx + 1) := by
          intro phase
          exact ⟨hhole, hclean.succ hs (hslack.clean (by omega)), hreplayed⟩
        by_cases hlast : idx + 1 = r.segments.length
        · simp only [PhaseOk, toPhase, if_pos hlast]
          rw [hlen, ← hlast]
          exact .inl (hran _)
        · simp only [PhaseOk, toPhase, if_neg hlast]
          refine ⟨hends, ?_, hran _⟩
          change (r.evidence ++ [e]).length = idx + 1
          rw [length_append, hevidence, length_singleton]

theorem OneLife.stepProbe {idx : Nat}
    (hphase : r.phase = .probe idx) (h : r.stepProbe idx = .ok r') : OneLife segs epoch r' := by
  have hphaseOk := hinv.phase
  simp only [PhaseOk, hphase] at hphaseOk
  obtain ⟨hevidence, hole, hlt, hstopped⟩ := hphaseOk
  unfold Recovery.stepProbe at h
  cases hfile : r.segments[idx]? with
  | none => simp [hfile] at h
  | some file =>
    obtain ⟨s, hs, hleft⟩ := left_get hinv.left hfile
    have hscan := scan_maxEpoch_le hleft (hepoch s (mem_of_getElem? hs)) 0
    simp only [hfile] at h
    generalize file.scanRegionEvidence 0 = e at h hscan
    cases h
    refine { hinv with evidence := ?_, phase := ?_ }
    · exact forall_mem_append.mpr ⟨hinv.evidence, forall_mem_singleton.mpr hscan⟩
    · have hstill : ∀ phase, StoppedAt segs epoch ((r.recordProbe e).toPhase phase) hole := by
        intro phase
        refine ⟨hstopped.hole, ?_, hstopped.clean, hstopped.replayed⟩
        intro x hx
        change (r.evidence ++ [e])[hole]? = some x at hx
        rw [getElem?_append_left (by omega)] at hx
        exact hstopped.epoch_le x hx
      by_cases hlast : idx + 1 = r.segments.length
      · simp only [PhaseOk, toPhase, if_pos hlast]
        exact .inr ⟨hole, hstill _⟩
      · simp only [PhaseOk, toPhase, if_neg hlast]
        refine ⟨?_, hole, by omega, hstill _⟩
        change (r.evidence ++ [e]).length = idx + 1
        rw [length_append, hevidence, length_singleton]

end

/-- No hole of a single life is lifted: every later frame carries the same epoch. -/
theorem OneLife.not_liftsHole {hole : Nat} (hinv : OneLife segs epoch r) (hstopped : StoppedAt segs epoch r hole) :
    r.liftsHole hole = false := by
  unfold liftsHole
  cases he : r.evidence[hole]? with
  | none => rfl
  | some atHole =>
    have hlater : maxOf ((r.evidence.drop (hole + 1)).map (·.maxEpoch)) ≤ epoch := by
      apply maxOf_le
      intro x hx
      obtain ⟨e, he', rfl⟩ := mem_map.mp hx
      exact hinv.evidence e (mem_of_mem_drop he')
    have := hstopped.epoch_le atHole he
    simp only [Bool.and_eq_false_imp, decide_eq_false_iff_not]
    intro _
    omega

theorem OneLife.stepFinish (hinv : OneLife segs epoch r) (hphase : r.phase = .finish) :
    OneLife segs epoch r.stepFinish := by
  have hphaseOk := hinv.phase
  simp only [PhaseOk, hphase] at hphaseOk
  have hkeep : Outcome segs r → OneLife segs epoch (r.toPhase .settle) := fun h =>
    { hinv with phase := h }
  unfold Recovery.stepFinish
  rcases hphaseOk with hran | ⟨hole, hstopped⟩
  · rw [hran.hole]
    apply hkeep
    exact ⟨segs.length, fun i s hi => hran.clean i s (by omega), hran.replayed⟩
  · simp only [hstopped.hole, hinv.not_liftsHole hstopped, Bool.false_eq_true, if_false]
    apply hkeep
    exact ⟨hole + 1, hstopped.clean, hstopped.replayed⟩

private theorem resumeLog_keeps (h : r.resumeLog = .ok r') : r' = { r with phase := .complete, finished := r'.finished } := by
  unfold resumeLog at h
  split at h
  · split at h
    · cases h
    split at h
    · cases h
    split at h
    · cases h
    cases h
    rfl
  · cases h

theorem OneLife.step (hinv : OneLife segs epoch r) (hepoch : ∀ s ∈ segs, s.OfEpoch epoch) (h : r.step = .ok r') :
    OneLife segs epoch r' := by
  unfold Recovery.step at h
  cases hphase : r.phase with
  | replay idx => exact hinv.stepReplay hepoch hphase (by simpa only [hphase] using h)
  | audit idx => exact hinv.stepAudit hepoch hphase (by simpa only [hphase] using h)
  | probe idx => exact hinv.stepProbe hepoch hphase (by simpa only [hphase] using h)
  | finish =>
    simp only [hphase] at h
    cases h
    exact hinv.stepFinish hphase
  | settle =>
    simp only [hphase] at h
    have houtcome := hinv.phase
    simp only [PhaseOk, hphase] at houtcome
    rw [resumeLog_keeps h]
    exact { hinv with phase := houtcome }
  | complete =>
    simp only [hphase] at h
    cases h
    exact hinv

theorem OneLife.run (n : Nat) (hinv : OneLife segs epoch r) (hepoch : ∀ s ∈ segs, s.OfEpoch epoch)
    (h : r.run n = .ok r') : OneLife segs epoch r' := by
  induction n generalizing r with
  | zero =>
    cases h
    exact hinv
  | succ n ih =>
    simp only [Recovery.run] at h
    cases hstep : r.step with
    | error e => simp [hstep] at h
    | ok r₁ =>
      simp only [hstep] at h
      exact ih (hinv.step hepoch hstep) h

private theorem oneLife_start {files : List SegmentFile} (beginLsn : Option Nat) (hleft : List.Forall₂ LeftBy segs files) :
    OneLife segs epoch (Recovery.start files beginLsn) :=
  ⟨hleft, zero_le, rfl, by simp [Recovery.start], rfl, rfl, rfl, fun _ _ hi => absurd hi (Nat.not_lt_zero _), rfl⟩

end Steps

end Recovery

theorem Adjacent.base_lt {fs : List Frame} (h : Adjacent offset fs) {k l : Nat} {f g : Frame}
    (hf : fs[k]? = some f) (hg : fs[l]? = some g) (hlt : k < l) : f.base < g.base := by
  induction fs generalizing offset k l with
  | nil => cases hf
  | cons e fs ih =>
    obtain ⟨hbase, hlen, hrest⟩ := h
    obtain ⟨l, rfl⟩ : ∃ m, l = m + 1 := ⟨l - 1, by omega⟩
    cases k with
    | zero =>
      cases hf
      have := hrest.le_base (mem_of_getElem? hg)
      omega
    | succ k => exact ih hrest hf hg (by omega)

namespace LifeSegment

variable {s : LifeSegment} {k : Nat} {a b : Appended}

private theorem getElem?_of_reached (h : s.reached[k]? = some a) : s.appended[k]? = some a := by
  have hsplit : s.reached ++ s.appended.dropWhile Appended.isIntact = s.appended := takeWhile_append_dropWhile
  rw [← hsplit, getElem?_append_left (List.getElem?_eq_some_iff.mp h).1]
  exact h

/-- Two appended frames of a segment with one frame are the same. -/
private theorem index_of_frame {l : Nat} (ha : s.appended[k]? = some a) (hb : s.appended[l]? = some b)
    (h : a.frame = b.frame) : k = l := by
  have ha' : (s.appended.map Appended.frame)[k]? = some a.frame := by rw [getElem?_map, ha]; rfl
  have hb' : (s.appended.map Appended.frame)[l]? = some b.frame := by rw [getElem?_map, hb]; rfl
  rcases Nat.lt_trichotomy k l with hlt | heq | hlt
  · exact absurd (s.adjacent.base_lt ha' hb' hlt) (by rw [h]; exact lt_irrefl _)
  · exact heq
  · exact absurd (s.adjacent.base_lt hb' ha' hlt) (by rw [h]; exact lt_irrefl _)

/-- A frame is handed over exactly when the reader reaches its place. -/
theorem mem_handed_iff (ha : s.appended[k]? = some a) : (s.id, a.frame) ∈ s.handed ↔ k < s.reached.length := by
  constructor
  · intro h
    obtain ⟨b, hb, heq⟩ := mem_map.mp h
    obtain ⟨l, hl⟩ := mem_iff_getElem?.mp hb
    have : l = k := index_of_frame (getElem?_of_reached hl) ha (Prod.mk.inj heq).2
    subst this
    exact (List.getElem?_eq_some_iff.mp hl).1
  · intro h
    have hk := getElem?_of_reached (getElem?_eq_getElem h)
    rw [ha] at hk
    cases hk
    exact mem_map.mpr ⟨_, getElem_mem h, rfl⟩

/-- Past the frames reached, a clean segment has nothing intact. -/
theorem Clean.fate_ne (h : s.Clean) (ha : s.appended[k]? = some a) (hk : s.reached.length ≤ k) : a.fate ≠ .intact := by
  have hsplit : s.reached ++ s.appended.dropWhile Appended.isIntact = s.appended := takeWhile_append_dropWhile
  rw [← hsplit, getElem?_append_right hk] at ha
  have := h a (mem_of_getElem? ha)
  simpa [Appended.isIntact] using this

end LifeSegment

namespace Life

variable (life : Life)

/-- The frame with number `k` of segment number `i`. -/
def frameAt (i k : Nat) : Option Appended := life.segments[i]?.bind fun s => s.appended[k]?

def Replayed (r : Recovery) (i : Nat) (a : Appended) : Prop := (life.firstId + i, a.frame) ∈ r.replayed

variable {life}

variable {s : LifeSegment}

theorem id_eq {i : Nat} (h : life.segments[i]? = some s) : s.id = life.firstId + i := by
  have hmap : (life.segments.map (·.id))[i]? = some s.id := by rw [getElem?_map, h]; rfl
  rw [life.ids] at hmap
  obtain ⟨hlt, heq⟩ := List.getElem?_eq_some_iff.mp hmap
  rw [getElem_range', one_mul] at heq
  exact heq.symm

private theorem ofEpoch (hs : s ∈ life.segments) : s.OfEpoch life.epoch := by
  intro a ha
  have hmem : (s.id, a) ∈ appendOrder life.segments :=
    mem_flatMap.mpr ⟨s, hs, mem_map.mpr ⟨a, ha, rfl⟩⟩
  obtain ⟨k, hk⟩ := mem_iff_getElem?.mp hmem
  exact ⟨_, _, life.stamped k _ hk⟩

theorem mem_handedUpTo_iff {n i : Nat} {f : Frame} (hs : life.segments[i]? = some s) :
    (s.id, f) ∈ Recovery.handedUpTo life.segments n ↔ i < n ∧ (s.id, f) ∈ s.handed := by
  constructor
  · intro h
    obtain ⟨t, ht, hmem⟩ := mem_flatMap.mp h
    obtain ⟨j, hj⟩ := mem_iff_getElem?.mp ht
    have hjn : j < n := by
      have := (List.getElem?_eq_some_iff.mp hj).1
      rw [length_take] at this
      omega
    rw [getElem?_take_of_lt hjn] at hj
    obtain ⟨b, hb, heq⟩ := mem_map.mp hmem
    have hid : t.id = s.id := (Prod.mk.inj heq).1
    have : j = i := by
      rw [id_eq hj, id_eq hs] at hid
      omega
    subst this
    rw [hs] at hj
    cases hj
    exact ⟨hjn, hmem⟩
  · intro h
    apply mem_flatMap.mpr
    refine ⟨s, ?_, h.2⟩
    rw [← getElem?_take_of_lt h.1] at hs
    exact mem_of_getElem? hs

/-- A frame replayed after one that was not lies in a later segment, and the earlier segment has
nothing intact from the missed frame on: it is the torn tail of a rotation. -/
theorem replayed_after_missed (life : Life) (files : List SegmentFile) (hleft : List.Forall₂ LeftBy life.segments files)
    (beginLsn : Option Nat) (steps : Nat) (r : Recovery)
    (hrun : (Recovery.start files beginLsn).run steps = .ok r) (hdone : r.phase = .complete)
    (i k j l : Nat) (missed later : Appended)
    (hmissed : life.frameAt i k = some missed) (hlater : life.frameAt j l = some later) (horder : i < j ∨ i = j ∧ k < l)
    (hnot : ¬ life.Replayed r i missed) (hreplayed : life.Replayed r j later) :
    i < j ∧ ∀ m a, k ≤ m → life.frameAt i m = some a → a.fate ≠ .intact := by
  have hstart : Recovery.OneLife life.segments life.epoch (Recovery.start files beginLsn) :=
    Recovery.oneLife_start beginLsn hleft
  have hinv := hstart.run steps (fun _ => ofEpoch) hrun
  have houtcome := hinv.phase
  simp only [Recovery.PhaseOk, hdone] at houtcome
  obtain ⟨n, hclean, hr⟩ := houtcome
  obtain ⟨s, hs, hmissed⟩ := Option.bind_eq_some_iff.mp hmissed
  obtain ⟨t, ht, hlater⟩ := Option.bind_eq_some_iff.mp hlater
  unfold Replayed at hnot hreplayed
  rw [← id_eq hs, hr, mem_handedUpTo_iff hs, s.mem_handed_iff hmissed] at hnot
  rw [← id_eq ht, hr, mem_handedUpTo_iff ht, t.mem_handed_iff hlater] at hreplayed
  have hij : i < j := by
    rcases horder with hlt | ⟨rfl, hkl⟩
    · exact hlt
    · -- within a segment the frames reached are a prefix
      rw [hs] at ht
      cases ht
      exact absurd ⟨hreplayed.1, hkl.trans hreplayed.2⟩ hnot
  have hk : s.reached.length ≤ k := by
    by_contra hlt
    exact hnot ⟨hij.trans hreplayed.1, by omega⟩
  refine ⟨hij, ?_⟩
  intro m a hkm ha
  obtain ⟨s', hs', ha⟩ := Option.bind_eq_some_iff.mp ha
  rw [hs] at hs'
  cases hs'
  have hs_clean : s.Clean := hclean i s (by omega) hs
  exact hs_clean.fate_ne ha (hk.trans hkm)

/-- Two frames go to segment 0 and one to segment 1; the crash loses the second. -/
def tornTail : Life where
  epoch := 1
  firstId := 0
  segments :=
    [⟨0, [⟨⟨0, 4096, some ⟨1, 1, 0⟩⟩, .intact⟩, ⟨⟨4096, 4096, some ⟨1, 2, 0⟩⟩, .absent⟩], by decide⟩,
      ⟨1, [⟨⟨0, 4096, some ⟨1, 3, 0⟩⟩, .intact⟩], by decide⟩]
  acked := 0
  ackedAt := fun _ => 0
  ids := rfl
  ackedAt_mono := fun _ _ _ => le_refl 0
  ackedAt_le := fun _ => zero_le
  stamped := by
    intro k p hp
    match k, hp with
    | 0, hp => cases hp; rfl
    | 1, hp => cases hp; rfl
    | 2, hp => cases hp; rfl
    | _ + 3, hp => cases hp
  keeps := fun _ _ h => absurd h (Nat.not_lt_zero _)

def tornTailFiles : List SegmentFile :=
  [⟨0, [⟨0, 4096, some ⟨1, 1, 0⟩⟩], [], []⟩, ⟨1, [⟨0, 4096, some ⟨1, 3, 0⟩⟩], [], []⟩]

theorem tornTail_left : List.Forall₂ LeftBy tornTail.segments tornTailFiles :=
  .cons ⟨rfl, rfl⟩ (.cons ⟨rfl, rfl⟩ .nil)

/-- The recovery of those files: both surviving frames are handed over. -/
def tornTailRecovered : Recovery :=
  { segments := tornTailFiles, beginLsn := none, phase := .complete
    ends := [⟨4096, false⟩, ⟨4096, false⟩], residue := [false, false], staleSlack := [false, false]
    evidence := [.empty, .empty], prevStamp := none, sawV2 := true, residueStop := false, maxPrefixEpoch := 1
    hole := none, replayed := [(0, ⟨0, 4096, some ⟨1, 1, 0⟩⟩), (1, ⟨0, 4096, some ⟨1, 3, 0⟩⟩)]
    finished := some ⟨1, 4096, 2, 2⟩ }

theorem tornTail_run : (Recovery.start tornTailFiles none).run 6 = .ok tornTailRecovered := by
  decide +kernel

theorem replayed_after_missed_tornTail : 0 < 1 ∧ ∀ m a, 1 ≤ m → tornTail.frameAt 0 m = some a → a.fate ≠ .intact :=
  replayed_after_missed tornTail tornTailFiles tornTail_left none 6 tornTailRecovered tornTail_run rfl 0 1 1 0
    ⟨⟨4096, 4096, some ⟨1, 2, 0⟩⟩, .absent⟩ ⟨⟨0, 4096, some ⟨1, 3, 0⟩⟩, .intact⟩ rfl rfl
    (.inl Nat.zero_lt_one) (show ¬ (_ ∈ tornTailRecovered.replayed) by decide)
    (show _ ∈ tornTailRecovered.replayed by decide)

/-- The replayed frames of one life need not be a prefix of the append order. -/
theorem replayed_frames_can_skip_a_torn_tail :
    ¬ ∀ (life : Life) (files : List SegmentFile) (beginLsn : Option Nat) (steps : Nat) (r : Recovery),
      List.Forall₂ LeftBy life.segments files → (Recovery.start files beginLsn).run steps = .ok r →
      r.phase = .complete → ∀ (i k j l : Nat) (missed later : Appended),
      life.frameAt i k = some missed → life.frameAt j l = some later → (i < j ∨ i = j ∧ k < l) →
      ¬ life.Replayed r i missed → ¬ life.Replayed r j later := by
  intro h
  apply h tornTail tornTailFiles none 6 tornTailRecovered tornTail_left tornTail_run rfl 0 1 1 0
    ⟨⟨4096, 4096, some ⟨1, 2, 0⟩⟩, .absent⟩ ⟨⟨0, 4096, some ⟨1, 3, 0⟩⟩, .intact⟩ rfl rfl
    (.inl Nat.zero_lt_one)
  · show ¬ (_ ∈ tornTailRecovered.replayed)
    decide
  · show _ ∈ tornTailRecovered.replayed
    decide

end Life

end InfinityDB.Recover
