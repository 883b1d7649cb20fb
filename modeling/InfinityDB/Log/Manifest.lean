import InfinityDB.Lib.Cursor
import InfinityDB.Log.Lsn

/-!
# The MANIFEST payload

A MANIFEST names a checkpoint, the LSN where its replay begins, the live segments from there on, and
for each tiered namespace the durable ranges of its files. The writer asserts the rules of the tier
sections, the reader checks every rule. One value has one payload, and every payload that is read is
the one of its value.
-/

namespace InfinityDB.Log

open Lib List Option

/-- The text `INFMAN1` and a zero byte. -/
def manifestMagic : Bytes := [0x49, 0x4E, 0x46, 0x4D, 0x41, 0x4E, 0x31, 0x00]

def manifestEpoch : UInt32 := 1
def manifestEpochV2 : UInt32 := 2
def manifestEpochV3 : UInt32 := 3

def maxSegments : Nat := 2 ^ 20
def maxTierNs : Nat := 2 ^ 16
def maxTierFiles : Nat := 2 ^ 20
def addrLimit : Nat := 2 ^ 48

def fixedLen : Nat := 8 + 4 + 8 + 8 + 8 + 4
def epochEnd : Nat := 8 + 4
def tierNsFixedLen : Nat := 4 + 8 + 4
def tierFileLen : Nat := 4 + 8 + 8

/-- The packed form read back. -/
def lsnOfU64 (packed : UInt64) : Lsn := ⟨packed.toNat / 2 ^ 32, packed.toNat % 2 ^ 32, Nat.mod_lt _ (by decide)⟩

structure TierFileRange where
  id : UInt32
  base : UInt64
  durableLen : UInt64
deriving DecidableEq, Repr

/-- One past the last address of the range; the sum saturates. -/
def TierFileRange.endAddr (file : TierFileRange) : Nat := min (file.base.toNat + file.durableLen.toNat) (2 ^ 64 - 1)

structure TierNsManifest where
  ns : UInt32
  flushed : UInt64
  files : List TierFileRange
deriving DecidableEq, Repr

structure Manifest where
  ckptId : UInt64
  beginLsn : Lsn
  segments : List UInt32
  tiers : List TierNsManifest
  keyHashId : UInt64
deriving DecidableEq

def TierFileRange.bytes (file : TierFileRange) : Bytes := u32Bytes file.id ++ (u64Bytes file.base ++ u64Bytes file.durableLen)

/-- The count in front of a list; a count that does not fit is a panic. -/
def countBytes (count : Nat) : Option Bytes := if count < 2 ^ 32 then some (leBytes 4 count) else none

/-- The files of a section, after a range that ends at `prevEnd` in the file `prevId`. -/
def encodeFiles (flushed : UInt64) : Nat → Option UInt32 → List TierFileRange → Option Bytes
  | _, _, [] => some []
  | prevEnd, prevId, file :: rest =>
    if 1 ≤ file.durableLen.toNat ∧ prevEnd ≤ file.base.toNat ∧ (∀ p ∈ prevId, p < file.id) ∧
      file.endAddr ≤ flushed.toNat then do
      let tail ← encodeFiles flushed file.endAddr (some file.id) rest
      some (file.bytes ++ tail)
    else none

def encodeTiers : Option UInt32 → List TierNsManifest → Option Bytes
  | _, [] => some []
  | prevNs, tier :: rest =>
    if (∀ p ∈ prevNs, p < tier.ns) ∧ tier.flushed.toNat < addrLimit then do
      let count ← countBytes tier.files.length
      let files ← encodeFiles tier.flushed 0 none tier.files
      let tail ← encodeTiers (some tier.ns) rest
      some (u32Bytes tier.ns ++ (u64Bytes tier.flushed ++ (count ++ (files ++ tail))))
    else none

def segmentBytes : List UInt32 → Bytes
  | [] => []
  | seg :: rest => u32Bytes seg ++ segmentBytes rest

/-- The payload; `none` where an assertion fails. -/
def Manifest.encode (m : Manifest) : Option Bytes := do
  let count ← countBytes m.segments.length
  let tierCount ← countBytes m.tiers.length
  let tiers ← encodeTiers none m.tiers
  some (manifestMagic ++ (u32Bytes manifestEpochV3 ++ (u64Bytes m.ckptId ++ (leBytes 8 m.beginLsn.toU64 ++ (u64Bytes m.keyHashId ++
    (count ++ (segmentBytes m.segments ++ (tierCount ++ tiers))))))))

inductive ManifestDecodeError where
  | badMagic (got : Bytes)
  | unsupportedEpoch (epoch : UInt32)
  | predatesKeyHashBinding (epoch : UInt32)
  | truncated (length : Nat)
  | trailingBytes (extra : Nat)
  | noSegments
  | tooManySegments (count : Nat)
  | segmentsNotAscending (index : Nat)
  | floorMismatch (first beginSegment : Nat)
  | tooManyTierSections (count : Nat)
  | tierNsNotAscending (ns : UInt32)
  | tooManyTierFiles (ns : UInt32) (count : Nat)
  | tierFilesNotAscending (ns id : UInt32)
  | tierRangeEmpty (ns id : UInt32)
  | tierRangeBroken (ns id : UInt32)
  | tierAddrOutOfRange (ns : UInt32) (value : UInt64)
deriving DecidableEq, Repr

def take (payload : Bytes) (pos n : Nat) : Except ManifestDecodeError Bytes :=
  match region payload pos n with
  | some slice => .ok slice
  | none => .error (.truncated payload.length)

def words : Nat → Bytes → List UInt32
  | 0, _ => []
  | n + 1, bytes => u32At bytes 0 :: words n (bytes.drop 4)

/-- The first pair out of order is the error. -/
def checkAscending : Nat → List UInt32 → Except ManifestDecodeError Unit
  | index, first :: second :: rest =>
    if second ≤ first then .error (.segmentsNotAscending (index + 1)) else checkAscending (index + 1) (second :: rest)
  | _, _ => .ok ()

def fileAt (raw : Bytes) : TierFileRange := ⟨u32At raw 0, u64At raw 4, u64At raw 12⟩

/-- The checks of one file, after a range that ends at `prevEnd` in the file `prevId`. -/
def checkFile (ns : UInt32) (flushed : UInt64) (prevEnd : Nat) (prevId : Option UInt32) (file : TierFileRange) :
    Except ManifestDecodeError Unit :=
  if file.durableLen = 0 then .error (.tierRangeEmpty ns file.id)
  else if 2 ^ 64 ≤ file.base.toNat + file.durableLen.toNat then .error (.tierAddrOutOfRange ns file.base)
  else if flushed.toNat < file.base.toNat + file.durableLen.toNat ∨ file.base.toNat < prevEnd then .error (.tierRangeBroken ns file.id)
  else if ∃ p ∈ prevId, file.id ≤ p then .error (.tierFilesNotAscending ns file.id)
  else .ok ()

def decodeFiles (payload : Bytes) (ns : UInt32) (flushed : UInt64) :
    Nat → Nat → Nat → Option UInt32 → Except ManifestDecodeError (List TierFileRange × Nat)
  | 0, pos, _, _ => .ok ([], pos)
  | count + 1, pos, prevEnd, prevId => do
    let raw ← take payload pos tierFileLen
    let file := fileAt raw
    checkFile ns flushed prevEnd prevId file
    let (files, pos) ← decodeFiles payload ns flushed count (pos + tierFileLen) (file.base.toNat + file.durableLen.toNat) (some file.id)
    .ok (file :: files, pos)

def checkTierNs (ns : UInt32) (flushed : UInt64) (fileCount : Nat) (prevNs : Option UInt32) : Except ManifestDecodeError Unit :=
  if ∃ p ∈ prevNs, ns ≤ p then .error (.tierNsNotAscending ns)
  else if addrLimit ≤ flushed.toNat then .error (.tierAddrOutOfRange ns flushed)
  else if maxTierFiles < fileCount then .error (.tooManyTierFiles ns fileCount)
  else .ok ()

def decodeTierNs (payload : Bytes) : Nat → Nat → Option UInt32 → Except ManifestDecodeError (List TierNsManifest × Nat)
  | 0, pos, _ => .ok ([], pos)
  | count + 1, pos, prevNs => do
    let head ← take payload pos tierNsFixedLen
    let ns := u32At head 0
    let flushed := u64At head 4
    let fileCount := fieldAt head 12 4
    checkTierNs ns flushed fileCount prevNs
    let (files, pos) ← decodeFiles payload ns flushed fileCount (pos + tierNsFixedLen) 0 none
    let (tiers, pos) ← decodeTierNs payload count pos (some ns)
    .ok (⟨ns, flushed, files⟩ :: tiers, pos)

def decodeTiers (payload : Bytes) (pos : Nat) : Except ManifestDecodeError (List TierNsManifest) := do
  let raw ← take payload pos 4
  let nsCount := fieldAt raw 0 4
  if maxTierNs < nsCount then .error (.tooManyTierSections nsCount)
  else
    let (tiers, pos) ← decodeTierNs payload nsCount (pos + 4) none
    if pos ≠ payload.length then .error (.trailingBytes (payload.length - pos)) else .ok tiers

/-- The segments after the fixed part, with the position of the tier sections. -/
def decodeSegments (payload : Bytes) (beginLsn : Lsn) : Except ManifestDecodeError (List UInt32 × Nat) :=
  let count := fieldAt payload 36 4
  if count = 0 then .error .noSegments
  else if maxSegments < count then .error (.tooManySegments count)
  else if payload.length < fixedLen + 4 * count then .error (.truncated payload.length)
  else do
    let segments := words count (payload.drop fixedLen)
    checkAscending 0 segments
    let first := (segments.head?.map UInt32.toNat).getD 0
    if first ≠ beginLsn.segment then .error (.floorMismatch first beginLsn.segment) else .ok (segments, fixedLen + 4 * count)

def Manifest.decode (payload : Bytes) : Except ManifestDecodeError Manifest :=
  if payload.length < epochEnd then .error (.truncated payload.length)
  else if payload.take 8 ≠ manifestMagic then .error (.badMagic (payload.take 8))
  else
    let epoch := u32At payload 8
    if epoch = manifestEpoch ∨ epoch = manifestEpochV2 then .error (.predatesKeyHashBinding epoch)
    else if epoch ≠ manifestEpochV3 then .error (.unsupportedEpoch epoch)
    else if payload.length < fixedLen then .error (.truncated payload.length)
    else do
      let beginLsn := lsnOfU64 (u64At payload 20)
      let (segments, pos) ← decodeSegments payload beginLsn
      let tiers ← decodeTiers payload pos
      .ok ⟨u64At payload 12, beginLsn, segments, tiers, u64At payload 28⟩

/-- One file comes before another: by its id, and its range ends at or below where the other begins. -/
def TierFileRange.Before (a b : TierFileRange) : Prop := a.id < b.id ∧ a.base.toNat + a.durableLen.toNat ≤ b.base.toNat

instance (a b : TierFileRange) : Decidable (a.Before b) := inferInstanceAs (Decidable (_ ∧ _))

structure TierNsManifest.Valid (tier : TierNsManifest) : Prop where
  flushed : tier.flushed.toNat < addrLimit
  count : tier.files.length ≤ maxTierFiles
  ranges : ∀ file ∈ tier.files, 1 ≤ file.durableLen.toNat ∧ file.base.toNat + file.durableLen.toNat ≤ tier.flushed.toNat
  order : tier.files.Pairwise TierFileRange.Before

structure Manifest.Valid (m : Manifest) : Prop where
  count : m.segments.length ≤ maxSegments
  floor : m.segments.head?.map UInt32.toNat = some m.beginLsn.segment
  order : m.segments.Pairwise (· < ·)
  tierCount : m.tiers.length ≤ maxTierNs
  tiers : ∀ tier ∈ m.tiers, tier.Valid
  tierOrder : m.tiers.Pairwise fun a b => a.ns < b.ns

/-- Files in order after a range that ends at `prevEnd` in the file `prevId`. -/
def FilesFrom (flushed : UInt64) (prevEnd : Nat) (prevId : Option UInt32) (files : List TierFileRange) : Prop :=
  (∀ file ∈ files, 1 ≤ file.durableLen.toNat ∧ file.base.toNat + file.durableLen.toNat ≤ flushed.toNat ∧
    prevEnd ≤ file.base.toNat ∧ ∀ p ∈ prevId, p < file.id) ∧ files.Pairwise TierFileRange.Before

/-- What is asked of the next file. -/
def FileFits (flushed : UInt64) (prevEnd : Nat) (prevId : Option UInt32) (file : TierFileRange) : Prop :=
  1 ≤ file.durableLen.toNat ∧ file.base.toNat + file.durableLen.toNat ≤ flushed.toNat ∧
    prevEnd ≤ file.base.toNat ∧ ∀ p ∈ prevId, p < file.id

variable {flushed : UInt64} {prevEnd pos count : Nat} {prevId prevNs : Option UInt32} {files : List TierFileRange}
  {ns : UInt32} {payload t : Bytes} {tiers : List TierNsManifest} {m : Manifest}

theorem filesFrom_cons {file : TierFileRange} {rest : List TierFileRange} :
    FilesFrom flushed prevEnd prevId (file :: rest) ↔
      FileFits flushed prevEnd prevId file ∧ FilesFrom flushed (file.base.toNat + file.durableLen.toNat) (some file.id) rest := by
  constructor
  · rintro ⟨hall, horder⟩
    obtain ⟨hbefore, hrest⟩ := pairwise_cons.mp horder
    refine ⟨hall file mem_cons_self, fun next hnext => ?_, hrest⟩
    obtain ⟨hlen, hfits, -, -⟩ := hall next (mem_cons_of_mem _ hnext)
    obtain ⟨hid, hbase⟩ := hbefore next hnext
    refine ⟨hlen, hfits, hbase, fun p hp => ?_⟩
    rw [mem_some_iff] at hp
    exact hp ▸ hid
  · rintro ⟨⟨hlen, hfits, hbase, hid⟩, hall, hrest⟩
    constructor
    · intro next hnext
      rcases mem_cons.mp hnext with rfl | hnext
      · exact ⟨hlen, hfits, hbase, hid⟩
      · obtain ⟨hlen', hfits', hbase', hid'⟩ := hall next hnext
        exact ⟨hlen', hfits', by omega, fun p hp => UInt32.lt_trans (hid p hp) (hid' file.id rfl)⟩
    · apply pairwise_cons.mpr
      refine ⟨fun next hnext => ?_, hrest⟩
      obtain ⟨-, -, hbase', hid'⟩ := hall next hnext
      exact ⟨hid' file.id rfl, hbase'⟩

def filesBytes : List TierFileRange → Bytes
  | [] => []
  | file :: rest => file.bytes ++ filesBytes rest

theorem TierFileRange.bytes_length (file : TierFileRange) : file.bytes.length = tierFileLen := by
  simp [TierFileRange.bytes, tierFileLen]

private theorem fileAt_bytes (file : TierFileRange) : fileAt file.bytes = file := by
  have hid : u32At file.bytes 0 = file.id := u32At_of_drop rfl
  have hdrop : file.bytes.drop 4 = u64Bytes file.base ++ u64Bytes file.durableLen := drop_left' (u32Bytes_length _)
  have hdrop' : file.bytes.drop (4 + 8) = u64Bytes file.durableLen ++ [] := by
    rw [← drop_drop, hdrop, append_nil]
    exact drop_left' (u64Bytes_length _)
  rw [fileAt, hid, u64At_of_drop hdrop, u64At_of_drop hdrop']

private theorem bytes_fileAt {raw : Bytes} (h : raw.length = tierFileLen) : (fileAt raw).bytes = raw := by
  rw [tierFileLen] at h
  have hend : raw.drop 20 = [] := drop_eq_nil_of_le h.le
  have h₁ := @drop_u32At raw 0 (by omega)
  have h₂ := @drop_u64At raw 4 (by omega)
  have h₃ := @drop_u64At raw 12 (by omega)
  rw [zero_add, h₂, h₃, hend, append_nil, drop_zero] at h₁
  exact h₁.symm

theorem encodeFiles_eq
    (h : FilesFrom flushed prevEnd prevId files) : encodeFiles flushed prevEnd prevId files = some (filesBytes files) := by
  induction files generalizing prevEnd prevId with
  | nil => rfl
  | cons file rest ih =>
    obtain ⟨⟨hlen, hfits, hbase, hid⟩, hrest⟩ := filesFrom_cons.mp h
    have hend : file.endAddr = file.base.toNat + file.durableLen.toNat := by
      have := flushed.toNat_lt
      rw [TierFileRange.endAddr]
      omega
    rw [encodeFiles, hend, if_pos ⟨hlen, hbase, hid, hfits⟩, ih hrest]
    rfl

theorem checkFile_eq_ok {file : TierFileRange} :
    checkFile ns flushed prevEnd prevId file = .ok () ↔ FileFits flushed prevEnd prevId file := by
  have hzero : file.durableLen = 0 ↔ file.durableLen.toNat = 0 := by rw [← UInt64.toNat_inj, UInt64.toNat_zero]
  have hflushed := flushed.toNat_lt
  have hids : (∃ p ∈ prevId, file.id ≤ p) ↔ ¬ ∀ p ∈ prevId, p < file.id := by
    simp only [not_forall, UInt32.not_lt, exists_prop]
  simp only [checkFile, FileFits, hzero, hids]
  split_ifs with hlen hover hrange hid
  · simp only [false_iff]
    omega
  · simp only [false_iff]
    omega
  · simp only [false_iff]
    omega
  · exact ⟨fun _ => ⟨by omega, by omega, by omega, hid⟩, fun _ => rfl⟩
  · exact ⟨fun h => absurd h (by simp), fun h => absurd h.2.2.2 hid⟩

theorem take_of_drop {slice : Bytes} (hpos : pos ≤ payload.length) (h : payload.drop pos = slice ++ t) :
    take payload pos slice.length = .ok slice := by
  rw [take, region_of_drop hpos h]

theorem drop_of_take {slice : Bytes} {n : Nat} (h : take payload pos n = .ok slice) :
    payload.drop pos = slice ++ payload.drop (pos + n) ∧ slice.length = n ∧ pos + n ≤ payload.length := by
  rw [take] at h
  split at h
  next hregion =>
    rw [Except.ok.injEq] at h
    exact drop_of_region (h ▸ hregion)
  · simp at h

private theorem decodeFiles_of_drop (hfiles : FilesFrom flushed prevEnd prevId files) (hpos : pos ≤ payload.length)
    (h : payload.drop pos = filesBytes files ++ t) :
    decodeFiles payload ns flushed files.length pos prevEnd prevId = .ok (files, pos + (filesBytes files).length) := by
  induction files generalizing pos prevEnd prevId with
  | nil => rfl
  | cons file rest ih =>
    obtain ⟨hfits, hrest⟩ := filesFrom_cons.mp hfiles
    rw [filesBytes, append_assoc] at h
    have hlen := file.bytes_length
    have htake := take_of_drop hpos h
    have hnext := drop_add_of_drop h
    have hle : pos + tierFileLen ≤ payload.length := by
      have := congrArg List.length h
      rw [length_drop, length_append] at this
      omega
    rw [hlen] at htake hnext
    rw [length_cons, decodeFiles, htake]
    simp only [except_ok_bind, fileAt_bytes, checkFile_eq_ok.mpr hfits, ih hrest hle hnext, filesBytes, length_append, hlen,
      add_assoc]

private theorem drop_of_decodeFiles {pos' : Nat} (hpos : pos ≤ payload.length)
    (h : decodeFiles payload ns flushed count pos prevEnd prevId = .ok (files, pos')) :
    FilesFrom flushed prevEnd prevId files ∧ files.length = count ∧ payload.drop pos = filesBytes files ++ payload.drop pos' ∧
      pos' ≤ payload.length := by
  induction count generalizing pos prevEnd prevId files with
  | zero =>
    rw [decodeFiles, Except.ok.injEq, Prod.mk.injEq] at h
    obtain ⟨rfl, rfl⟩ := h
    exact ⟨⟨fun _ hfile => absurd hfile (by simp), .nil⟩, rfl, rfl, hpos⟩
  | succ count ih =>
    rw [decodeFiles] at h
    obtain ⟨raw, htake, h⟩ := except_bind_ok h
    obtain ⟨⟨⟩, hcheck, h⟩ := except_bind_ok h
    obtain ⟨⟨rest, last⟩, hrest, h⟩ := except_bind_ok h
    rw [Except.ok.injEq, Prod.mk.injEq] at h
    obtain ⟨rfl, rfl⟩ := h
    obtain ⟨hdrop, hlen, hle⟩ := drop_of_take htake
    obtain ⟨hfrom, hcount, hbytes, hlast⟩ := ih hle hrest
    refine ⟨filesFrom_cons.mpr ⟨checkFile_eq_ok.mp hcheck, hfrom⟩, ?_, ?_, hlast⟩
    · rw [length_cons, hcount]
    · rw [hdrop, hbytes, filesBytes, bytes_fileAt hlen, append_assoc]

def TierNsManifest.bytes (tier : TierNsManifest) : Bytes :=
  u32Bytes tier.ns ++ (u64Bytes tier.flushed ++ (leBytes 4 tier.files.length ++ filesBytes tier.files))

def tiersBytes : List TierNsManifest → Bytes
  | [] => []
  | tier :: rest => tier.bytes ++ tiersBytes rest

/-- Sections in order after the namespace `prevNs`. -/
def TiersFrom (prevNs : Option UInt32) (tiers : List TierNsManifest) : Prop :=
  (∀ tier ∈ tiers, tier.Valid ∧ ∀ p ∈ prevNs, p < tier.ns) ∧ tiers.Pairwise fun a b => a.ns < b.ns

theorem tiersFrom_cons {tier : TierNsManifest} {rest : List TierNsManifest} :
    TiersFrom prevNs (tier :: rest) ↔ (tier.Valid ∧ ∀ p ∈ prevNs, p < tier.ns) ∧ TiersFrom (some tier.ns) rest := by
  constructor
  · rintro ⟨hall, horder⟩
    obtain ⟨hbefore, hrest⟩ := pairwise_cons.mp horder
    refine ⟨hall tier mem_cons_self, fun next hnext => ?_, hrest⟩
    refine ⟨(hall next (mem_cons_of_mem _ hnext)).1, fun p hp => ?_⟩
    rw [mem_some_iff] at hp
    exact hp ▸ hbefore next hnext
  · rintro ⟨⟨hvalid, hns⟩, hall, hrest⟩
    constructor
    · intro next hnext
      rcases mem_cons.mp hnext with rfl | hnext
      · exact ⟨hvalid, hns⟩
      · exact ⟨(hall next hnext).1, fun p hp => UInt32.lt_trans (hns p hp) ((hall next hnext).2 tier.ns rfl)⟩
    · exact pairwise_cons.mpr ⟨fun next hnext => (hall next hnext).2 tier.ns rfl, hrest⟩

/-- The files of a valid section are in order from the start. -/
theorem filesFrom_start : TierNsManifest.Valid ⟨ns, flushed, files⟩ ↔
      flushed.toNat < addrLimit ∧ files.length ≤ maxTierFiles ∧ FilesFrom flushed 0 none files := by
  constructor
  · intro h
    refine ⟨h.flushed, h.count, fun file hfile => ?_, h.order⟩
    obtain ⟨hlen, hfits⟩ := h.ranges file hfile
    exact ⟨hlen, hfits, zero_le, fun _ hp => absurd hp (by simp)⟩
  · rintro ⟨hflushed, hcount, hall, horder⟩
    exact ⟨hflushed, hcount, fun file hfile => ⟨(hall file hfile).1, (hall file hfile).2.1⟩, horder⟩

theorem countBytes_eq {bound : Nat} (h : count ≤ bound) (hbound : bound < 2 ^ 32) : countBytes count = some (leBytes 4 count) :=
  if_pos (h.trans_lt hbound)

theorem encodeTiers_eq (h : TiersFrom prevNs tiers) : encodeTiers prevNs tiers = some (tiersBytes tiers) := by
  induction tiers generalizing prevNs with
  | nil => rfl
  | cons tier rest ih =>
    obtain ⟨⟨hvalid, hns⟩, hrest⟩ := tiersFrom_cons.mp h
    obtain ⟨hflushed, hcount, hfiles⟩ := filesFrom_start.mp hvalid
    rw [encodeTiers, if_pos ⟨hns, hflushed⟩, countBytes_eq hcount (by decide), encodeFiles_eq hfiles, ih hrest]
    simp only [bind_eq_bind, bind_some, tiersBytes, TierNsManifest.bytes, append_assoc]

theorem checkTierNs_eq_ok {fileCount : Nat} : checkTierNs ns flushed fileCount prevNs = .ok () ↔
      (∀ p ∈ prevNs, p < ns) ∧ flushed.toNat < addrLimit ∧ fileCount ≤ maxTierFiles := by
  have hids : (∃ p ∈ prevNs, ns ≤ p) ↔ ¬ ∀ p ∈ prevNs, p < ns := by
    simp only [not_forall, UInt32.not_lt, exists_prop]
  simp only [checkTierNs, hids]
  split_ifs with hns hflushed hcount
  · exact ⟨fun h => absurd h (by simp), fun h => absurd h.2.1 (Nat.not_lt.mpr hflushed)⟩
  · exact ⟨fun h => absurd h (by simp), fun h => absurd h.2.2 (Nat.not_le.mpr hcount)⟩
  · exact ⟨fun _ => ⟨hns, Nat.not_le.mp hflushed, Nat.not_lt.mp hcount⟩, fun _ => rfl⟩
  · exact ⟨fun h => absurd h (by simp), fun h => absurd h.1 hns⟩

/-- The fixed part of a section. -/
def tierHead (ns : UInt32) (flushed : UInt64) (fileCount : Nat) : Bytes := u32Bytes ns ++ (u64Bytes flushed ++ leBytes 4 fileCount)

theorem tierHead_length (ns : UInt32) (flushed : UInt64) (fileCount : Nat) : (tierHead ns flushed fileCount).length = tierNsFixedLen := by
  simp [tierHead, tierNsFixedLen]

theorem TierNsManifest.bytes_eq (tier : TierNsManifest) :
    tier.bytes = tierHead tier.ns tier.flushed tier.files.length ++ filesBytes tier.files := by
  simp only [TierNsManifest.bytes, tierHead, append_assoc]

private theorem tierHead_fields {ns : UInt32} {flushed : UInt64} {fileCount : Nat} (h : fileCount < 2 ^ 32) :
    u32At (tierHead ns flushed fileCount) 0 = ns ∧ u64At (tierHead ns flushed fileCount) 4 = flushed ∧
      fieldAt (tierHead ns flushed fileCount) 12 4 = fileCount := by
  have hdrop : (tierHead ns flushed fileCount).drop 4 = u64Bytes flushed ++ leBytes 4 fileCount := drop_left' (u32Bytes_length _)
  have hdrop' : (tierHead ns flushed fileCount).drop (4 + 8) = leBytes 4 fileCount ++ [] := by
    rw [← drop_drop, hdrop, append_nil]
    exact drop_left' (u64Bytes_length _)
  exact ⟨u32At_of_drop rfl, u64At_of_drop hdrop, fieldAt_of_drop h hdrop'⟩

private theorem tierHead_of_fields {head : Bytes} (h : head.length = tierNsFixedLen) :
    tierHead (u32At head 0) (u64At head 4) (fieldAt head 12 4) = head := by
  rw [tierNsFixedLen] at h
  have hend : head.drop 16 = [] := drop_eq_nil_of_le h.le
  have h₁ := @drop_u32At head 0 (by omega)
  have h₂ := @drop_u64At head 4 (by omega)
  have h₃ := @drop_fieldAt head 12 4 (by omega)
  rw [zero_add, h₂, h₃, hend, append_nil, drop_zero] at h₁
  exact h₁.symm

private theorem decodeTierNs_of_drop
    (htiers : TiersFrom prevNs tiers) (hpos : pos ≤ payload.length) (h : payload.drop pos = tiersBytes tiers ++ t) :
    decodeTierNs payload tiers.length pos prevNs = .ok (tiers, pos + (tiersBytes tiers).length) := by
  induction tiers generalizing pos prevNs with
  | nil => rfl
  | cons tier rest ih =>
    obtain ⟨⟨hvalid, hns⟩, hrest⟩ := tiersFrom_cons.mp htiers
    obtain ⟨hflushed, hcount, hfiles⟩ := filesFrom_start.mp hvalid
    have hfits : tier.files.length < 2 ^ 32 := hcount.trans_lt (by decide)
    obtain ⟨hnsAt, hflushedAt, hcountAt⟩ := @tierHead_fields tier.ns tier.flushed _ hfits
    have hlen := tierHead_length tier.ns tier.flushed tier.files.length
    rw [tiersBytes, TierNsManifest.bytes_eq, append_assoc, append_assoc] at h
    have htotal := congrArg List.length h
    simp only [length_drop, length_append] at htotal
    have htake := take_of_drop hpos h
    have hnext := drop_add_of_drop h
    have hnext' := drop_add_of_drop hnext
    rw [hlen] at htake hnext hnext'
    rw [length_cons, decodeTierNs, htake]
    simp only [except_ok_bind, hnsAt, hflushedAt, hcountAt, checkTierNs_eq_ok.mpr ⟨hns, hflushed, hcount⟩,
      decodeFiles_of_drop hfiles (by omega) hnext, ih hrest (by omega) hnext']
    rw [tiersBytes, TierNsManifest.bytes_eq, length_append, length_append, hlen, add_assoc, add_assoc, add_assoc]

private theorem drop_of_decodeTierNs {pos' : Nat}
    (hpos : pos ≤ payload.length) (h : decodeTierNs payload count pos prevNs = .ok (tiers, pos')) :
    TiersFrom prevNs tiers ∧ tiers.length = count ∧ payload.drop pos = tiersBytes tiers ++ payload.drop pos' ∧
      pos' ≤ payload.length := by
  induction count generalizing pos prevNs tiers with
  | zero =>
    rw [decodeTierNs, Except.ok.injEq, Prod.mk.injEq] at h
    obtain ⟨rfl, rfl⟩ := h
    exact ⟨⟨fun _ htier => absurd htier (by simp), .nil⟩, rfl, rfl, hpos⟩
  | succ count ih =>
    rw [decodeTierNs] at h
    obtain ⟨head, htake, h⟩ := except_bind_ok h
    obtain ⟨⟨⟩, hcheck, h⟩ := except_bind_ok h
    obtain ⟨⟨files, mid⟩, hfiles, h⟩ := except_bind_ok h
    obtain ⟨⟨rest, last⟩, hrest, h⟩ := except_bind_ok h
    rw [Except.ok.injEq, Prod.mk.injEq] at h
    obtain ⟨rfl, rfl⟩ := h
    obtain ⟨hdrop, hlen, hle⟩ := drop_of_take htake
    obtain ⟨hfrom, hfileCount, hfileBytes, hmid⟩ := drop_of_decodeFiles hle hfiles
    obtain ⟨hfromRest, hcount, hbytes, hlast⟩ := ih hmid hrest
    obtain ⟨hns, hflushed, hmax⟩ := checkTierNs_eq_ok.mp hcheck
    refine ⟨tiersFrom_cons.mpr ⟨⟨filesFrom_start.mpr ⟨hflushed, by omega, hfrom⟩, hns⟩, hfromRest⟩, ?_, ?_, hlast⟩
    · rw [length_cons, hcount]
    · rw [hdrop, hfileBytes, hbytes, tiersBytes, TierNsManifest.bytes_eq, hfileCount, tierHead_of_fields hlen, append_assoc,
        append_assoc]

def Manifest.bytes (m : Manifest) : Bytes :=
  manifestMagic ++ (u32Bytes manifestEpochV3 ++ (u64Bytes m.ckptId ++ (leBytes 8 m.beginLsn.toU64 ++ (u64Bytes m.keyHashId ++
    (leBytes 4 m.segments.length ++ (segmentBytes m.segments ++ (leBytes 4 m.tiers.length ++ tiersBytes m.tiers)))))))

theorem Manifest.Valid.encode_eq (h : m.Valid) : m.encode = some m.bytes := by
  have htiers : TiersFrom none m.tiers :=
    ⟨fun tier htier => ⟨h.tiers tier htier, fun _ hp => absurd hp (by simp)⟩, h.tierOrder⟩
  rw [Manifest.encode, countBytes_eq h.count (by decide), countBytes_eq h.tierCount (by decide), encodeTiers_eq htiers]
  rfl

theorem segmentBytes_length (segments : List UInt32) : (segmentBytes segments).length = 4 * segments.length := by
  induction segments with
  | nil => rfl
  | cons seg rest ih =>
    rw [segmentBytes, length_append, u32Bytes_length, ih, length_cons]
    omega

theorem words_segmentBytes (segments : List UInt32) (t : Bytes) : words segments.length (segmentBytes segments ++ t) = segments := by
  induction segments with
  | nil => rfl
  | cons seg rest ih =>
    have hdrop : (u32Bytes seg ++ (segmentBytes rest ++ t)).drop 4 = segmentBytes rest ++ t := drop_left' (u32Bytes_length seg)
    rw [length_cons, segmentBytes, append_assoc, words, hdrop, ih]
    congr 1
    exact u32At_of_drop rfl

private theorem segmentBytes_words {n : Nat} {bytes : Bytes} (h : 4 * n ≤ bytes.length) :
    (words n bytes).length = n ∧ bytes = segmentBytes (words n bytes) ++ bytes.drop (4 * n) := by
  induction n generalizing bytes with
  | zero => exact ⟨rfl, rfl⟩
  | succ n ih =>
    have hhead := @drop_u32At bytes 0 (by omega)
    rw [drop_zero, zero_add] at hhead
    obtain ⟨hlen, hrest⟩ := @ih (bytes.drop 4) (by rw [length_drop]; omega)
    rw [drop_drop] at hrest
    refine ⟨?_, ?_⟩
    · rw [words, length_cons, hlen]
    · rw [words, segmentBytes, append_assoc, Nat.mul_succ, add_comm (4 * n), ← hrest]
      exact hhead

theorem checkAscending_eq_ok {index : Nat} {segments : List UInt32} :
    checkAscending index segments = .ok () ↔ segments.Pairwise (· < ·) := by
  induction segments generalizing index with
  | nil => exact ⟨fun _ => .nil, fun _ => rfl⟩
  | cons first rest ih =>
    cases rest with
    | nil => exact ⟨fun _ => pairwise_singleton _ _, fun _ => rfl⟩
    | cons second rest =>
      rw [checkAscending]
      split_ifs with hle
      · refine ⟨fun h => absurd h (by simp), fun h => ?_⟩
        exact absurd ((pairwise_cons.mp h).1 second mem_cons_self) (UInt32.not_lt.mpr hle)
      · rw [ih]
        constructor
        · intro h
          apply pairwise_cons.mpr
          refine ⟨fun seg hseg => ?_, h⟩
          rcases mem_cons.mp hseg with rfl | hseg
          · exact UInt32.not_le.mp hle
          · exact UInt32.lt_trans (UInt32.not_le.mp hle) ((pairwise_cons.mp h).1 seg hseg)
        · exact fun h => (pairwise_cons.mp h).2

private theorem decodeTiers_of_drop (htiers : TiersFrom none tiers)
    (hcount : tiers.length ≤ maxTierNs) (hpos : pos ≤ payload.length)
    (h : payload.drop pos = leBytes 4 tiers.length ++ tiersBytes tiers) : decodeTiers payload pos = .ok tiers := by
  have hlen : (leBytes 4 tiers.length).length = 4 := leBytes_length _ _
  have htotal := congrArg List.length h
  rw [length_drop, length_append, hlen] at htotal
  have htake := take_of_drop hpos h
  have hnext := drop_add_of_drop h
  rw [hlen] at htake hnext
  have hfield : fieldAt (leBytes 4 tiers.length) 0 4 = tiers.length :=
    fieldAt_of_drop (hcount.trans_lt (by decide)) (append_nil _).symm
  have hdecode := decodeTierNs_of_drop htiers (by omega) (hnext.trans (append_nil _).symm)
  rw [decodeTiers, htake]
  simp only [except_ok_bind, hfield, if_neg (Nat.not_lt.mpr hcount), hdecode]
  rw [if_neg (not_not.mpr (by omega))]

private theorem drop_of_decodeTiers (h : decodeTiers payload pos = .ok tiers) :
    TiersFrom none tiers ∧ tiers.length ≤ maxTierNs ∧ payload.drop pos = leBytes 4 tiers.length ++ tiersBytes tiers := by
  rw [decodeTiers] at h
  obtain ⟨raw, htake, h⟩ := except_bind_ok h
  obtain ⟨hdrop, hlen, hle⟩ := drop_of_take htake
  simp only at h
  obtain ⟨hcount, h⟩ := guard_ok h
  obtain ⟨⟨tiers', last⟩, hdecode, h⟩ := except_bind_ok h
  simp only at h
  obtain ⟨hlast, h⟩ := guard_ok h
  rw [Except.ok.injEq] at h
  subst h
  obtain ⟨hfrom, hlength, hbytes, -⟩ := drop_of_decodeTierNs hle hdecode
  have hraw : leBytes 4 (fieldAt raw 0 4) = raw := by
    have := @drop_fieldAt raw 0 4 (by omega)
    rw [drop_zero, drop_eq_nil_of_le (by omega), append_nil] at this
    exact this.symm
  refine ⟨hfrom, by omega, ?_⟩
  rw [hdrop, hbytes, hlength, hraw, not_not.mp hlast, drop_length, append_nil]

private theorem lsnOfU64_toU64 {lsn : Lsn} {segment : UInt32} (h : segment.toNat = lsn.segment) :
    lsn.toU64 < 256 ^ 8 ∧ lsnOfU64 (UInt64.ofNat lsn.toU64) = lsn := by
  have hseg := segment.toNat_lt
  have hoff := lsn.fits
  have hlt : lsn.toU64 < 2 ^ 64 := by
    rw [Lsn.toU64]
    omega
  refine ⟨hlt, ?_⟩
  obtain ⟨seg, off, hfits⟩ := lsn
  rw [lsnOfU64, Lsn.mk.injEq, UInt64.toNat_ofNat_of_lt' hlt, Lsn.toU64]
  simp only
  omega

private theorem toU64_lsnOfU64 (packed : UInt64) : (lsnOfU64 packed).toU64 = packed.toNat := by
  simp only [lsnOfU64, Lsn.toU64]
  omega

theorem decodeSegments_of_drop {payload t : Bytes} {beginLsn : Lsn} {segments : List UInt32} (hcount : segments.length ≤ maxSegments)
    (horder : segments.Pairwise (· < ·)) (hfloor : segments.head?.map UInt32.toNat = some beginLsn.segment)
    (h : payload.drop 36 = leBytes 4 segments.length ++ (segmentBytes segments ++ t)) :
    decodeSegments payload beginLsn = .ok (segments, fixedLen + 4 * segments.length) := by
  have hpos : segments.length ≠ 0 := by
    intro hzero
    rw [length_eq_zero_iff.mp hzero] at hfloor
    simp at hfloor
  have hnext := drop_past h (leBytes_length _ _)
  have htotal := congrArg List.length hnext
  rw [length_drop, length_append, segmentBytes_length] at htotal
  have hfield : fieldAt payload 36 4 = segments.length := fieldAt_of_drop (hcount.trans_lt (by decide)) h
  have hwords : words segments.length (payload.drop fixedLen) = segments := by
    rw [fixedLen, hnext]
    exact words_segmentBytes segments t
  simp only [decodeSegments, hfield]
  rw [if_neg hpos, if_neg (Nat.not_lt.mpr hcount), if_neg (by rw [fixedLen]; omega), hwords, checkAscending_eq_ok.mpr horder, hfloor]
  simp only [except_ok_bind, getD_some, ne_eq, not_true_eq_false, if_false]

private theorem drop_of_decodeSegments {beginLsn : Lsn} {segments : List UInt32} (hlen : fixedLen ≤ payload.length)
    (h : decodeSegments payload beginLsn = .ok (segments, pos)) :
    segments.length ≤ maxSegments ∧ segments.Pairwise (· < ·) ∧ segments.head?.map UInt32.toNat = some beginLsn.segment ∧
      payload.drop 36 = leBytes 4 segments.length ++ (segmentBytes segments ++ payload.drop pos) ∧ pos ≤ payload.length := by
  simp only [decodeSegments] at h
  obtain ⟨hzero, h⟩ := guard_ok h
  obtain ⟨hcount, h⟩ := guard_ok h
  obtain ⟨hroom, h⟩ := guard_ok h
  obtain ⟨⟨⟩, hascending, h⟩ := except_bind_ok h
  obtain ⟨hfloor, h⟩ := guard_ok h
  rw [Except.ok.injEq, Prod.mk.injEq] at h
  obtain ⟨rfl, rfl⟩ := h
  rw [fixedLen] at hroom hlen
  obtain ⟨hwords, hbytes⟩ := @segmentBytes_words (fieldAt payload 36 4) (payload.drop fixedLen) (by rw [length_drop, fixedLen]; omega)
  have hcountAt := @drop_fieldAt payload 36 4 (by omega)
  rw [drop_drop] at hbytes
  refine ⟨by omega, checkAscending_eq_ok.mp hascending, ?_, ?_, by rw [fixedLen]; omega⟩
  · cases hhead : words (fieldAt payload 36 4) (payload.drop fixedLen) with
    | nil =>
      rw [hhead] at hwords
      exact absurd hwords.symm hzero
    | cons first rest =>
      rw [hhead] at hfloor
      exact congrArg some (not_not.mp hfloor)
  · rw [hwords, ← hbytes]
    exact hcountAt

theorem Manifest.Valid.decode_bytes (h : m.Valid) : Manifest.decode m.bytes = .ok m := by
  obtain ⟨first, hfirst, hseg⟩ := map_eq_some_iff.mp h.floor
  obtain ⟨hlsn, hback⟩ := lsnOfU64_toU64 hseg
  have htiers : TiersFrom none m.tiers :=
    ⟨fun tier htier => ⟨h.tiers tier htier, fun _ hp => absurd hp (by simp)⟩, h.tierOrder⟩
  have h0 : m.bytes.drop 0 = manifestMagic ++ _ := rfl
  have h8 := drop_past h0 (show manifestMagic.length = 8 from rfl)
  have h12 := drop_past h8 (u32Bytes_length _)
  have h20 := drop_past h12 (u64Bytes_length _)
  have h28 := drop_past h20 (leBytes_length _ _)
  have h36 := drop_past h28 (u64Bytes_length _)
  have h40 := drop_past h36 (leBytes_length _ _)
  have hrest : m.bytes.drop (fixedLen + 4 * m.segments.length) = _ := drop_past h40 (segmentBytes_length _)
  have htotal := congrArg List.length hrest
  rw [length_drop, length_append, leBytes_length, fixedLen] at htotal
  have hmagic : m.bytes.take 8 = manifestMagic := take_left' rfl
  have hepoch : u32At m.bytes 8 = manifestEpochV3 := u32At_of_drop h8
  have hbegin : u64At m.bytes 20 = UInt64.ofNat m.beginLsn.toU64 := congrArg UInt64.ofNat (fieldAt_of_drop hlsn h20)
  rw [Manifest.decode, if_neg (by rw [epochEnd]; omega), if_neg (not_not.mpr hmagic)]
  simp only [hepoch, hbegin, hback]
  rw [if_neg (by decide), if_neg (by decide), if_neg (by rw [fixedLen]; omega),
    decodeSegments_of_drop h.count h.order h.floor h36, except_ok_bind]
  simp only
  rw [decodeTiers_of_drop htiers h.tierCount (by rw [fixedLen]; omega) hrest, u64At_of_drop h12, u64At_of_drop h28]
  rfl

theorem Manifest.valid_of_decode (h : Manifest.decode payload = .ok m) : m.Valid ∧ payload = m.bytes := by
  rw [Manifest.decode] at h
  obtain ⟨-, h⟩ := guard_ok h
  obtain ⟨hmagic, h⟩ := guard_ok h
  simp only at h
  obtain ⟨-, h⟩ := guard_ok h
  obtain ⟨hepoch, h⟩ := guard_ok h
  obtain ⟨hlen, h⟩ := guard_ok h
  obtain ⟨⟨segments, pos⟩, hsegments, h⟩ := except_bind_ok h
  obtain ⟨tiers, htiers, h⟩ := except_bind_ok h
  rw [Except.ok.injEq] at h
  subst h
  rw [Nat.not_lt] at hlen
  obtain ⟨hcount, horder, hfloor, h36, hpos⟩ := drop_of_decodeSegments hlen hsegments
  obtain ⟨⟨hall, hns⟩, htierCount, hrest⟩ := drop_of_decodeTiers htiers
  rw [fixedLen] at hlen
  have h8 := @drop_u32At payload 8 (by omega)
  have h12 := @drop_u64At payload 12 (by omega)
  have h20 := @drop_u64At payload 20 (by omega)
  have h28 := @drop_u64At payload 28 (by omega)
  refine ⟨⟨hcount, hfloor, horder, htierCount, fun tier htier => (hall tier htier).1, hns⟩, ?_⟩
  rw [Manifest.bytes, ← hrest, ← h36, ← h28, toU64_lsnOfU64]
  rw [u64Bytes] at h20
  rw [← h20, ← h12, ← not_not.mp hepoch, ← h8, ← not_not.mp hmagic, take_append_drop]

/-- A valid manifest is written and read back; what is read is valid and is written as it was. -/
theorem manifest_codec :
    (∀ m : Manifest, m.Valid → ∃ payload, m.encode = some payload ∧ Manifest.decode payload = .ok m) ∧
      ∀ payload m, Manifest.decode payload = .ok m → m.Valid ∧ m.encode = some payload := by
  constructor
  · intro m h
    exact ⟨m.bytes, h.encode_eq, h.decode_bytes⟩
  · intro payload m h
    obtain ⟨hvalid, rfl⟩ := Manifest.valid_of_decode h
    exact ⟨hvalid, hvalid.encode_eq⟩

/-- Two live segments and one tiered namespace with two files. -/
def twoSegments : Manifest :=
  ⟨7, ⟨3, 4096, by decide⟩, [3, 4], [⟨5, 900, [⟨1, 0, 400⟩, ⟨4, 512, 300⟩]⟩], 11⟩

private theorem twoSegments_valid : twoSegments.Valid := by
  have htier : ∀ tier ∈ twoSegments.tiers, tier.Valid := by
    intro tier htier
    obtain rfl := mem_singleton.mp htier
    exact ⟨by decide, by decide, by decide, by decide⟩
  exact ⟨by decide, rfl, by decide, by decide, htier, pairwise_singleton _ _⟩

theorem manifest_codec_twoSegments : ∃ payload, twoSegments.encode = some payload ∧ Manifest.decode payload = .ok twoSegments :=
  manifest_codec.1 twoSegments twoSegments_valid

end InfinityDB.Log
