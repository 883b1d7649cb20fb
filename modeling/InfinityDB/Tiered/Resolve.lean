import InfinityDB.Tiered.Invariant

/-!
# Resolving a key

A lookup that ends at a cold candidate suspends on a read of the candidate's record. Other commands
and maintenance run meanwhile, so the resolver looks the key up again when it resumes. It serves the
record it read only if that lookup leads to the same address, and excludes an address whose record
turned out to be another key's. A record longer than the first window is read window by window, and
an out-of-line value from its extent after the record is verified.

The machine stops at every suspension. What the tier answers is an input: whether the namespace is
still there, whether a read is admitted and how wide its window is, whether it failed or was corrupt.

Any number of commands resolve keys on one table. A write acts under the borrow its answer came in; one
that displaces an out-of-line record, and a delete, look the key up once more before they act.
-/

namespace InfinityDB.Tiered

open Lib List Option

abbrev tierFrameData : Nat := 4092

/-- Frames of the pool buffer an extent window fills. -/
abbrev windowFramesCap : Nat := 4

def errDropped : String := "ERR the selected namespace was dropped (INF.NS USE again)"
def errColdIo : String := "ERR cold read failed (tier I/O error)"
def errColdBusy : String := "BUSY cold-read queue saturated, try again"
def errBlobRead : String := "ERR blob extent read failed (tier I/O error)"

inductive Resolved where
  | miss
  | ram (addr : Nat)
  | cold (addr : Nat) (value : Bytes) (version encodedLen : Nat)
  | extent (addr : Nat) (value : Bytes) (version encodedLen : Nat)
  | fail (message : String)
deriving DecidableEq

/-- The record an answer names. -/
def Resolved.target : Resolved → Option Nat
  | .ram addr | .cold addr _ _ _ | .extent addr _ _ _ => some addr
  | .miss | .fail _ => none

/-- A planned read: its frames, and where in the first frame the asked address lies. -/
structure Window where
  frames : Nat
  skip : Nat
deriving DecidableEq

def Window.data (w : Window) : Nat := w.frames * tierFrameData

/-- What comes of asking for a window. -/
inductive Issue where
  | dropped
  | noColdReads
  | unplanned
  | queueFull
  | unrepresentable
  | issued (window : Window)

/-- What the tier and the namespace registry say when the resolver runs. -/
structure Io where
  present : Bool
  issue : Issue
  failed : Bool
  intact : Bool

inductive Phase where
  | attempt
  | reading (addr : Nat) (window : Window)
  | staging (addr total : Nat) (assembled : Bytes)
  | readingMore (addr total : Nat) (assembled : Bytes) (window : Window)
  | fetching (addr : Nat) (ext : ExtentRef) (version encodedLen : Nat) (out : Bytes)
  | done (result : Resolved)
deriving DecidableEq

structure Machine where
  exclude : List Nat
  replans : Nat
  phase : Phase
deriving DecidableEq

namespace Machine

def start : Machine := ⟨[], 0, .attempt⟩

def become (m : Machine) (phase : Phase) : Machine := { m with phase }

def refuse (m : Machine) (message : String) : Machine := m.become (.done (.fail message))

/-- Leave out an address and look the key up again. -/
def retry (m : Machine) (addr : Nat) : Machine :=
  { m with exclude := if addr ∈ m.exclude then m.exclude else m.exclude ++ [addr], phase := .attempt }

/-- At most eight plans may miss the catalog. -/
def replan (m : Machine) : Machine :=
  if 8 < m.replans + 1 then { m with replans := m.replans + 1 }.refuse errColdIo else { m with replans := m.replans + 1 }

/-- Serve a record whose key was verified: its value, or first the fetch of its extent. -/
def serveColdImage (m : Machine) (addr : Nat) (image : Bytes) : Option Machine := do
  let parts ← decodeRecord image
  match ← parts.extentRef with
  | some ext => some (m.become (.fetching addr ext parts.version parts.encodedLen []))
  | none => some (m.become (.done (.cold addr parts.value parts.version parts.encodedLen)))

/-- Serve an assembled record if it is the key's, and leave its address out otherwise. -/
def serveIfKey (m : Machine) (key : Bytes) (addr : Nat) (image : Bytes) : Option Machine := do
  let parts ← decodeRecord image
  if parts.key = key then m.serveColdImage addr image else some (m.retry addr)

/-- A probe of the index, and for a cold candidate the first read. -/
def attempt (s : TieredTable) (key : Bytes) (hash : UInt64) (io : Io) (m : Machine) : Option Machine :=
  if !io.present then some (m.refuse errDropped)
  else
    match s.lookup key hash m.exclude with
    | .ram addr => do
      let parts ← s.record addr
      if parts.typeTag = .stringExtent then do
        let ext ← ExtentRef.decode parts.value
        some (m.become (.fetching addr ext parts.version parts.encodedLen []))
      else some (m.become (.done (.ram addr)))
    | .miss => some (m.become (.done .miss))
    | .cold addr =>
      match io.issue with
      | .dropped => some (m.refuse errDropped)
      | .noColdReads => some (m.refuse errColdIo)
      | .unplanned => some m.replan
      | .queueFull => some (m.refuse errColdBusy)
      | .unrepresentable => some (m.refuse errColdIo)
      | .issued window => some (m.become (.reading addr window))

/-- The first window has the header; the rest of a longer record is staged. -/
def decodeWindow (s : TieredTable) (key : Bytes) (io : Io) (m : Machine) (addr : Nat) (window : Window) : Option Machine :=
  if window.data < window.skip + headerLen then none
  else if !io.intact then some (m.refuse errColdIo)
  else
    let total := encodedLenFromHeader ((s.image addr).take headerLen)
    if window.skip + total ≤ window.data then m.serveIfKey key addr ((s.image addr).take total)
    else some (m.become (.staging addr total ((s.image addr).take (window.data - window.skip))))

/-- The first read is back: look the key up again. -/
def resume (s : TieredTable) (key : Bytes) (hash : UInt64) (io : Io) (m : Machine) (addr : Nat) (window : Window) : Option Machine :=
  if io.failed then some (m.refuse errColdIo)
  else if !io.present then some (m.refuse errDropped)
  else
    match s.lookup key hash m.exclude with
    | .ram promoted => some (m.become (.done (.ram promoted)))
    | .miss => some (m.become (.done .miss))
    | .cold now => if now ≠ addr then some (m.retry addr) else m.decodeWindow s key io addr window

/-- Ask for the next window, or judge the whole record. -/
def stage (key : Bytes) (io : Io) (m : Machine) (addr total : Nat) (assembled : Bytes) : Option Machine :=
  if assembled.length < total then
    if !io.present then some (m.refuse errDropped)
    else
      match io.issue with
      | .dropped => some (m.refuse errDropped)
      | .noColdReads => some (m.refuse errColdIo)
      | .unplanned => some (m.become .attempt)
      | .queueFull => some (m.refuse errColdBusy)
      | .unrepresentable => some (m.refuse errColdIo)
      | .issued window => some (m.become (.readingMore addr total assembled window))
  else m.serveIfKey key addr assembled

/-- A further window is back. It counts only while the lookup still ends at the record. -/
def resumeMore (s : TieredTable) (key : Bytes) (hash : UInt64) (io : Io) (m : Machine) (addr total : Nat) (assembled : Bytes)
    (window : Window) : Option Machine :=
  if io.failed then some (m.refuse errColdIo)
  else if !io.present then some (m.become .attempt)
  else if s.lookup key hash m.exclude ≠ .cold addr then some (m.become .attempt)
  else if !io.intact then some (m.become .attempt)
  else
    let take := min (total - assembled.length) (window.data - window.skip)
    some (m.become (.staging addr total (assembled ++ ((s.image addr).drop assembled.length).take take)))

/-- One window of an extent, or its value when all are there. -/
def fetch (blobs : Nat → Bytes) (io : Io) (m : Machine) (addr : Nat) (ext : ExtentRef) (version encodedLen : Nat) (out : Bytes) :
    Option Machine :=
  if out.length < ext.len then
    if io.failed || !io.intact then some (m.refuse errBlobRead)
    else
      let first := out.length / tierFrameData
      let frames := min windowFramesCap ((ext.len + tierFrameData - 1) / tierFrameData - first)
      let take := min (ext.len - out.length) (frames * tierFrameData - out.length % tierFrameData)
      some (m.become (.fetching addr ext version encodedLen (out ++ ((blobs ext.extentId).drop out.length).take take)))
  else some (m.become (.done (.extent addr out version encodedLen)))

/-- What the resolver does up to its next suspension or the next turn of its loop. -/
def poll (blobs : Nat → Bytes) (s : TieredTable) (key : Bytes) (hash : UInt64) (io : Io) (m : Machine) : Option Machine :=
  match m.phase with
  | .attempt => m.attempt s key hash io
  | .reading addr window => m.resume s key hash io addr window
  | .staging addr total assembled => m.stage key io addr total assembled
  | .readingMore addr total assembled window => m.resumeMore s key hash io addr total assembled window
  | .fetching addr ext version encodedLen out => m.fetch blobs io addr ext version encodedLen out
  | .done _ => none

/-- Others run while a read is awaited, and after the answer. -/
def suspended (m : Machine) : Bool :=
  match m.phase with
  | .attempt | .staging _ _ _ => false
  | _ => true

/-- The phases whose turn starts with a lookup. -/
def looksUp (m : Machine) : Bool :=
  match m.phase with
  | .attempt | .reading _ _ | .readingMore _ _ _ _ => true
  | _ => false

end Machine

/-- A command that resolves a key, and the table its last lookup saw. -/
structure Command where
  key : Bytes
  machine : Machine
  seen : TieredTable

def Command.next (cmd : Command) (s : TieredTable) (m : Machine) : Command :=
  ⟨cmd.key, m, if cmd.machine.looksUp then s else cmd.seen⟩

/-- `WriteGuard::of`: an answer fetched after its verification is verified again. -/
def admits (key : Bytes) (hash : UInt64) (s : TieredTable) : Resolved → Bool
  | .extent addr _ _ _ => s.reverify key hash (some addr)
  | _ => true

/-- What a write does on an answer, under the borrow it came in. -/
inductive Writes (hashOf : Bytes → UInt64) (key : Bytes) (s s' : TieredTable) : Resolved → Prop where
  | insert (payload : Payload) (addr : Nat) (hfree : s.tail ≤ addr)
      (h : s.insert (specOf key 0 payload) (hashOf key) addr = some s') : Writes hashOf key s s' .miss
  | update {result : Resolved} (value : Bytes) (version old addr : Nat) (htarget : result.target = some old)
      (hadmits : admits key (hashOf key) s result = true) (hfree : s.tail ≤ addr)
      (h : s.update (specOf key version (.inline value)) (hashOf key) old addr = some s') : Writes hashOf key s s' result
  | updateExtent {result : Resolved} (ref : ExtentRef) (version old addr : Nat) (htarget : result.target = some old)
      (hadmits : admits key (hashOf key) s result = true) (hfree : s.tail ≤ addr)
      (h : s.overwrite (specOf key version (.extent ref)) (hashOf key) old addr = some s') : Writes hashOf key s s' result

def Idle (commands : List Command) : Prop := ∀ cmd ∈ commands, cmd.machine.suspended = true

/-- A turn of one command while the others are suspended. -/
structure Turn (hashOf : Bytes → UInt64) (blobs : Nat → Bytes) (cond : Bytes → TieredTable → Machine → Prop) (s : TieredTable)
    (others : List Command) (cmd : Command) (m : Machine) : Prop where
  idle : Idle others
  meets : cond cmd.key s cmd.machine
  polled : ∃ io, cmd.machine.poll blobs s cmd.key (hashOf cmd.key) io = some m

/-- The tables and commands of the runs whose turns all meet a condition. -/
inductive Reaches (hashOf : Bytes → UInt64) (blobs : Nat → Bytes) (cond : Bytes → TieredTable → Machine → Prop) :
    TieredTable → List Command → Prop where
  | new (initialKeys origin : Nat) : Reaches hashOf blobs cond (.new initialKeys origin) []
  | start {s : TieredTable} {commands : List Command} (key : Bytes) (h : Reaches hashOf blobs cond s commands) (hidle : Idle commands) :
      Reaches hashOf blobs cond s (⟨key, .start, s⟩ :: commands)
  | step {s s' : TieredTable} {commands : List Command} (h : Reaches hashOf blobs cond s commands) (hidle : Idle commands)
      (hstep : TieredTable.Step hashOf s s') : Reaches hashOf blobs cond s' commands
  | poll {s : TieredTable} {m : Machine} (before after : List Command) {cmd : Command}
      (h : Reaches hashOf blobs cond s (before ++ cmd :: after)) (hturn : Turn hashOf blobs cond s (before ++ after) cmd m) :
      Reaches hashOf blobs cond s (before ++ cmd.next s m :: after)
  | write {s s' : TieredTable} {m : Machine} {result : Resolved} (before after : List Command) {cmd : Command}
      (h : Reaches hashOf blobs cond s (before ++ cmd :: after)) (hturn : Turn hashOf blobs cond s (before ++ after) cmd m)
      (hdone : m.phase = .done result) (hwrite : Writes hashOf cmd.key s s' result) : Reaches hashOf blobs cond s' (before ++ after)
  | delete {s s' : TieredTable} {result : Resolved} {target : Nat} (before after : List Command) {cmd : Command} (twins : List Nat)
      (h : Reaches hashOf blobs cond s (before ++ cmd :: after)) (hidle : Idle (before ++ after))
      (hdone : cmd.machine.phase = .done result) (htarget : result.target = some target)
      (hstage : s.stageDelete cmd.key (hashOf cmd.key) target twins true true = .applied)
      (hrun : s.stageDeleteRun (hashOf cmd.key) target twins = some s') : Reaches hashOf blobs cond s' (before ++ after)

/-- The value a record stands for: its own bytes or those of its extent. -/
def logicalValue (blobs : Nat → Bytes) (parts : RecordParts) : Option Bytes :=
  parts.extentRef.map fun
    | some ext => (blobs ext.extentId).take ext.len
    | none => parts.value

/-- An answer is right in a table: nothing of the key is there, or the answer is the key's current
record, and what a caller takes from it is the value of that record. -/
def Sound (blobs : Nat → Bytes) (key : Bytes) (s : TieredTable) : Resolved → Prop
  | .miss => s.Absent key
  | .ram addr => s.Current key addr ∧ ∃ parts, s.record addr = some parts ∧ logicalValue blobs parts = some parts.value
  | .cold addr value version encodedLen | .extent addr value version encodedLen =>
    s.Current key addr ∧ ∃ parts, s.record addr = some parts ∧ logicalValue blobs parts = some value ∧
      version = parts.version ∧ encodedLen = parts.encodedLen
  | .fail _ => True

/-- When the first read comes back and the lookup ends elsewhere, the record that was read is not the
key's any more; and a record found in memory then is not out of line. -/
def Spared (key : Bytes) (hash : UInt64) (s : TieredTable) (m : Machine) : Prop :=
  ∀ addr window, m.phase = .reading addr window →
    (∀ now, s.lookup key hash m.exclude = .cold now → now ≠ addr → ¬ s.Current key addr) ∧
      ∀ found, s.lookup key hash m.exclude = .ram found → (s.record found).all (·.typeTag ≠ .stringExtent) = true

/-- No excluded address has a record of the key in the index. -/
def Excluded (key : Bytes) (s : TieredTable) (exclude : List Nat) : Prop :=
  ∀ addr ∈ exclude, addr < s.tail ∧ (addr ∈ s.addrs → keyOf (s.image addr) ≠ some key)

/-- The first bytes of the cold record at an address. -/
structure Assembles (s : TieredTable) (addr total : Nat) (assembled : Bytes) : Prop where
  total_eq : total = (s.image addr).length
  assembled_eq : assembled = (s.image addr).take assembled.length

/-- A record of the key was found at the address, and it keeps its key. -/
def Verified (key : Bytes) (s : TieredTable) (addr : Nat) : Prop := addr < s.tail ∧ keyOf (s.image addr) = some key

/-- What holds of the phase. Only a finished assembly is judged without a new lookup, and nobody else
has run since the last one then. -/
def PhaseOk (hashOf : Bytes → UInt64) (blobs : Nat → Bytes) (trusted : Prop) (s : TieredTable) (cmd : Command) : Prop :=
  match cmd.machine.phase with
  | .attempt => True
  | .reading addr _ => addr < s.head
  | .staging addr total assembled =>
    cmd.seen = s ∧ s.lookup cmd.key (hashOf cmd.key) cmd.machine.exclude = .cold addr ∧ Assembles s addr total assembled
  | .readingMore addr total assembled _ => addr < s.head ∧ Assembles s addr total assembled
  | .fetching addr ext version encodedLen out =>
    Verified cmd.key s addr ∧ cmd.seen.Current cmd.key addr ∧
      (∃ parts, cmd.seen.record addr = some parts ∧ parts.extentRef = some (some ext) ∧ version = parts.version ∧
        encodedLen = parts.encodedLen) ∧
      out = (blobs ext.extentId).take out.length ∧ out.length ≤ ext.len
  | .done result => (∀ addr, result.target = some addr → Verified cmd.key s addr) ∧ (trusted → Sound blobs cmd.key cmd.seen result)

/-- A command beside a table; its exclusions are right where every turn is spared. -/
structure Command.Ok (hashOf : Bytes → UInt64) (blobs : Nat → Bytes) (trusted : Prop) (s : TieredTable) (cmd : Command) : Prop where
  seen : ∃ m, TieredTable.Inv hashOf trusted cmd.seen m
  excluded : trusted → Excluded cmd.key s cmd.machine.exclude
  phase : PhaseOk hashOf blobs trusted s cmd

section Turns

variable {hashOf : Bytes → UInt64} {blobs : Nat → Bytes} {trusted : Prop} {key : Bytes} {s s' seen : TieredTable} {m m' : Machine}
  {io : Io} {entries : Multiset (UInt64 × Nat)}

theorem Excluded.evolves {exclude : List Nat} (h : Excluded key s exclude) (hev : s.Evolves s') : Excluded key s' exclude := by
  intro addr haddr
  obtain ⟨hlt, hkey⟩ := h addr haddr
  refine ⟨Nat.lt_of_lt_of_le hlt hev.tail_le, fun hslot => ?_⟩
  rw [hev.keys addr hlt]
  exact hkey (hev.slotted addr hlt hslot)

theorem Assembles.evolves {addr total : Nat} {assembled : Bytes} (h : Assembles s addr total assembled) (hcold : addr < s.head)
    (hev : s.Evolves s') : Assembles s' addr total assembled := by
  constructor
  · rw [hev.frozen addr hcold]
    exact h.total_eq
  · rw [hev.frozen addr hcold]
    exact h.assembled_eq

theorem Verified.evolves {addr : Nat} (h : Verified key s addr) (hev : s.Evolves s') : Verified key s' addr :=
  ⟨Nat.lt_of_lt_of_le h.1 hev.tail_le, (hev.keys addr h.1).trans h.2⟩

/-- Others run during a suspension. -/
theorem Command.Ok.other {cmd : Command} (h : cmd.Ok hashOf blobs trusted s) (hsuspended : cmd.machine.suspended = true)
    (hev : s.Evolves s') : cmd.Ok hashOf blobs trusted s' := by
  refine ⟨h.seen, fun ht => (h.excluded ht).evolves hev, ?_⟩
  have hphase := h.phase
  rw [Machine.suspended] at hsuspended
  rw [PhaseOk] at hphase ⊢
  cases hp : cmd.machine.phase with
  | attempt => exact trivial
  | reading addr window =>
    rw [hp] at hphase
    exact Nat.lt_of_lt_of_le hphase hev.head_le
  | staging addr total assembled =>
    rw [hp] at hsuspended
    simp at hsuspended
  | readingMore addr total assembled window =>
    rw [hp] at hphase
    exact ⟨Nat.lt_of_lt_of_le hphase.1 hev.head_le, hphase.2.evolves hphase.1 hev⟩
  | fetching addr ext version encodedLen out =>
    rw [hp] at hphase
    exact ⟨hphase.1.evolves hev, hphase.2⟩
  | done result =>
    rw [hp] at hphase
    exact ⟨fun addr htarget => (hphase.1 addr htarget).evolves hev, hphase.2⟩

theorem Excluded.retry (h : Excluded key s m.exclude) {addr : Nat} (hlt : addr < s.tail)
    (hkey : addr ∈ s.addrs → keyOf (s.image addr) ≠ some key) : Excluded key s (m.retry addr).exclude := by
  rw [Machine.retry]
  split
  · exact h
  · intro a ha
    rcases mem_append.mp ha with ha | ha
    · exact h a ha
    · rw [mem_singleton.mp ha]
      exact ⟨hlt, hkey⟩

section
variable (hinv : s.Inv hashOf trusted entries)
include hinv

variable {addr : Nat}

/-- A slotted cold record that a lookup without a hit in memory leads to is current if it is the key's. -/
theorem current_of_lookup {exclude : List Nat}
    (hlookup : s.lookup key (hashOf key) exclude = .cold addr) (hkey : keyOf (s.image addr) = some key) : s.Current key addr :=
  ⟨(hinv.lookup_cold hlookup).1, hkey, Or.inr fun _ hother hsame =>
    hinv.cold_of_lookup (fun _ => by rw [hlookup]; simp) hother hsame⟩

theorem verified_of_current (hcurrent : s.Current key addr) : Verified key s addr := ⟨hinv.lt_tail hcurrent.1, hcurrent.2.1⟩

/-- The record at the address of a lookup, served or left out. -/
theorem serveIfKey_ok (hexcl : trusted → Excluded key s m.exclude)
    (hlookup : s.lookup key (hashOf key) m.exclude = .cold addr) (hserve : m.serveIfKey key addr (s.image addr) = some m') :
    Command.Ok hashOf blobs trusted s ⟨key, m', s⟩ := by
  obtain ⟨parts, hparts, hserve⟩ := bind_eq_some_iff.mp hserve
  have hkeyOf : keyOf (s.image addr) = some parts.key := by
    rw [keyOf, hparts]
    rfl
  split at hserve
  next hkey =>
    rw [hkey] at hkeyOf
    have hcurrent := current_of_lookup hinv hlookup hkeyOf
    have hverified := verified_of_current hinv hcurrent
    obtain ⟨parts', hparts', hserve⟩ := bind_eq_some_iff.mp hserve
    obtain ⟨ref, href, hserve⟩ := bind_eq_some_iff.mp hserve
    have hrecord : s.record addr = some parts' := hparts'
    cases ref with
    | some ext =>
      rw [← some.inj hserve]
      exact ⟨⟨entries, hinv⟩, hexcl, hverified, hcurrent, ⟨parts', hrecord, href, rfl, rfl⟩, rfl, zero_le⟩
    | none =>
      rw [← some.inj hserve]
      refine ⟨⟨entries, hinv⟩, hexcl, fun a ha => some.inj ha ▸ hverified, fun _ => ⟨hcurrent, parts', hrecord, ?_, rfl, rfl⟩⟩
      rw [logicalValue, href]
      rfl
  next hkey =>
    rw [← some.inj hserve]
    refine ⟨⟨entries, hinv⟩, fun ht => (hexcl ht).retry (hinv.lt_tail (hinv.lookup_cold hlookup).1) fun _ hsame => ?_, trivial⟩
    rw [hkeyOf, some.injEq] at hsame
    exact hkey hsame

omit hinv in
theorem refuse_ok (hexcl : trusted → Excluded key s m.exclude) {message : String} (hseen : ∃ m, TieredTable.Inv hashOf trusted seen m)
    (hpoll : some (m.refuse message) = some m') : Command.Ok hashOf blobs trusted s ⟨key, m', seen⟩ := by
  rw [← some.inj hpoll]
  exact ⟨hseen, hexcl, fun _ htarget => absurd htarget (by simp [Resolved.target]), fun _ => trivial⟩

theorem again_ok (hexcl : trusted → Excluded key s m.exclude) (hpoll : some (m.become .attempt) = some m') :
    Command.Ok hashOf blobs trusted s ⟨key, m', s⟩ := by
  rw [← some.inj hpoll]
  exact ⟨⟨entries, hinv⟩, hexcl, trivial⟩

/-- With nothing excluded wrongly, a miss is one. -/
theorem miss_ok (hexcl : trusted → Excluded key s m.exclude)
    (hlookup : s.lookup key (hashOf key) m.exclude = .miss) : Command.Ok hashOf blobs trusted s ⟨key, m.become (.done .miss), s⟩ := by
  refine ⟨⟨entries, hinv⟩, hexcl, fun _ htarget => absurd htarget (by simp [Resolved.target]), ?_⟩
  intro ht addr haddr hkey
  exact (hexcl ht addr (hinv.lookup_miss hlookup haddr hkey)).2 haddr hkey

/-- A record found in memory; it must not be out of line. -/
theorem ram_ok (hexcl : trusted → Excluded key s m.exclude) {exclude : List Nat} {parts : RecordParts}
    (hlookup : s.lookup key (hashOf key) exclude = .ram addr) (hparts : s.record addr = some parts)
    (htag : trusted → parts.typeTag ≠ .stringExtent) :
    Command.Ok hashOf blobs trusted s ⟨key, m.become (.done (.ram addr)), s⟩ := by
  have hcurrent := (hinv.lookup_ram hlookup).1
  refine ⟨⟨entries, hinv⟩, hexcl, fun a ha => some.inj ha ▸ verified_of_current hinv hcurrent,
    fun ht => ⟨hcurrent, parts, hparts, ?_⟩⟩
  rw [logicalValue, RecordParts.extentRef]
  split
  next hext => exact absurd hext (htag ht)
  · rfl
  · rfl

private theorem attempt_ok (hexcl : trusted → Excluded key s m.exclude) (hphase : m.phase = .attempt)
    (hpoll : m.attempt s key (hashOf key) io = some m') : Command.Ok hashOf blobs trusted s ⟨key, m', s⟩ := by
  rw [Machine.attempt] at hpoll
  split at hpoll
  · exact refuse_ok hexcl ⟨entries, hinv⟩ hpoll
  split at hpoll
  next addr hlookup =>
    obtain ⟨parts, hparts, hpoll⟩ := bind_eq_some_iff.mp hpoll
    split at hpoll
    next htag =>
      obtain ⟨ext, hext, hpoll⟩ := bind_eq_some_iff.mp hpoll
      have hcurrent := (hinv.lookup_ram hlookup).1
      rw [← some.inj hpoll]
      refine ⟨⟨entries, hinv⟩, hexcl, verified_of_current hinv hcurrent, hcurrent, ⟨parts, hparts, ?_, rfl, rfl⟩, rfl, zero_le⟩
      rw [RecordParts.extentRef, htag, hext]
      rfl
    next htag =>
      rw [← some.inj hpoll]
      exact ram_ok hinv hexcl hlookup hparts fun _ => htag
  next hlookup =>
    rw [← some.inj hpoll]
    exact miss_ok hinv hexcl hlookup
  next addr hlookup =>
    cases hissue : io.issue with
    | issued window =>
      rw [hissue] at hpoll
      rw [← some.inj hpoll]
      exact ⟨⟨entries, hinv⟩, hexcl, hinv.cold_iff.mp (hinv.lookup_cold hlookup).2.1⟩
    | unplanned =>
      rw [hissue] at hpoll
      rw [← some.inj hpoll, Machine.replan]
      split
      · refine refuse_ok ?_ ⟨entries, hinv⟩ rfl
        exact hexcl
      · refine ⟨⟨entries, hinv⟩, hexcl, ?_⟩
        simp only [PhaseOk, hphase]
    | dropped | noColdReads | queueFull | unrepresentable =>
      rw [hissue] at hpoll
      exact refuse_ok hexcl ⟨entries, hinv⟩ hpoll

private theorem decodeWindow_ok (hexcl : trusted → Excluded key s m.exclude) {window : Window}
    (hlookup : s.lookup key (hashOf key) m.exclude = .cold addr) (hpoll : m.decodeWindow s key io addr window = some m') :
    Command.Ok hashOf blobs trusted s ⟨key, m', s⟩ := by
  obtain ⟨hash, hentry⟩ := hinv.mem_addrs.mp (hinv.lookup_cold hlookup).1
  obtain ⟨hlen, hheader⟩ := (hinv.isRecord _ hentry).length
  have htotal : encodedLenFromHeader ((s.image addr).take headerLen) = (s.image addr).length := by
    rw [encodedLenFromHeader_take hheader]
    exact hlen
  rw [Machine.decodeWindow] at hpoll
  simp only [htotal, take_length] at hpoll
  split at hpoll
  · simp at hpoll
  split at hpoll
  · exact refuse_ok hexcl ⟨entries, hinv⟩ hpoll
  · split at hpoll
    · exact serveIfKey_ok hinv hexcl hlookup hpoll
    · rw [← some.inj hpoll]
      refine ⟨⟨entries, hinv⟩, hexcl, rfl, hlookup, rfl, ?_⟩
      rw [length_take, take_eq_take_min]

private theorem resume_ok (hexcl : trusted → Excluded key s m.exclude) {window : Window}
    (hphase : m.phase = .reading addr window) (hcold : addr < s.head) (hspared : trusted → Spared key (hashOf key) s m)
    (hpoll : m.resume s key (hashOf key) io addr window = some m') : Command.Ok hashOf blobs trusted s ⟨key, m', s⟩ := by
  rw [Machine.resume] at hpoll
  split at hpoll
  · exact refuse_ok hexcl ⟨entries, hinv⟩ hpoll
  split at hpoll
  · exact refuse_ok hexcl ⟨entries, hinv⟩ hpoll
  split at hpoll
  next found hlookup =>
    rw [← some.inj hpoll]
    obtain ⟨parts, hparts, -⟩ := map_eq_some_iff.mp (hinv.lookup_ram hlookup).1.2.1
    apply ram_ok hinv hexcl hlookup hparts
    intro ht
    have htag := (hspared ht addr window hphase).2 found hlookup
    rw [show s.record found = some parts from hparts, all_some, decide_eq_true_eq] at htag
    exact htag
  next hlookup =>
    rw [← some.inj hpoll]
    exact miss_ok hinv hexcl hlookup
  next now hlookup =>
    split at hpoll
    next hne =>
      rw [← some.inj hpoll]
      refine ⟨⟨entries, hinv⟩, fun ht => ?_, trivial⟩
      refine (hexcl ht).retry (Nat.lt_of_lt_of_le hcold hinv.head_le_tail) fun hslot hkey => ?_
      -- with nothing of the key in memory, a slotted record of the key is the current one
      exact (hspared ht addr window hphase).1 now hlookup hne ⟨hslot, hkey, Or.inr fun _ ho hsame =>
        hinv.cold_of_lookup (fun _ => by rw [hlookup]; simp) ho hsame⟩
    next heq =>
      rw [not_not.mp heq] at hlookup
      exact decodeWindow_ok hinv hexcl hlookup hpoll

private theorem stage_ok (hexcl : trusted → Excluded key s m.exclude) {addr total : Nat} {assembled : Bytes}
    (hlookup : s.lookup key (hashOf key) m.exclude = .cold addr) (hasm : Assembles s addr total assembled)
    (hpoll : m.stage key io addr total assembled = some m') : Command.Ok hashOf blobs trusted s ⟨key, m', s⟩ := by
  rw [Machine.stage] at hpoll
  split at hpoll
  · split at hpoll
    · exact refuse_ok hexcl ⟨entries, hinv⟩ hpoll
    cases hissue : io.issue with
    | issued window =>
      rw [hissue] at hpoll
      rw [← some.inj hpoll]
      exact ⟨⟨entries, hinv⟩, hexcl, hinv.cold_iff.mp (hinv.lookup_cold hlookup).2.1, hasm⟩
    | unplanned =>
      rw [hissue] at hpoll
      exact again_ok hinv hexcl hpoll
    | dropped | noColdReads | queueFull | unrepresentable =>
      rw [hissue] at hpoll
      exact refuse_ok hexcl ⟨entries, hinv⟩ hpoll
  next hall =>
    rw [hasm.total_eq, Nat.not_lt] at hall
    rw [hasm.assembled_eq, take_of_length_le hall] at hpoll
    exact serveIfKey_ok hinv hexcl hlookup hpoll

end

/-- More bytes of a list after its first ones. -/
theorem take_append_drop_take {l out : Bytes} (h : out = l.take out.length) (n : Nat) :
    out ++ (l.drop out.length).take n = l.take (out ++ (l.drop out.length).take n).length := by
  have hsum : out ++ (l.drop out.length).take n = l.take (out.length + n) := by rw [take_add, ← h]
  rw [hsum, length_take, ← take_eq_take_min]

private theorem resumeMore_ok (hinv : s.Inv hashOf trusted entries) (hexcl : trusted → Excluded key s m.exclude) {addr total : Nat}
    {assembled : Bytes} {window : Window} (hasm : Assembles s addr total assembled)
    (hpoll : m.resumeMore s key (hashOf key) io addr total assembled window = some m') :
    Command.Ok hashOf blobs trusted s ⟨key, m', s⟩ := by
  rw [Machine.resumeMore] at hpoll
  split at hpoll
  · exact refuse_ok hexcl ⟨entries, hinv⟩ hpoll
  split at hpoll
  · exact again_ok hinv hexcl hpoll
  split at hpoll
  · exact again_ok hinv hexcl hpoll
  next hlookup =>
    split at hpoll
    · exact again_ok hinv hexcl hpoll
    · rw [← some.inj hpoll]
      refine ⟨⟨entries, hinv⟩, hexcl, rfl, not_not.mp hlookup, hasm.total_eq, ?_⟩
      exact take_append_drop_take hasm.assembled_eq _

section
variable {cmd : Command} (hok : cmd.Ok hashOf blobs trusted s)
include hok

private theorem fetch_ok {addr version encodedLen : Nat} {ext : ExtentRef} {out : Bytes}
    (hphase : cmd.machine.phase = .fetching addr ext version encodedLen out)
    (hpoll : cmd.machine.fetch blobs io addr ext version encodedLen out = some m') :
    Command.Ok hashOf blobs trusted s ⟨cmd.key, m', cmd.seen⟩ := by
  obtain ⟨hseen, hexcl, hserves⟩ := hok
  rw [PhaseOk, hphase] at hserves
  obtain ⟨hverified, hcurrent, ⟨parts, hparts, href, hversion, hlen⟩, hout, hle⟩ := hserves
  rw [Machine.fetch] at hpoll
  split at hpoll
  · split at hpoll
    · exact refuse_ok hexcl hseen hpoll
    · rw [← some.inj hpoll]
      refine ⟨hseen, hexcl, hverified, hcurrent, ⟨parts, hparts, href, hversion, hlen⟩, take_append_drop_take hout _, ?_⟩
      rw [length_append, length_take]
      omega
  next hall =>
    rw [← some.inj hpoll]
    refine ⟨hseen, hexcl, fun a ha => some.inj ha ▸ hverified, fun _ => ⟨hcurrent, parts, hparts, ?_, hversion, hlen⟩⟩
    have hall : out.length = ext.len := by omega
    rw [logicalValue, href, hout, hall]
    simp

private theorem poll_ok (hinv : s.Inv hashOf trusted entries) (hspared : trusted → Spared cmd.key (hashOf cmd.key) s cmd.machine)
    (hpoll : cmd.machine.poll blobs s cmd.key (hashOf cmd.key) io = some m') : (cmd.next s m').Ok hashOf blobs trusted s := by
  have hphase := hok.phase
  rw [PhaseOk] at hphase
  rw [Machine.poll] at hpoll
  rw [Command.next, Machine.looksUp]
  cases hp : cmd.machine.phase with
  | attempt =>
    rw [hp] at hpoll
    exact attempt_ok hinv hok.excluded hp hpoll
  | reading addr window =>
    rw [hp] at hpoll hphase
    exact resume_ok hinv hok.excluded hp hphase hspared hpoll
  | staging addr total assembled =>
    rw [hp] at hpoll hphase
    obtain ⟨hseen, hlookup, hasm⟩ := hphase
    change Command.Ok hashOf blobs trusted s ⟨cmd.key, m', cmd.seen⟩
    rw [hseen]
    exact stage_ok hinv hok.excluded hlookup hasm hpoll
  | readingMore addr total assembled window =>
    rw [hp] at hpoll hphase
    exact resumeMore_ok hinv hok.excluded hphase.2 hpoll
  | fetching addr ext version encodedLen out =>
    rw [hp] at hpoll
    exact fetch_ok hok hp hpoll
  | done result =>
    rw [hp] at hpoll
    simp at hpoll

/-- Only an answer with an extent is given later than its lookup. -/
private theorem next_seen {result : Resolved} (hpoll : cmd.machine.poll blobs s cmd.key (hashOf cmd.key) io = some m')
    (hdone : m'.phase = .done result) :
    (cmd.next s m').seen = s ∨ (∃ addr value version encodedLen, result = .extent addr value version encodedLen) ∨
      ∃ message, result = .fail message := by
  have hphase := hok.phase
  rw [PhaseOk] at hphase
  rw [Machine.poll] at hpoll
  rw [Command.next, Machine.looksUp]
  cases hp : cmd.machine.phase with
  | attempt | reading | readingMore => exact Or.inl rfl
  | staging addr total assembled =>
    rw [hp] at hphase
    exact Or.inl hphase.1
  | fetching addr ext version encodedLen out =>
    rw [hp] at hpoll
    change cmd.machine.fetch blobs io addr ext version encodedLen out = some m' at hpoll
    rw [Machine.fetch] at hpoll
    split at hpoll
    · split at hpoll
      · rw [← some.inj hpoll] at hdone
        exact Or.inr (Or.inr ⟨_, (Phase.done.inj hdone).symm⟩)
      · rw [← some.inj hpoll] at hdone
        simp [Machine.become] at hdone
    · rw [← some.inj hpoll] at hdone
      exact Or.inr (Or.inl ⟨_, _, _, _, (Phase.done.inj hdone).symm⟩)
  | done result =>
    rw [hp] at hpoll
    simp at hpoll

end

section
variable (hinv : s.Inv hashOf trusted entries)
include hinv

/-- A lookup that ends at a record of the key ends at its current one. -/
private theorem current_of_stillAt {addr : Nat} (hverified : Verified key s addr) (hstill : s.stillAt key (hashOf key) addr = true) :
    s.Current key addr := by
  rw [TieredTable.stillAt] at hstill
  split at hstill
  next now hlookup =>
    rw [← of_decide_eq_true hstill]
    exact (hinv.lookup_ram hlookup).1
  next now hlookup =>
    rw [of_decide_eq_true hstill] at hlookup
    exact current_of_lookup hinv hlookup hverified.2
  · simp at hstill

variable {cmd : Command} {result : Resolved} (hok : cmd.Ok hashOf blobs trusted s) (hdone : cmd.machine.phase = .done result)
  (hseen : cmd.seen = s ∨ (∃ addr value version encodedLen, result = .extent addr value version encodedLen) ∨
    ∃ message, result = .fail message)
include hok hdone hseen

/-- The record a write may displace is the current one. -/
theorem target_current {old : Nat} (htarget : result.target = some old) (hadmits : admits cmd.key (hashOf cmd.key) s result = true) :
    keyOf (s.image old) = some cmd.key ∧ (trusted → s.Current cmd.key old) := by
  have hphase := hok.phase
  rw [PhaseOk, hdone] at hphase
  have hverified := hphase.1 old htarget
  refine ⟨hverified.2, fun ht => ?_⟩
  have hsound := hphase.2 ht
  rcases hseen with hseen | ⟨addr, value, version, encodedLen, rfl⟩ | ⟨message, rfl⟩
  · rw [hseen] at hsound
    cases result with
    | ram addr | cold addr value version encodedLen | extent addr value version encodedLen =>
      rw [← some.inj htarget]
      exact hsound.1
    | miss | fail message => simp [Resolved.target] at htarget
  · rw [← some.inj htarget] at hverified ⊢
    exact current_of_stillAt hinv hverified hadmits
  · simp [Resolved.target] at htarget

/-- A write on an answer keeps the table in order. -/
theorem writes_inv (hwrite : Writes hashOf cmd.key s s' result) : ∃ entries', s'.Inv hashOf trusted entries' ∧ s.Evolves s' := by
  cases hwrite with
  | insert payload addr hfree hinsert =>
    refine hinv.insert (fun ht => ?_) hfree hinsert
    have hphase := hok.phase
    rw [PhaseOk, hdone] at hphase
    rcases hseen with hseen | ⟨_, _, _, _, heq⟩ | ⟨_, heq⟩
    · rw [← hseen]
      exact hphase.2 ht
    · cases heq
    · cases heq
  | update value version old addr htarget hadmits hfree hupdate =>
    obtain ⟨hkey, hcurrent⟩ := target_current hinv hok hdone hseen htarget hadmits
    exact hinv.update hkey hcurrent hfree hupdate
  | updateExtent ref version old addr htarget hadmits hfree hover =>
    exact hinv.overwrite (target_current hinv hok hdone hseen htarget hadmits).2 hfree hover

end

end Turns

section Answers

variable {hashOf : Bytes → UInt64} {blobs : Nat → Bytes} {cond : Bytes → TieredTable → Machine → Prop}
  {trusted : Prop} {s : TieredTable}
  {commands : List Command}

/-- Every run keeps the table and its commands in order, and the answers right if every turn is spared. -/
theorem Reaches.ok (h : Reaches hashOf blobs cond s commands)
    (hspared : trusted → ∀ key s m, cond key s m → Spared key (hashOf key) s m) :
    (∃ entries, s.Inv hashOf trusted entries) ∧ ∀ cmd ∈ commands, cmd.Ok hashOf blobs trusted s := by
  induction h with
  | new initialKeys origin => exact ⟨⟨0, TieredTable.new_inv initialKeys origin⟩, fun _ hcmd => absurd hcmd not_mem_nil⟩
  | start key _ _ ih =>
    refine ⟨ih.1, forall_mem_cons.mpr ⟨⟨ih.1, fun _ _ haddr => absurd haddr not_mem_nil, trivial⟩, ih.2⟩⟩
  | step _ hidle hstep ih =>
    obtain ⟨⟨entries, hinv⟩, hok⟩ := ih
    obtain ⟨entries', hinv', hev⟩ := hinv.step hstep
    exact ⟨⟨entries', hinv'⟩, fun cmd hcmd => (hok cmd hcmd).other (hidle cmd hcmd) hev⟩
  | poll before after _ hturn ih =>
    obtain ⟨⟨entries, hinv⟩, hok⟩ := ih
    obtain ⟨io, hpoll⟩ := hturn.polled
    rw [forall_mem_append, forall_mem_cons] at hok ⊢
    exact ⟨⟨entries, hinv⟩, hok.1, poll_ok hok.2.1 hinv (fun ht => hspared ht _ _ _ hturn.meets) hpoll, hok.2.2⟩
  | write before after _ hturn hdone hwrite ih =>
    obtain ⟨⟨entries, hinv⟩, hok⟩ := ih
    obtain ⟨io, hpoll⟩ := hturn.polled
    rw [forall_mem_append, forall_mem_cons] at hok
    have hnext := poll_ok hok.2.1 hinv (fun ht => hspared ht _ _ _ hturn.meets) hpoll
    obtain ⟨entries', hinv', hev⟩ := writes_inv hinv hnext hdone (next_seen hok.2.1 hpoll hdone) hwrite
    refine ⟨⟨entries', hinv'⟩, fun cmd hcmd => Command.Ok.other ?_ (hturn.idle cmd hcmd) hev⟩
    exact forall_mem_append.mpr ⟨hok.1, hok.2.2⟩ cmd hcmd
  | delete before after twins _ hidle _ _ _ hrun ih =>
    obtain ⟨⟨entries, hinv⟩, hok⟩ := ih
    rw [forall_mem_append, forall_mem_cons] at hok
    obtain ⟨entries', hinv', hev⟩ := hinv.stageDeleteRun hrun
    refine ⟨⟨entries', hinv'⟩, fun cmd hcmd => Command.Ok.other ?_ (hidle cmd hcmd) hev⟩
    exact forall_mem_append.mpr ⟨hok.1, hok.2.2⟩ cmd hcmd

/-- Whatever commands and maintenance run, an answer is right in the table of its last lookup, where the key
has no second current record, if no resumption of any command left out its key's own record and none found
an out-of-line record in memory. -/
theorem resolve_sound (h : Reaches hashOf blobs (fun key s m => Spared key (hashOf key) s m) s commands) {cmd : Command}
    (hcmd : cmd ∈ commands) {result : Resolved} (hdone : cmd.machine.phase = .done result) :
    Sound blobs cmd.key cmd.seen result ∧
      ∀ addr addr', cmd.seen.Current cmd.key addr → cmd.seen.Current cmd.key addr' → addr = addr' := by
  have hok := (h.ok fun (_ : True) _ _ _ hspared => hspared).2 cmd hcmd
  have hphase := hok.phase
  obtain ⟨entries, hinv⟩ := hok.seen
  rw [PhaseOk, hdone] at hphase
  exact ⟨hphase.2 trivial, fun _ _ hcurrent hcurrent' => hinv.current_unique trivial hcurrent hcurrent'⟩

end Answers

namespace Scenario

/-- Two keys whose hashes agree in tag, fingerprint and home group. -/
def hashOf (key : Bytes) : UInt64 := if key = [97] then 0 else 8

def io : Io := ⟨true, .issued ⟨1, 0⟩, false, true⟩

def blobs (_ : Nat) : Bytes := [7, 7, 7]

def one : TieredTable := ((TieredTable.new 0 1).insert (specOf [100] 0 (.inline [])) (hashOf [100]) 1).get (by decide +kernel)

def two : TieredTable := (one.insert (specOf [97] 0 (.inline [1])) (hashOf [97]) 10).get (by decide +kernel)

/-- The first slot is free again. -/
def freed : TieredTable := (two.stageDeleteRun (hashOf [100]) 1 []).get (by decide +kernel)

def sealed : TieredTable := { freed with roBoundary := 20 }

def flushed : TieredTable := { sealed with flushed := 20 }

/-- The record of the key `a` is cold, in the second slot. -/
def cold : TieredTable := (flushed.release 20).get (by decide +kernel)

/-- A record of the key `b` in the first slot, in memory. -/
def crossed : TieredTable := (cold.shadowInsert (specOf [98] 0 (.inline [])) (hashOf [98]) none 20).get (by decide +kernel)

def crossedSealed : TieredTable := { crossed with roBoundary := 29 }

def crossedFlushed : TieredTable := { crossedSealed with flushed := 29 }

/-- Now both records are cold, `b` before `a`. -/
def demoted : TieredTable := (crossedFlushed.release 29).get (by decide +kernel)

/-- The key `a` set to a value out of line. -/
def replaced : TieredTable := (cold.overwrite (specOf [97] 1 (.extent ⟨5, 0, 3⟩)) (hashOf [97]) 10 20).get (by decide +kernel)

/-- A command that reads the record at an address, with the addresses it has left out. -/
abbrev reading (exclude : List Nat) (addr : Nat) : Machine := ⟨exclude, 0, .reading addr ⟨1, 0⟩⟩

/-- A turn of a command for `a`. -/
abbrev Polls (s : TieredTable) (m m' : Machine) : Prop := m.poll blobs s [97] (hashOf [97]) io = some m'

/-- The record of `b` gets its slot, ahead of that of `a`, and can become cold. -/
theorem crossing : (cold.lookup [98] (hashOf [98]) [] = .cold 10 ∧ cold.exactCold (hashOf [98]) = [] ∧ cold.tail ≤ 20) ∧
    crossed.lookup [97] (hashOf [97]) [] = .cold 10 ∧
    crossed.roBoundary ≤ 29 ∧ 29 ≤ crossed.tail ∧ crossedSealed.flushed ≤ 29 := by
  decide +kernel

/-- What a command for `a` does: while only its record is cold, and with the record of `b` cold as well, from
the middle of a read and from the start. -/
theorem turns : (Polls cold .start (reading [] 10) ∧ Polls cold (reading [] 10) ⟨[], 0, .done (.cold 10 [1] 0 10)⟩ ∧
      Polls crossed (reading [] 10) ⟨[], 0, .done (.cold 10 [1] 0 10)⟩ ∧
      Polls replaced (reading [] 10) ⟨[], 0, .done (.ram 20)⟩) ∧
    (Polls demoted (reading [] 10) ⟨[10], 0, .attempt⟩ ∧ Polls demoted ⟨[10], 0, .attempt⟩ (reading [10] 20) ∧
      Polls demoted (reading [10] 20) ⟨[10, 20], 0, .attempt⟩ ∧
      Polls demoted ⟨[10, 20], 0, .attempt⟩ ⟨[10, 20], 0, .done .miss⟩) ∧
    Polls demoted .start (reading [] 20) ∧ Polls demoted (reading [] 20) ⟨[20], 0, .attempt⟩ ∧
      Polls demoted ⟨[20], 0, .attempt⟩ (reading [20] 10) ∧
      Polls demoted (reading [20] 10) ⟨[20], 0, .done (.cold 10 [1] 0 10)⟩ := by
  decide +kernel

theorem idle_nil : Idle [] := fun _ hcmd => absurd hcmd not_mem_nil

/-- A turn of the first command that starts with a lookup. -/
theorem polled {cond : Bytes → TieredTable → Machine → Prop} {s seen : TieredTable} {key : Bytes} {m m' : Machine}
    {others : List Command} (h : Reaches hashOf blobs cond s (⟨key, m, seen⟩ :: others)) (hidle : Idle others) (hcond : cond key s m)
    (hlooks : m.looksUp = true) (hpoll : m.poll blobs s key (hashOf key) io = some m') :
    Reaches hashOf blobs cond s (⟨key, m', s⟩ :: others) := by
  have hnext := h.poll [] others ⟨hidle, hcond, io, hpoll⟩
  rw [Command.next, if_pos hlooks] at hnext
  exact hnext

section
variable {cond : Bytes → TieredTable → Machine → Prop} (hattempt : ∀ key s m, m.phase = .attempt → cond key s m)
include hattempt

/-- A command that sets a key its first lookup does not find. -/
theorem set_reaches {s s' : TieredTable} {commands : List Command} (h : Reaches hashOf blobs cond s commands) (hidle : Idle commands)
    (key value : Bytes) (addr : Nat) (hmiss : Machine.start.attempt s key (hashOf key) io = some ⟨[], 0, .done .miss⟩)
    (hfree : s.tail ≤ addr) (hinsert : s.insert (specOf key 0 (.inline value)) (hashOf key) addr = some s') :
    Reaches hashOf blobs cond s' commands :=
  (h.start key hidle).write [] commands ⟨hidle, hattempt _ _ _ rfl, io, hmiss⟩ rfl (.insert (.inline value) addr hfree hinsert)

theorem cold_reaches : Reaches hashOf blobs cond cold [] := by
  have hone : Reaches hashOf blobs cond one [] :=
    set_reaches hattempt (.new 0 1) idle_nil [100] [] 1 (by decide +kernel) (by decide +kernel) (some_get _).symm
  have htwo : Reaches hashOf blobs cond two [] :=
    set_reaches hattempt hone idle_nil [97] [1] 10 (by decide +kernel) (by decide +kernel) (some_get _).symm
  have hram : Reaches hashOf blobs cond two [⟨[100], ⟨[], 0, .done (.ram 1)⟩, two⟩] :=
    polled (htwo.start [100] idle_nil) idle_nil (hattempt _ _ _ rfl) rfl (by decide +kernel)
  have hfreed : Reaches hashOf blobs cond freed [] :=
    hram.delete [] [] [] idle_nil rfl rfl (by decide +kernel) (some_get _).symm
  have hsealed := hfreed.step idle_nil (.sealTo 20 (by decide +kernel) (by decide +kernel) : TieredTable.Step hashOf freed sealed)
  have hflushed := hsealed.step idle_nil (.flushTo 20 (by decide +kernel) le_rfl : TieredTable.Step hashOf sealed flushed)
  exact hflushed.step idle_nil (.release 20 (some_get _).symm)

omit hattempt in
/-- A plain write of `b`: the cold record has the fragments of its hash but not the hash. -/
theorem crossed_reaches {commands : List Command} (h : Reaches hashOf blobs cond cold commands) (hidle : Idle commands) :
    Reaches hashOf blobs cond crossed commands := by
  obtain ⟨⟨hlookup, hexact, hfree⟩, -⟩ := crossing
  have hticket (t : ShadowTicket) (ht : t ∈ cold.tickets) : t.cold ∉ (none : Option Nat) := nofun
  exact h.step hidle (.shadowInsert [98] [] none 20 10 hlookup hexact hticket hfree (some_get _).symm)

/-- `a` is asked for; while its record is read, `b` is set. -/
theorem reading_crossed : Reaches hashOf blobs cond crossed [⟨[97], reading [] 10, cold⟩] := by
  have hreading : Reaches hashOf blobs cond cold [⟨[97], reading [] 10, cold⟩] :=
    polled ((cold_reaches hattempt).start [97] idle_nil) idle_nil (hattempt _ _ _ rfl) rfl turns.1.1
  exact crossed_reaches hreading (forall_mem_singleton.mpr rfl)

end

/-- Runs without a condition. -/
abbrev Runs (s : TieredTable) (commands : List Command) : Prop := Reaches hashOf blobs (fun _ _ _ => True) s commands

theorem runs_demoted {commands : List Command} (hidle : Idle commands) (h : Runs crossed commands) : Runs demoted commands := by
  obtain ⟨-, -, hboundary, htail, hbelow⟩ := crossing
  have hsealed := h.step hidle (.sealTo 29 hboundary htail : TieredTable.Step hashOf crossed crossedSealed)
  have hflushed := hsealed.step hidle (.flushTo 29 hbelow le_rfl : TieredTable.Step hashOf crossedSealed crossedFlushed)
  exact hflushed.step hidle (.release 29 (some_get _).symm)

/-- While the record of `a` is read, the record of another key with the same fragments becomes cold
and comes first. The record of `a` is left out unread. -/
private theorem missed_demoted : Runs demoted [⟨[97], ⟨[10, 20], 0, .done .miss⟩, demoted⟩] := by
  obtain ⟨-, ⟨hfirst, hsecond, hthird, hmiss⟩, -⟩ := turns
  have hdemoted := runs_demoted (forall_mem_singleton.mpr rfl) (reading_crossed fun _ _ _ _ => trivial)
  have hretry : Runs demoted [⟨[97], ⟨[10], 0, .attempt⟩, demoted⟩] := polled hdemoted idle_nil trivial rfl hfirst
  have hreading : Runs demoted [⟨[97], reading [10] 20, demoted⟩] := polled hretry idle_nil trivial rfl hsecond
  have hagain : Runs demoted [⟨[97], ⟨[10, 20], 0, .attempt⟩, demoted⟩] := polled hreading idle_nil trivial rfl hthird
  exact polled hagain idle_nil trivial rfl hmiss

/-- While the record of `a` is read, another command sets `a` to a value out of line. The resumption
answers the record in memory without a look at its type. -/
private theorem served_replaced : Runs replaced [⟨[97], ⟨[], 0, .done (.ram 20)⟩, replaced⟩] := by
  obtain ⟨⟨hask, hserve, -, hram⟩, -⟩ := turns
  have hasked : Runs cold [⟨[97], reading [] 10, cold⟩] :=
    polled ((cold_reaches fun _ _ _ _ => trivial).start [97] idle_nil) idle_nil trivial rfl hask
  have hidle : Idle [⟨[97], reading [] 10, cold⟩] := forall_mem_singleton.mpr rfl
  have hboth : Runs cold [⟨[97], reading [] 10, cold⟩, ⟨[97], reading [] 10, cold⟩] :=
    polled (hasked.start [97] hidle) hidle trivial rfl hask
  have hset : Runs replaced [⟨[97], reading [] 10, cold⟩] :=
    @Reaches.write _ _ _ _ _ ⟨[], 0, .done (.cold 10 [1] 0 10)⟩ _ [] _ _ hboth ⟨hidle, trivial, io, hserve⟩ rfl
      (.updateExtent ⟨5, 0, 3⟩ 1 10 20 rfl rfl crossing.1.2.2 (some_get _).symm)
  exact polled hset idle_nil trivial rfl hram

end Scenario

open Scenario in
/-- A key with a current record can be answered as absent, and a key with an out-of-line value by the
bytes of the reference. -/
theorem resolve_can_answer_wrongly :
    (∃ s cmd, Runs s [cmd] ∧ cmd.machine.phase = .done .miss ∧ cmd.seen.Current cmd.key 10) ∧
      ∃ s cmd, Runs s [cmd] ∧ cmd.machine.phase = .done (.ram 20) ∧ cmd.seen.Current cmd.key 20 ∧
        (cmd.seen.record 20).map RecordParts.value = some (ExtentRef.encode ⟨5, 0, 3⟩) ∧
        (cmd.seen.record 20).bind (logicalValue blobs) = some [7, 7, 7] := by
  refine ⟨⟨_, _, missed_demoted, rfl, by decide +kernel⟩, ⟨_, _, served_replaced, rfl, by decide +kernel, ?_, ?_⟩⟩
  · decide +kernel
  · decide +kernel

open Scenario in
theorem resolve_sound_crossed : Sound blobs [97] crossed (.cold 10 [1] 0 10) ∧
    ∀ addr addr', crossed.Current [97] addr → crossed.Current [97] addr' → addr = addr' := by
  have hattempt (key : Bytes) (s : TieredTable) (m : Machine) (hphase : m.phase = .attempt) : Spared key (hashOf key) s m :=
    fun _ _ hreading => absurd (hphase.symm.trans hreading) (by simp)
  have hlookup := crossing.2.1
  have hresume : Spared [97] (hashOf [97]) crossed ⟨[], 0, .reading 10 ⟨1, 0⟩⟩ := by
    intro addr window hphase
    obtain ⟨rfl, -⟩ := Phase.reading.inj hphase
    constructor
    · intro now hcold hne
      exact absurd (TieredLookup.cold.inj (hcold.symm.trans hlookup)) hne
    · intro found hram
      exact absurd (hram.symm.trans hlookup) (by simp)
  have hdone : Reaches hashOf blobs (fun key s m => Spared key (hashOf key) s m) crossed
      [⟨[97], ⟨[], 0, .done (.cold 10 [1] 0 10)⟩, crossed⟩] :=
    polled (reading_crossed hattempt) idle_nil hresume rfl turns.1.2.2.1
  have hsound := @resolve_sound _ _ _ _ hdone _ mem_cons_self (.cold 10 [1] 0 10) rfl
  dsimp only at hsound
  exact hsound

end InfinityDB.Tiered
