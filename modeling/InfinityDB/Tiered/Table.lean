import InfinityDB.Table.Refinement
import InfinityDB.Tiered.Record

/-!
# The tiered table

Records lie in an append-only log. Below `head` an address is on disk only, from `roBoundary` on its
record may be rewritten in place. The index keeps the full hash beside each address, so slots are
repointed and removed exactly, but a lookup compares no more than the fragments of the hash in the slot.

A plain write over a cold candidate does not read it: it leaves both slots and a ticket for the pair,
and a later read settles the ticket. The winner of a ticket is kept in memory until then. The state
has the bytes at every address, whether in memory or in a tier file; a record's bytes are consecutive
from its address. What only lowers the admission of a step (window, disk and walk limits) is left out.
-/

namespace InfinityDB.Tiered

open Lib

structure ShadowTicket where
  hash : UInt64
  cold : Nat
  winner : Nat
deriving DecidableEq

structure TieredTable where
  index : Index tieredMode Nat
  image : Nat → Bytes
  head : Nat
  flushed : Nat
  roBoundary : Nat
  tail : Nat
  tickets : List ShadowTicket

inductive AddrClass where
  | mutable
  | readOnly
  | cold
deriving DecidableEq

inductive TieredLookup where
  | ram (addr : Nat)
  | cold (addr : Nat)
  | miss
deriving DecidableEq

/-- What a write stores: the value itself or a reference to its extent. -/
inductive Payload where
  | inline (value : Bytes)
  | extent (ref : ExtentRef)

def specOf (key : Bytes) (version : Nat) : Payload → RecordSpec
  | .inline value => ⟨key, value, version, none, .string false⟩
  | .extent ref => ⟨key, ref.encode, version, none, .stringExtent⟩

def slotAddr : IndexSlot tieredMode Nat → Option Nat
  | .live _ _ addr _ => some addr
  | _ => none

namespace TieredTable

def new (initialKeys origin : Nat) : TieredTable :=
  ⟨Index.withCapacity (max initialKeys 64), fun _ => [], origin, origin, origin, origin, []⟩

def resolve (s : TieredTable) (addr : Nat) : AddrClass :=
  if s.roBoundary ≤ addr then .mutable else if s.head ≤ addr then .readOnly else .cold

def record (s : TieredTable) (addr : Nat) : Option RecordParts := decodeRecord (s.image addr)

def addrs (s : TieredTable) : List Nat := s.index.slots.filterMap slotAddr

/-- A record in memory is verified here; a cold one is the caller's to fetch and verify. The source
notes the first cold candidate on its one way through the chain. It counts only when that way found
nothing in memory, and has then passed every candidate. -/
def lookup (s : TieredTable) (key : Bytes) (hash : UInt64) (exclude : List Nat) : TieredLookup :=
  match s.index.find hash fun addr => s.resolve addr ≠ .cold ∧ (s.record addr).any (·.key = key) with
  | some addr => .ram addr
  | none =>
    match s.index.find hash fun addr => s.resolve addr = .cold ∧ addr ∉ exclude with
    | some addr => .cold addr
    | none => .miss

/-- Bytes put at an address from the tail on. -/
def place (s : TieredTable) (addr : Nat) (bytes : Bytes) : TieredTable :=
  { s with image := Function.update s.image addr bytes, tail := addr + bytes.length }

/-- Room for one more entry; slots are placed again by the hash in the sidecar. -/
def roomy (t : Index tieredMode Nat) : Option (Index tieredMode Nat) :=
  if t.needsGrow then t.grow fun _ ext => ext else some t

def insert (s : TieredTable) (spec : RecordSpec) (hash : UInt64) (addr : Nat) : Option TieredTable := do
  let bytes ← spec.write
  let index ← roomy s.index
  let index ← index.insert hash addr
  some { s.place addr bytes with index }

/-- Tickets follow a winner that moved; the ticket of a cold slot that moved ends. -/
def shadowNoteMoved (s : TieredTable) (old new : Nat) : List ShadowTicket :=
  (s.tickets.filter (·.cold ≠ old)).map fun t => if t.winner = old then { t with winner := new } else t

def shadowNoteRemoved (s : TieredTable) (addr : Nat) : List ShadowTicket :=
  s.tickets.filter fun t => t.cold ≠ addr ∧ t.winner ≠ addr

/-- Copy to the tail and repoint the slot. -/
def overwrite (s : TieredTable) (spec : RecordSpec) (hash : UInt64) (old addr : Nat) : Option TieredTable := do
  let bytes ← spec.write
  let index ← s.index.replace hash old addr
  some { s.place addr bytes with index, tickets := s.shadowNoteMoved old addr }

/-- A plain string of the same length in the mutable region is rewritten where it is. -/
def inPlace (s : TieredTable) (spec : RecordSpec) (old : Nat) : Bool :=
  spec.encodedLen = (s.image old).length ∧ s.resolve old = .mutable ∧ (s.record old).any (·.typeTag = .string)

def update (s : TieredTable) (spec : RecordSpec) (hash : UInt64) (old addr : Nat) : Option TieredTable :=
  if s.inPlace spec old then do
    let bytes ← spec.write
    some { s with image := Function.update s.image old bytes }
  else s.overwrite spec hash old addr

/-- `none` is the assertion that no ticket names the record as its winner. -/
def delete (s : TieredTable) (hash : UInt64) (addr : Nat) : Option TieredTable :=
  if s.tickets.any (·.winner = addr) then none
  else (s.index.remove hash addr).map fun index => { s with index, tickets := s.shadowNoteRemoved addr }

/-- A record's bytes copied to the tail, as compaction and promotion do. -/
def relocate (s : TieredTable) (hash : UInt64) (old addr : Nat) : Option TieredTable :=
  (s.index.replace hash old addr).map fun index => { s.place addr (s.image old) with index }

/-- The cold slots with exactly this hash, in probe order. -/
def exactCold (s : TieredTable) (hash : UInt64) : List Nat :=
  (((s.index.chain hash.toNat).flatMap positions).filterMap fun pos =>
    (s.index.slots[pos]?).bind (IndexSlot.fragment hash)).filter fun addr => s.resolve addr = .cold

/-- An insertion that leaves the cold candidate, if there is one, for a ticket. -/
def shadowInsert (s : TieredTable) (spec : RecordSpec) (hash : UInt64) (cold : Option Nat) (addr : Nat) : Option TieredTable :=
  (s.insert spec hash addr).map fun s' => { s' with tickets := (cold.map fun c => ⟨hash, c, addr⟩).toList ++ s'.tickets }

def dropTicket (s : TieredTable) (cold : Nat) : TieredTable :=
  { s with tickets := s.tickets.filter (·.cold ≠ cold) }

/-- A ticket whose two records have one key: the cold slot goes. -/
def settleTicket (s : TieredTable) (t : ShadowTicket) : Option TieredTable :=
  (s.index.remove t.hash t.cold).map fun index => { s.dropTicket t.cold with index }

/-- Pages below `addr` are released. `none` is an assertion: the target is flushed, and no winner of a ticket
lies below it. -/
def release (s : TieredTable) (addr : Nat) : Option TieredTable :=
  if s.head ≤ addr ∧ addr ≤ s.flushed ∧ ∀ t ∈ s.tickets, addr ≤ t.winner then some { s with head := addr } else none

/-- The record a lookup of the key should lead to: the one in memory, or else the cold one. -/
def Current (s : TieredTable) (key : Bytes) (addr : Nat) : Prop :=
  addr ∈ s.addrs ∧ keyOf (s.image addr) = some key ∧
    (s.resolve addr ≠ .cold ∨ ∀ other ∈ s.addrs, keyOf (s.image other) = some key → s.resolve other = .cold)

instance (s : TieredTable) (key : Bytes) (addr : Nat) : Decidable (s.Current key addr) := by
  unfold Current
  infer_instance

def Absent (s : TieredTable) (key : Bytes) : Prop := ∀ addr ∈ s.addrs, keyOf (s.image addr) ≠ some key

instance (s : TieredTable) (key : Bytes) : Decidable (s.Absent key) := by
  unfold Absent
  infer_instance

/-- The recheck of `stage_delete` and of a guarded write over a record. -/
def stillAt (s : TieredTable) (key : Bytes) (hash : UInt64) (addr : Nat) : Bool :=
  match s.lookup key hash [] with
  | .ram now => now = addr
  | .cold now => now = addr
  | .miss => false

/-- `WriteGuard::Reverify`: what the write displaces is still what the key leads to. -/
def reverify (s : TieredTable) (key : Bytes) (hash : UInt64) : Option Nat → Bool
  | some addr => s.stillAt key hash addr
  | none =>
    match s.lookup key hash [] with
    | .ram _ => false
    | _ => true

def containsPair (s : TieredTable) (hash : UInt64) (addr : Nat) : Bool := (s.index.positionOf hash addr).isSome

inductive Staged where
  | applied
  | moved
  | noRoom
  | overRegister
deriving DecidableEq

/-- `fits` is the answer of the staging window and `inRegister` that of the replay register. -/
def stageDelete (s : TieredTable) (key : Bytes) (hash : UInt64) (target : Nat) (twins : List Nat) (fits inRegister : Bool) : Staged :=
  if !fits then .noRoom
  else if !s.stillAt key hash target then .moved
  else
    let twins := twins.filter (s.containsPair hash)
    if s.tickets.any fun t => t.winner = target ∧ t.cold ∉ twins then .moved
    else if inRegister then .applied
    else .overRegister

/-- What an applied delete does: the twins that are still slotted go first. -/
def stageDeleteRun (s : TieredTable) (hash : UInt64) (target : Nat) (twins : List Nat) : Option TieredTable := do
  let s ← (twins.filter (s.containsPair hash)).foldlM (fun s twin => s.delete hash twin) s
  s.delete hash target

/-- What runs without resolving a key: a plain write over at most one cold slot with its hash, and
maintenance. Only cold records without a ticket are relocated. -/
inductive Step (hashOf : Bytes → UInt64) : TieredTable → TieredTable → Prop where
  | relocate {s s' : TieredTable} (key : Bytes) (old addr : Nat) (hkey : keyOf (s.image old) = some key)
      (hcold : s.resolve old = .cold) (hticket : ∀ t ∈ s.tickets, t.cold ≠ old)
      (hfree : s.tail ≤ addr) (h : s.relocate (hashOf key) old addr = some s') : Step hashOf s s'
  | shadowInsert {s s' : TieredTable} (key value : Bytes) (cold : Option Nat) (addr candidate : Nat)
      (hlookup : s.lookup key (hashOf key) [] = .cold candidate) (hexact : s.exactCold (hashOf key) = cold.toList)
      (hticket : ∀ t ∈ s.tickets, t.cold ∉ cold) (hfree : s.tail ≤ addr)
      (h : s.shadowInsert (specOf key 0 (.inline value)) (hashOf key) cold addr = some s') : Step hashOf s s'
  | collision {s : TieredTable} (t : ShadowTicket) (ht : t ∈ s.tickets)
      (hkeys : keyOf (s.image t.cold) ≠ keyOf (s.image t.winner)) : Step hashOf s (s.dropTicket t.cold)
  | settle {s s' : TieredTable} (t : ShadowTicket) (ht : t ∈ s.tickets)
      (hkeys : keyOf (s.image t.cold) = keyOf (s.image t.winner)) (h : s.settleTicket t = some s') : Step hashOf s s'
  | sealTo {s : TieredTable} (addr : Nat) (hto : s.roBoundary ≤ addr) (htail : addr ≤ s.tail) :
      Step hashOf s { s with roBoundary := addr }
  | flushTo {s : TieredTable} (addr : Nat) (hto : s.flushed ≤ addr) (hro : addr ≤ s.roBoundary) :
      Step hashOf s { s with flushed := addr }
  | release {s s' : TieredTable} (addr : Nat) (h : s.release addr = some s') : Step hashOf s s'

end TieredTable

end InfinityDB.Tiered
