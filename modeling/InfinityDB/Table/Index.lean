import InfinityDB.Lib.Probing

/-!
# The record index

An open-addressing table in groups of sixteen slots. A slot's control byte, its packed word and its
sidecar are one value here: the control byte is the constructor and the seven-bit tag, the word is
the fifteen-bit fingerprint and the address. Capacities are powers of two, so masking by the group
mask is `%`. What the sidecar keeps, if anything, is the mode of the table.
-/

namespace InfinityDB

/-- The mode of a table: the sidecar a slot carries, and what it says of a hash. -/
structure SlotMode where
  Ext : Type
  extSet : UInt64 → Ext
  extHash : Ext → UInt64
  extMatches : Ext → UInt64 → Bool
  matches_set : ∀ hash, extMatches (extSet hash) hash = true

/-- No sidecar: tag and address decide. -/
def memoryMode : SlotMode where
  Ext := Unit
  extSet _ := ()
  extHash _ := 0
  extMatches _ _ := true
  matches_set _ := rfl

/-- The sidecar is the full hash. -/
def tieredMode : SlotMode where
  Ext := UInt64
  extSet hash := hash
  extHash ext := ext
  extMatches ext hash := ext == hash
  matches_set hash := beq_self_eq_true hash

abbrev GROUP : Nat := 16

/-- The control tag: the top seven bits. -/
def h2 (hash : UInt64) : UInt8 := (hash >>> 57).toUInt8 &&& 0x7F

/-- The fifteen bits below the tag. -/
def fp15 (hash : UInt64) : UInt16 := ((hash >>> 42) &&& 0x7FFF).toUInt16

inductive IndexSlot (mode : SlotMode) (Addr : Type) where
  | empty
  | tomb
  | live (tag : UInt8) (fp : UInt16) (addr : Addr) (ext : mode.Ext)

namespace IndexSlot
variable {mode : SlotMode} {Addr : Type}

def isEmpty : IndexSlot mode Addr → Bool
  | .empty => true
  | _ => false

def isTomb : IndexSlot mode Addr → Bool
  | .tomb => true
  | _ => false

/-- The high bit of the control byte: empty or a tombstone. -/
def special : IndexSlot mode Addr → Bool
  | .live _ _ _ _ => false
  | _ => true

def of (mode : SlotMode) (hash : UInt64) (addr : Addr) : IndexSlot mode Addr :=
  .live (h2 hash) (fp15 hash) addr (mode.extSet hash)

/-- The address, if tag and fingerprint pass for a hash. -/
def candidate (hash : UInt64) : IndexSlot mode Addr → Option Addr
  | .live tag fp addr _ => if tag = h2 hash ∧ fp = fp15 hash then some addr else none
  | _ => none

/-- The address, if the sidecar passes too. -/
def fragment (hash : UInt64) : IndexSlot mode Addr → Option Addr
  | .live tag fp addr ext => if tag = h2 hash ∧ fp = fp15 hash ∧ mode.extMatches ext hash then some addr else none
  | _ => none

end IndexSlot

/-- The count of rebuilds is a `u64` that one operation advances at most once. -/
structure Index (mode : SlotMode) (Addr : Type) where
  slots : List (IndexSlot mode Addr)
  live : Nat
  tombstones : Nat
  rebuilds : Nat

/-- `usize::next_power_of_two`. -/
def nextPowerOfTwo (n : Nat) : Nat := if n ≤ 1 then 1 else 2 ^ (Nat.log2 (n - 1) + 1)

def positions (group : Nat) : List Nat := (List.range GROUP).map (group * GROUP + ·)

namespace Index
variable {mode : SlotMode} {Addr : Type}

def fresh (capacity : Nat) (rebuilds : Nat) : Index mode Addr := ⟨List.replicate capacity .empty, 0, 0, rebuilds⟩

/-- A table for `atLeast` entries without growing. -/
def withCapacity (atLeast : Nat) : Index mode Addr :=
  let slots := (max atLeast 1 * 100 + 84) / 85
  fresh (max (nextPowerOfTwo slots) GROUP) 0

def capacity (t : Index mode Addr) : Nat := t.slots.length

def groupCount (t : Index mode Addr) : Nat := t.capacity / GROUP

def slotIs (t : Index mode Addr) (p : IndexSlot mode Addr → Bool) (pos : Nat) : Bool := (t.slots[pos]?).any p

def hasEmpty (t : Index mode Addr) (group : Nat) : Bool := (positions group).any (t.slotIs IndexSlot.isEmpty)

/-- The groups a probe would load if nothing stopped it. -/
def probes (t : Index mode Addr) (home : Nat) : List Nat := Lib.probeSeq t.groupCount home

/-- The groups a probe loads: an empty slot ends it. -/
def chain (t : Index mode Addr) (home : Nat) : List Nat := Lib.takeThrough t.hasEmpty (t.probes home)

/-- The first address on the chain that passes tag, fingerprint and `verify`. -/
def find (t : Index mode Addr) (hash : UInt64) (verify : Addr → Bool) : Option Addr :=
  ((t.chain hash.toNat).flatMap positions).findSome? fun pos =>
    ((t.slots[pos]?).bind (IndexSlot.candidate hash)).filter verify

def positionOf [DecidableEq Addr] (t : Index mode Addr) (hash : UInt64) (addr : Addr) : Option Nat :=
  ((t.chain hash.toNat).flatMap positions).find? <| t.slotIs fun slot =>
    match slot with
    | .live tag _ a ext => tag = h2 hash ∧ a = addr ∧ mode.extMatches ext hash
    | _ => false

/-- True when the next insert must be preceded by `grow`. -/
def needsGrow (t : Index mode Addr) : Bool := t.capacity * 85 < (t.live + t.tombstones + 1) * 100

/-- Fill the first empty or deleted slot; `none` is the assertion that there is one. -/
def insert (t : Index mode Addr) (hash : UInt64) (addr : Addr) : Option (Index mode Addr) := do
  let pos ← ((t.probes hash.toNat).flatMap positions).find? (t.slotIs IndexSlot.special)
  some { t with
    slots := t.slots.set pos (IndexSlot.of mode hash addr)
    live := t.live + 1
    tombstones := if t.slotIs IndexSlot.isTomb pos then t.tombstones - 1 else t.tombstones }

/-- Swap the address of an entry; its sidecar stays. -/
def replace [DecidableEq Addr] (t : Index mode Addr) (hash : UInt64) (old new : Addr) :
    Option (Index mode Addr) := do
  let pos ← t.positionOf hash old
  match t.slots[pos]? with
  | some (.live tag _ _ ext) => some { t with slots := t.slots.set pos (.live tag (fp15 hash) new ext) }
  | _ => none

/-- In a group with an empty slot no chain passes through, so the slot may become empty too. -/
def removeAt (t : Index mode Addr) (pos : Nat) : Index mode Addr :=
  if t.hasEmpty (pos / GROUP) then { t with slots := t.slots.set pos .empty, live := t.live - 1 }
  else { t with slots := t.slots.set pos .tomb, live := t.live - 1, tombstones := t.tombstones + 1 }

/-- `none` is the panic on an absent entry. -/
def remove [DecidableEq Addr] (t : Index mode Addr) (hash : UInt64) (addr : Addr) : Option (Index mode Addr) :=
  (t.positionOf hash addr).map t.removeAt

def removeIfPresent [DecidableEq Addr] (t : Index mode Addr) (hash : UInt64) (addr : Addr) :
    Index mode Addr × Bool :=
  match t.positionOf hash addr with
  | some pos => (t.removeAt pos, true)
  | none => (t, false)

/-- Place every live address again, in a table of twice the size unless tombstones outnumber entries. -/
def grow (t : Index mode Addr) (hashOf : Addr → UInt64 → UInt64) : Option (Index mode Addr) :=
  let capacity := if t.live ≤ t.tombstones then t.capacity else t.capacity * 2
  t.slots.foldlM (fun next slot =>
    match slot with
    | .live _ _ addr ext => next.insert (hashOf addr (mode.extHash ext)) addr
    | _ => some next) (fresh capacity (t.rebuilds + 1))

end Index

end InfinityDB
