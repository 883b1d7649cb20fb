import InfinityDB.Fabric.Codec
import InfinityDB.Fabric.Ring

/-!
# The mesh of cells

One ring per directed pair of cells. A `Link` holds what the sender keeps for the pair (credits, the open
pack, the sealed slots) with the ring to the receiver. Frames pack into slots, slots publish at a flush
and are unpacked at a drain.

A panic is `none`. A frame that does not decode is a debug assertion: a build with debug assertions
panics, the other one counts it and drops the rest of its slot.
-/

namespace InfinityDB.Fabric

open Lib

structure MeshConfig where
  ringCapacity : Nat
  dataCredits : Nat
  capacity_lt : ringCapacity < wordSize
  credits_lt : dataCredits < 2 ^ 32

inductive SendError
  | noCredit (needed available : Nat)
  deriving DecidableEq

def packSealBytes : Nat := 2048
def packSealFrames : Nat := 64
def drainSlotChunk : Nat := 8

/-- A slot is the bytes of its message, inline or spilled. -/
structure Link where
  ring : Ring Bytes
  staged : List Bytes
  credits : Nat
  pack : Bytes
  packFrames : Nat

namespace Link

/-- `Outbound::seal`. -/
def sealPack (l : Link) : Link :=
  if l.pack = [] then l else { l with staged := l.staged ++ [l.pack], pack := [], packFrames := 0 }

def sealIfFull (l : Link) : Link := if packSealBytes ≤ l.pack.length ∨ packSealFrames ≤ l.packFrames then l.sealPack else l

/-- A frame at the end of the open pack. -/
def push (l : Link) (op : Op) : Option Link := do
  let pack ← encode op l.pack
  return { l with pack, packFrames := l.packFrames + 1 }.sealIfFull

/-- What `flush` does for one destination. -/
def flush (l : Link) : Option Link :=
  let l := l.sealPack
  if l.staged = [] then some l
  else do
    let (ring, _, staged) ← l.ring.publishBatch l.staged
    return { l with ring, staged }

end Link

/-- Credits of a data op; a length is cut to 32 bits. -/
def creditCost : Op → Nat
  | .batch ops => ops.length % 2 ^ 32
  | .reply .. => 0
  | _ => 1

def Op.isReply : Op → Bool
  | .reply .. => true
  | _ => false

/-- The frames of a slot in order, until one does not decode. -/
def unpack (debug : Bool) : Nat → Bytes → Option (List Op)
  | 0, _ => some []
  | fuel + 1, bytes =>
    if bytes = [] then some []
    else do
      match ← decodePrefix bytes with
      | .ok (op, used) =>
        let ops ← unpack debug fuel (bytes.drop used)
        return op :: ops
      | .error _ => if debug then none else some []

/-- The frames of the slots; every frame is longer than its header, so the length bounds their number. -/
def unpackAll (debug : Bool) : List Bytes → Option (List Op)
  | [] => some []
  | msg :: msgs => do
    let ops ← unpack debug msg.length msg
    let later ← unpackAll debug msgs
    return ops ++ later

/-- Slots in chunks until the budget or the ring is exhausted; every turn but the last empties a slot. -/
def drainLoop (debug : Bool) (max : Nat) : Nat → Ring Bytes → Nat → Option (Ring Bytes × List Op × Nat)
  | 0, ring, drained => some (ring, [], drained)
  | turns + 1, ring, drained =>
    if drained < max then do
      let chunk := min drainSlotChunk (max - drained)
      let (ring, msgs) ← ring.consumeBatch chunk
      let ops ← unpackAll debug msgs
      let drained := drained + ops.length
      if msgs.length < chunk then return (ring, ops, drained)
      else do
        let (ring, later, drained) ← drainLoop debug max turns ring drained
        return (ring, ops ++ later, drained)
    else some (ring, [], drained)

/-- A table by pairs of cells with one entry replaced. -/
def setPair {n : Nat} {α : Type} (f : Fin n → Fin n → α) (a b : Fin n) (value : α) : Fin n → Fin n → α :=
  fun x y => if x = a ∧ y = b then value else f x y

structure Mesh (n : Nat) where
  config : MeshConfig
  /-- From the first cell to the second; there is no route from a cell to itself. -/
  links : Fin n → Fin n → Link
  nextSource : Fin n → Nat

namespace Mesh

variable {n : Nat}

/-- Rings exist between two cells, so a lone cell takes any capacity. -/
def new (n : Nat) (config : MeshConfig) : Option (Mesh n) :=
  if n = 0 then none
  else if config.dataCredits = 0 then none
  else if config.ringCapacity < 2 * config.dataCredits then none
  else if n = 1 then some ⟨config, fun _ _ => ⟨⟨0, 0, 0, [], 0, 0, 0, 0⟩, [], config.dataCredits, [], 0⟩, fun _ => 0⟩
  else do
    let ring ← Ring.new config.ringCapacity
    return ⟨config, fun _ _ => ⟨ring, [], config.dataCredits, [], 0⟩, fun _ => 0⟩

def setLink (m : Mesh n) (a b : Fin n) (l : Link) : Mesh n :=
  { m with links := setPair m.links a b l }

def send (m : Mesh n) (a b : Fin n) (op : Op) : Option (Mesh n × Except SendError Unit) :=
  if op.isReply then none
  else if a = b then none
  else
    let l := m.links a b
    let cost := creditCost op
    if l.credits < cost then some (m, .error (.noCredit cost l.credits))
    else do
      let l ← { l with credits := l.credits - cost }.push op
      return (m.setLink a b l, .ok ())

def reply (m : Mesh n) (a b : Fin n) (token : FabricToken) (outcome : Outcome) : Option (Mesh n) :=
  if a = b then none
  else do
    let l ← (m.links a b).push (.reply token outcome)
    return m.setLink a b l

def flushTo (a : Fin n) (m : Mesh n) (b : Fin n) : Option (Mesh n) :=
  if a = b then some m
  else do
    let l ← (m.links a b).flush
    return m.setLink a b l

def flush (m : Mesh n) (a : Fin n) : Option (Mesh n) := (List.finRange n).foldlM (flushTo a) m

/-- One peer's turn in a drain of cell `b`: its frames, and the credits its replies return. -/
def drainSource (debug : Bool) (max : Nat) (b : Fin n) (m : Mesh n) (a : Fin n) (drained : Nat) :
    Option (Mesh n × List Op × Nat) :=
  if a = b then some (m, [], drained)
  else do
    let l := m.links a b
    let (ring, ops, drained) ← drainLoop debug max (wrappingSub l.ring.tail l.ring.consumerHead + 1) l.ring drained
    let m := m.setLink a b { l with ring }
    let back := m.links b a
    let m := m.setLink b a { back with credits := back.credits + (ops.filter Op.isReply).length }
    return (m, ops, drained)

/-- The peers from the cursor on, while the budget lasts: what each handed over, and how many were visited. -/
def drainFrom (debug : Bool) (max : Nat) (b : Fin n) : List (Fin n) → Mesh n → Nat →
    Option (Mesh n × List (Fin n × List Op) × Nat × Nat)
  | [], m, drained => some (m, [], drained, 0)
  | a :: sources, m, drained =>
    if max ≤ drained then some (m, [], drained, 0)
    else do
      let (m, ops, drained) ← drainSource debug max b m a drained
      let (m, visits, drained, visited) ← drainFrom debug max b sources m drained
      return (m, (a, ops) :: visits, drained, visited + 1)

def sources (m : Mesh n) (b : Fin n) : List (Fin n) :=
  (List.range n).map fun offset => ⟨(m.nextSource b + offset) % n, Nat.mod_lt _ (Fin.pos b)⟩

/-- The visits with their frames, and the frames drained. -/
def drain (debug : Bool) (m : Mesh n) (b : Fin n) (max : Nat) : Option (Mesh n × List (Fin n × List Op) × Nat) := do
  let start := m.nextSource b
  let (m, visits, drained, visited) ← drainFrom debug max b (m.sources b) m 0
  if max ≤ drained ∧ visited < n then
    return ({ m with nextSource := Function.update m.nextSource b ((start + visited) % n) }, visits, drained)
  else return (m, visits, drained)

end Mesh

/-- The token of a single data op. -/
def Op.leafTokens : Op → List FabricToken
  | .read token .. => [token]
  | .write token .. => [token]
  | .apply token .. => [token]
  | .applyNs token .. => [token]
  | .adoptConn token _ => [token]
  | .batch _ => []
  | .reply .. => []

/-- Tokens of the data ops of a frame, each owed one reply. -/
def Op.tokens : Op → List FabricToken
  | .batch ops => ops.flatMap leafTokens
  | op => op.leafTokens

/-- The mesh with its history: frames sent and handed over by pair, and what each cell owes each peer. -/
structure World (n : Nat) where
  mesh : Mesh n
  sent : Fin n → Fin n → List Op
  handed : Fin n → Fin n → List Op
  /-- At the first cell, for ops of the second. -/
  owed : Fin n → Fin n → List FabricToken

inductive Action (n : Nat)
  | send (a b : Fin n) (op : Op)
  | reply (a b : Fin n) (token : FabricToken) (outcome : Outcome)
  | flush (a : Fin n)
  | drain (b : Fin n) (max : Nat)

namespace World

variable {n : Nat}

def fresh (mesh : Mesh n) : World n := ⟨mesh, fun _ _ => [], fun _ _ => [], fun _ _ => []⟩

def extend {α : Type} (f : Fin n → Fin n → List α) (a b : Fin n) (xs : List α) : Fin n → Fin n → List α :=
  setPair f a b (f a b ++ xs)

/-- The callbacks of one visit of a drain of cell `b`. -/
def absorb (b : Fin n) (w : World n) (visit : Fin n × List Op) : World n :=
  { w with
    handed := extend w.handed visit.1 b visit.2
    owed := extend w.owed b visit.1 (visit.2.flatMap Op.tokens) }

def step (debug : Bool) (w : World n) : Action n → Option (World n)
  | .send a b op => do
    let (mesh, result) ← w.mesh.send a b op
    match result with
    | .ok () => return { w with mesh, sent := extend w.sent a b [op] }
    | .error _ => return { w with mesh }
  | .reply a b token outcome => do
    let mesh ← w.mesh.reply a b token outcome
    return { w with
      mesh
      sent := extend w.sent a b [.reply token outcome]
      owed := setPair w.owed a b ((w.owed a b).erase token) }
  | .flush a => do
    let mesh ← w.mesh.flush a
    return { w with mesh }
  | .drain b max => do
    let (mesh, visits, _) ← w.mesh.drain debug b max
    return visits.foldl (absorb b) { w with mesh }

/-- Sends are data ops or batches that are not empty, and a reply answers an op that is owed one. -/
def Legal (w : World n) : Action n → Prop
  | .send _ _ op => op.isReply = false ∧ op ≠ .batch []
  | .reply a b token _ => token ∈ w.owed a b
  | _ => True

end World

end InfinityDB.Fabric
