import InfinityDB.Ordered.Heap

/-!
# The ordered map

The B+-tree of one secondary index: leaf and internal pools addressed by node ids, the suffix
heap, and the operations on them. A node's arrays are the lists of their live slots. Every
computation runs in `Option`: `none` is a panic of the release build (a failed `assert!` or
`expect`, or an index out of bounds), so a result `some _` includes that nothing panicked.
-/

namespace InfinityDB

open Lib

theorem run_bind {α β : Type} {x : Option α} {a : α} (h : x = some a) (f : α → Option β) : (x >>= f) = f a := by
  rw [h]
  rfl

/-- `MAX_HEIGHT`: the bound of the iterative descent path. -/
def maxHeight : Nat := 16

/-- `NONE` as the bound of the node-id space; a null id itself is `none`. -/
def nodeNone : Nat := 2 ^ 32 - 1

/-- One entry of a node: key prefix, sideband, reference. Leaf entries and separators alike. -/
structure Slot (S : KeyScheme) where
  pre : Nat
  side : S.Meta
  entryRef : UInt64

structure Leaf (S : KeyScheme) where
  next : Option Nat
  slots : List (Slot S)

/-- `seps[i]` fences `children[i]` from `children[i+1]`. -/
structure Internal (S : KeyScheme) where
  seps : List (Slot S)
  children : List Nat

/-- Typed node pool with free-list recycling; the free stack is kept top first. -/
structure Pool (α : Type) where
  nodes : List α
  free : List Nat

namespace Pool
variable {α : Type}

def new : Pool α := ⟨[], []⟩

def alloc (p : Pool α) (node : α) : Option (Except OrderedMapError Nat × Pool α) :=
  match p.free with
  | id :: free => if id < p.nodes.length then some (.ok id, ⟨p.nodes.set id node, free⟩) else none
  | [] =>
    if nodeNone ≤ p.nodes.length then some (.error .nodeLimit, p)
    else some (.ok p.nodes.length, ⟨p.nodes ++ [node], []⟩)

def release (p : Pool α) (id : Nat) : Pool α := { p with free := id :: p.free }

def get (p : Pool α) (id : Nat) : Option α := p.nodes[id]?

def set (p : Pool α) (id : Nat) (node : α) : Option (Pool α) :=
  if id < p.nodes.length then some { p with nodes := p.nodes.set id node } else none

end Pool

namespace Leaf
variable {S : KeyScheme}

def new : Leaf S := ⟨none, []⟩

def count (leaf : Leaf S) : Nat := leaf.slots.length

/-- `shift_right`, `write_slot` and the count increment: the slot arrays hold `F` entries. -/
def place (F : Nat) (leaf : Leaf S) (idx : Nat) (slot : Slot S) : Option (Leaf S) :=
  if leaf.count < F ∧ idx ≤ leaf.count then
    some { leaf with slots := leaf.slots.take idx ++ slot :: leaf.slots.drop idx }
  else none

/-- `shift_left` and the count decrement. -/
def erase (leaf : Leaf S) (idx : Nat) : Option (Leaf S) :=
  if idx < leaf.count then
    some { leaf with slots := leaf.slots.take idx ++ leaf.slots.drop (idx+1) }
  else none

end Leaf

namespace Internal
variable {S : KeyScheme}

def new : Internal S := ⟨[], []⟩

def count (node : Internal S) : Nat := node.seps.length

/-- `shift_right_internal`, `write_sep` and the count increment: a separator and the child to
its right; the child array holds `F` ids. -/
def place (F : Nat) (node : Internal S) (idx : Nat) (sep : Slot S) (right : Nat) : Option (Internal S) :=
  if node.count < F - 1 ∧ idx ≤ node.count then
    some ⟨node.seps.take idx ++ sep :: node.seps.drop idx,
      node.children.take (idx+1) ++ right :: node.children.drop (idx+1)⟩
  else none

/-- `write_sep_only` on a live separator. -/
def writeSep (node : Internal S) (idx : Nat) (sep : Slot S) : Option (Internal S) :=
  if idx < node.count then some { node with seps := node.seps.set idx sep } else none

/-- `drop_sep`: remove a separator and the child to its right. -/
def dropSep (node : Internal S) (idx : Nat) : Option (Internal S) :=
  if idx < node.count then
    some ⟨node.seps.take idx ++ node.seps.drop (idx+1),
      node.children.take (idx+1) ++ node.children.drop (idx+2)⟩
  else none

end Internal

inductive AppendError where
  | outOfOrder
  | map (error : OrderedMapError)
deriving DecidableEq, Repr

structure OrderedMap (S : KeyScheme) (F : Nat) where
  leaves : Pool (Leaf S)
  internals : Pool (Internal S)
  heap : KeyHeap
  root : Option Nat
  height : Nat
  len : Nat
  epoch : UInt64
  rebalanceDeferred : Nat

/-- A node and the child index taken in it. Paths list the immediate parent of the leaf first. -/
abbrev Path := List (Nat × Nat)

section Comparisons
variable {S : KeyScheme}

/-- Entry key against probe key: `(prefix, suffix, len)`. -/
def cmpKey (heap : KeyHeap) (slot : Slot S) (probe : Probe) : Option Ordering :=
  let byPrefix := ordCmp slot.pre probe.pre
  if S.fixed || byPrefix != .eq then some byPrefix
  else do
    let len := S.metaLen slot.side
    let suffix ← heap.get (S.metaAddr slot.side) (len - 8)
    some ((ordCmp suffix probe.suffix).then (ordCmp len probe.len))

def cmpPair (heap : KeyHeap) (slot : Slot S) (probe : Probe) (probeRef : UInt64) : Option Ordering := do
  let byKey ← cmpKey heap slot probe
  some (byKey.then (ordCmp slot.entryRef probeRef))

/-- The scalar walk of a node search: slots passed over before the first that stops it. -/
def scalarWalk (heap : KeyHeap) (probe : Probe) (probeRef : UInt64) (advance : Ordering → Bool) :
    List (Slot S) → Option Nat
  | [] => some 0
  | slot :: slots => do
    let order ← cmpPair heap slot probe probeRef
    if advance order then
      let n ← scalarWalk heap probe probeRef advance slots
      some (n + 1)
    else some 0

/-- Early-exit prefix scan. -/
def leafPrefixJump (pres : List Nat) (probe : Nat) : Nat := (pres.takeWhile (· < probe)).length

/-- `scalar_lower_bound_u64`: the count of elements below the probe. -/
def lowerBoundU64 (sorted : List Nat) (probe : Nat) : Nat := sorted.countP (· < probe)

/-- First slot whose pair is `>=` the probe pair (`>` unless `allowEqual`). -/
def leafLowerBound (heap : KeyHeap) (leaf : Leaf S) (probe : Probe) (probeRef : UInt64)
    (allowEqual : Bool) : Option Nat := do
  let idx := leafPrefixJump (leaf.slots.map (·.pre)) probe.pre
  let n ← scalarWalk heap probe probeRef (fun o => o == .lt || (!allowEqual && o == .eq))
    (leaf.slots.drop idx)
  some (idx + n)

/-- Child index of the probe pair: the number of separators `<=` it. -/
def routeChild (heap : KeyHeap) (node : Internal S) (probe : Probe) (probeRef : UInt64) : Option Nat := do
  let idx := lowerBoundU64 (node.seps.map (·.pre)) probe.pre
  let n ← scalarWalk heap probe probeRef (fun o => o != .gt) (node.seps.drop idx)
  some (idx + n)

/-- Whether the slot at `idx` is the probe pair itself. -/
def isExact (heap : KeyHeap) (leaf : Leaf S) (idx : Nat) (probe : Probe) (probeRef : UInt64) :
    Option Bool :=
  match leaf.slots[idx]? with
  | none => some false
  | some slot => do
    let order ← cmpPair heap slot probe probeRef
    some (order == .eq)

end Comparisons

section Custody
variable {S : KeyScheme}

def storeMeta (S : KeyScheme) (heap : KeyHeap) (probe : Probe) :
    Option (Except OrderedMapError S.Meta × KeyHeap) :=
  if S.fixed || probe.suffix.isEmpty then some (.ok (S.metaNew 0 probe.len), heap)
  else do
    match ← heap.alloc probe.suffix with
    | (.ok addr, heap) => some (.ok (S.metaNew addr probe.len), heap)
    | (.error error, heap) => some (.error error, heap)

def freeMeta (heap : KeyHeap) (side : S.Meta) : Option KeyHeap :=
  if S.fixed then some heap
  else
    let suffixLen := S.metaLen side - 8
    if 0 < suffixLen then heap.release (S.metaAddr side) suffixLen else some heap

/-- An owned separator copy of the probe pair itself. -/
def copyProbeAsSep (heap : KeyHeap) (probe : Probe) (entryRef : UInt64) :
    Option (Except OrderedMapError (Slot S) × KeyHeap) := do
  match ← storeMeta S heap probe with
  | (.ok side, heap) => some (.ok ⟨probe.pre, side, entryRef⟩, heap)
  | (.error error, heap) => some (.error error, heap)

/-- An owned copy of a slot, to serve as a separator. -/
def copySlot (heap : KeyHeap) (slot : Slot S) : Option (Except OrderedMapError (Slot S) × KeyHeap) :=
  if S.fixed then some (.ok slot, heap)
  else
    let len := S.metaLen slot.side
    if len - 8 = 0 then some (.ok { slot with side := S.metaNew 0 len }, heap)
    else do
      let copied ← heap.get (S.metaAddr slot.side) (len - 8)
      match ← heap.alloc copied with
      | (.ok addr, heap) => some (.ok { slot with side := S.metaNew addr len }, heap)
      | (.error error, heap) => some (.error error, heap)

/-- An owned separator copy of the pair at a leaf position. -/
def copyEntryAsSep (leaves : Pool (Leaf S)) (heap : KeyHeap) (leafId slot : Nat) :
    Option (Except OrderedMapError (Slot S) × KeyHeap) := do
  let leaf ← leaves.get leafId
  let slot ← leaf.slots[slot]?
  copySlot heap slot

end Custody

namespace OrderedMap
variable {S : KeyScheme} {F : Nat}

def leafMin (F : Nat) : Nat := F / 2
def sepMax (F : Nat) : Nat := F - 1
def sepMin (F : Nat) : Nat := (F - 1) / 2

def new (S : KeyScheme) (F : Nat) (ceiling : UInt32) : OrderedMap S F :=
  ⟨Pool.new, Pool.new, KeyHeap.new ceiling, none, 0, 0, 0, 0⟩

/-- One hop of the descent for every level: the node reached and the path to it. `pick`
chooses the child. -/
def descendFrom (m : OrderedMap S F) (pick : Internal S → Option Nat) : Nat → Option (Nat × Path)
  | 0 => do
    let root ← m.root
    some (root, [])
  | level + 1 => do
    let (node, path) ← descendFrom m pick level
    let internal ← m.internals.get node
    let child ← pick internal
    let next ← internal.children[child]?
    some (next, (node, child) :: path)

/-- Descend to the leaf owning the probe pair, recording the internal path. -/
def descend (m : OrderedMap S F) (probe : Probe) (probeRef : UInt64) : Option (Nat × Path) :=
  if m.height < maxHeight then
    m.descendFrom (fun node => routeChild m.heap node probe probeRef) m.height
  else none

/-- The allocations a full-leaf insert needs, gathered before any structure moves. -/
structure InsertPlan (S : KeyScheme) where
  entryMetaPlanned : Option S.Meta
  entryMeta : Option S.Meta
  sep : Option (Slot S)
  rightLeaf : Option Nat
  internals : List Nat
  newRoot : Option Nat

def InsertPlan.new : InsertPlan S := ⟨none, none, none, none, [], none⟩

def insertFirst (m : OrderedMap S F) (probe : Probe) (entryRef : UInt64) :
    Option (Except OrderedMapError Bool × OrderedMap S F) := do
  match ← storeMeta S m.heap probe with
  | (.error error, heap) => some (.error error, { m with heap })
  | (.ok side, heap) =>
    match ← m.leaves.alloc ⟨none, [⟨probe.pre, side, entryRef⟩]⟩ with
    | (.ok id, leaves) =>
      some (.ok true, { m with heap, leaves, root := some id, len := 1, epoch := m.epoch + 1 })
    | (.error error, leaves) =>
      let heap ← freeMeta heap side
      some (.error error, { m with heap, leaves })

/-- The run of full ancestors above the leaf, and whether it reaches past the root. -/
def fullRun (F : Nat) (internals : Pool (Internal S)) : Path → Option (Nat × Bool)
  | [] => some (0, true)
  | (node, _) :: path => do
    let internal ← internals.get node
    if internal.count < sepMax F then some (0, false)
    else
      let (run, grow) ← fullRun F internals path
      some (run + 1, grow)

/-- `push_internal` in a loop: one fresh internal for each full ancestor. The plan's array has
`MAX_HEIGHT` places. -/
def planInternals (internals : Pool (Internal S)) (planned : List Nat) :
    Nat → Option (Except OrderedMapError Unit × List Nat × Pool (Internal S))
  | 0 => some (.ok (), planned, internals)
  | run + 1 => do
    match ← internals.alloc Internal.new with
    | (.error error, internals) => some (.error error, planned, internals)
    | (.ok id, internals) =>
      if planned.length < maxHeight then planInternals internals (planned ++ [id]) run else none

def planSplit (m : OrderedMap S F) (leafId cut : Nat) (probe : Probe) (entryRef : UInt64)
    (path : Path) : Option (Except OrderedMapError Unit × InsertPlan S × OrderedMap S F) := do
  let plan := InsertPlan.new
  match ← storeMeta S m.heap probe with
  | (.error error, heap) => some (.error error, plan, { m with heap })
  | (.ok side, heap) =>
  let plan := { plan with entryMetaPlanned := some side }
  match ← (if cut = F then copyProbeAsSep heap probe entryRef
      else copyEntryAsSep m.leaves heap leafId cut) with
  | (.error error, heap) => some (.error error, plan, { m with heap })
  | (.ok sep, heap) =>
  let plan := { plan with sep := some sep }
  match ← m.leaves.alloc Leaf.new with
  | (.error error, leaves) => some (.error error, plan, { m with heap, leaves })
  | (.ok right, leaves) =>
  let plan := { plan with rightLeaf := some right }
  let (run, grow) ← fullRun F m.internals path
  match ← planInternals m.internals [] run with
  | (.error error, planned, internals) =>
    some (.error error, { plan with internals := planned }, { m with heap, leaves, internals })
  | (.ok _, planned, internals) =>
  let plan := { plan with internals := planned }
  if grow then
    match ← internals.alloc Internal.new with
    | (.error error, internals) => some (.error error, plan, { m with heap, leaves, internals })
    | (.ok root, internals) =>
      some (.ok (), { plan with newRoot := some root, entryMetaPlanned := none, entryMeta := some side },
        { m with heap, leaves, internals })
  else
    some (.ok (), { plan with entryMetaPlanned := none, entryMeta := some side },
      { m with heap, leaves, internals })

def rollbackPlan (m : OrderedMap S F) (plan : InsertPlan S) : Option (OrderedMap S F) := do
  let heap ← match plan.entryMetaPlanned with
    | some side => freeMeta m.heap side
    | none => some m.heap
  let heap ← match plan.sep with
    | some sep => freeMeta heap sep.side
    | none => some heap
  let leaves := match plan.rightLeaf with
    | some right => m.leaves.release right
    | none => m.leaves
  let internals := plan.internals.foldl Pool.release m.internals
  let internals := match plan.newRoot with
    | some root => internals.release root
    | none => internals
  some { m with heap, leaves, internals }

/-- Move entries `at..` into the right sibling and stitch the chain. -/
def splitLeafInto (leaves : Pool (Leaf S)) (leafId rightId idx : Nat) : Option (Pool (Leaf S)) := do
  if leafId = rightId then none
  else
    let left ← leaves.get leafId
    let _ ← leaves.get rightId
    if idx ≤ left.count then
      let leaves ← leaves.set rightId ⟨left.next, left.slots.drop idx⟩
      leaves.set leafId ⟨some rightId, left.slots.take idx⟩
    else none

/-- Split a full internal into the pre-allocated right node; the middle separator is evicted. -/
def splitInternalInto (F : Nat) (internals : Pool (Internal S)) (nodeId rightId : Nat) :
    Option (Slot S × Pool (Internal S)) := do
  if nodeId = rightId then none
  else
    let left ← internals.get nodeId
    let _ ← internals.get rightId
    let mid := sepMax F / 2
    let evicted ← left.seps[mid]?
    let internals ← internals.set rightId ⟨left.seps.drop (mid+1), left.children.drop (mid+1)⟩
    let internals ← internals.set nodeId ⟨left.seps.take mid, left.children.take (mid+1)⟩
    some (evicted, internals)

/-- Thread the separator upward through the pre-allocated nodes. What is left over when every
level split is the new root's separator and right child. -/
def sepCascade (F : Nat) (internals : Pool (Internal S)) (planned : List Nat) (sep : Slot S)
    (right : Nat) : Path → Option (Pool (Internal S) × Option (Slot S × Nat))
  | [] => some (internals, some (sep, right))
  | (nodeId, childIdx) :: path => do
    let node ← internals.get nodeId
    if node.count < sepMax F then
      let node ← node.place F childIdx sep right
      let internals ← internals.set nodeId node
      some (internals, none)
    else
      match planned with
      | [] => none
      | newRight :: planned =>
        let (evicted, internals) ← splitInternalInto F internals nodeId newRight
        let mid := sepMax F / 2
        let (target, targetIdx) :=
          if childIdx ≤ mid then (nodeId, childIdx) else (newRight, childIdx - (mid + 1))
        let node ← internals.get target
        let node ← node.place F targetIdx sep right
        let internals ← internals.set target node
        sepCascade F internals planned evicted newRight path

/-- `commit_sep_cascade`: when every level split, grow the pre-allocated root. -/
def commitSepCascade (m : OrderedMap S F) (plan : InsertPlan S) (path : Path) :
    Option (OrderedMap S F) := do
  let sep ← plan.sep
  let right ← plan.rightLeaf
  match ← sepCascade F m.internals plan.internals sep right path with
  | (internals, none) => some { m with internals }
  | (internals, some (sep, right)) =>
    let root ← m.root
    let newRoot ← plan.newRoot
    let internals ← internals.set newRoot ⟨[sep], [root, right]⟩
    some { m with internals, root := some newRoot, height := m.height + 1 }

/-- Full-leaf insert: plan every allocation, then commit with infallible moves. -/
def insertSplit (m : OrderedMap S F) (leafId idx : Nat) (probe : Probe) (entryRef : UInt64)
    (path : Path) : Option (Except OrderedMapError Unit × OrderedMap S F) := do
  let leaf ← m.leaves.get leafId
  let cut := if leaf.next = none ∧ idx = F then F else F / 2
  match ← m.planSplit leafId cut probe entryRef path with
  | (.error error, plan, m) =>
    let m ← m.rollbackPlan plan
    some (.error error, m)
  | (.ok _, plan, m) =>
    let right ← plan.rightLeaf
    let side ← plan.entryMeta
    let leaves ← splitLeafInto m.leaves leafId right cut
    let (target, targetIdx) := if cut = F ∨ cut < idx then (right, idx - cut) else (leafId, idx)
    let leaf ← leaves.get target
    let leaf ← leaf.place F targetIdx ⟨probe.pre, side, entryRef⟩
    let leaves ← leaves.set target leaf
    let m ← commitSepCascade { m with leaves } plan path
    some (.ok (), m)

/-- Write the entry into a leaf with room, or split the full leaf. -/
def insertAt (m : OrderedMap S F) (leafId idx : Nat) (probe : Probe) (entryRef : UInt64)
    (path : Path) : Option (Except OrderedMapError Unit × OrderedMap S F) := do
  let leaf ← m.leaves.get leafId
  if leaf.count < F then
    match ← storeMeta S m.heap probe with
    | (.error error, heap) => some (.error error, { m with heap })
    | (.ok side, heap) =>
      let leaf ← leaf.place F idx ⟨probe.pre, side, entryRef⟩
      let leaves ← m.leaves.set leafId leaf
      some (.ok (), { m with heap, leaves, len := m.len + 1, epoch := m.epoch + 1 })
  else
    match ← m.insertSplit leafId idx probe entryRef path with
    | (.error error, m) => some (.error error, m)
    | (.ok _, m) => some (.ok (), { m with len := m.len + 1, epoch := m.epoch + 1 })

/-- Insert the pair; `false` when it is already present. -/
def insert (m : OrderedMap S F) (key : Bytes) (entryRef : UInt64) :
    Option (Except OrderedMapError Bool × OrderedMap S F) := do
  let probe ← makeProbe S key
  if m.root = none then m.insertFirst probe entryRef
  else
    let (leafId, path) ← m.descend probe entryRef
    let leaf ← m.leaves.get leafId
    let idx ← leafLowerBound m.heap leaf probe entryRef true
    let exact ← isExact m.heap leaf idx probe entryRef
    if exact then some (.ok false, m)
    else
      match ← m.insertAt leafId idx probe entryRef path with
      | (.error error, m) => some (.error error, m)
      | (.ok _, m) => some (.ok true, m)

/-- Append a pair known to exceed every present pair: the rightmost spine, one order check. -/
def append (m : OrderedMap S F) (key : Bytes) (entryRef : UInt64) :
    Option (Except AppendError Unit × OrderedMap S F) := do
  let probe ← makeProbe S key
  if m.root = none then
    match ← m.insertFirst probe entryRef with
    | (.error error, m) => some (.error (.map error), m)
    | (.ok _, m) => some (.ok (), m)
  else if m.height < maxHeight then
    let (leafId, path) ← m.descendFrom (fun node => some node.count) m.height
    let leaf ← m.leaves.get leafId
    let last ← leaf.slots[leaf.count - 1]?
    let order ← cmpPair m.heap last probe entryRef
    if order ≠ .lt then some (.error .outOfOrder, m)
    else
      match ← m.insertAt leafId leaf.count probe entryRef path with
      | (.error error, m) => some (.error (.map error), m)
      | (.ok _, m) => some (.ok (), m)
  else none

def contains (m : OrderedMap S F) (key : Bytes) (entryRef : UInt64) : Option Bool := do
  if m.root = none then some false
  else
    let probe ← makeProbe S key
    let (leafId, _) ← m.descend probe entryRef
    let leaf ← m.leaves.get leafId
    let idx ← leafLowerBound m.heap leaf probe entryRef true
    isExact m.heap leaf idx probe entryRef

/-- Swap a parent fence for a pre-copied one, freeing the old copy. -/
def replaceSep (m : OrderedMap S F) (parentId sepIdx : Nat) (sep : Slot S) :
    Option (OrderedMap S F) := do
  let node ← m.internals.get parentId
  let old ← node.seps[sepIdx]?
  let node ← node.writeSep sepIdx sep
  let internals ← m.internals.set parentId node
  let heap ← freeMeta m.heap old.side
  some { m with heap, internals }

/-- Borrow the left sibling's last entry; `false` when the sibling has none to spare or the
fence copy is refused. -/
def borrowLeft (m : OrderedMap S F) (parentId childIdx leafId : Nat) :
    Option (Bool × OrderedMap S F) := do
  let parent ← m.internals.get parentId
  if childIdx = 0 then some (false, m)
  else
    let leftId ← parent.children[childIdx - 1]?
    let left ← m.leaves.get leftId
    if left.count ≤ leafMin F then some (false, m)
    else
      match ← copyEntryAsSep m.leaves m.heap leftId (left.count - 1) with
      | (.error _, heap) => some (false, { m with heap })
      | (.ok sep, heap) =>
        if leftId = leafId then none
        else
          let last ← left.slots[left.count - 1]?
          let cur ← m.leaves.get leafId
          let cur ← cur.place F 0 last
          let left ← left.erase (left.count - 1)
          let leaves ← m.leaves.set leafId cur
          let leaves ← leaves.set leftId left
          let m ← replaceSep { m with heap, leaves } parentId (childIdx - 1) sep
          some (true, m)

/-- Borrow the right sibling's first entry; its second becomes the fence. -/
def borrowRight (m : OrderedMap S F) (parentId childIdx leafId : Nat) :
    Option (Bool × OrderedMap S F) := do
  let parent ← m.internals.get parentId
  if parent.count ≤ childIdx then some (false, m)
  else
    let rightId ← parent.children[childIdx + 1]?
    let right ← m.leaves.get rightId
    if right.count ≤ leafMin F then some (false, m)
    else
      match ← copyEntryAsSep m.leaves m.heap rightId 1 with
      | (.error _, heap) => some (false, { m with heap })
      | (.ok sep, heap) =>
        if rightId = leafId then none
        else
          let first ← right.slots[0]?
          let cur ← m.leaves.get leafId
          let cur ← cur.place F cur.count first
          let right ← right.erase 0
          let leaves ← m.leaves.set leafId cur
          let leaves ← leaves.set rightId right
          let m ← replaceSep { m with heap, leaves } parentId childIdx sep
          some (true, m)

/-- Try to borrow one entry from a leaf sibling, the left one first. -/
def leafBorrow (m : OrderedMap S F) (parentId childIdx leafId : Nat) :
    Option (Bool × OrderedMap S F) := do
  let (borrowed, m) ← m.borrowLeft parentId childIdx leafId
  if borrowed then some (true, m) else m.borrowRight parentId childIdx leafId

/-- Merging into the left sibling: left id, right id, separator index. -/
def leftCandidate (parent : Internal S) (childIdx leafId : Nat) : List (Nat × Nat × Nat) :=
  if 0 < childIdx then
    (parent.children[childIdx - 1]?).toList.map fun left => (left, leafId, childIdx - 1)
  else []

def rightCandidate (parent : Internal S) (childIdx leafId : Nat) : List (Nat × Nat × Nat) :=
  if childIdx < parent.count then
    (parent.children[childIdx + 1]?).toList.map fun right => (leafId, right, childIdx)
  else []

/-- The first candidate whose two leaves fit one node. -/
def fittingCandidate (F : Nat) (leaves : Pool (Leaf S)) (count leafId : Nat) :
    List (Nat × Nat × Nat) → Option (Option (Nat × Nat × Nat))
  | [] => some none
  | (leftId, rightId, sepIdx) :: rest => do
    let sibling ← leaves.get (if leftId = leafId then rightId else leftId)
    if count + sibling.count ≤ F then some (some (leftId, rightId, sepIdx))
    else fittingCandidate F leaves count leafId rest

/-- Merge the underflowing leaf with a sibling it fits beside and drop the fence; `false` when
neither sibling fits. The right node goes into the left one. -/
def leafMerge (m : OrderedMap S F) (parentId childIdx leafId : Nat) :
    Option (Bool × OrderedMap S F) := do
  let parent ← m.internals.get parentId
  let leaf ← m.leaves.get leafId
  match ← fittingCandidate F m.leaves leaf.count leafId
      (leftCandidate parent childIdx leafId ++ rightCandidate parent childIdx leafId) with
  | none => some (false, m)
  | some (leftId, rightId, sepIdx) =>
    if leftId = rightId then none
    else
      let left ← m.leaves.get leftId
      let right ← m.leaves.get rightId
      if left.count + right.count ≤ F then
        let leaves ← m.leaves.set leftId ⟨right.next, left.slots ++ right.slots⟩
        let leaves := leaves.release rightId
        let dropped ← parent.seps[sepIdx]?
        let parent ← parent.dropSep sepIdx
        let internals ← m.internals.set parentId parent
        let heap ← freeMeta m.heap dropped.side
        some (true, { m with heap, leaves, internals })
      else none

/-- Rotate one separator through the parent from the left sibling. -/
def internalBorrowLeft (m : OrderedMap S F) (parentId childIdx nodeId : Nat) :
    Option (Bool × OrderedMap S F) := do
  let parent ← m.internals.get parentId
  if childIdx = 0 then some (false, m)
  else
    let leftId ← parent.children[childIdx - 1]?
    let left ← m.internals.get leftId
    if left.count ≤ sepMin F then some (false, m)
    else if leftId = nodeId then none
    else
      let down ← parent.seps[childIdx - 1]?
      let cur ← m.internals.get nodeId
      let up ← left.seps[left.count - 1]?
      let movedChild ← left.children[left.count]?
      let internals ← m.internals.set leftId
        ⟨left.seps.take (left.count - 1), left.children.take left.count⟩
      if cur.count < F - 1 then
        let internals ← internals.set nodeId ⟨down :: cur.seps, movedChild :: cur.children⟩
        let parent ← internals.get parentId
        let parent ← parent.writeSep (childIdx - 1) up
        let internals ← internals.set parentId parent
        some (true, { m with internals })
      else none

/-- Rotate one separator through the parent from the right sibling. -/
def internalBorrowRight (m : OrderedMap S F) (parentId childIdx nodeId : Nat) :
    Option (Bool × OrderedMap S F) := do
  let parent ← m.internals.get parentId
  if parent.count ≤ childIdx then some (false, m)
  else
    let rightId ← parent.children[childIdx + 1]?
    let right ← m.internals.get rightId
    if right.count ≤ sepMin F then some (false, m)
    else if rightId = nodeId then none
    else
      let down ← parent.seps[childIdx]?
      let cur ← m.internals.get nodeId
      let up ← right.seps[0]?
      let movedChild ← right.children[0]?
      if cur.count < F - 1 then
        let internals ← m.internals.set nodeId ⟨cur.seps ++ [down], cur.children ++ [movedChild]⟩
        let internals ← internals.set rightId ⟨right.seps.drop 1, right.children.drop 1⟩
        let parent ← internals.get parentId
        let parent ← parent.writeSep childIdx up
        let internals ← internals.set parentId parent
        some (true, { m with internals })
      else none

/-- Rotate one separator from a richer sibling, the left one first. -/
def internalBorrow (m : OrderedMap S F) (parentId childIdx nodeId : Nat) :
    Option (Bool × OrderedMap S F) := do
  let (borrowed, m) ← m.internalBorrowLeft parentId childIdx nodeId
  if borrowed then some (true, m) else m.internalBorrowRight parentId childIdx nodeId

/-- The two nodes an internal merge joins and their separator; the left sibling is preferred. -/
def mergePair (parent : Internal S) (childIdx nodeId : Nat) : Option (Nat × Nat × Nat) :=
  if 0 < childIdx then (parent.children[childIdx - 1]?).map fun leftId => (leftId, nodeId, childIdx - 1)
  else (parent.children[childIdx + 1]?).map fun rightId => (nodeId, rightId, childIdx)

/-- Merge an underflowing internal with a sibling: the parent fence comes down between them. -/
def internalMerge (m : OrderedMap S F) (parentId childIdx nodeId : Nat) :
    Option (OrderedMap S F) := do
  let parent ← m.internals.get parentId
  let (leftId, rightId, sepIdx) ← mergePair parent childIdx nodeId
  let down ← parent.seps[sepIdx]?
  if leftId = rightId then none
  else
    let left ← m.internals.get leftId
    let right ← m.internals.get rightId
    if left.count + 1 + right.count < F then
      let internals ← m.internals.set leftId
        ⟨left.seps ++ down :: right.seps, left.children ++ right.children⟩
      let internals := internals.release rightId
      let parent ← internals.get parentId
      let parent ← parent.dropSep sepIdx
      let internals ← internals.set parentId parent
      some { m with internals }
    else none

/-- Fix internal underflow along the path after a child merge. -/
def rebalanceInternals (m : OrderedMap S F) : Path → Option (OrderedMap S F)
  | [] => none
  | (nodeId, _) :: path => do
    let node ← m.internals.get nodeId
    if some nodeId = m.root then
      if node.count = 0 then
        -- a fence-less root has exactly one child: collapse
        let child ← node.children[0]?
        some { m with root := some child, internals := m.internals.release nodeId, height := m.height - 1 }
      else some m
    else if sepMin F ≤ node.count then some m
    else
      match path with
      | [] => none
      | (parentId, childIdx) :: _ =>
        let (borrowed, m) ← m.internalBorrow parentId childIdx nodeId
        if borrowed then some m
        else
          let m ← m.internalMerge parentId childIdx nodeId
          rebalanceInternals m path

/-- Borrow until the leaf is back at the minimum or no sibling yields. Every borrow adds an
entry, so `LEAF_MIN` of them suffice; running out of fuel is a failure of the model. -/
def borrowUntil (parentId childIdx leafId : Nat) : Nat → OrderedMap S F → Option (OrderedMap S F)
  | 0, _ => none
  | fuel + 1, m => do
    let leaf ← m.leaves.get leafId
    if leaf.count < leafMin F then
      let (borrowed, m) ← m.leafBorrow parentId childIdx leafId
      if borrowed then borrowUntil parentId childIdx leafId fuel m else some m
    else some m

/-- Restore the leaf minimum after a removal, then walk the path upward. -/
def rebalanceLeaf (m : OrderedMap S F) (leafId : Nat) (path : Path) : Option (OrderedMap S F) := do
  let leaf ← m.leaves.get leafId
  match path with
  | [] =>
    if leaf.count = 0 then some { m with leaves := m.leaves.release leafId, root := none }
    else some m
  | (parentId, childIdx) :: _ =>
    if leafMin F ≤ leaf.count then some m
    else
      let m ← borrowUntil parentId childIdx leafId (leafMin F + 1) m
      let leaf ← m.leaves.get leafId
      if leafMin F ≤ leaf.count then some m
      else
        let (merged, m) ← m.leafMerge parentId childIdx leafId
        if merged then m.rebalanceInternals path
        else some { m with rebalanceDeferred := m.rebalanceDeferred + 1 }

def remove (m : OrderedMap S F) (key : Bytes) (entryRef : UInt64) :
    Option (Bool × OrderedMap S F) := do
  if m.root = none then some (false, m)
  else
    let probe ← makeProbe S key
    let (leafId, path) ← m.descend probe entryRef
    let leaf ← m.leaves.get leafId
    let idx ← leafLowerBound m.heap leaf probe entryRef true
    let exact ← isExact m.heap leaf idx probe entryRef
    if exact then
      let slot ← leaf.slots[idx]?
      let leaf ← leaf.erase idx
      let leaves ← m.leaves.set leafId leaf
      let heap ← freeMeta m.heap slot.side
      let m ← rebalanceLeaf { m with leaves, heap, len := m.len - 1, epoch := m.epoch + 1 } leafId path
      some (true, m)
    else some (false, m)

/-- Leftmost leaf id (`none` when empty). -/
def leftmostLeaf (m : OrderedMap S F) : Option (Option Nat) :=
  if m.root = none then some none
  else do
    let (leaf, _) ← m.descendFrom (fun _ => some 0) m.height
    some (some leaf)

/-- Position of the first pair `>=` (`>` unless `allowEqual`) the probe pair, hopping to the next
leaf when the owning leaf ends below it. -/
def seek (m : OrderedMap S F) (probe : Probe) (probeRef : UInt64) (allowEqual : Bool) :
    Option (Option (Nat × Nat)) := do
  if m.root = none then some none
  else
    let (leafId, _) ← m.descend probe probeRef
    let leaf ← m.leaves.get leafId
    let idx ← leafLowerBound m.heap leaf probe probeRef allowEqual
    if idx < leaf.count then some (some (leafId, idx))
    else some (leaf.next.map fun next => (next, 0))

/-- The key bytes of a slot, as `emit_key` writes them out. -/
def slotKey (heap : KeyHeap) (slot : Slot S) : Option Bytes :=
  if S.fixed then some (beBytes 8 slot.pre)
  else
    let len := S.metaLen slot.side
    let head := (beBytes 8 slot.pre).take (min len 8)
    if 8 < len then do
      let suffix ← heap.get (S.metaAddr slot.side) (len - 8)
      some (head ++ suffix)
    else some head

/-- Key and reference at a leaf position. -/
def emitKey (m : OrderedMap S F) (leafId slot : Nat) : Option Pair := do
  let leaf ← m.leaves.get leafId
  let slot ← leaf.slots[slot]?
  let key ← slotKey m.heap slot
  some ⟨key, slot.entryRef⟩

end OrderedMap

end InfinityDB
