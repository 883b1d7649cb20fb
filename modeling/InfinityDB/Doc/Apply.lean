import InfinityDB.Doc.Path

/-!
# Path mutations

`apply` plans one edit for every location a program matches, against the document as it stands,
and then rebuilds the document around all of them at once. An edit inside an edited ancestor has
no effect. Tape offsets are locations here and operand fragments are trees.
-/

namespace InfinityDB

open Lib

inductive Number where
  | i64 (value : Int64)
  | f64 (bits : UInt64)
deriving DecidableEq

inductive ApplyOp where
  | setReplace (fragment : Doc)
  | setMember (key : Bytes) (fragment : Doc)
  | del
  | numIncrBy (operand : Number)
  | numMultBy (operand : Number)
  | strAppend (payload : Bytes)
  | toggle
  | clear
  | arrAppend (elements : List Doc)
  | arrInsert (index : Int) (elements : List Doc)
  | arrPop (index : Int)
  | arrTrim (start stop : Int)
  | merge (patch : Doc)

inductive ApplyError where
  | overflow
  | notANumber
  | tooLarge
  | depthExceeded
  | outOfBounds
  | rootDelete
  | tooManyMatches
deriving DecidableEq

/-- Per-match outcome. A popped element is named by its location in the old document. -/
inductive MatchResult where
  | skipped
  | num (value : Number)
  | len (value : Nat)
  | toggled (value : Bool)
  | cleared
  | removed
  | set
  | popped (loc : Loc)
  | poppedEmpty
deriving DecidableEq

inductive Change where
  | replace (value : Doc)
  | remove
  | insertMember (key : Bytes) (value : Doc)
  | splice (position : Nat) (elements : List Doc)

/-- One planned edit: what changes at which location. Inserts are at their container. -/
structure Edit where
  loc : Loc
  change : Change

inductive Verdict where
  | skip
  | apply (result : MatchResult) (edit : Option Edit)

/-- Integers stay exact; anything else is computed in `f64`. -/
def numberOp (current operand : Number) (mul : Bool) : Except ApplyError Number :=
  let float : Number → Float
    | .i64 value => value.toFloat
    | .f64 bits => Float.ofBits bits
  match current, operand with
  | .i64 a, .i64 b =>
    let exact := if mul then a.toInt * b.toInt else a.toInt + b.toInt
    if -2 ^ 63 ≤ exact ∧ exact < 2 ^ 63 then .ok (.i64 (Int64.ofInt exact)) else .error .overflow
  | _, _ =>
    let result := if mul then float current * float operand else float current + float operand
    if result.isFinite then .ok (.f64 result.toBits) else .error .notANumber

def Number.doc : Number → Doc
  | .i64 value => .scalar (.i64 value)
  | .f64 bits => .scalar (.f64 bits)

def findMember (members : List (Bytes × Doc)) (key : Bytes) : Option Doc :=
  (members.find? fun x => x.1 == key).map Prod.snd

mutual

/-- `Strip`: an object patch on an absent target. Null members drop, through object chains only. -/
def stripDoc : Doc → Doc
  | .obj members => .obj (stripMembers members)
  | .arr items => .arr items
  | .scalar value => .scalar value

def stripMembers : List (Bytes × Doc) → List (Bytes × Doc)
  | [] => []
  | (_, .scalar .null) :: members => stripMembers members
  | (key, value) :: members => (key, stripDoc value) :: stripMembers members

end

mutual

/-- `merge_value`: RFC 7386 at one value. -/
def mergeValue (patch : Doc) : Doc → Doc
  | .obj members =>
    match patch with
    | .obj patchMembers =>
      .obj (mergeMembers patchMembers members ++
        stripMembers (patchMembers.filter fun x => !(members.any fun y => y.1 == x.1)))
    | _ => patch
  | _ => stripDoc patch

def mergeMembers (patchMembers : List (Bytes × Doc)) : List (Bytes × Doc) → List (Bytes × Doc)
  | [] => []
  | (key, value) :: members =>
    match findMember patchMembers key with
    | none => (key, value) :: mergeMembers patchMembers members
    | some (.scalar .null) => mergeMembers patchMembers members
    | some patch => (key, mergeValue patch value) :: mergeMembers patchMembers members

end

/-- `plan_member_set`: replace the first member of that key, or append one. -/
def planMemberSet (loc : Loc) (members : List (Bytes × Doc)) (key : Bytes) (fragment : Doc) : Verdict :=
  match members.findIdx? fun x => x.1 == key with
  | some ord => .apply .set (some ⟨loc ++ [ord], .replace fragment⟩)
  | none => .apply .set (some ⟨loc, .insertMember key fragment⟩)

def planArrSplice (loc : Loc) (items : List Doc) (position : Nat) (elements : List Doc) : Verdict :=
  .apply (.len (items.length + elements.length)) (some ⟨loc, .splice position elements⟩)

/-- Negative array indexes resolve against the length; clamping is the caller's. -/
def applyIndex (index : Int) (len : Nat) : Int := if index < 0 then index + len else index

def planArrTrim (loc : Loc) (items : List Doc) (start stop : Int) : Verdict :=
  let len := items.length
  if len = 0 then .apply (.len 0) none
  else
    let first := max (applyIndex start len) 0
    let last := min (applyIndex stop len) (len - 1)
    if first = 0 ∧ last = len - 1 then .apply (.len len) none
    else if first ≤ last then
      let kept := (items.take (last.toNat + 1)).drop first.toNat
      .apply (.len kept.length) (some ⟨loc, .replace (.arr kept)⟩)
    else .apply (.len 0) (some ⟨loc, .replace (.arr [])⟩)

/-- `f != 0.0` on bit patterns: neither zero. -/
def f64NonZero (bits : UInt64) : Bool := bits != 0 && bits != 0x8000000000000000

mutual

def Doc.same : Doc → Doc → Bool
  | .scalar a, .scalar b => a == b
  | .arr a, .arr b => sameItems a b
  | .obj a, .obj b => sameMembers a b
  | _, _ => false

def sameItems : List Doc → List Doc → Bool
  | [], [] => true
  | a :: as, b :: bs => a.same b && sameItems as bs
  | _, _ => false

def sameMembers : List (Bytes × Doc) → List (Bytes × Doc) → Bool
  | [], [] => true
  | (k, a) :: as, (l, b) :: bs => k == l && a.same b && sameMembers as bs
  | _, _ => false

end

/-- Validate one op against one matched value and compute its edit. -/
def planSite (loc : Loc) (value : Doc) (op : ApplyOp) : Except ApplyError Verdict :=
  let replace (value : Doc) (result : MatchResult) : Verdict := .apply result (some ⟨loc, .replace value⟩)
  match op, value with
  | .setReplace fragment, _ => .ok (replace fragment .set)
  | .setMember key fragment, .obj members => .ok (planMemberSet loc members key fragment)
  | .del, _ => .ok (.apply .removed (some ⟨loc, .remove⟩))
  | .numIncrBy operand, .scalar (.i64 v) => do
    let result ← numberOp (.i64 v) operand false
    .ok (replace result.doc (.num result))
  | .numIncrBy operand, .scalar (.f64 v) => do
    let result ← numberOp (.f64 v) operand false
    .ok (replace result.doc (.num result))
  | .numMultBy operand, .scalar (.i64 v) => do
    let result ← numberOp (.i64 v) operand true
    .ok (replace result.doc (.num result))
  | .numMultBy operand, .scalar (.f64 v) => do
    let result ← numberOp (.f64 v) operand true
    .ok (replace result.doc (.num result))
  | .strAppend payload, .scalar (.str old) =>
    .ok (replace (.scalar (.str (old ++ payload))) (.len (old.length + payload.length)))
  | .toggle, .scalar (.bool b) => .ok (replace (.scalar (.bool !b)) (.toggled !b))
  | .clear, .obj (_ :: _) => .ok (replace (.obj []) .cleared)
  | .clear, .arr (_ :: _) => .ok (replace (.arr []) .cleared)
  | .clear, .scalar (.i64 v) => .ok (if v != 0 then replace (.scalar (.i64 0)) .cleared else .skip)
  | .clear, .scalar (.f64 v) => .ok (if f64NonZero v then replace (.scalar (.i64 0)) .cleared else .skip)
  | .arrAppend elements, .arr items => .ok (planArrSplice loc items items.length elements)
  | .arrInsert index elements, .arr items =>
    let resolved := applyIndex index items.length
    if 0 ≤ resolved ∧ resolved ≤ items.length then .ok (planArrSplice loc items resolved.toNat elements)
    else .error .outOfBounds
  | .arrPop index, .arr items =>
    if items.length = 0 then .ok (.apply .poppedEmpty none)
    else
      let resolved := (clamp (applyIndex index items.length) 0 (items.length - 1)).toNat
      .ok (.apply (.popped (loc ++ [resolved])) (some ⟨loc ++ [resolved], .remove⟩))
  | .arrTrim start stop, .arr items => .ok (planArrTrim loc items start stop)
  | .merge patch, value =>
    let merged := mergeValue patch value
    .ok (if merged.same value then .skip else replace merged .set)
  | _, _ => .ok .skip

/-- The edits below one entry, seen from it. -/
def under (ord : Nat) (edits : List Edit) : List Edit :=
  edits.filterMap fun e =>
    match e.loc with
    | [] => none
    | head :: loc => if head = ord then some ⟨loc, e.change⟩ else none

def removes (ord : Nat) (edits : List Edit) : Bool :=
  edits.any fun e =>
    match e.change with
    | .remove => e.loc == [ord]
    | _ => false

def replacement? (edits : List Edit) : Option Doc :=
  edits.findSome? fun e =>
    match e.loc, e.change with
    | [], .replace value => some value
    | _, _ => none

/-- What is spliced in before one position of this array. -/
def splices (position : Nat) (edits : List Edit) : List Doc :=
  edits.flatMap fun e =>
    match e.loc, e.change with
    | [], .splice p elements => if p = position then elements else []
    | _, _ => []

/-- What is appended to this object. -/
def inserted (edits : List Edit) : List (Bytes × Doc) :=
  edits.filterMap fun e =>
    match e.loc, e.change with
    | [], .insertMember key value => some (key, value)
    | _, _ => none

mutual

def Doc.rebuild (edits : List Edit) : Doc → Doc
  | .scalar value => (replacement? edits).getD (.scalar value)
  | .arr items => (replacement? edits).getD (.arr (rebuildItems edits 0 items))
  | .obj members => (replacement? edits).getD (.obj (rebuildMembers edits 0 members ++ inserted edits))

def rebuildItems (edits : List Edit) : Nat → List Doc → List Doc
  | ord, [] => splices ord edits
  | ord, item :: items =>
    splices ord edits ++ (if removes ord edits then [] else [item.rebuild (under ord edits)]) ++
      rebuildItems edits (ord + 1) items

def rebuildMembers (edits : List Edit) : Nat → List (Bytes × Doc) → List (Bytes × Doc)
  | _, [] => []
  | ord, (key, value) :: members =>
    (if removes ord edits then [] else [(key, value.rebuild (under ord edits))]) ++
      rebuildMembers edits (ord + 1) members

end

/-- Location order, each location once (`Matches::canonical`). -/
def canonical (locs : List Loc) : List Loc := (locs.insertionSort (· ≤ ·)).dedup

/-- Whether a kept range covers an edit (`inside`). -/
def Edit.covers (e other : Edit) : Bool :=
  match e.change with
  | .replace _ | .remove =>
    match other.change with
    | .replace _ | .remove => e.loc.isPrefixOf other.loc && e.loc.length < other.loc.length
    | _ => e.loc.isPrefixOf other.loc
  | _ => false

/-- `drop_superseded`. -/
def keptEdits (edits : List Edit) : List Edit := edits.filter fun e => !(edits.any fun other => other.covers e)

/-- Containers that enclose what an edit writes. -/
def Edit.enclosing (e : Edit) : Nat :=
  match e.change with
  | .replace _ | .remove => e.loc.length
  | _ => e.loc.length + 1

mutual

def Doc.nestingDepth : Doc → Nat
  | .scalar _ => 0
  | .arr items => nestingItems items + 1
  | .obj members => nestingMembers members + 1

def nestingItems : List Doc → Nat
  | [] => 0
  | item :: items => max item.nestingDepth (nestingItems items)

def nestingMembers : List (Bytes × Doc) → Nat
  | [] => 0
  | (_, value) :: members => max value.nestingDepth (nestingMembers members)

end

/-- The nesting an op writes; `none` when it writes nothing deeper than the input. -/
def ApplyOp.written : ApplyOp → Option Nat
  | .setReplace fragment | .setMember _ fragment => some fragment.nestingDepth
  | .merge patch => some patch.nestingDepth
  | .arrAppend elements | .arrInsert _ elements => some (nestingItems elements)
  | _ => none

def zigzagNat (v : Int) : Nat := if v < 0 then 2 * v.natAbs - 1 else 2 * v.natAbs

def strLen (len : Nat) : Nat := len + if len ≤ 31 then 1 else if len < 256 then 2 else 4

def Scalar.encodedLen : Scalar → Nat
  | .null | .bool _ => 1
  | .i64 v => if -32 ≤ v.toInt ∧ v.toInt ≤ 127 then 1 else 1 + (max (Nat.size (zigzagNat v.toInt)) 1 + 6) / 7
  | .f64 _ => 9
  | .str bytes => strLen bytes.length

mutual

def Doc.encodedLen : Doc → Nat
  | .scalar value => value.encodedLen
  | .arr items => 4 + encodedItems items
  | .obj members => 4 + encodedMembers members

def encodedItems : List Doc → Nat
  | [] => 0
  | item :: items => item.encodedLen + encodedItems items

def encodedMembers : List (Bytes × Doc) → Nat
  | [] => 0
  | (key, value) :: members => strLen key.length + value.encodedLen + encodedMembers members

end

/-- `EvalLimits` and `DocLimits`. The ceilings of the format are not part of the model: limits
and documents range over all sizes. -/
structure Limits where
  maxMatches : Nat
  depthMax : Nat
  bodyBytesMax : Nat

structure ApplyOutcome where
  document : Option Doc
  results : List MatchResult
  applied : Nat

def Verdict.result : Verdict → MatchResult
  | .skip => .skipped
  | .apply result _ => result

def Verdict.edit : Verdict → Option Edit
  | .skip => none
  | .apply _ edit => edit

def planAll (d : Doc) (op : ApplyOp) (locs : List Loc) : Except ApplyError (List (Loc × Verdict)) :=
  locs.mapM fun loc =>
    match d.resolve loc with
    | some value => do
      let verdict ← planSite loc value op
      .ok (loc, verdict)
    | none => .ok (loc, .skip)

/-- `check_depth`. -/
def depthOk (edits : List Edit) (op : ApplyOp) (depthMax : Nat) : Bool :=
  match op.written with
  | none => true
  | some below => (keptEdits edits).all fun e => e.enclosing + below ≤ depthMax

/-- Apply an op at every location a program matches. The document of the outcome is absent when
nothing changed. -/
def apply (d : Doc) (program : PathProgram) (op : ApplyOp) (limits : Limits) : Except ApplyError ApplyOutcome :=
  match program, op with
  | [], .del => .error .rootDelete
  | _, _ => do
    let found := eval program d
    if limits.maxMatches < found.length then .error .tooManyMatches
    else
      let plan ← planAll d op (canonical found)
      -- duplicate raw matches share their canonical twin's result
      let results := found.map fun loc => ((plan.lookup loc).map Verdict.result).getD .skipped
      let applied := results.countP (· ≠ .skipped)
      let edits := plan.filterMap fun x => x.2.edit
      if (keptEdits edits).isEmpty then .ok ⟨none, results, applied⟩
      else if depthOk edits op limits.depthMax then
        let out := d.rebuild edits
        if out.encodedLen ≤ limits.bodyBytesMax then .ok ⟨some out, results, applied⟩ else .error .tooLarge
      else .error .depthExceeded

end InfinityDB
