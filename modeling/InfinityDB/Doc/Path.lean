import InfinityDB.Ordered.Key

/-!
# Documents and path programs

A document is the tree its tape encodes; a location is the list of entry ordinals from the root.
A path program is its list of selectors. Evaluation lists the locations a program matches, in
program order: document order within a selector, member order across a union, the node before its
descendants under a recursive descent.
-/

namespace InfinityDB

open Lib

/-- `f64` values are their bit patterns. -/
inductive Scalar where
  | null
  | bool (value : Bool)
  | i64 (value : Int64)
  | f64 (bits : UInt64)
  | str (bytes : Bytes)
deriving DecidableEq

inductive Doc where
  | scalar (value : Scalar)
  | arr (items : List Doc)
  | obj (members : List (Bytes × Doc))

abbrev Loc := List Nat

namespace Doc

def children : Doc → List Doc
  | scalar _ => []
  | arr items => items
  | obj members => members.map Prod.snd

/-- `resolve`: follow a location from the root. -/
def resolve : Loc → Doc → Option Doc
  | [], d => some d
  | ord :: loc, d => do
    let child ← d.children[ord]?
    resolve loc child

def scalarOf : Doc → Option Scalar
  | scalar value => some value
  | _ => none

/-- What the encoders produce: the keys of an object are distinct. -/
inductive Canonical : Doc → Prop where
  | scalar (value : Scalar) : Canonical (.scalar value)
  | arr (items : List Doc) : (∀ d ∈ items, Canonical d) → Canonical (.arr items)
  | obj (members : List (Bytes × Doc)) : (members.map Prod.fst).Nodup → (∀ x ∈ members, Canonical x.2) →
      Canonical (.obj members)

end Doc

/-- A slice; an omitted field is `none`, and the validator refuses a zero step. -/
structure SliceSpec where
  start : Option Int
  stop : Option Int
  step : Option Int
  step_ne : step ≠ some 0

inductive Member where
  | name (key : Bytes)
  | index (i : Int)
  | slice (spec : SliceSpec)

inductive Selector where
  | child (key : Bytes)
  | childAny
  | index (i : Int)
  | slice (spec : SliceSpec)
  | union (members : List Member)

/-- One segment of a program. A descend binds exactly one selector. -/
inductive Segment where
  | one (s : Selector)
  | descend (s : Selector)

abbrev PathProgram := List Segment

/-- Negative indexes count from the end. The narrowing of the result to a `u32` is left out: the
u24 body length keeps every array far below that. -/
def resolveIndex (i : Int) (len : Nat) : Option Nat :=
  let resolved := if i < 0 then i + len else i
  if 0 ≤ resolved ∧ resolved < len then some resolved.toNat else none

theorem resolveIndex_eq_some {i : Int} {len q : Nat} :
    resolveIndex i len = some q ↔ q < len ∧ (i = q ∨ i < 0 ∧ i + len = q) := by
  rw [resolveIndex]
  split <;> split <;> simp only [Option.some.injEq, reduceCtorEq, false_iff] <;> omega

theorem resolveIndex_eq_none {i : Int} {len : Nat} : resolveIndex i len = none ↔ len ≤ i ∨ i + len < 0 := by
  rw [resolveIndex]
  split <;> split <;> simp only [reduceCtorEq, true_iff, false_iff] <;> omega

/-- `i.clamp(lo, hi)`. -/
def clamp (i lo hi : Int) : Int := max lo (min i hi)

/-- First ordinal, bound and step of a slice. -/
def resolveSlice (spec : SliceSpec) (len : Nat) : Int × Int × Int :=
  let step := spec.step.getD 1
  let resolve (v : Int) : Int := if v < 0 then v + len else v
  if 0 < step then
    (clamp ((spec.start.map resolve).getD 0) 0 len, clamp ((spec.stop.map resolve).getD len) 0 len, step)
  else
    (clamp ((spec.start.map resolve).getD (len - 1)) (-1) (len - 1),
      clamp ((spec.stop.map resolve).getD (-1)) (-1) (len - 1), step)

/-- The ordinals a slice visits. They are distinct and below the length, which bounds the walk. -/
def sliceWalk : Nat → Int → Int → Int → List Nat
  | 0, _, _, _ => []
  | fuel + 1, next, stop, step =>
    if (0 < step ∧ stop ≤ next) ∨ (step < 0 ∧ next ≤ stop) then []
    else next.toNat :: sliceWalk fuel (next + step) stop step

def sliceOrds (spec : SliceSpec) (len : Nat) : List Nat :=
  let (next, stop, step) := resolveSlice spec len
  sliceWalk len next stop step

def Member.select : Member → Doc → List Nat
  | .name key, .obj members => (members.findIdx? fun x => x.1 == key).toList
  | .index i, .arr items => (resolveIndex i items.length).toList
  | .slice spec, .arr items => sliceOrds spec items.length
  | _, _ => []

/-- The ordinals a selector selects of a value, in program order. -/
def Selector.select : Selector → Doc → List Nat
  | .child key, d => (Member.name key).select d
  | .childAny, d => List.range d.children.length
  | .index i, d => (Member.index i).select d
  | .slice spec, d => (Member.slice spec).select d
  | .union members, d => members.flatMap fun member => member.select d

/-- Continue below every selected entry. -/
def Selector.each (s : Selector) (rest : Doc → List Loc) (d : Doc) : List Loc :=
  (s.select d).flatMap fun ord =>
    match d.children[ord]? with
    | some value => (rest value).map (ord :: ·)
    | none => []

mutual

/-- Visit the value itself, then every descendant. -/
def Doc.descend (visit : Doc → List Loc) : Doc → List Loc
  | .scalar value => visit (.scalar value)
  | .arr items => visit (.arr items) ++ descendItems visit 0 items
  | .obj members => visit (.obj members) ++ descendMembers visit 0 members

def descendItems (visit : Doc → List Loc) : Nat → List Doc → List Loc
  | _, [] => []
  | ord, item :: items => (item.descend visit).map (ord :: ·) ++ descendItems visit (ord + 1) items

def descendMembers (visit : Doc → List Loc) : Nat → List (Bytes × Doc) → List Loc
  | _, [] => []
  | ord, (_, value) :: members => (value.descend visit).map (ord :: ·) ++ descendMembers visit (ord + 1) members

end

/-- `eval`: the locations a program matches. -/
def eval : PathProgram → Doc → List Loc
  | [], _ => [[]]
  | .one s :: rest, d => s.each (eval rest) d
  | .descend s :: rest, d => d.descend (s.each (eval rest))

def scalars (program : PathProgram) (d : Doc) : List Scalar :=
  (eval program d).filterMap fun loc => (d.resolve loc).bind Doc.scalarOf

end InfinityDB
