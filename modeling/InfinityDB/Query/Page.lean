import InfinityDB.Ordered.Cursor
import InfinityDB.Query.Access

/-!
# Pages of an index range

One pager drives one page: it seeks, checks the upper edge, counts what it scanned against the page's
budget and the matches its caller reports against the statement's limit. A statement is a chain of
pages, each started where the one before it stopped; the tree may change at any moment between two calls.
-/

namespace InfinityDB.Query

open Lib

namespace RangeEdge

def admitsFromBelow (key : Bytes) : RangeEdge → Bool
  | unbounded => true
  | included edge => edge ≤ key
  | excluded edge => edge < key

def admitsFromAbove (key : Bytes) : RangeEdge → Bool
  | unbounded => true
  | included edge => key ≤ edge
  | excluded edge => key < edge

end RangeEdge

inductive PageError where
  | badResumeKey
deriving DecidableEq, Repr

structure PageResume where
  key : Bytes
  entryRef : UInt64
deriving DecidableEq, Repr

def PageResume.pair (resume : PageResume) : Pair := ⟨resume.key, resume.entryRef⟩

structure PageOutcome where
  matched : Nat
  scanned : Nat
  more : Bool
  resume : Option PageResume
deriving DecidableEq, Repr

structure RangePager where
  cursor : OrderedCursor
  hi : RangeEdge
  scanBudget : Nat
  scanned : Nat
  matched : Nat
  limitRemaining : Option Nat
  done : Bool
  lastKey : Bytes
  lastRef : Option UInt64

/-- `IndexTree::new`: the key type decides the key scheme. -/
def keyScheme (keyType : IndexKeyType) : KeyScheme := if keyType.fixed8 then .fixed8 else .varKey

/-- The tree of an index, at the default fanout. -/
abbrev IndexTree (keyType : IndexKeyType) := OrderedMap (keyScheme keyType) 32

def RangeEdge.cursor : RangeEdge → OrderedCursor
  | .unbounded => .fromStart
  | .included key => .fromKey key true
  | .excluded key => .fromKey key false

namespace RangePager

/-- A page from `resume` or from the lower edge, whichever is later. -/
def new (lo hi : RangeEdge) (resume : Option PageResume) (keyType : IndexKeyType) (scanBudget : Nat)
    (limitRemaining : Option Nat) : Option (Except PageError RangePager) :=
  -- debug_assert!(scan_budget >= 1)
  if scanBudget < 1 then none
  else if resume.any fun r => !Access.edgeLenOk r.key.length keyType then some (.error .badResumeKey)
  else
    let cursor := match resume with
      | some r => if lo.admitsFromBelow r.key then .resumeAfter r.key r.entryRef else lo.cursor
      | none => lo.cursor
    some (.ok ⟨cursor, hi, scanBudget, 0, 0, limitRemaining, false, [], none⟩)

variable {S : KeyScheme} {F : Nat}

def next (pager : RangePager) (tree : OrderedMap S F) : Option (Option Pair × RangePager) :=
  if pager.done ∨ pager.scanBudget ≤ pager.scanned ∨ pager.limitRemaining = some 0 then some (none, pager)
  else do
    match ← pager.cursor.next tree with
    | (none, cursor) => some (none, { pager with cursor, done := true })
    | (some pair, cursor) =>
      if pager.hi.admitsFromAbove pair.key then
        some (some pair, { pager with
          cursor, scanned := pager.scanned + 1, lastKey := pair.key, lastRef := some pair.entryRef })
      else some (none, { pager with cursor, done := true })

/-- The last candidate matched. A report that the page cannot owe is dropped. -/
def countMatch (pager : RangePager) : RangePager :=
  if pager.scanned ≤ pager.matched ∨ pager.limitRemaining = some 0 then pager
  else
    match pager.limitRemaining with
    | none => { pager with matched := pager.matched + 1 }
    | some remaining => { pager with
        matched := pager.matched + 1, limitRemaining := some (remaining - 1),
        done := pager.done || remaining - 1 == 0 }

def finish (pager : RangePager) : PageOutcome :=
  ⟨pager.matched, pager.scanned, !pager.done,
    (pager.lastRef.filter fun _ => !pager.done).map fun entryRef => ⟨pager.lastKey, entryRef⟩⟩

end RangePager

inductive PageEvent where
  | next
  | countMatch
  /-- Finish the page and, if there is more, start the next one with this budget. -/
  | turn (scanBudget : Nat)
  | call (call : Call)
deriving DecidableEq

/-- How a chain ended: its last page reported that there is no more, or the next one was refused. -/
inductive ChainEnd where
  | complete
  | refused (error : PageError)
deriving DecidableEq, Repr

/-- A statement over its tree. `resume` and `limit` are what the current page was started with,
`matched` counts the pages before it; `handed`, `history` and `idle` record the candidates, the trees
and the changes since the page's cursor last returned a pair. -/
structure PageChain (S : KeyScheme) (F : Nat) where
  tree : OrderedMap S F
  lo : RangeEdge
  hi : RangeEdge
  keyType : IndexKeyType
  resume : Option PageResume
  limit : Option Nat
  pager : RangePager
  matched : Nat
  ended : Option ChainEnd
  handed : List Pair
  history : List (OrderedMap S F)
  idle : Nat

namespace PageChain

variable {S : KeyScheme} {F : Nat}

def start (tree : OrderedMap S F) (lo hi : RangeEdge) (keyType : IndexKeyType) (resume : Option PageResume)
    (limit : Option Nat) (scanBudget : Nat) : Option (Except PageError (PageChain S F)) :=
  (RangePager.new lo hi resume keyType scanBudget limit).map fun started => started.map fun pager =>
    ⟨tree, lo, hi, keyType, resume, limit, pager, 0, none, [], [tree], 0⟩

/-- Close the page. A page that consumed nothing leaves its own start as the next one's. -/
def turn (s : PageChain S F) (scanBudget : Nat) : Option (PageChain S F) :=
  let outcome := s.pager.finish
  if outcome.more then
    let resume := outcome.resume.or s.resume
    let limit := s.limit.map (· - outcome.matched)
    (RangePager.new s.lo s.hi resume s.keyType scanBudget limit).map fun
      | .error error => { s with ended := some (.refused error) }
      | .ok pager => { s with resume, limit, pager, matched := s.matched + outcome.matched, idle := 0 }
  else some { s with ended := some .complete }

/-- After its end a chain only sees its tree change. -/
def step (s : PageChain S F) : PageEvent → Option (PageChain S F)
  | .next =>
    if s.ended.isSome then some s
    else do
      match ← s.pager.next s.tree with
      | (none, pager) => some { s with pager }
      | (some pair, pager) => some { s with pager, handed := s.handed ++ [pair], idle := 0 }
  | .countMatch => if s.ended.isSome then some s else some { s with pager := s.pager.countMatch }
  | .turn scanBudget => if s.ended.isSome then some s else s.turn scanBudget
  | .call call => do
    let (reply, tree) ← s.tree.step call
    some { s with tree, history := s.history ++ [tree], idle := s.idle + reply.changed.toNat }

def run (s : PageChain S F) (events : List PageEvent) : Option (PageChain S F) := events.foldlM step s

theorem run_cons (s : PageChain S F) (event : PageEvent) (events : List PageEvent) :
    s.run (event :: events) = s.step event >>= fun s' => s'.run events :=
  List.foldlM_cons

theorem run_append (s : PageChain S F) (before after : List PageEvent) :
    s.run (before ++ after) = s.run before >>= fun s' => s'.run after :=
  List.foldlM_append

def total (s : PageChain S F) : Nat := s.matched + s.pager.matched

end PageChain

/-- The pairs a statement ranges over: inside the edges and after the pair it resumes from. -/
def InRange (lo hi : RangeEdge) (resume : Option PageResume) (p : Pair) : Prop :=
  lo.admitsFromBelow p.key = true ∧ hi.admitsFromAbove p.key = true ∧ ∀ r ∈ resume, r.pair < p

instance (lo hi : RangeEdge) (resume : Option PageResume) (p : Pair) : Decidable (InRange lo hi resume p) :=
  inferInstanceAs (Decidable (_ ∧ _ ∧ _))

end InfinityDB.Query
