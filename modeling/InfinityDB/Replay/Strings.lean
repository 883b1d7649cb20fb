import InfinityDB.Lib.Cursor

/-!
# String commands and their records

The write commands on the string keys of durable namespaces, the records staged for them, and replay. A
command changes its own keys only; after it, each of them is logged as it then is: its value and deadline, or
a delete. After an error reply nothing is logged, but for the commands on many keys. A reading of the clock
is in milliseconds.
-/

namespace InfinityDB.Replay

open Lib

/-- A key in its namespace. -/
abbrev Key := Nat × Bytes

def maxKeyLen : Nat := 255

def maxValLen : Nat := 2 ^ 24 - 1

def maxExpireMs : Nat := 2 ^ 40 - 1

structure Entry where
  value : Bytes
  expireAtMs : Option Nat
deriving DecidableEq

/-- The deadline's own millisecond still serves the key. -/
def Entry.isExpired (e : Entry) (now : Nat) : Bool := e.expireAtMs.any (· < now)

abbrev Store := Key → Option Entry

inductive Deadline where
  | beforeOrigin
  | at (ms : Nat)
deriving DecidableEq

inductive SetCond where
  | always
  | ifAbsent
  | ifPresent

def SetCond.applies {α : Type} (cond : SetCond) (existing : Option α) : Bool :=
  match cond with
  | .always => true
  | .ifAbsent => existing.isNone
  | .ifPresent => existing.isSome

inductive SetExpire where
  | clear
  | keep
  | at (ms : Nat)
  | beforeOrigin

inductive ExpireCond where
  | always
  | ifNoExpiry
  | ifHasExpiry
  | ifGreater
  | ifLess

/-- A record without a deadline counts as never expiring. -/
def ExpireCond.applies (cond : ExpireCond) (deadline : Option Deadline) (current : Option Nat) : Bool :=
  match cond, deadline, current with
  | .always, _, _ => true
  | .ifNoExpiry, _, current => current.isNone
  | .ifHasExpiry, _, current => current.isSome
  | .ifGreater, some (.at new), some cur => cur < min new maxExpireMs
  | .ifGreater, _, _ => false
  | .ifLess, some (.at new), some cur => min new maxExpireMs < cur
  | .ifLess, some .beforeOrigin, some _ => true
  | .ifLess, some _, none => true
  | .ifLess, none, _ => false

def checkBounds (key : Key) (value : Bytes) : Bool := key.2.length ≤ maxKeyLen && value.length ≤ maxValLen

namespace Store

variable (s : Store) (key : Key) (now : Nat)

/-- The record a command resolves; an expired one reads as absent. -/
def find : Option Entry := (s key).filter fun e => !e.isExpired now

/-- Expire-on-read, the timing wheel and the sweep free an expired record. -/
def reap : Store := if (s key).any (Entry.isExpired · now) then Function.update s key none else s

def put (e : Entry) : Store := Function.update s key (some e)

def del : Store := Function.update s key none

/-- `None` when the key or the value is too long. -/
def set (value : Bytes) (cond : SetCond) (expire : SetExpire) : Option Store :=
  if !checkBounds key value then none
  else
    let existing := s.find key now
    if !cond.applies existing then some (s.reap key now)
    else match expire with
      | .clear => some (s.put key ⟨value, none⟩)
      | .keep => some (s.put key ⟨value, existing.bind Entry.expireAtMs⟩)
      | .at ms => some (s.put key ⟨value, some (min ms maxExpireMs)⟩)
      | .beforeOrigin => some (s.del key)

/-- `APPEND`, the `INCR` family and `SETRANGE`: the new value from the old one, the deadline kept. -/
def modify (next : Option Bytes → Option Bytes) : Option Store :=
  let existing := s.find key now
  (next (existing.map Entry.value)).bind fun value =>
    if checkBounds key value then some (s.put key ⟨value, existing.bind Entry.expireAtMs⟩) else none

/-- `EXPIRE`, and `PERSIST` without a deadline. One at or before the reading deletes the key. -/
def expire (deadline : Option Deadline) (cond : ExpireCond) : Store :=
  match s.find key now with
  | none => s.reap key now
  | some e =>
    if !cond.applies deadline e.expireAtMs || (deadline.isNone && e.expireAtMs.isNone) then s
    else match deadline with
      | none => s.put key ⟨e.value, none⟩
      | some (.at ms) => if now < min ms maxExpireMs then s.put key ⟨e.value, some (min ms maxExpireMs)⟩ else s.del key
      | some .beforeOrigin => s.del key

/-- `None` when the target is too long, `false` when there is no such key. -/
def rename (source target : Key) : Option (Store × Bool) :=
  if source = target then some (s.reap source now, (s.find source now).isSome)
  else match s.find source now with
    | none => some (s.reap source now, false)
    | some e => if checkBounds target e.value then some ((s.put target e).del source, true) else none

end Store

inductive Command where
  | set (key : Key) (value : Bytes) (cond : SetCond) (expire : SetExpire)
  | mset (pairs : List (Key × Bytes))
  | msetnx (pairs : List (Key × Bytes))
  | append (key : Key) (tail : Bytes)
  | setRange (key : Key) (offset : Nat) (patch : Bytes)
  | incr (key : Key) (next : Option Bytes → Option Bytes)
  | getdel (key : Key)
  | del (keys : List Key)
  | expire (key : Key) (deadline : Deadline) (cond : ExpireCond)
  | persist (key : Key)
  | getex (key : Key) (update : Option (Option Deadline))
  | rename (source target : Key)

namespace Command

/-- The keys named in the arguments. -/
def keys : Command → List Key
  | set key _ _ _ | append key _ | setRange key _ _ | incr key _ | getdel key | expire key _ _ | persist key
  | getex key _ => [key]
  | mset pairs | msetnx pairs => pairs.map Prod.fst
  | del keys => keys
  | rename source target => [source, target]

def pairsWithinBounds (pairs : List (Key × Bytes)) : Bool := pairs.all fun p => checkBounds p.1 p.2

def setPairs (s : Store) (pairs : List (Key × Bytes)) : Store := pairs.foldl (fun s p => s.put p.1 ⟨p.2, none⟩) s

/-- The value with the patch at the offset, zeros in any gap. -/
def patched (offset : Nat) (patch value : Bytes) : Bytes :=
  let padded := value ++ List.replicate (offset + patch.length - value.length) 0
  padded.take offset ++ patch ++ padded.drop (offset + patch.length)

/-- The outcome of a write, and whether its reply is an error: then what resolving the key left stands. -/
def reply (found : Store) (done : Option Store) : Store × Bool := (done.getD found, done.isNone)

/-- The store after a command, and whether the reply is an error. -/
def exec (now : Nat) (s : Store) : Command → Store × Bool
  | set key value cond expiry => reply s (s.set key now value cond expiry)
  | mset pairs => if pairsWithinBounds pairs then (setPairs s pairs, false) else (s, true)
  | msetnx pairs =>
    if !pairsWithinBounds pairs then (s, true)
    else if pairs.any fun p => (s.find p.1 now).isSome then (s, false)
    else (setPairs s pairs, false)
  | append key tail => reply (s.reap key now) (s.modify key now fun value => some (value.getD [] ++ tail))
  | setRange key offset patch =>
    if patch = [] then (s.reap key now, false)
    else reply (s.reap key now) (s.modify key now fun value => some (patched offset patch (value.getD [])))
  | incr key next => reply (s.reap key now) (s.modify key now next)
  | getdel key => (s.del key, false)
  | del keys => (keys.foldl Store.del s, false)
  | expire key deadline cond => (s.expire key now (some deadline) cond, false)
  | persist key => (s.expire key now none .always, false)
  | getex key update => (update.elim (s.reap key now) fun deadline => s.expire key now deadline .always, false)
  | rename source target => (s.rename now source target).elim (s, true) fun out => (out.1, !out.2)

/-- `stages_despite_error`: what could stop half way. -/
def stagesDespiteError : Command → Bool
  | mset _ | msetnx _ => true
  | _ => false

/-- The keys whose effects are staged after the reply. -/
def effects (c : Command) (refused : Bool) : List Key := if refused && !c.stagesDespiteError then [] else c.keys

end Command

/-- The instants of one moment on both clocks. -/
structure WallAnchor where
  internalMs : Nat
  unixMs : Nat

namespace WallAnchor

def unixFromInternal (anchor : WallAnchor) (ms : Nat) : Nat := ((ms : Int) - anchor.internalMs + anchor.unixMs).toNat

/-- `None` where the signed arithmetic overflows. -/
def internalFromUnix (anchor : WallAnchor) (unixMs : Nat) : Option Deadline :=
  let internal := (anchor.internalMs : Int) + (unixMs - anchor.unixMs)
  if unixMs < 2 ^ 63 ∧ anchor.unixMs < 2 ^ 63 ∧ anchor.internalMs < 2 ^ 63 ∧ internal < 2 ^ 63 then
    some (if internal < 0 then .beforeOrigin else .at (min internal.toNat maxExpireMs))
  else none

/-- The deadline comes back from a record as it was. -/
def Exact (anchor : WallAnchor) (ms : Nat) : Prop := anchor.internalFromUnix (anchor.unixFromInternal ms) = some (.at ms)

end WallAnchor

inductive LogRecord where
  | stringPostImage (key : Key) (value : Bytes)
  | delete (key : Key)
  | expireAt (atUnixMs : Nat) (key : Key)
deriving DecidableEq

structure Shot where
  key : Key
  image : Option Entry
deriving DecidableEq

/-- The records of one key: its image and its deadline, or its delete. -/
def Shot.records (anchor : WallAnchor) (shot : Shot) : List LogRecord :=
  match shot.image with
  | none => [.delete shot.key]
  | some e => .stringPostImage shot.key e.value :: e.expireAtMs.elim [] fun ms => [.expireAt (anchor.unixFromInternal ms) shot.key]

/-- `stage_durable_effects`: the keys as they are after the command. -/
def stageDurableEffects (s : Store) (now : Nat) (keys : List Key) : List Shot := keys.map fun key => ⟨key, s.find key now⟩

/-- `none` when the store refuses the record. -/
def applyRecord (anchor : WallAnchor) (now : Nat) (s : Store) : LogRecord → Option Store
  | .stringPostImage key value => s.set key now value .always .clear
  | .delete key => some (s.del key)
  | .expireAt atUnixMs key => some (s.expire key now (some ((anchor.internalFromUnix atUnixMs).getD (.at maxExpireMs))) .always)

def replay (anchor : WallAnchor) (now : Nat) (s : Store) (records : List LogRecord) : Option Store :=
  records.foldlM (applyRecord anchor now) s

end InfinityDB.Replay
