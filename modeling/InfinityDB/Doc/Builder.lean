import InfinityDB.Doc.Validate

/-!
# The tape builder

A streaming writer: values append to the output, a container reserves its length field and fills it
in when it closes. A call out of order panics; a limit refuses with an error, and a refused build is
discarded whole.
-/

namespace InfinityDB

open Lib List

def headerLen : Nat := 8
def i64MaxLen : Nat := 11
def f64Len : Nat := 9
def containerOpenLen : Nat := 4

/-- How a build stops early: an assertion of the builder, or an error for the caller. -/
inductive BuildStop where
  | misuse (what : String)
  | refused (error : DocError)
deriving DecidableEq

structure BFrame where
  lenAt : Nat
  isObj : Bool
  expectsKey : Bool
deriving DecidableEq

/-- The builder; the innermost frame is the head of the stack. -/
structure TapeBuilder where
  out : Bytes
  stack : List BFrame
  rootDone : Bool
  maxBody : Nat
deriving DecidableEq

/-- A string slice: UTF-8 by its type. -/
abbrev Text := { s : Bytes // validUtf8 s = true }

inductive BuildCall where
  | null
  | bool (v : Bool)
  | i64 (v : Int64)
  | f64 (bits : UInt64)
  | strValue (s : Text)
  | key (k : Text)
  | beginObj
  | beginArr
  | endContainer

namespace TapeBuilder

def withMaxBody (maxBody : Nat) : TapeBuilder :=
  { out := List.replicate headerLen 0, stack := [], rootDone := false, maxBody := min maxBody docBytesMax }

def claimValueSlot (b : TapeBuilder) : Except BuildStop TapeBuilder :=
  match b.stack with
  | top :: rest =>
    if top.isObj then
      if top.expectsKey then .error (.misuse "builder misuse: value emitted where a key is due")
      else .ok { b with stack := { top with expectsKey := true } :: rest }
    else .ok b
  | [] =>
    if b.rootDone then .error (.misuse "builder misuse: second root value")
    else .ok { b with rootDone := true }

/-- Reject before copying: so many more body bytes must fit the cap. -/
def ensureFits (b : TapeBuilder) (extra : Nat) : Except BuildStop Unit :=
  let body := b.out.length - headerLen
  if b.maxBody < body + extra then .error (.refused (.tooLarge (body + extra))) else .ok ()

def push (b : TapeBuilder) (bytes : Bytes) : TapeBuilder := { b with out := b.out ++ bytes }

/-- Bytes behind the check of their cost. -/
def emit (b : TapeBuilder) (cost : Nat) (bytes : Bytes) : Except BuildStop TapeBuilder := do
  b.ensureFits cost
  .ok (b.push bytes)

def null (b : TapeBuilder) : Except BuildStop TapeBuilder := do
  let b ← b.claimValueSlot
  b.emit 1 [tagNull]

def bool (b : TapeBuilder) (v : Bool) : Except BuildStop TapeBuilder := do
  let b ← b.claimValueSlot
  b.emit 1 [if v then tagTrue else tagFalse]

def i64 (b : TapeBuilder) (v : Int64) : Except BuildStop TapeBuilder := do
  let b ← b.claimValueSlot
  -- an integer with a varint is charged its worst case
  b.emit (if isFixintValue v then 1 else i64MaxLen) (emitI64 v)

def f64 (b : TapeBuilder) (bits : UInt64) : Except BuildStop TapeBuilder := do
  let b ← b.claimValueSlot
  if (⟨bits⟩ : Binary64).isFinite then b.emit f64Len (emitF64 bits) else .error (.refused .nonFiniteNumber)

def strHeaderLen (len : Nat) : Nat :=
  if len ≤ fixstrMaxLen then 1 else if len < str24MinLen then 2 else 4

def emitStrBytes (b : TapeBuilder) (s : Text) : Except BuildStop TapeBuilder :=
  b.emit (strHeaderLen s.1.length + s.1.length) (emitStr s.1)

def strValue (b : TapeBuilder) (s : Text) : Except BuildStop TapeBuilder := do
  let b ← b.claimValueSlot
  b.emitStrBytes s

def key (b : TapeBuilder) (k : Text) : Except BuildStop TapeBuilder :=
  match b.stack with
  | [] => .error (.misuse "builder misuse: key outside an object")
  | top :: rest =>
    if !top.isObj then .error (.misuse "builder misuse: key inside an array")
    else if !top.expectsKey then .error (.misuse "builder misuse: key emitted where a value is due")
    else { b with stack := { top with expectsKey := false } :: rest }.emitStrBytes k

def beginContainer (b : TapeBuilder) (tag : UInt8) : Except BuildStop TapeBuilder := do
  let b ← b.claimValueSlot
  if b.stack.length = depthMax then .error (.refused .depthExceeded)
  else do
    b.ensureFits containerOpenLen
    let isObj := tag == tagObj
    .ok { b with
      out := b.out ++ [tag, 0, 0, 0]
      stack := { lenAt := b.out.length + 1, isObj := isObj, expectsKey := isObj } :: b.stack }

def beginObj (b : TapeBuilder) : Except BuildStop TapeBuilder := b.beginContainer tagObj

def beginArr (b : TapeBuilder) : Except BuildStop TapeBuilder := b.beginContainer tagArr

def patchLength (out : Bytes) (lenAt : Nat) : Bytes :=
  out.take lenAt ++ (leBytes 3 (out.length - (lenAt + 3)) ++ out.drop (lenAt + 3))

def endContainer (b : TapeBuilder) : Except BuildStop TapeBuilder :=
  match b.stack with
  | [] => .error (.misuse "builder misuse: end() with no open container")
  | frame :: rest =>
    if frame.isObj && !frame.expectsKey then
      .error (.misuse "builder misuse: object closed between key and value")
    else .ok { b with out := patchLength b.out frame.lenAt, stack := rest }

/-- The header over its placeholder: magic, version, no flags, and the body length. -/
def patchHeader (out : Bytes) (bodyLen : Nat) : Bytes :=
  [0x69, 0x44, 1, 0] ++ (leBytes 4 bodyLen ++ out.drop headerLen)

def finish (b : TapeBuilder) : Except BuildStop Bytes :=
  if !b.stack.isEmpty then .error (.misuse "builder misuse: finish() with open containers")
  else if !b.rootDone then .error (.misuse "builder misuse: finish() without a root value")
  else .ok (patchHeader b.out (b.out.length - headerLen))

def finishFragment (b : TapeBuilder) : Except BuildStop Bytes :=
  if !b.stack.isEmpty then .error (.misuse "builder misuse: finish_fragment() with open containers")
  else if !b.rootDone then .error (.misuse "builder misuse: finish_fragment() without a root value")
  else .ok (b.out.drop headerLen)

def call (b : TapeBuilder) : BuildCall → Except BuildStop TapeBuilder
  | .null => b.null
  | .bool v => b.bool v
  | .i64 v => b.i64 v
  | .f64 bits => b.f64 bits
  | .strValue s => b.strValue s
  | .key k => b.key k
  | .beginObj => b.beginObj
  | .beginArr => b.beginArr
  | .endContainer => b.endContainer

def run (b : TapeBuilder) (calls : List BuildCall) : Except BuildStop TapeBuilder := calls.foldlM call b

end TapeBuilder

def buildDocument (maxBody : Nat) (calls : List BuildCall) : Except BuildStop Bytes := do
  let b ← (TapeBuilder.withMaxBody maxBody).run calls
  b.finish

def buildFragment (maxBody : Nat) (calls : List BuildCall) : Except BuildStop Bytes := do
  let b ← (TapeBuilder.withMaxBody maxBody).run calls
  b.finishFragment

def headerDecode (bytes : Bytes) : Except DocError Nat :=
  match bytes with
  | m0 :: m1 :: version :: flags :: l0 :: l1 :: l2 :: l3 :: rest =>
    if [m0, m1] ≠ [0x69, 0x44] then .error .badMagic
    else if version ≠ 1 then .error (.unsupportedVersion version)
    else if flags ≠ 0 then .error (.unsupportedFlags flags)
    else
      let bodyLen := leValue [l0, l1, l2, l3]
      if docBytesMax < bodyLen then .error (.tooLarge bodyLen)
      else if rest.length ≠ bodyLen then .error .badLength
      else .ok bodyLen
  | _ => .error .truncated

/-- The body of a complete document, after its checks. -/
def tapeDocFromBytes (bytes : Bytes) : Except DocError Bytes := do
  let _ ← headerDecode bytes
  validateBody (bytes.drop headerLen)
  .ok (bytes.drop headerLen)

/-- The parts written so far in an open container: items, members, or members and a key. -/
inductive Written (room : Nat) : Bool → Bool → Bytes → Prop where
  | items {items : List Doc} : (∀ d ∈ items, Encodable room d) → Written room false false (itemsBytes items)
  | members {members : List (Bytes × Doc)} : (∀ x ∈ members, StrFits x.1) → (∀ x ∈ members, Encodable room x.2) →
      Written room true false (membersBytes members)
  | keyed {members : List (Bytes × Doc)} {key : Bytes} : (∀ x ∈ members, StrFits x.1) →
      (∀ x ∈ members, Encodable room x.2) → StrFits key → Written room true true (membersBytes members ++ emitStr key)

theorem itemsBytes_append (k l : List Doc) : itemsBytes (k ++ l) = itemsBytes k ++ itemsBytes l := by
  induction k with
  | nil => rfl
  | cons d k ih => rw [cons_append, itemsBytes, itemsBytes, ih, append_assoc]

theorem membersBytes_append (k l : List (Bytes × Doc)) : membersBytes (k ++ l) = membersBytes k ++ membersBytes l := by
  induction k with
  | nil => rfl
  | cons x k ih =>
    obtain ⟨key, d⟩ := x
    rw [cons_append, membersBytes, membersBytes, ih, append_assoc, append_assoc]

theorem Written.value {room : Nat} {isObj : Bool} {bytes : Bytes} {d : Doc} (h : Written room isObj isObj bytes)
    (hd : Encodable room d) : Written room isObj false (bytes ++ d.bytes) := by
  cases isObj with
  | false =>
    cases h with
    | @items items hitems =>
      have hsnoc : itemsBytes items ++ d.bytes = itemsBytes (items ++ [d]) := by
        rw [itemsBytes_append, itemsBytes, itemsBytes, append_nil]
      rw [hsnoc]
      apply Written.items
      exact forall_mem_append.mpr ⟨hitems, forall_mem_singleton.mpr hd⟩
  | true =>
    cases h with
    | @keyed members key hkeys hvalues hkey =>
      have hsnoc : membersBytes members ++ emitStr key ++ d.bytes = membersBytes (members ++ [(key, d)]) := by
        rw [membersBytes_append, membersBytes, membersBytes, append_nil, append_assoc]
      rw [hsnoc]
      apply Written.members
      · exact forall_mem_append.mpr ⟨hkeys, forall_mem_singleton.mpr hkey⟩
      · exact forall_mem_append.mpr ⟨hvalues, forall_mem_singleton.mpr hd⟩

variable {bytes : Bytes}

theorem Written.key {room : Nat} {key : Bytes} (h : Written room true false bytes) (hkey : StrFits key) :
    Written room true true (bytes ++ emitStr key) := by
  cases h with
  | members hkeys hvalues => exact Written.keyed hkeys hvalues hkey

theorem Written.nil (room : Nat) (isObj : Bool) : Written room isObj false [] := by
  cases isObj with
  | false => exact @Written.items _ [] nofun
  | true =>
    exact @Written.members _ [] (nofun) nofun

def containerTag (isObj : Bool) : UInt8 := if isObj then tagObj else tagArr

theorem Written.close {room : Nat} {isObj : Bool} (h : Written room isObj false bytes) (hlen : bytes.length < 2 ^ 24) :
    ∃ d, Encodable (room + 1) d ∧ d.bytes = container (containerTag isObj) bytes := by
  cases h with
  | @items items hitems =>
    refine ⟨.arr items, .arr hitems hlen, ?_⟩
    rw [Doc.bytes]
    rfl
  | @members members hkeys hvalues =>
    refine ⟨.obj members, .obj hkeys hvalues hlen, ?_⟩
    rw [Doc.bytes]
    rfl

/-- The output of the open containers, innermost first: each has its tag, an empty length field and
its parts. -/
def openBytes : List (Bool × Bytes) → Bytes
  | [] => List.replicate headerLen 0
  | (isObj, bytes) :: rest => openBytes rest ++ ([containerTag isObj, 0, 0, 0] ++ bytes)

theorem headerLen_le_openBytes (parts : List (Bool × Bytes)) : headerLen ≤ (openBytes parts).length := by
  induction parts with
  | nil => rw [openBytes, length_replicate]
  | cons x rest ih =>
    obtain ⟨isObj, bytes⟩ := x
    rw [openBytes, length_append]
    omega

/-- The frames of the open containers. With a child open the slot of the next value is taken:
the parts await it, and an object already counts it. -/
inductive Frames : Bool → List BFrame → List (Bool × Bytes) → Prop where
  | nil {child : Bool} : Frames child [] []
  | cons {child isObj expectsKey awaits : Bool} {bytes : Bytes} {stack : List BFrame} {rest : List (Bool × Bytes)} :
      Frames true stack rest → Written (depthMax - (rest.length + 1)) isObj awaits bytes →
      (child = true → awaits = isObj ∧ expectsKey = isObj) → (child = false → expectsKey = (isObj && !awaits)) →
      Frames child (⟨(openBytes rest).length + 1, isObj, expectsKey⟩ :: stack) ((isObj, bytes) :: rest)

theorem Frames.length_eq {child : Bool} {stack : List BFrame} {parts : List (Bool × Bytes)} (h : Frames child stack parts) :
    stack.length = parts.length := by
  induction h with
  | nil => rfl
  | cons _ _ _ _ ih => rw [length_cons, length_cons, ih]

/-- What the calls keep: the output is the root, or the containers still open. -/
structure TapeBuilder.Sound (b : TapeBuilder) : Prop where
  cap : b.maxBody ≤ docBytesMax
  size : b.out.length ≤ headerLen + b.maxBody
  depth : b.stack.length ≤ depthMax
  output : (b.stack = [] ∧ b.rootDone = false ∧ b.out = List.replicate headerLen 0) ∨
    (b.stack = [] ∧ b.rootDone = true ∧ ∃ d, Encodable depthMax d ∧ b.out = List.replicate headerLen 0 ++ d.bytes) ∨
    (b.rootDone = true ∧ ∃ parts, parts ≠ [] ∧ Frames false b.stack parts ∧ b.out = openBytes parts)

/-- The builder with the slot of the next value taken. -/
structure TapeBuilder.Claimed (b : TapeBuilder) (parts : List (Bool × Bytes)) : Prop where
  cap : b.maxBody ≤ docBytesMax
  size : b.out.length ≤ headerLen + b.maxBody
  depth : b.stack.length ≤ depthMax
  rootDone : b.rootDone = true
  frames : Frames true b.stack parts
  output : b.out = openBytes parts

namespace TapeBuilder

variable {b b' : TapeBuilder}

theorem withMaxBody_sound (maxBody : Nat) : (withMaxBody maxBody).Sound where
  cap := Nat.min_le_right _ _
  size := Nat.le_add_right _ _
  depth := zero_le
  output := .inl ⟨rfl, rfl, rfl⟩

theorem Sound.claim (h : b.Sound) (hclaim : b.claimValueSlot = .ok b') : ∃ parts, b'.Claimed parts := by
  rw [claimValueSlot] at hclaim
  have hcap := h.cap
  have hsize := h.size
  have hdepth := h.depth
  rcases h.output with ⟨hstack, hroot, hout⟩ | ⟨hstack, hroot, -⟩ | ⟨hroot, parts, -, hframes, hout⟩
  · rw [hstack, hroot] at hclaim
    cases hclaim
    exact ⟨[], hcap, hsize, zero_le, rfl, Frames.nil, hout⟩
  · rw [hstack, hroot] at hclaim
    simp at hclaim
  · refine ⟨parts, ?_⟩
    generalize hstack : b.stack = stack at hframes hclaim
    cases hframes with
    | nil =>
      rw [hroot] at hclaim
      simp at hclaim
    | @cons _ isObj expectsKey awaits bytes stack rest hrest hwritten _ htop =>
      have hexpects := htop rfl
      simp only at hclaim
      cases isObj with
      | true =>
        simp only [if_true] at hclaim
        obtain ⟨hkey, hclaim⟩ := guard_ok hclaim
        cases hclaim
        rw [hstack] at hdepth
        have hawaits : awaits = true := by
          rw [hexpects] at hkey
          simpa using hkey
        refine ⟨hcap, hsize, hdepth, hroot, ?_, hout⟩
        exact Frames.cons hrest hwritten (fun _ => ⟨hawaits, rfl⟩) (nofun)
      | false =>
        simp only [Bool.false_eq_true, if_false] at hclaim
        cases hclaim
        refine ⟨hcap, hsize, hdepth, hroot, ?_, hout⟩
        have hawaits : awaits = false := by
          cases hwritten with
          | items _ => rfl
        rw [hstack]
        exact Frames.cons hrest hwritten (fun _ => ⟨hawaits, hexpects⟩) (nofun)

theorem Claimed.value {parts : List (Bool × Bytes)} {d : Doc} (h : b.Claimed parts)
    (hd : Encodable (depthMax - parts.length) d) (hsize : b.out.length + d.bytes.length ≤ headerLen + b.maxBody) :
    (b.push d.bytes).Sound where
  cap := h.cap
  size := by
    rw [push, length_append]
    exact hsize
  depth := h.depth
  output := by
    have hframes := h.frames
    have hout := h.output
    have hroot := h.rootDone
    simp only [push]
    generalize hstack : b.stack = stack at hframes ⊢
    cases hframes with
    | nil =>
      refine .inr (.inl ⟨rfl, hroot, d, hd, ?_⟩)
      rw [hout, openBytes]
    | @cons _ isObj expectsKey awaits bytes stack rest hrest hwritten hchild _ =>
      obtain ⟨rfl, rfl⟩ := hchild rfl
      refine .inr (.inr ⟨hroot, (expectsKey, bytes ++ d.bytes) :: rest, cons_ne_nil _ _, ?_, ?_⟩)
      · refine Frames.cons hrest (hwritten.value hd) (nofun) fun _ => ?_
        rw [Bool.not_false, Bool.and_true]
      · rw [hout, openBytes, openBytes, append_assoc, append_assoc]

theorem Claimed.open {parts : List (Bool × Bytes)} {isObj : Bool} (h : b.Claimed parts) (hdepth : b.stack.length ≠ depthMax)
    (hsize : b.out.length + containerOpenLen ≤ headerLen + b.maxBody) : ({ b with
      out := b.out ++ [containerTag isObj, 0, 0, 0]
      stack := ⟨b.out.length + 1, isObj, isObj⟩ :: b.stack } : TapeBuilder).Sound where
  cap := h.cap
  size := by
    rw [length_append]
    exact hsize
  depth := by
    have := h.depth
    rw [length_cons]
    omega
  output := by
    refine .inr (.inr ⟨h.rootDone, (isObj, []) :: parts, cons_ne_nil _ _, ?_, ?_⟩)
    · rw [h.output]
      refine Frames.cons h.frames (Written.nil _ _) (nofun) fun _ => ?_
      rw [Bool.not_false, Bool.and_true]
    · rw [h.output, openBytes, append_nil]

/-- The length field is filled in place. -/
theorem patchLength_open (k bytes : Bytes) (tag : UInt8) :
    patchLength (k ++ ([tag, 0, 0, 0] ++ bytes)) (k.length + 1) = k ++ container tag bytes := by
  have hsplit : k ++ ([tag, 0, 0, 0] ++ bytes) = (k ++ [tag]) ++ ([0, 0, 0] ++ bytes) := by simp
  have hlen : (k ++ [tag]).length = k.length + 1 := by rw [length_append, length_singleton]
  have htake : ((k ++ [tag]) ++ ([0, 0, 0] ++ bytes)).take (k.length + 1) = k ++ [tag] := take_left' hlen
  have hdrop : ((k ++ [tag]) ++ ([0, 0, 0] ++ bytes)).drop (k.length + 1 + 3) = bytes := by
    rw [← drop_drop, drop_left' hlen]
    rfl
  have hcount : ((k ++ [tag]) ++ ([0, 0, 0] ++ bytes)).length - (k.length + 1 + 3) = bytes.length := by
    rw [length_append, hlen, length_append]
    simp only [length_cons, length_nil]
    omega
  rw [patchLength, hsplit, htake, hdrop, hcount, container, append_assoc]
  rfl

theorem Sound.endContainer (h : b.Sound) (hend : b.endContainer = .ok b') : b'.Sound := by
  rw [TapeBuilder.endContainer] at hend
  have hcap := h.cap
  have hsize := h.size
  have hdepth := h.depth
  rcases h.output with ⟨hstack, -, -⟩ | ⟨hstack, -, -⟩ | ⟨hroot, parts, -, hframes, hout⟩
  · rw [hstack] at hend
    simp at hend
  · rw [hstack] at hend
    simp at hend
  · generalize hstack : b.stack = stack at hframes hend
    cases hframes with
    | nil => simp at hend
    | @cons _ isObj expectsKey awaits bytes stack rest hrest hwritten _ htop =>
      simp only at hend
      obtain ⟨hparity, hend⟩ := guard_ok hend
      cases hend
      have hlen := hrest.length_eq
      rw [hstack, length_cons] at hdepth
      rw [hout, openBytes, length_append, length_append] at hsize
      have hawaits : awaits = false := by
        have hexpects := htop rfl
        rw [hexpects] at hparity
        cases hwritten with
        | items _ | members _ _ => rfl
        | keyed _ _ _ => exact absurd rfl hparity
      subst hawaits
      have hfits : bytes.length < 2 ^ 24 := by
        have hmax : docBytesMax < 2 ^ 24 := by decide
        have hheader := headerLen_le_openBytes rest
        omega
      obtain ⟨d, hd, hbytes⟩ := hwritten.close hfits
      -- the container takes the slot that its opening claimed
      have hclaimed : ({ b with out := openBytes rest, stack := stack } : TapeBuilder).Claimed rest :=
        ⟨hcap, by simp only; omega, by simp only; omega, hroot, hrest, rfl⟩
      have hroom : depthMax - (rest.length + 1) + 1 = depthMax - rest.length := by omega
      rw [hroom] at hd
      have hcount : d.bytes.length = 4 + bytes.length := by
        rw [hbytes, container, length_cons, length_append, leBytes_length]
        omega
      have hvalue := hclaimed.value hd (by simp only [length_cons, length_nil] at hsize ⊢; omega)
      rw [push, hbytes] at hvalue
      rw [hout, openBytes, patchLength_open]
      exact hvalue

variable {bytes : Bytes}

theorem emit_ok {cost : Nat} (h : b.emit cost bytes = .ok b') :
    b' = b.push bytes ∧ b.out.length - headerLen + cost ≤ b.maxBody := by
  rw [emit] at h
  obtain ⟨⟨⟩, hfits, h⟩ := except_bind_ok h
  rw [ensureFits] at hfits
  split at hfits
  · simp at hfits
  · exact ⟨(Except.ok.inj h).symm, by omega⟩

theorem emitStr_length (s : Bytes) : (emitStr s).length = strHeaderLen s.length + s.length := by
  rw [emitStr, length_append, strHeader, strHeaderLen]
  split
  · rfl
  · split
    · rfl
    · rw [length_cons, leBytes_length]

private theorem emitI64_length_le (v : Int64) : (emitI64 v).length ≤ if isFixintValue v then 1 else i64MaxLen := by
  rw [emitI64]
  split
  · exact le_rfl
  · have hlen := (encodeVarint_length (zigzag v)).2
    rw [length_cons, i64MaxLen]
    omega

theorem Claimed.emit {parts : List (Bool × Bytes)} {s : Scalar} {cost : Nat} (h : b.Claimed parts) (hs : s.Fits)
    (hcost : (emitScalar s).length ≤ cost) (hemit : b.emit cost (emitScalar s) = .ok b') : b'.Sound := by
  obtain ⟨rfl, hfits⟩ := emit_ok hemit
  have hheader := headerLen_le_openBytes parts
  rw [← h.output] at hheader
  have hbytes : emitScalar s = (Doc.scalar s).bytes := by rw [Doc.bytes]
  rw [hbytes] at hcost ⊢
  exact h.value (.scalar hs) (by omega)

theorem Sound.key {k : Text} (h : b.Sound) (hkey : b.key k = .ok b') : b'.Sound := by
  rw [TapeBuilder.key] at hkey
  have hcap := h.cap
  have hdepth := h.depth
  rcases h.output with ⟨hstack, -, -⟩ | ⟨hstack, -, -⟩ | ⟨hroot, parts, -, hframes, hout⟩
  · rw [hstack] at hkey
    simp at hkey
  · rw [hstack] at hkey
    simp at hkey
  · generalize hstack : b.stack = stack at hframes hkey
    cases hframes with
    | nil => simp at hkey
    | @cons _ isObj expectsKey awaits bytes stack rest hrest hwritten _ htop =>
      have hexpects := htop rfl
      simp only at hkey
      cases isObj with
      | false => simp at hkey
      | true =>
        rw [if_neg (by decide)] at hkey
        obtain ⟨hdue, hkey⟩ := guard_ok hkey
        rw [emitStrBytes] at hkey
        obtain ⟨rfl, hfits⟩ := emit_ok hkey
        have hheader := headerLen_le_openBytes ((true, bytes) :: rest)
        rw [← hout] at hheader
        simp only at hfits
        have hawaits : awaits = false := by
          rw [hexpects] at hdue
          simpa using hdue
        subst hawaits
        have hlen := emitStr_length k.1
        have hmax : docBytesMax < 2 ^ 24 := by decide
        refine ⟨hcap, ?_, by rw [hstack] at hdepth; exact hdepth, .inr (.inr ⟨hroot, (true, bytes ++ emitStr k.1) :: rest,
          cons_ne_nil _ _, ?_, ?_⟩)⟩
        · rw [push, length_append]
          simp only
          omega
        · refine Frames.cons hrest (hwritten.key ⟨k.2, by omega⟩) (nofun) fun _ => rfl
        · rw [push, hout, openBytes, openBytes, append_assoc, append_assoc]

theorem Sound.beginContainer {isObj : Bool} (h : b.Sound) (hbegin : b.beginContainer (containerTag isObj) = .ok b') :
    b'.Sound := by
  rw [TapeBuilder.beginContainer] at hbegin
  obtain ⟨claimed, hclaim, hbegin⟩ := except_bind_ok hbegin
  obtain ⟨parts, hparts⟩ := h.claim hclaim
  obtain ⟨hdepth, hbegin⟩ := guard_ok hbegin
  obtain ⟨⟨⟩, hfits, hbegin⟩ := except_bind_ok hbegin
  have hheader := headerLen_le_openBytes parts
  rw [← hparts.output] at hheader
  have htag : (containerTag isObj == tagObj) = isObj := by cases isObj <;> rfl
  rw [ensureFits] at hfits
  simp only [htag] at hfits hbegin
  split at hfits
  · simp at hfits
  cases hbegin
  exact hparts.open hdepth (by omega)

/-- One call keeps the build sound. -/
theorem Sound.call {c : BuildCall} (h : b.Sound) (hcall : b.call c = .ok b') : b'.Sound := by
  cases c with
  | null =>
    obtain ⟨claimed, hclaim, hemit⟩ := except_bind_ok hcall
    obtain ⟨parts, hparts⟩ := h.claim hclaim
    exact @Claimed.emit _ _ _ .null _ hparts trivial le_rfl hemit
  | bool v =>
    obtain ⟨claimed, hclaim, hemit⟩ := except_bind_ok hcall
    obtain ⟨parts, hparts⟩ := h.claim hclaim
    exact @Claimed.emit _ _ _ (.bool v) _ hparts trivial le_rfl hemit
  | i64 v =>
    obtain ⟨claimed, hclaim, hemit⟩ := except_bind_ok hcall
    obtain ⟨parts, hparts⟩ := h.claim hclaim
    exact @Claimed.emit _ _ _ (.i64 v) _ hparts trivial (emitI64_length_le v) hemit
  | f64 bits =>
    obtain ⟨claimed, hclaim, hemit⟩ := except_bind_ok hcall
    obtain ⟨parts, hparts⟩ := h.claim hclaim
    obtain ⟨hfinite, hemit⟩ := check_ok hemit
    exact @Claimed.emit _ _ _ (.f64 bits) _ hparts hfinite le_rfl hemit
  | strValue s =>
    obtain ⟨claimed, hclaim, hemit⟩ := except_bind_ok hcall
    obtain ⟨parts, hparts⟩ := h.claim hclaim
    have hfits := (emit_ok hemit).2
    have hcap := hparts.cap
    have hmax : docBytesMax < 2 ^ 24 := by decide
    exact @Claimed.emit _ _ _ (.str s.1) _ hparts ⟨s.2, by omega⟩ (le_of_eq (emitStr_length s.1)) hemit
  | key k => exact h.key hcall
  | beginObj => exact @Sound.beginContainer _ _ true h hcall
  | beginArr => exact @Sound.beginContainer _ _ false h hcall
  | endContainer => exact h.endContainer hcall

theorem Sound.run {calls : List BuildCall} (h : b.Sound) (hrun : b.run calls = .ok b') : b'.Sound := by
  induction calls generalizing b with
  | nil =>
    cases hrun
    exact h
  | cons c calls ih =>
    rw [TapeBuilder.run, foldlM_cons] at hrun
    obtain ⟨next, hcall, hrun⟩ := except_bind_ok hrun
    exact ih (h.call hcall) hrun

/-- A build that finishes holds one document. -/
theorem Sound.root (h : b.Sound) (hstack : b.stack = []) (hroot : b.rootDone = true) :
    ∃ d, Encodable depthMax d ∧ b.out = List.replicate headerLen 0 ++ d.bytes ∧ d.bytes.length ≤ docBytesMax := by
  rcases h.output with ⟨-, hnot, -⟩ | ⟨-, -, d, hd, hout⟩ | ⟨-, parts, hne, hframes, -⟩
  · rw [hnot] at hroot
    exact absurd hroot (by decide)
  · refine ⟨d, hd, hout, ?_⟩
    have hsize := h.size
    have hcap := h.cap
    rw [hout, length_append, length_replicate] at hsize
    omega
  · rw [hstack] at hframes
    cases hframes with
    | nil => exact absurd rfl hne

private theorem finishFragment_ok (h : b.finishFragment = .ok bytes) :
    b.stack = [] ∧ b.rootDone = true ∧ bytes = b.out.drop headerLen := by
  rw [finishFragment] at h
  obtain ⟨hstack, h⟩ := guard_ok h
  obtain ⟨hroot, h⟩ := guard_ok h
  exact ⟨by simpa using hstack, by simpa using hroot, (Except.ok.inj h).symm⟩

private theorem finish_ok (h : b.finish = .ok bytes) :
    b.stack = [] ∧ b.rootDone = true ∧ bytes = patchHeader b.out (b.out.length - headerLen) := by
  rw [finish] at h
  obtain ⟨hstack, h⟩ := guard_ok h
  obtain ⟨hroot, h⟩ := guard_ok h
  exact ⟨by simpa using hstack, by simpa using hroot, (Except.ok.inj h).symm⟩

end TapeBuilder

/-- A patched header passes its check. -/
private theorem headerDecode_patch (h : bytes.length ≤ docBytesMax) :
    headerDecode (TapeBuilder.patchHeader (List.replicate headerLen 0 ++ bytes) bytes.length) = .ok bytes.length := by
  have hmax : docBytesMax < 256 ^ 4 := by decide
  have hvalue : leValue (leBytes 4 bytes.length) = bytes.length := leValue_leBytes (by omega)
  have hdrop : (List.replicate headerLen 0 ++ bytes).drop headerLen = bytes := drop_left' (length_replicate)
  rw [TapeBuilder.patchHeader, hdrop]
  generalize hlen : leBytes 4 bytes.length = field at hvalue
  have hfour : field.length = 4 := by rw [← hlen, leBytes_length]
  match field, hfour with
  | [l0, l1, l2, l3], _ =>
    rw [cons_append, cons_append, cons_append, cons_append, nil_append, cons_append,
      cons_append, cons_append, cons_append, nil_append, headerDecode]
    simp only
    iterate 3 rw [if_neg (by decide)]
    rw [hvalue, if_neg (by omega), if_neg (by simp)]

/-- What a finished fragment is. -/
theorem buildFragment_ok {maxBody : Nat} {calls : List BuildCall}
    (h : buildFragment maxBody calls = .ok bytes) : ∃ d, Encodable depthMax d ∧ bytes = d.bytes := by
  obtain ⟨b, hrun, hfinish⟩ := except_bind_ok h
  obtain ⟨hstack, hroot, rfl⟩ := TapeBuilder.finishFragment_ok hfinish
  obtain ⟨d, hd, hout, -⟩ := ((TapeBuilder.withMaxBody_sound maxBody).run hrun).root hstack hroot
  refine ⟨d, hd, ?_⟩
  rw [hout]
  exact drop_left' length_replicate

/-- A finished document passes the whole check. -/
theorem buildDocument_ok {maxBody : Nat} {calls : List BuildCall}
    (h : buildDocument maxBody calls = .ok bytes) : ∃ d, Encodable depthMax d ∧ tapeDocFromBytes bytes = .ok d.bytes := by
  obtain ⟨b, hrun, hfinish⟩ := except_bind_ok h
  obtain ⟨hstack, hroot, rfl⟩ := TapeBuilder.finish_ok hfinish
  obtain ⟨d, hd, hout, hsize⟩ := ((TapeBuilder.withMaxBody_sound maxBody).run hrun).root hstack hroot
  refine ⟨d, hd, ?_⟩
  have hlen : b.out.length - headerLen = d.bytes.length := by
    rw [hout, length_append, length_replicate, Nat.add_sub_cancel_left]
  have hbody : (TapeBuilder.patchHeader b.out (b.out.length - headerLen)).drop headerLen = d.bytes := by
    have hdrop : b.out.drop headerLen = d.bytes := by
      rw [hout]
      exact drop_left' length_replicate
    rw [TapeBuilder.patchHeader, hdrop, ← append_assoc]
    apply drop_left'
    rw [length_append, leBytes_length]
    rfl
  rw [tapeDocFromBytes, hbody, validateBody_bytes hd, hlen, hout, headerDecode_patch hsize]
  rfl

def asStr (s : Bytes) : Option Text := if h : validUtf8 s = true then some ⟨s, h⟩ else none

def Scalar.call : Scalar → Option BuildCall
  | .null => some .null
  | .bool b => some (.bool b)
  | .i64 v => some (.i64 v)
  | .f64 bits => some (.f64 bits)
  | .str s => (asStr s).map .strValue

mutual

/-- The calls that write a document, if its strings are UTF-8. -/
def Doc.calls : Doc → Option (List BuildCall)
  | .scalar s => s.call.map ([·])
  | .arr items => (itemsCalls items).map fun calls => .beginArr :: (calls ++ [.endContainer])
  | .obj members => (membersCalls members).map fun calls => .beginObj :: (calls ++ [.endContainer])

def itemsCalls : List Doc → Option (List BuildCall)
  | [] => some []
  | d :: rest => do
    let calls ← d.calls
    let more ← itemsCalls rest
    some (calls ++ more)

def membersCalls : List (Bytes × Doc) → Option (List BuildCall)
  | [] => some []
  | (key, d) :: rest => do
    let key ← asStr key
    let calls ← d.calls
    let more ← membersCalls rest
    some (.key key :: (calls ++ more))

end

/-- A body read and written again under a cap. -/
def rebuild (maxBody : Nat) (body : Bytes) : Option (Except BuildStop Bytes) := do
  let d ← decodeBody body
  let calls ← d.calls
  some (buildFragment maxBody calls)

namespace TapeBuilder

variable {b b' b'' : TapeBuilder}

private theorem run_append (k l : List BuildCall) : b.run (k ++ l) = b.run k >>= fun b => b.run l := foldlM_append

/-- The calls reach a builder, or the cap refuses them; with the slack of one integer it does not. -/
def Writes (b : TapeBuilder) (calls : List BuildCall) (b' : TapeBuilder) : Prop :=
  b.run calls = .ok b' ∨
    (∃ n, b.run calls = .error (.refused (.tooLarge n))) ∧ headerLen + b.maxBody < b'.out.length + 9

theorem Writes.append {k l : List BuildCall} (hk : b.Writes k b') (hl : b'.Writes l b'') (hcap : b'.maxBody = b.maxBody)
    (hlen : b'.out.length ≤ b''.out.length) : b.Writes (k ++ l) b'' := by
  rw [Writes, run_append]
  rcases hk with hk | ⟨⟨n, hk⟩, hslack⟩
  · rw [hk]
    rcases hl with hl | ⟨hl, hslack⟩
    · exact .inl hl
    · rw [hcap] at hslack
      exact .inr ⟨hl, hslack⟩
  · rw [hk]
    exact .inr ⟨⟨n, rfl⟩, by omega⟩

/-- One call behind its claim and its check. -/
theorem Writes.emit {c : BuildCall} {cost : Nat} {bytes : Bytes} (h : b.call c = b'.emit cost bytes)
    (hcap : b'.maxBody = b.maxBody) (hcost : cost ≤ bytes.length + 9) (hheader : headerLen ≤ b'.out.length) :
    b.Writes [c] (b'.push bytes) := by
  have hrun : b.run [c] = b'.emit cost bytes := by
    rw [run, foldlM_cons, h]
    cases b'.emit cost bytes <;> rfl
  rw [Writes, hrun, TapeBuilder.emit, ensureFits]
  by_cases hfits : b'.maxBody < b'.out.length - headerLen + cost
  · simp only [if_pos hfits]
    refine .inr ⟨⟨_, rfl⟩, ?_⟩
    rw [push, length_append]
    omega
  · simp only [if_neg hfits]
    exact .inl rfl

private theorem emitI64_cost (v : Int64) : (if isFixintValue v then 1 else i64MaxLen) ≤ (emitI64 v).length + 9 := by
  rw [emitI64]
  split
  · exact Nat.le_add_left _ _
  · have hlen := (encodeVarint_length (zigzag v)).1
    rw [length_cons, i64MaxLen]
    omega

theorem claimValueSlot_ok (h : b.claimValueSlot = .ok b') :
    b'.out = b.out ∧ b'.maxBody = b.maxBody ∧ b'.stack.length = b.stack.length := by
  rw [claimValueSlot] at h
  split at h
  next top rest hstack =>
    split at h
    · split at h
      · simp at h
      cases h
      rw [hstack]
      exact ⟨rfl, rfl, rfl⟩
    · cases h
      exact ⟨rfl, rfl, rfl⟩
  next hstack =>
    split at h
    · simp at h
    cases h
    rw [hstack]
    exact ⟨rfl, rfl, rfl⟩

theorem asStr_of_fits {s : Bytes} (h : StrFits s) : asStr s = some ⟨s, h.1⟩ := dif_pos h.1

private theorem writes_scalar {s : Scalar} (hs : s.Fits) :
    ∃ c, s.call = some c ∧ ∀ b b' : TapeBuilder, b.claimValueSlot = .ok b' → headerLen ≤ b.out.length →
      b.Writes [c] (b'.push (emitScalar s)) := by
  -- each call claims its slot, then emits at a cost near the length
  suffices h : ∃ c cost, s.call = some c ∧ cost ≤ (emitScalar s).length + 9 ∧
      ∀ b b' : TapeBuilder, b.claimValueSlot = .ok b' → b.call c = b'.emit cost (emitScalar s) by
    obtain ⟨c, cost, hcall, hcost, hemit⟩ := h
    refine ⟨c, hcall, fun b b' hclaim hheader => ?_⟩
    obtain ⟨hout, hcap, -⟩ := claimValueSlot_ok hclaim
    rw [← hout] at hheader
    exact Writes.emit (hemit b b' hclaim) hcap hcost hheader
  cases s with
  | null =>
    refine ⟨.null, 1, rfl, Nat.le_add_left 1 9, fun b b' hclaim => ?_⟩
    rw [TapeBuilder.call, TapeBuilder.null, hclaim]
    rfl
  | bool v =>
    refine ⟨.bool v, 1, rfl, Nat.le_add_left 1 9, fun b b' hclaim => ?_⟩
    rw [TapeBuilder.call, TapeBuilder.bool, hclaim]
    rfl
  | i64 v =>
    refine ⟨.i64 v, _, rfl, emitI64_cost v, fun b b' hclaim => ?_⟩
    rw [TapeBuilder.call, TapeBuilder.i64, hclaim]
    rfl
  | f64 bits =>
    have hfinite : (⟨bits⟩ : Binary64).isFinite = true := hs
    refine ⟨.f64 bits, f64Len, rfl, Nat.le_add_right 9 9, fun b b' hclaim => ?_⟩
    rw [TapeBuilder.call, TapeBuilder.f64, hclaim]
    simp only [bind, Except.bind]
    rw [if_pos hfinite]
    rfl
  | str s =>
    refine ⟨.strValue ⟨s, hs.1⟩, strHeaderLen s.length + s.length, ?_, ?_, fun b b' hclaim => ?_⟩
    · rw [Scalar.call, asStr_of_fits hs]
      rfl
    · rw [← emitStr_length]
      exact Nat.le_add_right _ _
    · rw [TapeBuilder.call, TapeBuilder.strValue, hclaim]
      rfl

/-- A document is written into any free slot deep enough above the limit. -/
def Rewrites (room : Nat) (d : Doc) : Prop :=
  ∃ calls, d.calls = some calls ∧ ∀ b b' : TapeBuilder, b.claimValueSlot = .ok b' → b.stack.length + room ≤ depthMax →
    headerLen ≤ b.out.length → b.Writes calls (b'.push d.bytes)

theorem push_push (b : TapeBuilder) (k l : Bytes) : (b.push k).push l = b.push (k ++ l) := by
  simp only [push, append_assoc]

theorem push_nil (b : TapeBuilder) : b.push [] = b := by
  simp only [push, append_nil]

theorem push_length_le (b : TapeBuilder) (k : Bytes) : b.out.length ≤ (b.push k).out.length := by
  rw [push, length_append]
  exact Nat.le_add_right _ _

theorem writes_nil (b : TapeBuilder) : b.Writes [] b := .inl rfl

private theorem writes_items {room : Nat} {items : List Doc} (hitems : ∀ d ∈ items, Rewrites room d) :
    ∃ calls, itemsCalls items = some calls ∧ ∀ (b : TapeBuilder) (lenAt : Nat) (rest : List BFrame),
      b.stack = ⟨lenAt, false, false⟩ :: rest → rest.length + 1 + room ≤ depthMax → headerLen ≤ b.out.length →
      b.Writes calls (b.push (itemsBytes items)) := by
  induction items with
  | nil =>
    refine ⟨[], by rw [itemsCalls], fun b lenAt rest _ _ _ => ?_⟩
    rw [itemsBytes, push_nil]
    exact writes_nil b
  | cons d items ih =>
    obtain ⟨calls, hcalls, hwrites⟩ := hitems d mem_cons_self
    obtain ⟨more, hmore, hrest⟩ := ih (forall_mem_cons.mp hitems).2
    refine ⟨calls ++ more, ?_, fun b lenAt rest hstack hdepth hheader => ?_⟩
    · rw [itemsCalls, hcalls, hmore]
      rfl
    · have hclaim : b.claimValueSlot = .ok b := by
        rw [claimValueSlot, hstack]
        rfl
      have hfirst := hwrites b b hclaim (by rw [hstack]; exact hdepth) hheader
      have hsecond := hrest (b.push d.bytes) lenAt rest hstack hdepth (hheader.trans (push_length_le _ _))
      rw [itemsBytes, ← push_push]
      exact hfirst.append hsecond rfl (push_length_le _ _)

private theorem writes_members {room : Nat} {members : List (Bytes × Doc)} (hkeys : ∀ x ∈ members, StrFits x.1)
    (hmembers : ∀ x ∈ members, Rewrites room x.2) :
    ∃ calls, membersCalls members = some calls ∧ ∀ (b : TapeBuilder) (lenAt : Nat) (rest : List BFrame),
      b.stack = ⟨lenAt, true, true⟩ :: rest → rest.length + 1 + room ≤ depthMax → headerLen ≤ b.out.length →
      b.Writes calls (b.push (membersBytes members)) := by
  induction members with
  | nil =>
    refine ⟨[], by rw [membersCalls], fun b lenAt rest _ _ _ => ?_⟩
    rw [membersBytes, push_nil]
    exact writes_nil b
  | cons x members ih =>
    obtain ⟨key, d⟩ := x
    have hkey : StrFits key := hkeys _ mem_cons_self
    obtain ⟨calls, hcalls, hwrites⟩ := hmembers _ mem_cons_self
    obtain ⟨more, hmore, hrest⟩ := ih (forall_mem_cons.mp hkeys).2 (forall_mem_cons.mp hmembers).2
    refine ⟨.key ⟨key, hkey.1⟩ :: (calls ++ more), ?_, fun b lenAt rest hstack hdepth hheader => ?_⟩
    · rw [membersCalls, asStr_of_fits hkey, hmore]
      simp only at hcalls
      rw [hcalls]
      rfl
    · -- the key leaves the object waiting, the value brings it back
      have hfirst : b.Writes [.key ⟨key, hkey.1⟩]
          (({ b with stack := ⟨lenAt, true, false⟩ :: rest } : TapeBuilder).push (emitStr key)) := by
        refine Writes.emit ?_ rfl (?_ : strHeaderLen key.length + key.length ≤ _) hheader
        · rw [TapeBuilder.call, TapeBuilder.key, hstack]
          rfl
        · rw [← emitStr_length]
          exact Nat.le_add_right _ _
      have hclaim : (({ b with stack := ⟨lenAt, true, false⟩ :: rest } : TapeBuilder).push
          (emitStr key)).claimValueSlot = .ok (b.push (emitStr key)) := by
        simp only [claimValueSlot, push, if_true, Bool.false_eq_true, if_false, hstack]
      have hlen : headerLen ≤ (b.push (emitStr key)).out.length := hheader.trans (push_length_le _ _)
      have hvalue := hwrites _ _ hclaim hdepth hlen
      have hsecond := hrest ((b.push (emitStr key)).push d.bytes) lenAt rest hstack hdepth
        (hlen.trans (push_length_le _ _))
      rw [membersBytes, ← push_push, ← push_push, ← singleton_append]
      refine hfirst.append (hvalue.append hsecond rfl (push_length_le _ _)) rfl ?_
      exact (push_length_le (b.push (emitStr key)) _).trans (push_length_le _ _)

/-- A container: its opening, its parts, and the length filled in at its end. -/
private theorem writes_container {isObj : Bool} {inner : Bytes} {c : BuildCall} {calls : List BuildCall}
    (hcall : ∀ b : TapeBuilder, b.call c = b.beginContainer (containerTag isObj)) (hclaim : b.claimValueSlot = .ok b')
    (hdepth : b.stack.length < depthMax) (hheader : headerLen ≤ b.out.length)
    (hparts : ∀ (b : TapeBuilder) (lenAt : Nat) (rest : List BFrame), b.stack = ⟨lenAt, isObj, isObj⟩ :: rest →
      rest.length = b'.stack.length → headerLen ≤ b.out.length → b.Writes calls (b.push inner)) :
    b.Writes (c :: (calls ++ [.endContainer])) (b'.push (container (containerTag isObj) inner)) := by
  obtain ⟨hout, hcap, hstack⟩ := claimValueSlot_ok hclaim
  have htag : (containerTag isObj == tagObj) = isObj := by cases isObj <;> rfl
  let opened : TapeBuilder :=
    { b' with
      out := b'.out ++ [containerTag isObj, 0, 0, 0]
      stack := ⟨b'.out.length + 1, isObj, isObj⟩ :: b'.stack }
  have hbegin : b.Writes [c] opened := by
    have hrun : b.run [c] = b.beginContainer (containerTag isObj) := by
      rw [run, foldlM_cons, hcall]
      cases b.beginContainer (containerTag isObj) <;> rfl
    rw [Writes, hrun, TapeBuilder.beginContainer, hclaim]
    simp only [bind, Except.bind, htag]
    rw [if_neg (by omega), ensureFits]
    by_cases hfits : b'.maxBody < b'.out.length - headerLen + containerOpenLen
    · simp only [if_pos hfits]
      refine .inr ⟨⟨_, rfl⟩, ?_⟩
      have hopen : opened.out.length = b'.out.length + 4 := length_append
      rw [containerOpenLen] at hfits
      rw [← hout] at hheader
      omega
    · simp only [if_neg hfits]
      exact .inl rfl
  have hinner : opened.Writes calls (opened.push inner) := by
    apply hparts opened (b'.out.length + 1) b'.stack rfl rfl
    rw [← hout] at hheader
    exact hheader.trans (push_length_le b' [containerTag isObj, 0, 0, 0])
  have hclosed : (opened.push inner).out = b'.out ++ ([containerTag isObj, 0, 0, 0] ++ inner) := append_assoc _ _ _
  have hend : (opened.push inner).Writes [.endContainer] (b'.push (container (containerTag isObj) inner)) := by
    left
    rw [run, foldlM_cons, TapeBuilder.call, TapeBuilder.endContainer, hclosed]
    have hframes : (opened.push inner).stack = ⟨b'.out.length + 1, isObj, isObj⟩ :: b'.stack := rfl
    rw [hframes]
    simp only
    rw [if_neg (by cases isObj <;> decide), patchLength_open]
    rfl
  have hlen : (opened.push inner).out.length = (b'.push (container (containerTag isObj) inner)).out.length := by
    rw [hclosed, push, container]
    simp only [length_append, length_cons, length_nil, leBytes_length]
    omega
  rw [← singleton_append]
  refine hbegin.append (hinner.append hend rfl (le_of_eq hlen)) hcap ?_
  exact (push_length_le opened inner).trans (le_of_eq hlen)

end TapeBuilder

open TapeBuilder in
theorem Encodable.rewrites {room : Nat} {d : Doc} (h : Encodable room d) : Rewrites room d := by
  induction h with
  | @scalar room s hs =>
    obtain ⟨c, hcall, hwrites⟩ := writes_scalar hs
    refine ⟨[c], ?_, fun b b' hclaim _ hheader => ?_⟩
    · rw [Doc.calls, hcall]
      rfl
    · rw [Doc.bytes]
      exact hwrites b b' hclaim hheader
  | @arr room items hitems hlen ih =>
    obtain ⟨calls, hcalls, hwrites⟩ := writes_items ih
    refine ⟨.beginArr :: (calls ++ [.endContainer]), ?_, fun b b' hclaim hdepth hheader => ?_⟩
    · rw [Doc.calls, hcalls]
      rfl
    · have hlevel := (claimValueSlot_ok hclaim).2.2
      rw [Doc.bytes]
      apply @writes_container _ _ false _ _ _ (fun _ => rfl) hclaim (by omega) hheader
      intro b₁ lenAt rest hstack hrest hheader₁
      exact hwrites b₁ lenAt rest hstack (by omega) hheader₁
  | @obj room members hkeys hmembers hlen ih =>
    obtain ⟨calls, hcalls, hwrites⟩ := writes_members hkeys ih
    refine ⟨.beginObj :: (calls ++ [.endContainer]), ?_, fun b b' hclaim hdepth hheader => ?_⟩
    · rw [Doc.calls, hcalls]
      rfl
    · have hlevel := (claimValueSlot_ok hclaim).2.2
      rw [Doc.bytes]
      apply @writes_container _ _ true _ _ _ (fun _ => rfl) hclaim (by omega) hheader
      intro b₁ lenAt rest hstack hrest hheader₁
      exact hwrites b₁ lenAt rest hstack (by omega) hheader₁

/-- Writing a document gives its encoding, or the cap refuses it. -/
theorem Encodable.buildFragment {d : Doc} (h : Encodable depthMax d) :
    ∃ calls, d.calls = some calls ∧ ∀ maxBody, buildFragment maxBody calls = .ok d.bytes ∨
      (∃ n, buildFragment maxBody calls = .error (.refused (.tooLarge n))) ∧
        min maxBody docBytesMax < d.bytes.length + 9 := by
  obtain ⟨calls, hcalls, hwrites⟩ := h.rewrites
  refine ⟨calls, hcalls, fun maxBody => ?_⟩
  have hclaim : (TapeBuilder.withMaxBody maxBody).claimValueSlot =
      .ok { TapeBuilder.withMaxBody maxBody with rootDone := true } := rfl
  rcases hwrites _ _ hclaim (le_of_eq (zero_add _)) (by rw [TapeBuilder.withMaxBody, length_replicate]) with
    hrun | ⟨⟨n, hrun⟩, hslack⟩
  · left
    rw [InfinityDB.buildFragment, hrun]
    exact congrArg Except.ok (drop_left' length_replicate)
  · right
    refine ⟨⟨n, by rw [InfinityDB.buildFragment, hrun]; rfl⟩, ?_⟩
    rw [TapeBuilder.push, length_append] at hslack
    simp only [TapeBuilder.withMaxBody, length_replicate] at hslack
    omega

end InfinityDB
